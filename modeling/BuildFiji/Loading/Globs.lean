import BuildFiji.Graph.LabelText
import BuildFiji.Loading.GlobResult

/-!
# Globs of a repository

A glob is what its patterns say, whatever the order in which directories are listed,
and two packages have no file in common.
-/

set_option autoImplicit false
set_option linter.all false

namespace BuildFiji.Glob

open Graph SortDedup

section Nested

def lib : FileName := ⟨"lib",by decide,by decide⟩

/-- A package in a directory of another. -/
def nested : PackageLookup :=
  ⟨⟨.file build (.dir lib (.file build .nil) .nil),by simp [Entries.items, lib, build],
    by simp [Entries.Distinct, Entries.items]⟩,[],[],[],[]⟩

theorem nested_visit (package : Path) (rest : Entries) :
    Walker.visit ⟨nested,package⟩ [] (.file build rest) [.name "BUILD"] = [([build],.file)] := by
  have hpicked : picked "BUILD" (.file build rest) = .file build .nil := rfl
  simp [Walker.visit, hpicked, Walker.step, Walker.closed]

theorem nested_matched {package : Path} {rest : Entries} {options : GlobOptions}
    (h : nested.packageDir package = some (.file build rest)) :
    matched ⟨nested,package⟩ options [.name "BUILD"] = ["BUILD"] := by
  have hrun : Walker.run ⟨nested,package⟩ [.name "BUILD"] = [("BUILD",false)] := by
    unfold Walker.run
    rw [h]
    simp only [nested_visit]
    decide
  simp [matched, hrun]

theorem nested_glob {package : Path} {rest : Entries} {options : GlobOptions}
    (h : nested.packageDir package = some (.file build rest)) : glob nested package ["BUILD"] [] options = .ok ["BUILD"] := by
  refine select_ok_iff.mpr ⟨[("BUILD",[.name "BUILD"])],[],.cons rfl .nil,.nil,.inr ⟨?_,by simp⟩,?_⟩
  · simp [nested_matched h]
  · simp only [List.flatMap_cons, List.flatMap_nil, nested_matched h]
    decide

theorem nested_own : glob nested [] ["BUILD"] ["BUILD"] ⟨true,true⟩ = .ok [] := by
  refine select_ok_iff.mpr ⟨[("BUILD",[.name "BUILD"])],[.literal "BUILD"],.cons rfl .nil,.cons rfl .nil,.inl rfl,?_⟩
  simp only [List.flatMap_cons, List.flatMap_nil, @nested_matched [] _ _ rfl]
  decide

end Nested

section Own

variable {segments : List Segment} {names : List String} {kind : Kind}

/-- `?` only adds to what matches. -/
theorem matches_question {pattern name : List Char} (h : Wildcard.Matches false pattern name) :
    Wildcard.Matches true pattern name := by
  induction h with
  | nil => exact .nil
  | star run _ ih => exact .star run ih
  | char hc hfits _ ih =>
    refine .char hc ?_ ih
    simp only [Wildcard.fits, Bool.false_and, Bool.or_false] at hfits
    simp [Wildcard.fits, hfits]

theorem wildcardMatch_question {pattern name : String} (h : wildcardMatch pattern name = true) :
    Wildcard.wildcardMatchWith true pattern name = true := by
  unfold wildcardMatch Wildcard.wildcardMatchWith at h
  unfold Wildcard.wildcardMatchWith
  split at h
  · cases h
  · next hhides =>
    rw [if_neg hhides, Wildcard.Scan.loop_iff, Wildcard.start_result]
    rw [Wildcard.Scan.loop_iff, Wildcard.start_result] at h
    exact matches_question h

theorem segmentsMatch_question (h : segmentsMatchWith false segments names = true) :
    segmentsMatch segments names = true := by
  unfold segmentsMatch
  induction segments generalizing names with
  | nil => exact h
  | cons segment segments ih =>
    cases segment with
    | recursive =>
      obtain ⟨tail,hsuffix,h⟩ := match_recursive_iff.mp h
      exact match_recursive_iff.mpr ⟨tail,hsuffix,ih h⟩
    | name pattern =>
      cases names with
      | nil => exact h
      | cons name names =>
        rw [segmentsMatchWith, Bool.and_eq_true] at h ⊢
        exact ⟨wildcardMatch_question h.1,ih h.2⟩

theorem match_append_last (h : segmentsMatchWith false segments names.dropLast = true)
    (hlast : segments.getLast? = some .recursive) : segmentsMatchWith false segments names = true := by
  induction segments generalizing names with
  | nil => cases hlast
  | cons segment segments ih =>
    by_cases hnil : segments = []
    · rw [hnil, List.getLast?_singleton, Option.some.injEq] at hlast
      rw [hnil, hlast]
      exact match_recursive_iff.mpr ⟨[],List.nil_suffix,rfl⟩
    · have hrest : segments.getLast? = some .recursive := by
        rwa [List.getLast?_cons, List.getLast?_eq_some_getLast hnil, Option.getD_some,
          ← List.getLast?_eq_some_getLast hnil] at hlast
      cases segment with
      | recursive =>
        obtain ⟨tail,⟨above,habove⟩,htail⟩ := match_recursive_iff.mp h
        rw [match_recursive_iff]
        cases names using List.reverseRecOn with
        | nil => exact ⟨tail,⟨above,habove⟩,htail⟩
        | append_singleton names name =>
          rw [List.dropLast_concat] at habove
          refine ⟨tail ++ [name],⟨above,by rw [← List.append_assoc, habove]⟩,ih ?_ hrest⟩
          rwa [List.dropLast_concat]
      | name pattern =>
        cases names with
        | nil => exact h
        | cons name names =>
          cases names with
          | nil => cases h
          | cons second names =>
            rw [List.dropLast_cons₂, segmentsMatchWith, Bool.and_eq_true] at h
            rw [segmentsMatchWith, Bool.and_eq_true]
            exact ⟨h.1,ih h.2 hrest⟩

theorem takes_match (h : takes segments names kind = true) : segmentsMatchWith false segments names = true := by
  unfold takes at h
  split at h
  · next hlast => exact match_append_last h hlast.2
  · exact h

section Excluded

variable {lookup : PackageLookup} {package : Path} {options : GlobOptions} {pattern text : String}

theorem mem_intercalate {sep part : List Char} {parts : List (List Char)} {c : Char} (hpart : part ∈ parts)
    (hc : c ∈ part) : c ∈ sep.intercalate parts := by
  induction parts with
  | nil => cases hpart
  | cons first parts ih =>
    by_cases hnil : parts = []
    · rw [hnil, List.mem_singleton] at hpart
      rwa [hnil, List.intercalate_singleton, ← hpart]
    · rw [List.intercalate_cons_of_ne_nil hnil, List.mem_append, List.mem_append]
      cases List.mem_cons.mp hpart with
      | inl heq => exact .inl (.inl (heq ▸ hc))
      | inr hmem => exact .inr (ih hmem)

/-- The segments of a pattern without stars are its parts. -/
theorem literal_segments {names : List String} {segments : List Segment} (hstar : ∀ name ∈ names, '*' ∉ name.toList)
    (h : List.Forall₂ (fun n s => checkSegment n = .ok s) names segments) : segments = names.map .name := by
  induction h with
  | nil => rfl
  | cons hone _ ih =>
    rw [List.forall_mem_cons] at hstar
    rw [List.map_cons, ih hstar.2]
    unfold checkSegment at hone
    simp only [Fallible.ite_error_ok] at hone
    obtain ⟨-,-,-,hone⟩ := hone
    split at hone
    · next hrec =>
      rw [hrec] at hstar
      exact absurd (by decide) hstar.1
    · rw [Fallible.ite_error_ok] at hone
      rw [← Except.ok.inj hone.2]

theorem match_literal {names : List String} {path : List String} (hstar : ∀ name ∈ names, '*' ∉ name.toList)
    (h : segmentsMatchWith false (names.map .name) path = true) : path = names := by
  induction names generalizing path with
  | nil => exact List.isEmpty_iff.mp h
  | cons name names ih =>
    rw [List.forall_mem_cons] at hstar
    cases path with
    | nil => cases h
    | cons first path =>
      rw [List.map_cons, segmentsMatchWith, Bool.and_eq_true] at h
      have hname : hasWildcard name = false := by simpa [hasWildcard] using hstar.1
      rw [(wildcardMatch_literal hname).mp h.1, ih hstar.2 h.2]

/-- What a pattern includes it excludes as well. -/
theorem includes_excludes (h : Includes lookup package options pattern text) : Excludes pattern text := by
  obtain ⟨segments,hcheck,path,kind,htext,hsees,htaken,-⟩ := h
  have hmatch := takes_match htaken
  have hsegments := Fallible.mapM_ok.mp (checkPattern_some hcheck)
  unfold Excludes Exclude.parse
  split
  · next hliteral =>
    refine ⟨_,rfl,?_⟩
    have hstar : ∀ name ∈ parts pattern, '*' ∉ name.toList := by
      intro name hname hin
      obtain ⟨part,hpart,rfl⟩ := List.mem_map.mp hname
      rw [String.toList_ofList] at hin
      simp only [Bool.and_eq_true, Bool.not_eq_true', List.contains_eq_mem, decide_eq_false_iff_not] at hliteral
      apply hliteral.1
      rw [← intercalate_splitOn '/' pattern.toList]
      exact mem_intercalate hpart hin
    rw [literal_segments hstar hsegments] at hmatch
    have hparts := match_literal hstar hmatch
    rw [← parts_written hsees.below] at hparts
    have hsame : splitOn '/' (written path).toList = splitOn '/' pattern.toList :=
      List.map_injective_iff.mpr (fun a b hab => String.ofList_injective hab) hparts
    have htexts := congrArg (['/'].intercalate ·) hsame
    simp only [intercalate_splitOn, String.toList_inj] at htexts
    rw [Exclude.drops, htext, htexts]
    exact decide_eq_true rfl
  · have hfree : checkPattern pattern false = .ok segments := by
      unfold checkPattern at hcheck ⊢
      simp only [Fallible.ite_error_ok] at hcheck ⊢
      exact ⟨hcheck.1,hcheck.2.1,by simp,hcheck.2.2.2⟩
    rw [hfree]
    refine ⟨_,rfl,?_⟩
    rw [Exclude.drops, htext, parts_written hsees.below]
    exact segmentsMatch_question hmatch

/-- A glob that excludes each of its own patterns has nothing left. -/
theorem glob_own (lookup : PackageLookup) (package : Path) (includes excludes : List String) (options : GlobOptions)
    (paths : List String) (hown : ∀ p ∈ includes, p ∈ excludes)
    (h : glob lookup package includes excludes options = .ok paths) : paths = [] := by
  rw [List.eq_nil_iff_forall_not_mem]
  intro text htext
  obtain ⟨⟨p,hp,hincludes⟩,hexcludes⟩ := (mem_glob h).mp htext
  exact hexcludes p (hown p hp) (includes_excludes hincludes)

theorem glob_own_nested : ∃ paths, glob nested [] ["BUILD"] ["BUILD"] ⟨true,true⟩ = .ok paths ∧ paths = [] :=
  ⟨[],nested_own,glob_own nested [] ["BUILD"] ["BUILD"] ⟨true,true⟩ [] (by simp) nested_own⟩

end Excluded

end Own

section Apart

theorem join_path (package : Path) {path : Path} (hne : path ≠ []) :
    join (written package) (written path) = written (package ++ path) := by
  induction path using List.reverseRecOn generalizing package with
  | nil => exact absurd rfl hne
  | append_singleton path name ih =>
    by_cases hnil : path = []
    · rw [hnil, List.nil_append, join_written]
      simp [written]
    · rw [join_written, ← List.append_assoc, join_written, ← ih package hnil]
      have hpath : written path ≠ "" := fun h => hnil (written_eq_nil.mp h)
      unfold join
      by_cases hpackage : written package = ""
      · simp [hpackage, hpath]
      · simp [hpackage, hpath, String.append_assoc]

variable {lookup : PackageLookup} {package other : Path}

/-- A package that lies below another has none of its files. -/
theorem apart_below {path path' : Path} {kind kind' : Kind} (hpackage : lookup.isPackage other = true)
    (hbelow : package <+: other) (hne : package ≠ other) (h : Sees lookup package path kind)
    (h' : Sees lookup other path' kind') : package ++ path ≠ other ++ path' := by
  intro heq
  obtain ⟨between,rfl⟩ := hbelow
  rw [List.append_assoc] at heq
  have hpath := List.append_cancel_left heq
  have hbetween : between ≠ [] := by
    intro hnil
    rw [hnil, List.append_nil] at hne
    exact hne rfl
  have hown := h.own between (hpath ▸ List.prefix_append between path') hbetween
  rw [hpackage] at hown
  cases hown

/-- No file lies in the globs of two packages. -/
theorem globs_apart (lookup : PackageLookup) (package other : Path) (hpackage : lookup.isPackage package = true)
    (hother : lookup.isPackage other = true) (hne : package ≠ other) (includes excludes includes' excludes' : List String)
    (options options' : GlobOptions) (paths paths' : List String)
    (h : glob lookup package includes excludes options = .ok paths)
    (h' : glob lookup other includes' excludes' options' = .ok paths') :
    ∀ a ∈ paths, ∀ b ∈ paths', join (written package) a ≠ join (written other) b := by
  intro a ha b hb heq
  obtain ⟨⟨_,_,_,_,path,kind,rfl,hsees,_⟩,_⟩ := (mem_glob h).mp ha
  obtain ⟨⟨_,_,_,_,path',kind',rfl,hsees',_⟩,_⟩ := (mem_glob h').mp hb
  rw [join_path _ hsees.below, join_path _ hsees'.below] at heq
  have hpaths := written_injective heq
  rcases List.prefix_or_prefix_of_prefix (List.prefix_append package path)
    (hpaths ▸ List.prefix_append other path') with hbelow | hbelow
  · exact apart_below hother hbelow hne hsees hsees' hpaths
  · exact apart_below hpackage hbelow (Ne.symm hne) hsees' hsees hpaths.symm

theorem globs_apart_nested : join "" "BUILD" ≠ join "lib" "BUILD" :=
  globs_apart nested [] [lib] (by decide) (by decide) (by simp) ["BUILD"] [] ["BUILD"] [] ⟨true,true⟩ ⟨true,true⟩
    ["BUILD"] ["BUILD"] (nested_glob rfl) (nested_glob rfl) "BUILD" List.mem_cons_self "BUILD" List.mem_cons_self

end Apart

section Listing

variable {lookup : PackageLookup} {other : Tree}

/-- The same files under the same names, listed in another order. -/
def Relisted (lookup : PackageLookup) (other : Tree) : Prop :=
  ∀ path, other.entries.kindAt path = lookup.root.entries.kindAt path

theorem isIgnored_root (lookup : PackageLookup) (other : Tree) (path : String) :
    PackageLookup.isIgnored { lookup with root := other } path = lookup.isIgnored path := by
  have hfrom : ∀ components above, PackageLookup.ignoredFrom { lookup with root := other } above components =
      lookup.ignoredFrom above components := by
    intro components
    induction components with
    | nil => exact fun _ => rfl
    | cons component rest ih =>
      intro above
      rw [PackageLookup.ignoredFrom, PackageLookup.ignoredFrom, ih]
      rfl
  unfold PackageLookup.isIgnored
  rw [hfrom]
  rfl

theorem Relisted.isPackage (h : Relisted lookup other) (path : Path) :
    PackageLookup.isPackage { lookup with root := other } path = lookup.isPackage path := by
  rw [Bool.eq_iff_iff, isPackage_iff, isPackage_iff]
  simp only [PackageLookup.isFile, PackageLookup.isRemoved, isIgnored_root, h _]

theorem Relisted.sees (h : Relisted lookup other) (package path : Path) (kind : Kind) :
    Sees { lookup with root := other } package path kind ↔ Sees lookup package path kind := by
  constructor
  · intro hs
    refine ⟨hs.below,(h _).symm.trans hs.there,fun above ha hne hap => ?_,fun above ha hne => ?_⟩
    · exact (isIgnored_root lookup other _).symm.trans (hs.seen above ha hne hap)
    · exact (h.isPackage _).symm.trans (hs.own above ha hne)
  · intro hs
    refine ⟨hs.below,(h _).trans hs.there,fun above ha hne hap => ?_,fun above ha hne => ?_⟩
    · exact (isIgnored_root lookup other _).trans (hs.seen above ha hne hap)
    · exact (h.isPackage _).trans (hs.own above ha hne)

theorem Relisted.run (h : Relisted lookup other) (package : Path) (segments : List Segment) :
    Walker.run ⟨{ lookup with root := other },package⟩ segments = Walker.run ⟨lookup,package⟩ segments := by
  apply run_sorted.ext run_sorted
  intro text
  apply Option.ext
  intro isDir
  rw [find_run, find_run]
  simp only [h.sees]

theorem nested_relisted : Relisted nested ⟨.dir lib (.file build .nil) (.file build .nil),by simp [Entries.items, lib, build],
    by simp [Entries.Distinct, Entries.items]⟩ := by
  intro path
  cases path with
  | nil => rfl
  | cons name path =>
    rw [nested, Entries.kindAt, Entries.kindAt]
    by_cases hbuild : build = name
    · simp [Entries.find, ← hbuild, lib, build]
    · by_cases hlib : lib = name <;> simp [Entries.find, hbuild, hlib]

end Listing

end BuildFiji.Glob
