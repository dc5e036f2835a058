import BuildFiji.Lib.Worklist
import BuildFiji.Loading.Globs
import Mathlib

/-!
# The packages below a directory

Both enumerations are walks with a stack over the directories. That of `//package/...`
goes on below a package, that of `subpackages()` stops there.
-/

set_option autoImplicit false
set_option linter.all false

namespace BuildFiji.Glob

open Graph SortDedup Relation

example : nested.isPackage [] = true ∧ nested.isPackage [lib] = true := by decide +kernel

/-- The directories, by their paths. -/
def Entries.dirs : Entries → List Path
  | .nil => [[]]
  | .file _ rest => rest.dirs
  | .dir name inside rest => inside.dirs.map (name::·) ++ rest.dirs

/-- What a walk over the directories of the tree looks at. A walk without links comes to each
directory once, and the fuel is enough for all of them. -/
def walked (entries : Entries) (next : Path → List Path) (start : Path) : List Path :=
  (Worklist.walk next (Worklist.pendingEdges next entries.dirs []+2) [start] []).getD []

section Walk

variable {entries : Entries} {next : Path → List Path} {start path : Path}

theorem Entries.nil_mem_dirs (entries : Entries) : [] ∈ entries.dirs := by
  induction entries with
  | nil => exact List.mem_singleton_self _
  | file name rest ih => exact ih
  | dir name inside rest _ ih => exact List.mem_append_right _ ih

theorem Entries.mem_dirs (entries : Entries) (h : (entries.dirAt path).isSome = true) : path ∈ entries.dirs := by
  induction entries generalizing path with
  | nil =>
    cases path with
    | nil => exact List.mem_singleton_self _
    | cons name path => cases h
  | file other rest ih =>
    cases path with
    | nil => exact rest.nil_mem_dirs
    | cons name path =>
      apply ih
      rw [dirAt, find] at h
      split at h
      · next below hfind =>
        split at hfind
        · cases hfind
        · rwa [dirAt, hfind]
      · cases h
  | dir other inside rest ihInside ih =>
    cases path with
    | nil => exact List.mem_append_right _ rest.nil_mem_dirs
    | cons name path =>
      rw [dirAt, find] at h
      rw [dirs, List.mem_append]
      split at h
      · next below hfind =>
        split at hfind
        · next hname =>
          cases hfind
          exact .inl (List.mem_map.mpr ⟨path,ihInside h,by rw [hname]⟩)
        · right
          apply ih
          rwa [dirAt, hfind]
      · cases h

theorem walked_some (hnext : ∀ path, next path ≠ [] → (entries.dirAt path).isSome = true) :
    Worklist.walk next (Worklist.pendingEdges next entries.dirs []+2) [start] [] = some (walked entries next start) := by
  obtain ⟨out,hout⟩ := Worklist.walk_ends (fun path h => entries.mem_dirs (hnext path h))
    (show [start].length + Worklist.pendingEdges next entries.dirs [] < Worklist.pendingEdges next entries.dirs []+2 by
      rw [List.length_singleton]
      omega)
  rw [walked, hout]
  rfl

theorem mem_walked (hnext : ∀ path, next path ≠ [] → (entries.dirAt path).isSome = true) :
    path ∈ walked entries next start ↔ ReflTransGen (Worklist.Step next) start path := by
  rw [Worklist.mem_walk (walked_some hnext)]
  simp

theorem walk_nodup {fuel : ℕ} {stack visited out : List Path} (h : visited.Nodup)
    (hwalk : Worklist.walk next fuel stack visited = some out) : out.Nodup := by
  induction fuel generalizing stack visited with
  | zero => cases hwalk
  | succ fuel ih =>
    cases stack with
    | nil =>
      cases hwalk
      exact h
    | cons a stack =>
      rw [Worklist.walk] at hwalk
      split at hwalk
      · exact ih h hwalk
      · next ha =>
        refine ih ?_ hwalk
        rw [← List.concat_eq_append]
        exact h.concat ha

theorem walked_nodup (hnext : ∀ path, next path ≠ [] → (entries.dirAt path).isSome = true) :
    (walked entries next start).Nodup :=
  walk_nodup List.nodup_nil (walked_some hnext)

end Walk

namespace PackageLookup

variable (lookup : PackageLookup)

/-- What is pushed for a directory of the repository. -/
def below (name : Path) : List Path :=
  if lookup.isIgnored (written name) then []
  else
    match lookup.packageDir name with
    | none => []
    | some entries => entries.items.filterMap fun e =>
      if name = [] ∧ lookup.skippedAtRoot.contains e.1.text = true then none
      else if e.2.kind = .file then none
      else if (validatePackageName (written (name ++ [e.1])).toList).isOk then some (name ++ [e.1])
      else none

def found (package : Path) : List Path :=
  (walked lookup.root.entries lookup.below package).filter fun name =>
    !lookup.isIgnored (written name) && !lookup.deleted.contains (written name) && (lookup.buildFile name).isOk

/-- Every package at or below `package`, sorted by name. -/
def packagesUnder (package : Path) : Except LookupError (List String) :=
  match validatePackageName (written package).toList with
  | .error source => .error (.invalidName (written package) source)
  | .ok () => .ok (((lookup.found package).map written).insertionSort (· ≤ ·))

/-- The directories in a directory of a package that are not ignored. -/
def inner (package rel : Path) : List Path :=
  match lookup.packageDir (package ++ rel) with
  | none => []
  | some entries => entries.items.filterMap fun e =>
    if e.2.kind = .file then none
    else if lookup.isIgnored (written (package ++ (rel ++ [e.1]))) then none
    else some (rel ++ [e.1])

/-- What is pushed for a directory of a package. -/
def inside (package rel : Path) : List Path :=
  (lookup.inner package rel).filter fun child => !lookup.isPackage (package ++ child)

def packagesInside (package : Path) : List Path :=
  (walked ((lookup.packageDir package).getD .nil) (lookup.inside package) []).flatMap fun rel =>
    (lookup.inner package rel).filter fun child => lookup.isPackage (package ++ child)

/-- The packages below `package` that match, as paths relative to it. The walk does not enter a
package, so a package's own subpackages are not listed. -/
def subpackages (package : Path) (includes excludes : List String) (allowEmpty : Bool) :
    Except GlobError (List String) :=
  let all := ((lookup.packagesInside package).map written).insertionSort (· ≤ ·)
  select (fun segments => all.filter fun path => segmentsMatchWith false segments (parts path)) .noSubpackageMatch
    .allSubpackagesExcluded includes excludes allowEmpty

end PackageLookup

section Valid

/-- A name that may stand in the name of a package. -/
def allowed (name : FileName) : Prop :=
  (name.text.toList.all fun c => c.isAlphanum || packagePunctuation.contains c) = true ∧
    (name.text.toList.all (· == '.')) = false

theorem segments_ok (segments : List (List Char)) (hne : ∀ s ∈ segments, s ≠ []) :
    validatePackageSegments segments = .ok () ↔ ∀ s ∈ segments, (s.all (· == '.')) = false := by
  induction segments with
  | nil => simp [validatePackageSegments]
  | cons s segments ih =>
    rw [List.forall_mem_cons] at hne ⊢
    rw [validatePackageSegments, if_neg hne.1, Fallible.ite_error_ok, ih hne.2, Bool.not_eq_true]

theorem all_intercalate {parts : List (List Char)} {f : Char → Bool} (hf : f '/' = true) :
    (['/'].intercalate parts).all f = true ↔ ∀ part ∈ parts, part.all f = true := by
  induction parts with
  | nil => simp
  | cons part parts ih =>
    by_cases hnil : parts = []
    · simp [hnil]
    · rw [List.intercalate_cons_of_ne_nil hnil, List.all_append, List.all_append, Bool.and_eq_true, Bool.and_eq_true,
        ih, List.forall_mem_cons]
      simp [hf]

theorem head_written {name : FileName} {path : Path} : (written (name::path)).toList.head? ≠ some '/' := by
  have hhead : (written (name::path)).toList.head? = name.text.toList.head? := by
    rw [toList_written, List.map_cons]
    by_cases hnil : path = []
    · rw [hnil, List.map_nil, List.intercalate_singleton]
    · rw [List.intercalate_cons_of_ne_nil (by simpa using hnil), List.append_assoc,
        List.head?_append_of_ne_nil _ name.toList_ne_nil]
  rw [hhead]
  exact fun h => name.single (List.mem_of_mem_head? h)

theorem last_written {path : Path} : (written path).toList.getLast? ≠ some '/' := by
  rw [toList_written]
  cases path using List.reverseRecOn with
  | nil => simp
  | append_singleton path name =>
    have hlast : (['/'].intercalate ((path ++ [name]).map fun n => n.text.toList)).getLast? =
        name.text.toList.getLast? := by
      by_cases hnil : path = []
      · simp [hnil]
      · rw [List.map_append, Text.intercalate_append _ (by simpa using hnil) (by simp), List.map_cons, List.map_nil,
          List.intercalate_singleton, List.getLast?_append_of_ne_nil _ name.toList_ne_nil]
    rw [hlast]
    exact fun h => name.single (List.mem_of_getLast? h)

/-- The name of a package is allowed name by name. -/
theorem valid_written (path : Path) :
    validatePackageName (written path).toList = .ok () ↔ ∀ name ∈ path, allowed name := by
  cases path with
  | nil => exact iff_of_true rfl (by simp)
  | cons name path =>
    have hne : (written (name::path)).toList ≠ [] := by
      rw [Ne, String.toList_eq_nil_iff, written_eq_nil]
      simp
    have hnames : ∀ s ∈ (name::path).map fun n => n.text.toList, s ≠ [] := by
      intro s hs
      obtain ⟨n,-,rfl⟩ := List.mem_map.mp hs
      exact n.toList_ne_nil
    have hsegments := segments_ok ((name::path).map fun n => n.text.toList) hnames
    rw [validatePackageName, if_neg hne, if_neg head_written, Fallible.ite_error_ok, if_neg last_written,
      splitOn_written (by simp), hsegments, not_not, toList_written, all_intercalate (by decide)]
    simp only [List.forall_mem_map, ← forall₂_and, allowed]

theorem valid_prefix {path other : Path} (h : validatePackageName (written (path ++ other)).toList = .ok ()) :
    validatePackageName (written path).toList = .ok () := by
  rw [valid_written] at h ⊢
  exact fun name hname => h name (List.mem_append_left _ hname)

end Valid

section Under

variable {lookup : PackageLookup} {name path : Path}

theorem mem_below : path ∈ lookup.below name ↔ lookup.isIgnored (written name) = false ∧
    ∃ last inside, path = name ++ [last] ∧ (lookup.packageDir path = some inside) ∧
      ¬(name = [] ∧ lookup.skippedAtRoot.contains last.text = true) ∧
        validatePackageName (written path).toList = .ok () := by
  unfold PackageLookup.below
  cases hignored : lookup.isIgnored (written name)
  · rw [if_neg Bool.false_ne_true, and_iff_right rfl]
    cases hdir : lookup.packageDir name with
    | none =>
      refine iff_of_false List.not_mem_nil ?_
      rintro ⟨last,inside,hpath,hinside,_⟩
      rw [hpath, PackageLookup.packageDir, Entries.dirAt_append] at hinside
      rw [PackageLookup.packageDir] at hdir
      rw [hdir] at hinside
      cases hinside
    | some entries =>
      have hdistinct := dirAt_distinct lookup.root.distinct hdir
      have hchild : ∀ last, lookup.packageDir (name ++ [last]) = entries.dirAt [last] := by
        intro last
        rw [PackageLookup.packageDir, Entries.dirAt_append]
        rw [PackageLookup.packageDir] at hdir
        rw [hdir]
        rfl
      have hvalid : ∀ text : List Char, (validatePackageName text).isOk = true ↔ validatePackageName text = .ok () := by
        intro text
        cases validatePackageName text <;> simp [Except.isOk, Except.toBool]
      rw [List.mem_filterMap]
      constructor
      · rintro ⟨e,he,hsome⟩
        split at hsome
        · cases hsome
        · next hskip =>
          split at hsome
          · cases hsome
          · next hkind =>
            split at hsome
            · next hok =>
              cases hsome
              obtain ⟨last,item⟩ := e
              cases item with
              | file => exact absurd rfl hkind
              | dir inside =>
                refine ⟨last,inside,rfl,?_,hskip,(hvalid _).mp hok⟩
                rw [hchild, Entries.dirAt, hdistinct.mem_items.mp he]
                rfl
            · cases hsome
      · rintro ⟨last,inside,hpath,hinside,hskip,hok⟩
        rw [hpath, hchild, Entries.dirAt] at hinside
        split at hinside
        · next below hfind =>
          refine ⟨(last,.dir below),hdistinct.mem_items.mpr hfind,?_⟩
          rw [if_neg hskip, if_neg Kind.noConfusion, if_pos ((hvalid _).mpr (hpath ▸ hok)), hpath]
        · cases hinside
  · simp

theorem below_dir (h : lookup.below name ≠ []) : (lookup.root.entries.dirAt name).isSome = true := by
  obtain ⟨path,hpath⟩ := List.exists_mem_of_ne_nil _ h
  obtain ⟨-,last,inside,rfl,hinside,-⟩ := mem_below.mp hpath
  rw [PackageLookup.packageDir, Entries.dirAt_append] at hinside
  obtain ⟨entries,hentries,-⟩ := Option.bind_eq_some_iff.mp hinside
  rw [hentries]
  rfl

/-- A directory at the root that the walk of the whole repository does not enter. -/
def Skipped (lookup : PackageLookup) (package path : Path) : Prop :=
  package = [] ∧ ∃ first ∈ path.head?, lookup.skippedAtRoot.contains first.text = true

theorem reached_below {package : Path} (h : ReflTransGen (Worklist.Step lookup.below) package path) :
    package <+: path ∧ ¬Skipped lookup package path := by
  induction h with
  | refl =>
    refine ⟨List.prefix_rfl,?_⟩
    rintro ⟨hnil,first,hfirst,_⟩
    rw [hnil] at hfirst
    cases hfirst
  | @tail dir child _ hstep ih =>
    obtain ⟨-,last,inside,rfl,-,hskip,-⟩ := mem_below.mp hstep
    refine ⟨ih.1.trans (List.prefix_append _ _),?_⟩
    rintro ⟨hnil,first,hfirst,hcontains⟩
    cases dir with
    | nil =>
      cases hfirst
      exact hskip ⟨rfl,hcontains⟩
    | cons top dir => exact ih.2 ⟨hnil,first,hfirst,hcontains⟩

theorem dirAt_prefix {above : Path} (h : above <+: path) (hdir : (lookup.packageDir path).isSome = true) :
    ∃ inside, lookup.packageDir above = some inside := by
  obtain ⟨rest,rfl⟩ := h
  rw [PackageLookup.packageDir, Entries.dirAt_append] at hdir
  cases habove : lookup.root.entries.dirAt above with
  | none =>
    rw [habove] at hdir
    cases hdir
  | some inside => exact ⟨inside,habove⟩

theorem not_ignored_above {above : Path} (h : above <+: path) (hpath : lookup.isIgnored (written path) = false) :
    lookup.isIgnored (written above) = false := by
  rw [← Bool.not_eq_true]
  intro habove
  rw [isIgnored_below habove h] at hpath
  cases hpath

theorem isPackage_seen (h : lookup.isPackage path = true) : lookup.isIgnored (written path) = false ∧
    lookup.deleted.contains (written path) = false := by
  have hremoved := (isPackage_iff.mp h).2.1
  rw [PackageLookup.isRemoved, Bool.or_eq_false_iff] at hremoved
  exact hremoved.symm

/-- The walk comes to every package, as nothing above a package is ignored or has a name
that no package may have. -/
theorem reaches_package {package : Path} (h : lookup.isPackage path = true) (hunder : package <+: path)
    (hskip : ¬Skipped lookup package path) : ReflTransGen (Worklist.Step lookup.below) package path := by
  obtain ⟨rest,rfl⟩ := hunder
  have hdir : (lookup.packageDir (package ++ rest)).isSome = true :=
    (Entries.kindAt_dir _ _).mp (isPackage_dir h)
  have hall : ∀ q, q <+: rest → ReflTransGen (Worklist.Step lookup.below) package (package ++ q) := by
    intro q
    induction q using List.reverseRecOn with
    | nil =>
      intro _
      rw [List.append_nil]
    | append_singleton q name ih =>
      intro hq
      have hbelow : package ++ (q ++ [name]) <+: package ++ rest := (List.prefix_append_right_inj package).mpr hq
      refine (ih ((List.prefix_append q [name]).trans hq)).tail (mem_below.mpr ⟨?_,name,?_⟩)
      · exact not_ignored_above ((List.prefix_append_right_inj package).mpr ((List.prefix_append q [name]).trans hq))
          (isPackage_seen h).1
      · obtain ⟨inside,hinside⟩ := dirAt_prefix hbelow hdir
        refine ⟨inside,(List.append_assoc ..).symm,hinside,?_,?_⟩
        · rintro ⟨hnil,hcontains⟩
          obtain ⟨hpackage,hq'⟩ := List.append_eq_nil_iff.mp hnil
          rw [hq'] at hq
          obtain ⟨others,hothers⟩ := hq
          exact hskip ⟨hpackage,name,by simp [hpackage, ← hothers],hcontains⟩
        · obtain ⟨others,hothers⟩ := hbelow
          apply valid_prefix
          rw [hothers]
          exact (isPackage_iff.mp h).1
  exact hall rest List.prefix_rfl

theorem mem_found {package : Path} : path ∈ lookup.found package ↔
    package <+: path ∧ lookup.isPackage path = true ∧ ¬Skipped lookup package path := by
  have hok : (lookup.buildFile path).isOk = lookup.isPackage path := by
    unfold PackageLookup.isPackage
    cases lookup.buildFile path <;> rfl
  rw [PackageLookup.found, List.mem_filter, mem_walked fun _ => below_dir, hok, Bool.and_eq_true]
  constructor
  · rintro ⟨hreach,_,hpackage⟩
    obtain ⟨hunder,hskip⟩ := reached_below hreach
    exact ⟨hunder,hpackage,hskip⟩
  · rintro ⟨hunder,hpackage,hskip⟩
    obtain ⟨hignored,hdeleted⟩ := isPackage_seen hpackage
    refine ⟨reaches_package hpackage hunder hskip,?_,hpackage⟩
    rw [hignored, hdeleted]
    rfl

theorem sorted_of_nodup {α : Type} [LinearOrder α] {l : List α} (h : l.Nodup) :
    (l.insertionSort (· ≤ ·)).Pairwise (· < ·) := by
  have hle := List.pairwise_insertionSort (· ≤ ·) l
  have hne := (List.perm_insertionSort (· ≤ ·) l).nodup_iff.mpr h
  exact (hle.and hne).imp fun h => lt_of_le_of_ne h.1 h.2

theorem packagesUnder_ok {package : Path} {names : List String} :
    lookup.packagesUnder package = .ok names ↔ validatePackageName (written package).toList = .ok () ∧
      names = ((lookup.found package).map written).insertionSort (· ≤ ·) := by
  unfold PackageLookup.packagesUnder
  split
  · next hname => simp [hname]
  · next hname =>
    rw [and_iff_right hname, Except.ok.injEq]
    exact eq_comm

theorem mem_packagesUnder {package : Path} {text : String} :
    text ∈ ((lookup.found package).map written).insertionSort (· ≤ ·) ↔
      ∃ path, text = written path ∧ package <+: path ∧ lookup.isPackage path = true ∧
        ¬Skipped lookup package path := by
  rw [List.mem_insertionSort, List.mem_map]
  apply exists_congr
  intro path
  rw [mem_found, and_comm, eq_comm]

end Under

/-- A package below another with none between them. -/
structure Nearest (lookup : PackageLookup) (package path : Path) : Prop where
  below : path ≠ []
  own : lookup.isPackage (package ++ path) = true
  nearest : ∀ between, between <+: path → between ≠ [] → between ≠ path → lookup.isPackage (package ++ between) = false

section Inside

variable {lookup : PackageLookup} {package rel path : Path}

theorem mem_inner : path ∈ lookup.inner package rel ↔ ∃ last inside, path = rel ++ [last] ∧
    lookup.packageDir (package ++ path) = some inside ∧ lookup.isIgnored (written (package ++ path)) = false := by
  unfold PackageLookup.inner
  cases hdir : lookup.packageDir (package ++ rel) with
  | none =>
    refine iff_of_false List.not_mem_nil ?_
    rintro ⟨last,inside,hpath,hinside,_⟩
    rw [hpath, ← List.append_assoc, PackageLookup.packageDir, Entries.dirAt_append] at hinside
    rw [PackageLookup.packageDir] at hdir
    rw [hdir] at hinside
    cases hinside
  | some entries =>
    have hdistinct := dirAt_distinct lookup.root.distinct hdir
    have hchild : ∀ last, lookup.packageDir (package ++ (rel ++ [last])) = entries.dirAt [last] := by
      intro last
      rw [← List.append_assoc, PackageLookup.packageDir, Entries.dirAt_append]
      rw [PackageLookup.packageDir] at hdir
      rw [hdir]
      rfl
    rw [List.mem_filterMap]
    constructor
    · rintro ⟨e,he,hsome⟩
      split at hsome
      · cases hsome
      · next hkind =>
        split at hsome
        · cases hsome
        · next hseen =>
          cases hsome
          obtain ⟨last,item⟩ := e
          cases item with
          | file => exact absurd rfl hkind
          | dir inside =>
            refine ⟨last,inside,rfl,?_,Bool.not_eq_true _ ▸ hseen⟩
            rw [hchild, Entries.dirAt, hdistinct.mem_items.mp he]
            rfl
    · rintro ⟨last,inside,hpath,hinside,hseen⟩
      rw [hpath, hchild, Entries.dirAt] at hinside
      split at hinside
      · next below hfind =>
        refine ⟨(last,.dir below),hdistinct.mem_items.mpr hfind,?_⟩
        rw [if_neg Kind.noConfusion, if_neg (by rw [← hpath, hseen]; simp), hpath]
      · cases hinside

theorem inside_dir (h : lookup.inside package rel ≠ []) :
    (((lookup.packageDir package).getD .nil).dirAt rel).isSome = true := by
  obtain ⟨path,hpath⟩ := List.exists_mem_of_ne_nil _ h
  obtain ⟨last,inside,rfl,hinside,-⟩ := mem_inner.mp (List.mem_filter.mp hpath).1
  rw [← List.append_assoc, PackageLookup.packageDir, Entries.dirAt_append] at hinside
  obtain ⟨entries,hentries,-⟩ := Option.bind_eq_some_iff.mp hinside
  rw [Entries.dirAt_append] at hentries
  obtain ⟨top,htop,hrel⟩ := Option.bind_eq_some_iff.mp hentries
  rw [PackageLookup.packageDir, htop, Option.getD_some, hrel]
  rfl

theorem reached_inside (h : ReflTransGen (Worklist.Step (lookup.inside package)) [] rel) :
    ∀ between, between <+: rel → between ≠ [] → lookup.isPackage (package ++ between) = false := by
  induction h with
  | refl => exact fun between hb hne => absurd (List.prefix_nil.mp hb) hne
  | tail _ hstep ih =>
    obtain ⟨hinner,hpackage⟩ := List.mem_filter.mp hstep
    obtain ⟨last,inside,rfl,_⟩ := mem_inner.mp hinner
    intro between hb hne
    rw [List.prefix_concat_iff] at hb
    cases hb with
    | inl heq =>
      rw [heq]
      exact Bool.not_eq_true' _ ▸ hpackage
    | inr hb => exact ih between hb hne

theorem reaches_inside (hpackage : lookup.isPackage (package ++ path) = true) (hrel : rel <+: path)
    (h : ∀ between, between <+: rel → between ≠ [] → lookup.isPackage (package ++ between) = false) :
    ReflTransGen (Worklist.Step (lookup.inside package)) [] rel := by
  have hdir : (lookup.packageDir (package ++ path)).isSome = true :=
    (Entries.kindAt_dir _ _).mp (isPackage_dir hpackage)
  induction rel using List.reverseRecOn with
  | nil => exact .refl
  | append_singleton rel name ih =>
    have habove : rel <+: rel ++ [name] := List.prefix_append rel [name]
    refine (ih (habove.trans hrel) fun between hb => h between (hb.trans habove)).tail (List.mem_filter.mpr ⟨?_,?_⟩)
    · have hbelow : package ++ (rel ++ [name]) <+: package ++ path := (List.prefix_append_right_inj package).mpr hrel
      obtain ⟨inside,hinside⟩ := dirAt_prefix hbelow hdir
      exact mem_inner.mpr ⟨name,inside,rfl,hinside,not_ignored_above hbelow (isPackage_seen hpackage).1⟩
    · rw [h (rel ++ [name]) List.prefix_rfl (by simp)]
      rfl

theorem mem_packagesInside : path ∈ lookup.packagesInside package ↔ Nearest lookup package path := by
  rw [PackageLookup.packagesInside, List.mem_flatMap]
  constructor
  · rintro ⟨rel,hrel,hpath⟩
    rw [mem_walked fun _ => inside_dir] at hrel
    obtain ⟨hinner,hpackage⟩ := List.mem_filter.mp hpath
    obtain ⟨last,inside,rfl,_⟩ := mem_inner.mp hinner
    refine ⟨by simp,hpackage,fun between hb hne hstrict => ?_⟩
    rw [List.prefix_concat_iff] at hb
    exact reached_inside hrel between (hb.resolve_left hstrict) hne
  · intro h
    obtain ⟨rel,last,hsplit⟩ := List.eq_nil_or_concat path |>.resolve_left h.below
    rw [List.concat_eq_append] at hsplit
    have hrel : rel <+: path := hsplit ▸ List.prefix_append rel [last]
    have hdir := isPackage_dir h.own
    refine ⟨rel,(mem_walked fun _ => inside_dir).mpr (reaches_inside h.own hrel fun between hb hne => ?_),?_⟩
    · apply h.nearest between (hb.trans hrel) hne
      intro heq
      have hlength := hb.length_le
      rw [heq, hsplit, List.length_append, List.length_singleton] at hlength
      omega
    · obtain ⟨inside,hinside⟩ := dirAt_prefix List.prefix_rfl ((Entries.kindAt_dir _ _).mp hdir)
      refine List.mem_filter.mpr ⟨mem_inner.mpr ⟨last,inside,hsplit,hinside,(isPackage_seen h.own).1⟩,h.own⟩

/-- An include pattern takes a package below. -/
def Subpackage (lookup : PackageLookup) (package : Path) (pattern text : String) : Prop :=
  ∃ segments, checkPattern pattern true = .ok segments ∧ ∃ path, text = written path ∧
    Nearest lookup package path ∧ segmentsMatchWith false segments (path.map FileName.text) = true

theorem gives_subpackage {pattern text : String} : Gives (fun segments =>
    (((lookup.packagesInside package).map written).insertionSort (· ≤ ·)).filter fun path =>
      segmentsMatchWith false segments (parts path)) pattern text ↔ Subpackage lookup package pattern text := by
  apply exists_congr
  intro segments
  apply and_congr_right
  intro _
  rw [List.mem_filter, List.mem_insertionSort, List.mem_map]
  constructor
  · rintro ⟨⟨path,hpath,htext⟩,hmatch⟩
    have hnearest := mem_packagesInside.mp hpath
    rw [← htext, parts_written hnearest.below] at hmatch
    exact ⟨path,htext.symm,hnearest,hmatch⟩
  · rintro ⟨path,htext,hnearest,hmatch⟩
    rw [htext, parts_written hnearest.below]
    exact ⟨⟨path,mem_packagesInside.mpr hnearest,rfl⟩,hmatch⟩

theorem exists_nearest (hne : path ≠ []) (h : lookup.isPackage (package ++ path) = true) :
    ∃ near, near <+: path ∧ Nearest lookup package near := by
  induction hlength : path.length using Nat.strong_induction_on generalizing path with
  | _ n ih =>
    by_cases hbetween : ∃ between, between <+: path ∧ between ≠ [] ∧ between ≠ path ∧
        lookup.isPackage (package ++ between) = true
    · obtain ⟨between,hbefore,hne',hstrict,hpackage⟩ := hbetween
      have hless : between.length < n := by
        rw [← hlength]
        exact lt_of_le_of_ne hbefore.length_le fun heq => hstrict (hbefore.eq_of_length heq)
      obtain ⟨near,hnear,hnearest⟩ := ih between.length hless hne' hpackage rfl
      exact ⟨near,hnear.trans hbefore,hnearest⟩
    · refine ⟨path,List.prefix_rfl,hne,h,fun between hb hne' hstrict => ?_⟩
      rw [← Bool.not_eq_true]
      exact fun hpackage => hbetween ⟨between,hb,hne',hstrict,hpackage⟩

theorem mem_subpackages {subs : List String} (h : lookup.subpackages package ["**"] [] true = .ok subs) (sub : Path) :
    written sub ∈ subs ↔ Nearest lookup package sub := by
  obtain ⟨-,-,-,-,hmem⟩ := select_exact.mp h
  rw [hmem]
  simp only [gives_subpackage, List.mem_singleton, exists_eq_left, List.not_mem_nil, false_implies, implies_true,
    and_true]
  constructor
  · rintro ⟨_,_,path,hpath,hnearest,_⟩
    rwa [written_injective hpath]
  · intro hnearest
    exact ⟨[.recursive],rfl,sub,rfl,hnearest,match_recursive_iff.mpr ⟨[],List.nil_suffix,rfl⟩⟩

end Inside

end BuildFiji.Glob
