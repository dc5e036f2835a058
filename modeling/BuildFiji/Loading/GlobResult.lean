import BuildFiji.Lib.SortDedup
import BuildFiji.Loading.GlobFound
import Mathlib

/-!
# Globs and packages

What `glob()` gives is the union of its include patterns less what an exclude pattern
matches. A file below a package lies in the globs of that package only.
-/

set_option autoImplicit false
set_option linter.all false

namespace BuildFiji.Glob

open Graph SortDedup

/-- Path (relative to the package) and whether it is a directory. -/
def Walker.run (walker : Walker) (segments : List Segment) : List (String × Bool) :=
  match walker.lookup.packageDir walker.package with
  | none => []
  | some entries =>
    SortedAssoc.collect ((walker.visit [] entries segments).map fun e => (written e.1,decide (e.2 = .dir)))

structure GlobOptions where
  excludeDirectories : Bool := true
  allowEmpty : Bool := false

def compile (pattern : String) : Except GlobError (String × List Segment) :=
  match checkPattern pattern true with
  | .ok segments => .ok (pattern,segments)
  | .error reason => .error (.invalidPattern pattern reason)

/-- The include patterns one after the other: each has to match something. -/
def gather (matched : List Segment → List String) (failure : String → GlobError) (allowEmpty : Bool) :
    List (String × List Segment) → List String → Except GlobError (List String)
  | [], found => .ok found
  | (pattern,segments)::rest, found =>
    if (matched segments).isEmpty && !allowEmpty then .error (failure pattern)
    else gather matched failure allowEmpty rest (found ++ matched segments)

/-- What include patterns match less what exclude patterns do. -/
def select (matched : List Segment → List String) (failure : String → GlobError) (nothing : GlobError)
    (includes excludes : List String) (allowEmpty : Bool) : Except GlobError (List String) := do
  let compiled ← includes.mapM compile
  let parsed ← excludes.mapM Exclude.parse
  let found ← gather matched failure allowEmpty compiled []
  let left := (sortDedup found).filter fun path => !parsed.any fun e => e.drops path
  if left.isEmpty && !allowEmpty then throw nothing
  return left

/-- What one include pattern gives. -/
def matched (walker : Walker) (options : GlobOptions) (segments : List Segment) : List String :=
  ((walker.run segments).filter fun e => !(e.2 && options.excludeDirectories)).map Prod.fst

def glob (lookup : PackageLookup) (package : Path) (includes excludes : List String) (options : GlobOptions) :
    Except GlobError (List String) :=
  select (matched ⟨lookup,package⟩ options) .noMatch .allExcluded includes excludes options.allowEmpty

/-- A path below a package that no directory hides: none on the way is ignored, and none of
them, nor the path itself, is a package of its own. -/
structure Sees (lookup : PackageLookup) (package path : Path) (kind : Kind) : Prop where
  below : path ≠ []
  there : lookup.root.entries.kindAt (package ++ path) = some kind
  seen : ∀ above, above <+: path → above ≠ [] → above ≠ path →
    lookup.isIgnored (written (package ++ above)) = false
  own : ∀ above, above <+: path → above ≠ [] → lookup.isPackage (package ++ above) = false

section Walk

variable {walker : Walker} {dir path : Path} {entries : Entries} {kind : Kind}

theorem dirAt_distinct {inside : Entries} (h : entries.Distinct) (hdir : entries.dirAt path = some inside) :
    inside.Distinct := by
  induction path generalizing entries with
  | nil => exact Option.some.inj hdir ▸ h
  | cons name path ih =>
    rw [Entries.dirAt] at hdir
    split at hdir
    · next below hfind => exact ih (h.inside (h.mem_items.mpr hfind)) hdir
    · cases hdir

theorem file_not_package {lookup : PackageLookup} (h : lookup.root.entries.kindAt path = some .file) :
    lookup.isPackage path = false := by
  by_contra hpackage
  have hdir := isPackage_dir (Bool.not_eq_false _ ▸ hpackage)
  exact Kind.noConfusion (Option.some.inj (h.symm.trans hdir))

/-- The way down, seen from its end. -/
theorem meets_iff (hdir : walker.lookup.packageDir (walker.qualified dir) = some entries) (h : entries.Distinct) :
    walker.Meets dir entries path kind ↔ entries.kindAt path = some kind ∧
      (∀ above, above <+: path → above ≠ path → walker.closed (dir ++ above) = false) ∧
        ∀ above, above <+: path → above ≠ [] → walker.isSubpackage (dir ++ above) = false := by
  induction path generalizing dir entries with
  | nil =>
    constructor
    · intro hkind
      refine ⟨congrArg some (Eq.symm hkind),fun above ha hne => absurd (List.prefix_nil.mp ha) hne,?_⟩
      exact fun above ha hne => absurd (List.prefix_nil.mp ha) hne
    · exact fun hkind => (Option.some.inj hkind.1).symm
  | cons name path ih =>
    have hbelow : ∀ inside, (name,Item.dir inside) ∈ entries.items →
        walker.lookup.packageDir (walker.qualified (dir ++ [name])) = some inside := by
      intro inside hmem
      have hfind := h.mem_items.mp hmem
      rw [PackageLookup.packageDir, Walker.qualified, ← List.append_assoc, Entries.dirAt_append]
      rw [PackageLookup.packageDir, Walker.qualified] at hdir
      simp [hdir, Entries.dirAt, hfind]
    constructor
    · rintro ⟨hclosed,hmet⟩
      obtain ⟨hfile,rfl,rfl⟩|⟨inside,hmem,hsub,hmet⟩ := hmet
      · have hkind : entries.kindAt [name] = some .file := by simp [Entries.kindAt, h.mem_items.mp hfile]
        refine ⟨hkind,fun above ha hne => ?_,fun above ha hne => ?_⟩
        · have hnil : above = [] := by
            cases above with
            | nil => rfl
            | cons first rest =>
              obtain ⟨rfl,hrest⟩ := List.cons_prefix_cons.mp ha
              exact absurd (congrArg _ (List.prefix_nil.mp hrest)) hne
          rw [hnil, List.append_nil]
          exact hclosed
        · obtain ⟨first,rest,rfl⟩ := List.exists_cons_of_ne_nil hne
          obtain ⟨rfl,hrest⟩ := List.cons_prefix_cons.mp ha
          rw [List.prefix_nil.mp hrest]
          apply file_not_package
          rw [Walker.qualified, ← List.append_assoc, Entries.kindAt_append _ _ _ (by simp)]
          rw [PackageLookup.packageDir, Walker.qualified] at hdir
          rw [hdir]
          exact hkind
      · obtain ⟨hkind,hopen,hown⟩ := (ih (hbelow inside hmem) (h.inside hmem)).mp hmet
        refine ⟨by simp [Entries.kindAt, h.mem_items.mp hmem, hkind],fun above ha hne => ?_,fun above ha hne => ?_⟩
        · cases above with
          | nil => rwa [List.append_nil]
          | cons first rest =>
            obtain ⟨rfl,hrest⟩ := List.cons_prefix_cons.mp ha
            rw [List.append_cons]
            exact hopen rest hrest fun heq => hne (congrArg _ heq)
        · obtain ⟨first,rest,rfl⟩ := List.exists_cons_of_ne_nil hne
          obtain ⟨rfl,hrest⟩ := List.cons_prefix_cons.mp ha
          by_cases hnil : rest = []
          · rw [hnil]
            exact hsub
          · rw [List.append_cons]
            exact hown rest hrest hnil
    · rintro ⟨hkind,hopen,hown⟩
      have hclosed := hopen [] List.nil_prefix (by simp)
      rw [List.append_nil] at hclosed
      refine ⟨hclosed,?_⟩
      rw [Entries.kindAt] at hkind
      split at hkind
      · next inside hfind =>
        have hmem := h.mem_items.mpr hfind
        refine .inr ⟨inside,hmem,hown [name] (by simp) (by simp),?_⟩
        refine (ih (hbelow inside hmem) (h.inside hmem)).mpr ⟨hkind,fun above ha hne => ?_,fun above ha hne => ?_⟩
        · rw [← List.append_cons]
          exact hopen (name::above) (List.cons_prefix_cons.mpr ⟨rfl,ha⟩) fun heq => hne (List.cons.inj heq).2
        · rw [← List.append_cons]
          exact hown (name::above) (List.cons_prefix_cons.mpr ⟨rfl,ha⟩) (by simp)
      · next hfind =>
        left
        split at hkind
        · next hnil => exact ⟨h.mem_items.mpr hfind,hnil,(Option.some.inj hkind).symm⟩
        · cases hkind
      · cases hkind

variable {segments : List Segment}

theorem finds_sees (hdir : walker.lookup.packageDir walker.package = some entries) :
    walker.Finds [] entries segments path kind ↔
      segments ≠ [] ∧ Sees walker.lookup walker.package path kind ∧ takes segments (path.map FileName.text) kind = true := by
  have hroot : walker.lookup.packageDir (walker.qualified []) = some entries := by
    rwa [Walker.qualified, List.append_nil]
  have hmeets := fun path kind => @meets_iff walker [] path entries kind hroot
    (dirAt_distinct walker.lookup.root.distinct hdir)
  have hkind : ∀ path, path ≠ [] →
      walker.lookup.root.entries.kindAt (walker.package ++ path) = entries.kindAt path := by
    intro path hne
    rw [Entries.kindAt_append _ _ _ hne]
    rw [PackageLookup.packageDir] at hdir
    rw [hdir]
    rfl
  constructor
  · intro h
    have hne : path ≠ [] := fun hnil => h.below hnil rfl
    obtain ⟨hk,hopen,hown⟩ := (hmeets path kind).mp h.met
    refine ⟨h.some,⟨hne,(hkind path hne).trans hk,fun above ha hab hap => ?_,hown⟩,h.taken⟩
    have hclosed := hopen above ha hap
    rw [List.nil_append, Walker.closed, Bool.and_eq_false_iff] at hclosed
    exact hclosed.resolve_left (by simpa using hab)
  · rintro ⟨hsome,hsees,htaken⟩
    refine ⟨hsome,fun hnil => absurd hnil hsees.below,?_,htaken⟩
    rw [hmeets]
    refine ⟨(hkind path hsees.below).symm.trans hsees.there,fun above ha hap => ?_,hsees.own⟩
    rw [List.nil_append, Walker.closed, Bool.and_eq_false_iff]
    by_cases hab : above = []
    · exact .inl (by simpa using hab)
    · exact .inr (hsees.seen above ha hab hap)

theorem lastUnder_of_mem {κ β : Type} [LinearOrder κ] {k : κ} {v : β} {l : List (κ × β)} (hmem : (k,v) ∈ l)
    (h : ∀ e ∈ l, e.1 = k → e.2 = v) : SortedAssoc.lastUnder k l = some v := by
  cases hlast : SortedAssoc.lastUnder k l with
  | none => exact absurd rfl (SortedAssoc.lastUnder_none.mp hlast _ hmem)
  | some w => exact congrArg some (h _ (SortedAssoc.mem_of_lastUnder hlast) rfl)

/-- The walk of an include pattern finds what the pattern takes among the paths that no directory
hides, each with its kind. -/
theorem find_run {text : String} {isDir : Bool} : SortedAssoc.find text (walker.run segments) = some isDir ↔
    ∃ path kind, text = written path ∧ isDir = decide (kind = .dir) ∧ segments ≠ [] ∧
      Sees walker.lookup walker.package path kind ∧ takes segments (path.map FileName.text) kind = true := by
  unfold Walker.run
  split
  · next hdir =>
    refine iff_of_false (by simp [SortedAssoc.find]) ?_
    rintro ⟨path,kind,_,_,_,hsees,_⟩
    have hthere := hsees.there
    rw [Entries.kindAt_append _ _ _ hsees.below] at hthere
    rw [PackageLookup.packageDir] at hdir
    rw [hdir] at hthere
    cases hthere
  · next entries hdir =>
    have hmem : ∀ path kind, (path,kind) ∈ walker.visit [] entries segments ↔
        walker.Finds [] entries segments path kind := by
      intro path kind
      rw [Walker.visit_finds walker [] entries segments (dirAt_distinct walker.lookup.root.distinct hdir)]
      simp
    rw [SortedAssoc.find_collect]
    constructor
    · intro h
      obtain ⟨e,he,heq⟩ := List.mem_map.mp (SortedAssoc.mem_of_lastUnder h)
      rw [Prod.mk.injEq] at heq
      exact ⟨e.1,e.2,heq.1.symm,heq.2.symm,(finds_sees hdir).mp ((hmem _ _).mp he)⟩
    · rintro ⟨path,kind,htext,hisDir,h⟩
      have hfinds := (finds_sees hdir).mpr h
      apply lastUnder_of_mem
      · rw [htext, hisDir]
        exact List.mem_map_of_mem (f := fun e : Path × Kind => (written e.1,decide (e.2 = .dir))) ((hmem _ _).mpr hfinds)
      · intro e he hkey
        obtain ⟨found,hfound,rfl⟩ := List.mem_map.mp he
        have hpath : found.1 = path := written_injective (hkey.trans htext)
        have hother := ((finds_sees hdir).mp ((hmem found.1 found.2).mp hfound)).2.1.there
        rw [hpath] at hother
        rw [hisDir, Option.some.inj (hother.symm.trans h.2.1.there)]

theorem run_sorted : SortedAssoc.Sorted (walker.run segments) := by
  unfold Walker.run
  split
  · exact .nil
  · exact SortedAssoc.collect_sorted _

end Walk

/-- An exclude pattern drops a path. -/
def Excludes (pattern text : String) : Prop := ∃ e, Exclude.parse pattern = .ok e ∧ e.drops text = true

section Select

variable {matched : List Segment → List String} {failure : String → GlobError} {nothing : GlobError}
  {includes excludes : List String} {allowEmpty : Bool}

theorem checkPattern_some {pattern : String} {question : Bool} {segments : List Segment}
    (h : checkPattern pattern question = .ok segments) : (parts pattern).mapM checkSegment = .ok segments := by
  unfold checkPattern at h
  rw [Fallible.ite_error_ok, Fallible.ite_error_ok, Fallible.ite_error_ok] at h
  exact h.2.2.2

theorem checkPattern_ne {pattern : String} {question : Bool} {segments : List Segment}
    (h : checkPattern pattern question = .ok segments) : segments ≠ [] := by
  have hall := Fallible.mapM_ok.mp (checkPattern_some h)
  intro hnil
  rw [hnil, List.forall₂_nil_right_iff, parts, List.map_eq_nil_iff] at hall
  exact splitOn_ne_nil _ _ hall

theorem gather_ok {compiled : List (String × List Segment)} {found out : List String} :
    gather matched failure allowEmpty compiled found = .ok out ↔
      (allowEmpty = true ∨ ∀ e ∈ compiled, matched e.2 ≠ []) ∧ out = found ++ compiled.flatMap fun e => matched e.2 := by
  induction compiled generalizing found with
  | nil =>
    rw [gather, Except.ok.injEq, List.flatMap_nil, List.append_nil, and_iff_right (.inr (by simp))]
    exact eq_comm
  | cons e rest ih =>
    rw [gather, Fallible.ite_error_ok, ih, ← and_assoc]
    apply and_congr
    · cases allowEmpty <;> simp
    · simp

theorem compile_ok {pattern : String} {c : String × List Segment} :
    compile pattern = .ok c ↔ checkPattern pattern true = .ok c.2 ∧ c.1 = pattern := by
  unfold compile
  split
  · next segments h =>
    rw [h, Except.ok.injEq, Except.ok.injEq, Prod.ext_iff, and_comm]
    exact and_congr_right fun _ => eq_comm
  · next h => simp [h]

/-- The outcome in the order of the code. -/
theorem select_ok_iff {paths : List String} :
    select matched failure nothing includes excludes allowEmpty = .ok paths ↔
      ∃ compiled parsed, List.Forall₂ (fun p c => compile p = .ok c) includes compiled ∧
        List.Forall₂ (fun p e => Exclude.parse p = .ok e) excludes parsed ∧
          (allowEmpty = true ∨ (∀ c ∈ compiled, matched c.2 ≠ []) ∧ paths ≠ []) ∧
            paths = (sortDedup (compiled.flatMap fun c => matched c.2)).filter
              fun path => !parsed.any fun e => e.drops path := by
  simp only [select, Fallible.bind_ok, Fallible.mapM_ok, gather_ok, List.nil_append]
  constructor
  · rintro ⟨compiled,hcompiled,parsed,hparsed,found,⟨hmatched,hfound⟩,hleft⟩
    refine ⟨compiled,parsed,hcompiled,hparsed,?_⟩
    cases allowEmpty with
    | true =>
      simp only [Bool.not_true, Bool.and_false, Bool.false_eq_true, if_false, Fallible.pure_ok] at hleft
      exact ⟨.inl rfl,hfound ▸ hleft.symm⟩
    | false =>
      simp only [Bool.not_false, Bool.and_true] at hleft
      split at hleft
      · simp [throw, throwThe, MonadExceptOf.throw, bind, Except.bind] at hleft
      · next hne =>
        simp only [bind, Except.bind, pure, Except.pure, Except.ok.injEq] at hleft
        rw [hleft] at hne
        exact ⟨.inr ⟨hmatched.resolve_left Bool.false_ne_true,by simpa using hne⟩,hfound ▸ hleft.symm⟩
  · rintro ⟨compiled,parsed,hcompiled,hparsed,hempty,hpaths⟩
    refine ⟨compiled,hcompiled,parsed,hparsed,_,⟨hempty.imp_right And.left,rfl⟩,?_⟩
    rw [← hpaths]
    split
    · next hthrow =>
      simp only [Bool.and_eq_true, Bool.not_eq_true'] at hthrow
      rw [hthrow.2] at hempty
      exact absurd (List.isEmpty_iff.mp hthrow.1) (hempty.resolve_left Bool.false_ne_true).2
    · rfl

/-- An include pattern gives a path. -/
def Gives (matched : List Segment → List String) (pattern text : String) : Prop :=
  ∃ segments, checkPattern pattern true = .ok segments ∧ text ∈ matched segments

theorem gives_iff {pattern text : String} {c : String × List Segment} (hc : compile pattern = .ok c) :
    Gives matched pattern text ↔ text ∈ matched c.2 := by
  have hcheck := (compile_ok.mp hc).1
  unfold Gives
  rw [hcheck]
  simp

theorem included_iff {compiled : List (String × List Segment)} {text : String}
    (hcompiled : List.Forall₂ (fun p c => compile p = .ok c) includes compiled) :
    text ∈ compiled.flatMap (fun c => matched c.2) ↔ ∃ p ∈ includes, Gives matched p text := by
  induction hcompiled with
  | nil => simp
  | cons hc _ ih => simp [gives_iff hc, ih]

theorem matched_ne {compiled : List (String × List Segment)}
    (hcompiled : List.Forall₂ (fun p c => compile p = .ok c) includes compiled) :
    (∀ c ∈ compiled, matched c.2 ≠ []) ↔ ∀ p ∈ includes, ∃ text, Gives matched p text := by
  induction hcompiled with
  | nil => simp
  | cons hc _ ih =>
    rw [List.forall_mem_cons, List.forall_mem_cons, ih, Ne, List.eq_nil_iff_forall_not_mem, not_forall]
    simp only [not_not, gives_iff hc]

theorem excluded_iff {parsed : List Exclude} {text : String}
    (hparsed : List.Forall₂ (fun p e => Exclude.parse p = .ok e) excludes parsed) :
    (parsed.any fun e => e.drops text) = true ↔ ∃ p ∈ excludes, Excludes p text := by
  induction hparsed with
  | nil => simp
  | cons he _ ih => simp [Excludes, he, ih]

theorem sortDedup_sorted {α : Type} [LinearOrder α] (l : List α) : (sortDedup l).Pairwise (· < ·) :=
  dedup_pairwise _ (List.pairwise_insertionSort _ l)

theorem exists_forall₂ {α β : Type} {P : α → β → Prop} {xs : List α} (h : ∀ x ∈ xs, ∃ y, P x y) :
    ∃ ys, List.Forall₂ P xs ys := by
  induction xs with
  | nil => exact ⟨[],.nil⟩
  | cons x xs ih =>
    obtain ⟨y,hy⟩ := h x List.mem_cons_self
    obtain ⟨ys,hys⟩ := ih fun z hz => h z (List.mem_cons_of_mem _ hz)
    exact ⟨y::ys,.cons hy hys⟩

theorem exists_of_forall₂ {α β : Type} {P : α → β → Prop} {xs : List α} {ys : List β} (h : List.Forall₂ P xs ys) :
    ∀ x ∈ xs, ∃ y, P x y := by
  induction h with
  | nil => simp
  | cons hxy _ ih =>
    rw [List.forall_mem_cons]
    exact ⟨⟨_,hxy⟩,ih⟩

/-- What is selected when, and what it is. -/
theorem select_exact {paths : List String} :
    select matched failure nothing includes excludes allowEmpty = .ok paths ↔
      (∀ p ∈ includes, ∃ segments, checkPattern p true = .ok segments) ∧
        (∀ p ∈ excludes, ∃ e, Exclude.parse p = .ok e) ∧
          (allowEmpty = true ∨ (∀ p ∈ includes, ∃ text, Gives matched p text) ∧ paths ≠ []) ∧
            paths.Pairwise (· < ·) ∧ ∀ text, text ∈ paths ↔
              (∃ p ∈ includes, Gives matched p text) ∧ ∀ p ∈ excludes, ¬Excludes p text := by
  have hmem : ∀ {compiled parsed}, List.Forall₂ (fun p c => compile p = .ok c) includes compiled →
      List.Forall₂ (fun p e => Exclude.parse p = .ok e) excludes parsed → ∀ text,
        (text ∈ (sortDedup (compiled.flatMap fun c => matched c.2)).filter fun path => !parsed.any fun e => e.drops path) ↔
          (∃ p ∈ includes, Gives matched p text) ∧ ∀ p ∈ excludes, ¬Excludes p text := by
    intro compiled parsed hcompiled hparsed text
    rw [List.mem_filter, mem_sortDedup, included_iff hcompiled, Bool.not_eq_true', ← Bool.not_eq_true,
      excluded_iff hparsed]
    simp
  constructor
  · intro h
    obtain ⟨compiled,parsed,hcompiled,hparsed,hempty,hpaths⟩ := select_ok_iff.mp h
    refine ⟨fun p hp => ?_,exists_of_forall₂ hparsed,?_,?_,?_⟩
    · obtain ⟨c,hc⟩ := exists_of_forall₂ hcompiled p hp
      exact ⟨c.2,(compile_ok.mp hc).1⟩
    · rwa [matched_ne hcompiled] at hempty
    · rw [hpaths]
      exact (sortDedup_sorted _).filter _
    · rw [hpaths]
      exact hmem hcompiled hparsed
  · rintro ⟨hincludes,hexcludes,hempty,hsorted,htexts⟩
    have hcompile : ∀ p ∈ includes, ∃ c, compile p = .ok c := by
      intro p hp
      obtain ⟨segments,hsegments⟩ := hincludes p hp
      exact ⟨(p,segments),compile_ok.mpr ⟨hsegments,rfl⟩⟩
    obtain ⟨compiled,hcompiled⟩ := exists_forall₂ hcompile
    obtain ⟨parsed,hparsed⟩ := exists_forall₂ hexcludes
    refine select_ok_iff.mpr ⟨compiled,parsed,hcompiled,hparsed,?_,?_⟩
    · rwa [matched_ne hcompiled]
    · exact hsorted.eq_of_mem_iff ((sortDedup_sorted _).filter _) fun text =>
        (htexts text).trans (hmem hcompiled hparsed text).symm

end Select

/-- An include pattern takes a path of the package. -/
def Includes (lookup : PackageLookup) (package : Path) (options : GlobOptions) (pattern text : String) : Prop :=
  ∃ segments, checkPattern pattern true = .ok segments ∧ ∃ path kind, text = written path ∧
    Sees lookup package path kind ∧ takes segments (path.map FileName.text) kind = true ∧
      (options.excludeDirectories = true → kind = .file)

section Glob

variable {lookup : PackageLookup} {package : Path} {includes excludes : List String} {options : GlobOptions}

theorem mem_matched {walker : Walker} {segments : List Segment} {text : String} :
    text ∈ matched walker options segments ↔ ∃ path kind, text = written path ∧ segments ≠ [] ∧
      Sees walker.lookup walker.package path kind ∧ takes segments (path.map FileName.text) kind = true ∧
        (options.excludeDirectories = true → kind = .file) := by
  simp only [matched, List.mem_map, List.mem_filter]
  constructor
  · rintro ⟨e,⟨hmem,hkept⟩,htext⟩
    obtain ⟨path,kind,hpath,hdir,hne,hsees,htaken⟩ := find_run.mp (run_sorted.find_eq.mpr hmem)
    refine ⟨path,kind,htext.symm.trans hpath,hne,hsees,htaken,fun hoption => ?_⟩
    cases kind with
    | file => rfl
    | dir => simp [hdir, hoption] at hkept
  · rintro ⟨path,kind,htext,hne,hsees,htaken,hoption⟩
    refine ⟨(text,decide (kind = .dir)),⟨?_,?_⟩,rfl⟩
    · exact run_sorted.find_eq.mp (find_run.mpr ⟨path,kind,htext,rfl,hne,hsees,htaken⟩)
    · cases hexclude : options.excludeDirectories with
      | false => simp
      | true => simp [hoption hexclude]

theorem gives_includes {pattern text : String} :
    Gives (matched ⟨lookup,package⟩ options) pattern text ↔ Includes lookup package options pattern text := by
  apply exists_congr
  intro segments
  apply and_congr_right
  intro hcheck
  rw [mem_matched]
  simp only [checkPattern_ne hcheck, ne_eq, not_false_eq_true, true_and]

theorem mem_glob {paths : List String} (h : glob lookup package includes excludes options = .ok paths) {text : String} :
    text ∈ paths ↔ (∃ p ∈ includes, Includes lookup package options p text) ∧ ∀ p ∈ excludes, ¬Excludes p text := by
  obtain ⟨-,-,-,-,hmem⟩ := select_exact.mp h
  simp only [hmem text, gives_includes]

/-- A glob succeeds exactly when its patterns are well formed and, unless it may be empty, each
include pattern matches something and something is left. Then it gives, sorted and each once,
the paths that an include pattern takes and no exclude pattern drops. -/
theorem glob_exact (lookup : PackageLookup) (package : Path) (includes excludes : List String) (options : GlobOptions)
    (paths : List String) : glob lookup package includes excludes options = .ok paths ↔
      (∀ p ∈ includes, ∃ segments, checkPattern p true = .ok segments) ∧
        (∀ p ∈ excludes, ∃ e, Exclude.parse p = .ok e) ∧
          (options.allowEmpty = true ∨
            (∀ p ∈ includes, ∃ text, Includes lookup package options p text) ∧ paths ≠ []) ∧
              paths.Pairwise (· < ·) ∧ ∀ text, text ∈ paths ↔
                (∃ p ∈ includes, Includes lookup package options p text) ∧ ∀ p ∈ excludes, ¬Excludes p text := by
  unfold glob
  rw [select_exact]
  simp only [gives_includes]

end Glob

end BuildFiji.Glob
