import BuildFiji.Loading.Glob

/-!
# The walk of a glob

One include pattern is matched against the tree below a package by three functions
that call each other: one for a directory and what is left of the pattern, one
that carries `**` into the directories below, one for a segment that names an entry.
-/

set_option autoImplicit false
set_option linter.all false

namespace BuildFiji.Glob

open Graph

namespace Entries

/-- The entries whose names satisfy `keep`. -/
def children (keep : String → Bool) : Entries → Entries
  | .nil => .nil
  | .file name rest => if keep name.text then .file name (rest.children keep) else rest.children keep
  | .dir name inside rest =>
    if keep name.text then .dir name inside (rest.children keep) else rest.children keep

/-- The one entry called `name`, if there is one. -/
def child (name : String) : Entries → Entries
  | .nil => .nil
  | .file other rest => if other.text = name then .file other .nil else rest.child name
  | .dir other inside rest => if other.text = name then .dir other inside .nil else rest.child name

/-- How many entries there are, at any depth. -/
def size : Entries → ℕ
  | .nil => 0
  | .file _ rest => rest.size+1
  | .dir _ inside rest => inside.size+rest.size+1

theorem children_size (keep : String → Bool) (entries : Entries) : (entries.children keep).size ≤ entries.size := by
  induction entries with
  | nil => exact Nat.le_refl _
  | file name rest ih =>
    rw [children]
    split <;> simp only [size] <;> omega
  | dir name inside rest _ ih =>
    rw [children]
    split <;> simp only [size] <;> omega

theorem child_size (name : String) (entries : Entries) : (entries.child name).size ≤ entries.size := by
  induction entries with
  | nil => exact Nat.le_refl _
  | file other rest ih =>
    rw [child]
    split <;> simp only [size] <;> omega
  | dir other inside rest _ ih =>
    rw [child]
    split <;> simp only [size] <;> omega

end Entries

/-- What a segment picks in a directory. -/
def picked (pattern : String) (entries : Entries) : Entries :=
  if hasWildcard pattern then entries.children (wildcardMatch pattern) else entries.child pattern

theorem picked_size (pattern : String) (entries : Entries) : (picked pattern entries).size ≤ entries.size := by
  unfold picked
  split
  · exact Entries.children_size _ entries
  · exact Entries.child_size pattern entries

structure Walker where
  lookup : PackageLookup
  package : Path

namespace Walker

variable (walker : Walker)

/-- The name `rel` has in the repository. -/
def qualified (rel : Path) : Path := walker.package ++ rel

def isSubpackage (rel : Path) : Bool := walker.lookup.isPackage (walker.qualified rel)

/-- An ignored directory can be named, but nothing in it is seen. -/
def closed (dir : Path) : Bool := dir ≠ [] && walker.lookup.isIgnored (written (walker.qualified dir))

mutual

/-- Match `segments` against what lies under `dir`. What is found is listed in the order
in which it is inserted. -/
def visit (dir : Path) (entries : Entries) (segments : List Segment) : List (Path × Kind) :=
  match segments with
  | [] => []
  | .recursive::rest =>
    if rest = [] then
      (if dir ≠ [] then [(dir,.dir)] else []) ++
        (if walker.closed dir then [] else descendAll dir entries (.recursive::rest))
    else
      visit dir entries rest ++ (if walker.closed dir then [] else descendAll dir entries (.recursive::rest))
  | .name pattern::rest => if walker.closed dir then [] else step dir (picked pattern entries) rest
termination_by (entries.size,segments.length,1)
decreasing_by
  · exact .right _ (.right _ Nat.one_pos)
  · exact .right _ (.left _ _ (Nat.lt_add_one _))
  · exact .right _ (.right _ Nat.one_pos)
  · exact Prod.Lex.right' _ (picked_size pattern entries) (.left _ _ (Nat.lt_add_one _))

/-- Continue `segments` into every subdirectory of `dir` that is not a package, and record the
files that `**` at the end reaches. -/
def descendAll (dir : Path) (entries : Entries) (segments : List Segment) : List (Path × Kind) :=
  match entries with
  | .nil => []
  | .file name rest =>
    (if segments.length = 1 then [(dir ++ [name],.file)] else []) ++ descendAll dir rest segments
  | .dir name inside rest =>
    (if walker.isSubpackage (dir ++ [name]) then [] else visit (dir ++ [name]) inside segments) ++
      descendAll dir rest segments
termination_by (entries.size,segments.length,0)
decreasing_by
  · exact .left _ _ (Nat.lt_add_one _)
  · exact .left _ _ (by simp only [Entries.size]; omega)
  · exact .left _ _ (by simp only [Entries.size]; omega)

/-- Record what a segment picked, or carry on with `rest` inside it. -/
def step (dir : Path) (entries : Entries) (rest : List Segment) : List (Path × Kind) :=
  match entries with
  | .nil => []
  | .file name others => (if rest = [] then [(dir ++ [name],.file)] else []) ++ step dir others rest
  | .dir name inside others =>
    (if walker.isSubpackage (dir ++ [name]) then []
    else if rest = [] then [(dir ++ [name],.dir)]
    else visit (dir ++ [name]) inside rest) ++ step dir others rest
termination_by (entries.size,rest.length,0)
decreasing_by
  · exact .left _ _ (Nat.lt_add_one _)
  · exact .left _ _ (by simp only [Entries.size]; omega)
  · exact .left _ _ (by simp only [Entries.size]; omega)

end

example (dir : Path) (entries : Entries) (segments : List Segment) : visit walker dir entries [] = [] ∧
    descendAll walker dir .nil segments = [] ∧ step walker dir .nil segments = [] := by
  rw [visit, descendAll, step]
  exact ⟨rfl,rfl,rfl⟩

end Walker

section Matching

variable {question : Bool} {rest : List Segment} {names : List String} {kind : Kind}

theorem match_recursive_iff : segmentsMatchWith question (.recursive::rest) names = true ↔
    ∃ tail, tail <:+ names ∧ segmentsMatchWith question rest tail = true := by
  rw [segmentsMatchWith, List.any_eq_true]
  constructor
  · rintro ⟨skip,_,h⟩
    exact ⟨_,List.drop_suffix skip names,h⟩
  · rintro ⟨tail,hsuffix,h⟩
    refine ⟨names.length-tail.length,List.mem_range.mpr (by omega),?_⟩
    rwa [← List.suffix_iff_eq_drop.mp hsuffix]

theorem match_recursive : segmentsMatchWith question (.recursive::rest) names = true ↔
    segmentsMatchWith question rest names = true ∨
      ∃ name tail, names = name::tail ∧ segmentsMatchWith question (.recursive::rest) tail = true := by
  rw [match_recursive_iff]
  constructor
  · rintro ⟨tail,hsuffix,h⟩
    cases names with
    | nil => exact .inl (List.suffix_nil.mp hsuffix ▸ h)
    | cons name names =>
      cases List.suffix_cons_iff.mp hsuffix with
      | inl heq => exact .inl (heq ▸ h)
      | inr hsuffix => exact .inr ⟨name,names,rfl,match_recursive_iff.mpr ⟨tail,hsuffix,h⟩⟩
  · intro h
    cases h with
    | inl h => exact ⟨names,List.suffix_rfl,h⟩
    | inr h =>
      obtain ⟨name,tail,rfl,h⟩ := h
      obtain ⟨tail',hsuffix,h⟩ := match_recursive_iff.mp h
      exact ⟨tail',hsuffix.trans (List.suffix_cons name tail),h⟩

/-- Nothing at all is matched by `**` alone. -/
theorem match_nil {segments : List Segment} :
    segmentsMatchWith question segments [] = true ↔ ∀ segment ∈ segments, segment = .recursive := by
  induction segments with
  | nil => simp [segmentsMatchWith]
  | cons segment segments ih =>
    cases segment with
    | recursive => rw [match_recursive, ih]; simp
    | name pattern => simp [segmentsMatchWith]

/-- A pattern finds a path. A file behind a final `**` has a name of its own for it, and so it is
found where its directory matches. -/
def takes (segments : List Segment) (names : List String) (kind : Kind) : Bool :=
  if kind = .file ∧ segments.getLast? = some .recursive then segmentsMatchWith false segments names.dropLast
  else segmentsMatchWith false segments names

theorem takes_last : takes [.recursive] names kind = true := by
  have h : ∀ names, segmentsMatchWith false [.recursive] names = true := fun names =>
    match_recursive_iff.mpr ⟨[],List.nil_suffix,rfl⟩
  unfold takes
  split <;> exact h _

theorem takes_recursive (hrest : rest ≠ []) : takes (.recursive::rest) names kind = true ↔
    takes rest names kind = true ∨ ∃ name tail, names = name::tail ∧ takes (.recursive::rest) tail kind = true := by
  have hlast : (Segment.recursive::rest).getLast? = rest.getLast? := by
    rw [List.getLast?_cons]
    cases h : rest.getLast? with
    | none => exact absurd (List.getLast?_eq_none_iff.mp h) hrest
    | some segment => rfl
  unfold takes
  rw [hlast]
  split
  · next h =>
    cases names with
    | nil => rw [match_recursive]; simp
    | cons name names =>
      cases names with
      | nil =>
        rw [match_recursive]
        simp only [List.dropLast_singleton, List.cons.injEq, reduceCtorEq, false_and, exists_false, or_false]
        refine ⟨.inl,fun h => ?_⟩
        cases h with
        | inl h => exact h
        | inr h =>
          obtain ⟨_,tail,⟨rfl,rfl⟩,h⟩ := h
          simpa [match_nil] using h
      | cons second names =>
        rw [match_recursive]
        simp
  · exact match_recursive

theorem takes_name_nil {pattern : String} : takes (.name pattern::rest) [] kind = false := by
  unfold takes
  split <;> rfl

theorem takes_name_last {pattern name : String} : takes [.name pattern] (name::names) kind = true ↔
    wildcardMatch pattern name = true ∧ names = [] := by
  simp [takes, segmentsMatchWith, wildcardMatch]

theorem takes_name {pattern name : String} (hrest : rest ≠ []) (hkind : names = [] → kind = .dir) :
    takes (.name pattern::rest) (name::names) kind = true ↔
      wildcardMatch pattern name = true ∧ takes rest names kind = true := by
  have hlast : (Segment.name pattern::rest).getLast? = rest.getLast? := by
    rw [List.getLast?_cons]
    cases h : rest.getLast? with
    | none => exact absurd (List.getLast?_eq_none_iff.mp h) hrest
    | some segment => rfl
  unfold takes
  rw [hlast]
  split
  · next h =>
    have hne : names ≠ [] := by
      intro hnil
      rw [hkind hnil] at h
      exact Kind.noConfusion h.1
    rw [List.dropLast_cons_of_ne_nil hne, segmentsMatchWith, Bool.and_eq_true]
    rfl
  · rw [segmentsMatchWith, Bool.and_eq_true]
    rfl

/-- A file in a directory that only `**` matches is matched by them as well. -/
theorem takes_file {name : String} (hrest : rest ≠ []) (h : takes (.recursive::rest) [] .file = true) :
    takes rest [name] .file = true := by
  have hall : ∀ segment ∈ Segment.recursive::rest, segment = .recursive := by
    rw [← @match_nil false]
    unfold takes at h
    split at h <;> exact h
  have hlast : rest.getLast? = some .recursive := by
    rw [List.getLast?_eq_some_getLast hrest, hall _ (List.mem_cons_of_mem _ (List.getLast_mem hrest))]
  unfold takes
  rw [if_pos ⟨rfl,hlast⟩]
  exact match_nil.mpr fun segment hs => hall _ (List.mem_cons_of_mem _ hs)

end Matching

end BuildFiji.Glob
