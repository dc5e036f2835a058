import BuildFiji.Graph.Action
import BuildFiji.Graph.Label
import BuildFiji.Lib.Lexical

/-!
# Paths by their text

The components of a path that is written with slashes: an empty one and `.`
stay where they are, `..` goes up.
-/

set_option autoImplicit false
set_option linter.all false

namespace BuildFiji.Graph

open Lexical

abbrev Path := List (Step (List Char))

def component : List Char → Option (Step (List Char))
  | [] => none
  | ['.'] => none
  | ['.','.'] => some .up
  | name => some (.down name)

def components (path : List Char) : Path := (splitOn '/' path).filterMap component

def place (path : String) : Place (List Char) := Place.origin.walk (components path.toList)

/-- What stands before the last `/`, as its parts: none if there is no `/`. -/
def directory (path : List Char) : List (List Char) := (splitOn '/' path).dropLast

/-- `path.rsplit('/').next()` -/
def lastPart (path : List Char) : List Char := ((splitOn '/' path).getLast?).getD []

/-- `{dir}/{name}` for the directory of the path, and the name if it has none. -/
def nextTo (path name : List Char) : List Char :=
  if directory path = [] then name else ['/'].intercalate (directory path) ++ '/'::name

/-- The place of a root: a derived one is a directory below the execroot. -/
def Rooted (r : Root) : Prop :=
  r.source = true ∨ r.rootPrefix ≠ "" ∧ r.rootPrefix.toList.head? ≠ some '/'

def Root.derived (binDir : String) : Root := ⟨binDir,false⟩

/-- An output of a rule of a package, under `bazel-out/<config>/bin`. -/
def Artifact.derived (binDir repo package name : String) : Artifact :=
  let path := join package name
  ⟨.derived binDir,if repo = "" then path else "external/" ++ repo ++ "/" ++ path,false,false⟩

section Split

variable {sep : Char} {a b : List Char}

example (sep : Char) : splitOn sep [] = [[]] := by rw [splitOn]

theorem splitOn_ne_nil (sep : Char) (a : List Char) : splitOn sep a ≠ [] := by
  induction a with
  | nil => simp [splitOn]
  | cons c a ih =>
    unfold splitOn
    split
    · simp
    · split <;> simp

theorem splitOn_cons_sep (sep : Char) (a : List Char) : splitOn sep (sep::a) = [] :: splitOn sep a := by
  rw [splitOn]
  split
  · next h => exact absurd h (splitOn_ne_nil sep a)
  · next h => rw [if_pos rfl, h]

theorem splitOn_append (sep : Char) (a b : List Char) :
    splitOn sep (a ++ sep::b) = splitOn sep a ++ splitOn sep b := by
  induction a with
  | nil => exact splitOn_cons_sep sep b
  | cons c a ih =>
    rw [List.cons_append, splitOn, ih, splitOn]
    cases h : splitOn sep a with
    | nil => exact absurd h (splitOn_ne_nil sep a)
    | cons part parts =>
      simp only [List.cons_append]
      split <;> rfl

theorem splitOn_of_not_mem (h : sep ∉ a) : splitOn sep a = [a] := by
  induction a with
  | nil => rfl
  | cons c a ih =>
    have hne : c ≠ sep := fun he => h (he ▸ List.mem_cons_self)
    rw [splitOn, ih fun hm => h (List.mem_cons_of_mem _ hm)]
    simp [hne]

theorem not_mem_splitOn {part : List Char} (h : part ∈ splitOn sep a) : sep ∉ part := by
  induction a generalizing part with
  | nil =>
    rw [splitOn, List.mem_singleton] at h
    simp [h]
  | cons c a ih =>
    rw [splitOn] at h
    cases hs : splitOn sep a with
    | nil => exact absurd hs (splitOn_ne_nil sep a)
    | cons first parts =>
      rw [hs] at h ih
      simp only at h
      split at h
      · rcases List.mem_cons.mp h with rfl | h
        · exact List.not_mem_nil
        · exact ih h
      · next hne =>
        rcases List.mem_cons.mp h with rfl | h
        · intro hm
          rcases List.mem_cons.mp hm with rfl | hm
          · exact hne rfl
          · exact ih List.mem_cons_self hm
        · exact ih (List.mem_cons_of_mem _ h)

theorem splitOn_intercalate {parts : List (List Char)} (hne : parts ≠ [])
    (h : ∀ part ∈ parts, sep ∉ part) : splitOn sep ([sep].intercalate parts) = parts := by
  induction parts with
  | nil => exact absurd rfl hne
  | cons part parts ih =>
    cases parts with
    | nil =>
      rw [List.intercalate_singleton, splitOn_of_not_mem (h part List.mem_cons_self)]
    | cons next parts =>
      rw [List.intercalate_cons_of_ne_nil (by simp), List.append_assoc, List.singleton_append,
        splitOn_append, splitOn_of_not_mem (h part List.mem_cons_self),
        ih (by simp) fun p hp => h p (List.mem_cons_of_mem _ hp)]
      rfl

theorem splitOn_directory (path : List Char) :
    splitOn '/' path = directory path ++ [lastPart path] := by
  have hne := splitOn_ne_nil '/' path
  rw [directory, lastPart, List.getLast?_eq_some_getLast hne, Option.getD_some,
    List.dropLast_concat_getLast]

theorem not_mem_lastPart (path : List Char) : '/' ∉ lastPart path := by
  apply @not_mem_splitOn '/' path
  rw [splitOn_directory]
  exact List.mem_append_right _ List.mem_cons_self

end Split

section Components

theorem components_append (a b : List Char) :
    components (a ++ '/'::b) = components a ++ components b := by
  rw [components, splitOn_append, List.filterMap_append, components, components]

theorem component_single (name : List Char) : [name].filterMap component = (component name).toList := by
  cases h : component name with
  | none => rw [List.filterMap_cons_none h]; rfl
  | some x => rw [List.filterMap_cons_some h]; rfl

def parents (path : List Char) : Path := (directory path).filterMap component

theorem components_eq (path : List Char) :
    components path = parents path ++ (component (lastPart path)).toList := by
  rw [components, splitOn_directory, List.filterMap_append, component_single, parents]

theorem components_nextTo (path name : List Char) :
    components (nextTo path name) = parents path ++ components name := by
  unfold nextTo
  split
  · next h => rw [parents, h]; rfl
  · next h =>
    rw [components_append, components, splitOn_intercalate h, parents]
    intro part hp
    exact not_mem_splitOn (List.mem_of_mem_dropLast hp)

theorem components_name {name : List Char} (h : '/' ∉ name) :
    components name = (component name).toList := by
  rw [components, splitOn_of_not_mem h, component_single]

theorem component_long {name : List Char} (h : 2 < name.length) : component name = some (.down name) := by
  unfold component
  split
  · simp at h
  · simp at h
  · simp at h
  · rfl

theorem components_join (dir name : String) :
    components (join dir name).toList = components dir.toList ++ components name.toList := by
  unfold join
  split
  · next h => rw [h]; rfl
  · split
    · next h => rw [h]; exact (List.append_nil _).symm
    · rw [String.toList_append, String.toList_append, List.append_assoc]
      exact components_append _ _

theorem Artifact.components_execPath (a : Artifact) :
    components a.execPath.toList = components a.root.rootPrefix.toList ++ components a.path.toList :=
  components_join _ _

/-- The directory of a package under the output directory. -/
def packageDir (binDir repo package : String) : Path :=
  components binDir.toList ++
    ((if repo = "" then [] else components ("external/".toList ++ repo.toList)) ++ components package.toList)

theorem Artifact.components_derived (binDir repo package name : String) :
    components (Artifact.derived binDir repo package name).execPath.toList =
      packageDir binDir repo package ++ components name.toList := by
  rw [Artifact.components_execPath, packageDir, List.append_assoc, List.append_assoc]
  show components binDir.toList ++ _ = _
  congr 1
  show components (ite _ _ _ : String).toList = _
  split
  · rw [components_join, List.nil_append]
  · rw [String.toList_append, String.toList_append, String.toList_append, List.append_assoc,
      List.append_assoc, ← List.append_assoc]
    exact (components_append _ _).trans (congrArg _ (components_join _ _))

end Components

end BuildFiji.Graph
