import BuildFiji.Graph.Expand
import BuildFiji.Lib.SortDedup
import Mathlib.Data.String.Basic
import Mathlib.Data.List.Nodup

/-!
# The entries of a runfiles tree

What an executable's runfiles come to: a path under the tree for each of them, the first that
asks for a path having it, and the empty files that make directories Python packages.
-/

set_option autoImplicit false
set_option linter.all false

namespace BuildFiji.Runfiles
open Graph SortDedup

structure Runfiles where
  files : List Artifact
  /-- By their paths under the main repository's directory. -/
  symlinks : List (String × Artifact)
  /-- By their paths under the tree. -/
  rootSymlinks : List (String × Artifact)
  pythonInits : Bool

/-- Where a file is under the tree, from its repository's directory. -/
def treePath (artifact : Artifact) (mainName : String) : String :=
  let external := "external/".toList
  let inside : String × String :=
    if artifact.isSource then
      match withoutPrefix external artifact.root.rootPrefix.toList with
      | some repo => (.ofList repo,artifact.path)
      | none => (mainName,artifact.path)
    else
      match withoutPrefix external artifact.path.toList with
      | some under =>
        match splitOnce '/' under with
        | some (repo,rest) => (.ofList repo,.ofList rest)
        | none => (.ofList under,"")
      | none => (mainName,artifact.path)
  inside.1 ++ "/" ++ inside.2

/-- A path that is in the tree stays what it is. -/
def add (entries : List (String × Artifact)) (e : String × Artifact) : List (String × Artifact) :=
  if e.1 ∈ entries.map Prod.fst then entries else entries ++ [e]

def wanted (exe : Artifact) (runfiles : Runfiles) (mainName : String) : List (String × Artifact) :=
  (treePath exe mainName,exe) :: runfiles.files.map (fun file => (treePath file mainName,file)) ++
    runfiles.symlinks.map (fun e => (mainName ++ "/" ++ e.1,e.2)) ++ runfiles.rootSymlinks

def entries (exe : Artifact) (runfiles : Runfiles) (mainName : String) : List (String × Artifact) :=
  (wanted exe runfiles mainName).foldl add []

def isPython (path : String) : Bool :=
  [".py",".pyc",".so"].any fun ending => ending.toList.isSuffixOf path.toList

/-- The directories above a path, the tree itself first. -/
def above (path : String) : List String :=
  let parts := splitOn '/' path.toList
  "" :: ((List.range parts.length).drop 1).map fun i => .ofList (['/'].intercalate (parts.take i))

def initIn (dir : String) : String := if dir = "" then "__init__.py" else dir ++ "/__init__.py"

/-- The main repository's own directory gets none. -/
def pythonInits (mainName : String) (entries : List (String × Artifact)) : List String :=
  let seen := entries.map Prod.fst
  let dirs := (sortDedup ((seen.filter isPython).flatMap above)).filter (· ≠ mainName)
  (dirs.map initIn).filter fun init => init ∉ seen ∧ init ++ "c" ∉ seen

def inits (exe : Artifact) (runfiles : Runfiles) (mainName : String) : List String :=
  if runfiles.pythonInits then pythonInits mainName (entries exe runfiles mainName) else []

/-- The main repository's directory is always in the tree. -/
def emptyFiles (exe : Artifact) (runfiles : Runfiles) (mainName : String) : List String :=
  let inits := inits exe runfiles mainName
  if ((entries exe runfiles mainName).map Prod.fst ++ inits).any fun path =>
      (mainName ++ "/").toList.isPrefixOf path.toList then inits
  else inits ++ [mainName ++ "/" ++ ".runfile"]

section Paths

variable {exe : Artifact} {runfiles : Runfiles} {mainName : String} {l : List (String × Artifact)}

theorem add_nodup (h : (l.map Prod.fst).Nodup) (e : String × Artifact) : ((add l e).map Prod.fst).Nodup := by
  unfold add
  split
  · exact h
  · next hnew =>
    rw [List.map_append, List.map_singleton]
    exact h.append (List.nodup_singleton _) (by simpa using hnew)

theorem entries_nodup : ((entries exe runfiles mainName).map Prod.fst).Nodup := by
  have hall : ∀ wanted l : List (String × Artifact), (l.map Prod.fst).Nodup →
      ((wanted.foldl add l).map Prod.fst).Nodup := by
    intro wanted
    induction wanted with
    | nil => exact fun l h => h
    | cons e wanted ih => exact fun l h => ih _ (add_nodup h e)
  exact hall _ [] List.nodup_nil

theorem initIn_injective : Function.Injective initIn := by
  have hlength : ∀ dir, (initIn dir).toList.length = if dir = "" then 11 else dir.toList.length + 12 := by
    intro dir
    unfold initIn
    split
    · rfl
    · rw [String.toList_append, List.length_append]
      rfl
  intro a b h
  have hab := congrArg (fun s => s.toList.length) h
  simp only [hlength] at hab
  by_cases ha : a = ""
  · by_cases hb : b = ""
    · rw [ha, hb]
    · rw [if_pos ha, if_neg hb] at hab
      omega
  · by_cases hb : b = ""
    · rw [if_neg ha, if_pos hb] at hab
      omega
    · rw [initIn, initIn, if_neg ha, if_neg hb] at h
      exact (String.append_left_inj _).mp h

/-- Each empty file is made once, and none is where something else is. -/
theorem pythonInits_nodup : (pythonInits mainName l).Nodup :=
  (((sortDedup_nodup _).filter _).map initIn_injective).filter _

theorem not_mem_of_pythonInits {path : String} (h : path ∈ pythonInits mainName l) : path ∉ l.map Prod.fst :=
  (of_decide_eq_true (List.mem_filter.mp h).2).1

theorem inits_nodup : (inits exe runfiles mainName).Nodup := by
  unfold inits
  split
  · exact pythonInits_nodup
  · exact List.nodup_nil

theorem not_mem_of_inits {path : String} (h : path ∈ inits exe runfiles mainName) :
    path ∉ (entries exe runfiles mainName).map Prod.fst := by
  unfold inits at h
  split at h
  · exact not_mem_of_pythonInits h
  · exact absurd h List.not_mem_nil

theorem inits_ends {path : String} (h : path ∈ inits exe runfiles mainName) : path.toList.getLast? = some 'y' := by
  unfold inits at h
  split at h
  · obtain ⟨dir,-,rfl⟩ := List.mem_map.mp (List.mem_of_mem_filter h)
    unfold initIn
    split
    · rfl
    · rw [String.toList_append, List.getLast?_append]
      rfl
  · exact absurd h List.not_mem_nil

theorem emptyFiles_cases (exe : Artifact) (runfiles : Runfiles) (mainName : String) :
    emptyFiles exe runfiles mainName = inits exe runfiles mainName ∨
      (∀ path ∈ (entries exe runfiles mainName).map Prod.fst ++ inits exe runfiles mainName,
        ¬(mainName ++ "/").toList <+: path.toList) ∧
      emptyFiles exe runfiles mainName = inits exe runfiles mainName ++ [mainName ++ "/" ++ ".runfile"] := by
  unfold emptyFiles
  dsimp only
  split
  · exact .inl rfl
  · next hnone =>
    refine .inr ⟨fun path hpath hprefix => hnone ?_,rfl⟩
    exact List.any_eq_true.mpr ⟨path,hpath,List.isPrefixOf_iff_prefix.mpr hprefix⟩

theorem runfile_prefix : (mainName ++ "/").toList <+: (mainName ++ "/" ++ ".runfile").toList := by
  rw [String.toList_append (s := mainName ++ "/")]
  exact List.prefix_append _ _

theorem emptyFiles_nodup : (emptyFiles exe runfiles mainName).Nodup := by
  rcases emptyFiles_cases exe runfiles mainName with h|⟨hnone,h⟩
  · exact h ▸ inits_nodup
  · rw [h]
    refine inits_nodup.append (List.nodup_singleton _) fun path hpath hrunfile => ?_
    rw [List.mem_singleton] at hrunfile
    exact hnone path (List.mem_append_right _ hpath) (hrunfile ▸ runfile_prefix)

theorem not_mem_of_emptyFiles {path : String} (h : path ∈ emptyFiles exe runfiles mainName) :
    path ∉ (entries exe runfiles mainName).map Prod.fst := by
  rcases emptyFiles_cases exe runfiles mainName with heq|⟨hnone,heq⟩
  · exact not_mem_of_inits (heq ▸ h)
  · rw [heq] at h
    rcases List.mem_append.mp h with h|h
    · exact not_mem_of_inits h
    · intro hmem
      rw [List.mem_singleton] at h
      exact hnone path (List.mem_append_left _ hmem) (h ▸ runfile_prefix)

/-- An empty file is named after what it is for. -/
theorem emptyFiles_ends {path : String} (h : path ∈ emptyFiles exe runfiles mainName) :
    path.toList.getLast? = some 'y' ∨ path.toList.getLast? = some 'e' := by
  rcases emptyFiles_cases exe runfiles mainName with heq|⟨-,heq⟩
  · exact .inl (inits_ends (heq ▸ h))
  · rw [heq] at h
    rcases List.mem_append.mp h with h|h
    · exact .inl (inits_ends h)
    · rw [List.mem_singleton.mp h, String.toList_append, List.getLast?_append]
      exact .inr rfl

end Paths

end BuildFiji.Runfiles
