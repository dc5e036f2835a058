import BuildFiji.Graph.CommandLine
import BuildFiji.Graph.Configuration
import BuildFiji.Lib.SortedAssoc

/-!
# Actions

What the execution phase runs, and the fields that say what an action does.
A `BTreeMap` is the list of its entries in the order of their keys.
-/

set_option autoImplicit false
set_option linter.all false

namespace BuildFiji.Graph
open Configuration (utf8 utf8_injective)

/-- The directory of the execroot an artifact's path is relative to. -/
structure Root where
  rootPrefix : String
  source : Bool
  deriving DecidableEq, Repr

structure Artifact where
  root : Root
  path : String
  tree : Bool
  symlink : Bool
  deriving DecidableEq, Repr

def join (dir name : String) : String :=
  if dir = "" then name else if name = "" then dir else dir ++ "/" ++ name

def Artifact.execPath (a : Artifact) : String := join a.root.rootPrefix a.path

structure StringMap where
  entries : List (String × String)
  sorted : SortedAssoc.Sorted entries
deriving DecidableEq

def StringMap.empty : StringMap := ⟨[],.nil⟩

inductive ActionKind where
  | spawn (argv : List String) (env executionRequirements : StringMap) (lazy : List LazyArg)
  | writeFile (contents : List UInt8) (executable : Bool)
  | paramFile (items : List String) (lazy : List LazyArg) (format : ParamFormat)
  | symlink (target : String)
  | unresolvedSymlink (target : String)
  | symlinkTree (dir repoMapping : String) (entries : List (String × Artifact))
      (emptyFiles : List String) (links : Bool) (mainRepo : String)
  | sourceManifest (repoMapping : String) (entries : List (String × Artifact))
      (emptyFiles : List String)
  | runfilesTree
  | workspaceStatus (stable volatile : String)
  | template (template : String) (substitutions : List (String × String)) (executable : Bool)
deriving DecidableEq

structure Action where
  mnemonic : String
  kind : ActionKind
  inputs : List Artifact
  outputs : List Artifact
deriving DecidableEq

section Fields

variable (printable : Char → Bool)

def pairFields (pairs : List (String × String)) : List String := pairs.flatMap fun e => [e.1,e.2]

def StringMap.fields (m : StringMap) : List String := pairFields m.entries

def lazyText (lazy : List LazyArg) : String := .ofList (debugCalls printable lazy)

def lazyFields (lazy : List LazyArg) : List String :=
  if lazy = [] then [] else ["lazy",lazyText printable lazy]

/-- `format!("{lazy:?} {format:?}")` -/
def lazyFormatText (lazy : List LazyArg) (format : ParamFormat) : String :=
  .ofList (debugCalls printable lazy ++ (label " " ++ debugFormat format))

def entryPaths (entries : List (String × Artifact)) : List (String × String) :=
  entries.map fun e => (e.1,e.2.execPath)

def treeFields (entries : List (String × Artifact)) (emptyFiles : List String) : List String :=
  pairFields (entryPaths entries) ++ "empty" :: emptyFiles

def flag (b : Bool) : List UInt8 := [if b then 1 else 0]

def ActionKind.fields : ActionKind → List (List UInt8)
  | .spawn argv env executionRequirements lazy =>
    utf8 "spawn" :: (argv ++ (lazyFields printable lazy ++ ("env" :: (env.fields ++
      "requirements" :: executionRequirements.fields)))).map utf8
  | .writeFile contents executable => [utf8 "write",contents,flag executable]
  | .paramFile items lazy format =>
    utf8 "param-file" :: (items ++ [lazyFormatText printable lazy format]).map utf8
  | .symlink target => [utf8 "symlink",utf8 target]
  | .unresolvedSymlink target => [utf8 "unresolved-symlink",utf8 target]
  | .runfilesTree => [utf8 "runfiles-tree"]
  | .symlinkTree dir repoMapping entries emptyFiles links mainRepo =>
    utf8 "runfiles" :: utf8 dir :: flag links :: utf8 mainRepo :: utf8 repoMapping ::
      (treeFields entries emptyFiles).map utf8
  | .sourceManifest repoMapping entries emptyFiles =>
    utf8 "source-manifest" :: utf8 repoMapping :: (treeFields entries emptyFiles).map utf8
  | .workspaceStatus stable volatile => [utf8 "workspace-status",utf8 stable,utf8 volatile]
  | .template path substitutions executable =>
    utf8 "template" :: utf8 path ::
      ((pairFields substitutions).map utf8 ++ [flag executable])

/-- What is fed to a hasher for what the action does. -/
def Action.definition (a : Action) : List (List UInt8) := utf8 a.mnemonic :: a.kind.fields printable

end Fields

/-- An artifact of the main repository's sources. -/
def Artifact.ofPath (path : String) : Artifact := ⟨⟨"",true⟩,path,false,false⟩

theorem Artifact.ofPath_execPath (path : String) : (Artifact.ofPath path).execPath = path := by
  rw [ofPath, execPath, join, if_pos rfl]

def canonicalEntries (entries : List (String × Artifact)) : List (String × Artifact) :=
  entries.map fun e => (e.1,Artifact.ofPath e.2.execPath)

/-- What the action does: of the files its entries lead to only the exec path. -/
def ActionKind.work : ActionKind → ActionKind
  | .symlinkTree dir repoMapping entries emptyFiles links mainRepo =>
    .symlinkTree dir repoMapping (canonicalEntries entries) emptyFiles links mainRepo
  | .sourceManifest repoMapping entries emptyFiles =>
    .sourceManifest repoMapping (canonicalEntries entries) emptyFiles
  | kind => kind

section Pairs

theorem pairFields_injective : Function.Injective pairFields := by
  intro p q h
  induction p generalizing q with
  | nil =>
    cases q with
    | nil => rfl
    | cons e q => simp [pairFields] at h
  | cons e p ih =>
    cases q with
    | nil => simp [pairFields] at h
    | cons f q =>
      rw [pairFields, pairFields, List.flatMap_cons, List.flatMap_cons] at h
      obtain ⟨hef,hpq⟩ := List.append_inj h rfl
      simp only [List.cons.injEq, and_true] at hef
      rw [Prod.ext_iff.mpr hef, ih hpq]

theorem pairFields_length (pairs : List (String × String)) :
    (pairFields pairs).length = 2*pairs.length := by
  induction pairs with
  | nil => rfl
  | cons e pairs ih =>
    rw [pairFields] at ih
    rw [pairFields, List.flatMap_cons, List.length_append, ih, List.length_cons, List.length_cons,
      List.length_cons, List.length_nil]
    omega

theorem StringMap.ext_fields {m n : StringMap} (h : m.fields = n.fields) : m = n := by
  cases m
  cases n
  rw [StringMap.mk.injEq]
  exact pairFields_injective h

theorem entryPaths_canonical {entries entries' : List (String × Artifact)}
    (h : entryPaths entries = entryPaths entries') :
    canonicalEntries entries = canonicalEntries entries' := by
  have hmap := congrArg (List.map fun e : String × String => (e.1,Artifact.ofPath e.2)) h
  rw [entryPaths, entryPaths, List.map_map, List.map_map] at hmap
  exact hmap

theorem entryPaths_of_pairs (pairs : List (String × String)) :
    entryPaths (pairs.map fun e => (e.1,Artifact.ofPath e.2)) = pairs := by
  rw [entryPaths, List.map_map]
  conv_rhs => rw [← List.map_id pairs]
  apply List.map_congr_left
  intro e _
  show (e.1,(Artifact.ofPath e.2).execPath) = e
  rw [Artifact.ofPath_execPath]

end Pairs

theorem lazyFormatText_inj {printable : Char → Bool} {l m : List LazyArg} {f g : ParamFormat}
    (h : lazyFormatText printable l f = lazyFormatText printable m g) : l = m ∧ f = g := by
  obtain ⟨hl,hf⟩ := debugCalls_code.then _ (String.ofList_inj.mp h)
  exact ⟨hl,debugFormat_code.injective hf⟩

theorem flag_injective : Function.Injective flag := by
  intro a b h
  cases a <;> cases b <;> first | rfl | exact absurd h (by decide)

end BuildFiji.Graph
