import BuildFiji.Bzlmod.Module
import Mathlib.Order.Bounds.Basic

/-!
# Version selection

Every module of the discovered graph falls into a group, and each group keeps
the highest version that was asked for. Every edge is rewritten to the lowest
version kept by a group that may take it, and what is no longer reached from
the root is dropped.

The empty version is above every other, so the group of a name without a
`multiple_version_override` may take every edge, and so may the group of the
modules above every version that an override allows.
-/

set_option autoImplicit false
set_option linter.all false

namespace BuildFiji.Bzlmod

structure SelectionGroup where
  moduleName : String
  targetAllowedVersion : Version
deriving DecidableEq

namespace SelectionGroup

def cmp (a b : SelectionGroup) : Ordering :=
  (compare a.moduleName b.moduleName).then
    (compare a.targetAllowedVersion b.targetAllowedVersion)

instance : Ord SelectionGroup := ⟨cmp⟩

instance : Std.TransCmp cmp := inferInstanceAs
  (Std.TransCmp (compareLex (compareOn moduleName) (compareOn targetAllowedVersion)))

instance : Std.LawfulEqCmp cmp where
  eq_of_compare {a b} h := by
    simp only [cmp, Ordering.then_eq_eq, Std.LawfulEqOrd.compare_eq_iff_eq] at h
    cases a
    cases b
    simp_all

instance : Std.TransOrd SelectionGroup := inferInstanceAs (Std.TransCmp cmp)

instance : Std.LawfulEqOrd SelectionGroup := inferInstanceAs (Std.LawfulEqCmp cmp)

end SelectionGroup

/-- Why there is no selection. -/
inductive SelectionError where
  | allowedVersionMissing (moduleName : String) (allowedVersion : Version)
  | notInGraph (key : ModuleKey)
  | notAllowed (dependent : Option ModuleKey) (key : ModuleKey) (allowed : List Version)
  | compatibilityLevel (dependent : Option ModuleKey) (key : ModuleKey)
      (existingFrom : Option ModuleKey) (existing : ModuleKey)
  | dependsTwice (key dep : ModuleKey) (repoName previous : String)
deriving DecidableEq

namespace SelectionError

def dependentName (dependent : Option ModuleKey) : String := (dependent.map ModuleKey.toString).getD ""

def message : SelectionError → String
  | allowedVersionMissing name version => "multiple_version_override for module " ++ name ++
      " contains version " ++ version.normalized ++ ", but it doesn't exist in the dependency graph"
  | notInGraph key => "selected module " ++ key.toString ++ " is not in the dependency graph"
  | notAllowed dependent key allowed => dependentName dependent ++ " depends on " ++ key.toString ++
      " which is not allowed by the multiple_version_override on " ++ key.name ++
      ", which allows only [" ++ ", ".intercalate (allowed.map Version.normalized) ++ "]"
  | compatibilityLevel dependent key existingFrom existing => dependentName dependent ++ " depends on " ++
      key.toString ++ " with compatibility level 0, but " ++ dependentName existingFrom ++ " depends on " ++
      existing.toString ++ " with compatibility level 0 which is different"
  | dependsTwice key dep repoName previous => key.toString ++ " depends on " ++ dep.toString ++
      " at least twice (with repo names " ++ repoName ++ " and " ++ previous ++ "). Consider " ++
      "adding a multiple_version_override if you want to depend on multiple versions of " ++
      dep.name ++ " simultaneously"

def toBzlmodError (e : SelectionError) : BzlmodError := .versionResolution e.message

end SelectionError

abbrev VersionSet := Std.ExtTreeSet Version

abbrev AllowedVersionSets := Std.ExtTreeMap String VersionSet

abbrev SelectionGroups := Std.ExtTreeMap ModuleKey SelectionGroup

abbrev SelectedVersions := Std.ExtTreeMap SelectionGroup Version

section Groups

/-- The versions one override allows, with the empty one to begin with. -/
def allowVersions (depGraph : DepGraph) (name : String) (sets : AllowedVersionSets) :
    List Version → Except SelectionError AllowedVersionSets
  | [] => .ok sets
  | v::vs =>
    if ⟨name,v⟩ ∉ depGraph then .error (.allowedVersionMissing name v)
    else allowVersions depGraph name
      (sets.insert name ((sets[name]?.getD ((∅ : VersionSet).insert .empty)).insert v)) vs

def allowOverride (depGraph : DepGraph) (sets : AllowedVersionSets)
    (entry : String × ModuleOverride) : Except SelectionError AllowedVersionSets :=
  match entry.2 with
  | .multipleVersion mvo => allowVersions depGraph entry.1 sets mvo.versions
  | _ => .ok sets

def computeAllowedVersionSets (overrides : Overrides) (depGraph : DepGraph) :
    Except SelectionError AllowedVersionSets :=
  overrides.toList.foldlM (allowOverride depGraph) ∅

/-- The lowest allowed version that is not below the module's own. -/
def computeSelectionGroup (allowed : AllowedVersionSets) (key : ModuleKey) : SelectionGroup where
  moduleName := key.name
  targetAllowedVersion :=
    match allowed[key.name]? with
    | none => .empty
    | some versions => (versions.toList.find? fun v => key.version ≤ v).getD .empty

def selectionGroups (allowed : AllowedVersionSets) (depGraph : DepGraph) : SelectionGroups :=
  depGraph.map fun key _ => computeSelectionGroup allowed key

def select (selected : SelectedVersions) (entry : ModuleKey × SelectionGroup) : SelectedVersions :=
  match selected[entry.2]? with
  | none => selected.insert entry.2 entry.1.version
  | some v => if v < entry.1.version then selected.insert entry.2 entry.1.version else selected

def selectedVersions (groups : SelectionGroups) : SelectedVersions :=
  groups.toList.foldl select ∅

def resolveDep (dep : DepSpec) (selected : SelectedVersions) : Option Version :=
  ((selected.toList.filter fun entry => entry.1.moduleName = dep.name ∧
    dep.version ≤ entry.1.targetAllowedVersion).map Prod.snd).min?

def resolve (selected : SelectedVersions) (dep : DepSpec) : DepSpec :=
  dep.withVersion ((resolveDep dep selected).getD dep.version)

end Groups

section Walk

abbrev ModuleByName := Std.ExtTreeMap String (ModuleKey × Option ModuleKey)

/-- No two dependencies may have come to be one module. -/
def checkTwice (key : ModuleKey) : List Dep → Std.ExtTreeMap ModuleKey String →
    Except SelectionError Unit
  | [], _ => .ok ()
  | dep::deps, seen =>
    match seen[dep.spec.toModuleKey]? with
    | some previous => .error (.dependsTwice key dep.spec.toModuleKey dep.repoName previous)
    | none => checkTwice key deps (seen.insert dep.spec.toModuleKey dep.repoName)

def visit (overrides : Overrides) (groups : SelectionGroups) (byName : ModuleByName)
    (key : ModuleKey) (module : Module) (dependent : Option ModuleKey) :
    Except SelectionError ModuleByName := do
  let byName ← match overrides[key.name]? with
    | some (.multipleVersion mvo) =>
      if groups[key]?.any fun group => group.targetAllowedVersion.isEmpty then
        throw (.notAllowed dependent key mvo.versions)
      else pure byName
    | _ =>
      match byName[module.name]? with
      | some (existing,existingFrom) =>
        if existing ≠ key then throw (.compatibilityLevel dependent key existingFrom existing)
        else pure (byName.insert module.name (key,dependent))
      | none => pure (byName.insert module.name (key,dependent))
  checkTwice key module.deps ∅
  pure byName

structure WalkState where
  result : List (ModuleKey × Module)
  moduleByName : ModuleByName
  known : Std.ExtTreeSet ModuleKey
  toVisit : List (ModuleKey × Option ModuleKey)

def enqueue (key : ModuleKey) (w : WalkState) (dep : DepSpec) : WalkState :=
  if dep.toModuleKey ∈ w.known then w
  else { w with
    known := w.known.insert dep.toModuleKey
    toVisit := w.toVisit ++ [(dep.toModuleKey,some key)] }

def walkEdges (module : Module) (ignoreNodeps : Bool) : List DepSpec :=
  module.deps.map Dep.spec ++ if ignoreNodeps then [] else module.nodepDeps

variable (depGraph : DepGraph) (overrides : Overrides) (groups : SelectionGroups)
  (resolve : DepSpec → DepSpec) (ignoreNodeps : Bool)

/-- Breadth-first from the root. -/
def walkFrom : ℕ → WalkState → Option (Except SelectionError (List (ModuleKey × Module)))
  | 0, _ => none
  | fuel+1, w =>
    match w.toVisit with
    | [] => some (.ok w.result)
    | (key,dependent)::rest =>
      match depGraph[key]? with
      | none => some (.error (.notInGraph key))
      | some module =>
        let module := module.withDepsTransformed resolve
        match visit overrides groups w.moduleByName key module dependent with
        | .error e => some (.error e)
        | .ok byName =>
          let w := (walkEdges module ignoreNodeps).foldl (enqueue key)
            { w with moduleByName := byName, toVisit := rest }
          walkFrom fuel { w with result := w.result ++ [(key,module)] }

def walkStart : WalkState := ⟨[],∅,(∅ : Std.ExtTreeSet ModuleKey).insert .root,[(.root,none)]⟩

def walk (fuel : ℕ) : Option (Except SelectionError (List (ModuleKey × Module))) :=
  walkFrom depGraph overrides groups resolve ignoreNodeps fuel walkStart

end Walk

structure Selection where
  resolved : List (ModuleKey × Module)
  unpruned : List (ModuleKey × Module)

def run (fuel : ℕ) (depGraph : DepGraph) (overrides : Overrides) :
    Option (Except SelectionError Selection) :=
  match computeAllowedVersionSets overrides depGraph with
  | .error e => some (.error e)
  | .ok allowed =>
    let groups := selectionGroups allowed depGraph
    let selected := selectedVersions groups
    match walk depGraph overrides groups (resolve selected) false fuel with
    | none => none
    | some (.error e) => some (.error e)
    | some (.ok _) =>
      match walk depGraph overrides groups (resolve selected) true fuel with
      | none => none
      | some (.error e) => some (.error e)
      | some (.ok resolved) => some (.ok ⟨resolved,depGraph.toList.map fun entry =>
          (entry.1,entry.2.withDepsTransformed (resolve selected))⟩)

end BuildFiji.Bzlmod
