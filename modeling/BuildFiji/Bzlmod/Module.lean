import BuildFiji.Bzlmod.Version

/-!
# Modules

A module is known by its name and the version it was asked for at. The root
module has neither; a module under a non-registry override has no version.
-/

set_option autoImplicit false
set_option linter.all false

namespace BuildFiji.Bzlmod

structure ModuleKey where
  name : String
  version : Version
deriving DecidableEq

namespace ModuleKey

def root : ModuleKey := ⟨"",.empty⟩

def isRoot (k : ModuleKey) : Bool := k.name == "" && k.version.isEmpty

def cmp (a b : ModuleKey) : Ordering := (compare a.name b.name).then (compare a.version b.version)

instance : Ord ModuleKey := ⟨cmp⟩

instance : Std.TransCmp cmp :=
  inferInstanceAs (Std.TransCmp (compareLex (compareOn name) (compareOn version)))

instance : Std.LawfulEqCmp cmp where
  eq_of_compare {a b} h := by
    simp only [cmp, Ordering.then_eq_eq, Std.LawfulEqOrd.compare_eq_iff_eq] at h
    cases a
    cases b
    simp_all

instance : Std.TransOrd ModuleKey := inferInstanceAs (Std.TransCmp cmp)

instance : Std.LawfulEqOrd ModuleKey := inferInstanceAs (Std.LawfulEqCmp cmp)

def toString (k : ModuleKey) : String :=
  if k.isRoot then "<root>"
  else if k.version.isEmpty then k.name ++ "@_"
  else k.name ++ "@" ++ k.version.normalized

def wellKnownModules : List String := ["bazel_tools","platforms"]

def wellKnownRepoName (k : ModuleKey) : Option String := wellKnownModules.find? (· == k.name)

def canonicalRepoNameWithVersion (k : ModuleKey) : Option String :=
  match k.wellKnownRepoName with
  | some name => some name
  | none => if k.version.isEmpty then none else some (k.name ++ "+" ++ k.version.normalized)

def canonicalRepoName (k : ModuleKey) : String :=
  match k.wellKnownRepoName with
  | some name => name
  | none => if k.isRoot then "" else k.name ++ "+"

theorem isRoot_iff {k : ModuleKey} : k.isRoot = true ↔ k = root := by
  obtain ⟨name,version⟩ := k
  simp [isRoot, root, Version.isEmpty_iff]

end ModuleKey

structure DepSpec where
  name : String
  version : Version
deriving DecidableEq

namespace DepSpec

def toModuleKey (d : DepSpec) : ModuleKey := ⟨d.name,d.version⟩

def withVersion (d : DepSpec) (version : Version) : DepSpec := ⟨d.name,version⟩

end DepSpec

structure Dep where
  repoName : String
  spec : DepSpec
deriving DecidableEq

structure ExtensionUsage where
  bzlFile : String
  extensionName : String
  isolate : Bool
  devDependency : Bool
deriving DecidableEq

structure Module where
  key : ModuleKey
  name : String
  version : Version
  repoName : String
  deps : List Dep
  nodepDeps : List DepSpec
  registry : Option String
  extensionUsages : List ExtensionUsage
deriving DecidableEq

namespace Module

def withDepsTransformed (m : Module) (f : DepSpec → DepSpec) : Module :=
  { m with
    deps := m.deps.map fun d => { d with spec := f d.spec }
    nodepDeps := m.nodepDeps.map f }

/-- The edges of a module, those it depends on and those it only takes up. -/
def edges (m : Module) : List DepSpec := m.deps.map Dep.spec ++ m.nodepDeps

theorem withDepsTransformed_deps (m : Module) (f : DepSpec → DepSpec) :
    (m.withDepsTransformed f).deps.map Dep.spec = (m.deps.map Dep.spec).map f := by
  simp [withDepsTransformed, Function.comp_def]

theorem withDepsTransformed_edges (m : Module) (f : DepSpec → DepSpec) :
    (m.withDepsTransformed f).edges = m.edges.map f := by
  rw [edges, withDepsTransformed_deps, edges, List.map_append]
  rfl

end Module

inductive RepoRule where
  | httpArchive
  | gitRepository
  | localRepository
deriving DecidableEq

structure SingleVersionOverride where
  version : Version
  registry : Option String
deriving DecidableEq

structure MultipleVersionOverride where
  versions : List Version
  registry : Option String
deriving DecidableEq

/-- The rule that makes the repo, and its `path` if it has one. -/
structure NonRegistryOverride where
  rule : RepoRule
  path : Option String
deriving DecidableEq

inductive ModuleOverride where
  | singleVersion (o : SingleVersionOverride)
  | multipleVersion (o : MultipleVersionOverride)
  | nonRegistry (o : NonRegistryOverride)
deriving DecidableEq

namespace ModuleOverride

def registry (o : ModuleOverride) : Option String :=
  let registry := match o with
    | .singleVersion o => o.registry
    | .multipleVersion o => o.registry
    | .nonRegistry _ => none
  registry.filter (· ≠ "")

def isNonRegistry : ModuleOverride → Bool
  | .nonRegistry _ => true
  | _ => false

end ModuleOverride

abbrev Overrides := Std.ExtTreeMap String ModuleOverride

abbrev DepGraph := Std.ExtTreeMap ModuleKey Module

inductive BzlmodError where
  | badModule (key message : String)
  | moduleNotFound (key tried : String)
  | missingVersion (name : String)
  | registry (registry message : String)
  | lockfile (message : String)
  | versionResolution (message : String)
  | fetchRequired (key kind : String)
deriving DecidableEq

def validModuleNameChar (c : Char) : Bool :=
  c.isLower || c.isDigit || c == '.' || c == '-' || c == '_'

/-- `validate_module_name`. -/
def validModuleName (name : String) : Bool :=
  name.toList.head?.any Char.isLower &&
    name.toList.getLast?.any (fun c => c.isLower || c.isDigit) &&
    name.toList.all validModuleNameChar

def invalidModuleName (name : String) : String :=
  "invalid module name '" ++ name ++ "': valid names must 1) only contain lowercase letters " ++
  "(a-z), digits (0-9), dots (.), hyphens (-), and underscores (_); 2) begin with a lowercase " ++
  "letter; 3) end with a lowercase letter or digit."

theorem validModuleName_ne_empty {name : String} (h : validModuleName name = true) :
    name ≠ "" := by
  rintro rfl
  cases h

/-- `validate_user_provided_repo_name`. -/
def validUserRepoName (name : String) : Bool :=
  match name.toList with
  | [] => false
  | c::cs => c.isAlphanum && cs.all fun c => c.isAlphanum || c == '_' || c == '-' || c == '.'

def invalidUserRepoName (name : String) : String :=
  "invalid user-provided repo name '" ++ name ++ "': valid names may contain only A-Z, a-z, " ++
  "0-9, '-', '_', '.', and must start with a letter or a number"

end BuildFiji.Bzlmod
