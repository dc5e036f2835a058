import BuildFiji.Bzlmod.Module

/-!
# Module files

What evaluating a `MODULE.bazel` file comes to: the calls it makes, in order,
act on the state of the evaluation, and the module is read off that state.
Which calls a text makes is the business of the Starlark interpreter. The names
of the modules a file depends on are valid, since every call checks its own.
-/

set_option autoImplicit false
set_option linter.all false

namespace BuildFiji.Bzlmod

/-- The `repo_name` of a `bazel_dep`: left out, `None`, or a text. -/
inductive RepoNameArg where
  | default
  | noneValue
  | text (name : String)
deriving DecidableEq

inductive Directive where
  | module (name version repoName location : String)
  | bazelDep (name version : String) (repoName : RepoNameArg) (devDependency : Bool)
      (location : String)
  | useExtension (bzlFile extensionName : String) (devDependency isolate : Bool)
  | useRepoRule (bzlFile ruleName : String)
  | useRepo (names : List String) (location : String)
  | override (moduleName : String) (value : ModuleOverride)
  | other

structure EvalOptions where
  key : ModuleKey
  ignoreDevDeps : Bool
  builtinModules : List String
  isolatedExtensionUsages : Bool
  builtinNamed : ∀ name ∈ builtinModules, validModuleName name = true

namespace EvalOptions

def root : EvalOptions := ⟨.root,false,["bazel_tools"],false,by decide⟩

def dependency (key : ModuleKey) : EvalOptions := ⟨key,true,["bazel_tools"],false,by simp; decide⟩

end EvalOptions

structure ModuleState where
  moduleCalled : Bool
  hadNonModuleCall : Bool
  name : String
  version : Version
  repoName : Option String
  deps : List Dep
  nodepDeps : List DepSpec
  extensionUsages : List ExtensionUsage
  overrides : List (String × ModuleOverride)
  repoNameUsages : List (String × String × String)
  named : ∀ d ∈ deps.map Dep.spec ++ nodepDeps, validModuleName d.name = true
  own : name = "" ∨ validModuleName name = true

namespace ModuleState

def new (options : EvalOptions) : ModuleState where
  moduleCalled := false
  hadNonModuleCall := false
  name := ""
  version := options.key.version
  repoName := none
  deps := []
  nodepDeps := []
  extensionUsages := []
  overrides := []
  repoNameUsages := []
  named := by simp
  own := .inl rfl

def setNonModuleCalled (s : ModuleState) : ModuleState := { s with hadNonModuleCall := true }

def addRepoNameUsage (s : ModuleState) (repoName how location : String) :
    Except String ModuleState :=
  match s.repoNameUsages.find? (·.1 == repoName) with
  | some (_,existingHow,existingAt) => .error ("The repo name '" ++ repoName ++
      "' cannot be defined " ++ how ++ " at " ++ location ++ " as it is already defined " ++
      existingHow ++ " at " ++ existingAt)
  | none => .ok { s with repoNameUsages := s.repoNameUsages ++ [(repoName,how,location)] }

def parseVersion (directive version : String) : Except String Version :=
  match Version.parse version with
  | .ok v => .ok v
  | .error e => .error ("Invalid version in " ++ directive ++ "(): " ++ e.message)

def checkUserRepoName (name : String) : Except String Unit :=
  if validUserRepoName name then .ok () else .error (invalidUserRepoName name)

def module (s : ModuleState) (name version repoName location : String) :
    Except String ModuleState := do
  if s.moduleCalled then throw "the module() directive can only be called once"
  if s.hadNonModuleCall then
    throw "if module() is called, it must be called before any other functions"
  if h : name = "" ∨ validModuleName name = true then
    let version ← parseVersion "module" version
    let (own,s) ← if repoName = "" then do
        let s ← s.addRepoNameUsage name "as the current module name" location
        pure (none,s)
      else do
        checkUserRepoName repoName
        let s ← s.addRepoNameUsage repoName "as the module's own repo name" location
        pure (some repoName,s)
    pure { s with moduleCalled := true, name := name, version := version, repoName := own, own := h }
  else throw (invalidModuleName name)

/-- The name a dependency is visible under, if it is. -/
def depRepoName (name : String) : RepoNameArg → Except String (Option String)
  | .default => .ok (some name)
  | .noneValue => .ok none
  | .text s =>
    if s = "" then .ok (some name)
    else do
      checkUserRepoName s
      pure (some s)

def pushDep (s : ModuleState) (name : String) (version : Version) (repoName : Option String)
    (h : validModuleName name = true) : ModuleState :=
  match repoName with
  | some repoName => { s with
      deps := s.deps ++ [⟨repoName,name,version⟩]
      named := by
        intro d hd
        simp only [List.map_append, List.map_cons, List.map_nil, List.append_assoc, List.mem_append,
          List.mem_cons, List.not_mem_nil, or_false] at hd
        rcases hd with hd | rfl | hd
        · exact s.named d (List.mem_append_left _ hd)
        · exact h
        · exact s.named d (List.mem_append_right _ hd) }
  | none => { s with
      nodepDeps := s.nodepDeps ++ [⟨name,version⟩]
      named := by
        intro d hd
        rw [← List.append_assoc, List.mem_append] at hd
        rcases hd with hd | hd
        · exact s.named d hd
        · rw [List.mem_singleton.mp hd]
          exact h }

def bazelDep (options : EvalOptions) (s : ModuleState) (name version : String)
    (repoName : RepoNameArg) (devDependency : Bool) (location : String) :
    Except String ModuleState := do
  let s := s.setNonModuleCalled
  if h : validModuleName name = true then
    let version ← parseVersion "bazel_dep" version
    let repoName ← depRepoName name repoName
    let s := if options.ignoreDevDeps && devDependency then s else s.pushDep name version repoName h
    match repoName with
    | some repoName => s.addRepoNameUsage repoName "by a bazel_dep" location
    | none => pure s
  else throw (invalidModuleName name)

def isIdentifier (s : String) : Bool :=
  match s.toList with
  | [] => false
  | c::cs => (c.isAlpha || c == '_') && cs.all fun c => c.isAlphanum || c == '_'

def useExtension (options : EvalOptions) (s : ModuleState) (bzlFile extensionName : String)
    (devDependency isolate : Bool) : Except String ModuleState := do
  let s := s.setNonModuleCalled
  if isolate && !options.isolatedExtensionUsages then
    throw ("in call to use_extension(), parameter 'isolate' is experimental and thus " ++
      "unavailable with the current flags. It may be enabled by setting " ++
      "--experimental_isolated_extension_usages")
  if !isIdentifier extensionName then
    throw ("extension name is not a valid identifier: " ++ extensionName)
  if options.ignoreDevDeps && devDependency then pure s
  else if !isolate && s.extensionUsages.any fun u =>
      u.bzlFile == bzlFile && u.extensionName == extensionName && !u.isolate &&
        u.devDependency == devDependency then pure s
  else pure { s with
    extensionUsages := s.extensionUsages ++ [⟨bzlFile,extensionName,isolate,devDependency⟩] }

def innateExtensionFile : String := "//:MODULE.bazel"

/-- The innate extension of a repo rule is named so that no other has its name. -/
def useRepoRule (s : ModuleState) (bzlFile ruleName : String) : ModuleState :=
  let s := s.setNonModuleCalled
  let extensionName := bzlFile ++ " " ++ ruleName
  if s.extensionUsages.any fun u =>
      u.bzlFile == innateExtensionFile && u.extensionName == extensionName && !u.isolate then s
  else { s with
    extensionUsages := s.extensionUsages ++ [⟨innateExtensionFile,extensionName,false,false⟩] }

def useRepo (s : ModuleState) (location : String) (names : List String) :
    Except String ModuleState :=
  names.foldlM (fun s name => do
    checkUserRepoName name
    s.addRepoNameUsage name "by a use_repo() call" location) s.setNonModuleCalled

def override (options : EvalOptions) (s : ModuleState) (moduleName : String)
    (value : ModuleOverride) : Except String ModuleState :=
  let s := s.setNonModuleCalled
  if !validModuleName moduleName then .error (invalidModuleName moduleName)
  else if options.ignoreDevDeps then .ok s
  else if s.overrides.any (·.1 == moduleName) then
    .error ("multiple overrides for dep " ++ moduleName ++ " found")
  else .ok { s with overrides := s.overrides ++ [(moduleName,value)] }

def call (options : EvalOptions) (s : ModuleState) : Directive → Except String ModuleState
  | .module name version repoName location => s.module name version repoName location
  | .bazelDep name version repoName devDependency location =>
    bazelDep options s name version repoName devDependency location
  | .useExtension bzlFile extensionName devDependency isolate =>
    useExtension options s bzlFile extensionName devDependency isolate
  | .useRepoRule bzlFile ruleName => .ok (s.useRepoRule bzlFile ruleName)
  | .useRepo names location => s.useRepo location names
  | .override moduleName value => override options s moduleName value
  | .other => .ok s.setNonModuleCalled

end ModuleState

structure ModuleFile where
  module : Module
  overrides : List (String × ModuleOverride)
  named : ∀ d ∈ module.edges, validModuleName d.name = true
  own : module.name = "" ∨ validModuleName module.name = true

/-- Every module but themselves depends on the built-in modules. -/
def addBuiltins (options : EvalOptions) (s : ModuleState) :
    (builtins : List String) → (∀ name ∈ builtins, validModuleName name = true) →
    Except BzlmodError ModuleState
  | [], _ => .ok s
  | builtin::rest, h =>
    if options.key.name = builtin then
      addBuiltins options s rest fun name hn => h name (List.mem_cons_of_mem _ hn)
    else if s.repoNameUsages.any (·.1 == builtin) then
      .error (.badModule options.key.toString ("the repo name '" ++ builtin ++
        "' is a built-in dependency and cannot be used by any 'bazel_dep' or 'use_repo' directive"))
    else addBuiltins options (s.pushDep builtin .empty (some builtin) (h builtin List.mem_cons_self))
      rest fun name hn => h name (List.mem_cons_of_mem _ hn)

def finish (options : EvalOptions) (s : ModuleState) : Except BzlmodError ModuleFile := do
  let s ← addBuiltins options s options.builtinModules options.builtinNamed
  let module : Module :=
    ⟨options.key,s.name,s.version,s.repoName.getD s.name,s.deps,s.nodepDeps,none,s.extensionUsages⟩
  if !options.key.isRoot then
    if module.name ≠ options.key.name then
      throw (.badModule options.key.toString ("declares a different name (" ++ module.name ++ ")"))
    if !options.key.version.isEmpty && module.version ≠ options.key.version then
      throw (.badModule options.key.toString
        ("declares a different version (" ++ module.version.normalized ++ ")"))
  pure ⟨module,s.overrides,s.named,s.own⟩

/-- `eval_module_file`, from the calls the file makes. -/
def evalModuleFile (options : EvalOptions) (calls : List Directive) : Except BzlmodError ModuleFile :=
  match calls.foldlM (ModuleState.call options) (ModuleState.new options) with
  | .error message => .error (.badModule options.key.toString message)
  | .ok s => finish options s

/-- A file that is not the root's declares the name it was asked for by. -/
theorem evalModuleFile_name {options : EvalOptions} {calls : List Directive} {file : ModuleFile}
    (h : evalModuleFile options calls = .ok file) (hr : options.key.isRoot = false) :
    file.module.name = options.key.name := by
  unfold evalModuleFile at h
  split at h
  · cases h
  · next s hs =>
    unfold finish at h
    cases hb : addBuiltins options s options.builtinModules options.builtinNamed with
    | error e => simp [hb, bind, Except.bind] at h
    | ok t =>
      simp only [hb, hr, bind, Except.bind, pure, Except.pure, Bool.not_false, if_true] at h
      split at h
      · cases h
      · next hn =>
        split at h
        · cases h
        · cases h
          exact not_not.mp hn

end BuildFiji.Bzlmod
