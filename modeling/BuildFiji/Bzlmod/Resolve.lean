import BuildFiji.Bzlmod.Registry
import BuildFiji.Bzlmod.SelectionWalk
import Mathlib.Data.List.Sort

/-!
# Resolution

The root module file in, the resolved module graph out: the root is evaluated,
the overrides in force are collected, the graph is discovered and versions are
selected from it, and a selected version that the registry has yanked is refused.
-/

set_option autoImplicit false
set_option linter.all false

namespace BuildFiji.Bzlmod

section JavaMap

/-- The code units of UTF-16. -/
def utf16 (c : Char) : List UInt32 :=
  if c.val < 0x10000 then [c.val]
  else [0xd800+(c.val-0x10000)/0x400,0xdc00+(c.val-0x10000)%0x400]

def stringHash (s : String) : UInt32 := (s.toList.flatMap utf16).foldl (fun h c => h*31+c) 0

/-- `ModuleKey.hashCode()`. -/
def moduleKeyHash (key : ModuleKey) : UInt32 :=
  let version := 31*(31+stringHash "version")+stringHash key.version.normalized
  31*stringHash key.name+version

def capacityFrom (entries : ℕ) : ℕ → ℕ → ℕ
  | 0, capacity => capacity
  | fuel+1, capacity =>
    if entries*4 > capacity*3 then capacityFrom entries fuel (capacity*2) else capacity

/-- How many buckets a `HashMap` has after so many insertions. It doubles fewer
times than there are entries. -/
def capacity (entries : ℕ) : ℕ := capacityFrom entries entries 16

def bucketLe (mask : UInt32) (a b : ModuleKey) : Bool :=
  let key (k : ModuleKey) := ((moduleKeyHash k ^^^ (moduleKeyHash k >>> 16)) &&& mask,moduleKeyHash k)
  (key a).1 < (key b).1 || (key a).1 == (key b).1 && (key a).2 ≤ (key b).2

/-- Keys that hash alike stay in the order they came in. -/
def hashMapOrder (keys : List ModuleKey) (total : ℕ) : List ModuleKey :=
  keys.insertionSort (fun a b => bucketLe (.ofNat (capacity total-1)) a b = true)

theorem mem_hashMapOrder {keys : List ModuleKey} {total : ℕ} {key : ModuleKey} :
    key ∈ hashMapOrder keys total ↔ key ∈ keys := List.mem_insertionSort _

/-- Keys of one bucket, by their unsigned hash. -/
example : (hashMapOrder (["e63","e41","e1035","e1013"].map fun name => ⟨name,appVersion⟩) 40).map
    ModuleKey.name = ["e1013","e1035","e41","e63"] := by decide

end JavaMap

inductive YankedPolicy where
  | deny
  | allowAll
  | allow (keys : Std.ExtTreeSet ModuleKey)

structure ResolveOptions where
  yanked : YankedPolicy
  ignoreDevDependency : Bool
  commandOverrides : List (String × ModuleOverride)
  forLockfile : Bool
  isolatedExtensionUsages : Bool

structure Resolution where
  root : Module
  overrides : Overrides
  selection : Selection
  selectedYanked : List (ModuleKey × String)

section Overrides
variable (debug : ModuleOverride → String) (root : ModuleFile)

/-- A dependency may not be pinned below what the root itself asks for. -/
def checkPinned : List (String × ModuleOverride) → Except BzlmodError Unit
  | [] => .ok ()
  | (name,.singleVersion svo)::rest =>
    match root.module.deps.find? fun d => d.spec.name == name with
    | some dep =>
      if dep.spec.version.isEmpty = false ∧ svo.version < dep.spec.version then
        .error (.badModule "<root>" ("module '" ++ name ++ "' is overridden to use version '" ++
          svo.version.normalized ++ "', which is lower than the version '" ++
          dep.spec.version.normalized ++ "' requested by the root module"))
      else checkPinned rest
    | none => checkPinned rest
  | _::rest => checkPinned rest

/-- The overrides of the root file, then the command line's, then the implicit one. -/
def buildOverrides (options : ResolveOptions) : Except BzlmodError Overrides := do
  let overrides := (root.overrides ++ options.commandOverrides).foldl
    (fun overrides entry => overrides.insert entry.1 entry.2) (∅ : Overrides)
  checkPinned root overrides.toList
  match overrides[root.module.name]? with
  | some moduleOverride =>
    if root.module.name ≠ "" then throw (.badModule "<root>"
      ("invalid override for the root module found: " ++ debug moduleOverride))
  | none => pure ()
  return overrides.insertIfNew "bazel_tools" (.nonRegistry ⟨.localRepository,none⟩)

end Overrides

section Yanked
variable (source : RegistrySource) (options : ResolveOptions)

def yankedMessage (key : ModuleKey) (reason : String) : String :=
  "Yanked version detected in your resolved dependency graph: " ++ key.toString ++
  ", for the reason: " ++ reason ++ ".\nYanked versions may contain serious vulnerabilities and " ++
  "should not be used. To fix this, use a bazel_dep on a newer version of this module. To " ++
  "continue using this version, allow it using the --allow_yanked_versions flag or the " ++
  "BZLMOD_ALLOW_YANKED_VERSIONS env variable."

def YankedPolicy.allows : YankedPolicy → ModuleKey → Bool
  | .deny, _ => false
  | .allowAll, _ => true
  | .allow keys, key => key ∈ keys

/-- One selected version, and the yanked ones before it. -/
def checkYankedKey (yanked : List (ModuleKey × String)) (key : ModuleKey) :
    Except BzlmodError (List (ModuleKey × String)) :=
  if key.version.isEmpty then .ok yanked
  else
    match source.metadataYanked key.name with
    | .error e => .error e
    | .ok versions =>
      match versions[key.version]? with
      | none => .ok yanked
      | some reason =>
        if options.yanked.allows key then .ok (yanked ++ [(key,reason)])
        else .error (.versionResolution (yankedMessage key reason))

def checkYanked (selection : Selection) : Except BzlmodError (List (ModuleKey × String)) :=
  if options.yanked matches .allowAll ∧ options.forLockfile = false then .ok []
  else (hashMapOrder (selection.resolved.map Prod.fst) selection.resolved.length).foldlM
    (checkYankedKey source options) []

def readSources : List (ModuleKey × Module) → Except BzlmodError Unit
  | [] => .ok ()
  | (key,module)::rest =>
    match module.registry with
    | none => readSources rest
    | some registry =>
      match source.readSource key registry with
      | .error e => .error e
      | .ok () => readSources rest

end Yanked

section Resolve
variable (starlark : Starlark) (debug : ModuleOverride → String) (source : RegistrySource)
  (options : ResolveOptions) (rootModuleFile : String)

def rootEvalOptions : EvalOptions :=
  { EvalOptions.root with
    isolatedExtensionUsages := options.isolatedExtensionUsages
    ignoreDevDeps := options.ignoreDevDependency }

def evalRoot : Except BzlmodError ModuleFile := do
  let calls ← starlark (rootEvalOptions options) none rootModuleFile
  evalModuleFile (rootEvalOptions options) calls

/-- As far as the selection. -/
def selectModules (fuel : ℕ) : Option (Except BzlmodError (ModuleFile × Overrides × Selection)) :=
  match evalRoot starlark options rootModuleFile with
  | .error e => some (.error e)
  | .ok root =>
    match buildOverrides debug root options with
    | .error e => some (.error e)
    | .ok overrides =>
      match discover starlark root overrides source.toModuleFileSource fuel with
      | none => none
      | some (.error e) => some (.error e)
      | some (.ok graph) =>
        match run fuel graph overrides with
        | none => none
        | some (.error e) => some (.error e.toBzlmodError)
        | some (.ok selection) => some (.ok (root,overrides,selection))

def resolveSelected (root : ModuleFile) (overrides : Overrides) (selection : Selection) :
    Except BzlmodError Resolution := do
  let selectedYanked ← checkYanked source options selection
  if options.forLockfile then readSources source selection.resolved
  return ⟨root.module,overrides,selection,selectedYanked⟩

def resolveModules (fuel : ℕ) : Option (Except BzlmodError Resolution) :=
  match selectModules starlark debug source options rootModuleFile fuel with
  | none => none
  | some (.error e) => some (.error e)
  | some (.ok (root,overrides,selection)) =>
    some (resolveSelected source options root overrides selection)

end Resolve

end BuildFiji.Bzlmod
