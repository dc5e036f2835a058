import BuildFiji.Analysis.RuleDeps
import BuildFiji.Graph.Configuration
import BuildFiji.Graph.Rule
import BuildFiji.Lib.FirstFit

/-!
# Toolchains

A rule asks for toolchain types. The platforms that can run it are tried in their
order, and on each the toolchains that are registered are tried in theirs: the
first platform that has a toolchain for every type the rule cannot do without is
where it runs. Tools are then built for the platform of that name.
-/

set_option autoImplicit false
set_option linter.all false

namespace BuildFiji.Toolchains

open BuildFiji.Graph BuildFiji.RuleDeps BuildFiji.FirstFit

abbrev Key := ConfiguredTargetKey Configuration

/-- What a `toolchain` target offers and what it needs. -/
structure ToolchainDecl where
  toolchainType : Label
  toolchain : Label
  execCompatibleWith : List Label
  targetCompatibleWith : List Label
  targetSettings : List Label
deriving DecidableEq

structure Target where
  label : Label
  attrs : Attrs
  toolchainDecl : Option ToolchainDecl
  constraintSetting : Option Label
  configMatching : Option Bool

/-- A rule as its package lists it. -/
structure RuleTarget where
  ruleClass : String
  native : Bool
  attrs : Attrs

def RuleTarget.actual (t : RuleTarget) : Option Label :=
  if t.ruleClass = "alias" ∧ t.native = true then
    t.attrs.findSome? fun e =>
      match e.2 with
      | .label l => if e.1 = "actual" then some l else none
      | _ => none
  else none

structure ExecPlatform where
  label : Label
  constraints : Labels

/-- What analysis gives where it is asked. A constraint value is analysed with its
setting. -/
structure Ctx where
  host : Host
  target : Key → Except String Target
  package : String → String → Except String (String → Option RuleTarget)
  executionPlatforms : Option (List String) → Except String (List ExecPlatform)
  registeredToolchains : Option (List String) → Except String (List Label)
  checksum : Configuration → String
  settings : ∀ value t setting, target ⟨value,.default host⟩ = .ok t → t.constraintSetting = some setting →
    ∃ s, target ⟨setting,.default host⟩ = .ok s

/-- A setting that holds a list, if the configuration has it. -/
def listSetting (c : Configuration) (name : String) : Option (List String) :=
  match c.settings[name]? with
  | some (.list items) => some items
  | _ => none

def extraPlatforms (key : Key) : Option (List String) :=
  listSetting key.configuration "//command_line_option:extra_execution_platforms"

def extraToolchains (key : Key) : Option (List String) :=
  listSetting key.configuration "//command_line_option:extra_toolchains"

/-- The default value of a setting, a name in its package. -/
def defaultOf (setting : Target) : Option Label :=
  (setting.attrs.findSome? fun e =>
    match e.2 with
    | .string s => if e.1 = "default_constraint_value" ∧ s ≠ "" then some s else none
    | _ => none).map fun name =>
      ⟨setting.label.repo,setting.label.package,.ofList (name.toList.dropWhile (· = ':'))⟩

namespace Ctx

variable (ctx : Ctx)

section Constraints

def targetOf (label : Label) : Except String Target := ctx.target ⟨label,.default ctx.host⟩

/-- A member that is no constraint value is none of the setting. -/
def names (setting member : Label) : Bool :=
  match ctx.targetOf member with
  | .ok m => m.constraintSetting == some setting
  | .error _ => false

def isUnnamedDefault (have_ : Labels) (value : Label) : Except String Bool :=
  match ctx.targetOf value with
  | .error _ => .ok false
  | .ok target =>
    match target.constraintSetting with
    | none => .ok false
    | some setting => do
      let settingTarget ← ctx.targetOf setting
      if defaultOf settingTarget ≠ some value then return false
      return !have_.toList.any (ctx.names setting)

def addDefault (have_ out : Labels) (value : Label) : Except String Labels := do
  if ← ctx.isUnnamedDefault have_ value then return out.insert value else return out

/-- A platform's constraints, with each of the needed ones that is a default of a setting
the platform does not name. -/
def withDefaultsFor (have_ : Labels) (needed : List Label) : Except String Labels :=
  (needed.filter fun value => !have_.contains value).foldlM (ctx.addDefault have_) have_

end Constraints

section Resolve

def actualOf (label : Label) : Except String (Option Label) := do
  let package ← ctx.package label.repo label.package
  return (package label.name).bind RuleTarget.actual

def follow : ℕ → Label → Except String Label
  | 0,label => .ok label
  | steps+1,label => do
    match ← ctx.actualOf label with
    | some actual => follow steps actual
    | none => return label

/-- The target a label stands for. -/
def followAliases (label : Label) : Except String Label := ctx.follow 16 label

def sameType (wanted type : Label) : Except String Bool :=
  if type = wanted then .ok true else (ctx.followAliases type).map fun l => decide (l = wanted)

def matchSetting (c : Configuration) (so : Bool) (setting : Label) : Except String Bool := do
  let target ← ctx.target ⟨setting,c⟩
  return so && target.configMatching == some true

variable (key : Key)

/-- What a toolchain target says, if it serves the type on the platform. -/
def tryToolchain (wanted : Label) (exec : Labels) (label : Label) : Except String (Option ToolchainDecl) := do
  let candidate ← ctx.target ⟨label,key.configuration⟩
  let some decl := candidate.toolchainDecl | return none
  let same ← ctx.sameType wanted decl.toolchainType
  if same = false then return none
  let execHeld ← ctx.withDefaultsFor exec decl.execCompatibleWith
  let targetHeld ← ctx.withDefaultsFor key.configuration.constraints decl.targetCompatibleWith
  if decl.execCompatibleWith.all execHeld.contains && decl.targetCompatibleWith.all targetHeld.contains then
    let settingsMatch ← decl.targetSettings.foldlM (ctx.matchSetting key.configuration) true
    return if settingsMatch then some decl else none
  else return none

def resolve (type : Label) (exec : Labels) : Except String (Option ToolchainDecl) := do
  let registered ← ctx.registeredToolchains (extraToolchains key)
  let wanted ← ctx.followAliases type
  firstSome (ctx.tryToolchain key wanted exec) registered

end Resolve

end Ctx

/-- A platform that is tried: one with no name is the target's own. -/
structure Candidate where
  label : Option Label
  constraints : Labels

/-- What has come of the types on one platform, and the types that some platform serves. -/
structure Trial where
  toolchains : List (Label × Option Target)
  unmet : List Label
  keys : List Key
  served : List Label

structure Resolved where
  toolchains : List (Label × Option Target)
  keys : List Key
  platform : Option Label

section Texts

variable (ctx : Ctx) (key : Key)

/-- A mandatory type resolved to nothing. -/
def noMatch (types : List Label) : String :=
  "While resolving toolchains for target " ++ labelText key.label ++ " (" ++ ctx.checksum key.configuration ++
    "): No matching toolchains found for types:" ++ String.join (types.map fun t => "\n  " ++ labelText t) ++
    "\nTo debug, rerun with --toolchain_resolution_debug='" ++ "|".intercalate (types.map labelText) ++
    "'\nFor more information on platforms or toolchains see " ++
    "https://bazel.build/concepts/platforms-intro."

/-- Each type has a toolchain somewhere, but no platform has them all. -/
def noExecutionPlatform (types platforms : List Label) : String :=
  let target := ((listSetting key.configuration "//command_line_option:platforms").bind List.head?).getD
    "@@platforms//host:host"
  "While resolving toolchains for target " ++ labelText key.label ++ " (" ++ ctx.checksum key.configuration ++
    "): Unable to find an execution platform for toolchains [" ++ ", ".intercalate (types.map labelText) ++
    "] and target platform " ++ target ++ " from available execution platforms [" ++
    ", ".intercalate (platforms.map labelText) ++ "]"

end Texts

namespace Ctx

variable (ctx : Ctx) (key : Key)

def serveType (platform : Labels) (s : Trial) (t : Label × Bool) : Except String Trial := do
  let typeKey : Key := ⟨t.1,key.configuration⟩
  let _ ← ctx.target typeKey
  match ← ctx.resolve key t.1 platform with
  | some decl =>
    -- Analysed here, before it is known whether the platform is the one.
    let implementation : Key := ⟨decl.toolchain,key.configuration⟩
    let done ← ctx.target implementation
    return ⟨s.toolchains ++ [(t.1,some done)],s.unmet,s.keys ++ [typeKey,implementation],t.1::s.served⟩
  | none =>
    if t.2 = true then return ⟨s.toolchains,s.unmet ++ [t.1],s.keys ++ [typeKey],s.served⟩
    else return ⟨s.toolchains ++ [(t.1,none)],s.unmet,s.keys ++ [typeKey],s.served⟩

def tryPlatform (types : List (Label × Bool)) (platform : Labels) (served : List Label) : Except String Trial :=
  types.foldlM (ctx.serveType key platform) ⟨[],[],[],served⟩

def tryPlatforms (types : List (Label × Bool)) : List Candidate → List Label →
    Except String (Option Resolved × List Label)
  | [],served => .ok (none,served)
  | p::rest,served => do
    let trial ← ctx.tryPlatform key types p.constraints served
    match trial.unmet with
    | [] => return (some ⟨trial.toolchains,trial.keys,p.label⟩,trial.served)
    | _ => tryPlatforms types rest trial.served

def hasAll (exec : List Label) (platform : Labels) : Except String Bool := do
  let held ← ctx.withDefaultsFor platform exec
  return exec.all held.contains

/-- The platforms the target may run on. -/
def candidates (exec : List Label) : List Candidate → Except String (List Candidate)
  | [] => .ok []
  | p::rest => do
    let fits ← ctx.hasAll exec p.constraints
    let others ← candidates exec rest
    return if fits then p::others else others

/-- With no platform named, the target platform is where it runs. -/
def orTarget (platforms : List ExecPlatform) : List Candidate :=
  match platforms with
  | [] => [⟨none,key.configuration.constraints⟩]
  | _ => platforms.map fun p => ⟨some p.label,p.constraints⟩

def resolveToolchains (types : List (Label × Bool)) (exec : List Label) : Except String Resolved :=
  if types = [] then .ok ⟨[],[],none⟩
  else do
    let platforms ← ctx.executionPlatforms (extraPlatforms key)
    let candidates ← ctx.candidates exec (orTarget key platforms)
    match ← ctx.tryPlatforms key types candidates [] with
    | (some resolved,_) => return resolved
    | (none,served) =>
      let without := (types.filter fun t => t.2 && !served.contains t.1).map Prod.fst
      throw (if without = [] then noExecutionPlatform ctx key (types.map Prod.fst) (candidates.filterMap (·.label))
        else noMatch ctx key without)

def isWanted (platform : Option Label) (exec : List Label) (p : ExecPlatform) :
    Except String (Option ExecPlatform) := do
  let wanted ←
    match platform with
    | some label => .ok (decide (p.label = label))
    | none => ctx.hasAll exec p.constraints
  return if wanted then some p else none

/-- The configuration the tools of a target are built in: the platform is looked up by
its name. -/
def execConfiguration (platform : Option Label) (exec : List Label) : Except String Configuration := do
  let platforms ← ctx.executionPlatforms (extraPlatforms key)
  match ← firstSome (ctx.isWanted platform exec) platforms with
  | some p => return key.configuration.toExecOn ctx.host p.label p.constraints
  | none => return key.configuration.toExec ctx.host

end Ctx

end BuildFiji.Toolchains
