import BuildFiji.Analysis.RuleDeps
import BuildFiji.Lib.Fallible

/-!
# Aspects on targets

An aspect on a target looks at the target as it was analysed, with what the aspects
it requires made there, and at the targets that the attributes of the rule name,
each with this aspect's own result where it follows the attribute. Loading the file
that defines an aspect, its `required_providers`, toolchains and its implementation
are parameters.
-/

set_option autoImplicit false
set_option linter.all false

namespace BuildFiji.Aspects

open BuildFiji.Graph BuildFiji.RuleDeps

/-- An aspect applied to a target. -/
structure AspectKey (γ : Type) where
  target : ConfiguredTargetKey γ
  aspect : AspectRef
  deriving DecidableEq

/-- Each target that an attribute named, by the attribute, in the configuration that
the edge asked for. -/
structure RuleInfo (γ : Type) where
  ruleClass : String
  schema : RuleSchema
  attrs : Attrs
  edges : List (String × ConfiguredTargetKey γ)
  location : String
  buildFile : String

/-- What a target shows besides its providers is one value. -/
structure ConfiguredTarget (γ φ π : Type) where
  label : Label
  actual : Option Label
  configuration : γ
  execConfiguration : Option γ
  ruleClass : Option String
  ruleInfo : Option (RuleInfo γ)
  shown : φ
  providers : List π
  deps : List (ConfiguredTargetKey γ)
  aspectDeps : List (AspectKey γ)

structure DepInfo (φ π : Type) where
  label : Label
  ruleClass : Option String
  generated : Bool
  shown : φ
  providers : List π

def depInfo {γ φ π : Type} (target : ConfiguredTarget γ φ π) (generated : Bool) : DepInfo φ π where
  label := target.actual.getD target.label
  ruleClass := target.ruleClass
  generated := generated
  shown := target.shown
  providers := target.providers

def DepInfo.extend {φ π : Type} (info : DepInfo φ π) (providers : List π) : DepInfo φ π :=
  { info with providers := info.providers ++ providers }

structure AspectSpec where
  attrAspects : List String
  requires : List AspectRef
  schema : RuleSchema

def AspectSpec.follows (spec : AspectSpec) (attr : String) : Bool :=
  spec.attrAspects.any fun a => a == "*" || a == attr

/-- What the engine hands an aspect to run. -/
structure AspectRequest (γ φ π τ : Type) where
  aspect : AspectRef
  aspectSchema : RuleSchema
  aspectIds : List String
  target : DepInfo φ π
  ruleKind : String
  ruleSchema : RuleSchema
  ruleAttrs : Attrs
  ruleDeps : Label → Option (DepInfo φ π)
  deps : Label → Option (DepInfo φ π)
  location : String
  buildFile : String
  configuration : γ
  toolchains : τ

/-- What an aspect reads: the engine's answers, files that define aspects and the
code in them. -/
structure Env (γ φ π τ μ : Type) where
  target : ConfiguredTargetKey γ → Except String (ConfiguredTarget γ φ π)
  aspect : AspectKey γ → Except String (ConfiguredTarget γ φ π)
  module : Label → Except String μ
  aspectApplies : μ → String → List π → Bool
  aspectSpec : μ → String → Option AspectSpec
  toolchains : ConfiguredTargetKey γ → RuleSchema → Except String (τ × List (ConfiguredTargetKey γ))
  runAspect : AspectRequest γ φ π τ → Except String (φ × List π)
  toExec : γ → γ
  blank : φ

section Compute

variable {γ φ π τ μ : Type} (env : Env γ φ π τ μ) (key : AspectKey γ)

def ConfiguredTarget.new (key : ConfiguredTargetKey γ) (blank : φ) : ConfiguredTarget γ φ π where
  label := key.label
  actual := none
  configuration := key.configuration
  execConfiguration := none
  ruleClass := none
  ruleInfo := none
  shown := blank
  providers := []
  deps := []
  aspectDeps := []

def empty : ConfiguredTarget γ φ π :=
  { ConfiguredTarget.new key.target env.blank with ruleClass := some key.aspect.name }

/-- The results of the aspects it requires, on the same target. -/
def withRequired (seen : DepInfo φ π) (requires : List AspectRef) : Except String (DepInfo φ π) :=
  requires.foldlM (fun seen a => do
    let result ← env.aspect ⟨key.target,a⟩
    return seen.extend result.providers) seen

def insertDep (deps : Label → Option (DepInfo φ π)) (l : Label) (dep : DepInfo φ π) :
    Label → Option (DepInfo φ π) :=
  fun l' => if l' = l then some dep else deps l'

/-- One edge: a followed one takes the label's place, any other only a free one. -/
def addEdge (follows : String → Bool) (ruleDeps : Label → Option (DepInfo φ π))
    (edge : String × ConfiguredTargetKey γ) : Except String (Label → Option (DepInfo φ π)) := do
  let dep := depInfo (← env.target edge.2) false
  if follows edge.1 then
    let result ← env.aspect ⟨edge.2,key.aspect⟩
    return insertDep ruleDeps edge.2.label (dep.extend result.providers)
  else if (ruleDeps edge.2.label).isNone then return insertDep ruleDeps edge.2.label dep
  else return ruleDeps

def ruleDeps (follows : String → Bool) (edges : List (String × ConfiguredTargetKey γ)) :
    Except String (Label → Option (DepInfo φ π)) :=
  edges.foldlM (addEdge env key follows) fun _ => none

/-- The targets that the aspect's own attributes name. -/
def ownKey (execConfiguration : Option γ) (edge : DepEdge) :
    Except String (ConfiguredTargetKey γ) :=
  match edge.cfg with
  | .target => .ok ⟨edge.label,key.target.configuration⟩
  | .exec | .host =>
    .ok ⟨edge.label,execConfiguration.getD (env.toExec key.target.configuration)⟩
  | .transition => .error (labelText key.aspect.bzl ++ ": a transition on attribute '" ++
      edge.attr ++ "' of an aspect is not supported yet (buildfiji-136.8)")

def ownDeps (keys : List (ConfiguredTargetKey γ)) :
    Except String (Label → Option (DepInfo φ π)) :=
  keys.foldlM (fun deps k => do
    return insertDep deps k.label (depInfo (← env.target k) false)) fun _ => none

def aspectDeps (spec : AspectSpec) (edges : List (String × ConfiguredTargetKey γ)) :
    List (AspectKey γ) :=
  (spec.requires.map fun a => ⟨key.target,a⟩) ++
    (edges.filter fun e => spec.follows e.1).map fun e => ⟨e.2,key.aspect⟩

/-- What the implementation is given, with the keys that are read for it. -/
structure Prepared (γ φ π τ : Type) where
  request : AspectRequest γ φ π τ
  deps : List (ConfiguredTargetKey γ)
  aspectDeps : List (AspectKey γ)

def looks (base : ConfiguredTarget γ φ π) (info : RuleInfo γ) (spec : AspectSpec) :
    Except String (Prepared γ φ π τ) := do
  let seen ← withRequired env key (depInfo base false) spec.requires
  let ruleDeps ← ruleDeps env key spec.follows info.edges
  let ownKeys ← (labelsOfAttrs spec.schema []).mapM (ownKey env key base.execConfiguration)
  let deps ← ownDeps env ownKeys
  let (toolchains,toolchainKeys) ← env.toolchains key.target spec.schema
  return {
    request := {
      aspect := key.aspect
      aspectSchema := spec.schema
      aspectIds := [labelText key.aspect.bzl ++ "%" ++ key.aspect.name]
      target := seen
      ruleKind := info.ruleClass
      ruleSchema := info.schema
      ruleAttrs := info.attrs
      ruleDeps := ruleDeps
      deps := deps
      location := info.location
      buildFile := info.buildFile
      configuration := key.target.configuration
      toolchains := toolchains }
    deps := ownKeys ++ toolchainKeys
    aspectDeps := aspectDeps key spec info.edges }

/-- Nothing where the target is of no Starlark rule or the aspect does not apply. -/
def prepare : Except String (Option (Prepared γ φ π τ)) := do
  let base ← env.target key.target
  match base.ruleInfo with
  | none => return none
  | some info =>
    let module ← env.module key.aspect.bzl
    if env.aspectApplies module key.aspect.name base.providers then
      match env.aspectSpec module key.aspect.name with
      | none => throw (key.aspect.name ++ " is not an aspect of " ++ labelText key.aspect.bzl)
      | some spec => some <$> looks env key base info spec
    else return none

def failed (message : String) : String :=
  labelText key.target.label ++ ": in aspect " ++ labelText key.aspect.bzl ++ "%" ++
    key.aspect.name ++ ": " ++ message

def compute : Except String (ConfiguredTarget γ φ π) := do
  match ← prepare env key with
  | none => return empty env key
  | some prepared =>
    let (shown,providers) ← (env.runAspect prepared.request).mapError (failed key)
    return { empty env key with
      shown := shown
      providers := providers
      deps := prepared.deps
      aspectDeps := prepared.aspectDeps }

end Compute

/-- The aspects on targets are answered with what computing them gives. -/
structure World (γ φ π τ μ : Type) extends Env γ φ π τ μ where
  computed : ∀ key, aspect key = compute toEnv key

end BuildFiji.Aspects
