import BuildFiji.Graph.Rule
import Mathlib.Data.List.Sort
import Mathlib.Data.String.Basic

/-!
# The targets that a rule's code sees

Every label that an attribute names is an edge, in the configuration that the
attribute asks for or in one for each branch of its transition. What the code is
given is kept under the label alone, and for a transition also under the branch.
What a target looks like, and what the result of an aspect adds to that, is left
open.
-/

set_option autoImplicit false
set_option linter.all false

namespace BuildFiji.RuleDeps

open BuildFiji.Graph

structure AspectRef where
  bzl : Label
  name : String
  deriving DecidableEq

/-- A target in one of the configurations. -/
structure ConfiguredTargetKey (γ : Type) where
  label : Label
  configuration : γ
  deriving DecidableEq

structure DepEdge where
  label : Label
  attr : String
  cfg : Cfg
  deriving DecidableEq

section Edges

def notDependencies : List String := ["visibility","compatible_with","restricted_to",
  "target_compatible_with","exec_compatible_with","exec_group_compatible_with","package_metadata",
  "applicable_licenses","aspect_hints","transitive_configs"]

def isDep : AttrType → Bool
  | .label | .labelList | .labelKeyedStringDict | .stringKeyedLabelDict | .labelListDict => true
  | _ => false

structure Found where
  seen : List (Label × Cfg × String)
  edges : List DepEdge

def addLabel (cfg : Cfg) (attr : String) (found : Found) (label : Label) : Found :=
  if (label,cfg,attr) ∈ found.seen then found
  else ⟨found.seen ++ [(label,cfg,attr)],found.edges ++ [⟨label,attr,cfg⟩]⟩

def addAttr (schema : RuleSchema) (found : Found) (e : String × AttrValue) : Found :=
  if notDependencies.contains e.1 then found
  else
    match schema.attr e.1 with
    | none => found
    | some attr => if isDep attr.ty then e.2.labels.foldl (addLabel attr.cfg e.1) found else found

/-- A label named by attributes of different kinds is listed for each. -/
def labelsOfAttrs (schema : RuleSchema) (set : Attrs) : List DepEdge :=
  ((resolvedAttrs schema set).foldl (addAttr schema) ⟨[],[]⟩).edges

end Edges

/-- What decides the targets: the attributes, the configuration, that of tools,
what the transition of an attribute makes of the configuration, by the keys of its
branches, and the aspects that an attribute asks for. -/
structure Rule (γ : Type) where
  schema : RuleSchema
  set : Attrs
  configuration : γ
  execConfiguration : γ
  transition : String → List (String × γ)
  aspects : String → List AspectRef
  binDir : γ → String

/-- How a target looks, and what it looks like with the result of an aspect. -/
structure View (γ δ : Type) where
  info : ConfiguredTargetKey γ → δ
  extend : δ → ConfiguredTargetKey γ → AspectRef → δ

structure Dep (γ : Type) where
  edge : DepEdge
  split : Option String
  key : ConfiguredTargetKey γ
  deriving DecidableEq

section Analyze

variable {γ δ : Type} [DecidableEq γ] (r : Rule γ) (v : View γ δ)

/-- The branches of a split are in the order of their configurations. -/
def branches (edge : DepEdge) : List (Option String × γ) :=
  match edge.cfg with
  | .target => [(none,r.configuration)]
  | .exec | .host => [(none,r.execConfiguration)]
  | .transition =>
    ((r.transition edge.attr).insertionSort fun a b => r.binDir a.2 ≤ r.binDir b.2).map
      fun m => (some m.1,m.2)

def edges : List DepEdge := labelsOfAttrs r.schema r.set

def deps : List (Dep γ) :=
  (edges r).flatMap fun e => (branches r e).map fun b => ⟨e,b.1,⟨e.label,b.2⟩⟩

def aspectKeys : List (ConfiguredTargetKey γ × AspectRef) :=
  (deps r).flatMap fun d => (r.aspects d.edge.attr).map fun a => (d.key,a)

/-- What the result of one aspect is added to: every edge to its target. -/
def addAspect (infos : List δ) (k : ConfiguredTargetKey γ × AspectRef) : List δ :=
  List.zipWith (fun d info => if d.key = k.1 then v.extend info k.1 k.2 else info) (deps r) infos

def infos : List δ := (aspectKeys r).foldl (addAspect r v) ((deps r).map fun d => v.info d.key)

/-- What the code is given: by label, and by attribute and branch. -/
structure Given (δ : Type) where
  deps : Label → Option δ
  splits : String → Option (List (String × List (Label × δ)))

def pushTarget (split : String) (target : Label × δ) :
    List (String × List (Label × δ)) → List (String × List (Label × δ))
  | [] => [(split,[target])]
  | (k,targets)::rest =>
    if k = split then (k,targets ++ [target])::rest else (k,targets)::pushTarget split target rest

def give (given : Given δ) (e : Dep γ × δ) : Given δ where
  deps := fun l => if l = e.1.key.label then some e.2 else given.deps l
  splits :=
    match e.1.split with
    | none => given.splits
    | some split => fun attr =>
      if attr = e.1.edge.attr then
        some (pushTarget split (e.1.key.label,e.2) ((given.splits attr).getD []))
      else given.splits attr

def given : Given δ := ((deps r).zip (infos r v)).foldl give ⟨fun _ => none,fun _ => none⟩

/-- The targets of an attribute's branch. -/
def underBranch (given : Given δ) (attr split : String) : List (Label × δ) :=
  ((((given.splits attr).getD []).find? fun b => b.1 == split).map (·.2)).getD []

end Analyze

end BuildFiji.RuleDeps
