import BuildFiji.Analysis.Aspect
import BuildFiji.Graph.Action
import BuildFiji.Lib.Worklist

/-!
# The targets of a build

Everything that what was asked for reads is collected once, and the actions of all
of it go to the scheduler. What a root needs is found again by a walk over the keys
that targets read, in a table of the targets by the label and configuration each one
has. Actions that conflict cost their owners, with all that these registered.
-/

set_option autoImplicit false
set_option linter.all false

namespace BuildFiji.Cli

open BuildFiji.Graph BuildFiji.RuleDeps BuildFiji.Aspects BuildFiji.Worklist

structure Owned where
  owner : Label
  action : Action

/-- What the engine is asked for. -/
inductive Node (γ : Type) where
  | target (key : ConfiguredTargetKey γ)
  | aspect (key : AspectKey γ)
  deriving DecidableEq

structure Analysed (γ : Type) where
  label : Label
  configuration : γ
  files : List Artifact
  actions : List Owned
  deps : List (ConfiguredTargetKey γ)
  aspectDeps : List (AspectKey γ)

section Collect

variable {γ : Type} [DecidableEq γ]

def Analysed.key (t : Analysed γ) : ConfiguredTargetKey γ := ⟨t.label,t.configuration⟩

/-- What a target read and what could be analysed of it. -/
def reads (value : Node γ → Option (Analysed γ)) (n : Node γ) : List (Node γ) :=
  match value n with
  | none => []
  | some t => (t.deps.map Node.target ++ t.aspectDeps.map Node.aspect).filter fun m => (value m).isSome

/-- The values of everything asked for, and the order in which the walk over what
these read met it: the last that was put there is looked at first. -/
structure Analysis (γ : Type) [DecidableEq γ] where
  value : Node γ → Option (Analysed γ)
  roots : List (Node γ)
  nodes : List (Node γ)
  walked : ∃ fuel, walk (reads value) fuel roots.reverse [] = some nodes

def Analysis.all (a : Analysis γ) : List (Analysed γ) := a.nodes.filterMap a.value

structure Root (a : Analysis γ) where
  node : Node γ
  target : Analysed γ
  mem : node ∈ a.roots
  found : a.value node = some target

end Collect

section Needed

variable {γ : Type} [DecidableEq γ] (all : List (Analysed γ))

/-- `targets_by_key`: of several with one key the last. -/
def byKey (k : ConfiguredTargetKey γ) : Option (Analysed γ) :=
  all.reverse.find? fun t => decide (t.key = k)

def depsOf (k : ConfiguredTargetKey γ) : List (ConfiguredTargetKey γ) :=
  ((byKey all k).map (·.deps)).getD []

/-- Enough turns to take every key from the stack. -/
def turns : ℕ := pendingEdges (depsOf all) (all.map (·.key)) [] + 2

def neededKeys (root : Analysed γ) : List (ConfiguredTargetKey γ) :=
  ((walk (depsOf all) (turns all) [root.key] []).getD []).filter fun k => (byKey all k).isSome

/-- The labels of the targets that the root needs, itself among them. -/
def neededLabels (root : Analysed γ) : List String :=
  (neededKeys all root).map fun k => labelText k.label

def needsDropped (dropped : List Label) (root : Analysed γ) : Bool :=
  (neededLabels all root).any fun needed => dropped.any fun d => labelText d == needed

/-- A test that fails is a result; everything else that failed is an error. -/
def reported (failed : List Owned) : List Owned :=
  failed.filter fun f => f.action.mnemonic != "TestRunner"

def built (dropped : List Label) (failed : List Owned) (root : Analysed γ) : Bool :=
  let needed :=
    if (reported failed).isEmpty && dropped.isEmpty then [] else neededLabels all root
  (reported failed).all (fun f => !needed.contains (labelText f.owner)) &&
    dropped.all fun d => !needed.contains (labelText d)

/-- The actions that are left, with those of the tests and of the workspace status. -/
def executed (dropped : List Label) (more : List Owned) : List Owned :=
  (all.flatMap (·.actions)).filter (fun x => decide (x.owner ∉ dropped)) ++ more

/-- Of several actions that make a file the last runs. -/
def maker (actions : List Owned) (f : Artifact) : Option Owned :=
  actions.reverse.find? fun x => decide (f ∈ x.action.outputs)

end Needed

section Reach

variable {γ : Type} [DecidableEq γ] {all : List (Analysed γ)}

theorem byKey_key {k : ConfiguredTargetKey γ} {t : Analysed γ} (h : byKey all k = some t) :
    t.key = k := by
  unfold byKey at h
  have hk := List.find?_some h
  exact of_decide_eq_true hk

theorem byKey_mem {k : ConfiguredTargetKey γ} {t : Analysed γ} (h : byKey all k = some t) :
    t ∈ all := by
  unfold byKey at h
  exact List.mem_reverse.mp (List.mem_of_find?_eq_some h)

theorem depsOf_mem {k : ConfiguredTargetKey γ} (h : depsOf all k ≠ []) : k ∈ all.map (·.key) := by
  unfold depsOf at h
  cases hk : byKey all k with
  | none =>
    rw [hk] at h
    exact absurd rfl h
  | some t =>
    rw [← byKey_key hk]
    exact List.mem_map_of_mem (byKey_mem hk)

/-- The root reaches the key through keys that are each the key of a target. -/
def Reaches (all : List (Analysed γ)) (root : Analysed γ) (k : ConfiguredTargetKey γ) : Prop :=
  Relation.ReflTransGen (Step (depsOf all)) root.key k ∧ (byKey all k).isSome

theorem mem_neededKeys {root : Analysed γ} {k : ConfiguredTargetKey γ} :
    k ∈ neededKeys all root ↔ Reaches all root k := by
  have hturns : [root.key].length + pendingEdges (depsOf all) (all.map (·.key)) [] < turns all := by
    rw [turns, List.length_singleton]
    omega
  obtain ⟨out,hout⟩ := walk_ends (fun k h => depsOf_mem h) hturns
  rw [neededKeys, hout, Option.getD_some, List.mem_filter, mem_walk hout]
  simp only [List.mem_singleton, exists_eq_left]
  rfl

/-- A label is needed as the text of one of the targets that the root reaches. -/
theorem mem_neededLabels {root : Analysed γ} {l : Label} :
    labelText l ∈ neededLabels all root ↔
      ∃ k, Reaches all root k ∧ labelText k.label = labelText l := by
  rw [neededLabels, List.mem_map]
  simp only [mem_neededKeys]

end Reach

end BuildFiji.Cli
