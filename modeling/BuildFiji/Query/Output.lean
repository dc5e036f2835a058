import BuildFiji.Lib.DepthFirst
import BuildFiji.Lib.Ranks
import BuildFiji.Lib.Fallible
import BuildFiji.Query.Eval
import Mathlib.Data.Finset.Basic

/-!
# The order, the ranks and the graph of a query's result

The outputs that follow edges do so in the subgraph of the result: its targets, each with the
edges that stay within it. `--output=graph` draws the targets that have the same predecessors and
successors as one node.
-/

set_option autoImplicit false
set_option linter.all false

namespace BuildFiji.Query.Output

open BuildFiji.Graph

/-- What the outputs read of an edge; the condition is that of the `select()` it comes from. -/
structure Edge where
  target : Label
  condition : Option String
deriving DecidableEq

structure Subgraph where
  edges : Std.ExtTreeMap Label (List Edge)
  closed : ∀ (label : Label) (es : List Edge), edges[label]? = some es → ∀ e ∈ es, e.target ∈ edges

namespace Subgraph

variable (g : Subgraph)

def keys : List Label := g.edges.keys

def edgesOf (label : Label) : List Edge := (g.edges[label]?).getD []

/-- The targets a target has edges to, with a repetition where there are several. -/
def next (label : Label) : List Label := (g.edgesOf label).map Edge.target

end Subgraph

section Subgraphs

variable (nodeEdges : Label → Except String (List Edge)) (set : Targets)

def keepWithin (out : Std.ExtTreeMap Label (List Edge)) (label : Label) :
    Except String (Std.ExtTreeMap Label (List Edge)) := do
  let edges ← nodeEdges label
  return out.insert label (edges.filter fun e => e.target ∈ set)

def subgraphEdges : Except String (Std.ExtTreeMap Label (List Edge)) :=
  set.toList.foldlM (keepWithin nodeEdges set) ∅

theorem keepWithin_fold {labels : List Label} {out out' : Std.ExtTreeMap Label (List Edge)}
    (h : labels.foldlM (keepWithin nodeEdges set) out = .ok out') (label : Label) :
    (label ∉ labels → out'[label]? = out[label]?) ∧ (label ∈ labels →
      ∃ es, nodeEdges label = .ok es ∧ out'[label]? = some (es.filter fun e => e.target ∈ set)) := by
  induction labels generalizing out with
  | nil =>
    rw [List.foldlM_nil, Fallible.pure_ok] at h
    simp [h]
  | cons first labels ih =>
    rw [List.foldlM_cons, Fallible.bind_ok] at h
    obtain ⟨mid,hmid,hrest⟩ := h
    rw [keepWithin, Fallible.bind_ok] at hmid
    obtain ⟨es,hes,hinsert⟩ := hmid
    obtain rfl := Fallible.pure_ok.mp hinsert
    obtain ⟨hold,hnew⟩ := ih hrest
    constructor
    · intro hnot
      rw [List.mem_cons, not_or] at hnot
      rw [hold hnot.2, Std.ExtTreeMap.getElem?_insert, if_neg (by simpa using Ne.symm hnot.1)]
    · intro hmem
      by_cases hin : label ∈ labels
      · exact hnew hin
      · obtain rfl := (List.mem_cons.mp hmem).resolve_right hin
        exact ⟨es,hes,by rw [hold hin, Std.ExtTreeMap.getElem?_insert_self]⟩

theorem subgraphEdges_get {edges : Std.ExtTreeMap Label (List Edge)} (h : subgraphEdges nodeEdges set = .ok edges)
    (label : Label) :
    (label ∉ set → edges[label]? = none) ∧ (label ∈ set →
      ∃ es, nodeEdges label = .ok es ∧ edges[label]? = some (es.filter fun e => e.target ∈ set)) := by
  have hfold := keepWithin_fold nodeEdges set h label
  rw [Std.ExtTreeSet.mem_toList] at hfold
  exact ⟨fun hnot => (hfold.1 hnot).trans (by simp),hfold.2⟩

theorem subgraphEdges_closed {edges : Std.ExtTreeMap Label (List Edge)}
    (h : subgraphEdges nodeEdges set = .ok edges) (label : Label) (es : List Edge)
    (hget : edges[label]? = some es) : ∀ e ∈ es, e.target ∈ edges := by
  intro e he
  have hin : e.target ∈ set := by
    by_cases hlabel : label ∈ set
    · obtain ⟨all,-,hes⟩ := (subgraphEdges_get nodeEdges set h label).2 hlabel
      obtain rfl := Option.some.inj (hget.symm.trans hes)
      simpa using (List.mem_filter.mp he).2
    · rw [(subgraphEdges_get nodeEdges set h label).1 hlabel] at hget
      cases hget
  obtain ⟨es',-,hes'⟩ := (subgraphEdges_get nodeEdges set h e.target).2 hin
  rw [Std.ExtTreeMap.mem_iff_isSome_getElem?, hes']
  rfl

/-- The targets of a set with the edges within it, where an evaluator has the edges of a node or
why it could not be loaded. -/
def subgraph : Except String Subgraph :=
  match h : subgraphEdges nodeEdges set with
  | .error e => .error e
  | .ok edges => .ok ⟨edges,subgraphEdges_closed nodeEdges set h⟩

end Subgraphs

section Order

variable (g : Subgraph)

/-- Each target before what it depends on. -/
def dependencyOrder : List Label := (DepthFirst.postorder g.next g.keys).reverse

/-- By the longest way or the shortest; a target that no sweep came to has rank 0. Without a value
a counter ran out. -/
def ranks (longest : Bool) : Option (Label → Option ℕ) := do
  let rank ← if longest then Ranks.farthest g.next g.keys else Ranks.nearest g.next g.keys
  return fun label => if label ∈ g.edges then some ((rank label).getD 0) else rank label

end Order

/-- The nodes after merging the equivalent ones: their representatives in dependency order, the
representative of each target, and the targets of each representative. -/
structure Factored where
  order : List Label
  repOf : Std.ExtTreeMap Label Label
  groups : Std.ExtTreeMap Label (List Label)

namespace Factored

def representative (nodes : Factored) (label : Label) : Label := (nodes.repOf[label]?).getD label

def members (nodes : Factored) (label : Label) : List Label := (nodes.groups[label]?).getD []

end Factored

section Factoring

variable (g : Subgraph)

def precede (source : Label) (preds : Label → Finset Label) (target : Label) : Label → Finset Label :=
  Function.update preds target (insert source (preds target))

def predecessors : Label → Finset Label :=
  g.keys.foldl (fun preds source => (g.next source).foldl (precede source) preds) fun _ => ∅

abbrev Shape := Finset Label × Finset Label

def shapeOf (label : Label) : Shape := (predecessors g label,(g.next label).toFinset)

structure Merging where
  byShape : List (Shape × Label)
  out : Factored

/-- The first target of a shape represents it. -/
def merge (factored : Bool) (m : Merging) (label : Label) : Merging :=
  let known := if factored then m.byShape.lookup (shapeOf g label) else none
  let rep := known.getD label
  { byShape := if factored && known.isNone then m.byShape ++ [(shapeOf g label,label)] else m.byShape
    out := {
      order := if rep = label then m.out.order ++ [label] else m.out.order
      repOf := m.out.repOf.insert label rep
      groups := m.out.groups.insert rep (m.out.members rep ++ [label]) } }

def factor (order : List Label) (factored : Bool) : Factored :=
  (order.foldl (merge g factored) ⟨[],⟨[],∅,∅⟩⟩).out

/-- The nodes that `--output=graph` draws. -/
def graphNodes (factored : Bool) : Factored := factor g (dependencyOrder g) factored

end Factoring

structure GraphOptions where
  factored : Bool
  nodeLimit : ℤ

/-- How the graph a query ran over names its nodes, and whether it lists edges by these names. -/
structure Naming where
  outputName : Label → String
  sortsEdges : Bool

/-- What is drawn, one line each. -/
inductive Drawn where
  | node (rep : Label)
  | edge (source target : Label)
  | condition (text : String)
deriving DecidableEq

section Drawing

variable (g : Subgraph) (naming : Naming) (nodes : Factored)

def listedEdges (label : Label) : List Edge :=
  if naming.sortsEdges then
    (g.edgesOf label).mergeSort fun a b => naming.outputName a.target ≤ naming.outputName b.target
  else g.edgesOf label

/-- The edges of a representative, one to each node. -/
def drawEdges (label : Label) : List Label → List Edge → List Drawn
  | _, [] => []
  | seen, e::es =>
    let target := nodes.representative e.target
    if target ∈ seen then drawEdges label seen es
    else .edge label target :: (e.condition.toList.map .condition ++ drawEdges label (target::seen) es)

def drawn : List Drawn :=
  nodes.order.flatMap fun label => .node label :: drawEdges nodes label [] (listedEdges g naming label)

/-- Those names that fit, starting from the first. -/
def namesShown (limit : ℕ) : List String → ℕ → List String → List String
  | shown, _, [] => shown
  | shown, length, name::names =>
    if shown ≠ [] ∧ length+1+name.utf8ByteSize > limit then shown
    else namesShown limit (shown ++ [name]) (length+name.utf8ByteSize+(if shown = [] then 0 else 1)) names

def nameOf (options : GraphOptions) (label : Label) : String :=
  match nodes.members label with
  | [only] => naming.outputName only
  | members =>
    let names := (members.map naming.outputName).mergeSort (· ≤ ·)
    let all := "\\n".intercalate names.reverse
    if options.nodeLimit < 0 ∨ all.length ≤ options.nodeLimit.toNat then all
    else
      let shown := namesShown options.nodeLimit.toNat [] 0 names
      let more := names.length-shown.length
      let text := "\\n".intercalate shown
      if more > 0 then text ++ "\\n...and " ++ toString more ++ " more items" else text

def Drawn.line (name : Label → String) : Drawn → String
  | node rep => "  \"" ++ name rep ++ "\""
  | edge source target => "  \"" ++ name source ++ "\" -> \"" ++ name target ++ "\""
  | condition text => "  [label=\"" ++ text ++ "\"];"

end Drawing

/-- The lines of `--output=graph`. -/
def graphLines (g : Subgraph) (naming : Naming) (options : GraphOptions) : List String :=
  let nodes := graphNodes g options.factored
  ["digraph mygraph \x7b","  node [shape=box];"] ++
    (drawn g naming nodes).map (Drawn.line (nameOf naming nodes options)) ++ ["\x7d"]

end BuildFiji.Query.Output
