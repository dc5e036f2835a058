import BuildFiji.Engine.Compute
import BuildFiji.Engine.Waits
import Mathlib.Logic.Function.Basic

/-!
# The engine used by one caller at a time

Each operation runs to completion before the next, so the tasks of a request
nest: a running node is one whose computation waits, through the wait graph,
for the computation at hand. Requests of one `get_all` are served in order.

Two components are not in the program and nothing of it reads them.
`unrecorded` says of a node that its last computation was refused a read, or
was given the error of a refused verification, which leaves no entry in its
dependencies; `reverified` says that such a node has been verified since.
-/

set_option autoImplicit false
set_option linter.all false

namespace BuildFiji.Engine.Memo

variable {K V C : Type*} [DecidableEq K] [DecidableEq V]

inductive State (K V : Type*) where
  | empty
  | done (e : Evaluated K V)
  | running (previous : Option (Evaluated K V)) (dirty : Bool)

structure Node (K V : Type*) where
  state : State K V
  dirty : Bool

structure Graph (K V : Type*) where
  version : ℕ
  nodes : K → Option (Node K V)
  waits : Waits K
  unrecorded : K → Bool
  reverified : Bool

def Graph.new (K V : Type*) : Graph K V where
  version := 0
  nodes _ := none
  waits := ∅
  unrecorded _ := false
  reverified := false

def Graph.set (g : Graph K V) (k : K) (n : Node K V) : Graph K V :=
  { g with nodes := Function.update g.nodes k (some n) }

/-- `Inner::node`. -/
def Graph.node (g : Graph K V) (k : K) : Graph K V :=
  match g.nodes k with
  | some _ => g
  | none => g.set k ⟨.empty,false⟩

def Graph.unwait (g : Graph K V) (a b : K) : Graph K V :=
  { g with waits := dropWaiting g.waits a b }

abbrev Answer (K V : Type*) := Option (Except String (Evaluated K V) × Graph K V)

section Run
variable (debug : K → String) (eval : Graph K V → K → Answer K V)

/-- The verification loop of `run`. -/
def verify (k : K) : List (K × ℕ) → Graph K V → Option (Except String Bool × Graph K V)
  | [], g => some (.ok true,g)
  | (d,observed)::rest, g =>
    match waitOn debug g.waits k d with
    | .error text => some (.error text,g)
    | .ok w =>
      match eval { g with waits := w } d with
      | none => none
      | some (.ok e,g') =>
        if e.changedAt ≤ observed then verify k rest (g'.unwait k d)
        else some (.ok false,g'.unwait k d)
      | some (.error _,g') => some (.ok false,g'.unwait k d)

/-- What a computation has asked for so far: the reads it has recorded, and
whether one has left no record. -/
structure Ctx (K : Type*) where
  deps : List (K × ℕ)
  missed : Bool

/-- `Ctx::get`. -/
def ctxGet (k d : K) (ctx : Ctx K) (g : Graph K V) : Option ((Outcome V × Ctx K) × Graph K V) :=
  let g := g.node d
  match waitOn debug g.waits k d with
  | .error text => some ((.error text,{ ctx with missed := true }),g)
  | .ok w =>
    match eval { g with waits := w } d with
    | none => none
    | some (.ok e,g') =>
      some ((e.outcome,{ ctx with deps := ctx.deps ++ [(d,e.changedAt)] }),g'.unwait k d)
    | some (.error text,g') => some ((.error text,{ ctx with missed := true }),g'.unwait k d)

/-- `Ctx::get_all`. -/
def ctxGetAll (k : K) : List K → Ctx K → Graph K V →
    Option ((List (Outcome V) × Ctx K) × Graph K V)
  | [], ctx, g => some (([],ctx),g)
  | d::ds, ctx, g =>
    match ctxGet debug eval k d ctx g with
    | none => none
    | some ((w,ctx'),g') =>
      match ctxGetAll k ds ctx' g' with
      | none => none
      | some ((ws,ctx''),g'') => some ((w::ws,ctx''),g'')

def interpret (ext : K → C) (k : K) : Comp K V C → Ctx K → Graph K V →
    Option ((Outcome V × Ctx K) × Graph K V)
  | .ret o, ctx, g => some ((o,ctx),g)
  | .cell cont, ctx, g => interpret ext k (cont (ext k)) ctx g
  | .get keys cont, ctx, g =>
    match ctxGetAll debug eval k keys ctx g with
    | none => none
    | some ((ws,ctx'),g') => interpret ext k (cont ws) ctx' g'

def publish (g : Graph K V) (k : K) (e : Evaluated K V) : Graph K V :=
  g.set k ⟨.done e,(g.nodes k).any Node.dirty⟩

def recompute (compute : K → Comp K V C) (ext : K → C) (k : K)
    (previous : Option (Evaluated K V)) (version : ℕ) (g : Graph K V) : Answer K V :=
  match interpret debug eval ext k (compute k) ⟨[],false⟩ g with
  | none => none
  | some ((o,ctx),g') =>
    let e := Evaluated.computed previous version o ctx.deps
    some (.ok e,{ publish g' k e with unrecorded := Function.update g'.unrecorded k ctx.missed })

/-- `run`: verify a stale node or compute it. -/
def run (compute : K → Comp K V C) (ext : K → C) (k : K) (previous : Option (Evaluated K V))
    (dirty : Bool) (version : ℕ) (g : Graph K V) : Answer K V :=
  match previous, dirty with
  | some p, false =>
    match verify debug eval k p.deps { g with reverified := g.reverified || g.unrecorded k } with
    | none => none
    | some (.error text,g') => some (.error text,g')
    | some (.ok true,g') => some (.ok (p.kept version),publish g' k (p.kept version))
    | some (.ok false,g') => recompute debug eval compute ext k previous version g'
  | _, _ => recompute debug eval compute ext k previous version g

end Run

/-- `Waiter::drop` of the last waiter: a computation that has not published
goes back to what the node held, and gives the dirty mark back. -/
def leave (g : Graph K V) (k : K) : Graph K V :=
  match g.nodes k with
  | some ⟨.running (some p) d,dirty⟩ => g.set k ⟨.done p,dirty || d⟩
  | some ⟨.running none d,dirty⟩ => g.set k ⟨.empty,dirty || d⟩
  | _ => g

/-- `evaluate_now`. A node that is already running belongs to a computation
that waits for this one, and awaiting it gives no answer. -/
def evaluate (debug : K → String) (compute : K → Comp K V C) (ext : K → C) (version : ℕ) :
    ℕ → Graph K V → K → Answer K V
  | 0, _, _ => none
  | fuel+1, g, k =>
    let start (previous : Option (Evaluated K V)) (dirty : Bool) : Answer K V :=
      match run debug (evaluate debug compute ext version fuel) compute ext k previous dirty version
          (g.set k ⟨.running previous dirty,false⟩) with
      | none => none
      | some (r,g') => some (r,leave g' k)
    match g.nodes k with
    | none => none
    | some ⟨.running _ _,_⟩ => none
    | some ⟨.empty,dirty⟩ => start none dirty
    | some ⟨.done e,dirty⟩ =>
      if version ≤ e.verifiedAt ∧ dirty = false then some (.ok e,g) else start (some e) dirty

inductive Op (K C : Type*) where
  | change (k : K) (c : C)
  | nextVersion
  | get (k : K)

structure World (K V C : Type*) where
  ext : K → C
  graph : Graph K V

def invalidate (g : Graph K V) (k : K) : Graph K V :=
  match g.nodes k with
  | some n => { g with version := g.version+1 }.set k { n with dirty := true }
  | none => { g with version := g.version+1 }

/-- What `Engine::get` gives its caller. -/
def answer : Except String (Evaluated K V) → Outcome V
  | .ok e => e.outcome
  | .error text => .error text

def get (debug : K → String) (compute : K → Comp K V C) (fuel : ℕ) (w : World K V C) (k : K) :
    Option (Outcome V × World K V C) :=
  let g := w.graph.node k
  match evaluate debug compute w.ext g.version fuel g k with
  | none => none
  | some (r,g') => some (answer r,{ w with graph := g' })

/-- A sequence of operations, with the answers of its gets in order. -/
def runOps (debug : K → String) (compute : K → Comp K V C) (fuel : ℕ) :
    List (Op K C) → World K V C → Option (List (Outcome V) × World K V C)
  | [], w => some ([],w)
  | .change k c::ops, w =>
    runOps debug compute fuel ops ⟨Function.update w.ext k c,invalidate w.graph k⟩
  | .nextVersion::ops, w =>
    runOps debug compute fuel ops { w with graph := { w.graph with version := w.graph.version+1 } }
  | .get k::ops, w =>
    match get debug compute fuel w k with
    | none => none
    | some (o,w') =>
      match runOps debug compute fuel ops w' with
      | none => none
      | some (os,w'') => some (o::os,w'')

end BuildFiji.Engine.Memo
