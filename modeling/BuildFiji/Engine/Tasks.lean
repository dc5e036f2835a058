import BuildFiji.Engine.Compute
import BuildFiji.Engine.Waits
import BuildFiji.Lib.Machine
import Mathlib.Logic.Function.Basic

/-!
# The engine used by many callers at once

An action is one region of the program that holds a lock, or one access to an
atomic. Requests (`evaluate_now`), the tasks they start (`run`), changes of a
cell (a write outside the graph, then `invalidate`) and the dropping of
requests interleave in any order, and several versions are in flight at once.

Computations, requests and changes are numbered in the order they start, and
what has ended keeps its place. A request of a task moves only while its task
has not been stopped; a task that is aborted goes on until it is next
suspended in all its requests, and may put its result in place before that.
-/

set_option autoImplicit false
set_option linter.all false

namespace BuildFiji.Engine.Tasks

variable {K V C : Type*}

abbrev Result (K V : Type*) := Except String (Evaluated K V)

inductive State (K V : Type*) where
  | empty
  | done (e : Evaluated K V)
  | running (c : ℕ)

structure Node (K V : Type*) where
  state : State K V
  dirty : Bool

/-- Where a request is. `leave` is `Waiter::drop` before it gives up its count,
`last` is the same after it, with the count at zero; their result is absent
when the request is being dropped. -/
inductive Phase (K V : Type*) where
  | enter
  | ask
  | look
  | await (c : ℕ)
  | other (c : ℕ)
  | leave (c : ℕ) (r : Option (Result K V))
  | last (c : ℕ) (r : Option (Result K V))
  | got (r : Option (Result K V))
  | done (o : Outcome V)
  | gone

structure Req (K V : Type*) where
  owner : Option ℕ
  key : K
  version : ℕ
  phase : Phase K V

/-- Where `run` is, with the requests it is waiting for. -/
inductive Task (K V C : Type*) where
  | verify (checked todo : List (K × ℕ)) (asked : Option ℕ)
  | compute (deps : List (K × ℕ)) (comp : Comp K V C) (asked : Option (List ℕ))
  | publish (e : Evaluated K V)
  | returned (r : Result K V)
  | stopped

structure Computation (K V C : Type*) where
  key : K
  version : ℕ
  previous : Option (Evaluated K V)
  dirty : Bool
  waiters : ℕ
  aborted : Bool
  task : Task K V C

/-- Where a change of a cell is: the cell is set, the node is looked up, the
version is started, the node is marked if there was one. -/
inductive Stage where
  | set
  | looked (found : Bool)
  | bumped (found : Bool) (version : ℕ)
  | done (version : ℕ)

structure Change (K : Type*) where
  key : K
  stage : Stage

structure Sys (K V C : Type*) where
  version : ℕ
  ext : K → C
  nodes : K → Option (Node K V)
  comps : List (Computation K V C)
  reqs : List (Req K V)
  changes : List (Change K)
  waits : Waits K

def Sys.new (V : Type*) (ext : K → C) : Sys K V C where
  version := 0
  ext := ext
  nodes _ := none
  comps := []
  reqs := []
  changes := []
  waits := ∅

inductive Act (K C : Type*) where
  | set (k : K) (c : C)
  | lookup (i : ℕ)
  | bump (i : ℕ)
  | store (i : ℕ)
  | nextVersion
  | request (k : K)
  | enter (i : ℕ)
  | ask (i : ℕ)
  | look (i : ℕ)
  | resume (i : ℕ)
  | drop (i : ℕ)
  | leave (i : ℕ)
  | last (i : ℕ)
  | deliver (i : ℕ)
  | spawn (j : ℕ)
  | read (j : ℕ)
  | advance (j : ℕ)
  | publish (j : ℕ)
  | reap (j : ℕ)

section Update
variable [DecidableEq K]

def Sys.setNode (s : Sys K V C) (k : K) (n : Node K V) : Sys K V C :=
  { s with nodes := Function.update s.nodes k (some n) }

def Sys.setReq (s : Sys K V C) (i : ℕ) (r : Req K V) : Sys K V C :=
  { s with reqs := s.reqs.set i r }

def Sys.setComp (s : Sys K V C) (j : ℕ) (c : Computation K V C) : Sys K V C :=
  { s with comps := s.comps.set j c }

def Sys.setStage (s : Sys K V C) (i : ℕ) (k : K) (stage : Stage) : Sys K V C :=
  { s with changes := s.changes.set i ⟨k,stage⟩ }

end Update

def Task.ended : Task K V C → Bool
  | .returned _ => true
  | .stopped => true
  | _ => false

def Task.isStopped : Task K V C → Bool
  | .stopped => true
  | _ => false

def Task.waiting : Task K V C → Bool
  | .verify _ _ (some _) => true
  | .compute _ _ (some _) => true
  | _ => false

def Sys.stopped (s : Sys K V C) (owner : Option ℕ) : Bool :=
  match owner with
  | none => false
  | some j => (s.comps[j]?).any fun c => c.task.isStopped

def Phase.suspended : Phase K V → Bool
  | .await _ => true
  | .other _ => true
  | .done _ => true
  | .gone => true
  | _ => false

def Req.outcome (r : Req K V) : Option (Outcome V) :=
  match r.phase with
  | .done o => some o
  | _ => none

def first (compute : K → Comp K V C) (k : K) (previous : Option (Evaluated K V)) (dirty : Bool) :
    Task K V C :=
  match previous, dirty with
  | some p, false => .verify [] p.deps none
  | _, _ => .compute [] (compute k) none

section Step
variable [DecidableEq K] [DecidableEq V] (debug : K → String) (compute : K → Comp K V C)

/-- The four regions of a change of a cell: the write, then those of
`Engine::invalidate`. -/
def change (s : Sys K V C) (i : ℕ) (stage : K → Stage → Option (Sys K V C)) : Option (Sys K V C) :=
  match s.changes[i]? with
  | none => none
  | some c => stage c.key c.stage

def lookup (s : Sys K V C) (i : ℕ) : Option (Sys K V C) :=
  change s i fun k stage =>
    match stage with
    | .set => some (s.setStage i k (.looked (s.nodes k).isSome))
    | _ => none

def bump (s : Sys K V C) (i : ℕ) : Option (Sys K V C) :=
  change s i fun k stage =>
    match stage with
    | .looked found =>
      some { s.setStage i k (.bumped found (s.version+1)) with version := s.version+1 }
    | _ => none

def store (s : Sys K V C) (i : ℕ) : Option (Sys K V C) :=
  change s i fun k stage =>
    match stage with
    | .bumped false v => some (s.setStage i k (.done v))
    | .bumped true v =>
      match s.nodes k with
      | none => none
      | some n => some ((s.setNode k { n with dirty := true }).setStage i k (.done v))
    | _ => none

/-- `Inner::node`. -/
def enter (s : Sys K V C) (i : ℕ) (r : Req K V) : Sys K V C :=
  match s.nodes r.key with
  | some _ => s.setReq i { r with phase := .ask }
  | none => (s.setNode r.key ⟨.empty,false⟩).setReq i { r with phase := .ask }

/-- A request from outside takes the version; one of a task takes its wait
edge, or is refused. -/
def ask (s : Sys K V C) (i : ℕ) (r : Req K V) : Option (Sys K V C) :=
  match r.owner with
  | none => some (s.setReq i { r with version := s.version, phase := .look })
  | some j =>
    match s.comps[j]? with
    | none => none
    | some c =>
      match waitOn debug s.waits c.key r.key with
      | .ok w => some { s.setReq i { r with phase := .look } with waits := w }
      | .error text =>
        match c.task with
        | .verify _ _ _ => some ((s.setReq i { r with phase := .gone }).setComp j
          { c with task := .returned (.error text) })
        | _ => some (s.setReq i { r with phase := .done (.error text) })

def begin (s : Sys K V C) (i : ℕ) (r : Req K V) (previous : Option (Evaluated K V)) (dirty : Bool) :
    Sys K V C :=
  let c : Computation K V C :=
    ⟨r.key,r.version,previous,dirty,1,false,first compute r.key previous dirty⟩
  { (s.setNode r.key ⟨.running s.comps.length,false⟩).setReq i
    { r with phase := .await s.comps.length } with comps := s.comps ++ [c] }

/-- One turn of the loop of `evaluate_now`, with the lock of the node held. -/
def look (s : Sys K V C) (i : ℕ) (r : Req K V) : Option (Sys K V C) :=
  match s.nodes r.key with
  | none => none
  | some ⟨.empty,dirty⟩ => some (begin compute s i r none dirty)
  | some ⟨.done e,dirty⟩ =>
    if r.version ≤ e.verifiedAt ∧ dirty = false then
      some (s.setReq i { r with phase := .got (some (.ok e)) })
    else some (begin compute s i r (some e) dirty)
  | some ⟨.running j,_⟩ =>
    match s.comps[j]? with
    | none => none
    | some c =>
      if c.version = r.version then
        some ((s.setReq i { r with phase := .await j }).setComp j
          { c with waiters := c.waiters+1 })
      else some (s.setReq i { r with phase := .other j })

/-- A future that has resolved wakes its request. -/
def resume (s : Sys K V C) (i : ℕ) (r : Req K V) : Option (Sys K V C) :=
  match r.phase with
  | .await j =>
    match s.comps[j]? with
    | some ⟨_,_,_,_,_,_,.returned res⟩ =>
      some (s.setReq i { r with phase := .leave j (some res) })
    | _ => none
  | .other j =>
    if (s.comps[j]?).any fun c => c.task.ended then some (s.setReq i { r with phase := .look })
    else none
  | _ => none

/-- The future of a request is dropped where it is suspended. -/
def drop (s : Sys K V C) (i : ℕ) (r : Req K V) : Option (Sys K V C) :=
  match r.phase with
  | .enter => some (s.setReq i { r with phase := .gone })
  | .await j => some (s.setReq i { r with phase := .leave j none })
  | .other _ => some (s.setReq i { r with phase := .got none })
  | _ => none

/-- `Waiter::drop`, up to the count. -/
def leave (s : Sys K V C) (i : ℕ) (r : Req K V) : Option (Sys K V C) :=
  match r.phase with
  | .leave j res =>
    match s.comps[j]? with
    | none => none
    | some c =>
      let left := s.setComp j { c with waiters := c.waiters-1 }
      if c.waiters ≠ 1 then some (left.setReq i { r with phase := .got res })
      else some (left.setReq i { r with phase := .last j res })
  | _ => none

/-- `Waiter::drop`, with the lock of the node held. -/
def last (s : Sys K V C) (i : ℕ) (r : Req K V) : Option (Sys K V C) :=
  match r.phase with
  | .last j res =>
    let out := s.setReq i { r with phase := .got res }
    match s.nodes r.key, s.comps[j]? with
    | some ⟨.running j',dirty⟩, some c =>
      if j' = j ∧ c.waiters = 0 then
        let back := match c.previous with
          | some p => .done p
          | none => .empty
        some ((out.setComp j { c with aborted := true }).setNode r.key ⟨back,dirty || c.dirty⟩)
      else some out
    | _, _ => some out
  | _ => none

/-- What a task does with the answer of a request. -/
def receive (compute : K → Comp K V C) (c : Computation K V C) (i : ℕ) (k : K) :
    Result K V → Option (Task K V C × Phase K V)
  | .ok e =>
    match c.task with
    | .verify checked ((d,observed)::todo) (some i') =>
      if i' ≠ i then none
      else if e.changedAt ≤ observed then some (.verify (checked ++ [(d,observed)]) todo none,.gone)
      else some (.compute [] (compute c.key) none,.gone)
    | .compute deps comp (some asked) =>
      some (.compute (deps ++ [(k,e.changedAt)]) comp (some asked),.done e.outcome)
    | _ => none
  | .error text =>
    match c.task with
    | .verify _ _ (some i') =>
      if i' ≠ i then none else some (.compute [] (compute c.key) none,.gone)
    | .compute deps comp (some asked) => some (.compute deps comp (some asked),.done (.error text))
    | _ => none

/-- The end of a request of a task: what it answers is taken, and its wait edge
is removed. -/
def deliver (s : Sys K V C) (i : ℕ) (r : Req K V) : Option (Sys K V C) :=
  match r.owner with
  | none => none
  | some j =>
    match s.comps[j]?, r.phase with
    | some c, .got none =>
      some { s.setReq i { r with phase := .gone } with waits := dropWaiting s.waits c.key r.key }
    | some c, .got (some res) =>
      match receive compute c i r.key res with
      | none => none
      | some (task,phase) =>
        some { (s.setReq i { r with phase := phase }).setComp j { c with task := task } with
          waits := dropWaiting s.waits c.key r.key }
    | _, _ => none

/-- A task makes its next requests. -/
def spawn (s : Sys K V C) (j : ℕ) (c : Computation K V C) : Option (Sys K V C) :=
  match c.task with
  | .verify checked ((d,observed)::todo) none =>
    some { s.setComp j
      { c with task := .verify checked ((d,observed)::todo) (some s.reqs.length) } with
      reqs := s.reqs ++ [⟨some j,d,c.version,.ask⟩] }
  | .compute deps (.get keys cont) none =>
    let asked := List.range' s.reqs.length keys.length
    some { s.setComp j { c with task := .compute deps (.get keys cont) (some asked) } with
      reqs := s.reqs ++ keys.map fun k => ⟨some j,k,c.version,.enter⟩ }
  | _ => none

def read (s : Sys K V C) (j : ℕ) (c : Computation K V C) : Option (Sys K V C) :=
  match c.task with
  | .compute deps (.cell cont) none =>
    some (s.setComp j { c with task := .compute deps (cont (s.ext c.key)) none })
  | _ => none

/-- A task goes on with what it has, up to its next request or its result. -/
def advance (s : Sys K V C) (j : ℕ) (c : Computation K V C) : Option (Sys K V C) :=
  match c.task with
  | .verify _ [] none =>
    match c.previous with
    | some p => some (s.setComp j { c with task := .publish (p.kept c.version) })
    | none => none
  | .compute deps (.get _ cont) (some asked) =>
    match asked.mapM fun i => (s.reqs[i]?).bind Req.outcome with
    | some ws => some (s.setComp j { c with task := .compute deps (cont ws) none })
    | none => none
  | .compute deps (.ret o) none =>
    some (s.setComp j
      { c with task := .publish (Evaluated.computed c.previous c.version o deps) })
  | _ => none

/-- The result is put in place whatever the node has come to hold. -/
def publish (s : Sys K V C) (j : ℕ) (c : Computation K V C) : Option (Sys K V C) :=
  match c.task, s.nodes c.key with
  | .publish e, some n =>
    some ((s.setComp j { c with task := .returned (.ok e) }).setNode c.key ⟨.done e,n.dirty⟩)
  | _, _ => none

/-- An aborted task is dropped once it is suspended. -/
def reap (s : Sys K V C) (j : ℕ) (c : Computation K V C) : Option (Sys K V C) :=
  if c.aborted && c.task.waiting && s.reqs.all fun r => r.owner != some j || r.phase.suspended then
    some (s.setComp j { c with task := .stopped })
  else none

def withReq (s : Sys K V C) (i : ℕ) (ok : Req K V → Bool)
    (f : Req K V → Option (Sys K V C)) : Option (Sys K V C) :=
  match s.reqs[i]? with
  | none => none
  | some r => if ok r then f r else none

def withComp (s : Sys K V C) (j : ℕ) (f : Computation K V C → Option (Sys K V C)) :
    Option (Sys K V C) :=
  match s.comps[j]? with
  | none => none
  | some c => f c

def Phase.isEnter : Phase K V → Bool
  | .enter => true
  | _ => false

def Phase.isAsk : Phase K V → Bool
  | .ask => true
  | _ => false

def Phase.isLook : Phase K V → Bool
  | .look => true
  | _ => false

def step (s : Sys K V C) : Act K C → Option (Sys K V C)
  | .set k c => some
    { s with ext := Function.update s.ext k c, changes := s.changes ++ [⟨k,.set⟩] }
  | .lookup i => lookup s i
  | .bump i => bump s i
  | .store i => store s i
  | .nextVersion => some { s with version := s.version+1 }
  | .request k => some { s with reqs := s.reqs ++ [⟨none,k,0,.enter⟩] }
  | .enter i => withReq s i (fun r => r.phase.isEnter && !s.stopped r.owner) fun r =>
    some (enter s i r)
  | .ask i => withReq s i (fun r => r.phase.isAsk && !s.stopped r.owner) (ask debug s i)
  | .look i => withReq s i (fun r => r.phase.isLook && !s.stopped r.owner) (look compute s i)
  | .resume i => withReq s i (fun r => !s.stopped r.owner) (resume s i)
  | .drop i => withReq s i (fun r => r.owner.isNone || s.stopped r.owner) (drop s i)
  | .leave i => withReq s i (fun _ => true) (leave s i)
  | .last i => withReq s i (fun _ => true) (last s i)
  | .deliver i => withReq s i (fun _ => true) (deliver compute s i)
  | .spawn j => withComp s j (spawn s j)
  | .read j => withComp s j (read s j)
  | .advance j => withComp s j (advance s j)
  | .publish j => withComp s j (publish s j)
  | .reap j => withComp s j (reap s j)

end Step

end BuildFiji.Engine.Tasks
