import BuildFiji.Exec.Slots
import BuildFiji.Graph.Action
import BuildFiji.Lib.Machine
import BuildFiji.Lib.SortDedup
import Mathlib.Logic.Function.Basic

/-!
# The scheduler of a build's actions

A task for each action that something asks for. A step is what a task does
between two points where another can come in: a lock taken, the flag read or
swapped, a thread of its own waited for. What the cache, the disk and the command
come to is the answer in the label of the step.
-/

set_option autoImplicit false
set_option linter.all false

namespace BuildFiji.Exec
open Graph SortDedup

structure Build where
  actions : List Action
  requested : List Artifact
  jobs : ℕ
  keepGoing : Bool
  rank : ℕ → ℕ

/-- How a task ended. -/
inductive Ending where
  | ran
  | cached
  | failed
  | skipped
  | inputFailed
  deriving DecidableEq, Repr

def Ending.ok : Ending → Bool
  | .ran => true
  | .cached => true
  | _ => false

inductive Phase where
  | idle
  | calling (others : List ℕ)
  | waiting
  | looking
  | keying
  | acquiring
  | queued
  | holding
  | starting
  | preparing
  | making
  | spawning
  | running
  | collecting
  | recording
  | failing
  | reporting
  | leaving (ending : Ending)
  | returning (ending : Ending)
  | done (ending : Ending)
  deriving DecidableEq, Repr

structure State where
  roots : List ℕ
  phase : ℕ → Phase
  slots : Slots
  stopped : Bool
  failures : List ℕ
  ran : ℕ
  cached : ℕ
  /-- The actions executed, the commands started and the failures that swapped
  the flag, in their order. -/
  executed : List ℕ
  commands : List ℕ
  swaps : List ℕ

namespace Build

/-- Of several makers the last. -/
def byOutput (b : Build) (artifact : Artifact) : Option ℕ :=
  (b.actions.zipIdx.reverse.find? fun e => decide (artifact ∈ e.1.outputs)).map Prod.snd

def inputs (b : Build) (id : ℕ) : List Artifact := ((b.actions[id]?).map Action.inputs).getD []

/-- The other actions that make what the action reads. -/
def wait (b : Build) (id : ℕ) : List ℕ :=
  sortDedup (((b.inputs id).filterMap b.byOutput).filter fun other => decide (other ≠ id))

def wanted (b : Build) : List ℕ := sortDedup (b.requested.filterMap b.byOutput)

def isSpawn (b : Build) (id : ℕ) : Bool :=
  match (b.actions[id]?).map Action.kind with
  | some (.spawn ..) => true
  | _ => false

def mnemonic (b : Build) (id : ℕ) : String := ((b.actions[id]?).map Action.mnemonic).getD ""

def isTest (b : Build) (id : ℕ) : Bool := b.mnemonic id = "TestRunner"

def counted (b : Build) (id : ℕ) : Bool := b.mnemonic id ≠ "ParameterFileWrite"

def initial (b : Build) : State :=
  ⟨b.wanted,fun _ => .idle,.new (max b.jobs 1),false,[],0,0,[],[],[]⟩

end Build

namespace State

def goto (s : State) (id : ℕ) (phase : Phase) : State :=
  { s with phase := Function.update s.phase id phase }

/-- A task for the action, if it has none. -/
def call (b : Build) (s : State) (id : ℕ) : State :=
  if s.phase id = .idle then s.goto id (.calling (b.wait id)) else s

/-- A command's task has a slot to give back. -/
def close (b : Build) (s : State) (id : ℕ) (ending : Ending) : State :=
  s.goto id (if b.isSpawn id then .leaving ending else .returning ending)

def acquire (b : Build) (s : State) (id : ℕ) : State :=
  match s.slots.acquire (b.rank id) id with
  | (slots,true) => { s.goto id .holding with slots := slots }
  | (slots,false) => { s.goto id .queued with slots := slots }

def release (s : State) (id : ℕ) (ending : Ending) : State :=
  match s.slots.release with
  | (slots,some woken) => { (s.goto id (.returning ending)).goto woken .holding with slots := slots }
  | (slots,none) => { s.goto id (.returning ending) with slots := slots }

/-- `is_test || !stopped.swap(true)` -/
def fail (b : Build) (s : State) (id : ℕ) : State :=
  let first := b.isTest id || !s.stopped
  let s := if b.isTest id then s else { s with stopped := true, swaps := s.swaps ++ [id] }
  if first || b.keepGoing then s.goto id .reporting else s.close b id .failed

def endingOf : Phase → Option Ending
  | .done ending => some ending
  | _ => none

def skips (b : Build) (s : State) : Bool := s.stopped && !b.keepGoing

def task (b : Build) (s : State) (id : ℕ) (answer : Bool) : Option State :=
  match s.phase id with
  | .idle => none
  | .calling [] => some (s.goto id .waiting)
  | .calling (other::others) => some ((s.call b other).goto id (.calling others))
  | .waiting =>
    if (b.wait id).all fun other => (endingOf (s.phase other)).isSome then
      if (b.wait id).all fun other => (endingOf (s.phase other)).any Ending.ok then
        some (s.goto id .looking)
      else some (s.goto id (.returning .inputFailed))
    else none
  | .looking => some (if s.skips b then s.goto id (.returning .skipped) else s.goto id .keying)
  | .keying =>
    if answer then
      some { s.goto id (.returning .cached) with
        cached := s.cached + if b.counted id then 1 else 0 }
    else some (s.goto id (if b.isSpawn id then .acquiring else .starting))
  | .acquiring => some (s.acquire b id)
  | .queued => none
  | .holding => some (if s.skips b then s.goto id (.leaving .skipped) else s.goto id .starting)
  | .starting => some { s.goto id .preparing with executed := s.executed ++ [id] }
  | .preparing =>
    some (s.goto id (if !answer then .failing else if b.isSpawn id then .spawning else .making))
  | .making => some (s.goto id (if answer then .recording else .failing))
  | .spawning =>
    some (if answer then { s.goto id .running with commands := s.commands ++ [id] }
      else s.goto id .failing)
  | .running => some (s.goto id (if answer then .collecting else .failing))
  | .collecting => some (s.goto id (if answer then .recording else .failing))
  | .recording =>
    some { s.close b id .ran with ran := s.ran + if b.counted id then 1 else 0 }
  | .failing => some (s.fail b id)
  | .reporting => some { s.close b id .failed with failures := s.failures ++ [id] }
  | .leaving ending => some (s.release id ending)
  | .returning ending => some (s.goto id (.done ending))
  | .done _ => none

end State

inductive Event where
  | root
  | task (id : ℕ) (answer : Bool)
  deriving DecidableEq, Repr

def step (b : Build) (s : State) : Event → Option State
  | .root =>
    match s.roots with
    | [] => none
    | id::roots => some { s.call b id with roots := roots }
  | .task id answer => s.task b id answer

def Reached (b : Build) (s : State) : Prop := ∃ events, Machine.run (step b) b.initial events = some s

/-- `execute` returns: all it asked for has ended. -/
def Finished (b : Build) (s : State) : Prop :=
  s.roots = [] ∧ ∀ id ∈ b.wanted, ∃ ending, s.phase id = .done ending

end BuildFiji.Exec
