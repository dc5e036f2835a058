import BuildFiji.Lib.Chain
import BuildFiji.Lib.Machine
import Mathlib.Data.List.Basic

/-!
# Making repositories

A repository is made by running its rule and known by then, and the repositories of a
module extension once that has run. Both look others up while they run. Each is made by
the first thread to ask for it, and the others sleep until some thread is done with
something. A thread that needs what it is making itself fails; one that needs what
another makes does not look further.
-/

set_option autoImplicit false
set_option linter.all false

namespace BuildFiji.Making

inductive Item where
  | repo (name : String)
  | extension (id : String)
  deriving DecidableEq

/-- Where a lookup is made: for a load statement, for the file a rule is defined in, or
for the path of a label. -/
inductive How where
  | load
  | file
  | path
  deriving DecidableEq

structure Lookup where
  item : Item
  repo : String
  label : String
  how : How
  deriving DecidableEq

/-- The lookups that each rule or implementation makes, in order. -/
abbrev Needs := Item → List Lookup

inductive FetchError where
  | circular (item : Item)
  | load (label repo : String) (reason : FetchError)
  | file (repo : String)
  | path (label : String)
  deriving DecidableEq

namespace FetchError

def message : FetchError → String
  | circular (.repo name) =>
    "Circular definition of repository '@@" ++ name ++ "': it is needed to make itself"
  | circular (.extension id) =>
    "Circular definition of module extension " ++ id ++ ": it is needed to run itself"
  | load label repo reason => "Unable to find package for " ++ label ++ ": The repository '@@" ++
      repo ++ "' could not be resolved: " ++ reason.message
  | file repo => "no such repository '@@" ++ repo ++ "'"
  | path label => "cannot find the file of label " ++ label ++ ": its repository is not available"

/-- The message ends in that of a circular definition. -/
def isCircular : FetchError → Bool
  | circular _ => true
  | load _ _ reason => reason.isCircular
  | _ => false

end FetchError

/-- What becomes of an error where it was looked up. -/
def Lookup.failure (lookup : Lookup) (e : FetchError) : FetchError :=
  match lookup.how with
  | .load => .load lookup.label lookup.repo e
  | .file => .file lookup.repo
  | .path => .path lookup.label

/-- What a thread was asked for from outside, or a rule or implementation that it runs. -/
inductive Call where
  | request (lookups : List Lookup)
  | make (item : Item)
  deriving DecidableEq

/-- The lookups that are still to be made; the first is the one that is being made. -/
structure Frame where
  call : Call
  lookups : List Lookup
  deriving DecidableEq

/-- Where a thread is: at its own work, asleep in a lookup, with a lookup that failed, in
between the two locks at the end of `make_unguarded`, or after the second and before it
notifies. -/
inductive Phase where
  | running
  | asleep
  | failed (e : FetchError)
  | inserted
  | notifying (result : Except FetchError Unit)

structure Thread where
  frames : List Frame
  phase : Phase

/-- `made` is `lookups` and `ran`, `making` is `making` and `running`. -/
structure State (τ : Type) where
  made : Item → Bool
  making : Item → Option τ
  threads : τ → Thread
  successes : Item → ℕ
  returned : List (τ × List Lookup × Except FetchError Unit)

inductive Act (τ : Type) where
  | ask (t : τ) (request : List Lookup)
  | step (t : τ)
  | wake (t : τ)

namespace State

section Steps
variable {τ : Type} [DecidableEq τ]

def start : State τ where
  made _ := false
  making _ := none
  threads _ := ⟨[],.running⟩
  successes _ := 0
  returned := []

def withThread (s : State τ) (me : τ) (thread : Thread) : State τ :=
  { s with threads := Function.update s.threads me thread }

/-- What a lookup came to goes to the innermost frame. -/
def give (frames : List Frame) : Except FetchError Unit → Thread
  | .ok () =>
    match frames with
    | [] => ⟨[],.running⟩
    | frame::frames => ⟨{ frame with lookups := frame.lookups.tail }::frames,.running⟩
  | .error e => ⟨frames,.failed e⟩

variable (needs : Needs)

/-- The loop under the lock, once. -/
def look (s : State τ) (me : τ) (item : Item) : State τ :=
  let thread := s.threads me
  if s.made item then s.withThread me (give thread.frames (.ok ()))
  else
    match s.making item with
    | some owner =>
      -- Needed by the very call that is making it, or by one that waits for the outcome.
      if owner = me then s.withThread me (give thread.frames (.error (.circular item)))
      else s.withThread me { thread with phase := .asleep }
    | none =>
      { s.withThread me ⟨⟨.make item,needs item⟩::thread.frames,.running⟩ with
        making := Function.update s.making item (some me) }

def make (s : State τ) (me : τ) (name : String) : State τ := look needs s me (.repo name)

def ensureRan (s : State τ) (me : τ) (id : String) : State τ := look needs s me (.extension id)

/-- `finish_repo`: the repository can be looked up. -/
def insert (s : State τ) (item : Item) : State τ :=
  { s with
    made := Function.update s.made item true
    successes := Function.update s.successes item (s.successes item+1) }

/-- Whatever came of it, nobody makes it any more. -/
def remove (s : State τ) (me : τ) (item : Item) (frames : List Frame)
    (result : Except FetchError Unit) : State τ :=
  { s.withThread me ⟨frames,.notifying result⟩ with
    making := Function.update s.making item none }

/-- A request is over. -/
def leave (s : State τ) (me : τ) (request : List Lookup) (result : Except FetchError Unit) :
    State τ :=
  { s.withThread me ⟨[],.running⟩ with returned := s.returned ++ [(me,request,result)] }

def awake (thread : Thread) : Thread :=
  match thread.phase with
  | .asleep => { thread with phase := .running }
  | _ => thread

/-- Every thread that sleeps is woken up, and the result goes on. -/
def notify (s : State τ) (me : τ) (result : Except FetchError Unit) : State τ :=
  { s with
    threads := Function.update (fun t => awake (s.threads t)) me
      (give (s.threads me).frames result) }

/-- Until the next time the thread has the lock. -/
def stepThread (s : State τ) (me : τ) : Option (State τ) :=
  match (s.threads me).phase, (s.threads me).frames with
  | .notifying result, _ => some (s.notify me result)
  | .running, ⟨_,lookup::_⟩::_ =>
    match lookup.item with
    | .repo name => some (make needs s me name)
    | .extension id => some (ensureRan needs s me id)
  | .running, ⟨.request request,[]⟩::_ => some (s.leave me request (.ok ()))
  | .running, ⟨.make (.repo name),[]⟩::_ =>
    some ((s.insert (.repo name)).withThread me { s.threads me with phase := .inserted })
  | .running, ⟨.make (.extension id),[]⟩::frames =>
    some ((s.insert (.extension id)).remove me (.extension id) frames (.ok ()))
  | .inserted, ⟨.make item,_⟩::frames => some (s.remove me item frames (.ok ()))
  | .failed e, ⟨.request request,_⟩::_ => some (s.leave me request (.error e))
  | .failed e, ⟨.make item,lookup::_⟩::frames =>
    some (s.remove me item frames (.error (lookup.failure e)))
  | _, _ => none

def step (s : State τ) : Act τ → Option (State τ)
  | .ask t request =>
    match (s.threads t).frames, (s.threads t).phase with
    | [], .running => some (s.withThread t ⟨[⟨.request request,request⟩],.running⟩)
    | _, _ => none
  | .step t => stepThread needs s t
  | .wake t =>
    match (s.threads t).phase with
    | .asleep => some (s.withThread t (awake (s.threads t)))
    | _ => none

end Steps

end State

def Call.lookups (needs : Needs) : Call → List Lookup
  | .request lookups => lookups
  | .make item => needs item

/-- What is being made. -/
def itemsOf (frames : List Frame) : List Item := frames.filterMap fun frame =>
  match frame.call with
  | .make item => some item
  | .request _ => none

/-- The lookup that is being made. -/
def Looks (frames : List Frame) (lookup : Lookup) : Prop :=
  ∃ frame below rest, frames = frame::below ∧ frame.lookups = lookup::rest

namespace State

section Properties
variable {τ : Type} (s : State τ)

/-- The thread sleeps until what it looks up has been made. -/
def WaitsOn (t : τ) (item : Item) : Prop :=
  (s.threads t).phase = .asleep ∧ ∃ lookup, Looks (s.threads t).frames lookup ∧ lookup.item = item

/-- Every thread of the set waits for what another of it makes. -/
def Deadlocked (S : Set τ) : Prop :=
  S.Nonempty ∧ ∀ t ∈ S, ∃ item owner, s.WaitsOn t item ∧ s.making item = some owner ∧
    owner ≠ t ∧ owner ∈ S

end Properties

end State

open Relation

def Need (needs : Needs) (a b : Item) : Prop := ∃ lookup ∈ needs a, lookup.item = b

/-- What is asked for needs something that needs itself. -/
def NeedsCycle (needs : Needs) (request : List Lookup) : Prop :=
  ∃ lookup ∈ request, ∃ x, ReflTransGen (Need needs) lookup.item x ∧ TransGen (Need needs) x x

/-- What a thread comes to wait for needs nothing that the thread makes, and where a
lookup comes back to what is being made, it is that of a load statement. -/
structure Meets {τ : Type} (needs : Needs) (s : State τ) (t : τ) : Prop where
  waits : (s.threads t).phase = .running → ∀ lookup owner, Looks (s.threads t).frames lookup →
    s.made lookup.item = false → s.making lookup.item = some owner → owner ≠ t →
    ∀ x ∈ itemsOf (s.threads t).frames, ¬ReflTransGen (Need needs) lookup.item x
  quotes : ∀ e lookup item rest below, (s.threads t).phase = .failed e → e.isCircular = true →
    (s.threads t).frames = ⟨.make item,lookup::rest⟩::below → lookup.how = .load

def Act.Meets {τ : Type} (needs : Needs) (s : State τ) : Act τ → Prop
  | .step t => Making.Meets needs s t
  | _ => True

end BuildFiji.Making
