import BuildFiji.Lib.Chain
import BuildFiji.Lib.Machine
import Mathlib.Data.List.Basic

/-!
# Loading `.bzl` files

Each file is evaluated by the first thread to ask for it, and the others wait
for that thread. A thread that is about to wait follows the table of waiting
threads, to see whether the thread it would wait for is, through others, waiting
for it. A thread is in that table from before it sleeps until it has woken up,
and the table is under another lock than the files' slots.
-/

set_option autoImplicit false
set_option linter.all false

namespace BuildFiji.Starlark.Loader

open BuildFiji.Chain

/-- What is read of the files: what each loads, in order, and whether it fails
by itself once it has. -/
structure LoadGraph (α : Type) where
  loads : α → List α
  fails : α → Bool

inductive Failure (α : Type) where
  | cycle (path : List α) (file : α)
  | own (file : α)
deriving DecidableEq

/-- The frozen module of a file, or why there is none. -/
abbrev Loaded (α : Type) := Except (Failure α) α

inductive SlotState (τ α : Type) where
  | empty
  | running (owner : τ)
  | done (result : Loaded α)

/-- Where a thread is: at its own work, in `loaded` before the lock of the slot,
asleep in it, or with a result that it has not stored. -/
inductive Phase (α : Type) where
  | ready
  | asking (file : α)
  | asleep (file : α)
  | storing (result : Loaded α)

/-- The files a thread is evaluating, the innermost first, each with the loads
it has still to make, and what it will ask for itself. -/
structure Thread (α : Type) where
  requests : List α
  stack : List (α × List α)
  phase : Phase α

structure State (τ α : Type) where
  slots : α → SlotState τ α
  waiting : τ → Option τ
  threads : τ → Thread α
  evaluations : α → ℕ
  returned : List (τ × α × Loaded α)

namespace State

section Steps
variable {τ α : Type} [DecidableEq τ] [DecidableEq α]

def start (requests : τ → List α) : State τ α where
  slots _ := .empty
  waiting _ := none
  threads t := ⟨requests t,[],.ready⟩
  evaluations _ := 0
  returned := []

def withThread (s : State τ α) (me : τ) (thread : Thread α) : State τ α :=
  { s with threads := Function.update s.threads me thread }

/-- The files of the ring, from where the thread came upon it. -/
def cycle (stack : List (α × List α)) (file : α) : Failure α :=
  let evaluating := (stack.map Prod.fst).reverse
  let path := evaluating.drop ((evaluating.findIdx? fun l => l = file).getD 0)
  .cycle (if path = [] then [file] else path) file

/-- What a thread does with what a load statement gave, or a request of its own.
A load that fails fails the file. -/
def resume (thread : Thread α) (result : Loaded α) : Thread α :=
  match thread.stack, result with
  | _::_, .error e => { thread with phase := .storing (.error e) }
  | _, _ => { thread with phase := .ready }

/-- `loaded` returns. -/
def give (s : State τ α) (me : τ) (file : α) (result : Loaded α) : State τ α :=
  { s.withThread me (resume (s.threads me) result) with
    returned := s.returned ++ [(me,file,result)] }

variable (graph : LoadGraph α)

/-- A thread with its slot and its own work to itself. -/
def own (s : State τ α) (me : τ) : Option (State τ α) :=
  let thread := s.threads me
  match thread.stack, thread.requests with
  | [], [] => none
  | [], file::requests =>
    some (s.withThread me { thread with requests := requests, phase := .asking file })
  | (file,[])::_, _ =>
    let result := if graph.fails file then .error (.own file) else .ok file
    some (s.withThread me { thread with phase := .storing result })
  | (file,load::loads)::stack, _ =>
    some (s.withThread me { thread with stack := (file,loads)::stack, phase := .asking load })

/-- A thread that has the lock of a slot, and looks at it. -/
def look (fuel : ℕ) (s : State τ α) (me : τ) (file : α) : Option (State τ α) :=
  let thread := s.threads me
  match s.slots file with
  | .done result => some (s.give me file result)
  | .running owner =>
    if owner = me then some (s.give me file (.error (cycle thread.stack file)))
    else
      -- Wait for its owner, unless that thread is, through others, waiting for this one.
      match follow s.waiting me fuel owner with
      | none => none
      | some true => some (s.give me file (.error (cycle thread.stack file)))
      | some false =>
        some { s.withThread me { thread with phase := .asleep file } with
          waiting := Function.update s.waiting me (some owner) }
  | .empty =>
    some { s.withThread me { thread with
        stack := (file,graph.loads file)::thread.stack, phase := .ready } with
      slots := Function.update s.slots file (.running me)
      evaluations := Function.update s.evaluations file (s.evaluations file+1) }

/-- A thread that is woken up, for whatever reason, and leaves the table. -/
def wake (s : State τ α) (me : τ) (file : α) : State τ α :=
  { s.withThread me { s.threads me with phase := .asking file } with
    waiting := Function.update s.waiting me none }

/-- The owner stores what came of the evaluation, and notifies. -/
def store (s : State τ α) (me : τ) (result : Loaded α) : Option (State τ α) :=
  let thread := s.threads me
  match thread.stack with
  | [] => none
  | (file,_)::stack =>
    let s : State τ α := { s.withThread me { thread with stack := stack } with
      slots := Function.update s.slots file (.done result) }
    some (s.give me file result)

/-- One step of one thread; the number is how far it may follow the table. -/
def step (s : State τ α) (by' : τ × ℕ) : Option (State τ α) :=
  match (s.threads by'.1).phase with
  | .ready => own graph s by'.1
  | .asking file => look graph by'.2 s by'.1 file
  | .asleep file => some (s.wake by'.1 file)
  | .storing result => s.store by'.1 result

end Steps

end State

end BuildFiji.Starlark.Loader

/-!
## What every schedule of the loader keeps

A file belongs to the thread that evaluates it until its result is stored, so
each is evaluated once, and a thread that sleeps is in the table under the owner
of the file it sleeps for. The table has no ring, so some thread can always go on.
-/

namespace BuildFiji.Starlark.Loader

open BuildFiji.Chain Relation

variable {τ α : Type} {graph : LoadGraph α}

namespace State

def files (s : State τ α) (t : τ) : List α := (s.threads t).stack.map Prod.fst

section Frame
variable [DecidableEq τ] {s : State τ α} {me : τ} {thread : Thread α}

@[simp] theorem withThread_self : (s.withThread me thread).threads me = thread :=
  Function.update_self _ _ _

theorem withThread_of_ne {t : τ} (h : t ≠ me) : (s.withThread me thread).threads t = s.threads t :=
  Function.update_of_ne h _ _

@[simp] theorem withThread_slots : (s.withThread me thread).slots = s.slots := rfl

@[simp] theorem withThread_waiting : (s.withThread me thread).waiting = s.waiting := rfl

@[simp] theorem withThread_evaluations : (s.withThread me thread).evaluations = s.evaluations := rfl

@[simp] theorem withThread_returned : (s.withThread me thread).returned = s.returned := rfl

theorem resume_stack (thread : Thread α) (result : Loaded α) :
    (resume thread result).stack = thread.stack := by
  unfold resume
  split
  · rfl
  · rfl

theorem resume_phase (thread : Thread α) (result : Loaded α) :
    (resume thread result).phase = .ready ∨ ∃ e, result = .error e ∧ thread.stack ≠ [] ∧
      (resume thread result).phase = .storing (.error e) := by
  unfold resume
  split
  · next _ _ e hstack => exact .inr ⟨e,rfl,by rw [hstack]; exact nofun,rfl⟩
  · exact .inl rfl

end Frame

section Steps
variable [DecidableEq τ] [DecidableEq α]

/-- What one step of a thread comes to. -/
inductive Stepped (graph : LoadGraph α) (s : State τ α) (me : τ) : State τ α → Prop where
  | request (file : α) (requests : List α) (hphase : (s.threads me).phase = .ready)
    (hstack : (s.threads me).stack = []) (hrequests : (s.threads me).requests = file::requests) :
    Stepped graph s me
      (s.withThread me { s.threads me with requests := requests, phase := .asking file })
  | finish (file : α) (stack : List (α × List α)) (hphase : (s.threads me).phase = .ready)
    (hstack : (s.threads me).stack = (file,[])::stack) :
    Stepped graph s me (s.withThread me { s.threads me with
      phase := .storing (if graph.fails file then .error (.own file) else .ok file) })
  | load (file load : α) (loads : List α) (stack : List (α × List α))
    (hphase : (s.threads me).phase = .ready)
    (hstack : (s.threads me).stack = (file,load::loads)::stack) :
    Stepped graph s me (s.withThread me { s.threads me with
      stack := (file,loads)::stack, phase := .asking load })
  | found (file : α) (result : Loaded α) (hphase : (s.threads me).phase = .asking file)
    (hslot : s.slots file = .done result) : Stepped graph s me (s.give me file result)
  | ring (file : α) (owner : τ) (hphase : (s.threads me).phase = .asking file)
    (hslot : s.slots file = .running owner)
    (hpath : owner = me ∨ owner ≠ me ∧ TransGen (Next s.waiting) owner me) :
    Stepped graph s me (s.give me file (.error (cycle (s.threads me).stack file)))
  | sleep (file : α) (owner : τ) (hphase : (s.threads me).phase = .asking file)
    (hslot : s.slots file = .running owner) (hne : owner ≠ me)
    (hpath : ¬TransGen (Next s.waiting) owner me) :
    Stepped graph s me { s.withThread me { s.threads me with phase := .asleep file } with
      waiting := Function.update s.waiting me (some owner) }
  | begin (file : α) (hphase : (s.threads me).phase = .asking file)
    (hslot : s.slots file = .empty) :
    Stepped graph s me { s.withThread me { s.threads me with
        stack := (file,graph.loads file)::(s.threads me).stack, phase := .ready } with
      slots := Function.update s.slots file (.running me)
      evaluations := Function.update s.evaluations file (s.evaluations file+1) }
  | wake (file : α) (hphase : (s.threads me).phase = .asleep file) :
    Stepped graph s me (s.wake me file)
  | store (file : α) (loads : List α) (stack : List (α × List α)) (result : Loaded α)
    (hphase : (s.threads me).phase = .storing result)
    (hstack : (s.threads me).stack = (file,loads)::stack) :
    Stepped graph s me (give ({ s.withThread me { s.threads me with stack := stack } with
      slots := Function.update s.slots file (.done result) } : State τ α) me file result)

theorem stepped_of_step {s s' : State τ α} {by' : τ × ℕ} (h : step graph s by' = some s') :
    Stepped graph s by'.1 s' := by
  obtain ⟨me,fuel⟩ := by'
  unfold step at h
  dsimp only at h ⊢
  split at h
  · next hphase =>
    unfold own at h
    dsimp only at h
    split at h
    · cases h
    · next file requests hstack hrequests =>
      cases h
      exact .request file requests hphase hstack hrequests
    · next _ file stack hstack =>
      cases h
      exact .finish file stack hphase hstack
    · next _ file load loads stack hstack =>
      cases h
      exact .load file load loads stack hphase hstack
  · next file hphase =>
    unfold look at h
    dsimp only at h
    split at h
    · next result hslot =>
      cases h
      exact .found file result hphase hslot
    · next owner hslot =>
      split at h
      · next heq =>
        cases h
        exact .ring file owner hphase hslot (.inl heq)
      · next hne =>
        split at h
        · cases h
        · next hfollow =>
          cases h
          exact .ring file owner hphase hslot (.inr ⟨hne,follow_true hfollow⟩)
        · next hfollow =>
          cases h
          exact .sleep file owner hphase hslot hne (follow_false hfollow)
    · next hslot =>
      cases h
      exact .begin file hphase hslot
  · next file hphase =>
    cases h
    exact .wake file hphase
  · next result hphase =>
    unfold store at h
    dsimp only at h
    split at h
    · cases h
    · next file loads stack hstack =>
      cases h
      exact .store file loads stack result hphase hstack

end Steps

/-- What holds whatever the threads do. -/
structure Sound (s : State τ α) : Prop where
  owner : ∀ file t, s.slots file = .running t ↔ file ∈ s.files t
  distinct : ∀ t, (s.files t).Nodup
  asleep : ∀ t file, (s.threads t).phase = .asleep file → ∃ u, s.waiting t = some u ∧
    (s.slots file = .running u ∨ ∃ result, s.slots file = .done result)
  awake : ∀ t u, s.waiting t = some u → ∃ file, (s.threads t).phase = .asleep file
  ends : ∀ t, Ends s.waiting t
  storing : ∀ t result, (s.threads t).phase = .storing result → (s.threads t).stack ≠ []
  evaluations : ∀ file, s.evaluations file = match s.slots file with
    | .empty => 0
    | _ => 1

theorem start_sound (requests : τ → List α) : Sound (start requests) where
  owner file t := by simp [start, files]
  distinct t := by simp [start, files]
  asleep t file h := by cases h
  awake t u h := by cases h
  ends t := ends_empty t
  storing t result h := by cases h
  evaluations file := rfl

section Kept
variable [DecidableEq τ]

/-- A thread that is not asleep, before or after, and goes on in the same files. -/
theorem Sound.quiet {s : State τ α} (h : s.Sound) {me : τ} {thread : Thread α}
    (hstack : thread.stack.map Prod.fst = s.files me)
    (hbefore : ∀ file, (s.threads me).phase ≠ .asleep file)
    (hafter : ∀ file, thread.phase ≠ .asleep file)
    (hstoring : ∀ result, thread.phase = .storing result → thread.stack ≠ [])
    (returned : List (τ × α × Loaded α)) :
    Sound { s.withThread me thread with returned := returned } := by
  have hfiles : ∀ t, files { s.withThread me thread with returned := returned } t = s.files t := by
    intro t
    by_cases ht : t = me
    · subst ht
      simpa [files] using hstack
    · simp [files, withThread_of_ne ht]
  refine ⟨fun file t => ?_,fun t => ?_,fun t file hphase => ?_,fun t u hwait => ?_,h.ends,
    fun t result hphase => ?_,h.evaluations⟩
  · rw [hfiles]
    exact h.owner file t
  · rw [hfiles]
    exact h.distinct t
  · by_cases ht : t = me
    · subst ht
      exact absurd (by simpa using hphase) (hafter file)
    · exact h.asleep t file (by simpa [withThread_of_ne ht] using hphase)
  · obtain ⟨file,hphase⟩ := h.awake t u hwait
    by_cases ht : t = me
    · subst ht
      exact absurd hphase (hbefore file)
    · exact ⟨file,by simpa [withThread_of_ne ht] using hphase⟩
  · by_cases ht : t = me
    · subst ht
      simp only [withThread_self] at hphase ⊢
      exact hstoring result hphase
    · simp only [withThread_of_ne ht] at hphase ⊢
      exact h.storing t result hphase

theorem Sound.withThread {s : State τ α} (h : s.Sound) {me : τ} {thread : Thread α}
    (hstack : thread.stack.map Prod.fst = s.files me)
    (hbefore : ∀ file, (s.threads me).phase ≠ .asleep file)
    (hafter : ∀ file, thread.phase ≠ .asleep file)
    (hstoring : ∀ result, thread.phase = .storing result → thread.stack ≠ []) :
    Sound (s.withThread me thread) :=
  h.quiet hstack hbefore hafter hstoring s.returned

theorem Sound.give {s : State τ α} (h : s.Sound) {me : τ}
    (hphase : ∀ file, (s.threads me).phase ≠ .asleep file) (file : α) (result : Loaded α) :
    Sound (s.give me file result) := by
  have hresume := resume_phase (s.threads me) result
  refine @Sound.quiet _ _ _ s h me (resume (s.threads me) result) ?_ hphase ?_ ?_ _
  · rw [resume_stack]
    rfl
  · intro file' hasleep
    rcases hresume with hready | ⟨e,-,-,hstoring⟩
    · rw [hready] at hasleep
      cases hasleep
    · rw [hstoring] at hasleep
      cases hasleep
  · intro result' hstore
    rw [resume_stack]
    rcases hresume with hready | ⟨e,-,hstack,-⟩
    · rw [hready] at hstore
      cases hstore
    · exact hstack

/-- A thread that goes to sleep, where that closes no ring. -/
theorem Sound.sleep {s : State τ α} (h : s.Sound) {me owner : τ} {file : α}
    (hslot : s.slots file = .running owner) (hne : owner ≠ me)
    (hpath : ¬TransGen (Next s.waiting) owner me) :
    Sound { s.withThread me { s.threads me with phase := .asleep file } with
      waiting := Function.update s.waiting me (some owner) } := by
  have hfiles : ∀ t, files ({ s.withThread me { s.threads me with phase := .asleep file } with
      waiting := Function.update s.waiting me (some owner) } : State τ α) t = s.files t := by
    intro t
    by_cases ht : t = me
    · subst ht
      simp [files]
    · simp [files, withThread_of_ne ht]
  refine ⟨fun f t => ?_,fun t => ?_,fun t f hphase => ?_,fun t u hwait => ?_,
    fun t => Ends.insert h.ends hne hpath t,fun t result hphase => ?_,h.evaluations⟩
  · rw [hfiles]
    exact h.owner f t
  · rw [hfiles]
    exact h.distinct t
  · by_cases ht : t = me
    · subst ht
      simp only [withThread_self, Phase.asleep.injEq] at hphase
      subst hphase
      exact ⟨owner,Function.update_self _ _ _,.inl hslot⟩
    · simp only [withThread_of_ne ht] at hphase
      obtain ⟨u,hu,hstate⟩ := h.asleep t f hphase
      exact ⟨u,(Function.update_of_ne ht _ _).trans hu,hstate⟩
  · by_cases ht : t = me
    · subst ht
      exact ⟨file,by simp⟩
    · have hwait : s.waiting t = some u := (Function.update_of_ne ht _ _).symm.trans hwait
      obtain ⟨f,hf⟩ := h.awake t u hwait
      exact ⟨f,by simpa [withThread_of_ne ht] using hf⟩
  · by_cases ht : t = me
    · subst ht
      simp only [withThread_self] at hphase
      cases hphase
    · simp only [withThread_of_ne ht] at hphase ⊢
      exact h.storing t result hphase

theorem Sound.wake {s : State τ α} (h : s.Sound) {me : τ} (file : α) :
    Sound (s.wake me file) := by
  have hfiles : ∀ t, (s.wake me file).files t = s.files t := by
    intro t
    by_cases ht : t = me
    · subst ht
      simp [files, State.wake]
    · simp [files, State.wake, withThread_of_ne ht]
  refine ⟨fun f t => ?_,fun t => ?_,fun t f hphase => ?_,fun t u hwait => ?_,
    fun t => Ends.remove h.ends me t,fun t result hphase => ?_,h.evaluations⟩
  · rw [hfiles]
    exact h.owner f t
  · rw [hfiles]
    exact h.distinct t
  · by_cases ht : t = me
    · subst ht
      simp only [State.wake, withThread_self] at hphase
      cases hphase
    · simp only [State.wake, withThread_of_ne ht] at hphase ⊢
      obtain ⟨u,hu,hstate⟩ := h.asleep t f hphase
      exact ⟨u,by rwa [Function.update_of_ne ht],hstate⟩
  · by_cases ht : t = me
    · subst ht
      simp [State.wake] at hwait
    · simp only [State.wake, Function.update_of_ne ht] at hwait
      obtain ⟨f,hf⟩ := h.awake t u hwait
      exact ⟨f,by simpa [State.wake, withThread_of_ne ht] using hf⟩
  · by_cases ht : t = me
    · subst ht
      simp only [State.wake, withThread_self] at hphase
      cases hphase
    · simp only [State.wake, withThread_of_ne ht] at hphase ⊢
      exact h.storing t result hphase

/-- A file's slot and its owner's stack change together, where the owner is awake. -/
theorem Sound.change [DecidableEq α] {s : State τ α} (h : s.Sound) {me : τ} {thread : Thread α}
    {file : α} {slot : SlotState τ α} {evaluations : α → ℕ}
    (hbefore : ∀ f, (s.threads me).phase ≠ .asleep f) (hafter : ∀ f, thread.phase ≠ .asleep f)
    (hstoring : ∀ result, thread.phase ≠ .storing result)
    (hdistinct : (thread.stack.map Prod.fst).Nodup)
    (hmem : ∀ f, f ∈ thread.stack.map Prod.fst ↔
      if f = file then slot = .running me else f ∈ s.files me)
    (hothers : ∀ t, t ≠ me → slot ≠ .running t ∧ s.slots file ≠ .running t)
    (hkept : ∀ u, s.slots file = .running u ∨ (∃ result, s.slots file = .done result) →
      ∃ result, slot = .done result)
    (hevaluations : ∀ f, evaluations f = match Function.update s.slots file slot f with
      | .empty => 0
      | _ => 1) :
    Sound { s.withThread me thread with
      slots := Function.update s.slots file slot, evaluations := evaluations } := by
  refine ⟨fun f t => ?_,fun t => ?_,fun t f hphase => ?_,fun t u hwait => ?_,h.ends,
    fun t result hphase => ?_,hevaluations⟩
  · by_cases ht : t = me
    · subst ht
      simp only [files, withThread_self]
      rw [hmem f]
      by_cases hf : f = file
      · subst hf
        rw [Function.update_self, if_pos rfl]
      · rw [Function.update_of_ne hf, if_neg hf]
        exact h.owner f t
    · simp only [files, withThread_of_ne ht]
      by_cases hf : f = file
      · subst hf
        rw [Function.update_self]
        exact iff_of_false (hothers t ht).1 fun hf => (hothers t ht).2 ((h.owner f t).mpr hf)
      · rw [Function.update_of_ne hf]
        exact h.owner f t
  · by_cases ht : t = me
    · subst ht
      simpa [files] using hdistinct
    · simpa [files, withThread_of_ne ht] using h.distinct t
  · by_cases ht : t = me
    · subst ht
      exact absurd (by simpa using hphase) (hafter f)
    · obtain ⟨u,hu,hstate⟩ := h.asleep t f (by simpa [withThread_of_ne ht] using hphase)
      refine ⟨u,hu,?_⟩
      by_cases hf : f = file
      · subst hf
        simp only [Function.update_self]
        exact .inr (hkept u hstate)
      · simp only [Function.update_of_ne hf]
        exact hstate
  · obtain ⟨f,hf⟩ := h.awake t u hwait
    by_cases ht : t = me
    · subst ht
      exact absurd hf (hbefore f)
    · exact ⟨f,by simpa [withThread_of_ne ht] using hf⟩
  · by_cases ht : t = me
    · subst ht
      exact absurd (by simpa using hphase) (hstoring result)
    · simp only [withThread_of_ne ht] at hphase ⊢
      exact h.storing t result hphase

end Kept

section Invariant
variable [DecidableEq τ] [DecidableEq α]

/-- What storing comes to, as two changes: the slot, and the return. -/
def stored (s : State τ α) (me : τ) (file : α) (stack : List (α × List α)) (result : Loaded α) :
    State τ α :=
  { s.withThread me { s.threads me with stack := stack, phase := .ready } with
    slots := Function.update s.slots file (.done result), evaluations := s.evaluations }

theorem give_stored (s : State τ α) (me : τ) (file : α) (stack : List (α × List α))
    (result : Loaded α) :
    give ({ s.withThread me { s.threads me with stack := stack } with
      slots := Function.update s.slots file (.done result) } : State τ α) me file result =
        (s.stored me file stack result).give me file result := by
  have hresume : resume { s.threads me with stack := stack } result =
      resume { s.threads me with stack := stack, phase := .ready } result := by
    cases stack with
    | nil => rfl
    | cons frame stack =>
      cases result with
      | ok module => rfl
      | error e => rfl
  simp only [give, stored, withThread, Function.update_self, Function.update_idem, hresume]

theorem Sound.stored {s : State τ α} (h : s.Sound) {me : τ} {file : α} {loads : List α}
    {stack : List (α × List α)} {result : Loaded α}
    (hphase : (s.threads me).phase = .storing result)
    (hstack : (s.threads me).stack = (file,loads)::stack) :
    Sound (s.stored me file stack result) := by
  have hfiles : s.files me = file::stack.map Prod.fst := by rw [files, hstack, List.map_cons]
  have hdistinct := h.distinct me
  rw [hfiles, List.nodup_cons] at hdistinct
  have howner : s.slots file = .running me := (h.owner file me).mpr (by rw [hfiles]; simp)
  refine h.change (fun f hf => ?_) nofun nofun hdistinct.2 (fun f => ?_) (fun t ht => ?_)
    (fun _ _ => ⟨result,rfl⟩) fun f => ?_
  · rw [hphase] at hf
    cases hf
  · by_cases hf : f = file
    · subst hf
      rw [if_pos rfl]
      exact iff_of_false hdistinct.1 nofun
    · rw [if_neg hf, hfiles, List.mem_cons]
      exact ⟨.inr,fun hor => hor.resolve_left hf⟩
  · rw [howner]
    exact ⟨nofun,fun heq => ht (SlotState.running.inj heq).symm⟩
  · rw [h.evaluations]
    by_cases hf : f = file
    · subst hf
      rw [howner, Function.update_self]
    · rw [Function.update_of_ne hf]

theorem Sound.begin {s : State τ α} (h : s.Sound) {me : τ} {file : α}
    (hphase : (s.threads me).phase = .asking file) (hslot : s.slots file = .empty) :
    Sound { s.withThread me { s.threads me with
        stack := (file,graph.loads file)::(s.threads me).stack, phase := .ready } with
      slots := Function.update s.slots file (.running me)
      evaluations := Function.update s.evaluations file (s.evaluations file+1) } := by
  have hfree : ∀ t, file ∉ s.files t := by
    intro t hmem
    have howner := (h.owner file t).mpr hmem
    rw [hslot] at howner
    cases howner
  refine h.change (fun f hf => ?_) nofun nofun ?_ (fun f => ?_) (fun t ht => ?_) (fun u hu => ?_)
    fun f => ?_
  · rw [hphase] at hf
    cases hf
  · rw [List.map_cons, List.nodup_cons]
    exact ⟨hfree me,h.distinct me⟩
  · rw [List.map_cons, List.mem_cons]
    by_cases hf : f = file
    · subst hf
      rw [if_pos rfl]
      exact iff_of_true (.inl rfl) rfl
    · rw [if_neg hf]
      exact ⟨fun hor => hor.resolve_left hf,.inr⟩
  · rw [hslot]
    exact ⟨fun heq => ht (SlotState.running.inj heq).symm,nofun⟩
  · rw [hslot] at hu
    rcases hu with hu | ⟨result,hu⟩
    · cases hu
    · cases hu
  · by_cases hf : f = file
    · subst hf
      rw [Function.update_self, Function.update_self, h.evaluations, hslot]
    · rw [Function.update_of_ne hf, Function.update_of_ne hf, h.evaluations]

theorem Sound.stepped {s s' : State τ α} (h : s.Sound) {me : τ} (hs : Stepped graph s me s') :
    s'.Sound := by
  have hasking : ∀ file, (s.threads me).phase = .asking file →
      ∀ f, (s.threads me).phase ≠ .asleep f := by
    intro file hphase f hf
    rw [hphase] at hf
    cases hf
  have hready : (s.threads me).phase = .ready → ∀ f, (s.threads me).phase ≠ .asleep f := by
    intro hphase f hf
    rw [hphase] at hf
    cases hf
  cases hs with
  | request file requests hphase hstack hrequests =>
    exact h.withThread rfl (hready hphase) nofun nofun
  | finish file stack hphase hstack =>
    exact h.withThread rfl (hready hphase) nofun fun _ _ => by rw [hstack]; exact nofun
  | load file load loads stack hphase hstack =>
    exact h.withThread (by rw [files, hstack]; rfl) (hready hphase) nofun nofun
  | found file result hphase hslot => exact h.give (hasking file hphase) file result
  | ring file owner hphase hslot hpath => exact h.give (hasking file hphase) file _
  | sleep file owner hphase hslot hne hpath => exact h.sleep hslot hne hpath
  | begin file hphase hslot => exact h.begin hphase hslot
  | wake file hphase => exact h.wake file
  | store file loads stack result hphase hstack =>
    rw [give_stored]
    refine (h.stored hphase hstack).give (fun f => ?_) file result
    simp only [State.stored, withThread_self]
    exact nofun

theorem Sound.run {requests : τ → List α} {schedule : List (τ × ℕ)} {s : State τ α}
    (h : Machine.run (step graph) (start requests) schedule = some s) : s.Sound :=
  Machine.run_invariant (step graph) (fun _ _ _ hs hstep => hs.stepped (stepped_of_step hstep))
    (start_sound requests) h

end Invariant

/-- A thread that waits for a slot that another one owns. -/
def WaitsFor (s : State τ α) (t u : τ) : Prop :=
  ∃ file, (s.threads t).phase = .asleep file ∧ s.slots file = .running u

def Finished (s : State τ α) (t : τ) : Prop :=
  (s.threads t).phase = .ready ∧ (s.threads t).stack = [] ∧ (s.threads t).requests = []

section Waits
variable {s : State τ α}

theorem Sound.waitsFor (h : s.Sound) {t u : τ} (hw : s.WaitsFor t u) : Next s.waiting t u := by
  obtain ⟨file,hphase,hslot⟩ := hw
  obtain ⟨v,hv,hstate⟩ := h.asleep t file hphase
  rcases hstate with hrun | ⟨result,hdone⟩
  · rw [hslot] at hrun
    cases hrun
    exact hv
  · rw [hslot] at hdone
    cases hdone

theorem Sound.no_ring (h : s.Sound) (t : τ) : ¬TransGen s.WaitsFor t t := fun hring =>
  (h.ends t).irrefl (TransGen.mono (fun _ _ => h.waitsFor) _ _ hring)

theorem Sound.once (h : s.Sound) (file : α) : s.evaluations file ≤ 1 := by
  rw [h.evaluations]
  split
  · exact Nat.zero_le 1
  · exact Nat.le_refl 1

theorem Sound.can_look [DecidableEq τ] [DecidableEq α] (h : s.Sound) (t : τ) (file : α) :
    ∃ fuel s', look graph fuel s t file = some s' := by
  cases hslot : s.slots file with
  | done result => exact ⟨0,_,by rw [look, hslot]⟩
  | empty => exact ⟨0,_,by rw [look, hslot]⟩
  | running owner =>
    by_cases heq : owner = t
    · exact ⟨0,_,by rw [look, hslot]; exact if_pos heq⟩
    · obtain ⟨fuel,found,hfound⟩ := (h.ends owner).follow t
      cases found with
      | true => exact ⟨fuel,_,by rw [look, hslot]; exact (if_neg heq).trans (by rw [hfound])⟩
      | false => exact ⟨fuel,_,by rw [look, hslot]; exact (if_neg heq).trans (by rw [hfound])⟩

/-- A thread that is neither finished nor waiting for another can go on. -/
theorem Sound.can_step [DecidableEq τ] [DecidableEq α] (h : s.Sound) {t : τ}
    (hunfinished : ¬s.Finished t) : ∃ fuel s', step graph s (t,fuel) = some s' := by
  cases hphase : (s.threads t).phase with
  | ready =>
    have hown : ∃ s', own graph s t = some s' := by
      unfold own
      dsimp only
      split
      · next hstack hrequests => exact absurd ⟨hphase,hstack,hrequests⟩ hunfinished
      · exact ⟨_,rfl⟩
      · exact ⟨_,rfl⟩
      · exact ⟨_,rfl⟩
    obtain ⟨s',hs⟩ := hown
    exact ⟨0,s',by simp only [step, hphase, hs]⟩
  | asking file =>
    obtain ⟨fuel,s',hs⟩ := @Sound.can_look τ α graph s _ _ h t file
    exact ⟨fuel,s',by simp only [step, hphase, hs]⟩
  | asleep file => exact ⟨0,s.wake t file,by simp only [step, hphase]⟩
  | storing result =>
    obtain ⟨frame,stack,hstack⟩ := List.exists_cons_of_ne_nil (h.storing t result hphase)
    have hstore : ∃ s', s.store t result = some s' := by
      unfold store
      dsimp only
      rw [hstack]
      exact ⟨_,rfl⟩
    obtain ⟨s',hs⟩ := hstore
    exact ⟨0,s',by simp only [step, hphase, hs]⟩

/-- While a thread is not finished, some thread that waits for none can go on. -/
theorem Sound.progress [DecidableEq τ] [DecidableEq α] (h : s.Sound) {t : τ}
    (hunfinished : ¬s.Finished t) :
    ∃ u, (∀ v, ¬s.WaitsFor u v) ∧ ∃ fuel s', step graph s (u,fuel) = some s' := by
  have hends := h.ends t
  induction hends with
  | intro t _ ih =>
    by_cases hwaits : ∃ u, s.WaitsFor t u
    · obtain ⟨u,hu⟩ := hwaits
      refine ih u (h.waitsFor hu) fun hfinished => ?_
      obtain ⟨file,-,hslot⟩ := hu
      have hmem := (h.owner file u).mp hslot
      rw [files, hfinished.2.1] at hmem
      cases hmem
    · have hfree : ∀ u, ¬s.WaitsFor t u := fun u hu => hwaits ⟨u,hu⟩
      exact ⟨t,hfree,h.can_step hunfinished⟩

end Waits

end State

end BuildFiji.Starlark.Loader
