import BuildFiji.Exec.Scheduler
import Mathlib.Logic.Relation

/-!
# What every run of the scheduler keeps

What a step does to the task that takes it, and to another it calls or hands its
slot to. Most of a task's steps change its phase and nothing else that is
counted.
-/

set_option autoImplicit false
set_option linter.all false

namespace BuildFiji.Exec
open Graph Relation

variable {b : Build} {s s' : State}

namespace Phase

/-- The action was executed. -/
def executed : Phase → Bool
  | .preparing | .making | .spawning | .running | .collecting | .recording | .failing
  | .reporting => true
  | .leaving e | .returning e | .done e => e = .ran || e = .failed
  | _ => false

/-- A command's task has a slot. -/
def slotted : Phase → Bool
  | .holding | .starting | .preparing | .making | .spawning | .running | .collecting | .recording
  | .failing | .reporting | .leaving _ => true
  | _ => false

/-- The execution failed and the failure was reported or dropped. -/
def failed : Phase → Bool
  | .leaving e | .returning e | .done e => e = .failed
  | _ => false

/-- The flag was swapped for the failure. -/
def swapped : Phase → Bool
  | .reporting => true
  | phase => phase.failed

/-- The inputs were found to be made. -/
def pastInputs : Phase → Bool
  | .idle | .calling _ | .waiting => false
  | .leaving e | .returning e | .done e => e ≠ .inputFailed
  | _ => true

/-- The makers of the inputs were waited for. -/
def awaited : Phase → Bool
  | .idle | .calling _ | .waiting => false
  | _ => true

/-- Only the task of a command comes here. -/
def ofCommand : Phase → Bool
  | .acquiring | .queued | .holding | .spawning | .running | .collecting | .leaving _ => true
  | _ => false

/-- Between the last look at the flag and the command. -/
def committed : Phase → Bool
  | .starting | .preparing | .spawning => true
  | _ => false

end Phase

namespace State

@[simp] theorem goto_self (id : ℕ) (p : Phase) : (s.goto id p).phase id = p :=
  Function.update_self _ _ _

theorem goto_of_ne {id other : ℕ} (h : other ≠ id) (p : Phase) :
    (s.goto id p).phase other = s.phase other :=
  Function.update_of_ne h _ _

/-- What two phases have in common is left as it was. -/
theorem goto_same {β : Type} (f : Phase → β) {id : ℕ} {p : Phase} (h : f p = f (s.phase id))
    (i : ℕ) : f ((s.goto id p).phase i) = f (s.phase i) := by
  by_cases hi : i = id
  · subst hi
    rw [goto_self, h]
  · rw [goto_of_ne hi]

theorem call_same {β : Type} (f : Phase → β) {id : ℕ} (h : f (.calling (b.wait id)) = f .idle)
    (i : ℕ) : f ((s.call b id).phase i) = f (s.phase i) := by
  rw [call]
  split
  · next hidle =>
    apply goto_same
    rw [hidle, h]
  · rfl

theorem call_phase (id i : ℕ) : (s.call b id).phase i = s.phase i ∨
    i = id ∧ s.phase i = .idle ∧ (s.call b id).phase i = .calling (b.wait id) := by
  rw [call]
  split
  · next hidle =>
    by_cases hi : i = id
    · subst hi
      exact .inr ⟨rfl,hidle,goto_self _ _⟩
    · exact .inl (goto_of_ne hi _)
  · exact .inl rfl

theorem call_other {id i : ℕ} (h : s.phase i ≠ .idle) : (s.call b id).phase i = s.phase i :=
  (call_phase id i).resolve_right fun hand => h hand.2.1

@[simp] theorem call_rest (id : ℕ) : (s.call b id).slots = s.slots ∧
    (s.call b id).stopped = s.stopped ∧ (s.call b id).failures = s.failures ∧
    (s.call b id).executed = s.executed ∧ (s.call b id).commands = s.commands ∧
    (s.call b id).swaps = s.swaps ∧ (s.call b id).roots = s.roots := by
  rw [call]
  split
  · exact ⟨rfl,rfl,rfl,rfl,rfl,rfl,rfl⟩
  · exact ⟨rfl,rfl,rfl,rfl,rfl,rfl,rfl⟩

end State

/-- Steps that change the phase and nothing else that is counted. -/
inductive Silent (b : Build) (s : State) (id : ℕ) : Phase → Phase → Prop where
  | called : Silent b s id (.calling []) .waiting
  | ready (h : ∀ other ∈ b.wait id, ∃ e, s.phase other = .done e ∧ e.ok = true) :
    Silent b s id .waiting .looking
  | inputFailed (h : ∀ other ∈ b.wait id, ∃ e, s.phase other = .done e) :
    Silent b s id .waiting (.returning .inputFailed)
  | looked (h : s.skips b = false) : Silent b s id .looking .keying
  | skipped : Silent b s id .looking (.returning .skipped)
  | cached : Silent b s id .keying (.returning .cached)
  | acquiring (h : b.isSpawn id = true) : Silent b s id .keying .acquiring
  | alone (h : b.isSpawn id = false) : Silent b s id .keying .starting
  | held (h : s.skips b = false) : Silent b s id .holding .starting
  | heldSkipped : Silent b s id .holding (.leaving .skipped)
  | notPrepared : Silent b s id .preparing .failing
  | prepared (h : b.isSpawn id = true) : Silent b s id .preparing .spawning
  | preparedAlone (h : b.isSpawn id = false) : Silent b s id .preparing .making
  | made : Silent b s id .making .recording
  | notMade : Silent b s id .making .failing
  | notSpawned : Silent b s id .spawning .failing
  | ran : Silent b s id .running .collecting
  | notRun : Silent b s id .running .failing
  | collected : Silent b s id .collecting .recording
  | notCollected : Silent b s id .collecting .failing
  | recorded (h : b.isSpawn id = true) : Silent b s id .recording (.leaving .ran)
  | recordedAlone (h : b.isSpawn id = false) : Silent b s id .recording (.returning .ran)
  | returned (e : Ending) : Silent b s id (.returning e) (.done e)

/-- What a step comes to. -/
inductive Stepped (b : Build) (s : State) : State → Prop where
  | root (id : ℕ) (roots : List ℕ) (h : s.roots = id::roots) :
    Stepped b s { s.call b id with roots := roots }
  | call (id other : ℕ) (others : List ℕ) (h : s.phase id = .calling (other::others)) :
    Stepped b s ((s.call b other).goto id (.calling others))
  | silent (id : ℕ) (p : Phase) (ran cached : ℕ) (h : Silent b s id (s.phase id) p) :
    Stepped b s { s.goto id p with ran := ran, cached := cached }
  | acquire (id : ℕ) (h : s.phase id = .acquiring) (hfree : 0 < s.slots.free)
    (hwaiting : s.slots.waiting = []) :
    Stepped b s { s.goto id .holding with slots := { s.slots with free := s.slots.free-1 } }
  | queue (id : ℕ) (h : s.phase id = .acquiring) :
    Stepped b s { s.goto id .queued with
      slots := { s.slots with
        next := s.slots.next+1
        waiting := ⟨b.rank id,s.slots.next,id⟩::s.slots.waiting } }
  | execute (id : ℕ) (h : s.phase id = .starting) :
    Stepped b s { s.goto id .preparing with executed := s.executed ++ [id] }
  | command (id : ℕ) (h : s.phase id = .spawning) :
    Stepped b s { s.goto id .running with commands := s.commands ++ [id] }
  | testFailed (id : ℕ) (h : s.phase id = .failing) (htest : b.isTest id = true) :
    Stepped b s (s.goto id .reporting)
  | firstFailed (id : ℕ) (h : s.phase id = .failing) (htest : b.isTest id = false)
    (hdue : s.stopped = false ∨ b.keepGoing = true) :
    Stepped b s { s.goto id .reporting with stopped := true, swaps := s.swaps ++ [id] }
  | laterFailed (id : ℕ) (h : s.phase id = .failing) (htest : b.isTest id = false)
    (hstopped : s.stopped = true) (hkeep : b.keepGoing = false) :
    Stepped b s { s.close b id .failed with stopped := true, swaps := s.swaps ++ [id] }
  | report (id : ℕ) (h : s.phase id = .reporting) :
    Stepped b s { s.close b id .failed with failures := s.failures ++ [id] }
  | hand (id : ℕ) (e : Ending) (w : Waiter) (h : s.phase id = .leaving e)
    (hw : Slots.greatest s.slots.waiting = some w) :
    Stepped b s { (s.goto id (.returning e)).goto w.id .holding with
      slots := { s.slots with waiting := s.slots.waiting.erase w } }
  | free (id : ℕ) (e : Ending) (h : s.phase id = .leaving e) (hw : s.slots.waiting = []) :
    Stepped b s { s.goto id (.returning e) with
      slots := { s.slots with free := s.slots.free+1 } }

section Inversion

open State

theorem stepped_silent {id : ℕ} {p q : Phase} (h : s.phase id = p) (hmove : Silent b s id p q) :
    Stepped b s (s.goto id q) :=
  .silent id q s.ran s.cached (h ▸ hmove)

theorem stepped_fail {id : ℕ} (h : s.phase id = .failing) : Stepped b s (s.fail b id) := by
  unfold fail
  cases htest : b.isTest id with
  | true => exact .testFailed id h htest
  | false =>
    dsimp only
    split
    · next hdue =>
      rw [Bool.false_or, Bool.or_eq_true, Bool.not_eq_true'] at hdue
      exact .firstFailed id h htest hdue
    · next hdue =>
      rw [Bool.false_or, Bool.or_eq_true, Bool.not_eq_true', not_or, Bool.not_eq_false,
        Bool.not_eq_true] at hdue
      exact .laterFailed id h htest hdue.1 hdue.2

theorem endingOf_some {p : Phase} (h : (endingOf p).isSome = true) : ∃ e, p = .done e := by
  cases p with
  | done e => exact ⟨e,rfl⟩
  | _ => cases h

theorem endingOf_ok {p : Phase} (h : (endingOf p).any Ending.ok = true) :
    ∃ e, p = .done e ∧ e.ok = true := by
  cases p with
  | done e => exact ⟨e,rfl,h⟩
  | _ => cases h

theorem stepped_of_task {id : ℕ} {answer : Bool} (h : s.task b id answer = some s') :
    Stepped b s s' := by
  unfold State.task at h
  cases hp : s.phase id with
  | idle =>
    rw [hp] at h
    cases h
  | calling others =>
    rw [hp] at h
    cases others with
    | nil =>
      cases h
      exact stepped_silent hp .called
    | cons other others =>
      cases h
      exact .call id other others hp
  | waiting =>
    rw [hp] at h
    dsimp only at h
    split at h
    · next hended =>
      have hdone : ∀ other ∈ b.wait id, ∃ e, s.phase other = .done e := fun other hother =>
        endingOf_some (List.all_eq_true.mp hended other hother)
      split at h
      · next hok =>
        cases h
        exact stepped_silent hp (.ready fun other hother =>
          endingOf_ok (List.all_eq_true.mp hok other hother))
      · cases h
        exact stepped_silent hp (.inputFailed hdone)
    · cases h
  | looking =>
    rw [hp] at h
    cases hskips : s.skips b with
    | true =>
      simp only [hskips, if_true, Option.some.injEq] at h
      exact h ▸ stepped_silent hp .skipped
    | false =>
      simp only [hskips, Bool.false_eq_true, if_false, Option.some.injEq] at h
      exact h ▸ stepped_silent hp (.looked hskips)
  | keying =>
    rw [hp] at h
    cases answer with
    | true =>
      cases h
      exact .silent id _ _ _ (hp ▸ .cached)
    | false =>
      cases hspawn : b.isSpawn id with
      | true =>
        simp only [hspawn, Bool.false_eq_true, if_false, if_true, Option.some.injEq] at h
        exact h ▸ stepped_silent hp (.acquiring hspawn)
      | false =>
        simp only [hspawn, Bool.false_eq_true, if_false, Option.some.injEq] at h
        exact h ▸ stepped_silent hp (.alone hspawn)
  | acquiring =>
    rw [hp] at h
    cases h
    unfold State.acquire Slots.acquire
    by_cases hfree : 0 < s.slots.free ∧ s.slots.waiting = []
    · rw [if_pos hfree]
      exact .acquire id hp hfree.1 hfree.2
    · rw [if_neg hfree]
      exact .queue id hp
  | queued =>
    rw [hp] at h
    cases h
  | holding =>
    rw [hp] at h
    cases hskips : s.skips b with
    | true =>
      simp only [hskips, if_true, Option.some.injEq] at h
      exact h ▸ stepped_silent hp .heldSkipped
    | false =>
      simp only [hskips, Bool.false_eq_true, if_false, Option.some.injEq] at h
      exact h ▸ stepped_silent hp (.held hskips)
  | starting =>
    rw [hp] at h
    cases h
    exact .execute id hp
  | preparing =>
    rw [hp] at h
    cases answer with
    | false =>
      cases h
      exact stepped_silent hp .notPrepared
    | true =>
      cases hspawn : b.isSpawn id with
      | true =>
        simp only [hspawn, Bool.not_true, Bool.false_eq_true, if_false, if_true,
          Option.some.injEq] at h
        exact h ▸ stepped_silent hp (.prepared hspawn)
      | false =>
        simp only [hspawn, Bool.not_true, Bool.false_eq_true, if_false, Option.some.injEq] at h
        exact h ▸ stepped_silent hp (.preparedAlone hspawn)
  | making =>
    rw [hp] at h
    cases answer with
    | true =>
      cases h
      exact stepped_silent hp .made
    | false =>
      cases h
      exact stepped_silent hp .notMade
  | spawning =>
    rw [hp] at h
    cases answer with
    | true =>
      cases h
      exact .command id hp
    | false =>
      cases h
      exact stepped_silent hp .notSpawned
  | running =>
    rw [hp] at h
    cases answer with
    | true =>
      cases h
      exact stepped_silent hp .ran
    | false =>
      cases h
      exact stepped_silent hp .notRun
  | collecting =>
    rw [hp] at h
    cases answer with
    | true =>
      cases h
      exact stepped_silent hp .collected
    | false =>
      cases h
      exact stepped_silent hp .notCollected
  | recording =>
    rw [hp] at h
    cases h
    cases hspawn : b.isSpawn id with
    | true =>
      simp only [State.close, hspawn, if_true]
      exact .silent id _ _ _ (hp ▸ .recorded hspawn)
    | false =>
      simp only [State.close, hspawn, Bool.false_eq_true, if_false]
      exact .silent id _ _ _ (hp ▸ .recordedAlone hspawn)
  | failing =>
    rw [hp] at h
    cases h
    exact stepped_fail hp
  | reporting =>
    rw [hp] at h
    cases h
    exact .report id hp
  | leaving e =>
    rw [hp] at h
    cases h
    unfold State.release Slots.release
    cases hw : Slots.greatest s.slots.waiting with
    | some w => exact .hand id e w hp hw
    | none => exact .free id e hp (Slots.greatest_none hw)
  | returning e =>
    rw [hp] at h
    cases h
    exact stepped_silent hp (.returned e)
  | done e =>
    rw [hp] at h
    cases h

theorem stepped_of_step {e : Event} (h : step b s e = some s') : Stepped b s s' := by
  unfold step at h
  cases e with
  | root =>
    dsimp only at h
    split at h
    · cases h
    · next id roots hroots =>
      cases h
      exact .root id roots hroots
  | task id answer => exact stepped_of_task h

end Inversion

section Slots

open State

theorem goto_kept {id i : ℕ} {p : Phase} (h : s.phase i ≠ s.phase id) :
    (s.goto id p).phase i = s.phase i :=
  goto_of_ne (fun heq => h (congrArg s.phase heq)) p

/-- A call changes nothing that an idle task and a calling one have in common. -/
theorem call_goto_same {β : Type} (f : Phase → β) (hf : ∀ others, f (.calling others) = f .idle)
    {id other : ℕ} {others : List ℕ} (h : s.phase id = .calling (other::others)) (i : ℕ) :
    f (((s.call b other).goto id (.calling others)).phase i) = f (s.phase i) := by
  have hid : (s.call b other).phase id = s.phase id := call_other (by rw [h]; exact nofun)
  rw [goto_same f (by rw [hid, h, hf, hf]), call_same f (hf _)]

/-- The phase of a task that has its result. -/
def closedPhase (b : Build) (id : ℕ) (e : Ending) : Phase :=
  if b.isSpawn id then .leaving e else .returning e

theorem closed_eq {id : ℕ} {e : Ending} {β : Type} (f : Phase → β)
    (h : f (.leaving e) = f (.returning e)) : f (closedPhase b id e) = f (.returning e) := by
  rw [closedPhase]
  split
  · exact h
  · rfl

theorem closed_command {id : ℕ} {e : Ending} (h : (closedPhase b id e).ofCommand = true) :
    b.isSpawn id = true := by
  rw [closedPhase] at h
  split at h
  · next hs => exact hs
  · cases h

theorem closed_slotted {id : ℕ} {e : Ending} (h : b.isSpawn id = true) :
    (closedPhase b id e).slotted = true := by
  rw [closedPhase, if_pos h]
  rfl

/-- Who has a slot, and who waits for one. -/
structure InvSlots (b : Build) (s : State) : Prop where
  nodup : s.slots.ids.Nodup
  queued : ∀ i, i ∈ s.slots.ids ↔ s.phase i = .queued
  spawn : ∀ i, (s.phase i).ofCommand = true → b.isSpawn i = true
  holders : ∃ holders : List ℕ, holders.Nodup ∧
    (∀ i, i ∈ holders ↔ b.isSpawn i = true ∧ (s.phase i).slotted = true) ∧
    s.slots.free + holders.length = max b.jobs 1

def isQueued (p : Phase) : Bool := decide (p = .queued)

theorem InvSlots.of_same (h : InvSlots b s) (hslots : s'.slots = s.slots)
    (hqueued : ∀ i, isQueued (s'.phase i) = isQueued (s.phase i))
    (hcommand : ∀ i, (s'.phase i).ofCommand = true → (s.phase i).ofCommand = true ∨ b.isSpawn i = true)
    (hslotted : ∀ i, b.isSpawn i = true → (s'.phase i).slotted = (s.phase i).slotted) :
    InvSlots b s' := by
  refine ⟨hslots ▸ h.nodup,fun i => ?_,fun i hi => (hcommand i hi).elim (h.spawn i) id,?_⟩
  · have hi := hqueued i
    rw [isQueued, isQueued, decide_eq_decide] at hi
    rw [hslots, h.queued i, hi]
  · obtain ⟨holders,hnodup,hmem,hlen⟩ := h.holders
    refine ⟨holders,hnodup,fun i => ?_,hslots ▸ hlen⟩
    rw [hmem i]
    constructor
    · intro hi
      exact ⟨hi.1,(hslotted i hi.1).trans hi.2⟩
    · intro hi
      exact ⟨hi.1,(hslotted i hi.1).symm.trans hi.2⟩

/-- One task in another phase, and the slots as they were. -/
theorem InvSlots.of_goto (h : InvSlots b s) {id : ℕ} {p : Phase} (hslots : s'.slots = s.slots)
    (hphase : s'.phase = (s.goto id p).phase) (hqueued : isQueued p = isQueued (s.phase id))
    (hcommand : p.ofCommand = true → (s.phase id).ofCommand = true ∨ b.isSpawn id = true)
    (hslotted : b.isSpawn id = true → p.slotted = (s.phase id).slotted) : InvSlots b s' := by
  refine h.of_same hslots ?_ ?_ ?_
  · intro i
    rw [hphase]
    exact goto_same isQueued hqueued i
  · intro i hi
    rw [hphase] at hi
    by_cases heq : i = id
    · subst heq
      rw [goto_self] at hi
      exact hcommand hi
    · rw [goto_of_ne heq] at hi
      exact .inl hi
  · intro i hi
    rw [hphase]
    by_cases heq : i = id
    · subst heq
      rw [goto_self]
      exact hslotted hi
    · rw [goto_of_ne heq]

theorem silent_queued {id : ℕ} {p q : Phase} (h : Silent b s id p q) : isQueued q = isQueued p := by
  cases h <;> rfl

theorem silent_command {id : ℕ} {p q : Phase} (h : Silent b s id p q) (hq : q.ofCommand = true) :
    p.ofCommand = true ∨ b.isSpawn id = true := by
  cases h with
  | acquiring h => exact .inr h
  | prepared h => exact .inr h
  | recorded h => exact .inr h
  | _ => first | exact .inl rfl | cases hq

theorem silent_slotted {id : ℕ} {p q : Phase} (h : Silent b s id p q) (hs : b.isSpawn id = true) :
    q.slotted = p.slotted := by
  cases h with
  | alone h => rw [h] at hs; cases hs
  | recordedAlone h => rw [h] at hs; cases hs
  | _ => rfl

/-- The slot of one task that gives it up, to another that takes it. -/
theorem holders_hand {holders : List ℕ} {id w : ℕ} (hnodup : holders.Nodup) (hid : id ∈ holders)
    (hw : w ∉ holders) : (w::holders.erase id).Nodup ∧ (w::holders.erase id).length = holders.length := by
  constructor
  · exact List.nodup_cons.mpr ⟨fun h => hw (List.mem_of_mem_erase h),hnodup.erase id⟩
  · rw [List.length_cons, List.length_erase_of_mem hid]
    have := List.length_pos_of_mem hid
    omega

theorem invSlots_step (h : InvSlots b s) (hstep : Stepped b s s') : InvSlots b s' := by
  cases hstep with
  | root id roots hroots =>
    refine h.of_same (call_rest id).1 ?_ ?_ ?_
    · exact call_same isQueued rfl
    · exact fun i hi => .inl ((call_same Phase.ofCommand rfl i).symm.trans hi)
    · exact fun i _ => call_same Phase.slotted rfl i
  | call id other others hp =>
    refine h.of_same (call_rest other).1 ?_ ?_ ?_
    · exact call_goto_same isQueued (fun _ => rfl) hp
    · exact fun i hi => .inl ((call_goto_same Phase.ofCommand (fun _ => rfl) hp i).symm.trans hi)
    · exact fun i _ => call_goto_same Phase.slotted (fun _ => rfl) hp i
  | silent id p ran cached hmove =>
    exact h.of_goto rfl rfl (silent_queued hmove) (silent_command hmove) (silent_slotted hmove)
  | acquire id hp hfree hwaiting =>
    have hspawn := h.spawn id (by rw [hp]; rfl)
    refine ⟨h.nodup,fun i => ?_,fun i hi => ?_,?_⟩
    · show i ∈ s.slots.ids ↔ (s.goto id .holding).phase i = .queued
      rw [h.queued i]
      have hi := goto_same isQueued (p := .holding) (by rw [hp]; rfl) i
      rw [isQueued, isQueued, decide_eq_decide] at hi
      exact hi.symm
    · by_cases heq : i = id
      · exact heq ▸ hspawn
      · exact h.spawn i ((congrArg Phase.ofCommand (goto_of_ne heq _)).symm.trans hi)
    · obtain ⟨holders,hnodup,hmem,hlen⟩ := h.holders
      have hnot : id ∉ holders := by
        rw [hmem id, hp]
        exact fun hand => absurd hand.2 (by decide)
      refine ⟨id::holders,List.nodup_cons.mpr ⟨hnot,hnodup⟩,fun i => ?_,?_⟩
      · rw [List.mem_cons]
        show _ ↔ _ ∧ ((s.goto id .holding).phase i).slotted = true
        by_cases heq : i = id
        · subst heq
          rw [goto_self]
          exact ⟨fun _ => ⟨hspawn,rfl⟩,fun _ => .inl rfl⟩
        · rw [goto_of_ne heq, hmem i]
          exact or_iff_right heq
      · show s.slots.free-1 + (holders.length+1) = _
        omega
  | queue id hp =>
    have hspawn := h.spawn id (by rw [hp]; rfl)
    have hnot : id ∉ s.slots.ids := by
      rw [h.queued id, hp]
      exact nofun
    refine ⟨List.nodup_cons.mpr ⟨hnot,h.nodup⟩,fun i => ?_,fun i hi => ?_,?_⟩
    · show i ∈ id::s.slots.ids ↔ (s.goto id .queued).phase i = .queued
      rw [List.mem_cons]
      by_cases heq : i = id
      · subst heq
        rw [goto_self]
        exact ⟨fun _ => rfl,fun _ => .inl rfl⟩
      · rw [goto_of_ne heq, h.queued i]
        exact or_iff_right heq
    · by_cases heq : i = id
      · exact heq ▸ hspawn
      · exact h.spawn i ((congrArg Phase.ofCommand (goto_of_ne heq _)).symm.trans hi)
    · obtain ⟨holders,hnodup,hmem,hlen⟩ := h.holders
      refine ⟨holders,hnodup,fun i => ?_,hlen⟩
      rw [hmem i]
      show _ ↔ _ ∧ ((s.goto id .queued).phase i).slotted = true
      rw [goto_same Phase.slotted (by rw [hp]; rfl)]
  | execute id hp =>
    refine h.of_goto rfl rfl ?_ ?_ ?_
    · rw [hp]; rfl
    · exact nofun
    · exact fun _ => by rw [hp]; rfl
  | command id hp =>
    refine h.of_goto rfl rfl ?_ ?_ ?_
    · rw [hp]; rfl
    · exact fun _ => .inl (by rw [hp]; rfl)
    · exact fun _ => by rw [hp]; rfl
  | testFailed id hp htest =>
    refine h.of_goto rfl rfl ?_ ?_ ?_
    · rw [hp]; rfl
    · exact nofun
    · exact fun _ => by rw [hp]; rfl
  | firstFailed id hp htest hdue =>
    refine h.of_goto rfl rfl ?_ ?_ ?_
    · rw [hp]; rfl
    · exact nofun
    · exact fun _ => by rw [hp]; rfl
  | laterFailed id hp htest hstopped hkeep =>
    have hphase : (s.close b id .failed).phase = (s.goto id (closedPhase b id .failed)).phase := rfl
    refine h.of_goto rfl hphase ?_ ?_ ?_
    · rw [hp, closed_eq isQueued rfl]; rfl
    · exact fun hc => .inr (closed_command hc)
    · exact fun hs => by rw [hp, closed_slotted hs]; rfl
  | report id hp =>
    have hphase : (s.close b id .failed).phase = (s.goto id (closedPhase b id .failed)).phase := rfl
    refine h.of_goto rfl hphase ?_ ?_ ?_
    · rw [hp, closed_eq isQueued rfl]; rfl
    · exact fun hc => .inr (closed_command hc)
    · exact fun hs => by rw [hp, closed_slotted hs]; rfl
  | hand id e w hp hw =>
    have hmemw := Slots.greatest_mem hw
    have hid := List.mem_map_of_mem (f := Waiter.id) hmemw
    have hqueued := (h.queued w.id).mp hid
    have hne : w.id ≠ id := fun heq => by rw [heq, hp] at hqueued; cases hqueued
    have hspawn := h.spawn id (by rw [hp]; rfl)
    have hspawnw := h.spawn w.id (by rw [hqueued]; rfl)
    have hself : ((s.goto id (.returning e)).goto w.id .holding).phase id = .returning e := by
      rw [goto_of_ne hne.symm, goto_self]
    have hother : ∀ i, i ≠ id → i ≠ w.id →
        ((s.goto id (.returning e)).goto w.id .holding).phase i = s.phase i := fun i hi hw => by
      rw [goto_of_ne hw, goto_of_ne hi]
    have hids : (s.slots.waiting.erase w).map Waiter.id = s.slots.ids.erase w.id :=
      Slots.erase_ids h.nodup hmemw
    refine ⟨?_,fun i => ?_,fun i hi => ?_,?_⟩
    · show ((s.slots.waiting.erase w).map Waiter.id).Nodup
      rw [hids]
      exact h.nodup.erase _
    · show i ∈ (s.slots.waiting.erase w).map Waiter.id ↔
        ((s.goto id (.returning e)).goto w.id .holding).phase i = .queued
      rw [hids, h.nodup.mem_erase_iff, h.queued i]
      by_cases hiw : i = w.id
      · subst hiw
        rw [goto_self]
        exact ⟨fun hand => absurd rfl hand.1,nofun⟩
      · by_cases hi : i = id
        · subst hi
          rw [hself, hp]
          exact ⟨fun hand => (nomatch hand.2),nofun⟩
        · rw [hother i hi hiw]
          exact and_iff_right hiw
    · by_cases hiw : i = w.id
      · exact hiw ▸ hspawnw
      · by_cases hi' : i = id
        · exact hi' ▸ hspawn
        · exact h.spawn i ((congrArg Phase.ofCommand (hother i hi' hiw)).symm.trans hi)
    · obtain ⟨holders,hnodup,hmem,hlen⟩ := h.holders
      have hheld : id ∈ holders := (hmem id).mpr ⟨hspawn,by rw [hp]; rfl⟩
      have hnot : w.id ∉ holders := by
        rw [hmem w.id, hqueued]
        exact fun hand => absurd hand.2 (by decide)
      obtain ⟨hnodup',hlen'⟩ := holders_hand hnodup hheld hnot
      refine ⟨w.id::holders.erase id,hnodup',fun i => ?_,by rw [hlen']; exact hlen⟩
      rw [List.mem_cons, hnodup.mem_erase_iff, hmem i]
      show _ ↔ _ ∧ (((s.goto id (.returning e)).goto w.id .holding).phase i).slotted = true
      by_cases hiw : i = w.id
      · subst hiw
        rw [goto_self]
        exact ⟨fun _ => ⟨hspawnw,rfl⟩,fun _ => .inl rfl⟩
      · by_cases hi : i = id
        · subst hi
          rw [hself]
          exact ⟨fun hor => hor.elim (fun heq => absurd heq hiw) fun hand => absurd rfl hand.1,
            fun hand => absurd hand.2 Bool.false_ne_true⟩
        · rw [hother i hi hiw, or_iff_right hiw]
          exact and_iff_right hi
  | free id e hp hw =>
    have hspawn := h.spawn id (by rw [hp]; rfl)
    refine ⟨h.nodup,fun i => ?_,fun i hi => ?_,?_⟩
    · show i ∈ s.slots.ids ↔ (s.goto id (.returning e)).phase i = .queued
      rw [h.queued i]
      have hi := goto_same isQueued (p := .returning e) (by rw [hp]; rfl) i
      rw [isQueued, isQueued, decide_eq_decide] at hi
      exact hi.symm
    · by_cases heq : i = id
      · exact heq ▸ hspawn
      · exact h.spawn i ((congrArg Phase.ofCommand (goto_of_ne heq _)).symm.trans hi)
    · obtain ⟨holders,hnodup,hmem,hlen⟩ := h.holders
      have hheld : id ∈ holders := (hmem id).mpr ⟨hspawn,by rw [hp]; rfl⟩
      refine ⟨holders.erase id,hnodup.erase id,fun i => ?_,?_⟩
      · rw [hnodup.mem_erase_iff, hmem i]
        show _ ↔ _ ∧ ((s.goto id (.returning e)).phase i).slotted = true
        by_cases heq : i = id
        · subst heq
          rw [goto_self]
          exact ⟨fun hand => absurd rfl hand.1,fun hand => absurd hand.2 Bool.false_ne_true⟩
        · rw [goto_of_ne heq]
          exact and_iff_right heq
      · have hpos := List.length_pos_of_mem hheld
        rw [List.length_erase_of_mem hheld]
        show s.slots.free+1+(holders.length-1) = _
        omega

end Slots

section Phases

open State

/-- The phases a task goes through. -/
inductive Moved (b : Build) (s : State) (i : ℕ) : Phase → Phase → Prop where
  | silent {p q : Phase} (h : Silent b s i p q) : Moved b s i p q
  | call : Moved b s i .idle (.calling (b.wait i))
  | next (other : ℕ) (others : List ℕ) : Moved b s i (.calling (other::others)) (.calling others)
  | acquire : Moved b s i .acquiring .holding
  | queue : Moved b s i .acquiring .queued
  | woken : Moved b s i .queued .holding
  | execute : Moved b s i .starting .preparing
  | command : Moved b s i .spawning .running
  | fail : Moved b s i .failing .reporting
  | drop : Moved b s i .failing (closedPhase b i .failed)
  | report : Moved b s i .reporting (closedPhase b i .failed)
  | release (e : Ending) : Moved b s i (.leaving e) (.returning e)

theorem moved_goto {id i : ℕ} {p q : Phase} (hp : s.phase id = p) (h : Moved b s id p q) :
    (s.goto id q).phase i = s.phase i ∨ Moved b s i (s.phase i) ((s.goto id q).phase i) := by
  by_cases hi : i = id
  · subst hi
    rw [goto_self, hp]
    exact .inr h
  · exact .inl (goto_of_ne hi q)

theorem moved_call {id i : ℕ} :
    (s.call b id).phase i = s.phase i ∨ Moved b s i (s.phase i) ((s.call b id).phase i) := by
  rcases call_phase (b := b) (s := s) id i with h | ⟨rfl,hidle,hphase⟩
  · exact .inl h
  · rw [hidle, hphase]
    exact .inr .call

theorem moved_of_stepped (hinv : InvSlots b s) (h : Stepped b s s') (i : ℕ) :
    s'.phase i = s.phase i ∨ Moved b s i (s.phase i) (s'.phase i) := by
  cases h with
  | root id roots hroots => exact moved_call
  | call id other others hp =>
    by_cases hi : i = id
    · subst hi
      rw [goto_self, hp]
      exact .inr (.next other others)
    · rw [goto_of_ne hi]
      exact moved_call
  | silent id p ran cached hmove => exact moved_goto rfl (.silent hmove)
  | acquire id hp hfree hwaiting => exact moved_goto hp .acquire
  | queue id hp => exact moved_goto hp .queue
  | execute id hp => exact moved_goto hp .execute
  | command id hp => exact moved_goto hp .command
  | testFailed id hp htest => exact moved_goto hp .fail
  | firstFailed id hp htest hdue => exact moved_goto hp .fail
  | laterFailed id hp htest hstopped hkeep => exact moved_goto hp .drop
  | report id hp => exact moved_goto hp .report
  | hand id e w hp hw =>
    have hqueued := (hinv.queued w.id).mp (List.mem_map_of_mem (Slots.greatest_mem hw))
    show ((s.goto id (.returning e)).goto w.id .holding).phase i = _ ∨
      Moved b s i _ (((s.goto id (.returning e)).goto w.id .holding).phase i)
    by_cases hi : i = w.id
    · subst hi
      rw [goto_self, hqueued]
      exact .inr .woken
    · rw [goto_of_ne hi]
      exact moved_goto hp (.release e)
  | free id e hp hw => exact moved_goto hp (.release e)

/-- A task that has ended stays so. -/
theorem done_kept (hinv : InvSlots b s) (h : Stepped b s s') {i : ℕ} {e : Ending}
    (hi : s.phase i = .done e) : s'.phase i = .done e := by
  rcases moved_of_stepped hinv h i with heq | hmoved
  · rw [heq, hi]
  · rw [hi] at hmoved
    cases hmoved with
    | silent hmove => cases hmove

theorem not_idle_kept (hinv : InvSlots b s) (h : Stepped b s s') {i : ℕ}
    (hi : s.phase i ≠ .idle) : s'.phase i ≠ .idle := by
  rcases moved_of_stepped hinv h i with heq | hmoved
  · rw [heq]
    exact hi
  · intro hidle
    rw [hidle] at hmoved
    generalize s.phase i = p at hmoved
    generalize hq : Phase.idle = q at hmoved
    cases hmoved with
    | silent hmove =>
      subst hq
      cases hmove
    | drop =>
      rw [closedPhase] at hq
      split at hq
      · cases hq
      · cases hq
    | report =>
      rw [closedPhase] at hq
      split at hq
      · cases hq
      · cases hq
    | _ => cases hq

/-- What a task knows of the makers of its inputs. -/
structure InvInputs (b : Build) (s : State) : Prop where
  made : ∀ i, (s.phase i).pastInputs = true → ∀ other ∈ b.wait i,
    ∃ e, s.phase other = .done e ∧ e.ok = true
  ended : ∀ i, (s.phase i).awaited = true → ∀ other ∈ b.wait i, ∃ e, s.phase other = .done e

theorem moved_pastInputs {i : ℕ} {p q : Phase} (h : Moved b s i p q) (hq : q.pastInputs = true) :
    p.pastInputs = true ∨ ∀ other ∈ b.wait i, ∃ e, s.phase other = .done e ∧ e.ok = true := by
  cases h with
  | silent hmove =>
    cases hmove with
    | ready h => exact .inr h
    | returned e => exact .inl hq
    | _ => first | exact .inl rfl | cases hq
  | release e => exact .inl hq
  | _ => first | exact .inl rfl | cases hq

theorem moved_awaited {i : ℕ} {p q : Phase} (h : Moved b s i p q) (hq : q.awaited = true) :
    p.awaited = true ∨ ∀ other ∈ b.wait i, ∃ e, s.phase other = .done e := by
  cases h with
  | silent hmove =>
    cases hmove with
    | ready h =>
      apply Or.inr
      intro other hother
      obtain ⟨e,he,-⟩ := h other hother
      exact ⟨e,he⟩
    | inputFailed h => exact .inr h
    | _ => first | exact .inl rfl | cases hq
  | _ => first | exact .inl rfl | cases hq

theorem invInputs_step (hinv : InvSlots b s) (h : InvInputs b s) (hstep : Stepped b s s') :
    InvInputs b s' := by
  constructor
  · intro i hi other hother
    have hmade : ∃ e, s.phase other = .done e ∧ e.ok = true := by
      rcases moved_of_stepped hinv hstep i with heq | hmoved
      · exact h.made i (heq ▸ hi) other hother
      · exact (moved_pastInputs hmoved hi).elim (h.made i · other hother) (· other hother)
    obtain ⟨e,he,hok⟩ := hmade
    exact ⟨e,done_kept hinv hstep he,hok⟩
  · intro i hi other hother
    have hended : ∃ e, s.phase other = .done e := by
      rcases moved_of_stepped hinv hstep i with heq | hmoved
      · exact h.ended i (heq ▸ hi) other hother
      · exact (moved_awaited hmoved hi).elim (h.ended i · other hother) (· other hother)
    obtain ⟨e,he⟩ := hended
    exact ⟨e,done_kept hinv hstep he⟩

/-- Asked for by the build, or by an action that is. -/
inductive Needed (b : Build) : ℕ → Prop where
  | wanted {id : ℕ} (h : id ∈ b.wanted) : Needed b id
  | input {id other : ℕ} (h : Needed b id) (hother : other ∈ b.wait id) : Needed b other

/-- Called by `execute`, or by a task that was called. -/
inductive Called (b : Build) (s : State) : ℕ → Prop where
  | wanted {id : ℕ} (h : id ∈ b.wanted) : Called b s id
  | input {id other : ℕ} (h : Called b s id) (hid : s.phase id ≠ .idle) (hother : other ∈ b.wait id) :
    Called b s other

theorem Called.needed {id : ℕ} (h : Called b s id) : Needed b id := by
  induction h with
  | wanted h => exact .wanted h
  | input _ _ hother ih => exact .input ih hother

theorem Called.mono (hphase : ∀ i, s.phase i ≠ .idle → s'.phase i ≠ .idle) {id : ℕ}
    (h : Called b s id) : Called b s' id := by
  induction h with
  | wanted h => exact .wanted h
  | input _ hid hother ih => exact .input ih (hphase _ hid) hother

/-- Which tasks there are. -/
structure InvCalled (b : Build) (s : State) : Prop where
  roots : ∀ id ∈ s.roots, id ∈ b.wanted
  others : ∀ id others, s.phase id = .calling others → ∀ other ∈ others, other ∈ b.wait id
  called : ∀ id, s.phase id ≠ .idle → Called b s id

theorem moved_others {i : ℕ} {p : Phase} {others : List ℕ} (h : Moved b s i p (.calling others)) :
    others = b.wait i ∨ ∃ other, p = .calling (other::others) := by
  generalize hq : Phase.calling others = q at h
  cases h with
  | silent hmove =>
    subst hq
    cases hmove
  | call =>
    cases hq
    exact .inl rfl
  | next other others =>
    cases hq
    exact .inr ⟨other,rfl⟩
  | drop =>
    rw [closedPhase] at hq
    split at hq
    · cases hq
    · cases hq
  | report =>
    rw [closedPhase] at hq
    split at hq
    · cases hq
    · cases hq
  | _ => cases hq

/-- A task that is new was called for. -/
theorem new_called (h : InvCalled b s) (hinv : InvSlots b s) (hstep : Stepped b s s') {i : ℕ}
    (hi : s.phase i = .idle) (hi' : s'.phase i ≠ .idle) : Called b s i := by
  have hsame : ∀ (id : ℕ) (p : Phase), s.phase id ≠ .idle → (s.goto id p).phase i = .idle := by
    intro id p hid
    rw [goto_kept (by rw [hi]; exact hid.symm), hi]
  cases hstep with
  | root id roots hroots =>
    rcases call_phase (b := b) (s := s) id i with hcall | ⟨rfl,-,-⟩
    · exact absurd (hcall.trans hi) hi'
    · exact .wanted (h.roots i (by rw [hroots]; exact List.mem_cons_self))
  | call id other others hp =>
    have hid : s.phase id ≠ .idle := by rw [hp]; exact nofun
    have hother := h.others id _ hp other List.mem_cons_self
    have hne : i ≠ id := fun heq => hid (heq ▸ hi)
    rw [goto_of_ne hne] at hi'
    rcases call_phase (b := b) (s := s) other i with hcall | ⟨rfl,-,-⟩
    · exact absurd (hcall.trans hi) hi'
    · exact .input (h.called id hid) hid hother
  | silent id p ran cached hmove =>
    refine absurd (hsame id p ?_) hi'
    intro hidle
    rw [hidle] at hmove
    cases hmove
  | hand id e w hp hw =>
    have hqueued := (hinv.queued w.id).mp (List.mem_map_of_mem (Slots.greatest_mem hw))
    have hne : i ≠ w.id := fun heq => by rw [heq, hqueued] at hi; cases hi
    have hkept : ((s.goto id (.returning e)).goto w.id .holding).phase i = .idle := by
      rw [goto_of_ne hne]
      exact hsame id _ (by rw [hp]; exact nofun)
    exact absurd hkept hi'
  | laterFailed id hp htest hstopped hkeep => exact absurd (hsame id _ (by rw [hp]; exact nofun)) hi'
  | report id hp => exact absurd (hsame id _ (by rw [hp]; exact nofun)) hi'
  | acquire id hp => exact absurd (hsame id _ (by rw [hp]; exact nofun)) hi'
  | queue id hp => exact absurd (hsame id _ (by rw [hp]; exact nofun)) hi'
  | execute id hp => exact absurd (hsame id _ (by rw [hp]; exact nofun)) hi'
  | command id hp => exact absurd (hsame id _ (by rw [hp]; exact nofun)) hi'
  | testFailed id hp => exact absurd (hsame id _ (by rw [hp]; exact nofun)) hi'
  | firstFailed id hp => exact absurd (hsame id _ (by rw [hp]; exact nofun)) hi'
  | free id e hp => exact absurd (hsame id _ (by rw [hp]; exact nofun)) hi'

theorem roots_kept (hstep : Stepped b s s') : ∀ id ∈ s'.roots, id ∈ s.roots := by
  cases hstep with
  | root id roots hroots =>
    intro i hi
    rw [hroots]
    exact List.mem_cons_of_mem _ hi
  | call id other others hp =>
    intro i hi
    exact (call_rest (b := b) (s := s) other).2.2.2.2.2.2 ▸ hi
  | _ => exact fun i hi => hi

theorem invCalled_step (hinv : InvSlots b s) (h : InvCalled b s) (hstep : Stepped b s s') :
    InvCalled b s' := by
  refine ⟨fun id hid => h.roots id (roots_kept hstep id hid),fun id others hid other hother => ?_,
    fun id hid => ?_⟩
  · rcases moved_of_stepped hinv hstep id with heq | hmoved
    · exact h.others id others (heq ▸ hid) other hother
    · rw [hid] at hmoved
      rcases moved_others hmoved with rfl | ⟨first,hp⟩
      · exact hother
      · exact h.others id _ hp other (List.mem_cons_of_mem _ hother)
  · apply Called.mono fun i => not_idle_kept hinv hstep
    by_cases hidle : s.phase id = .idle
    · exact new_called h hinv hstep hidle hid
    · exact h.called id hidle

end Phases

end BuildFiji.Exec
