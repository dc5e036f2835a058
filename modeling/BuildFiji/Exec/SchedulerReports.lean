import BuildFiji.Exec.SchedulerRuns

/-!
# What a build executes and what it reports

The logs of a run against the phases of its tasks: each action is executed once,
after its inputs are made, and each failure is reported that counts. After the
first failure of an action that is no test no other looks past the flag.
-/

set_option autoImplicit false
set_option linter.all false

namespace BuildFiji.Exec
open Graph Relation State

variable {b : Build} {s s' : State}

/-- A list of all that has the property, each once. -/
def LogOf (log : List ℕ) (P : ℕ → Prop) : Prop := log.Nodup ∧ ∀ i, i ∈ log ↔ P i

theorem LogOf.congr {log : List ℕ} {P Q : ℕ → Prop} (h : LogOf log P) (hPQ : ∀ i, Q i ↔ P i) :
    LogOf log Q :=
  ⟨h.1,fun i => (h.2 i).trans (hPQ i).symm⟩

theorem LogOf.append {log : List ℕ} {P Q : ℕ → Prop} (h : LogOf log P) {id : ℕ} (hid : ¬P id)
    (hQ : ∀ i, Q i ↔ P i ∨ i = id) : LogOf (log ++ [id]) Q := by
  have hnot : id ∉ log := fun hmem => hid ((h.2 id).mp hmem)
  constructor
  · refine List.nodup_append.mpr ⟨h.1,List.nodup_singleton id,fun x hx y hy heq => ?_⟩
    rw [List.mem_singleton] at hy
    exact hnot (hy ▸ heq ▸ hx)
  · intro i
    rw [List.mem_append, List.mem_singleton, h.2 i]
    exact (hQ i).symm

/-- A flag of the phases that only one task gets. -/
theorem goto_new {f : Phase → Bool} {id : ℕ} {p : Phase} (hp : f p = true) (i : ℕ) :
    f ((s.goto id p).phase i) = true ↔ f (s.phase i) = true ∨ i = id := by
  by_cases hi : i = id
  · subst hi
    rw [goto_self]
    exact ⟨fun _ => .inr rfl,fun _ => hp⟩
  · rw [goto_of_ne hi]
    exact (or_iff_left hi).symm

section Executions

def InvExecuted (s : State) : Prop := LogOf s.executed fun i => (s.phase i).executed = true

theorem silent_executed {id : ℕ} {p q : Phase} (h : Silent b s id p q) : q.executed = p.executed := by
  cases h <;> rfl

theorem hand_same {β : Type} (f : Phase → β) {id : ℕ} {e : Ending} {w : Waiter} (hinv : InvSlots b s)
    (hp : s.phase id = .leaving e) (hw : Slots.greatest s.slots.waiting = some w)
    (he : f (.returning e) = f (.leaving e)) (hq : f .holding = f .queued) (i : ℕ) :
    f (((s.goto id (.returning e)).goto w.id .holding).phase i) = f (s.phase i) := by
  have hqueued := (hinv.queued w.id).mp (List.mem_map_of_mem (Slots.greatest_mem hw))
  have hkept : (s.goto id (.returning e)).phase w.id = .queued := by
    rw [goto_kept (by rw [hqueued, hp]; exact nofun), hqueued]
  rw [goto_same f (by rw [hkept, hq]), goto_same f (by rw [hp, he])]

theorem invExecuted_step (hinv : InvSlots b s) (h : InvExecuted s) (hstep : Stepped b s s') :
    InvExecuted s' := by
  have hkept : s'.executed = s.executed → (∀ i, (s'.phase i).executed = (s.phase i).executed) →
      InvExecuted s' := fun hlog hphase => by
    rw [InvExecuted, hlog]
    exact h.congr fun i => by rw [hphase i]
  cases hstep with
  | root id roots hroots => exact hkept (call_rest id).2.2.2.1 (call_same Phase.executed rfl)
  | call id other others hp =>
    exact hkept (call_rest other).2.2.2.1 (call_goto_same Phase.executed (fun _ => rfl) hp)
  | silent id p ran cached hmove => exact hkept rfl (goto_same Phase.executed (silent_executed hmove))
  | acquire id hp hfree hwaiting => exact hkept rfl (goto_same Phase.executed (by rw [hp]; rfl))
  | queue id hp => exact hkept rfl (goto_same Phase.executed (by rw [hp]; rfl))
  | execute id hp =>
    exact h.append (by rw [hp]; exact Bool.false_ne_true) (goto_new rfl)
  | command id hp => exact hkept rfl (goto_same Phase.executed (by rw [hp]; rfl))
  | testFailed id hp htest => exact hkept rfl (goto_same Phase.executed (by rw [hp]; rfl))
  | firstFailed id hp htest hdue => exact hkept rfl (goto_same Phase.executed (by rw [hp]; rfl))
  | laterFailed id hp htest hstopped hkeep =>
    exact hkept rfl (goto_same Phase.executed ((closed_eq Phase.executed rfl).trans (by rw [hp]; rfl)))
  | report id hp =>
    exact hkept rfl (goto_same Phase.executed ((closed_eq Phase.executed rfl).trans (by rw [hp]; rfl)))
  | hand id e w hp hw => exact hkept rfl (hand_same Phase.executed hinv hp hw rfl rfl)
  | free id e hp hw => exact hkept rfl (goto_same Phase.executed (by rw [hp]; rfl))

end Executions

section Failures

/-- The failures that swap the flag, in their order. -/
structure InvSwaps (b : Build) (s : State) : Prop where
  log : LogOf s.swaps fun i => b.isTest i = false ∧ (s.phase i).swapped = true
  stopped : s.stopped = true ↔ s.swaps ≠ []

theorem silent_swapped {id : ℕ} {p q : Phase} (h : Silent b s id p q) : q.swapped = p.swapped := by
  cases h <;> rfl

theorem invSwaps_step (hinv : InvSlots b s) (h : InvSwaps b s) (hstep : Stepped b s s') :
    InvSwaps b s' := by
  have hkept : s'.swaps = s.swaps → s'.stopped = s.stopped →
      (∀ i, b.isTest i = false → (s'.phase i).swapped = (s.phase i).swapped) → InvSwaps b s' :=
    fun hlog hstopped hphase => by
      constructor
      · rw [hlog]
        exact h.log.congr fun i => and_congr_right fun hi => by rw [hphase i hi]
      · rw [hlog, hstopped]
        exact h.stopped
  have hswap : ∀ (id : ℕ) (p : Phase), s.phase id = .failing → b.isTest id = false →
      p.swapped = true → s'.swaps = s.swaps ++ [id] → s'.stopped = true →
      s'.phase = (s.goto id p).phase → InvSwaps b s' := fun id p hp htest hswapped hlog hstop hphase => by
    constructor
    · rw [hlog, hphase]
      refine h.log.append (by rw [hp]; exact fun hand => absurd hand.2 Bool.false_ne_true) fun i => ?_
      rw [goto_new hswapped, and_or_left]
      exact or_congr Iff.rfl (and_iff_right_of_imp fun hi => hi ▸ htest)
    · rw [hlog, hstop]
      exact ⟨fun _ => List.append_ne_nil_of_right_ne_nil _ (List.cons_ne_nil _ _),fun _ => rfl⟩
  cases hstep with
  | root id roots hroots =>
    have hrest := call_rest (b := b) (s := s) id
    exact hkept hrest.2.2.2.2.2.1 hrest.2.1 fun i _ => call_same Phase.swapped rfl i
  | call id other others hp =>
    have hrest := call_rest (b := b) (s := s) other
    exact hkept hrest.2.2.2.2.2.1 hrest.2.1 fun i _ =>
      call_goto_same Phase.swapped (fun _ => rfl) hp i
  | silent id p ran cached hmove =>
    exact hkept rfl rfl fun i _ => goto_same Phase.swapped (silent_swapped hmove) i
  | acquire id hp hfree hwaiting =>
    exact hkept rfl rfl fun i _ => goto_same Phase.swapped (by rw [hp]; rfl) i
  | queue id hp => exact hkept rfl rfl fun i _ => goto_same Phase.swapped (by rw [hp]; rfl) i
  | execute id hp => exact hkept rfl rfl fun i _ => goto_same Phase.swapped (by rw [hp]; rfl) i
  | command id hp => exact hkept rfl rfl fun i _ => goto_same Phase.swapped (by rw [hp]; rfl) i
  | testFailed id hp htest =>
    refine hkept rfl rfl fun i hi => ?_
    have hne : i ≠ id := fun heq => by rw [heq, htest] at hi; cases hi
    rw [goto_of_ne hne]
  | firstFailed id hp htest hdue => exact hswap id .reporting hp htest rfl rfl rfl rfl
  | laterFailed id hp htest hstopped hkeep =>
    exact hswap id _ hp htest (closed_eq Phase.swapped rfl) rfl rfl rfl
  | report id hp =>
    exact hkept rfl rfl fun i _ =>
      goto_same Phase.swapped ((closed_eq Phase.swapped rfl).trans (by rw [hp]; rfl)) i
  | hand id e w hp hw =>
    exact hkept rfl rfl fun i _ => hand_same Phase.swapped hinv hp hw rfl rfl i
  | free id e hp hw => exact hkept rfl rfl fun i _ => goto_same Phase.swapped (by rw [hp]; rfl) i

/-- The failures that are reported. -/
def Due (b : Build) (s : State) (i : ℕ) : Prop :=
  b.keepGoing = true ∨ b.isTest i = true ∨ s.swaps.head? = some i

structure InvFailures (b : Build) (s : State) : Prop where
  log : LogOf s.failures fun i => (s.phase i).failed = true ∧ Due b s i
  due : ∀ i, s.phase i = .reporting → Due b s i

theorem silent_failed {id : ℕ} {p q : Phase} (h : Silent b s id p q) : q.failed = p.failed := by
  cases h <;> rfl

def isReporting (p : Phase) : Bool := decide (p = .reporting)

theorem silent_reporting {id : ℕ} {p q : Phase} (h : Silent b s id p q) :
    isReporting q = isReporting p := by
  cases h <;> rfl

theorem isReporting_iff {p : Phase} : isReporting p = true ↔ p = .reporting := decide_eq_true_iff

theorem due_append {id : ℕ} (h : s'.swaps = s.swaps ++ [id]) (i : ℕ) :
    Due b s' i ↔ Due b s i ∨ s.swaps = [] ∧ i = id := by
  have hhead : s'.swaps.head? = some i ↔ s.swaps.head? = some i ∨ s.swaps = [] ∧ i = id := by
    rw [h]
    cases hs : s.swaps with
    | nil => simp [eq_comm]
    | cons x xs => simp
  rw [Due, Due, hhead, or_assoc, or_assoc]

theorem close_not_reporting (id : ℕ) (e : Ending) : (s.close b id e).phase id ≠ .reporting := by
  intro hphase
  have hself : (s.close b id e).phase id = closedPhase b id e := goto_self _ _
  rw [hself, closedPhase] at hphase
  split at hphase
  · cases hphase
  · cases hphase

theorem invFailures_step (hinv : InvSlots b s) (hswaps : InvSwaps b s) (h : InvFailures b s)
    (hstep : Stepped b s s') : InvFailures b s' := by
  have hkept : s'.failures = s.failures → s'.swaps = s.swaps →
      (∀ i, (s'.phase i).failed = (s.phase i).failed) →
      (∀ i, isReporting (s'.phase i) = isReporting (s.phase i)) → InvFailures b s' :=
    fun hlog hswapped hphase hreport => by
      have hdue : ∀ i, Due b s' i ↔ Due b s i := fun i => by rw [Due, Due, hswapped]
      constructor
      · rw [hlog]
        exact h.log.congr fun i => by rw [hphase i, hdue i]
      · intro i hi
        rw [← isReporting_iff, hreport i, isReporting_iff] at hi
        exact (hdue i).mpr (h.due i hi)
  cases hstep with
  | root id roots hroots =>
    have hrest := call_rest (b := b) (s := s) id
    exact hkept hrest.2.2.1 hrest.2.2.2.2.2.1 (call_same Phase.failed rfl) (call_same isReporting rfl)
  | call id other others hp =>
    have hrest := call_rest (b := b) (s := s) other
    exact hkept hrest.2.2.1 hrest.2.2.2.2.2.1 (call_goto_same Phase.failed (fun _ => rfl) hp)
      (call_goto_same isReporting (fun _ => rfl) hp)
  | silent id p ran cached hmove =>
    exact hkept rfl rfl (goto_same Phase.failed (silent_failed hmove))
      (goto_same isReporting (silent_reporting hmove))
  | acquire id hp hfree hwaiting =>
    exact hkept rfl rfl (goto_same Phase.failed (by rw [hp]; rfl))
      (goto_same isReporting (by rw [hp]; rfl))
  | queue id hp =>
    exact hkept rfl rfl (goto_same Phase.failed (by rw [hp]; rfl))
      (goto_same isReporting (by rw [hp]; rfl))
  | execute id hp =>
    exact hkept rfl rfl (goto_same Phase.failed (by rw [hp]; rfl))
      (goto_same isReporting (by rw [hp]; rfl))
  | command id hp =>
    exact hkept rfl rfl (goto_same Phase.failed (by rw [hp]; rfl))
      (goto_same isReporting (by rw [hp]; rfl))
  | testFailed id hp htest =>
    constructor
    · exact h.log.congr fun i => by
        show ((s.goto id .reporting).phase i).failed = true ∧ Due b s i ↔ _
        rw [goto_same Phase.failed (by rw [hp]; rfl)]
    · intro i hi
      by_cases heq : i = id
      · rw [heq]
        exact .inr (.inl htest)
      · rw [goto_of_ne heq] at hi
        exact h.due i hi
  | firstFailed id hp htest hdue =>
    have hnot : (s.phase id).failed = false := by rw [hp]; rfl
    have hdues : ∀ i, Due b { s.goto id .reporting with
        stopped := true, swaps := s.swaps ++ [id] } i ↔ Due b s i ∨ s.swaps = [] ∧ i = id :=
      due_append rfl
    constructor
    · refine h.log.congr fun i => ?_
      show ((s.goto id .reporting).phase i).failed = true ∧ _ ↔ _
      rw [goto_same Phase.failed (by rw [hp]; rfl), hdues i]
      by_cases heq : i = id
      · rw [heq, hnot]
        exact ⟨fun hand => absurd hand.1 Bool.false_ne_true,fun hand => absurd hand.1 Bool.false_ne_true⟩
      · rw [or_iff_left fun hand => heq hand.2]
    · intro i hi
      rw [hdues i]
      by_cases heq : i = id
      · rcases hdue with hstopped | hkeep
        · apply Or.inr
          refine ⟨?_,heq⟩
          by_contra hne
          rw [hswaps.stopped.mpr hne] at hstopped
          cases hstopped
        · exact .inl (.inl hkeep)
      · exact .inl (h.due i ((goto_of_ne heq _).symm.trans hi))
  | laterFailed id hp htest hstopped hkeep =>
    have hne := hswaps.stopped.mp hstopped
    have hdues : ∀ i, Due b { s.close b id .failed with
        stopped := true, swaps := s.swaps ++ [id] } i ↔ Due b s i := fun i =>
      (due_append rfl i).trans (or_iff_left fun hand => hne hand.1)
    have hnot : ¬Due b s id := by
      rintro (hkeep' | htest' | hhead)
      · rw [hkeep] at hkeep'
        cases hkeep'
      · rw [htest] at htest'
        cases htest'
      · have hswapped := ((hswaps.log.2 id).mp (List.mem_of_head? hhead)).2
        rw [hp] at hswapped
        cases hswapped
    constructor
    · refine h.log.congr fun i => ?_
      show ((s.goto id (closedPhase b id .failed)).phase i).failed = true ∧ _ ↔ _
      rw [hdues i]
      by_cases heq : i = id
      · rw [heq]
        exact ⟨fun hand => absurd hand.2 hnot,fun hand => absurd hand.2 hnot⟩
      · rw [goto_of_ne heq]
    · intro i hi
      rw [hdues i]
      by_cases heq : i = id
      · rw [heq] at hi
        exact absurd hi (close_not_reporting id .failed)
      · exact h.due i ((goto_of_ne heq _).symm.trans hi)
  | report id hp =>
    have hdue : Due b s id := h.due id hp
    constructor
    · refine h.log.append (by rw [hp]; exact fun hand => absurd hand.1 Bool.false_ne_true) fun i => ?_
      show ((s.goto id (closedPhase b id .failed)).phase i).failed = true ∧ Due b s i ↔ _
      rw [goto_new (closed_eq Phase.failed rfl), or_and_right]
      exact or_congr Iff.rfl (and_iff_left_of_imp fun hi => hi ▸ hdue)
    · intro i hi
      by_cases heq : i = id
      · rw [heq] at hi
        exact absurd hi (close_not_reporting id .failed)
      · exact h.due i ((goto_of_ne heq _).symm.trans hi)
  | hand id e w hp hw =>
    exact hkept rfl rfl (hand_same Phase.failed hinv hp hw rfl rfl)
      (hand_same isReporting hinv hp hw rfl rfl)
  | free id e hp hw =>
    exact hkept rfl rfl (goto_same Phase.failed (by rw [hp]; rfl))
      (goto_same isReporting (by rw [hp]; rfl))

end Failures

section Commands

/-- A command may have been started. -/
def Phase.launched : Phase → Bool
  | .running | .collecting | .recording | .failing | .reporting => true
  | .leaving e | .returning e | .done e => e = .ran || e = .failed
  | _ => false

structure InvCommands (s : State) : Prop where
  nodup : s.commands.Nodup
  launched : ∀ i ∈ s.commands, (s.phase i).launched = true

theorem moved_launched {i : ℕ} {p q : Phase} (h : Moved b s i p q) (hp : p.launched = true) :
    q.launched = true := by
  cases h with
  | silent hmove =>
    cases hmove with
    | returned e => exact hp
    | _ => first | rfl | cases hp
  | drop => exact (closed_eq Phase.launched rfl).trans rfl
  | report => exact (closed_eq Phase.launched rfl).trans rfl
  | release e => exact hp
  | _ => first | rfl | cases hp

theorem launched_kept (hinv : InvSlots b s) (h : Stepped b s s') {i : ℕ}
    (hi : (s.phase i).launched = true) : (s'.phase i).launched = true := by
  rcases moved_of_stepped hinv h i with heq | hmoved
  · rw [heq]
    exact hi
  · exact moved_launched hmoved hi

/-- The one step that starts a command. -/
theorem commands_step (hstep : Stepped b s s') : s'.commands = s.commands ∨
    ∃ id, s.phase id = .spawning ∧ s'.commands = s.commands ++ [id] ∧ s'.phase id = .running := by
  cases hstep with
  | root id roots hroots => exact .inl (call_rest id).2.2.2.2.1
  | call id other others hp => exact .inl (call_rest other).2.2.2.2.1
  | command id hp => exact .inr ⟨id,hp,rfl,goto_self _ _⟩
  | _ => exact .inl rfl

theorem invCommands_step (hinv : InvSlots b s) (h : InvCommands s) (hstep : Stepped b s s') :
    InvCommands s' := by
  rcases commands_step hstep with hsame | ⟨id,hp,hlog,hp'⟩
  · constructor
    · rw [hsame]
      exact h.nodup
    · intro i hi
      rw [hsame] at hi
      exact launched_kept hinv hstep (h.launched i hi)
  · have hnot : id ∉ s.commands := by
      intro hmem
      have hlaunched := h.launched id hmem
      rw [hp] at hlaunched
      cases hlaunched
    constructor
    · rw [hlog]
      refine List.nodup_append.mpr ⟨h.nodup,List.nodup_singleton id,fun x hx y hy heq => ?_⟩
      rw [List.mem_singleton] at hy
      exact hnot (hy ▸ heq ▸ hx)
    · intro i hi
      rw [hlog, List.mem_append, List.mem_singleton] at hi
      rcases hi with hi | rfl
      · exact launched_kept hinv hstep (h.launched i hi)
      · rw [hp']
        rfl

end Commands

section Reached

structure Inv (b : Build) (s : State) : Prop where
  slots : InvSlots b s
  inputs : InvInputs b s
  called : InvCalled b s
  executed : InvExecuted s
  commands : InvCommands s
  swaps : InvSwaps b s
  failures : InvFailures b s

theorem inv_initial : Inv b b.initial := by
  refine ⟨⟨.nil,fun i => ?_,nofun,[],.nil,fun i => ?_,?_⟩,⟨nofun,nofun⟩,⟨fun _ => id,nofun,?_⟩,
    ⟨.nil,fun i => ?_⟩,⟨.nil,nofun⟩,⟨⟨.nil,fun i => ?_⟩,?_⟩,⟨⟨.nil,fun i => ?_⟩,nofun⟩⟩
  · exact ⟨nofun,nofun⟩
  · exact ⟨nofun,fun hand => absurd hand.2 Bool.false_ne_true⟩
  · rfl
  · exact fun id hid => absurd rfl hid
  · exact ⟨nofun,nofun⟩
  · exact ⟨nofun,fun hand => absurd hand.2 Bool.false_ne_true⟩
  · exact ⟨nofun,fun hne => absurd rfl hne⟩
  · exact ⟨nofun,fun hand => absurd hand.1 Bool.false_ne_true⟩

theorem inv_step (h : Inv b s) (hstep : Stepped b s s') : Inv b s' :=
  ⟨invSlots_step h.slots hstep,invInputs_step h.slots h.inputs hstep,
    invCalled_step h.slots h.called hstep,invExecuted_step h.slots h.executed hstep,
    invCommands_step h.slots h.commands hstep,invSwaps_step h.slots h.swaps hstep,
    invFailures_step h.slots h.swaps h.failures hstep⟩

theorem inv_run {events : List Event} (h : Inv b s) (hrun : Machine.run (step b) s events = some s') :
    Inv b s' :=
  Machine.run_invariant (step b) (fun _ _ _ hs hstep => inv_step hs (stepped_of_step hstep)) h hrun

theorem inv_reached (h : Reached b s) : Inv b s := by
  obtain ⟨events,hrun⟩ := h
  exact inv_run inv_initial hrun

theorem executed_pastInputs {p : Phase} (h : p.executed = true) : p.pastInputs = true := by
  cases p with
  | leaving e => cases e <;> first | rfl | cases h
  | returning e => cases e <;> first | rfl | cases h
  | done e => cases e <;> first | rfl | cases h
  | _ => first | rfl | cases h

theorem executed_not_idle {p : Phase} (h : p.executed = true) : p ≠ .idle := by
  intro hidle
  rw [hidle] at h
  cases h

theorem launched_executed {p : Phase} (h : p.launched = true) : p.executed = true := by
  cases p with
  | leaving e => exact h
  | returning e => exact h
  | done e => exact h
  | _ => first | rfl | cases h

theorem mem_wait {id maker : ℕ} : maker ∈ b.wait id ↔
    (∃ input ∈ b.inputs id, b.byOutput input = some maker) ∧ maker ≠ id := by
  rw [Build.wait, SortDedup.mem_sortDedup, List.mem_filter, List.mem_filterMap, decide_eq_true_iff]

/-- No more commands at once than there are slots. -/
theorem slotted_bounded (h : InvSlots b s) {ids : List ℕ} (hnodup : ids.Nodup)
    (hids : ∀ id ∈ ids, b.isSpawn id = true ∧ (s.phase id).slotted = true) :
    ids.length ≤ max b.jobs 1 := by
  obtain ⟨holders,-,hmem,hlen⟩ := h.holders
  have hsub : ids ⊆ holders := fun id hid => (hmem id).mpr (hids id hid)
  have hle := (List.subperm_of_subset hnodup hsub).length_le
  omega

/-- When the build is over every task has ended. -/
theorem finished_done (h : Inv b s) (hfinished : Finished b s) {i : ℕ} (hi : s.phase i ≠ .idle) :
    ∃ e, s.phase i = .done e := by
  have hcalled := h.called.called i hi
  clear hi
  induction hcalled with
  | wanted hwanted => exact hfinished.2 _ hwanted
  | input _ hid hother ih =>
    obtain ⟨e,he⟩ := ih
    exact h.inputs.ended _ (by rw [he]; rfl) _ hother

theorem failed_done (h : Inv b s) (hfinished : Finished b s) (i : ℕ) :
    (s.phase i).failed = true ↔ s.phase i = .done .failed := by
  constructor
  · intro hfailed
    have hne : s.phase i ≠ .idle := fun hidle => by rw [hidle] at hfailed; cases hfailed
    obtain ⟨e,he⟩ := finished_done h hfinished hne
    rw [he] at hfailed ⊢
    rw [of_decide_eq_true hfailed]
  · intro hdone
    rw [hdone]
    rfl

end Reached

section AfterStop

theorem skips_kept (hstep : Stepped b s s') (h : s.skips b = true) :
    s'.skips b = true := by
  rw [State.skips, Bool.and_eq_true] at h ⊢
  refine ⟨?_,h.2⟩
  cases hstep with
  | root id roots hroots => exact (call_rest (b := b) (s := s) id).2.1.trans h.1
  | call id other others hp => exact (call_rest (b := b) (s := s) other).2.1.trans h.1
  | firstFailed => rfl
  | laterFailed => rfl
  | _ => exact h.1

/-- Once the flag is set no command's task gets past its last look at it. -/
theorem committed_step (hinv : Inv b s) (hskips : s.skips b = true) (hstep : Stepped b s s') {i : ℕ}
    (hspawn : b.isSpawn i = true) (hi : (s'.phase i).committed = true) :
    (s.phase i).committed = true := by
  rcases moved_of_stepped hinv.slots hstep i with heq | hmoved
  · exact heq ▸ hi
  · generalize s'.phase i = q at hmoved hi
    generalize s.phase i = p at hmoved
    cases hmoved with
    | silent hmove =>
      cases hmove with
      | alone h => rw [h] at hspawn; cases hspawn
      | held h => rw [h] at hskips; cases hskips
      | _ => first | rfl | cases hi
    | drop =>
      rw [closed_eq Phase.committed rfl] at hi
      cases hi
    | report =>
      rw [closed_eq Phase.committed rfl] at hi
      cases hi
    | _ => first | rfl | cases hi

/-- A command started after the flag was set is one of a task that was past its
last look. -/
theorem commands_after {events : List Event} (hinv : Inv b s) (hskips : s.skips b = true)
    (hrun : Machine.run (step b) s events = some s') :
    ∀ id ∈ s'.commands, id ∈ s.commands ∨ b.isSpawn id = true ∧ (s.phase id).committed = true := by
  let I : State → Prop := fun t => Inv b t ∧ t.skips b = true ∧
    (∀ id ∈ t.commands, id ∈ s.commands ∨ b.isSpawn id = true ∧ (s.phase id).committed = true) ∧
    ∀ id, b.isSpawn id = true → (t.phase id).committed = true → (s.phase id).committed = true
  have hstep : ∀ t e t', I t → step b t e = some t' → I t' := by
    intro t e t' ⟨htinv,htskips,hcommands,hcommitted⟩ ht
    have hstepped := stepped_of_step ht
    refine ⟨inv_step htinv hstepped,skips_kept hstepped htskips,fun id hid => ?_,fun id hspawn hid => ?_⟩
    · rcases commands_step hstepped with hsame | ⟨new,hp,hlog,-⟩
      · exact hcommands id (hsame ▸ hid)
      · rw [hlog, List.mem_append, List.mem_singleton] at hid
        rcases hid with hid | rfl
        · exact hcommands id hid
        · have hspawn := htinv.slots.spawn id (by rw [hp]; rfl)
          exact .inr ⟨hspawn,hcommitted id hspawn (by rw [hp]; rfl)⟩
    · exact hcommitted id hspawn (committed_step htinv htskips hstepped hspawn hid)
  have hinit : I s := ⟨hinv,hskips,fun id hid => .inl hid,fun id _ hid => hid⟩
  exact (Machine.run_invariant (step b) hstep hinit hrun).2.2.1

end AfterStop

section Safety

/-- What holds in every state of every run. -/
structure Safe (b : Build) (s : State) : Prop where
  once : s.executed.Nodup ∧ s.commands.Nodup
  afterInputs : ∀ id ∈ s.executed, ∀ input ∈ b.inputs id, ∀ maker, b.byOutput input = some maker →
    maker ≠ id → ∃ e, s.phase maker = .done e ∧ e.ok = true
  needed : ∀ id, id ∈ s.executed ∨ id ∈ s.commands → Needed b id
  jobs : ∀ ids : List ℕ, ids.Nodup → (∀ id ∈ ids, s.phase id = .running) → ids.length ≤ max b.jobs 1
  afterStop : s.stopped = true → b.keepGoing = false → ∀ events s',
    Machine.run (step b) s events = some s' →
    (∀ id ∈ s'.commands, id ∉ s.commands → (s.phase id).committed = true) ∧
    ∀ ids : List ℕ, ids.Nodup → (∀ id ∈ ids, id ∈ s'.commands ∧ id ∉ s.commands) →
      ids.length ≤ max b.jobs 1
  reportedOnce : s.failures.Nodup ∧ s.swaps.Nodup
  reported : Finished b s → ∀ id, id ∈ s.failures ↔ s.phase id = .done .failed ∧
    (b.keepGoing = true ∨ b.isTest id = true ∨ s.swaps.head? = some id)
  swapped : Finished b s → ∀ id, id ∈ s.swaps ↔ s.phase id = .done .failed ∧ b.isTest id = false

theorem committed_slotted {p : Phase} (h : p.committed = true) : p.slotted = true := by
  cases p <;> first | rfl | cases h

/-- For every list of actions, every number of jobs and every interleaving. -/
theorem scheduler_safe (b : Build) :
    ∀ events s, Machine.run (step b) b.initial events = some s → Safe b s := by
  intro events s hrun
  have hinv := inv_reached ⟨events,hrun⟩
  have hexecuted : ∀ id ∈ s.commands, id ∈ s.executed := fun id hid =>
    (hinv.executed.2 id).mpr (launched_executed (hinv.commands.launched id hid))
  constructor
  case once => exact ⟨hinv.executed.1,hinv.commands.nodup⟩
  case afterInputs =>
    intro id hid input hinput maker hmaker hne
    have hpast := executed_pastInputs ((hinv.executed.2 id).mp hid)
    exact hinv.inputs.made id hpast maker (mem_wait.mpr ⟨⟨input,hinput,hmaker⟩,hne⟩)
  case needed =>
    intro id hid
    have hid := (hinv.executed.2 id).mp (hid.elim (fun h => h) (hexecuted id))
    exact (hinv.called.called id (executed_not_idle hid)).needed
  case jobs =>
    intro ids hnodup hids
    apply slotted_bounded hinv.slots hnodup
    intro id hid
    have hp := hids id hid
    exact ⟨hinv.slots.spawn id (by rw [hp]; rfl),by rw [hp]; rfl⟩
  case afterStop =>
    intro hstopped hkeep events s' hrun'
    have hskips : s.skips b = true := by rw [State.skips, hstopped, hkeep]; rfl
    have hafter := commands_after hinv hskips hrun'
    refine ⟨fun id hid hnot => ((hafter id hid).resolve_left hnot).2,fun ids hnodup hids => ?_⟩
    apply slotted_bounded hinv.slots hnodup
    intro id hid
    obtain ⟨hspawn,hcommitted⟩ := (hafter id (hids id hid).1).resolve_left (hids id hid).2
    exact ⟨hspawn,committed_slotted hcommitted⟩
  case reportedOnce => exact ⟨hinv.failures.log.1,hinv.swaps.log.1⟩
  case reported =>
    intro hfinished id
    apply (hinv.failures.log.2 id).trans
    show (s.phase id).failed = true ∧ Due b s id ↔ _
    rw [failed_done hinv hfinished]
    rfl
  case swapped =>
    intro hfinished id
    have hnot : s.phase id ≠ .reporting := by
      intro hp
      obtain ⟨e,he⟩ := finished_done hinv hfinished (by rw [hp]; exact nofun)
      rw [hp] at he
      cases he
    have hsame : (s.phase id).swapped = (s.phase id).failed := by
      cases hp : s.phase id with
      | reporting => exact absurd hp hnot
      | _ => rfl
    apply (hinv.swaps.log.2 id).trans
    show b.isTest id = false ∧ (s.phase id).swapped = true ↔ _
    rw [hsame, failed_done hinv hfinished, and_comm]

def outputNamed (name : String) : Artifact := ⟨⟨"bazel-out/k8-fastbuild/bin",false⟩,name,false,false⟩

def commandMaking (name : String) : Action :=
  ⟨"Genrule",.spawn ["tool",name] .empty .empty [],[],[outputNamed name]⟩

/-- Two commands that do not depend on each other, and two jobs. -/
def twoCommands : Build :=
  ⟨[commandMaking "a",commandMaking "b"],[outputNamed "a",outputNamed "b"],2,false,fun _ => 0⟩

/-- Both are past their looks when the first command fails. -/
def untilStopped : List Event :=
  [Event.root,.root] ++ List.replicate 3 (Event.task 0 true) ++ List.replicate 4 (Event.task 0 false) ++
    List.replicate 3 (Event.task 1 true) ++ List.replicate 4 (Event.task 1 false) ++
    [Event.task 0 true,.task 0 true,.task 0 false,.task 0 false]

theorem scheduler_safe_two : ∃ s, Finished twoCommands s ∧ s.failures = [0] ∧ Safe twoCommands s := by
  have hend : (Machine.run (step twoCommands) twoCommands.initial
      (untilStopped ++ (List.replicate 3 (Event.task 0 true) ++ List.replicate 7 (Event.task 1 true)))).map
      (fun s => (s.roots,s.phase 0,s.phase 1,s.failures)) =
        some ([],.done .failed,.done .ran,[0]) := by decide
  obtain ⟨s,hs,hall⟩ := Option.map_eq_some_iff.mp hend
  simp only [Prod.mk.injEq] at hall
  refine ⟨s,⟨hall.1,fun id hid => ?_⟩,hall.2.2.2,scheduler_safe twoCommands _ s hs⟩
  have hwanted : twoCommands.wanted = [0,1] := by decide
  rw [hwanted] at hid
  rcases List.mem_pair.mp hid with rfl | rfl
  · exact ⟨_,hall.2.1⟩
  · exact ⟨_,hall.2.2.1⟩

/-- No command is started once a failure has set the flag. -/
def NoneAfterStop (b : Build) : Prop :=
  b.keepGoing = false → ∀ s, Reached b s → s.stopped = true →
    ∀ events s', Machine.run (step b) s events = some s' → s'.commands = s.commands

/-- An action starts after all that have one of its inputs among their outputs. -/
def AfterAllMakers (b : Build) : Prop :=
  ∀ s, Reached b s → ∀ id ∈ s.executed, ∀ input ∈ b.inputs id, ∀ maker action,
    b.actions[maker]? = some action → input ∈ action.outputs → maker ≠ id →
    ∃ e, s.phase maker = .done e ∧ e.ok = true

/-- Two actions make what the third reads. -/
def sharedOutput : Build :=
  ⟨[commandMaking "a",commandMaking "a",
    ⟨"Genrule",.spawn ["tool"] .empty .empty [],[outputNamed "a"],[outputNamed "b"]⟩],
    [outputNamed "b"],1,true,fun _ => 0⟩

/-- The flag is looked at before a command is started and not while it is, and of
two makers of one file the second counts. -/
theorem command_after_stop : ¬NoneAfterStop twoCommands ∧ ¬AfterAllMakers sharedOutput := by
  constructor
  · intro h
    have hstop : (Machine.run (step twoCommands) twoCommands.initial untilStopped).map
        (fun s => (s.stopped,s.commands)) = some (true,[0]) := by decide
    have hafter : (Machine.run (step twoCommands) twoCommands.initial
        (untilStopped ++ [Event.task 1 true,.task 1 true])).map (fun s => s.commands) = some [0,1] := by
      decide
    obtain ⟨s,hs,hpair⟩ := Option.map_eq_some_iff.mp hstop
    obtain ⟨s',hs',hcommands⟩ := Option.map_eq_some_iff.mp hafter
    rw [Machine.run_append, hs] at hs'
    obtain ⟨hstopped,hbefore⟩ := Prod.mk.inj hpair
    have heq := h rfl s ⟨_,hs⟩ hstopped _ s' hs'
    rw [hcommands, hbefore] at heq
    cases heq
  · intro h
    have hrun : (Machine.run (step sharedOutput) sharedOutput.initial
        ([Event.root,.task 2 true] ++ List.replicate 5 (Event.task 1 true) ++ [Event.task 2 true,.task 2 true,
          .task 2 true] ++ List.replicate 4 (Event.task 2 false))).map
        (fun s => (s.executed,s.phase 0)) = some ([2],.idle) := by decide
    obtain ⟨s,hs,hpair⟩ := Option.map_eq_some_iff.mp hrun
    obtain ⟨hexecuted,hidle⟩ := Prod.mk.inj hpair
    obtain ⟨e,he,-⟩ := h s ⟨_,hs⟩ 2 (by rw [hexecuted]; decide) (outputNamed "a") (by decide) 0
      (commandMaking "a") rfl List.mem_cons_self (by decide)
    rw [hidle] at he
    cases he

end Safety

end BuildFiji.Exec
