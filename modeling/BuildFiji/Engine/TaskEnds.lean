import BuildFiji.Engine.TaskWaits
import BuildFiji.Lib.SharedWork

/-!
# How computations end

A task may also panic: its future answers with an error, the requests it was making are
dropped, and nothing is stored. A task that is aborted between two polls is not polled
again. Computations with their requests are work that is shared
by those who wait for it, in every interleaving in which no task stores what it has worked
out after it was aborted.
-/

set_option autoImplicit false
set_option linter.all false

namespace BuildFiji.Engine.Tasks

open Relation

open BuildFiji.SharedWork (Work Move one)

variable {K V C : Type*}

inductive Event (K C : Type*) where
  | act (a : Act K C)
  | panic (j : ℕ) (text : String)
  | unwind (i : ℕ)
  | cancel (j : ℕ)

/-- The request that an action is a step of. -/
def Act.mover : Act K C → Option ℕ
  | .enter i => some i
  | .ask i => some i
  | .look i => some i
  | .resume i => some i
  | _ => none

/-- The task of the request is over, one way or another. -/
def Sys.ended (s : Sys K V C) (owner : Option ℕ) : Bool :=
  match owner with
  | none => false
  | some j => (s.comps[j]?).any fun c => c.task.ended

/-- A request whose task is over makes no more steps, and is dropped. -/
def Sys.unwinds (s : Sys K V C) (a : Act K C) : Bool :=
  a.mover.any fun i => (s.reqs[i]?).any fun r => s.ended r.owner

section Step
variable [DecidableEq K]

/-- A panic comes while the task itself runs, with its requests suspended or not begun. -/
def panic (s : Sys K V C) (j : ℕ) (text : String) (c : Computation K V C) : Option (Sys K V C) :=
  if s.reqs.all fun r => r.owner != some j || r.phase.suspended || r.phase.isEnter then
    match c.task with
    | .verify _ _ _ | .compute _ _ _ =>
      some (s.setComp j { c with task := .returned (.error ("a computation panicked: " ++ text)) })
    | _ => none
  else none

/-- An aborted task that has not been polled since it was given something to do. -/
def cancel (s : Sys K V C) (j : ℕ) (c : Computation K V C) : Option (Sys K V C) :=
  match c.aborted, c.task with
  | true, .verify _ _ none => some (s.setComp j { c with task := .stopped })
  | true, .compute _ _ none => some (s.setComp j { c with task := .stopped })
  | _, _ => none

def eventStep [DecidableEq V] (debug : K → String) (compute : K → Comp K V C) (s : Sys K V C) :
    Event K C → Option (Sys K V C)
  | .act a => if s.unwinds a then none else step debug compute s a
  | .panic j text => withComp s j (panic s j text)
  | .unwind i => withReq s i (fun r => s.ended r.owner) (drop s i)
  | .cancel j => withComp s j (cancel s j)

end Step

/-- The task that stores its value has not been aborted. -/
def storesInTime (s : Sys K V C) : Event K C → Bool
  | .act (.publish j) => (s.comps[j]?).all fun c => !c.aborted
  | _ => true

section View

/-- The request is counted by the computation. -/
def Phase.counted (j : ℕ) : Phase K V → Bool
  | .await j' => j' == j
  | .leave j' _ => j' == j
  | _ => false

/-- The request has given up its count, and is about to look at the node. -/
def Phase.leaving (j : ℕ) : Phase K V → Bool
  | .last j' _ => j' == j
  | _ => false

def Task.stored : Task K V C → Bool
  | .returned (.ok _) => true
  | _ => false

def Computation.work (c : Computation K V C) : Work K (Option (Evaluated K V)) :=
  ⟨c.key,c.previous,c.dirty,c.waiters,c.aborted,c.task.stored⟩

def State.held : State K V → SharedWork.Held (Option (Evaluated K V))
  | .empty => .value none
  | .done e => .value (some e)
  | .running j => .running j

variable [DecidableEq K]

/-- How many requests for the key are in such a phase. -/
def Sys.many (s : Sys K V C) (p : Phase K V → Bool) (k : K) : ℕ :=
  s.reqs.countP fun r => p r.phase && r.key == k

def Sys.shared (s : Sys K V C) : SharedWork.State K (Option (Evaluated K V)) where
  nodes k := (s.nodes k).map fun n => (n.state.held,n.dirty)
  works := s.comps.map Computation.work
  waiting j := s.many (Phase.counted j)
  leaving j := s.many (Phase.leaving j)

variable {s t : Sys K V C}

theorem many_set {i : ℕ} {r r' : Req K V} (hi : s.reqs[i]? = some r)
    (hr : t.reqs = s.reqs.set i r') (hkey : r'.key = r.key) (p : Phase K V → Bool) (k : K) :
    t.many p k+(if p r.phase && r.key == k then 1 else 0) =
      s.many p k+if p r'.phase && r.key == k then 1 else 0 := by
  have h := count_set hi (fun x => p x.phase && x.key == k) r'
  rw [hkey] at h
  rw [Sys.many, Sys.many, hr]
  exact h

theorem many_same {i : ℕ} {r r' : Req K V} (hi : s.reqs[i]? = some r)
    (hr : t.reqs = s.reqs.set i r') (hkey : r'.key = r.key) {p : Phase K V → Bool}
    (hp : p r'.phase = p r.phase) : t.many p = s.many p := by
  funext k
  have h := many_set hi hr hkey p k
  rw [hp] at h
  omega

theorem many_append {rs : List (Req K V)} (hr : t.reqs = s.reqs ++ rs) {p : Phase K V → Bool}
    (hp : ∀ r ∈ rs, p r.phase = false) : t.many p = s.many p := by
  funext k
  have hzero : rs.countP (fun r => p r.phase && r.key == k) = 0 :=
    List.countP_eq_zero.mpr fun r hm => by simp [hp r hm]
  rw [Sys.many, Sys.many, hr, List.countP_append, hzero, Nat.add_zero]

theorem one_eq (j j' : ℕ) (k k' : K) : (if (j == j') && (k == k') then 1 else 0) = one j k j' k' := by
  simp only [one, Bool.and_eq_true, beq_iff_eq, @eq_comm _ j, @eq_comm _ k]

theorem works_set {j : ℕ} {c : Computation K V C} (hc : s.comps[j]? = some c) :
    s.shared.works[j]? = some c.work := by
  rw [Sys.shared, List.getElem?_map, hc]
  rfl

/-- A computation goes on with its task, and stores nothing. -/
theorem works_task {j : ℕ} {c c' : Computation K V C} (hc : s.comps[j]? = some c)
    (ht : t.comps = s.comps.set j c') (hw : c'.work = c.work) : t.shared.works = s.shared.works := by
  obtain ⟨hlt,heq⟩ := List.getElem?_eq_some_iff.mp (works_set hc)
  have hmap : t.shared.works = s.shared.works.set j c.work := by
    rw [Sys.shared, ht, List.map_set, hw]
    rfl
  rw [hmap, ← heq]
  exact List.set_getElem_self hlt

theorem nodes_set {k : K} (n : Node K V) (hn : t.nodes = Function.update s.nodes k (some n)) :
    t.shared.nodes = Function.update s.shared.nodes k (some (n.state.held,n.dirty)) := by
  funext k'
  by_cases h : k' = k
  · subst h
    simp [Sys.shared, hn]
  · simp [Sys.shared, hn, h]

end View

section Refines

variable [DecidableEq K] {s t : Sys K V C}

/-- Neither counted nor leaving. -/
def Phase.idle (p : Phase K V) : Prop := ∀ j, p.counted j = false ∧ p.leaving j = false

/-- Nothing that waiting is about changes. -/
theorem still {r r' : Req K V} {i : ℕ} (hi : s.reqs[i]? = some r)
    (hr : t.reqs = s.reqs.set i r') (hkey : r'.key = r.key)
    (hc : ∀ j, r'.phase.counted j = r.phase.counted j)
    (hl : ∀ j, r'.phase.leaving j = r.phase.leaving j) (hn : t.nodes = s.nodes)
    (hs : t.shared.works = s.shared.works) : Move s.shared t.shared :=
  .still (by rw [Sys.shared, hn]; rfl) hs (funext fun j => many_same hi hr hkey (hc j))
    (funext fun j => many_same hi hr hkey (hl j))

theorem still_at {r r' : Req K V} {i : ℕ} (hi : s.reqs[i]? = some r)
    (hr : t.reqs = s.reqs.set i r') (hkey : r'.key = r.key) (hold : r.phase.idle)
    (hnew : r'.phase.idle) (hn : t.nodes = s.nodes) (hs : t.shared.works = s.shared.works) :
    Move s.shared t.shared :=
  still hi hr hkey (fun j => (hnew j).1.trans (hold j).1.symm)
    (fun j => (hnew j).2.trans (hold j).2.symm) hn hs

theorem still_append {rs : List (Req K V)} (hr : t.reqs = s.reqs ++ rs)
    (hnew : ∀ r ∈ rs, r.phase.idle) (hn : t.nodes = s.nodes)
    (hs : t.shared.works = s.shared.works) : Move s.shared t.shared :=
  .still (by rw [Sys.shared, hn]; rfl) hs (funext fun j => many_append hr fun r hm => (hnew r hm j).1)
    (funext fun j => many_append hr fun r hm => (hnew r hm j).2)

theorem still_reqs (hr : t.reqs = s.reqs) (hn : t.nodes = s.nodes)
    (hs : t.shared.works = s.shared.works) : Move s.shared t.shared :=
  @still_append _ _ _ _ s t [] (by rw [hr, List.append_nil]) nofun hn hs

theorem begin_moves {compute : K → Comp K V C} {i : ℕ} {r : Req K V} (hi : s.reqs[i]? = some r)
    (hp : r.phase = .look) {n : Node K V} (hn : s.nodes r.key = some n)
    (previous : Option (Evaluated K V)) (hheld : n.state.held = .value previous) :
    Move s.shared (begin compute s i r previous n.dirty).shared := by
  have hlen : s.shared.works.length = s.comps.length := List.length_map _
  have hnodes : (begin compute s i r previous n.dirty).nodes =
      Function.update s.nodes r.key (some ⟨.running s.comps.length,false⟩) := rfl
  have hstored : (first compute r.key previous n.dirty).stored = false := by
    unfold first
    split <;> rfl
  have hreqs : (begin compute s i r previous n.dirty).reqs =
      s.reqs.set i { r with phase := .await s.comps.length } := rfl
  refine .begin r.key previous n.dirty ?_ ?_ ?_ (fun j k => ?_) (funext fun j => ?_)
  · simp [Sys.shared, hn, hheld]
  · rw [hlen]
    exact nodes_set _ hnodes
  · rw [Sys.shared, begin, List.map_append, List.map_singleton, Computation.work, hstored]
    rfl
  · have h := many_set hi hreqs rfl (Phase.counted j) k
    rw [hp] at h
    rw [hlen, ← one_eq]
    exact h
  · exact many_same hi hreqs rfl (by rw [hp]; rfl)

theorem join_moves {i j : ℕ} {r : Req K V} {c : Computation K V C} {dirty : Bool}
    (hi : s.reqs[i]? = some r) (hp : r.phase = .look)
    (hn : s.nodes r.key = some ⟨.running j,dirty⟩) (hc : s.comps[j]? = some c) :
    Move s.shared ((s.setReq i (r.at (.await j))).setComp j { c with waiters := c.waiters+1 }).shared := by
  have hreqs : ((s.setReq i (r.at (.await j))).setComp j { c with waiters := c.waiters+1 }).reqs =
      s.reqs.set i (r.at (.await j)) := rfl
  refine .join j r.key dirty c.work ?_ (works_set hc) rfl ?_ (fun j' k => ?_) (funext fun j' => ?_)
  · simp [Sys.shared, hn, State.held]
  · rw [Sys.shared, Sys.setComp, List.map_set]
    rfl
  · have h := many_set hi hreqs rfl (Phase.counted j') k
    rw [hp] at h
    rw [← one_eq]
    exact h
  · exact many_same hi hreqs rfl (by rw [hp]; rfl)

theorem leave_moves {i : ℕ} {r : Req K V} (hi : s.reqs[i]? = some r) (h : leave s i r = some t) :
    Move s.shared t.shared := by
  unfold leave at h
  split at h
  · next j res hp =>
    split at h
    · cases h
    · next c hc =>
      simp only at h
      have hcounted : ∀ (u : Sys K V C) (phase : Phase K V), u.reqs = s.reqs.set i (r.at phase) →
          (∀ j', phase.counted j' = false) → ∀ j' k, u.many (Phase.counted j') k+one j r.key j' k =
            s.many (Phase.counted j') k := by
        intro u phase hreqs hphase j' k
        have h := many_set hi hreqs rfl (Phase.counted j') k
        rw [hp, Req.at, hphase, Bool.false_and, if_neg Bool.false_ne_true, Nat.add_zero] at h
        rw [← one_eq]
        exact h
      have hworks : (s.comps.set j { c with waiters := c.waiters-1 }).map Computation.work =
          s.shared.works.set j { c.work with waiters := c.work.waiters-1 } := by
        rw [List.map_set]
        rfl
      split at h
      · next hone =>
        cases h
        refine .leave j r.key c.work (works_set hc) hone rfl hworks
          (hcounted _ (.got res) rfl fun _ => rfl) (funext fun j' => ?_)
        exact @many_same _ _ _ _ s _ i r (r.at (.got res)) hi rfl rfl _ (by rw [hp]; rfl)
      · next hone =>
        cases h
        refine .leaveLast j r.key c.work (works_set hc) (not_not.mp hone) rfl hworks
          (hcounted _ (.last j res) rfl fun _ => rfl) fun j' k => ?_
        have h := @many_set _ _ _ _ s
          ((s.setComp j { c with waiters := c.waiters-1 }).setReq i { r with phase := .last j res })
          i r { r with phase := .last j res } hi rfl rfl (Phase.leaving j') k
        rw [hp] at h
        rw [← one_eq]
        exact h
  · cases h

/-- Where the request that leaves gives up its place. -/
theorem leaving_gone {i j : ℕ} {r : Req K V} {res : Option (Result K V)}
    (hi : s.reqs[i]? = some r) (hp : r.phase = .last j res)
    (hr : t.reqs = s.reqs.set i (r.at (.got res))) (j' : ℕ) (k : K) :
    t.many (Phase.leaving j') k+one j r.key j' k = s.many (Phase.leaving j') k := by
  have h := many_set hi hr rfl (Phase.leaving j') k
  rw [hp] at h
  rw [← one_eq]
  exact h

omit [DecidableEq K] in
theorem back_held (previous : Option (Evaluated K V)) : (back previous).held = .value previous := by
  cases previous <;> rfl

theorem last_moves {i : ℕ} {r : Req K V} (hi : s.reqs[i]? = some r) (h : last s i r = some t) :
    Move s.shared t.shared := by
  unfold last at h
  split at h
  · next j res hp =>
    simp only at h
    have hcounted : ∀ u : Sys K V C, u.reqs = s.reqs.set i (r.at (.got res)) →
        u.shared.waiting = s.shared.waiting := fun u hr =>
      funext fun j' => many_same hi hr rfl (by rw [hp]; rfl)
    have hstay : (∀ dirty c, s.nodes r.key = some ⟨.running j,dirty⟩ → s.comps[j]? = some c →
        c.waiters ≠ 0) → Move s.shared (s.setReq i (r.at (.got res))).shared := by
      intro hno
      refine .stay j r.key (fun dirty w hk hj => ?_) rfl rfl (hcounted _ rfl)
        (leaving_gone hi hp rfl)
      obtain ⟨⟨state,dirty'⟩,hn,heq⟩ := Option.map_eq_some_iff.mp hk
      obtain ⟨c,hc,rfl⟩ := Option.map_eq_some_iff.mp ((List.getElem?_map ..).symm.trans hj)
      cases state with
      | running j' =>
        cases heq
        exact hno dirty' c hn hc
      | empty => cases heq
      | done e => cases heq
    split at h
    · next j' dirty c hn hc =>
      split at h
      · next hj =>
        obtain ⟨rfl,hzero⟩ := hj
        cases h
        refine .goBack j' r.key dirty c.work ?_ (works_set hc) hzero ?_ ?_ (hcounted _ rfl)
          (leaving_gone hi hp rfl)
        · simp [Sys.shared, hn, State.held]
        · have hnodes := @nodes_set _ _ _ _ s (((s.setReq i (r.at (.got res))).setComp j'
            { c with aborted := true }).setNode r.key ⟨back c.previous,dirty || c.dirty⟩)
            r.key ⟨back c.previous,dirty || c.dirty⟩ rfl
          rw [back_held] at hnodes
          exact hnodes
        · rw [Sys.shared, Sys.setNode, Sys.setComp, List.map_set]
          rfl
      · next hj =>
        cases h
        refine hstay fun dirty' c' hn' hc' hzero => hj ?_
        cases hn.symm.trans hn'
        cases hc.symm.trans hc'
        exact ⟨rfl,hzero⟩
    · next hno =>
      cases h
      exact hstay fun dirty c hn hc => absurd hc (hno j dirty c hn)
  · cases h

omit [DecidableEq K] in
theorem at_work {c : Computation K V C} {task : Task K V C} (hold : c.task.stored = false)
    (hnew : task.stored = false) : (c.at task).work = c.work := by
  unfold Computation.work Computation.at
  rw [hold, hnew]

/-- A task goes on, and stores nothing. -/
theorem task_moves {j : ℕ} {c : Computation K V C} {task : Task K V C} (hc : s.comps[j]? = some c)
    (hold : c.task.stored = false) (hnew : task.stored = false) :
    Move s.shared (s.setComp j (c.at task)).shared :=
  still_reqs rfl rfl (works_task hc rfl (at_work hold hnew))

omit [DecidableEq K] in
theorem receive_idle {compute : K → Comp K V C} {c : Computation K V C} {i : ℕ} {k : K}
    {res : Result K V} {task : Task K V C} {phase : Phase K V}
    (h : receive compute c i k res = some (task,phase)) :
    c.task.stored = false ∧ task.stored = false ∧ phase.idle := by
  have hgone : (Phase.gone : Phase K V).idle := fun _ => ⟨rfl,rfl⟩
  have hdone : ∀ o : Outcome V, (Phase.done o : Phase K V).idle := fun _ _ => ⟨rfl,rfl⟩
  unfold receive at h
  split at h
  · split at h
    · next ht =>
      split at h
      · cases h
      · split at h
        · cases h
          exact ⟨by rw [ht]; rfl,rfl,hgone⟩
        · cases h
          exact ⟨by rw [ht]; rfl,rfl,hgone⟩
    · next ht =>
      cases h
      exact ⟨by rw [ht]; rfl,rfl,hdone _⟩
    · cases h
  · split at h
    · next ht =>
      split at h
      · cases h
      · cases h
        exact ⟨by rw [ht]; rfl,rfl,hgone⟩
    · next ht =>
      cases h
      exact ⟨by rw [ht]; rfl,rfl,hdone _⟩
    · cases h

theorem publish_moves {j : ℕ} {c : Computation K V C} {e : Evaluated K V} {n : Node K V}
    (hc : s.comps[j]? = some c) (ht : c.task = .publish e) (hn : s.nodes c.key = some n)
    (ha : c.aborted = false) :
    Move s.shared ((s.setComp j (c.at (.returned (.ok e)))).setNode c.key ⟨.done e,n.dirty⟩).shared := by
  refine .store j c.work (some e) n.state.held n.dirty (works_set hc) ha ?_ ?_ (nodes_set ⟨.done e,n.dirty⟩ rfl) ?_
    rfl rfl
  · rw [Computation.work, ht]
    rfl
  · simp [Sys.shared, Computation.work, hn]
  · rw [Sys.shared, Sys.setNode, Sys.setComp, List.map_set]
    rfl

theorem drop_moves {i : ℕ} {r : Req K V} (hi : s.reqs[i]? = some r) (h : drop s i r = some t) :
    Move s.shared t.shared := by
  unfold drop at h
  split at h
  · next hp =>
    cases h
    exact still hi rfl rfl (fun _ => by rw [hp]; rfl) (fun _ => by rw [hp]; rfl) rfl rfl
  · next j hp =>
    cases h
    exact still hi rfl rfl (fun _ => by rw [hp]; rfl) (fun _ => by rw [hp]; rfl) rfl rfl
  · next j hp =>
    cases h
    exact still hi rfl rfl (fun _ => by rw [hp]; rfl) (fun _ => by rw [hp]; rfl) rfl rfl
  · cases h

variable [DecidableEq V] {debug : K → String} {compute : K → Comp K V C}

theorem Step.moves {a : Act K C} (hs : Step debug compute s a t)
    (hok : storesInTime s (.act a) = true) (hleave : ∀ i, a ≠ .leave i) (hlast : ∀ i, a ≠ .last i)
    (hreap : ∀ j, a ≠ .reap j) : Move s.shared t.shared := by
  cases hs with
  | set k c => exact still_reqs rfl rfl rfl
  | lookup hc => exact still_reqs rfl rfl rfl
  | bump hc => exact still_reqs rfl rfl rfl
  | storeAbsent hc => exact still_reqs rfl rfl rfl
  | @store i k v n hc hn =>
    exact .mark k n.state.held n.dirty (by simp [Sys.shared, hn])
      (nodes_set { n with dirty := true } rfl) rfl rfl rfl
  | nextVersion => exact still_reqs rfl rfl rfl
  | request k => exact still_append rfl (by simp [Phase.idle, Phase.counted, Phase.leaving]) rfl rfl
  | enterOld hi hp hn =>
    exact still hi rfl rfl (fun _ => by rw [hp]; rfl) (fun _ => by rw [hp]; rfl) rfl rfl
  | @enterNew i r hi hp hn =>
    refine .enter r.key none (by simp [Sys.shared, hn]) (nodes_set ⟨.empty,false⟩ rfl) rfl ?_ ?_
    · exact funext fun j => @many_same _ _ _ _ s _ i r (r.at .ask) hi rfl rfl _ (by rw [hp]; rfl)
    · exact funext fun j => @many_same _ _ _ _ s _ i r (r.at .ask) hi rfl rfl _ (by rw [hp]; rfl)
  | askOutside hi hp ho =>
    exact still hi rfl rfl (fun _ => by rw [hp]; rfl) (fun _ => by rw [hp]; rfl) rfl rfl
  | ask hi hp ho hc hw =>
    exact still hi rfl rfl (fun _ => by rw [hp]; rfl) (fun _ => by rw [hp]; rfl) rfl rfl
  | askRefusedVerify hi hp ho hc hw ht =>
    exact still hi rfl rfl (fun _ => by rw [hp]; rfl) (fun _ => by rw [hp]; rfl) rfl
      (works_task hc rfl (at_work (by rw [ht]; rfl) rfl))
  | askRefused hi hp ho hc hw =>
    exact still hi rfl rfl (fun _ => by rw [hp]; rfl) (fun _ => by rw [hp]; rfl) rfl rfl
  | lookDone hi hp hn hv =>
    exact still hi rfl rfl (fun _ => by rw [hp]; rfl) (fun _ => by rw [hp]; rfl) rfl rfl
  | lookEmpty hi hp hn => exact begin_moves hi hp hn none rfl
  | lookStale hi hp hn hv => exact begin_moves hi hp hn _ rfl
  | lookJoin hi hp hn hc hv => exact join_moves hi hp hn hc
  | lookOther hi hp hn hc hv =>
    exact still hi rfl rfl (fun _ => by rw [hp]; rfl) (fun _ => by rw [hp]; rfl) rfl rfl
  | resumeAwait hi hp hc ht =>
    exact still hi rfl rfl (fun _ => by rw [hp]; rfl) (fun _ => by rw [hp]; rfl) rfl rfl
  | resumeOther hi hp =>
    exact still hi rfl rfl (fun _ => by rw [hp]; rfl) (fun _ => by rw [hp]; rfl) rfl rfl
  | dropEnter hi hp =>
    exact still hi rfl rfl (fun _ => by rw [hp]; rfl) (fun _ => by rw [hp]; rfl) rfl rfl
  | dropAwait hi hp =>
    exact still hi rfl rfl (fun _ => by rw [hp]; rfl) (fun _ => by rw [hp]; rfl) rfl rfl
  | dropOther hi hp =>
    exact still hi rfl rfl (fun _ => by rw [hp]; rfl) (fun _ => by rw [hp]; rfl) rfl rfl
  | leave hi hp hc hph => exact absurd rfl (hleave _)
  | lastBack hi hp hn hc hw => exact absurd rfl (hlast _)
  | lastOut hi hp => exact absurd rfl (hlast _)
  | deliverGone hi ho hc hp =>
    exact still hi rfl rfl (fun _ => by rw [hp]; rfl) (fun _ => by rw [hp]; rfl) rfl rfl
  | deliver hi ho hc hp hrec =>
    obtain ⟨hold,hnew,hidle⟩ := receive_idle hrec
    exact still_at hi rfl rfl (by rw [hp]; exact fun _ => ⟨rfl,rfl⟩) hidle rfl
      (works_task hc rfl (at_work hold hnew))
  | spawnVerify hc ht =>
    exact still_append rfl (by simp [Phase.idle, Phase.counted, Phase.leaving]) rfl
      (works_task hc rfl (at_work (by rw [ht]; rfl) rfl))
  | spawnGet hc ht =>
    exact still_append rfl (by simp [Phase.idle, Phase.counted, Phase.leaving]) rfl
      (works_task hc rfl (at_work (by rw [ht]; rfl) rfl))
  | read hc ht => exact task_moves hc (by rw [ht]; rfl) rfl
  | advanceKept hc ht hp => exact task_moves hc (by rw [ht]; rfl) rfl
  | advanceGet hc ht hws => exact task_moves hc (by rw [ht]; rfl) rfl
  | advanceRet hc ht => exact task_moves hc (by rw [ht]; rfl) rfl
  | publish hc ht hn =>
    rw [storesInTime, hc, Option.all_some, Bool.not_eq_true'] at hok
    exact publish_moves hc ht hn hok
  | reap hc ha hsus => exact absurd rfl (hreap _)

theorem act_moves {a : Act K C} (h : step debug compute s a = some t)
    (hok : storesInTime s (.act a) = true) : Move s.shared t.shared := by
  have hstep := step_sound h
  cases a with
  | leave i =>
    obtain ⟨r,hi,-,h⟩ := withReq_some h
    exact leave_moves hi h
  | last i =>
    obtain ⟨r,hi,-,h⟩ := withReq_some h
    exact last_moves hi h
  | reap j =>
    obtain ⟨c,hc,h⟩ := withComp_some h
    unfold reap at h
    split at h
    · next hcond =>
      cases h
      simp only [Bool.and_eq_true] at hcond
      have hold : c.task.stored = false := by
        cases ht : c.task with
        | returned r => rw [ht] at hcond; cases hcond.1.2
        | _ => rfl
      exact task_moves hc hold rfl
    · cases h
  | _ => exact hstep.moves hok nofun nofun nofun

theorem event_moves {e : Event K C} (h : eventStep debug compute s e = some t)
    (hok : storesInTime s e = true) : Move s.shared t.shared := by
  cases e with
  | act a =>
    simp only [eventStep] at h
    split at h
    · cases h
    · exact act_moves h hok
  | panic j text =>
    obtain ⟨c,hc,h⟩ := withComp_some h
    unfold panic at h
    split at h
    · split at h
      · next ht => cases h; exact task_moves hc (by rw [ht]; rfl) rfl
      · next ht => cases h; exact task_moves hc (by rw [ht]; rfl) rfl
      · cases h
    · cases h
  | unwind i =>
    obtain ⟨r,hi,-,h⟩ := withReq_some h
    exact drop_moves hi h
  | cancel j =>
    obtain ⟨c,hc,h⟩ := withComp_some h
    unfold cancel at h
    split at h
    · next ht => cases h; exact task_moves hc (by rw [ht]; rfl) rfl
    · next ht => cases h; exact task_moves hc (by rw [ht]; rfl) rfl
    · cases h

end Refines

section Runs

variable [DecidableEq K] [DecidableEq V] {debug : K → String} {compute : K → Comp K V C}
variable {s t : Sys K V C} {events : List (Event K C)}

/-- A run in which nothing is stored late is a run of shared work. -/
theorem run_moves (hg : Machine.Guarded (eventStep debug compute)
      (fun u e => storesInTime u e = true) s events)
    (h : Machine.run (eventStep debug compute) s events = some t) :
    ReflTransGen Move s.shared t.shared := by
  induction events generalizing s with
  | nil =>
    cases h
    exact .refl
  | cons e events ih =>
    obtain ⟨u,hu,ht⟩ := Machine.run_cons _ h
    exact .head (event_moves hu hg.1) (ih (hg.2 u hu) ht)

omit [DecidableEq V] in
theorem new_shared (ext : K → C) : SharedWork.Sound (Sys.new V ext).shared := .empty

/-- The request has a `Waiter` of the computation, also while it drops it. -/
def Req.waitsFor (r : Req K V) (j : ℕ) : Bool := r.phase.counted j || r.phase.leaving j

/-- The computation was abandoned, or it stored nothing and has no waiter. -/
def Sys.gaveUp (s : Sys K V C) (j : ℕ) : Bool :=
  (s.comps[j]?).any fun c => c.aborted || !c.task.stored && s.reqs.all fun r => !r.waitsFor j

/-- No later computation is of the key. -/
def Sys.newest (s : Sys K V C) (j : ℕ) (k : K) : Prop :=
  ∀ (j' : ℕ) (c : Computation K V C), j < j' → s.comps[j']? = some c → c.key ≠ k

omit [DecidableEq V] in
theorem many_pos {p : Phase K V → Bool} {k : K} (h : 0 < s.many p k) :
    ∃ r ∈ s.reqs, r.key = k ∧ p r.phase = true := by
  obtain ⟨r,hr,hp⟩ := List.countP_pos_iff.mp h
  obtain ⟨hphase,hkey⟩ := Bool.and_eq_true_iff.mp hp
  exact ⟨r,hr,beq_iff_eq.mp hkey,hphase⟩

omit [DecidableEq V] in
theorem many_zero {p : Phase K V → Bool} {k : K} (h : ∀ r ∈ s.reqs, p r.phase = false) :
    s.many p k = 0 :=
  List.countP_eq_zero.mpr fun r hr => by rw [h r hr]; exact Bool.false_ne_true

omit [DecidableEq V] in
theorem works_some {j : ℕ} {w : Work K (Option (Evaluated K V))} (h : s.shared.works[j]? = some w) :
    ∃ c, s.comps[j]? = some c ∧ c.work = w :=
  Option.map_eq_some_iff.mp ((List.getElem?_map ..).symm.trans h)

omit [DecidableEq V] in
theorem nodes_some {k : K} {n : Node K V} (h : s.nodes k = some n) :
    s.shared.nodes k = some (n.state.held,n.dirty) := by
  simp [Sys.shared, h]

omit [DecidableEq V] in
theorem running_waited (h : SharedWork.Sound s.shared) {k : K} {j : ℕ} {dirty : Bool}
    (hk : s.nodes k = some ⟨.running j,dirty⟩) : ∃ r ∈ s.reqs, r.key = k ∧ r.waitsFor j = true := by
  obtain ⟨w,hj,rfl,-,-,hpos⟩ := h.running k j dirty (nodes_some hk)
  rw [h.counts j w hj] at hpos
  by_cases hwait : 0 < s.many (Phase.counted j) w.key
  · obtain ⟨r,hr,hkey,hp⟩ := many_pos hwait
    exact ⟨r,hr,hkey,by rw [Req.waitsFor, hp, Bool.true_or]⟩
  · obtain ⟨r,hr,hkey,hp⟩ := @many_pos _ _ _ _ s (Phase.leaving j) w.key (by
      change 0 < s.many (Phase.counted j) w.key+s.many (Phase.leaving j) w.key at hpos
      omega)
    exact ⟨r,hr,hkey,by rw [Req.waitsFor, hp, Bool.or_true]⟩

omit [DecidableEq V] in
theorem aborted_left (h : SharedWork.Sound s.shared) {j : ℕ} {c : Computation K V C}
    (hc : s.comps[j]? = some c) (ha : c.aborted = true) :
    c.waiters = 0 ∧ ∀ r ∈ s.reqs, r.phase.counted j = false := by
  have hj := works_set hc
  have hzero := (h.ended j c.work hj ha).1
  refine ⟨hzero,fun r hr => ?_⟩
  by_contra hp
  have hpos : 0 < s.many (Phase.counted j) r.key :=
    List.countP_pos_iff.mpr ⟨r,hr,by simp [hp]⟩
  have hkey := h.key_of_waiting hj (Nat.add_pos_left hpos _)
  have hcount := h.counts j c.work hj
  rw [hzero, hkey] at hcount
  change 0 = s.many (Phase.counted j) r.key at hcount
  omega

omit [DecidableEq V] in
theorem gaveUp_aborted (h : SharedWork.Sound s.shared) {j : ℕ} (hover : s.gaveUp j = true) :
    ∃ w, s.shared.works[j]? = some w ∧ w.aborted = true := by
  obtain ⟨c,hc,hover⟩ := (Option.any_eq_true _ _).mp hover
  have hj := works_set hc
  refine ⟨c.work,hj,?_⟩
  rcases Bool.or_eq_true_iff.mp hover with ha | hnone
  · exact ha
  · obtain ⟨hst,hall⟩ := Bool.and_eq_true_iff.mp hnone
    have hno : ∀ r ∈ s.reqs, r.phase.counted j = false ∧ r.phase.leaving j = false := by
      intro r hr
      simpa [Req.waitsFor] using List.all_eq_true.mp hall r hr
    refine h.given_up hj ((Bool.not_eq_true' _).mp hst) ?_
    change s.many (Phase.counted j) c.key+s.many (Phase.leaving j) c.key = 0
    rw [many_zero fun r hr => (hno r hr).1, many_zero fun r hr => (hno r hr).2]

/-- A computation is begun from what the node holds. -/
theorem look_begins {i : ℕ} {r : Req K V} {n : Node K V}
    (h : eventStep debug compute s (.act (.look i)) = some t) (hi : s.reqs[i]? = some r)
    (hn : s.nodes r.key = some n) (hlen : t.comps.length = s.comps.length+1) :
    ∃ previous, n.state = back previous ∧ t = begin compute s i r previous n.dirty := by
  simp only [eventStep] at h
  split at h
  · cases h
  have hstep := step_sound h
  cases hstep with
  | lookEmpty hi' hp hn' =>
    cases hi.symm.trans hi'
    cases hn.symm.trans hn'
    exact ⟨none,rfl,rfl⟩
  | lookStale hi' hp hn' hv =>
    cases hi.symm.trans hi'
    cases hn.symm.trans hn'
    exact ⟨some _,rfl,rfl⟩
  | lookDone hi' hp hn' hv => exact absurd hlen (Nat.ne_of_lt (Nat.lt_succ_self _))
  | lookOther hi' hp hn' hc hv => exact absurd hlen (Nat.ne_of_lt (Nat.lt_succ_self _))
  | lookJoin hi' hp hn' hc hv =>
    rw [Sys.setComp, List.length_set] at hlen
    exact absurd hlen (Nat.ne_of_lt (Nat.lt_succ_self _))

omit [DecidableEq K] [DecidableEq V] in
theorem held_inj {a b : State K V} (h : a.held = b.held) : a = b := by
  cases a with
  | empty =>
    cases b with
    | empty => rfl
    | _ => cases h
  | done e =>
    cases b with
    | done e' => cases h; rfl
    | _ => cases h
  | running j =>
    cases b with
    | running j' => cases h; rfl
    | _ => cases h

/-- In every interleaving in which no aborted task stores, a node that runs has a request
with a waiter, a task is aborted only when the last has left, and a node whose computation
was given up is what it was before, with its mark and the marks since. -/
theorem abandoned_goes_back (debug : K → String) (compute : K → Comp K V C) (ext : K → C)
    (events : List (Event K C)) (s : Sys K V C)
    (hg : Machine.Guarded (eventStep debug compute) (fun u e => storesInTime u e = true)
      (Sys.new V ext) events)
    (h : Machine.run (eventStep debug compute) (Sys.new V ext) events = some s) :
    (∀ k j dirty, s.nodes k = some ⟨.running j,dirty⟩ →
      ∃ r ∈ s.reqs, r.key = k ∧ r.waitsFor j = true) ∧
    (∀ (j : ℕ) (c : Computation K V C), s.comps[j]? = some c → c.aborted = true →
      c.waiters = 0 ∧ ∀ r ∈ s.reqs, r.phase.counted j = false) ∧
    ∀ before i mid after s₀ s₁ s₂ (r : Req K V) (n₀ : Node K V),
      events = before ++ .act (.look i)::(mid ++ after) →
      Machine.run (eventStep debug compute) (Sys.new V ext) before = some s₀ →
      s₀.reqs[i]? = some r → s₀.nodes r.key = some n₀ →
      eventStep debug compute s₀ (.act (.look i)) = some s₁ →
      s₁.comps.length = s₀.comps.length+1 →
      Machine.run (eventStep debug compute) s₁ mid = some s₂ →
      s.gaveUp s₀.comps.length = true → s.newest s₀.comps.length r.key →
      ∃ n, s.nodes r.key = some n ∧ n.state = n₀.state ∧ (n₀.dirty = true → n.dirty = true) ∧
        ∀ n₂, s₂.nodes r.key = some n₂ → n₂.dirty = true → n.dirty = true := by
  have hs : SharedWork.Sound s.shared := (new_shared ext).moves (run_moves hg h)
  refine ⟨fun k j dirty hk => running_waited hs hk,fun j c hc ha => aborted_left hs hc ha,?_⟩
  rintro before i mid after s₀ s₁ s₂ r n₀ rfl h₀ hi hn hlook hlen h₂ hover hnew
  -- The run from where the computation begins, in two parts.
  obtain ⟨-,-,hg₁⟩ := (Machine.guarded_append _ h₀).mp hg
  replace hg₁ := hg₁ s₁ hlook
  obtain ⟨hg₂,hg₃⟩ := (Machine.guarded_append _ h₂).mp hg₁
  rw [Machine.run_append, h₀, Option.bind_some, Machine.run, hlook, Option.bind_some,
    Machine.run_append, h₂, Option.bind_some] at h
  obtain ⟨previous,hstate,rfl⟩ := look_begins hlook hi hn hlen
  obtain ⟨w',hj',ha⟩ := gaveUp_aborted hs hover
  have hbegun : (begin compute s₀ i r previous n₀.dirty).shared.works[s₀.comps.length]? = some
      ⟨r.key,previous,n₀.dirty,1,false,(first compute r.key previous n₀.dirty).stored⟩ := by
    rw [Sys.shared, List.getElem?_map, begin, List.getElem?_concat_length]
    rfl
  obtain ⟨dirty,hk,hdirty,hmarks⟩ := hs.gone_back hbegun (run_moves hg₂ h₂) (run_moves hg₃ h) hj' ha
    (fun j w hlt hw => by
      obtain ⟨c,hc,rfl⟩ := works_some hw
      exact hnew j c hlt hc)
  obtain ⟨n,hn',heq⟩ := Option.map_eq_some_iff.mp hk
  obtain ⟨hheld,rfl⟩ := Prod.mk.inj heq
  refine ⟨n,hn',held_inj (hheld.trans ?_),hdirty,fun n₂ hn₂ hmark => ?_⟩
  · rw [hstate, back_held]
  · exact hmarks n₂.state.held (hmark ▸ nodes_some hn₂)

end Runs

def relayAsked : List (Event Bool ℕ) := [.act (.request true),.act (.enter 0),.act (.ask 0)]

def relayMarked : List (Event Bool ℕ) :=
  [.act (.set true 5),.act (.lookup 0),.act (.bump 0),.act (.store 0)]

def relayDropped : List (Event Bool ℕ) :=
  [.act (.drop 0),.act (.leave 0),.act (.last 0),.cancel 0]

/-- A request is dropped after its node was marked, and its task is told to stop. -/
theorem abandoned_goes_back_relay : ∃ (s : Sys Bool ℕ ℕ) (n : Node Bool ℕ),
    Machine.run (eventStep toString relay) (Sys.new ℕ fun _ => 0)
      (relayAsked ++ .act (.look 0)::(relayMarked ++ relayDropped)) = some s ∧
    s.nodes true = some n ∧ n.state = .empty ∧ n.dirty = true := by
  have hend := (abandoned_goes_back toString relay (fun _ => 0)
    (relayAsked ++ .act (.look 0)::(relayMarked ++ relayDropped)) _ (by decide) rfl).2.2
    relayAsked 0 relayMarked relayDropped _ _ _ _ _ rfl rfl rfl rfl rfl rfl rfl rfl fun j c hlt hc => ?_
  · obtain ⟨n,hn,hstate,-,hmark⟩ := hend
    exact ⟨_,n,rfl,hn,hstate,hmark _ rfl rfl⟩
  · have hlen : j < 1 := (List.getElem?_eq_some_iff.mp hc).1
    change 0 < j at hlt
    omega

/-- The task that has taken its value is told to stop, and then stores it. -/
theorem stored_after_abandoned : ∃ s₀ s : Sys Bool ℕ ℕ,
    Machine.run (eventStep toString relay) (Sys.new ℕ fun _ => 0)
      relayAsked = some s₀ ∧
    Machine.run (eventStep toString relay) s₀
      [.act (.look 0),.act (.read 0),.act (.advance 0),.act (.drop 0),.act (.leave 0),
        .act (.last 0),.act (.publish 0)] = some s ∧
    s₀.comps.length = 0 ∧ s.comps.length = 1 ∧ s.gaveUp 0 = true ∧
    (s.reqs.all fun r => !r.waitsFor 0) = true ∧
    s₀.nodes true = some ⟨.empty,false⟩ ∧
    s.nodes true = some ⟨.done ⟨.ok 0,0,0,[]⟩,false⟩ :=
  ⟨_,_,rfl,rfl,rfl,rfl,rfl,rfl,rfl,rfl⟩

end BuildFiji.Engine.Tasks
