import BuildFiji.Engine.TaskChanges

/-!
# Tasks keep the memo

A task that goes on, is started, is abandoned or is stopped leaves every
record as it is. A task that ends puts a record in place that supersedes the
one it was started from.
-/

set_option autoImplicit false
set_option linter.all false

namespace BuildFiji.Engine.Tasks

variable {K V C : Type*} {compute : K → Comp K V C} {outcomeAt : History K V} {x x' : Core K V C}

def Core.setComp (x : Core K V C) (j : ℕ) (c : Computation K V C) : Core K V C :=
  { x with comp := Function.update x.comp j (some c) }

def Core.setNode [DecidableEq K] (x : Core K V C) (k : K) (n : Node K V) : Core K V C :=
  { x with nodes := Function.update x.nodes k (some n) }

theorem setComp_comp (x : Core K V C) (j i : ℕ) (c : Computation K V C) :
    (x.setComp j c).comp i = if i = j then some c else x.comp i :=
  Function.update_apply _ _ _ _

theorem setNode_nodes [DecidableEq K] (x : Core K V C) (k k' : K) (n : Node K V) :
    (x.setNode k n).nodes k' = if k' = k then some n else x.nodes k' :=
  Function.update_apply _ _ _ _

/-- Nothing but computations and what nodes hold has changed, and no record. -/
structure Inner (x x' : Core K V C) : Prop where
  version : x'.version = x.version
  ext : x'.ext = x.ext
  changes : x'.changes = x.changes
  record : ∀ k, x'.record k = x.record k

theorem Inner.early (h : Inner x x') (v : ℕ) : x'.Early v ↔ x.Early v := by
  rw [Core.Early, Core.Early, h.changes]

theorem Inner.doomed (h : Inner x x') : x'.Doomed ↔ x.Doomed := by
  simp only [Core.Doomed, h.changes, h.record]

theorem Inner.good (h : Inner x x') (d : K) (w : Outcome V) (v : ℕ) :
    x'.Good compute d w v ↔ x.Good compute d w v := by
  rw [Core.Good, Core.Good, h.doomed, Core.Unbumped, Core.Unbumped, Core.Late, Core.Late, h.changes,
    h.ext]

theorem Inner.grows (h : Inner x x') : Grows compute outcomeAt x outcomeAt x' :=
  ⟨h.version.ge,fun k p hp => ⟨p,(h.record k).trans hp,.inl rfl⟩,fun _ _ _ _ _ => rfl,
    fun d w v _ hg => (h.good d w v).mpr hg⟩

theorem Inner.own (h : Inner x x') {k : K} (hm : x.Marked k → x'.Marked k) {cells : List C}
    (ho : x.Own k cells) : x'.Own k cells := by
  rw [Core.Own, h.ext, Core.Pending, h.changes]
  exact ho.imp_right (Or.imp_left hm)

theorem Inner.records (h : Inner x x') (hx : CoreInv compute outcomeAt x)
    (hm : ∀ k, x.Marked k → x'.Marked k ∨ x'.Taken k)
    (ht : ∀ k, x.Taken k → x'.Marked k ∨ x'.Taken k)
    (hb : ∀ k, x'.Marked k ∨ x'.Taken k → x.Marked k ∨ x.Taken k) (k : K) (e : Evaluated K V)
    (he : x'.record k = some e) : RecordOk compute outcomeAt x' k e := by
  rw [h.record] at he
  refine (hx.records k e he).mono hx h.grows he (fun cells ho => ?_) fun hmt => ?_
  · rw [Core.Own, h.ext, Core.Pending, h.changes]
    rcases ho with (ho | ho | ho) | ho
    · exact .inl (.inl ho)
    · exact (hm k ho).imp (fun hk => .inr (.inl hk)) id
    · exact .inl (.inr (.inr ho))
    · exact (ht k ho).imp (fun hk => .inr (.inl hk)) id
  · exact (h.early _).mpr ((hx.records k e he).marked (hb k hmt))

section Retask
variable {j : ℕ} {c c' : Computation K V C}

/-- The task of a computation goes on. -/
structure Retasked (compute : K → Comp K V C) (outcomeAt : History K V) (x : Core K V C)
    (c c' : Computation K V C) : Prop where
  key : c'.key = c.key
  version : c'.version = c.version
  previous : c'.previous = c.previous
  dirty : c'.dirty = c.dirty
  aborted : c'.aborted = c.aborted
  task : c.aborted = false → c.task.unfinished = true ∧ c'.task.unfinished = true ∧
    TaskOk compute outcomeAt x c'
  returned : ∀ r, c'.task ≠ .returned r

theorem Retasked.inner (h : Retasked compute outcomeAt x c c') (hc : x.comp j = some c) :
    Inner x (x.setComp j c') := by
  refine ⟨rfl,rfl,rfl,fun k => ?_⟩
  unfold Core.record
  refine congrArg (Option.bind (x.nodes k)) (funext fun n => ?_)
  cases hs : n.state with
  | running i =>
    simp only [State.record, setComp_comp]
    split
    · next hi => simp [hi, hc, h.previous]
    · rfl
  | _ => rfl

theorem Retasked.taken (h : Retasked compute outcomeAt x c c') (hc : x.comp j = some c) (k : K) :
    (x.setComp j c').Taken k ↔ x.Taken k := by
  constructor
  · rintro ⟨i,dirty,c1,hn,h1,hd⟩
    rw [setComp_comp] at h1
    split at h1
    · next hi =>
      cases h1
      exact ⟨i,dirty,c,hn,hi ▸ hc,h.dirty ▸ hd⟩
    · exact ⟨i,dirty,c1,hn,h1,hd⟩
  · rintro ⟨i,dirty,c1,hn,h1,hd⟩
    by_cases hi : i = j
    · subst hi
      obtain rfl := Option.some.inj (hc.symm.trans h1)
      exact ⟨i,dirty,c',hn,by rw [setComp_comp, if_pos rfl],h.dirty.trans hd⟩
    · exact ⟨i,dirty,c1,hn,by rw [setComp_comp, if_neg hi, h1],hd⟩

theorem Retasked.coreInv (h : Retasked compute outcomeAt x c c') (hc : x.comp j = some c)
    (hx : CoreInv compute outcomeAt x) : CoreInv compute outcomeAt (x.setComp j c') := by
  have hin := h.inner hc
  have hown : ∀ k cells, x.Own k cells → (x.setComp j c').Own k cells := fun _ _ ho => ho
  refine ⟨hx.changes,hin.records hx (fun _ hk => .inl hk) (fun k hk => .inr ((h.taken hc k).mpr hk))
    fun k hk => hk.imp_right (h.taken hc k).mp,fun i d hd => ?_,fun k i dirty hn => ?_,
    fun i d hd ha hu => ?_⟩
  · rw [setComp_comp] at hd
    split at hd
    · cases hd
      have hok := hx.comps j c hc
      have hpr := hok.previous
      refine ⟨h.version ▸ hok.version,h.key ▸ hok.node,fun p hp => ?_,fun ha => ?_,
        fun r hr => absurd hr (h.returned r)⟩
      · obtain ⟨h1,h2⟩ := hpr p (h.previous ▸ hp)
        refine ⟨h.version ▸ h1,fun q hq => ?_⟩
        rw [hin.record]
        exact h2 q hq
      · exact ((h.task (h.aborted ▸ ha)).2.2).mono hx hin.grows (hown _)
    · obtain ⟨n,hn⟩ := (hx.comps i d hd).node
      exact (hx.comps i d hd).mono hx hin.grows ⟨n,hn⟩ fun _ _ => hown _
  · obtain ⟨d,hd,hk,ha,hu,hel⟩ := hx.running k i dirty hn
    by_cases hi : i = j
    · subst hi
      obtain rfl := Option.some.inj (hc.symm.trans hd)
      exact ⟨c',by rw [setComp_comp, if_pos rfl],h.key.trans hk,h.aborted.trans ha,
        (h.task ha).2.1,fun hdi => h.version ▸ hel hdi⟩
    · exact ⟨d,by rw [setComp_comp, if_neg hi, hd],hk,ha,hu,hel⟩
  · rw [setComp_comp] at hd
    split at hd
    · next hi =>
      cases hd
      have ha' : c.aborted = false := h.aborted ▸ ha
      obtain ⟨dirty,hn⟩ := hx.live j c hc ha' (h.task ha').1
      rw [h.key, hi]
      exact ⟨dirty,hn⟩
    · exact hx.live i d hd ha hu

theorem Retasked.evolves (h : Retasked compute outcomeAt x c c') (hc : x.comp j = some c)
    (hr : c.aborted = false → ∀ k o, Recorded outcomeAt c.task k o →
      Recorded outcomeAt c'.task k o) : Evolves outcomeAt x outcomeAt (x.setComp j c') := by
  intro i d hd
  by_cases hi : i = j
  · subst hi
    obtain rfl := Option.some.inj (hc.symm.trans hd)
    exact ⟨c',by rw [setComp_comp, if_pos rfl],h.key,h.version,h.previous,
      fun ha => ⟨h.aborted ▸ ha,hr (h.aborted ▸ ha)⟩⟩
  · exact ⟨d,by rw [setComp_comp, if_neg hi, hd],rfl,rfl,rfl,fun ha => ⟨ha,fun _ _ h => h⟩⟩

theorem Retasked.gets (h : Retasked compute outcomeAt x c c') {r : Req K V} {e : Evaluated K V}
    (hg : Gets (x.setComp j c') r e) : Gets x r e := by
  rcases hg with hg | ⟨i,d,hp,hd,ht⟩
  · exact .inl hg
  · rw [setComp_comp] at hd
    split at hd
    · cases hd
      exact absurd ht (h.returned _)
    · exact .inr ⟨i,d,hp,hd,ht⟩

end Retask

theorem back_record (comp : ℕ → Option (Computation K V C)) (previous : Option (Evaluated K V)) :
    (back previous).record comp = previous := by
  cases previous <;> rfl

theorem back_not_running (previous : Option (Evaluated K V)) (j : ℕ) :
    back previous ≠ .running j := by
  cases previous <;> simp [back]

/-- A running node belongs to the computation that runs it. -/
theorem CoreInv.running_key (hx : CoreInv compute outcomeAt x) {k : K} {j : ℕ} {dirty : Bool}
    {c : Computation K V C} (hn : x.nodes k = some ⟨.running j,dirty⟩) (hc : x.comp j = some c) :
    c.key = k := by
  obtain ⟨d,hd,hk,-⟩ := hx.running k j dirty hn
  obtain rfl := Option.some.inj (hc.symm.trans hd)
  exact hk

/-- Records of nodes that run other computations. -/
theorem setComp_record {k : K} {j : ℕ} {c : Computation K V C}
    (h : ∀ dirty, x.nodes k ≠ some ⟨.running j,dirty⟩) : (x.setComp j c).record k = x.record k := by
  unfold Core.record
  change (x.nodes k).bind _ = _
  cases hn : x.nodes k with
  | none => rfl
  | some n =>
    obtain ⟨state,dirty⟩ := n
    cases state with
    | running i =>
      have hi : i ≠ j := by
        rintro rfl
        exact h dirty hn
      simp [State.record, setComp_comp, hi]
    | _ => rfl

section Nodes
variable [DecidableEq K] {k : K} {j : ℕ} {c : Computation K V C} {n : Node K V}

theorem setNode_record_ne {k' : K} (h : k' ≠ k) : (x.setNode k n).record k' = x.record k' := by
  unfold Core.record
  rw [setNode_nodes, if_neg h]
  rfl

theorem setNode_record_self : (x.setNode k n).record k = n.state.record x.comp := by
  unfold Core.record
  rw [setNode_nodes, if_pos rfl]
  rfl

theorem setNode_marked (k' : K) :
    (x.setNode k n).Marked k' ↔ if k' = k then n.dirty = true else x.Marked k' := by
  unfold Core.Marked
  rw [setNode_nodes]
  split
  · simp
  · rfl

/-- A computation is started on a node that is not running. -/
structure Begins (compute : K → Comp K V C) (x : Core K V C) (k : K) (j : ℕ)
    (c : Computation K V C) : Prop where
  fresh : x.comp j = none
  node : x.nodes k = some ⟨back c.previous,c.dirty⟩
  key : c.key = k
  version : c.version ≤ x.version
  old : ∀ p, c.previous = some p → p.verifiedAt < c.version
  aborted : c.aborted = false
  task : c.task = first compute k c.previous c.dirty

def started (x : Core K V C) (k : K) (j : ℕ) (c : Computation K V C) : Core K V C :=
  (x.setComp j c).setNode k ⟨.running j,false⟩

omit [DecidableEq K] in
theorem Begins.idle (h : Begins compute x k j c) {i : ℕ} {dirty : Bool} :
    x.nodes k ≠ some ⟨.running i,dirty⟩ := by
  rw [h.node]
  intro he
  exact back_not_running c.previous i (congrArg Node.state (Option.some.inj he))

omit [DecidableEq K] in
theorem Begins.nodes_ne (h : Begins compute x k j c) {k' : K} {i : ℕ} {dirty : Bool}
    (hn : x.nodes k' = some ⟨.running i,dirty⟩) : k' ≠ k := by
  rintro rfl
  exact h.idle hn

omit [DecidableEq K] in
theorem Begins.comp_ne (h : Begins compute x k j c) {i : ℕ} {d : Computation K V C}
    (hd : x.comp i = some d) : i ≠ j := by
  rintro rfl
  rw [h.fresh] at hd
  cases hd

theorem Begins.inner (h : Begins compute x k j c) (hx : CoreInv compute outcomeAt x) :
    Inner x (started x k j c) := by
  refine ⟨rfl,rfl,rfl,fun k' => ?_⟩
  by_cases hk : k' = k
  · subst hk
    rw [started, setNode_record_self]
    have hold : x.record k' = c.previous := by
      rw [Core.record, h.node]
      exact back_record _ _
    rw [hold]
    simp [State.record, setComp_comp]
  · rw [started, setNode_record_ne hk]
    refine setComp_record fun dirty hn => ?_
    obtain ⟨d,hd,-⟩ := hx.running k' j dirty hn
    exact h.comp_ne hd rfl

theorem started_taken_self :
    (started x k j c).Taken k ↔ c.dirty = true := by
  have hn : (started x k j c).nodes k = some ⟨.running j,false⟩ := by
    rw [started, setNode_nodes, if_pos rfl]
  have hc : (started x k j c).comp j = some c := by
    change (x.setComp j c).comp j = some c
    rw [setComp_comp, if_pos rfl]
  constructor
  · rintro ⟨i,dirty,d,hi,hd,hdirty⟩
    rw [hn] at hi
    cases hi
    rw [hc] at hd
    cases hd
    exact hdirty
  · exact fun hd => ⟨j,false,c,hn,hc,hd⟩

theorem Begins.taken_ne (h : Begins compute x k j c) (hx : CoreInv compute outcomeAt x) {k' : K}
    (hk : k' ≠ k) : (started x k j c).Taken k' ↔ x.Taken k' := by
  unfold Core.Taken
  have hn : (started x k j c).nodes k' = x.nodes k' := by rw [started, setNode_nodes, if_neg hk]; rfl
  rw [hn]
  constructor
  · rintro ⟨i,dirty,d,hi,hd,hdirty⟩
    obtain ⟨d',hd',-⟩ := hx.running k' i dirty hi
    change (x.setComp j c).comp i = some d at hd
    rw [setComp_comp, if_neg (h.comp_ne hd')] at hd
    exact ⟨i,dirty,d,hi,hd,hdirty⟩
  · rintro ⟨i,dirty,d,hi,hd,hdirty⟩
    refine ⟨i,dirty,d,hi,?_,hdirty⟩
    change (x.setComp j c).comp i = some d
    rw [setComp_comp, if_neg (h.comp_ne hd), hd]

theorem started_marked (k' : K) :
    (started x k j c).Marked k' ↔ k' ≠ k ∧ x.Marked k' := by
  rw [started, setNode_marked]
  split
  · next hk => simp [hk]
  · next hk =>
    simp only [ne_eq, hk, not_false_eq_true, true_and]
    rfl

theorem started_comp (i : ℕ) : (started x k j c).comp i = if i = j then some c else x.comp i :=
  setComp_comp x j i c

omit [DecidableEq K] in
/-- A computation that has just been started has read nothing. -/
theorem Begins.taskOk (h : Begins compute x k j c) : TaskOk compute outcomeAt x' c := by
  unfold TaskOk
  rw [h.task]
  cases hp : c.previous with
  | none => exact ⟨[],.inl (by simp),⟨h.key ▸ .refl _,by simp⟩⟩
  | some p =>
    cases hd : c.dirty with
    | true => exact ⟨[],.inl (by simp),⟨h.key ▸ .refl _,by simp⟩⟩
    | false => exact ⟨p,rfl,rfl,rfl,by simp⟩

omit [DecidableEq K] in
theorem first_unfinished (compute : K → Comp K V C) (k : K) (previous : Option (Evaluated K V)) (dirty : Bool) :
    (first compute k previous dirty).unfinished = true := by
  cases previous with
  | none => rfl
  | some p => cases dirty <;> rfl

theorem Begins.coreInv (h : Begins compute x k j c) (hx : CoreInv compute outcomeAt x) :
    CoreInv compute outcomeAt (started x k j c) := by
  have hin := h.inner hx
  have hnodes : ∀ k', k' ≠ k → (started x k j c).nodes k' = x.nodes k' := fun k' hk => by
    rw [started, setNode_nodes, if_neg hk]
    rfl
  have hself : (started x k j c).nodes k = some ⟨.running j,false⟩ := by
    rw [started, setNode_nodes, if_pos rfl]
  have hmark : c.dirty = true → x.Marked k := fun hd => ⟨_,h.node,hd⟩
  have hrec : x.record k = c.previous := by
    rw [Core.record, h.node]
    exact back_record _ _
  refine ⟨hx.changes,hin.records hx (fun k' hk => ?_) (fun k' hk => ?_) fun k' hk => ?_,
    fun i d hd => ?_,fun k' i dirty hn => ?_,fun i d hd ha hu => ?_⟩
  · by_cases hkk : k' = k
    · subst hkk
      obtain ⟨n,hn,hd⟩ := hk
      rw [h.node] at hn
      cases hn
      exact .inr (started_taken_self.mpr hd)
    · exact .inl ((started_marked k').mpr ⟨hkk,hk⟩)
  · have hkk : k' ≠ k := by
      obtain ⟨i,dirty,d,hn,-⟩ := hk
      exact h.nodes_ne hn
    exact .inr ((h.taken_ne hx hkk).mpr hk)
  · rcases hk with hk | hk
    · exact .inl ((started_marked k').mp hk).2
    · by_cases hkk : k' = k
      · subst hkk
        exact .inl (hmark (started_taken_self.mp hk))
      · exact .inr ((h.taken_ne hx hkk).mp hk)
  · rw [started_comp] at hd
    split at hd
    · cases hd
      refine ⟨h.version,⟨_,by rw [h.key]; exact hself⟩,fun p hp => ⟨h.old p hp,fun q hq => ?_⟩,
        fun _ => h.taskOk,fun r hr => ?_⟩
      · obtain ⟨cells,-,hrep⟩ := (hx.records k p (hrec.trans hp)).replayed
        obtain ⟨e,he,-,hle,-⟩ := (hrep.seen q hq).record
        exact ⟨e,(hin.record _).trans he,hle⟩
      · have hu := first_unfinished compute k c.previous c.dirty
        rw [← h.task, hr] at hu
        cases hu
    · have hok := hx.comps i d hd
      refine hok.mono hx hin.grows ?_ fun ha hu => ?_
      · obtain ⟨n,hn⟩ := hok.node
        by_cases hk : d.key = k
        · exact ⟨_,by rw [hk]; exact hself⟩
        · exact ⟨n,(hnodes _ hk).trans hn⟩
      · obtain ⟨dirty,hn⟩ := hx.live i d hd ha hu
        exact fun cells => hin.own fun hm => (started_marked _).mpr ⟨h.nodes_ne hn,hm⟩
  · by_cases hk : k' = k
    · subst hk
      rw [hself] at hn
      cases hn
      exact ⟨c,by rw [started_comp, if_pos rfl],h.key,h.aborted,h.task ▸ first_unfinished _ _ _ _,
        by simp⟩
    · rw [hnodes k' hk] at hn
      obtain ⟨d,hd,hrest⟩ := hx.running k' i dirty hn
      exact ⟨d,by rw [started_comp, if_neg (h.comp_ne hd), hd],hrest⟩
  · rw [started_comp] at hd
    split at hd
    · next hi =>
      cases hd
      exact ⟨false,by rw [h.key, hi]; exact hself⟩
    · obtain ⟨dirty,hn⟩ := hx.live i d hd ha hu
      exact ⟨dirty,(hnodes _ (h.nodes_ne hn)).trans hn⟩

theorem Begins.evolves (h : Begins compute x k j c) :
    Evolves outcomeAt x outcomeAt (started x k j c) := fun i d hd =>
  ⟨d,by rw [started_comp, if_neg (h.comp_ne hd), hd],rfl,rfl,rfl,fun ha => ⟨ha,fun _ _ h => h⟩⟩

theorem Begins.gets (h : Begins compute x k j c) {r : Req K V} {e : Evaluated K V}
    (hg : Gets (started x k j c) r e) : Gets x r e := by
  rcases hg with hg | ⟨i,d,hp,hd,ht⟩
  · exact .inl hg
  · rw [started_comp] at hd
    split at hd
    · cases hd
      have hu := first_unfinished compute k c.previous c.dirty
      rw [← h.task, ht] at hu
      cases hu
    · exact .inr ⟨i,d,hp,hd,ht⟩

/-- A running computation is given up: the node goes back, with its mark. -/
def givenUp (x : Core K V C) (k : K) (j : ℕ) (c : Computation K V C) (dirty : Bool) : Core K V C :=
  (x.setComp j { c with aborted := true }).setNode k ⟨back c.previous,dirty || c.dirty⟩

theorem givenUp_comp (dirty : Bool) (i : ℕ) : (givenUp x k j c dirty).comp i =
    if i = j then some { c with aborted := true } else x.comp i := setComp_comp x j i _

section GivenUp
variable {dirty : Bool} (hx : CoreInv compute outcomeAt x)
  (hn : x.nodes k = some ⟨.running j,dirty⟩) (hc : x.comp j = some c)
include hx hn hc

omit [DecidableEq K] in
theorem running_unique {k' : K} {dirty' : Bool} (hn' : x.nodes k' = some ⟨.running j,dirty'⟩) :
    k' = k := (hx.running_key hn' hc).symm.trans (hx.running_key hn hc)

theorem givenUp_inner : Inner x (givenUp x k j c dirty) := by
  refine ⟨rfl,rfl,rfl,fun k' => ?_⟩
  by_cases hk : k' = k
  · subst hk
    rw [givenUp, setNode_record_self, back_record, Core.record, hn]
    simp [State.record, hc]
  · rw [givenUp, setNode_record_ne hk]
    exact setComp_record fun d hd => hk (running_unique hx hn hc hd)

omit hx in
theorem givenUp_marked (k' : K) : (givenUp x k j c dirty).Marked k' ↔
    if k' = k then x.Marked k ∨ x.Taken k else x.Marked k' := by
  rw [givenUp, setNode_marked]
  split
  · simp only [Bool.or_eq_true]
    refine or_congr ⟨fun hd => ⟨_,hn,hd⟩,?_⟩ ⟨fun hd => ⟨j,dirty,c,hn,hc,hd⟩,?_⟩
    · rintro ⟨n,hn',hd⟩
      rw [hn] at hn'
      cases hn'
      exact hd
    · rintro ⟨i,d,c',hn',hc',hd⟩
      rw [hn] at hn'
      cases hn'
      rw [hc] at hc'
      cases hc'
      exact hd
  · rfl

theorem givenUp_taken (k' : K) : (givenUp x k j c dirty).Taken k' ↔ k' ≠ k ∧ x.Taken k' := by
  unfold Core.Taken
  rw [givenUp, setNode_nodes]
  split
  · next hk =>
    refine iff_of_false ?_ fun h => h.1 hk
    rintro ⟨i,d,c',hn',-⟩
    exact back_not_running _ _ (congrArg Node.state (Option.some.inj hn'))
  · next hk =>
    simp only [ne_eq, hk, not_false_eq_true, true_and]
    have hcomp : ∀ i d, x.nodes k' = some ⟨.running i,d⟩ →
        (x.setComp j { c with aborted := true }).comp i = x.comp i := by
      intro i d hi
      have hne : i ≠ j := by
        rintro rfl
        exact hk (running_unique hx hn hc hi)
      rw [setComp_comp, if_neg hne]
    constructor
    · rintro ⟨i,d,c',hi,hc',hd⟩
      exact ⟨i,d,c',hi,(hcomp i d hi).symm.trans hc',hd⟩
    · rintro ⟨i,d,c',hi,hc',hd⟩
      exact ⟨i,d,c',hi,(hcomp i d hi).trans hc',hd⟩

theorem givenUp_coreInv : CoreInv compute outcomeAt (givenUp x k j c dirty) := by
  have hin := givenUp_inner hx hn hc
  have hmk := givenUp_marked hn hc
  have htk := givenUp_taken hx hn hc
  have hmono : ∀ k', x.Marked k' → (givenUp x k j c dirty).Marked k' := by
    intro k' hm
    rw [hmk]
    split
    · next hk => exact .inl (hk ▸ hm)
    · exact hm
  have hnodes : ∀ k', k' ≠ k → (givenUp x k j c dirty).nodes k' = x.nodes k' := fun k' hk => by
    rw [givenUp, setNode_nodes, if_neg hk]
    rfl
  have hnode : ∀ k', (∃ n, x.nodes k' = some n) → ∃ n, (givenUp x k j c dirty).nodes k' = some n := by
    rintro k' ⟨n,hn'⟩
    rw [givenUp, setNode_nodes]
    split
    · exact ⟨_,rfl⟩
    · exact ⟨n,hn'⟩
  refine ⟨hx.changes,hin.records hx (fun k' hk => .inl (hmono k' hk)) (fun k' hk => ?_)
    (fun k' hk => ?_),fun i d hd => ?_,fun k' i d hn' => ?_,fun i d hd ha hu => ?_⟩
  · rw [hmk, htk]
    by_cases hkk : k' = k
    · rw [if_pos hkk]
      exact .inl (.inr (hkk ▸ hk))
    · exact .inr ⟨hkk,hk⟩
  · rw [hmk, htk] at hk
    by_cases hkk : k' = k
    · rw [if_pos hkk] at hk
      subst hkk
      exact hk.elim id fun h => absurd rfl h.1
    · rw [if_neg hkk] at hk
      exact hk.imp_right And.right
  · rw [givenUp_comp] at hd
    split at hd
    · cases hd
      have hok := hx.comps j c hc
      refine ⟨hok.version,hnode _ hok.node,fun p hp => ⟨(hok.previous p hp).1,fun q hq => ?_⟩,
        fun ha => absurd ha (by simp),fun r hr => ?_⟩
      · rw [hin.record]
        exact (hok.previous p hp).2 q hq
      · obtain ⟨e,he,hv,hh⟩ := hok.returned r hr
        exact ⟨e,he,hv,hh.mono hx hin.grows⟩
    · exact (hx.comps i d hd).mono hx hin.grows (hnode _ (hx.comps i d hd).node)
        fun _ _ _ => hin.own (hmono _)
  · by_cases hk : k' = k
    · rw [givenUp, setNode_nodes, if_pos hk] at hn'
      exact absurd (congrArg Node.state (Option.some.inj hn')) (back_not_running _ _)
    · rw [hnodes k' hk] at hn'
      have hi : i ≠ j := by
        rintro rfl
        exact hk (running_unique hx hn hc hn')
      rw [givenUp_comp, if_neg hi]
      exact hx.running k' i d hn'
  · rw [givenUp_comp] at hd
    split at hd
    · cases hd
      cases ha
    · next hi =>
      obtain ⟨d',hn'⟩ := hx.live i d hd ha hu
      refine ⟨d',(hnodes _ fun hk => ?_).trans hn'⟩
      rw [hk, hn] at hn'
      cases hn'
      exact hi rfl

omit hx hn in
theorem givenUp_evolves : Evolves outcomeAt x outcomeAt (givenUp x k j c dirty) := by
  intro i d hd
  by_cases hi : i = j
  · subst hi
    obtain rfl := Option.some.inj (hc.symm.trans hd)
    exact ⟨{ c with aborted := true },by rw [givenUp_comp, if_pos rfl],rfl,rfl,rfl,
      fun ha => absurd ha (by simp)⟩
  · exact ⟨d,by rw [givenUp_comp, if_neg hi, hd],rfl,rfl,rfl,fun ha => ⟨ha,fun _ _ h => h⟩⟩

omit hx hn in
theorem givenUp_gets {r : Req K V} {e : Evaluated K V} (hg : Gets (givenUp x k j c dirty) r e) :
    Gets x r e := by
  rcases hg with hg | ⟨i,d,hp,hd,ht⟩
  · exact .inl hg
  · rw [givenUp_comp] at hd
    split at hd
    · next hi =>
      cases hd
      exact .inr ⟨i,c,hp,hi ▸ hc,ht⟩
    · exact .inr ⟨i,d,hp,hd,ht⟩

end GivenUp

/-- A result is put in place. -/
def published (x : Core K V C) (j : ℕ) (c : Computation K V C) (e : Evaluated K V) (dirty : Bool) :
    Core K V C :=
  (x.setComp j (c.at (.returned (.ok e)))).setNode c.key ⟨.done e,dirty⟩

/-- The history with the outcome of a new record. -/
def extend (outcomeAt : History K V) (k : K) (e : Evaluated K V) : History K V :=
  fun k' n => if k' = k ∧ n = e.changedAt then e.outcome else outcomeAt k' n

section Published
variable {dirty : Bool} {e : Evaluated K V} (hx : CoreInv compute outcomeAt x)
  (hn : x.nodes c.key = some ⟨.running j,dirty⟩) (hc : x.comp j = some c)
  (ha : c.aborted = false) (ht : c.task = .publish e)

theorem published_comp (i : ℕ) : (published x j c e dirty).comp i =
    if i = j then some (c.at (.returned (.ok e))) else x.comp i := setComp_comp x j i _

theorem published_record_self : (published x j c e dirty).record c.key = some e :=
  setNode_record_self

theorem published_marked (hn : x.nodes c.key = some ⟨.running j,dirty⟩) (k' : K) :
    (published x j c e dirty).Marked k' ↔ x.Marked k' := by
  rw [published, setNode_marked]
  split
  · next hk =>
    subst hk
    unfold Core.Marked
    rw [hn]
    simp
  · rfl

include hx hn hc

theorem published_record_ne {k' : K} (hk : k' ≠ c.key) :
    (published x j c e dirty).record k' = x.record k' := by
  rw [published, setNode_record_ne hk]
  exact setComp_record fun d hd => hk (running_unique hx hn hc hd)

omit [DecidableEq K] hx in
theorem running_record : x.record c.key = c.previous := by
  rw [Core.record, hn]
  simp [State.record, hc]

include ha ht

omit [DecidableEq K] in
theorem publish_ok : e.verifiedAt = c.version ∧ e.changedAt ≤ e.verifiedAt ∧
    (e.changedAt = c.version ∨ ∃ p, c.previous = some p ∧ e.changedAt = p.changedAt ∧
      e.outcome = p.outcome) ∧ ∃ cells, x.Own c.key cells ∧
    Replayed compute outcomeAt x c.key c.version e.deps (.ret e.outcome) cells := by
  have htask := (hx.comps j c hc).task ha
  rw [TaskOk, ht] at htask
  obtain ⟨hv,hch,hcells⟩ := htask
  refine ⟨hv,?_,hch,hcells⟩
  rcases hch with hch | ⟨p,hp,hch,-⟩
  · omega
  · have hrec := (running_record hn hc).trans hp
    have h1 := (hx.records _ p hrec).fresh.1
    have h2 := ((hx.comps j c hc).previous p hp).1
    omega

theorem published_doomed (h : x.Doomed) : (published x j c e dirty).Doomed := by
  obtain ⟨ch,hch,v,e',hs,he,hle⟩ := h
  by_cases hk : ch.key = c.key
  · have hv := (publish_ok hx hn hc ha ht).1
    have hp : c.previous = some e' := (running_record hn hc).symm.trans (hk ▸ he)
    have hlt := ((hx.comps j c hc).previous e' hp).1
    exact ⟨ch,hch,v,e,hs,by rw [hk]; exact published_record_self,by omega⟩
  · exact ⟨ch,hch,v,e',hs,by rw [published_record_ne hx hn hc hk]; exact he,hle⟩

theorem published_grows :
    Grows compute outcomeAt x (extend outcomeAt c.key e) (published x j c e dirty) := by
  obtain ⟨hv,-,hch,-⟩ := publish_ok hx hn hc ha ht
  refine ⟨le_refl _,fun k' p hp => ?_,fun k' n p hp hle => ?_,fun d w v _ hg => ?_⟩
  · by_cases hk : k' = c.key
    · subst hk
      have hprev := (running_record hn hc).symm.trans hp
      have hlt := ((hx.comps j c hc).previous p hprev).1
      refine ⟨e,published_record_self,.inr ⟨by omega,?_⟩⟩
      rcases hch with hch | ⟨p',hp',hch,-⟩
      · exact .inr (hch.trans hv.symm)
      · obtain rfl := Option.some.inj (hprev.symm.trans hp')
        exact .inl hch
    · exact ⟨p,by rw [published_record_ne hx hn hc hk]; exact hp,.inl rfl⟩
  · unfold extend
    split
    · next heq =>
      obtain ⟨rfl,rfl⟩ := heq
      have hprev := (running_record hn hc).symm.trans hp
      have hlt := ((hx.comps j c hc).previous p hprev).1
      have hf := (hx.records _ p hp).fresh.1
      rcases hch with hch | ⟨p',hp',hch,ho⟩
      · omega
      · obtain rfl := Option.some.inj (hprev.symm.trans hp')
        rw [ho, hch]
        exact (hx.records _ p hp).outcome.symm
    · rfl
  · exact hg.imp_left (published_doomed hx hn hc ha ht)

/-- A record put in place at a version no finished change is later than is the
value from scratch. -/
theorem published_good :
    (published x j c e dirty).Good compute c.key e.outcome e.verifiedAt := by
  obtain ⟨hv,-,-,cells,hown,hrep⟩ := publish_ok hx hn hc ha ht
  by_cases hd : (published x j c e dirty).Doomed
  · exact .inl hd
  by_cases hu : (published x j c e dirty).Unbumped
  · exact .inr (.inl hu)
  refine .inr (.inr fun hl => ?_)
  have hl' : x.Late c.version := hv ▸ hl
  refine hrep.follows.evals ?_ ?_
  · rcases hown with hown | ⟨n,hn',hdirty⟩ | ⟨ch,hch,hk,hm⟩
    · exact hown
    · rw [hn] at hn'
      cases hn'
      obtain ⟨c',hc',-,-,-,hel⟩ := hx.running _ j dirty hn
      obtain rfl := Option.some.inj (hc.symm.trans hc')
      exact absurd (hel hdirty) (Core.late_early hl')
    · cases hst : ch.stage with
      | set => exact absurd ⟨ch,hch,by rw [hst]; rfl⟩ hu
      | looked found => exact absurd ⟨ch,hch,by rw [hst]; rfl⟩ hu
      | bumped found v =>
        have hfound : found = true := by simpa [hst, Stage.marks] using hm
        subst hfound
        refine absurd ⟨ch,hch,v,e,hst,by rw [hk]; exact published_record_self,?_⟩ hd
        exact hl ch hch v (by rw [hst]; rfl)
      | done v => simp [hst, Stage.marks] at hm
  · rintro d w ⟨n,hmem,rfl⟩
    rcases (hrep.seen _ hmem).good with hg | hg | hg
    · exact absurd (published_doomed hx hn hc ha ht hg) hd
    · exact absurd hg hu
    · exact hg hl'

theorem published_held : Held compute (extend outcomeAt c.key e) (published x j c e dirty) c.key e := by
  obtain ⟨hv,-,-,-⟩ := publish_ok hx hn hc ha ht
  have ho : extend outcomeAt c.key e c.key e.changedAt = e.outcome := by simp [extend]
  refine ⟨hv ▸ (hx.comps j c hc).version,ho,
    ⟨e,published_record_self,le_refl _,le_refl _,.inl rfl⟩,?_⟩
  rw [ho]
  exact published_good hx hn hc ha ht

omit ha ht in
theorem published_taken (k' : K) :
    (published x j c e dirty).Taken k' ↔ k' ≠ c.key ∧ x.Taken k' := by
  unfold Core.Taken
  rw [published, setNode_nodes]
  split
  · next hk =>
    refine iff_of_false ?_ fun h => h.1 hk
    rintro ⟨i,d,c',hn',-⟩
    cases hn'
  · next hk =>
    simp only [ne_eq, hk, not_false_eq_true, true_and]
    have hcomp : ∀ i d, x.nodes k' = some ⟨.running i,d⟩ →
        (x.setComp j (c.at (.returned (.ok e)))).comp i = x.comp i := by
      intro i d hi
      have hne : i ≠ j := by
        rintro rfl
        exact hk (running_unique hx hn hc hi)
      rw [setComp_comp, if_neg hne]
    constructor
    · rintro ⟨i,d,c',hi,hc',hd⟩
      exact ⟨i,d,c',hi,(hcomp i d hi).symm.trans hc',hd⟩
    · rintro ⟨i,d,c',hi,hc',hd⟩
      exact ⟨i,d,c',hi,(hcomp i d hi).trans hc',hd⟩

theorem published_recordOk :
    RecordOk compute (extend outcomeAt c.key e) (published x j c e dirty) c.key e := by
  obtain ⟨hv,hch,-,cells,hown,hrep⟩ := publish_ok hx hn hc ha ht
  have hheld := published_held hx hn hc ha ht
  have hg := published_grows hx hn hc ha ht
  refine ⟨⟨hch,hheld.version⟩,hheld.outcome,published_good hx hn hc ha ht,
    ⟨cells,.inl ?_,hv ▸ hrep.mono hx hg⟩,fun hm => ?_⟩
  · exact hown.imp_right (Or.imp_left (published_marked hn _).mpr)
  · rcases hm with hm | hm
    · obtain ⟨n,hn',hd⟩ := (published_marked hn _).mp hm
      rw [hn] at hn'
      cases hn'
      obtain ⟨c',hc',-,-,-,hel⟩ := hx.running _ j dirty hn
      obtain rfl := Option.some.inj (hc.symm.trans hc')
      rw [hv]
      exact hel hd
    · exact absurd rfl ((published_taken hx hn hc _).mp hm).1

theorem published_coreInv :
    CoreInv compute (extend outcomeAt c.key e) (published x j c e dirty) := by
  have hg := published_grows hx hn hc ha ht
  have hmk := published_marked (x := x) (j := j) (c := c) (e := e) hn
  have htk := published_taken (e := e) hx hn hc
  have hnodes : ∀ k', k' ≠ c.key → (published x j c e dirty).nodes k' = x.nodes k' :=
    fun k' hk => by
      rw [published, setNode_nodes, if_neg hk]
      rfl
  have hnode : ∀ k', (∃ n, x.nodes k' = some n) →
      ∃ n, (published x j c e dirty).nodes k' = some n := by
    rintro k' ⟨n,hn'⟩
    rw [published, setNode_nodes]
    split
    · exact ⟨_,rfl⟩
    · exact ⟨n,hn'⟩
  have hown : ∀ k' cells, x.Own k' cells → (published x j c e dirty).Own k' cells :=
    fun k' cells ho => ho.imp_right (Or.imp_left (hmk k').mpr)
  refine ⟨hx.changes,fun k' e' he' => ?_,fun i d hd => ?_,fun k' i d hn' => ?_,
    fun i d hd hd' hu => ?_⟩
  · by_cases hk : k' = c.key
    · subst hk
      obtain rfl := Option.some.inj (published_record_self.symm.trans he')
      exact published_recordOk hx hn hc ha ht
    · rw [published_record_ne hx hn hc hk] at he'
      have hok := hx.records k' e' he'
      refine hok.mono hx hg he' (fun cells ho => ?_) fun hm => ?_
      · exact ho.imp (hown k' cells) fun h => (htk k').mpr ⟨hk,h⟩
      · exact hok.marked (hm.imp (hmk k').mp fun h => ((htk k').mp h).2)
  · rw [published_comp] at hd
    split at hd
    · cases hd
      have hok := hx.comps j c hc
      refine ⟨hok.version,hnode _ hok.node,fun p hp => ⟨(hok.previous p hp).1,fun q hq => ?_⟩,
        fun _ => trivial,fun r hr => ?_⟩
      · obtain ⟨e0,he0,hle⟩ := (hok.previous p hp).2 q hq
        obtain ⟨e1,he1,hle1⟩ := hg.changedAt hx he0
        exact ⟨e1,he1,hle.trans hle1⟩
      · cases hr
        exact ⟨e,rfl,(publish_ok hx hn hc ha ht).1,published_held hx hn hc ha ht⟩
    · exact (hx.comps i d hd).mono hx hg (hnode _ (hx.comps i d hd).node) fun _ _ => hown _
  · by_cases hk : k' = c.key
    · rw [published, setNode_nodes, if_pos hk] at hn'
      cases hn'
    · rw [hnodes k' hk] at hn'
      have hi : i ≠ j := by
        rintro rfl
        exact hk (running_unique hx hn hc hn')
      rw [published_comp, if_neg hi]
      exact hx.running k' i d hn'
  · rw [published_comp] at hd
    split at hd
    · cases hd
      cases hu
    · next hi =>
      obtain ⟨d',hn'⟩ := hx.live i d hd hd' hu
      refine ⟨d',(hnodes _ fun hk => ?_).trans hn'⟩
      rw [hk, hn] at hn'
      cases hn'
      exact hi rfl

theorem published_evolves :
    Evolves outcomeAt x (extend outcomeAt c.key e) (published x j c e dirty) := by
  intro i d hd
  by_cases hi : i = j
  · subst hi
    obtain rfl := Option.some.inj (hc.symm.trans hd)
    exact ⟨c.at (.returned (.ok e)),by rw [published_comp, if_pos rfl],rfl,rfl,rfl,
      fun ha' => ⟨ha',fun _ _ _ => trivial⟩⟩
  · exact ⟨d,by rw [published_comp, if_neg hi, hd],rfl,rfl,rfl,fun ha' => ⟨ha',fun _ _ hr =>
      recorded_mono hx (published_grows hx hn hc ha ht) (hx.comps i d hd) ha' hr⟩⟩

/-- What is given to the requests that wait for the result is no older than
what their owners have recorded. -/
theorem published_gets {r : Req K V} (hr : ReqInv compute outcomeAt x r) (e' : Evaluated K V)
    (hgets : Gets (published x j c e dirty) r e') : Gets x r e' ∨ ∀ i d p n, r.owner = some i →
      x.comp i = some d → d.previous = some p → (r.key,n) ∈ p.deps → n ≤ e'.changedAt := by
  rcases hgets with hgets | ⟨i,d,hp,hd,htask⟩
  · exact .inl (.inl hgets)
  · rw [published_comp] at hd
    split at hd
    · next hi =>
      cases hd
      cases htask
      refine .inr fun i' d' p n _ hd' hp' hmem => ?_
      obtain ⟨c',hc',hkey,-⟩ := hr.await i hp
      rw [hi, hc] at hc'
      cases hc'
      obtain ⟨e0,he0,hle⟩ := ((hx.comps i' d' hd').previous p hp').2 _ hmem
      obtain ⟨e1,he1,hle1⟩ := (published_grows hx hn hc ha ht).changedAt hx he0
      rw [← hkey, published_record_self] at he1
      cases he1
      exact hle.trans hle1
    · exact .inl (.inr ⟨i,d,hp,hd,htask⟩)

end Published

end Nodes

end BuildFiji.Engine.Tasks
