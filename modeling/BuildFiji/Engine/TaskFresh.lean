import BuildFiji.Engine.TaskRuns
import BuildFiji.Engine.TaskWaits

/-!
# No invalidation is lost, in time

The memo is kept by every action taken in time. Four branches of the program
are not: a node that is marked and has been verified at the version of the
request is started at that version; a mark is stored on a node that has been
verified, or is being computed, at the version of the change; a task puts its
result in place after it was abandoned; and a wait is refused, which leaves a
read without a record.
-/

set_option autoImplicit false
set_option linter.all false

namespace BuildFiji.Engine.Tasks

variable {K V C : Type*} {compute : K → Comp K V C} {outcomeAt : History K V}

section Core
variable {s : Sys K V C} {j : ℕ} {c c' : Computation K V C}

theorem core_comp (hc : s.comps[j]? = some c) : s.core.comp j = some c.core := by
  simp [Sys.core, hc]

theorem comp_core {d : Computation K V C} (hd : s.core.comp j = some d) :
    ∃ c, s.comps[j]? = some c ∧ d = c.core := by
  obtain ⟨c,hc,rfl⟩ := Option.map_eq_some_iff.mp hd
  exact ⟨c,hc,rfl⟩

theorem core_setComp (hc : s.comps[j]? = some c) (c' : Computation K V C) :
    (s.setComp j c').core = s.core.setComp j c'.core := by
  have hlt := (List.getElem?_eq_some_iff.mp hc).1
  simp only [Sys.core, Sys.setComp, Core.setComp, Core.mk.injEq, true_and, and_true]
  funext i
  rw [Function.update_apply, List.getElem?_set]
  by_cases hi : i = j
  · simp [hi, hlt]
  · simp [hi, Ne.symm hi]

theorem core_waiters (hc : s.comps[j]? = some c) (n : ℕ) :
    (s.setComp j { c with waiters := n }).core = s.core := by
  rw [core_setComp hc]
  simp only [Core.setComp]
  have hcomp : Function.update s.core.comp j (some c.core) = s.core.comp := by
    rw [← core_comp hc]
    exact Function.update_eq_self _ _
  change { s.core with comp := Function.update s.core.comp j (some c.core) } = s.core
  rw [hcomp]

theorem core_begin [DecidableEq K] (i : ℕ) (r : Req K V) (previous : Option (Evaluated K V))
    (dirty : Bool) : (begin compute s i r previous dirty).core =
    started s.core r.key s.comps.length
      ⟨r.key,r.version,previous,dirty,0,false,first compute r.key previous dirty⟩ := by
  simp only [Sys.core, begin, Sys.setReq, Sys.setNode, started, Core.setComp, Core.setNode,
    Core.mk.injEq, true_and, and_true]
  funext i
  rw [Function.update_apply, List.getElem?_append]
  by_cases hi : i = s.comps.length
  · simp [hi, Computation.core]
  · by_cases hlt : i < s.comps.length
    · simp [hi, hlt]
    · have hgt : s.comps.length < i := by omega
      rw [if_neg hlt, if_neg hi, List.getElem?_eq_none (by simp; omega),
        List.getElem?_eq_none (by omega)]

end Core

/-- Requests keep their key and their owner. -/
def KeepsReqs (reqs reqs' : List (Req K V)) : Prop :=
  ∀ (i : ℕ) (r : Req K V), reqs[i]? = some r →
    ∃ r' : Req K V, reqs'[i]? = some r' ∧ r'.key = r.key ∧ r'.owner = r.owner

theorem keepsReqs_refl (reqs : List (Req K V)) : KeepsReqs reqs reqs := fun _ r h => ⟨r,h,rfl,rfl⟩

theorem keepsReqs_set {reqs : List (Req K V)} {i : ℕ} {r r' : Req K V} (hi : reqs[i]? = some r)
    (hk : r'.key = r.key) (ho : r'.owner = r.owner) : KeepsReqs reqs (reqs.set i r') := by
  intro n x hx
  rw [List.getElem?_set]
  split
  · next hin =>
    subst hin
    obtain rfl := Option.some.inj (hi.symm.trans hx)
    exact ⟨r',by simp [(List.getElem?_eq_some_iff.mp hi).1],hk,ho⟩
  · exact ⟨x,hx,rfl,rfl⟩

theorem keepsReqs_append (reqs rs : List (Req K V)) : KeepsReqs reqs (reqs ++ rs) := by
  intro i r hr
  exact ⟨r,by rw [List.getElem?_append_left (List.getElem?_eq_some_iff.mp hr).1, hr],rfl,rfl⟩

theorem AskedOk.mono {reqs reqs' : List (Req K V)} (hk : KeepsReqs reqs reqs') {j : ℕ}
    {task : Task K V C} (h : AskedOk reqs j task) : AskedOk reqs' j task := by
  unfold AskedOk at h ⊢
  split
  · obtain ⟨q,rest,r,ht,hr,hkey,ho⟩ := h
    obtain ⟨r',hr',hk',ho'⟩ := hk _ r hr
    exact ⟨q,rest,r',ht,hr',hk'.trans hkey,ho'.trans ho⟩
  · obtain ⟨keys,cont,hrest,hl,hp⟩ := h
    refine ⟨keys,cont,hrest,hl,fun p hpm => ?_⟩
    obtain ⟨r,hr,hkey,ho⟩ := hp p hpm
    obtain ⟨r',hr',hk',ho'⟩ := hk _ r hr
    exact ⟨r',hr',hk'.trans hkey,ho'.trans ho⟩
  · trivial

/-- The invariant after an action, from what has become of the records, the
computations and the requests. -/
theorem MemoInv.next {outcomeAt' : History K V} {s t : Sys K V C}
    (h : MemoInv compute outcomeAt s) (hc : CoreInv compute outcomeAt' t.core)
    (hg : Grows compute outcomeAt s.core outcomeAt' t.core)
    (hev : Evolves outcomeAt s.core outcomeAt' t.core)
    (hgets : ∀ r ∈ s.reqs, ∀ e, Gets t.core r e → Gets s.core r e ∨ ∀ j c p n, r.owner = some j →
      s.core.comp j = some c → c.previous = some p → (r.key,n) ∈ p.deps → n ≤ e.changedAt)
    (hreqs : ∀ r ∈ t.reqs, r ∈ s.reqs ∨ ReqInv compute outcomeAt' t.core r)
    (hasked : ∀ j c, t.core.comp j = some c → AskedOk t.reqs j c.task) :
    MemoInv compute outcomeAt' t := by
  refine ⟨hc,hasked,fun r hr => ?_⟩
  rcases hreqs r hr with hr | hr
  · exact (h.reqs r hr).mono h.core hg hev (hgets r hr)
  · exact hr

theorem mem_set {reqs : List (Req K V)} {i : ℕ} {r' x : Req K V} (P : Req K V → Prop) (hP : P r')
    (hx : x ∈ reqs.set i r') : x ∈ reqs ∨ P x := by
  rcases List.mem_or_eq_of_mem_set hx with hx | rfl
  · exact .inl hx
  · exact .inr hP

/-- A request goes to another phase. -/
theorem ReqInv.move {x : Core K V C} {r : Req K V} {phase : Phase K V}
    (h : ReqInv compute outcomeAt x r)
    (hd : ∀ o, phase = .done o → ∀ j c, r.owner = some j → x.comp j = some c → c.aborted = false →
      Recorded outcomeAt c.task r.key o)
    (ha : ∀ j, phase = .await j → ∃ c, x.comp j = some c ∧ c.key = r.key ∧ c.version = r.version)
    (hr : ∀ res, phase.result = some res → ∃ e, res = .ok e ∧ r.version ≤ e.verifiedAt ∧
      Held compute outcomeAt x r.key e)
    (hg : ∀ e, Gets x (r.at phase) e → Gets x r e ∨ ∀ j c p n, r.owner = some j →
      x.comp j = some c → c.previous = some p → (r.key,n) ∈ p.deps → n ≤ e.changedAt) :
    ReqInv compute outcomeAt x (r.at phase) := by
  refine ⟨h.version,fun j hj => ?_,ha,hr⟩
  obtain ⟨c,hc,hv,-,hfl⟩ := h.owner j hj
  refine ⟨c,hc,hv,fun hab o ho => hd o ho j c hj hc hab,fun p hp e he n hn => ?_⟩
  rcases hg e he with he | he
  · exact hfl p hp e he n hn
  · exact he j c p n hj hc hp hn

/-- A request goes to a phase that holds nothing. -/
theorem ReqInv.bare {x : Core K V C} {r : Req K V} {phase : Phase K V}
    (h : ReqInv compute outcomeAt x r) (hd : ∀ o, phase ≠ .done o) (ha : ∀ j, phase ≠ .await j)
    (hr : phase.result = none) : ReqInv compute outcomeAt x (r.at phase) := by
  refine h.move (fun o ho => absurd ho (hd o)) (fun j hj => absurd hj (ha j))
    (fun res hres => by simp [hr] at hres) fun e he => ?_
  rcases he with he | ⟨j,c,hp,-⟩
  · simp [Req.at, hr] at he
  · exact absurd hp (ha j)

/-- A request keeps its result. -/
theorem ReqInv.carry {x : Core K V C} {r : Req K V} {phase : Phase K V}
    (h : ReqInv compute outcomeAt x r) (hd : ∀ o, phase ≠ .done o) (ha : ∀ j, phase ≠ .await j)
    (hr : phase.result = r.phase.result) : ReqInv compute outcomeAt x (r.at phase) := by
  refine h.move (fun o ho => absurd ho (hd o)) (fun j hj => absurd hj (ha j))
    (fun res hres => h.result res (hr ▸ hres)) fun e he => ?_
  rcases he with he | ⟨j,c,hp,-⟩
  · exact .inl (.inl (hr ▸ he))
  · exact absurd hp (ha j)

/-- A request that has just been made. -/
theorem reqInv_new {x : Core K V C} {r : Req K V} (hv : r.version ≤ x.version)
    (hp : r.phase = .enter ∨ r.phase = .ask)
    (ho : ∀ j, r.owner = some j → ∃ c, x.comp j = some c ∧ c.version = r.version) :
    ReqInv compute outcomeAt x r := by
  obtain ⟨owner,key,version,phase⟩ := r
  refine ⟨hv,fun j hj => ?_,?_,?_⟩
  · obtain ⟨c,hc,hcv⟩ := ho j hj
    refine ⟨c,hc,hcv,?_,?_⟩
    · rcases hp with rfl | rfl <;> simp
    · rintro p - e (he | ⟨i,d,he,-⟩)
      · rcases hp with rfl | rfl <;> cases he
      · rcases hp with rfl | rfl <;> cases he
  · rcases hp with rfl | rfl <;> simp
  · rcases hp with rfl | rfl <;> simp [Phase.result]

theorem outcome_done {r : Req K V} {o : Outcome V}
    (h : (some r : Option (Req K V)).bind Req.outcome = some o) : r.phase = .done o := by
  change r.outcome = some o at h
  unfold Req.outcome at h
  split at h
  · next o' hp => exact hp.trans (congrArg _ (Option.some.inj h))
  · cases h

theorem answered {β : Type*} {f : ℕ → Option β} {keys : List K} {asked : List ℕ} {ws : List β}
    (hl : asked.length = keys.length) (h : asked.mapM f = some ws) :
    ws.length = keys.length ∧ ∀ p ∈ keys.zip ws, ∃ i, (p.1,i) ∈ keys.zip asked ∧ f i = some p.2 := by
  induction keys generalizing asked ws with
  | nil =>
    obtain rfl := List.length_eq_zero_iff.mp hl
    cases h
    exact ⟨rfl,by simp⟩
  | cons k keys ih =>
    obtain ⟨i,asked,rfl⟩ := List.exists_cons_of_length_eq_add_one hl
    rw [List.mapM_cons] at h
    obtain ⟨w,hw,h⟩ := Option.bind_eq_some_iff.mp h
    obtain ⟨ws',hws,h⟩ := Option.bind_eq_some_iff.mp h
    cases h
    obtain ⟨hlen,hall⟩ := ih (Nat.succ.inj hl) hws
    refine ⟨congrArg Nat.succ hlen,fun p hp => ?_⟩
    rcases List.mem_cons.mp hp with rfl | hp
    · exact ⟨i,List.mem_cons_self,hw⟩
    · obtain ⟨i',hi',hf⟩ := hall p hp
      exact ⟨i',List.mem_cons_of_mem _ hi',hf⟩

theorem mem_zip_range' {keys : List K} {a m : ℕ} {p : K × ℕ}
    (h : p ∈ keys.zip (List.range' a m)) : ∃ n, keys[n]? = some p.1 ∧ p.2 = a+n := by
  obtain ⟨n,hn⟩ := List.mem_iff_getElem?.mp h
  obtain ⟨hk,hr⟩ := List.getElem?_zip_eq_some.mp hn
  refine ⟨n,hk,?_⟩
  obtain ⟨hlt,heq⟩ := List.getElem?_eq_some_iff.mp hr
  rw [List.getElem_range'] at heq
  omega

theorem computed_changedAt [DecidableEq V] (previous : Option (Evaluated K V)) (version : ℕ)
    (o : Outcome V) (deps : List (K × ℕ)) :
    (Evaluated.computed previous version o deps).changedAt = version ∨
      ∃ p, previous = some p ∧ (Evaluated.computed previous version o deps).changedAt =
        p.changedAt ∧ o = p.outcome := by
  cases previous with
  | none => exact .inl rfl
  | some p =>
    by_cases hp : p.outcome = o
    · exact .inr ⟨p,rfl,by simp [Evaluated.computed, hp],hp.symm⟩
    · exact .inl (by simp [Evaluated.computed, hp])

theorem receive_ok {c : Computation K V C} {i : ℕ} {k : K} {e : Evaluated K V} {task : Task K V C}
    {phase : Phase K V} (h : receive compute c i k (.ok e) = some (task,phase)) :
    (∃ checked d o todo, c.task = .verify checked ((d,o)::todo) (some i) ∧ e.changedAt ≤ o ∧
      task = .verify (checked ++ [(d,o)]) todo none ∧ phase = .gone) ∨
    (∃ checked q todo, c.task = .verify checked (q::todo) (some i) ∧
      task = .compute [] (compute c.key) none ∧ phase = .gone) ∨
    ∃ deps comp asked, c.task = .compute deps comp (some asked) ∧
      task = .compute (deps ++ [(k,e.changedAt)]) comp (some asked) ∧ phase = .done e.outcome := by
  simp only [receive] at h
  split at h
  · next checked d o todo i' ht =>
    split at h
    · cases h
    · next hi =>
      obtain rfl : i' = i := not_not.mp hi
      split at h
      · next hle =>
        cases h
        exact .inl ⟨checked,d,o,todo,ht,hle,rfl,rfl⟩
      · cases h
        exact .inr (.inl ⟨checked,(d,o),todo,ht,rfl,rfl⟩)
  · next deps comp asked ht =>
    cases h
    exact .inr (.inr ⟨deps,comp,asked,ht,rfl,rfl⟩)
  · cases h

section Steps
variable {s : Sys K V C} (h : MemoInv compute outcomeAt s)
include h

theorem MemoInv.req {i : ℕ} {r : Req K V} (hi : s.reqs[i]? = some r) :
    ReqInv compute outcomeAt s.core r := h.reqs r (List.mem_of_getElem? hi)

theorem MemoInv.outer {t : Sys K V C} (ho : Outer compute s.core t.core) (hr : t.reqs = s.reqs) :
    MemoInv compute outcomeAt t := by
  refine h.next (ho.coreInv h.core) ho.grows ho.evolves (fun r _ e he => .inl (ho.gets he))
    (fun r hm => .inl (hr ▸ hm)) fun j c hc => ?_
  rw [ho.comp] at hc
  rw [hr]
  exact h.asked j c hc

/-- Only one request moves. -/
theorem MemoInv.moveReq {t : Sys K V C} {i : ℕ} {r r' : Req K V} (hc : t.core = s.core)
    (hi : s.reqs[i]? = some r) (hr : t.reqs = s.reqs.set i r') (hk : r'.key = r.key)
    (hown : r'.owner = r.owner) (hinv : ReqInv compute outcomeAt s.core r') :
    MemoInv compute outcomeAt t := by
  refine ⟨hc ▸ h.core,fun j c hj => ?_,fun x hx => ?_⟩
  · rw [hr]
    rw [hc] at hj
    exact (h.asked j c hj).mono (keepsReqs_set hi hk hown)
  · rw [hc]
    rw [hr] at hx
    rcases List.mem_or_eq_of_mem_set hx with hx | rfl
    · exact h.reqs x hx
    · exact hinv

theorem MemoInv.bare {t : Sys K V C} {i : ℕ} {r : Req K V} {phase : Phase K V}
    (hc : t.core = s.core) (hi : s.reqs[i]? = some r) (hr : t.reqs = s.reqs.set i (r.at phase))
    (hd : ∀ o, phase ≠ .done o) (ha : ∀ j, phase ≠ .await j) (hres : phase.result = none) :
    MemoInv compute outcomeAt t :=
  h.moveReq hc hi hr rfl rfl ((h.req hi).bare hd ha hres)

theorem MemoInv.carry {t : Sys K V C} {i : ℕ} {r : Req K V} {phase : Phase K V}
    (hc : t.core = s.core) (hi : s.reqs[i]? = some r) (hr : t.reqs = s.reqs.set i (r.at phase))
    (hd : ∀ o, phase ≠ .done o) (ha : ∀ j, phase ≠ .await j)
    (hres : phase.result = r.phase.result) : MemoInv compute outcomeAt t :=
  h.moveReq hc hi hr rfl rfl ((h.req hi).carry hd ha hres)

/-- The record of a node is what a request is given. -/
theorem MemoInv.record_held {k : K} {e : Evaluated K V} (he : s.core.record k = some e) :
    Held compute outcomeAt s.core k e := by
  have hok := h.core.records k e he
  exact ⟨hok.fresh.2,hok.outcome,⟨e,he,le_refl _,le_refl _,.inl rfl⟩,hok.outcome.symm ▸ hok.good⟩

theorem MemoInv.lookDone {i : ℕ} {r : Req K V} {e : Evaluated K V} (hi : s.reqs[i]? = some r)
    (hn : s.nodes r.key = some ⟨.done e,false⟩) (hv : r.version ≤ e.verifiedAt) :
    MemoInv compute outcomeAt (s.setReq i (r.at (.got (some (.ok e))))) := by
  have hrec : s.core.record r.key = some e := by
    change (s.nodes r.key).bind _ = some e
    rw [hn]
    rfl
  refine h.moveReq rfl hi rfl rfl rfl ((h.req hi).move (by simp) (by simp) (fun res hres => ?_)
    fun e' he' => .inr fun j c p n ho hc hp hmem => ?_)
  · cases hres
    exact ⟨e,rfl,hv,h.record_held hrec⟩
  · have heq : e' = e := by
      rcases he' with he' | ⟨_,_,hp',-⟩
      · simp only [Req.at, Phase.result, Option.some.injEq, Except.ok.injEq] at he'
        exact he'.symm
      · cases hp'
    obtain ⟨e0,he0,hle⟩ := ((h.core.comps j c hc).previous p hp).2 _ hmem
    rw [hrec] at he0
    cases he0
    exact heq ▸ hle

theorem MemoInv.lookJoin {i j : ℕ} {r : Req K V} {c : Computation K V C} {dirty : Bool}
    (hi : s.reqs[i]? = some r) (hn : s.nodes r.key = some ⟨.running j,dirty⟩)
    (hc : s.comps[j]? = some c) (hv : c.version = r.version) :
    MemoInv compute outcomeAt
      ((s.setReq i (r.at (.await j))).setComp j { c with waiters := c.waiters+1 }) := by
  have hcore : ((s.setReq i (r.at (.await j))).setComp j { c with waiters := c.waiters+1 }).core =
      s.core := core_waiters (s := s.setReq i (r.at (.await j))) hc _
  obtain ⟨d,hd,hk,-,hu,-⟩ := h.core.running r.key j dirty hn
  rw [core_comp hc] at hd
  cases hd
  refine h.moveReq hcore hi rfl rfl rfl ((h.req hi).move (by simp) (fun x hx => ?_) (by simp [Phase.result])
    fun e he => ?_)
  · cases hx
    exact ⟨c.core,core_comp hc,hk,hv⟩
  · rcases he with he | ⟨x,d,hx,hd,ht⟩
    · cases he
    · cases hx
      rw [core_comp hc] at hd
      cases hd
      rw [ht] at hu
      cases hu

theorem MemoInv.resumeAwait {i j : ℕ} {r : Req K V} {c : Computation K V C} {res : Result K V}
    (hi : s.reqs[i]? = some r) (hp : r.phase = .await j) (hc : s.comps[j]? = some c)
    (ht : c.task = .returned res) :
    MemoInv compute outcomeAt (s.setReq i (r.at (.leave j (some res)))) := by
  obtain ⟨e,rfl,hv,hh⟩ := (h.core.comps j c.core (core_comp hc)).returned res ht
  obtain ⟨d,hd,hk,hver⟩ := (h.req hi).await j hp
  rw [core_comp hc] at hd
  cases hd
  refine h.moveReq rfl hi rfl rfl rfl ((h.req hi).move (by simp) (by simp) (fun res' hres => ?_)
    fun e' he' => .inl (.inr ⟨j,c.core,hp,core_comp hc,?_⟩))
  · cases hres
    exact ⟨e,rfl,by rw [hv, hver],hk ▸ hh⟩
  · rcases he' with he' | ⟨_,_,hp',-⟩
    · simp only [Req.at, Phase.result, Option.some.injEq, Except.ok.injEq] at he'
      exact he' ▸ ht
    · cases hp'

theorem MemoInv.begin [DecidableEq K] {i : ℕ} {r : Req K V} {previous : Option (Evaluated K V)}
    {dirty : Bool} (hi : s.reqs[i]? = some r) (hn : s.nodes r.key = some ⟨back previous,dirty⟩)
    (hold : ∀ p, previous = some p → p.verifiedAt < r.version) :
    MemoInv compute outcomeAt (begin compute s i r previous dirty) := by
  have hcore : (Tasks.begin compute s i r previous dirty).core = _ := core_begin i r previous dirty
  have hk : KeepsReqs s.reqs (s.reqs.set i (r.at (.await s.comps.length))) :=
    keepsReqs_set hi rfl rfl
  have hb : Begins compute s.core r.key s.comps.length
      ⟨r.key,r.version,previous,dirty,0,false,first compute r.key previous dirty⟩ :=
    ⟨by simp [Sys.core],hn,rfl,(h.req hi).version,hold,rfl,rfl⟩
  have hfirst : ∀ (reqs : List (Req K V)) j, AskedOk reqs j (first compute r.key previous dirty) := by
    intro reqs j
    cases previous with
    | none => trivial
    | some p => cases dirty <;> trivial
  refine h.next (hcore ▸ hb.coreInv h.core) (hcore ▸ (hb.inner h.core).grows) (hcore ▸ hb.evolves)
    (fun x _ e he => .inl (hb.gets (hcore ▸ he))) (fun x hx => ?_) fun j c hc => ?_
  · refine mem_set (ReqInv compute outcomeAt (Tasks.begin compute s i r previous dirty).core) ?_ hx
    have hr := (h.req hi).mono h.core (hcore ▸ (hb.inner h.core).grows) (hcore ▸ hb.evolves)
      fun e he => .inl (hb.gets (hcore ▸ he))
    refine hr.move (by simp) (fun j hj => ?_) (by simp [Phase.result]) fun e he => ?_
    · cases hj
      exact ⟨_,by rw [hcore, started_comp, if_pos rfl],rfl,rfl⟩
    · rcases he with he | ⟨j,c,hj,hc,ht⟩
      · cases he
      · cases hj
        rw [hcore, started_comp, if_pos rfl] at hc
        cases hc
        have hu := first_unfinished compute r.key previous dirty
        dsimp only at ht
        rw [ht] at hu
        cases hu
  · rw [hcore, started_comp] at hc
    split at hc
    · cases hc
      exact hfirst _ j
    · exact (h.asked j c hc).mono hk

theorem MemoInv.lastBack [DecidableEq K] {i j : ℕ} {r : Req K V} {c : Computation K V C}
    {res : Option (Result K V)} {dirty : Bool} (hi : s.reqs[i]? = some r)
    (hp : r.phase = .last j res) (hn : s.nodes r.key = some ⟨.running j,dirty⟩)
    (hc : s.comps[j]? = some c) :
    MemoInv compute outcomeAt (((s.setReq i (r.at (.got res))).setComp j
      { c with aborted := true }).setNode r.key ⟨back c.previous,dirty || c.dirty⟩) := by
  generalize ht : ((s.setReq i (r.at (.got res))).setComp j
      { c with aborted := true }).setNode r.key ⟨back c.previous,dirty || c.dirty⟩ = t
  have hcore : t.core = givenUp s.core r.key j c.core dirty := by
    have h1 := core_setComp (s := s.setReq i (r.at (.got res))) hc { c with aborted := true }
    rw [← ht]
    change ((s.setReq i (r.at (.got res))).setComp j { c with aborted := true }).core.setNode _ _ = _
    rw [h1]
    rfl
  have hreqs : t.reqs = s.reqs.set i (r.at (.got res)) := ht ▸ rfl
  have hcc := core_comp hc
  have hk : KeepsReqs s.reqs (s.reqs.set i (r.at (.got res))) := keepsReqs_set hi rfl rfl
  have hg : Grows compute outcomeAt s.core outcomeAt (givenUp s.core r.key j c.core dirty) :=
    (givenUp_inner h.core hn hcc).grows
  have hev : Evolves outcomeAt s.core outcomeAt (givenUp s.core r.key j c.core dirty) :=
    givenUp_evolves hcc
  refine h.next (hcore ▸ givenUp_coreInv h.core hn hcc) (hcore ▸ hg) (hcore ▸ hev)
    (fun x _ e he => .inl (givenUp_gets hcc (hcore ▸ he))) (fun x hx => ?_) fun j' c' hc' => ?_
  · rw [hreqs] at hx
    refine mem_set (ReqInv compute outcomeAt t.core) ?_ hx
    have hr := (h.req hi).mono h.core (hcore ▸ hg) (hcore ▸ hev)
      fun e he => .inl (givenUp_gets hcc (hcore ▸ he))
    exact hr.carry (by simp) (by simp) (by simp [hp, Phase.result])
  · rw [hreqs]
    rw [hcore, givenUp_comp] at hc'
    split at hc'
    · next hj =>
      cases hc'
      exact (h.asked j' c.core (hj ▸ hcc)).mono hk
    · exact (h.asked j' c' hc').mono hk

/-- A task goes on, with what becomes of the requests. -/
theorem MemoInv.retask {t : Sys K V C} {j : ℕ} {c : Computation K V C}
    (c' : Computation K V C) (hc : s.comps[j]? = some c) (hcore : t.core = s.core.setComp j c'.core)
    (hrt : Retasked compute outcomeAt s.core c.core c'.core)
    (hrec : c.aborted = false → ∀ k o, Recorded outcomeAt c.task k o →
      Recorded outcomeAt c'.task k o)
    (hkeep : KeepsReqs s.reqs t.reqs) (hasked : AskedOk t.reqs j c'.task)
    (hreqs : ∀ r ∈ t.reqs, r ∈ s.reqs ∨ ReqInv compute outcomeAt t.core r) :
    MemoInv compute outcomeAt t := by
  have hcc := core_comp hc
  refine h.next (hcore ▸ hrt.coreInv hcc h.core) (hcore ▸ (hrt.inner hcc).grows)
    (hcore ▸ hrt.evolves hcc hrec) (fun x _ e he => .inl (hrt.gets (hcore ▸ he))) hreqs
    fun i d hd => ?_
  rw [hcore, setComp_comp] at hd
  split at hd
  · next hi =>
    cases hd
    exact hi ▸ hasked
  · exact (h.asked i d hd).mono hkeep

/-- A task goes on by itself. -/
theorem MemoInv.retaskOnly {j : ℕ} {c : Computation K V C} {task : Task K V C}
    (hc : s.comps[j]? = some c)
    (htask : c.aborted = false → c.task.unfinished = true ∧ task.unfinished = true ∧
      TaskOk compute outcomeAt s.core (c.core.at task))
    (hret : ∀ r, task ≠ .returned r)
    (hrec : c.aborted = false → ∀ k o, Recorded outcomeAt c.task k o → Recorded outcomeAt task k o)
    (hasked : AskedOk s.reqs j task) :
    MemoInv compute outcomeAt (s.setComp j (c.at task)) :=
  h.retask (c.at task) hc (core_setComp hc _) ⟨rfl,rfl,rfl,rfl,rfl,htask,hret⟩ hrec
    (keepsReqs_refl _) hasked fun _ hr => .inl hr

theorem MemoInv.taskOk {j : ℕ} {c : Computation K V C} (hc : s.comps[j]? = some c)
    (ha : c.aborted = false) : TaskOk compute outcomeAt s.core c.core :=
  (h.core.comps j c.core (core_comp hc)).task ha

theorem MemoInv.read {j : ℕ} {c : Computation K V C} {deps : List (K × ℕ)}
    {cont : C → Comp K V C} (hc : s.comps[j]? = some c)
    (ht : c.task = .compute deps (.cell cont) none) :
    MemoInv compute outcomeAt (s.setComp j (c.at (.compute deps (cont (s.ext c.key)) none))) := by
  refine h.retaskOnly hc (fun ha => ⟨by rw [ht]; rfl,rfl,?_⟩) (by simp)
    (fun _ k o hr => by rw [ht] at hr; exact hr) trivial
  have hok := h.taskOk hc ha
  rw [TaskOk, show c.core.task = _ from ht] at hok
  obtain ⟨cells,hown,hrep⟩ := hok
  refine ⟨s.ext c.key::cells,?_,⟨?_,hrep.seen⟩⟩
  · refine hown.imp_left fun hcells x hx => ?_
    rcases List.mem_cons.mp hx with rfl | hx
    · rfl
    · exact hcells x hx
  · have hf := hrep.follows.mono (fun x hx => List.mem_cons_of_mem (s.ext c.key) hx)
      fun d w hw => hw
    exact hf.trans (.cell (List.mem_cons_self) (.refl _))

theorem MemoInv.advanceKept {j : ℕ} {c : Computation K V C} {checked : List (K × ℕ)}
    {p : Evaluated K V} (hc : s.comps[j]? = some c) (ht : c.task = .verify checked [] none)
    (hp : c.previous = some p) :
    MemoInv compute outcomeAt (s.setComp j (c.at (.publish (p.kept c.version)))) := by
  refine h.retaskOnly hc (fun ha => ⟨by rw [ht]; rfl,rfl,?_⟩) (by simp)
    (fun _ k o hr => by rw [ht] at hr; exact hr.elim) trivial
  have hok := h.taskOk hc ha
  rw [TaskOk, show c.core.task = _ from ht] at hok
  obtain ⟨p',hp',hd,hdeps,hseen⟩ := hok
  obtain rfl := Option.some.inj (hp.symm.trans hp')
  have hcc := core_comp hc
  obtain ⟨dirty,hn⟩ := h.core.live j c.core hcc ha (by rw [show c.core.task = _ from ht]; rfl)
  have hrec : s.core.record c.key = some p := (running_record hn hcc).trans hp
  obtain ⟨cells,hown,hrep⟩ := (h.core.records _ p hrec).replayed
  have hown' : s.core.Own c.key cells := by
    refine hown.resolve_right ?_
    rintro ⟨i,d,c',hn',hc',hd'⟩
    change s.core.nodes c.core.key = _ at hn'
    rw [hn] at hn'
    cases hn'
    rw [hcc] at hc'
    cases hc'
    rw [hd] at hd'
    cases hd'
  rw [List.append_nil] at hdeps
  exact ⟨rfl,.inr ⟨p,hp,rfl,rfl⟩,cells,hown',⟨hrep.follows,fun q hq => hseen q (hdeps ▸ hq)⟩⟩

theorem MemoInv.advanceGet {j : ℕ} {c : Computation K V C} {deps : List (K × ℕ)} {keys : List K}
    {cont : List (Outcome V) → Comp K V C} {asked : List ℕ} {ws : List (Outcome V)}
    (hc : s.comps[j]? = some c) (ht : c.task = .compute deps (.get keys cont) (some asked))
    (hws : asked.mapM (fun i => (s.reqs[i]?).bind Req.outcome) = some ws) :
    MemoInv compute outcomeAt (s.setComp j (c.at (.compute deps (cont ws) none))) := by
  refine h.retaskOnly hc (fun ha => ⟨by rw [ht]; rfl,rfl,?_⟩) (by simp)
    (fun _ k o hr => by rw [ht] at hr; exact hr) trivial
  have hok := h.taskOk hc ha
  rw [TaskOk, show c.core.task = _ from ht] at hok
  obtain ⟨cells,hown,hrep⟩ := hok
  have hasked := h.asked j c.core (core_comp hc)
  rw [show c.core.task = _ from ht] at hasked
  obtain ⟨keys',cont',hrest,hl,hp⟩ := hasked
  cases hrest
  obtain ⟨hlen,hans⟩ := answered hl hws
  refine ⟨cells,hown,hrep.follows.trans (.get hlen (fun p hpm => ?_) (.refl _)),hrep.seen⟩
  obtain ⟨i,hi,ho⟩ := hans p hpm
  obtain ⟨r,hr,hk,hown'⟩ := hp (p.1,i) hi
  rw [hr] at ho
  obtain ⟨d,hd,-,hrecd,-⟩ := (h.req hr).owner j hown'
  rw [core_comp hc] at hd
  cases hd
  have hdone := hrecd ha p.2 (outcome_done ho)
  rw [show c.core.task = _ from ht, hk] at hdone
  exact hdone

theorem MemoInv.advanceRet [DecidableEq V] {j : ℕ} {c : Computation K V C}
    {deps : List (K × ℕ)} {o : Outcome V} (hc : s.comps[j]? = some c)
    (ht : c.task = .compute deps (.ret o) none) :
    MemoInv compute outcomeAt
      (s.setComp j (c.at (.publish (Evaluated.computed c.previous c.version o deps)))) := by
  refine h.retaskOnly hc (fun ha => ⟨by rw [ht]; rfl,rfl,?_⟩) (by simp)
    (fun _ _ _ _ => trivial) trivial
  have hok := h.taskOk hc ha
  rw [TaskOk, show c.core.task = _ from ht] at hok
  exact ⟨rfl,computed_changedAt c.previous c.version o deps,hok⟩

theorem MemoInv.spawnVerify {j : ℕ} {c : Computation K V C} {checked todo : List (K × ℕ)} {d : K}
    {o : ℕ} (hc : s.comps[j]? = some c) (ht : c.task = .verify checked ((d,o)::todo) none) :
    MemoInv compute outcomeAt
      { s.setComp j (c.at (.verify checked ((d,o)::todo) (some s.reqs.length))) with
        reqs := s.reqs ++ [⟨some j,d,c.version,.ask⟩] } := by
  generalize hc' : c.at (.verify checked ((d,o)::todo) (some s.reqs.length)) = c'
  have hcc := core_comp hc
  refine h.retask c' hc (core_setComp hc c') ?_ (fun _ k o hr => ?_)
    (keepsReqs_append _ _) ?_ fun r hr => ?_
  · refine hc' ▸ ⟨rfl,rfl,rfl,rfl,rfl,fun ha => ⟨by rw [show c.core.task = _ from ht]; rfl,rfl,?_⟩,by
      intro r hr; cases hr⟩
    have hok := h.taskOk hc ha
    rwa [TaskOk, show c.core.task = _ from ht] at hok
  · rw [ht] at hr
    exact hr.elim
  · rw [← hc']
    exact ⟨(d,o),todo,_,rfl,List.getElem?_concat_length,rfl,rfl⟩
  · refine (List.mem_append.mp hr).imp_right fun hr => ?_
    obtain rfl := List.mem_singleton.mp hr
    refine reqInv_new (h.core.comps j _ hcc).version (.inr rfl) fun i hi => ?_
    cases hi
    exact ⟨_,(congrFun (congrArg Core.comp (core_setComp hc c')) j).trans
      ((setComp_comp _ _ _ _).trans (if_pos rfl)),hc' ▸ rfl⟩

theorem MemoInv.spawnGet {j : ℕ} {c : Computation K V C} {deps : List (K × ℕ)} {keys : List K}
    {cont : List (Outcome V) → Comp K V C} (hc : s.comps[j]? = some c)
    (ht : c.task = .compute deps (.get keys cont) none) :
    MemoInv compute outcomeAt
      { s.setComp j (c.at (.compute deps (.get keys cont)
          (some (List.range' s.reqs.length keys.length)))) with
        reqs := s.reqs ++ keys.map fun k => ⟨some j,k,c.version,.enter⟩ } := by
  generalize hc' : c.at (.compute deps (.get keys cont)
    (some (List.range' s.reqs.length keys.length))) = c'
  have hcc := core_comp hc
  refine h.retask c' hc (core_setComp hc c') ?_ (fun _ k o hr => ?_)
    (keepsReqs_append _ _) ?_ fun r hr => ?_
  · refine hc' ▸ ⟨rfl,rfl,rfl,rfl,rfl,fun ha => ⟨by rw [show c.core.task = _ from ht]; rfl,rfl,?_⟩,by
      intro r hr; cases hr⟩
    have hok := h.taskOk hc ha
    rwa [TaskOk, show c.core.task = _ from ht] at hok
  · rw [ht] at hr
    rw [← hc']
    exact hr
  · rw [← hc']
    refine ⟨keys,cont,rfl,List.length_range',fun p hp => ?_⟩
    obtain ⟨n,hn,hi⟩ := mem_zip_range' hp
    refine ⟨⟨some j,p.1,c.version,.enter⟩,?_,rfl,rfl⟩
    rw [hi, List.getElem?_append_right (Nat.le_add_right _ _), Nat.add_sub_cancel_left,
      List.getElem?_map, hn]
    rfl
  · refine (List.mem_append.mp hr).imp_right fun hr => ?_
    obtain ⟨k,-,rfl⟩ := List.mem_map.mp hr
    refine reqInv_new (h.core.comps j _ hcc).version (.inl rfl) fun i hi => ?_
    cases hi
    exact ⟨_,(congrFun (congrArg Core.comp (core_setComp hc c')) j).trans
      ((setComp_comp _ _ _ _).trans (if_pos rfl)),hc' ▸ rfl⟩

theorem MemoInv.reap {j : ℕ} {c : Computation K V C} (hc : s.comps[j]? = some c)
    (ha : c.aborted = true) : MemoInv compute outcomeAt (s.setComp j (c.at .stopped)) :=
  h.retaskOnly hc (fun hf => absurd (ha.symm.trans hf) (by simp)) (by simp)
    (fun _ _ _ _ => trivial) trivial

theorem MemoInv.deliver [DecidableEq K] {i j : ℕ} {r : Req K V} {c : Computation K V C}
    {res : Result K V} {task : Task K V C} {phase : Phase K V} (hi : s.reqs[i]? = some r)
    (ho : r.owner = some j) (hc : s.comps[j]? = some c) (hp : r.phase = .got (some res))
    (hrec : receive compute c i r.key res = some (task,phase)) : MemoInv compute outcomeAt
      (((s.setReq i (r.at phase)).setComp j (c.at task)).unwait c.key r.key) := by
  have hinv := h.req hi
  obtain ⟨e,rfl,hver,hheld⟩ := hinv.result res (by rw [hp]; rfl)
  obtain ⟨d,hd,hdv,-,hfl⟩ := hinv.owner j ho
  rw [core_comp hc] at hd
  cases hd
  have hseen : Seen compute outcomeAt s.core r.key e.changedAt c.version :=
    hheld.seen.anti (hdv.le.trans hver)
  have hgets : Gets s.core r e := .inl (by rw [hp]; rfl)
  have hcore : (((s.setReq i (r.at phase)).setComp j (c.at task)).unwait c.key r.key).core =
      s.core.setComp j (c.at task).core := core_setComp hc _
  have hasked := h.asked j c.core (core_comp hc)
  have hok := h.taskOk hc
  have hcases := receive_ok hrec
  have hnot : ∀ x, task ≠ .returned x := by
    rintro x rfl
    rcases hcases with ⟨_,_,_,_,-,-,ht,-⟩ | ⟨_,_,_,-,ht,-⟩ | ⟨_,_,_,-,ht,-⟩ <;> cases ht
  have hrecorded : ∀ k o, Recorded outcomeAt c.task k o → Recorded outcomeAt task k o := by
    intro k o hk
    rcases hcases with ⟨_,_,_,_,ht,-⟩ | ⟨_,_,_,ht,-⟩ | ⟨deps,_,_,ht,rfl,-⟩
    · rw [ht] at hk
      exact hk.elim
    · rw [ht] at hk
      exact hk.elim
    · rw [ht] at hk
      obtain ⟨n,hn,hv⟩ := hk
      exact ⟨n,List.mem_append_left _ hn,hv⟩
  have hrt : Retasked compute outcomeAt s.core c.core (c.at task).core := by
    refine ⟨rfl,rfl,rfl,rfl,rfl,fun ha => ?_,hnot⟩
    have hok := hok ha
    unfold TaskOk at hok
    rcases hcases with ⟨checked,q,n,todo,ht,hle,rfl,-⟩ | ⟨_,_,_,ht,rfl,-⟩ | ⟨deps,comp,_,ht,rfl,-⟩
    · rw [show c.core.task = _ from ht] at hok hasked ⊢
      obtain ⟨p,hprev,hdirty,hdeps,hs⟩ := hok
      obtain ⟨q',rest,r',heq,hr',hk',-⟩ := hasked
      cases heq
      obtain rfl := Option.some.inj (hi.symm.trans hr')
      refine ⟨rfl,rfl,p,hprev,hdirty,by simp [hdeps],fun q hq => ?_⟩
      rcases List.mem_append.mp hq with hq | hq
      · exact hs q hq
      · obtain rfl := List.mem_singleton.mp hq
        have hge := hfl p hprev e hgets n (by rw [hdeps, hk']; simp)
        have heq : n = e.changedAt := le_antisymm hge hle
        change Seen compute outcomeAt s.core _ n _
        rw [heq, ← hk']
        exact hseen
    · rw [show c.core.task = _ from ht]
      exact ⟨rfl,rfl,[],.inl (by simp),⟨.refl _,by simp⟩⟩
    · rw [show c.core.task = _ from ht] at hok ⊢
      obtain ⟨cells,hown,hrep⟩ := hok
      refine ⟨rfl,rfl,cells,hown,⟨hrep.follows.mono (fun _ hx => hx) ?_,fun q hq => ?_⟩⟩
      · rintro k w ⟨n,hn,hw⟩
        exact ⟨n,List.mem_append_left _ hn,hw⟩
      · rcases List.mem_append.mp hq with hq | hq
        · exact hrep.seen q hq
        · obtain rfl := List.mem_singleton.mp hq
          exact hseen
  refine h.retask (c.at task) hc hcore hrt (fun _ => hrecorded) (keepsReqs_set hi rfl rfl)
    ?_ fun x hx => ?_
  · rcases hcases with ⟨_,_,_,_,-,-,rfl,-⟩ | ⟨_,_,_,-,rfl,-⟩ | ⟨deps,comp,_,ht,rfl,-⟩
    · trivial
    · trivial
    · rw [show c.core.task = _ from ht] at hasked
      have hk : KeepsReqs s.reqs (s.reqs.set i (r.at phase)) := keepsReqs_set hi rfl rfl
      exact hasked.mono hk
  · refine mem_set (ReqInv compute outcomeAt _) ?_ hx
    rw [hcore]
    have hmono := hinv.mono h.core (hrt.inner (core_comp hc)).grows
      (hrt.evolves (core_comp hc) fun _ => hrecorded) fun _ hg => .inl (hrt.gets hg)
    rcases hcases with ⟨_,_,_,_,-,-,-,rfl⟩ | ⟨_,_,_,-,-,rfl⟩ | ⟨deps,comp,_,ht,rfl,rfl⟩
    · exact hmono.bare (by simp) (by simp) rfl
    · exact hmono.bare (by simp) (by simp) rfl
    · refine hmono.move (fun o hdone j' c' hj' hc' _ => ?_) (by simp) (by simp [Phase.result])
        fun e' he' => ?_
      · cases hdone
        obtain rfl := Option.some.inj (ho.symm.trans hj')
        rw [setComp_comp, if_pos rfl] at hc'
        cases hc'
        exact ⟨e.changedAt,by simp,hheld.outcome⟩
      · rcases he' with he' | ⟨_,_,hp',-⟩
        · cases he'
        · cases hp'

theorem MemoInv.publish [DecidableEq K] {j : ℕ} {c : Computation K V C} {e : Evaluated K V}
    {n : Node K V} (hc : s.comps[j]? = some c) (ht : c.task = .publish e)
    (hn : s.nodes c.key = some n) (ha : c.aborted = false) :
    MemoInv compute (extend outcomeAt c.key e)
      ((s.setComp j (c.at (.returned (.ok e)))).setNode c.key ⟨.done e,n.dirty⟩) := by
  generalize hdef : (s.setComp j (c.at (.returned (.ok e)))).setNode c.key ⟨.done e,n.dirty⟩ = t
  have hcc := core_comp hc
  have htask : c.core.task = .publish e := ht
  obtain ⟨dirty,hrun⟩ := h.core.live j c.core hcc ha (by rw [htask]; rfl)
  obtain rfl := Option.some.inj (hn.symm.trans hrun)
  have hcore : t.core = published s.core j c.core e dirty := by
    have h1 := core_setComp hc (c.at (.returned (.ok e)))
    rw [← hdef]
    change (s.setComp j (c.at (.returned (.ok e)))).core.setNode _ _ = _
    rw [h1]
    rfl
  have hreqs : t.reqs = s.reqs := hdef ▸ rfl
  refine h.next (hcore ▸ published_coreInv h.core hrun hcc ha htask)
    (hcore ▸ published_grows h.core hrun hcc ha htask)
    (hcore ▸ published_evolves h.core hrun hcc ha htask)
    (fun r hr e' he' => published_gets h.core hrun hcc ha htask (h.reqs r hr) e' (hcore ▸ he'))
    (fun r hr => .inl (hreqs ▸ hr)) fun i d hd => ?_
  rw [hcore, published_comp] at hd
  rw [hreqs]
  split at hd
  · cases hd
    trivial
  · exact h.asked i d hd

theorem MemoInv.request (k : K) :
    MemoInv compute outcomeAt { s with reqs := s.reqs ++ [⟨none,k,0,.enter⟩] } := by
  refine ⟨h.core,fun j c hc => (h.asked j c hc).mono (keepsReqs_append _ _),fun r hr => ?_⟩
  rcases List.mem_append.mp hr with hr | hr
  · exact h.reqs r hr
  · obtain rfl := List.mem_singleton.mp hr
    exact reqInv_new (Nat.zero_le _) (.inl rfl) (by simp)

theorem MemoInv.askOutside {i : ℕ} {r : Req K V} (hi : s.reqs[i]? = some r) (ho : r.owner = none) :
    MemoInv compute outcomeAt (s.setReq i { r with version := s.version, phase := .look }) := by
  refine h.moveReq rfl hi rfl rfl rfl ⟨le_refl _,by simp [ho],by simp,by simp [Phase.result]⟩

theorem MemoInv.enterNew [DecidableEq K] {i : ℕ} {r : Req K V} (hi : s.reqs[i]? = some r)
    (hn : s.nodes r.key = none) :
    MemoInv compute outcomeAt ((s.setNode r.key ⟨.empty,false⟩).setReq i (r.at .ask)) := by
  have h1 : MemoInv compute outcomeAt (s.setNode r.key ⟨.empty,false⟩) :=
    h.outer (enter_outer h.core hn) rfl
  exact h1.bare rfl hi rfl (by simp) (by simp) rfl

theorem MemoInv.leave {i j : ℕ} {r : Req K V} {c : Computation K V C} {res : Option (Result K V)}
    {phase : Phase K V} (hi : s.reqs[i]? = some r) (hp : r.phase = .leave j res)
    (hc : s.comps[j]? = some c) (hphase : phase = .got res ∨ phase = .last j res) :
    MemoInv compute outcomeAt
      ((s.setComp j { c with waiters := c.waiters-1 }).setReq i (r.at phase)) := by
  refine h.carry (core_waiters hc _) hi rfl (by rcases hphase with rfl | rfl <;> simp)
    (by rcases hphase with rfl | rfl <;> simp) ?_
  rcases hphase with rfl | rfl <;> simp [hp, Phase.result]

end Steps

end BuildFiji.Engine.Tasks
