import BuildFiji.Engine.TaskSteps

/-!
# The wait graph under every interleaving

The wait edges are exactly the edges of the requests in progress: one
occurrence for each request of a task between its `wait_on` and the end of
its `Waiting`. An action adds at most one edge, and only where it closes no
cycle.
-/

set_option autoImplicit false
set_option linter.all false

namespace BuildFiji.Engine.Tasks

open BuildFiji.Digraph Relation

variable {K V C : Type*} [DecidableEq K]

/-- The phases in which a request of a task has its `Waiting`. -/
def Phase.waits : Phase K V → Bool
  | .look => true
  | .await _ => true
  | .other _ => true
  | .leave _ _ => true
  | .last _ _ => true
  | .got _ => true
  | _ => false

def Sys.keyOf (s : Sys K V C) (j : ℕ) : Option K := (s.comps[j]?).map Computation.key

/-- The request holds the edge from `a` to `b`. -/
def holds (keyOf : ℕ → Option K) (a b : K) (r : Req K V) : Bool :=
  r.phase.waits && (r.owner.bind keyOf == some a) && (r.key == b)

theorem holds_eq {keyOf : ℕ → Option K} {r : Req K V} {j : ℕ} {k : K} (ho : r.owner = some j)
    (hk : keyOf j = some k) (hp : r.phase.waits = true) (a b : K) :
    holds keyOf a b r = decide (a = k ∧ b = r.key) := by
  simp only [holds, hp, ho, Option.bind_some, hk, Bool.true_and]
  by_cases ha : a = k
  · by_cases hb : b = r.key
    · simp [ha, hb]
    · simp [ha, hb, Ne.symm hb]
  · simp [ha, Ne.symm ha]

structure ReqOk (s : Sys K V C) (r : Req K V) : Prop where
  owner : ∀ j, r.owner = some j → ∃ k, s.keyOf j = some k
  awaits : ∀ j, r.phase = .await j ∨ r.phase = .other j → s.keyOf j = some r.key

structure WaitInv (s : Sys K V C) : Prop where
  acyclic : Acyclic (adj s.waits)
  count : ∀ a b, (adj s.waits a).count b = s.reqs.countP (holds s.keyOf a b)
  reqs : ∀ r ∈ s.reqs, ReqOk s r
  nodes : ∀ k j dirty, s.nodes k = some ⟨.running j,dirty⟩ → s.keyOf j = some k

/-- Computations keep their key. -/
def KeepsKeys (s t : Sys K V C) : Prop := ∀ j k, s.keyOf j = some k → t.keyOf j = some k

omit [DecidableEq K] in
theorem ReqOk.mono {s t : Sys K V C} {r : Req K V} (hk : KeepsKeys s t) (h : ReqOk s r) :
    ReqOk t r := by
  refine ⟨fun j hj => ?_,fun j hj => hk j _ (h.awaits j hj)⟩
  obtain ⟨k,hkj⟩ := h.owner j hj
  exact ⟨k,hk j k hkj⟩

theorem holds_keys {s t : Sys K V C} (hk : KeepsKeys s t) {r : Req K V} (h : ReqOk s r) (a b : K) :
    holds t.keyOf a b r = holds s.keyOf a b r := by
  unfold holds
  cases ho : r.owner with
  | none => rfl
  | some j =>
    obtain ⟨k,hkj⟩ := h.owner j ho
    simp [hkj, hk j k hkj]

theorem count_keys {s t : Sys K V C} (hk : KeepsKeys s t) (h : ∀ r ∈ s.reqs, ReqOk s r) (a b : K) :
    s.reqs.countP (holds t.keyOf a b) = s.reqs.countP (holds s.keyOf a b) :=
  List.countP_congr fun r hr => by rw [holds_keys hk (h r hr)]

omit [DecidableEq K] in
/-- One request changes its place. -/
theorem count_set {reqs : List (Req K V)} {i : ℕ} {r : Req K V} (hr : reqs[i]? = some r)
    (p : Req K V → Bool) (r' : Req K V) :
    (reqs.set i r').countP p + (if p r then 1 else 0) = reqs.countP p + if p r' then 1 else 0 := by
  obtain ⟨hi,rfl⟩ := List.getElem?_eq_some_iff.mp hr
  rw [List.countP_set hi]
  have hpos : p reqs[i] = true → 0 < reqs.countP p :=
    fun hp => List.countP_pos_iff.mpr ⟨_,List.getElem_mem hi,hp⟩
  split_ifs with h1 h2 h2
  all_goals have := hpos
  all_goals simp_all

section Inv
variable {s t : Sys K V C}

theorem WaitInv.same (h : WaitInv s) (hk : KeepsKeys s t) (hw : t.waits = s.waits)
    (hr : t.reqs = s.reqs)
    (hn : ∀ k j dirty, t.nodes k = some ⟨.running j,dirty⟩ → t.keyOf j = some k) : WaitInv t := by
  refine ⟨hw ▸ h.acyclic,fun a b => ?_,fun r hm => ?_,hn⟩
  · rw [hw, h.count, hr, count_keys hk h.reqs]
  · rw [hr] at hm
    exact (h.reqs r hm).mono hk

theorem WaitInv.new {rs : List (Req K V)} (h : WaitInv s) (hk : KeepsKeys s t)
    (hw : t.waits = s.waits) (hr : t.reqs = s.reqs ++ rs)
    (hrs : ∀ r ∈ rs, (r.phase = .enter ∨ r.phase = .ask) ∧
      ∀ j, r.owner = some j → ∃ k, t.keyOf j = some k)
    (hn : ∀ k j dirty, t.nodes k = some ⟨.running j,dirty⟩ → t.keyOf j = some k) : WaitInv t := by
  have hwaits : ∀ r ∈ rs, r.phase.waits = false := by
    intro r hm
    rcases (hrs r hm).1 with hp | hp
    · simp [hp, Phase.waits]
    · simp [hp, Phase.waits]
  refine ⟨hw ▸ h.acyclic,fun a b => ?_,fun r hm => ?_,hn⟩
  · have hzero : rs.countP (holds t.keyOf a b) = 0 :=
      List.countP_eq_zero.mpr fun r hm => by simp [holds, hwaits r hm]
    rw [hw, h.count, hr, List.countP_append, count_keys hk h.reqs, hzero, Nat.add_zero]
  · rw [hr] at hm
    rcases List.mem_append.mp hm with hm | hm
    · exact (h.reqs r hm).mono hk
    · refine ⟨(hrs r hm).2,fun j hj => ?_⟩
      rcases (hrs r hm).1 with hp | hp <;> simp [hp] at hj

theorem reqOk_set {i : ℕ} {r' : Req K V} (h : WaitInv s) (hk : KeepsKeys s t)
    (hr : t.reqs = s.reqs.set i r') (hok : ReqOk t r') : ∀ r ∈ t.reqs, ReqOk t r := by
  intro x hx
  rw [hr] at hx
  rcases List.mem_or_eq_of_mem_set hx with hx | rfl
  · exact (h.reqs x hx).mono hk
  · exact hok

/-- A request moves without taking or giving up its edge. -/
theorem WaitInv.move {i : ℕ} {r r' : Req K V} (h : WaitInv s) (hk : KeepsKeys s t)
    (hw : t.waits = s.waits) (hi : s.reqs[i]? = some r) (hr : t.reqs = s.reqs.set i r')
    (ho : r'.owner = r.owner) (hkey : r'.key = r.key)
    (hp : r.owner ≠ none → r'.phase.waits = r.phase.waits)
    (ha : ∀ j, r'.phase = .await j ∨ r'.phase = .other j → t.keyOf j = some r.key)
    (hn : ∀ k j dirty, t.nodes k = some ⟨.running j,dirty⟩ → t.keyOf j = some k) : WaitInv t := by
  have hold : ReqOk s r := h.reqs r (List.mem_of_getElem? hi)
  have hok : ReqOk t r' := ⟨fun j hj => (hold.mono hk).owner j (ho ▸ hj),fun j hj => hkey ▸ ha j hj⟩
  refine ⟨hw ▸ h.acyclic,fun a b => ?_,reqOk_set h hk hr hok,hn⟩
  have hsame : holds t.keyOf a b r' = holds t.keyOf a b r := by
    unfold holds
    rw [ho, hkey]
    cases hown : r.owner with
    | none => simp
    | some j => rw [hp (by simp [hown])]
  have hc := count_set hi (holds t.keyOf a b) r'
  rw [hsame] at hc
  rw [hw, h.count, hr, ← count_keys hk h.reqs]
  omega

omit [DecidableEq K] in
theorem KeepsKeys.of_comps (h : t.comps = s.comps) : KeepsKeys s t := by
  intro j k hj
  rwa [Sys.keyOf, h]

omit [DecidableEq K] in
theorem KeepsKeys.set {j : ℕ} {c c' : Computation K V C} (hc : s.comps[j]? = some c)
    (h : t.comps = s.comps.set j c') (hkey : c'.key = c.key) : KeepsKeys s t := by
  intro x k hx
  rw [Sys.keyOf, h, List.getElem?_set]
  split
  · next hjx =>
    subst hjx
    obtain ⟨hlt,-⟩ := List.getElem?_eq_some_iff.mp hc
    simp only [Sys.keyOf, hc, Option.map_some, Option.some.injEq] at hx
    simp [hlt, hkey, hx]
  · exact hx

omit [DecidableEq K] in
theorem KeepsKeys.push {c : Computation K V C} (h : t.comps = s.comps ++ [c]) : KeepsKeys s t := by
  intro x k hx
  obtain ⟨c',hc',-⟩ := Option.map_eq_some_iff.mp hx
  obtain ⟨hlt,-⟩ := List.getElem?_eq_some_iff.mp hc'
  rwa [Sys.keyOf, h, List.getElem?_append_left hlt]

theorem WaitInv.phase {i : ℕ} {r : Req K V} {phase : Phase K V} (h : WaitInv s)
    (hi : s.reqs[i]? = some r) (hp : phase.waits = r.phase.waits) (ha : ∀ j, phase ≠ .await j)
    (ho : ∀ j, phase ≠ .other j) : WaitInv (s.setReq i (r.at phase)) :=
  h.move (.of_comps rfl) rfl hi rfl rfl rfl (fun _ => hp)
    (fun j hj => (hj.elim (ha j) (ho j)).elim) h.nodes

/-- The running nodes after a step that starts none. -/
theorem WaitInv.nodes_of (h : WaitInv s) (hk : KeepsKeys s t)
    (hn : ∀ k j dirty, t.nodes k = some ⟨.running j,dirty⟩ →
      ∃ dirty', s.nodes k = some ⟨.running j,dirty'⟩) :
    ∀ k j dirty, t.nodes k = some ⟨.running j,dirty⟩ → t.keyOf j = some k := by
  intro k j dirty hj
  obtain ⟨dirty',hj'⟩ := hn k j dirty hj
  exact hk j k (h.nodes k j dirty' hj')

/-- A node is given a state that is not a running one, or keeps the one it has. -/
theorem setNode_running {k : K} {n : Node K V}
    (hn : ∀ j dirty, n = ⟨.running j,dirty⟩ → ∃ dirty', s.nodes k = some ⟨.running j,dirty'⟩)
    (x : K) (j : ℕ) (dirty : Bool) (h : (s.setNode k n).nodes x = some ⟨.running j,dirty⟩) :
    ∃ dirty', s.nodes x = some ⟨.running j,dirty'⟩ := by
  simp only [Sys.setNode, Function.update_apply] at h
  split at h
  · next hx =>
    subst hx
    exact hn j dirty (Option.some.inj h)
  · exact ⟨dirty,h⟩

theorem begin_waitInv {compute : K → Comp K V C} {i : ℕ} {r : Req K V} (h : WaitInv s)
    (hi : s.reqs[i]? = some r) (hp : r.phase = .look) (previous : Option (Evaluated K V))
    (dirty : Bool) : WaitInv (begin compute s i r previous dirty) := by
  have hk : KeepsKeys s (begin compute s i r previous dirty) := .push rfl
  have hnew : (begin compute s i r previous dirty).keyOf s.comps.length = some r.key := by
    simp [Sys.keyOf, begin]
  refine h.move hk rfl hi rfl rfl rfl (fun _ => by simp [hp, Phase.waits]) (fun j hj => ?_)
    fun k j d hj => ?_
  · simp only [Phase.await.injEq, reduceCtorEq, or_false] at hj
    exact hj ▸ hnew
  · simp only [begin, Sys.setReq, Sys.setNode, Function.update_apply] at hj
    split at hj
    · next hkr =>
      cases hj
      rw [hkr]
      exact hnew
    · exact hk j k (h.nodes k j d hj)

/-- A request in progress has its edge in the wait graph. -/
theorem WaitInv.edge {i j : ℕ} {r : Req K V} {c : Computation K V C} (h : WaitInv s)
    (hi : s.reqs[i]? = some r) (hown : r.owner = some j) (hc : s.comps[j]? = some c)
    (hp : r.phase.waits = true) : r.key ∈ adj s.waits c.key := by
  have hkc : s.keyOf j = some c.key := by simp [Sys.keyOf, hc]
  refine List.count_pos_iff.mp ?_
  rw [h.count]
  exact List.countP_pos_iff.mpr ⟨r,List.mem_of_getElem? hi,by simp [holds_eq hown hkc hp]⟩

/-- A request that holds its edge gives it up. -/
theorem WaitInv.unwait {i j : ℕ} {r r' : Req K V} {c : Computation K V C} (h : WaitInv s)
    (hk : KeepsKeys s t) (hi : s.reqs[i]? = some r) (hown : r.owner = some j)
    (hc : s.comps[j]? = some c) (hp : r.phase.waits = true) (hr : t.reqs = s.reqs.set i r')
    (ho : r'.owner = r.owner) (hp' : r'.phase.waits = false)
    (hw : t.waits = dropWaiting s.waits c.key r.key)
    (hn : ∀ k j dirty, t.nodes k = some ⟨.running j,dirty⟩ → t.keyOf j = some k) :
    WaitInv t := by
  have hold : ReqOk s r := h.reqs r (List.mem_of_getElem? hi)
  have hkc : s.keyOf j = some c.key := by simp [Sys.keyOf, hc]
  have hholds := holds_eq hown hkc hp
  have hmem := h.edge hi hown hc hp
  have hok : ReqOk t r' := by
    refine ⟨fun x hx => (hold.mono hk).owner x (ho ▸ hx),fun x hx => ?_⟩
    rcases hx with hx | hx <;> simp [hx, Phase.waits] at hp'
  refine ⟨hw ▸ dropWaiting_acyclic _ _ h.acyclic,fun a b => ?_,reqOk_set h hk hr hok,hn⟩
  have hcs := count_set hi (holds t.keyOf a b) r'
  have hf : holds t.keyOf a b r' = false := by simp [holds, hp']
  rw [hf, holds_keys hk hold, hholds] at hcs
  rw [hw, dropWaiting_count _ _ _ _ _ hmem, h.count, hr, ← count_keys hk h.reqs]
  simp only [decide_eq_true_eq, Bool.false_eq_true, if_false] at hcs
  omega

/-- A request takes its edge. -/
theorem WaitInv.wait {debug : K → String} {i j : ℕ} {r : Req K V} {c : Computation K V C}
    {w : Waits K} (h : WaitInv s) (hi : s.reqs[i]? = some r) (hown : r.owner = some j)
    (hc : s.comps[j]? = some c) (hp : r.phase = .ask)
    (hw : waitOn debug s.waits c.key r.key = .ok w) :
    WaitInv { s.setReq i (r.at .look) with waits := w } := by
  have hold : ReqOk s r := h.reqs r (List.mem_of_getElem? hi)
  have hkc : s.keyOf j = some c.key := by simp [Sys.keyOf, hc]
  obtain ⟨-,hwp⟩ := (waitOn_ok debug s.waits w c.key r.key).mp hw
  have hk : KeepsKeys s { s.setReq i (r.at .look) with waits := w } := .of_comps rfl
  have hok : ReqOk { s.setReq i (r.at .look) with waits := w } (r.at .look) :=
    ⟨(hold.mono hk).owner,fun x hx => by simp [Req.at] at hx⟩
  refine ⟨waitOn_acyclic h.acyclic hw,fun a b => ?_,reqOk_set h hk rfl hok,h.nodes⟩
  have hcs := count_set hi (holds s.keyOf a b) (r.at .look)
  have hf : holds s.keyOf a b r = false := by simp [holds, hp, Phase.waits]
  have ht : holds s.keyOf a b (r.at .look) = decide (a = c.key ∧ b = r.key) :=
    @holds_eq K V _ s.keyOf (r.at .look) j c.key hown hkc rfl a b
  rw [hf, ht] at hcs
  simp only [decide_eq_true_eq, Bool.false_eq_true, if_false] at hcs
  change (adj w a).count b = (s.reqs.set i (r.at .look)).countP (holds s.keyOf a b)
  rw [hwp, pushWait_count, h.count]
  omega

variable [DecidableEq V] {debug : K → String} {compute : K → Comp K V C}

omit [DecidableEq K] [DecidableEq V] in
theorem receive_waits {c : Computation K V C} {i : ℕ} {k : K} {res : Result K V}
    {task : Task K V C} {phase : Phase K V} (h : receive compute c i k res = some (task,phase)) :
    phase.waits = false := by
  unfold receive at h
  repeat' split at h
  all_goals first | cases h; rfl | cases h

theorem Step.waitInv {a : Act K C} (h : WaitInv s) (hs : Step debug compute s a t) : WaitInv t := by
  cases hs with
  | set k c => exact h.same (.of_comps rfl) rfl rfl h.nodes
  | lookup hc => exact h.same (.of_comps rfl) rfl rfl h.nodes
  | bump hc => exact h.same (.of_comps rfl) rfl rfl h.nodes
  | storeAbsent hc => exact h.same (.of_comps rfl) rfl rfl h.nodes
  | @store i k v n hc hn =>
    refine h.same (.of_comps rfl) rfl rfl (h.nodes_of (.of_comps rfl) ?_)
    refine setNode_running fun j dirty he => ⟨n.dirty,?_⟩
    have hst : n.state = .running j := congrArg Node.state he
    rw [hn, ← hst]
  | nextVersion => exact h.same (.of_comps rfl) rfl rfl h.nodes
  | request k =>
    exact h.new (.of_comps rfl) rfl rfl (by simp) h.nodes
  | enterOld hi hp hn => exact h.phase hi (by simp [hp, Phase.waits]) (by simp) (by simp)
  | enterNew hi hp hn =>
    refine h.move (.of_comps rfl) rfl hi rfl rfl rfl (fun _ => by simp [hp, Req.at, Phase.waits])
      (fun j hj => by simp [Req.at] at hj) (h.nodes_of (.of_comps rfl) ?_)
    exact setNode_running fun j dirty he => by cases he
  | askOutside hi hp ho =>
    exact h.move (.of_comps rfl) rfl hi rfl rfl rfl (fun hne => absurd ho hne)
      (fun j hj => by simp at hj) h.nodes
  | ask hi hp ho hc hw => exact h.wait hi ho hc hp hw
  | askRefusedVerify hi hp ho hc hw ht =>
    refine h.move (.set hc rfl rfl) rfl hi rfl rfl rfl
      (fun _ => by simp [hp, Req.at, Phase.waits]) (fun j hj => by simp [Req.at] at hj)
      (h.nodes_of (.set hc rfl rfl) fun k j dirty hj => ⟨dirty,hj⟩)
  | askRefused hi hp ho hc hw => exact h.phase hi (by simp [hp, Phase.waits]) (by simp) (by simp)
  | lookDone hi hp hn hv => exact h.phase hi (by simp [hp, Phase.waits]) (by simp) (by simp)
  | lookEmpty hi hp hn => exact begin_waitInv h hi hp _ _
  | lookStale hi hp hn hv => exact begin_waitInv h hi hp _ _
  | @lookJoin i j r c dirty hi hp hn hc hv =>
    have hk : KeepsKeys s ((s.setReq i (r.at (.await j))).setComp j
      { c with waiters := c.waiters+1 }) := .set hc rfl rfl
    refine h.move hk rfl hi rfl rfl rfl (fun _ => by simp [hp, Req.at, Phase.waits])
      (fun x hx => ?_) (h.nodes_of hk fun k j dirty hj => ⟨dirty,hj⟩)
    simp only [Req.at, Phase.await.injEq, reduceCtorEq, or_false] at hx
    exact hx ▸ hk j r.key (h.nodes _ _ _ hn)
  | @lookOther i j r c dirty hi hp hn hc hv =>
    refine h.move (.of_comps rfl) rfl hi rfl rfl rfl (fun _ => by simp [hp, Req.at, Phase.waits])
      (fun x hx => ?_) h.nodes
    simp only [Req.at, Phase.other.injEq, reduceCtorEq, false_or] at hx
    exact hx ▸ h.nodes _ _ _ hn
  | resumeAwait hi hp hc ht => exact h.phase hi (by simp [hp, Phase.waits]) (by simp) (by simp)
  | resumeOther hi hp => exact h.phase hi (by simp [hp, Phase.waits]) (by simp) (by simp)
  | dropEnter hi hp => exact h.phase hi (by simp [hp, Phase.waits]) (by simp) (by simp)
  | dropAwait hi hp => exact h.phase hi (by simp [hp, Phase.waits]) (by simp) (by simp)
  | dropOther hi hp => exact h.phase hi (by simp [hp, Phase.waits]) (by simp) (by simp)
  | leave hi hp hc hph =>
    refine h.move (.set hc rfl rfl) rfl hi rfl rfl rfl (fun _ => ?_) (fun j hj => ?_)
      (h.nodes_of (.set hc rfl rfl) fun k j dirty hj => ⟨dirty,hj⟩)
    · rcases hph with rfl | rfl <;> simp [hp, Req.at, Phase.waits]
    · rcases hph with rfl | rfl <;> simp [Req.at] at hj
  | lastBack hi hp hn hc hw =>
    refine h.move (.set hc rfl rfl) rfl hi rfl rfl rfl
      (fun _ => by simp [hp, Req.at, Phase.waits]) (fun j hj => by simp [Req.at] at hj)
      (h.nodes_of (.set hc rfl rfl) ?_)
    refine setNode_running fun j dirty he => ?_
    have hst := congrArg Node.state he
    simp only [back] at hst
    split at hst <;> cases hst
  | lastOut hi hp => exact h.phase hi (by simp [hp, Phase.waits]) (by simp) (by simp)
  | deliverGone hi ho hc hp =>
    exact h.unwait (.of_comps rfl) hi ho hc (by simp [hp, Phase.waits]) rfl rfl rfl rfl h.nodes
  | deliver hi ho hc hp hrec =>
    exact h.unwait (.set hc rfl rfl) hi ho hc (by simp [hp, Phase.waits]) rfl rfl
      (receive_waits hrec) rfl (h.nodes_of (.set hc rfl rfl) fun k j dirty hj => ⟨dirty,hj⟩)
  | @spawnVerify j c checked todo d o hc ht =>
    have hk : KeepsKeys s { s.setComp j
        (c.at (.verify checked ((d,o)::todo) (some s.reqs.length))) with
        reqs := s.reqs ++ [⟨some j,d,c.version,.ask⟩] } := .set hc rfl rfl
    refine h.new hk rfl rfl ?_ (h.nodes_of hk fun k j d hj => ⟨d,hj⟩)
    simpa using ⟨_,hk j c.key (by simp [Sys.keyOf, hc])⟩
  | @spawnGet j c deps keys cont hc ht =>
    have hk : KeepsKeys s { s.setComp j (c.at (.compute deps (.get keys cont)
        (some (List.range' s.reqs.length keys.length)))) with
        reqs := s.reqs ++ keys.map fun k => ⟨some j,k,c.version,.enter⟩ } := .set hc rfl rfl
    refine h.new hk rfl rfl (fun r hr => ?_) (h.nodes_of hk fun k j d hj => ⟨d,hj⟩)
    obtain ⟨k,-,rfl⟩ := List.mem_map.mp hr
    exact ⟨.inl rfl,fun x hx => by cases hx; exact ⟨_,hk j c.key (by simp [Sys.keyOf, hc])⟩⟩
  | read hc ht =>
    exact h.same (.set hc rfl rfl) rfl rfl (h.nodes_of (.set hc rfl rfl) fun k j d hj => ⟨d,hj⟩)
  | advanceKept hc ht hp =>
    exact h.same (.set hc rfl rfl) rfl rfl (h.nodes_of (.set hc rfl rfl) fun k j d hj => ⟨d,hj⟩)
  | advanceGet hc ht hws =>
    exact h.same (.set hc rfl rfl) rfl rfl (h.nodes_of (.set hc rfl rfl) fun k j d hj => ⟨d,hj⟩)
  | advanceRet hc ht =>
    exact h.same (.set hc rfl rfl) rfl rfl (h.nodes_of (.set hc rfl rfl) fun k j d hj => ⟨d,hj⟩)
  | publish hc ht hn =>
    refine h.same (.set hc rfl rfl) rfl rfl (h.nodes_of (.set hc rfl rfl) ?_)
    exact setNode_running fun j dirty he => by cases he
  | reap hc ha hsus =>
    exact h.same (.set hc rfl rfl) rfl rfl (h.nodes_of (.set hc rfl rfl) fun k j d hj => ⟨d,hj⟩)

omit [DecidableEq V] in
theorem new_waitInv (ext : K → C) : WaitInv (Sys.new V ext) := by
  refine ⟨fun a ha => ?_,fun a b => by simp [Sys.new],by simp [Sys.new],fun k j d h => by cases h⟩
  obtain ⟨b,hb,-⟩ := TransGen.head'_iff.mp ha
  simp [Edge, Sys.new] at hb

theorem run_waitInv {ext : K → C} {acts : List (Act K C)}
    (h : Machine.run (step debug compute) (Sys.new V ext) acts = some s) : WaitInv s :=
  Machine.run_invariant _ (fun _ _ _ hi hs => (step_sound hs).waitInv hi) (new_waitInv ext) h

/-- The computation `i` has a request that is blocked on the computation `j`. -/
def BlockedOn (s : Sys K V C) (i j : ℕ) : Prop :=
  ∃ r ∈ s.reqs, r.owner = some i ∧ (r.phase = .await j ∨ r.phase = .other j)

omit [DecidableEq V] in
theorem WaitInv.blocked {i j : ℕ} (h : WaitInv s) (hb : BlockedOn s i j) :
    ∃ a b, s.keyOf i = some a ∧ s.keyOf j = some b ∧ b ∈ adj s.waits a := by
  obtain ⟨r,hr,ho,hp⟩ := hb
  have hok := h.reqs r hr
  obtain ⟨a,ha⟩ := hok.owner i ho
  obtain ⟨c,hc,rfl⟩ := Option.map_eq_some_iff.mp ha
  obtain ⟨n,hn,rfl⟩ := List.mem_iff_getElem.mp hr
  refine ⟨c.key,_,ha,hok.awaits j hp,h.edge (List.getElem?_eq_getElem hn) ho hc ?_⟩
  rcases hp with hp | hp <;> simp [hp, Phase.waits]

omit [DecidableEq V] in
/-- A chain of blocked computations is a path of the wait graph. -/
theorem WaitInv.blocked_path {i j : ℕ} (h : WaitInv s) (hb : TransGen (BlockedOn s) i j) :
    ∃ a b, s.keyOf i = some a ∧ s.keyOf j = some b ∧ TransGen (Edge (adj s.waits)) a b := by
  induction hb with
  | single hb =>
    obtain ⟨a,b,ha,hb',he⟩ := h.blocked hb
    exact ⟨a,b,ha,hb',.single he⟩
  | tail _ hb ih =>
    obtain ⟨a,b,ha,hb',hp⟩ := ih
    obtain ⟨b',c,hb'',hc,he⟩ := h.blocked hb
    obtain rfl := Option.some.inj (hb'.symm.trans hb'')
    exact ⟨a,c,ha,hc,hp.tail he⟩

theorem WaitInv.deliver {i : ℕ} (h : WaitInv s) (hs : step debug compute s (.deliver i) = some t) :
    ∃ r j a, s.reqs[i]? = some r ∧ r.owner = some j ∧ s.keyOf j = some a ∧
      ∀ x y, (adj s.waits x).count y =
        (adj t.waits x).count y + if x = a ∧ y = r.key then 1 else 0 := by
  have hcount : ∀ {j : ℕ} {r : Req K V} {c : Computation K V C}, s.reqs[i]? = some r →
      r.owner = some j → s.comps[j]? = some c → r.phase.waits = true → ∀ x y,
      (adj s.waits x).count y = (adj (dropWaiting s.waits c.key r.key) x).count y +
        if x = c.key ∧ y = r.key then 1 else 0 := by
    intro j r c hi ho hc hp x y
    have hmem := h.edge hi ho hc hp
    have hpos := List.count_pos_iff.mpr hmem
    rw [dropWaiting_count _ _ _ _ _ hmem]
    by_cases hxy : x = c.key ∧ y = r.key
    · obtain ⟨rfl,rfl⟩ := hxy
      simp only [and_self, if_true]
      omega
    · simp [hxy]
  cases step_sound hs with
  | @deliverGone _ j r c hi ho hc hp =>
    exact ⟨r,j,c.key,hi,ho,by simp [Sys.keyOf, hc],hcount hi ho hc (by simp [hp, Phase.waits])⟩
  | @deliver _ j r c res task phase hi ho hc hp hrec =>
    exact ⟨r,j,c.key,hi,ho,by simp [Sys.keyOf, hc],hcount hi ho hc (by simp [hp, Phase.waits])⟩

end Inv

/-- A key that reads its cell, and a key that reads it. -/
def relay : Bool → Comp Bool ℕ ℕ
  | true => .cell fun c => .ret (.ok c)
  | false => .get [true] fun ws => .ret (ws.headD (.ok 0))

/-- A request for the second key, up to where its computation is blocked on the
first. -/
def relayBlocked : List (Act Bool ℕ) :=
  [.request false,.enter 0,.ask 0,.look 0,.spawn 0,.enter 1,.ask 1,.look 1]

end BuildFiji.Engine.Tasks
