import BuildFiji.Engine.Tasks

/-!
# The actions one by one

The step function, taken apart into one rule for each way an action can go.
Every invariant is proved over these rules.
-/

set_option autoImplicit false
set_option linter.all false

namespace BuildFiji.Engine.Tasks

variable {K V C : Type*} [DecidableEq K] [DecidableEq V]

def Req.at (r : Req K V) (phase : Phase K V) : Req K V := { r with phase := phase }

def Computation.at (c : Computation K V C) (task : Task K V C) : Computation K V C :=
  { c with task := task }

/-- The request of a task that is done with, and its edge. -/
def Sys.unwait (s : Sys K V C) (a b : K) : Sys K V C :=
  { s with waits := dropWaiting s.waits a b }

/-- What a node goes back to when its computation is abandoned. -/
def back (previous : Option (Evaluated K V)) : State K V :=
  match previous with
  | some p => .done p
  | none => .empty

inductive Step (debug : K → String) (compute : K → Comp K V C) (s : Sys K V C) :
    Act K C → Sys K V C → Prop where
  | set (k : K) (c : C) : Step debug compute s (.set k c)
      { s with ext := Function.update s.ext k c, changes := s.changes ++ [⟨k,.set⟩] }
  | lookup {i : ℕ} {k : K} : s.changes[i]? = some ⟨k,.set⟩ →
      Step debug compute s (.lookup i) (s.setStage i k (.looked (s.nodes k).isSome))
  | bump {i : ℕ} {k : K} {found : Bool} : s.changes[i]? = some ⟨k,.looked found⟩ →
      Step debug compute s (.bump i)
        { s.setStage i k (.bumped found (s.version+1)) with version := s.version+1 }
  | storeAbsent {i : ℕ} {k : K} {v : ℕ} : s.changes[i]? = some ⟨k,.bumped false v⟩ →
      Step debug compute s (.store i) (s.setStage i k (.done v))
  | store {i : ℕ} {k : K} {v : ℕ} {n : Node K V} : s.changes[i]? = some ⟨k,.bumped true v⟩ →
      s.nodes k = some n →
      Step debug compute s (.store i)
        ((s.setNode k { n with dirty := true }).setStage i k (.done v))
  | nextVersion : Step debug compute s .nextVersion { s with version := s.version+1 }
  | request (k : K) : Step debug compute s (.request k)
      { s with reqs := s.reqs ++ [⟨none,k,0,.enter⟩] }
  | enterOld {i : ℕ} {r : Req K V} {n : Node K V} : s.reqs[i]? = some r → r.phase = .enter →
      s.nodes r.key = some n → Step debug compute s (.enter i) (s.setReq i (r.at .ask))
  | enterNew {i : ℕ} {r : Req K V} : s.reqs[i]? = some r → r.phase = .enter →
      s.nodes r.key = none →
      Step debug compute s (.enter i) ((s.setNode r.key ⟨.empty,false⟩).setReq i (r.at .ask))
  | askOutside {i : ℕ} {r : Req K V} : s.reqs[i]? = some r → r.phase = .ask → r.owner = none →
      Step debug compute s (.ask i) (s.setReq i { r with version := s.version, phase := .look })
  | ask {i j : ℕ} {r : Req K V} {c : Computation K V C} {w : Waits K} : s.reqs[i]? = some r →
      r.phase = .ask → r.owner = some j → s.comps[j]? = some c →
      waitOn debug s.waits c.key r.key = .ok w →
      Step debug compute s (.ask i) { s.setReq i (r.at .look) with waits := w }
  | askRefusedVerify {i j : ℕ} {r : Req K V} {c : Computation K V C} {text : String}
      {checked todo : List (K × ℕ)} {asked : Option ℕ} : s.reqs[i]? = some r →
      r.phase = .ask → r.owner = some j → s.comps[j]? = some c →
      waitOn debug s.waits c.key r.key = .error text → c.task = .verify checked todo asked →
      Step debug compute s (.ask i)
        ((s.setReq i (r.at .gone)).setComp j (c.at (.returned (.error text))))
  | askRefused {i j : ℕ} {r : Req K V} {c : Computation K V C} {text : String} :
      s.reqs[i]? = some r → r.phase = .ask → r.owner = some j → s.comps[j]? = some c →
      waitOn debug s.waits c.key r.key = .error text →
      Step debug compute s (.ask i) (s.setReq i (r.at (.done (.error text))))
  | lookDone {i : ℕ} {r : Req K V} {e : Evaluated K V} : s.reqs[i]? = some r → r.phase = .look →
      s.nodes r.key = some ⟨.done e,false⟩ → r.version ≤ e.verifiedAt →
      Step debug compute s (.look i) (s.setReq i (r.at (.got (some (.ok e)))))
  | lookEmpty {i : ℕ} {r : Req K V} {dirty : Bool} : s.reqs[i]? = some r → r.phase = .look →
      s.nodes r.key = some ⟨.empty,dirty⟩ →
      Step debug compute s (.look i) (begin compute s i r none dirty)
  | lookStale {i : ℕ} {r : Req K V} {e : Evaluated K V} {dirty : Bool} : s.reqs[i]? = some r →
      r.phase = .look → s.nodes r.key = some ⟨.done e,dirty⟩ →
      ¬ (r.version ≤ e.verifiedAt ∧ dirty = false) →
      Step debug compute s (.look i) (begin compute s i r (some e) dirty)
  | lookJoin {i j : ℕ} {r : Req K V} {c : Computation K V C} {dirty : Bool} : s.reqs[i]? = some r →
      r.phase = .look → s.nodes r.key = some ⟨.running j,dirty⟩ → s.comps[j]? = some c →
      c.version = r.version →
      Step debug compute s (.look i)
        ((s.setReq i (r.at (.await j))).setComp j { c with waiters := c.waiters+1 })
  | lookOther {i j : ℕ} {r : Req K V} {c : Computation K V C} {dirty : Bool} :
      s.reqs[i]? = some r → r.phase = .look → s.nodes r.key = some ⟨.running j,dirty⟩ →
      s.comps[j]? = some c → c.version ≠ r.version →
      Step debug compute s (.look i) (s.setReq i (r.at (.other j)))
  | resumeAwait {i j : ℕ} {r : Req K V} {c : Computation K V C} {res : Result K V} :
      s.reqs[i]? = some r → r.phase = .await j → s.comps[j]? = some c → c.task = .returned res →
      Step debug compute s (.resume i) (s.setReq i (r.at (.leave j (some res))))
  | resumeOther {i j : ℕ} {r : Req K V} : s.reqs[i]? = some r → r.phase = .other j →
      Step debug compute s (.resume i) (s.setReq i (r.at .look))
  | dropEnter {i : ℕ} {r : Req K V} : s.reqs[i]? = some r → r.phase = .enter →
      Step debug compute s (.drop i) (s.setReq i (r.at .gone))
  | dropAwait {i j : ℕ} {r : Req K V} : s.reqs[i]? = some r → r.phase = .await j →
      Step debug compute s (.drop i) (s.setReq i (r.at (.leave j none)))
  | dropOther {i j : ℕ} {r : Req K V} : s.reqs[i]? = some r → r.phase = .other j →
      Step debug compute s (.drop i) (s.setReq i (r.at (.got none)))
  | leave {i j : ℕ} {r : Req K V} {c : Computation K V C} {res : Option (Result K V)}
      {phase : Phase K V} : s.reqs[i]? = some r → r.phase = .leave j res →
      s.comps[j]? = some c → phase = .got res ∨ phase = .last j res →
      Step debug compute s (.leave i)
        ((s.setComp j { c with waiters := c.waiters-1 }).setReq i (r.at phase))
  | lastBack {i j : ℕ} {r : Req K V} {c : Computation K V C} {res : Option (Result K V)}
      {dirty : Bool} : s.reqs[i]? = some r → r.phase = .last j res →
      s.nodes r.key = some ⟨.running j,dirty⟩ → s.comps[j]? = some c → c.waiters = 0 →
      Step debug compute s (.last i) (((s.setReq i (r.at (.got res))).setComp j
        { c with aborted := true }).setNode r.key ⟨back c.previous,dirty || c.dirty⟩)
  | lastOut {i j : ℕ} {r : Req K V} {res : Option (Result K V)} : s.reqs[i]? = some r →
      r.phase = .last j res → Step debug compute s (.last i) (s.setReq i (r.at (.got res)))
  | deliverGone {i j : ℕ} {r : Req K V} {c : Computation K V C} : s.reqs[i]? = some r →
      r.owner = some j → s.comps[j]? = some c → r.phase = .got none →
      Step debug compute s (.deliver i) ((s.setReq i (r.at .gone)).unwait c.key r.key)
  | deliver {i j : ℕ} {r : Req K V} {c : Computation K V C} {res : Result K V}
      {task : Task K V C} {phase : Phase K V} : s.reqs[i]? = some r → r.owner = some j →
      s.comps[j]? = some c → r.phase = .got (some res) →
      receive compute c i r.key res = some (task,phase) →
      Step debug compute s (.deliver i)
        (((s.setReq i (r.at phase)).setComp j (c.at task)).unwait c.key r.key)
  | spawnVerify {j : ℕ} {c : Computation K V C} {checked todo : List (K × ℕ)} {d : K} {o : ℕ} :
      s.comps[j]? = some c → c.task = .verify checked ((d,o)::todo) none →
      Step debug compute s (.spawn j)
        { s.setComp j (c.at (.verify checked ((d,o)::todo) (some s.reqs.length))) with
          reqs := s.reqs ++ [⟨some j,d,c.version,.ask⟩] }
  | spawnGet {j : ℕ} {c : Computation K V C} {deps : List (K × ℕ)} {keys : List K}
      {cont : List (Outcome V) → Comp K V C} : s.comps[j]? = some c →
      c.task = .compute deps (.get keys cont) none →
      Step debug compute s (.spawn j)
        { s.setComp j (c.at (.compute deps (.get keys cont)
            (some (List.range' s.reqs.length keys.length)))) with
          reqs := s.reqs ++ keys.map fun k => ⟨some j,k,c.version,.enter⟩ }
  | read {j : ℕ} {c : Computation K V C} {deps : List (K × ℕ)} {cont : C → Comp K V C} :
      s.comps[j]? = some c → c.task = .compute deps (.cell cont) none →
      Step debug compute s (.read j) (s.setComp j (c.at (.compute deps (cont (s.ext c.key)) none)))
  | advanceKept {j : ℕ} {c : Computation K V C} {checked : List (K × ℕ)} {p : Evaluated K V} :
      s.comps[j]? = some c → c.task = .verify checked [] none → c.previous = some p →
      Step debug compute s (.advance j) (s.setComp j (c.at (.publish (p.kept c.version))))
  | advanceGet {j : ℕ} {c : Computation K V C} {deps : List (K × ℕ)} {keys : List K}
      {cont : List (Outcome V) → Comp K V C} {asked : List ℕ} {ws : List (Outcome V)} :
      s.comps[j]? = some c → c.task = .compute deps (.get keys cont) (some asked) →
      asked.mapM (fun i => (s.reqs[i]?).bind Req.outcome) = some ws →
      Step debug compute s (.advance j) (s.setComp j (c.at (.compute deps (cont ws) none)))
  | advanceRet {j : ℕ} {c : Computation K V C} {deps : List (K × ℕ)} {o : Outcome V} :
      s.comps[j]? = some c → c.task = .compute deps (.ret o) none →
      Step debug compute s (.advance j) (s.setComp j
        (c.at (.publish (Evaluated.computed c.previous c.version o deps))))
  | publish {j : ℕ} {c : Computation K V C} {e : Evaluated K V} {n : Node K V} :
      s.comps[j]? = some c → c.task = .publish e → s.nodes c.key = some n →
      Step debug compute s (.publish j)
        ((s.setComp j (c.at (.returned (.ok e)))).setNode c.key ⟨.done e,n.dirty⟩)
  | reap {j : ℕ} {c : Computation K V C} : s.comps[j]? = some c → c.aborted = true →
      (∀ r ∈ s.reqs, r.owner = some j → r.phase.suspended = true) →
      Step debug compute s (.reap j) (s.setComp j (c.at .stopped))

section Sound
variable {debug : K → String} {compute : K → Comp K V C} {s t : Sys K V C}

omit [DecidableEq K] [DecidableEq V] in
theorem change_some {i : ℕ} {f : K → Stage → Option (Sys K V C)} (h : change s i f = some t) :
    ∃ k stage, s.changes[i]? = some ⟨k,stage⟩ ∧ f k stage = some t := by
  unfold change at h
  split at h
  · cases h
  · next c hc => exact ⟨c.key,c.stage,hc,h⟩

omit [DecidableEq K] [DecidableEq V] in
theorem withReq_some {i : ℕ} {ok : Req K V → Bool} {f : Req K V → Option (Sys K V C)}
    (h : withReq s i ok f = some t) : ∃ r, s.reqs[i]? = some r ∧ ok r = true ∧ f r = some t := by
  unfold withReq at h
  split at h
  · cases h
  · next r hr =>
    split at h
    · next hok => exact ⟨r,hr,hok,h⟩
    · cases h

omit [DecidableEq K] [DecidableEq V] in
theorem withComp_some {j : ℕ} {f : Computation K V C → Option (Sys K V C)}
    (h : withComp s j f = some t) : ∃ c, s.comps[j]? = some c ∧ f c = some t := by
  unfold withComp at h
  split at h
  · cases h
  · next c hc => exact ⟨c,hc,h⟩

omit [DecidableEq K] [DecidableEq V] in
theorem isEnter_eq {p : Phase K V} (h : p.isEnter = true) : p = .enter := by
  cases p <;> first | rfl | cases h

omit [DecidableEq K] [DecidableEq V] in
theorem isAsk_eq {p : Phase K V} (h : p.isAsk = true) : p = .ask := by
  cases p <;> first | rfl | cases h

omit [DecidableEq K] [DecidableEq V] in
theorem isLook_eq {p : Phase K V} (h : p.isLook = true) : p = .look := by
  cases p <;> first | rfl | cases h

theorem lookup_step {i : ℕ} (h : lookup s i = some t) : Step debug compute s (.lookup i) t := by
  obtain ⟨k,stage,hc,h⟩ := change_some h
  cases stage with
  | set => cases h; exact .lookup hc
  | _ => cases h

theorem bump_step {i : ℕ} (h : bump s i = some t) : Step debug compute s (.bump i) t := by
  obtain ⟨k,stage,hc,h⟩ := change_some h
  cases stage with
  | looked found => cases h; exact .bump hc
  | _ => cases h

theorem store_step {i : ℕ} (h : store s i = some t) : Step debug compute s (.store i) t := by
  obtain ⟨k,stage,hc,h⟩ := change_some h
  cases stage with
  | bumped found v =>
    cases found with
    | false => cases h; exact .storeAbsent hc
    | true =>
      simp only at h
      split at h
      · cases h
      · next n hn => cases h; exact .store hc hn
  | _ => cases h

theorem enter_step {i : ℕ} {r : Req K V} (hr : s.reqs[i]? = some r) (hp : r.phase = .enter)
    (h : some (enter s i r) = some t) : Step debug compute s (.enter i) t := by
  cases h
  unfold enter
  split
  · next n hn => exact .enterOld hr hp hn
  · next hn => exact .enterNew hr hp hn

theorem ask_step {i : ℕ} {r : Req K V} (hr : s.reqs[i]? = some r) (hp : r.phase = .ask)
    (h : ask debug s i r = some t) : Step debug compute s (.ask i) t := by
  unfold ask at h
  split at h
  · next ho => cases h; exact .askOutside hr hp ho
  · next j ho =>
    split at h
    · cases h
    · next c hc =>
      split at h
      · next w hw => cases h; exact .ask hr hp ho hc hw
      · next text hw =>
        split at h
        · next checked todo asked ht => cases h; exact .askRefusedVerify hr hp ho hc hw ht
        · cases h; exact .askRefused hr hp ho hc hw

theorem look_step {i : ℕ} {r : Req K V} (hr : s.reqs[i]? = some r) (hp : r.phase = .look)
    (h : look compute s i r = some t) : Step debug compute s (.look i) t := by
  unfold look at h
  split at h
  · cases h
  · next dirty hn => cases h; exact .lookEmpty hr hp hn
  · next e dirty hn =>
    split at h
    · next hv =>
      cases h
      exact .lookDone hr hp (hv.2 ▸ hn) hv.1
    · next hv => cases h; exact .lookStale hr hp hn hv
  · next j dirty hn =>
    split at h
    · cases h
    · next c hc =>
      split at h
      · next hv => cases h; exact .lookJoin hr hp hn hc hv
      · next hv => cases h; exact .lookOther hr hp hn hc hv

theorem resume_step {i : ℕ} {r : Req K V} (hr : s.reqs[i]? = some r)
    (h : resume s i r = some t) : Step debug compute s (.resume i) t := by
  unfold resume at h
  split at h
  · next j hp =>
    split at h
    · next res hc => cases h; exact .resumeAwait hr hp hc rfl
    · cases h
  · next j hp =>
    split at h
    · cases h; exact .resumeOther hr hp
    · cases h
  · cases h

theorem drop_step {i : ℕ} {r : Req K V} (hr : s.reqs[i]? = some r)
    (h : drop s i r = some t) : Step debug compute s (.drop i) t := by
  unfold drop at h
  split at h
  · next hp => cases h; exact .dropEnter hr hp
  · next j hp => cases h; exact .dropAwait hr hp
  · next j hp => cases h; exact .dropOther hr hp
  · cases h

theorem leave_step {i : ℕ} {r : Req K V} (hr : s.reqs[i]? = some r)
    (h : leave s i r = some t) : Step debug compute s (.leave i) t := by
  unfold leave at h
  split at h
  · next j res hp =>
    split at h
    · cases h
    · next c hc =>
      simp only at h
      split at h
      · cases h; exact .leave hr hp hc (.inl rfl)
      · cases h; exact .leave hr hp hc (.inr rfl)
  · cases h

theorem last_step {i : ℕ} {r : Req K V} (hr : s.reqs[i]? = some r)
    (h : last s i r = some t) : Step debug compute s (.last i) t := by
  unfold last at h
  split at h
  · next j res hp =>
    simp only at h
    split at h
    · next j' dirty c hn hc =>
      split at h
      · next hj =>
        obtain ⟨rfl,hw⟩ := hj
        cases h
        exact .lastBack hr hp hn hc hw
      · cases h; exact .lastOut hr hp
    · cases h; exact .lastOut hr hp
  · cases h

theorem deliver_step {i : ℕ} {r : Req K V} (hr : s.reqs[i]? = some r)
    (h : deliver compute s i r = some t) : Step debug compute s (.deliver i) t := by
  unfold deliver at h
  split at h
  · cases h
  · next j ho =>
    split at h
    · next c hc hp => cases h; exact .deliverGone hr ho hc hp
    · next c res hc hp =>
      split at h
      · cases h
      · next task phase hrec => cases h; exact .deliver hr ho hc hp hrec
    · cases h

theorem spawn_step {j : ℕ} {c : Computation K V C} (hc : s.comps[j]? = some c)
    (h : spawn s j c = some t) : Step debug compute s (.spawn j) t := by
  unfold spawn at h
  split at h
  · next ht => cases h; exact .spawnVerify hc ht
  · next ht => cases h; exact .spawnGet hc ht
  · cases h

theorem read_step {j : ℕ} {c : Computation K V C} (hc : s.comps[j]? = some c)
    (h : read s j c = some t) : Step debug compute s (.read j) t := by
  unfold read at h
  split at h
  · next ht => cases h; exact .read hc ht
  · cases h

theorem advance_step {j : ℕ} {c : Computation K V C} (hc : s.comps[j]? = some c)
    (h : advance s j c = some t) : Step debug compute s (.advance j) t := by
  unfold advance at h
  split at h
  · next ht =>
    split at h
    · next p hp => cases h; exact .advanceKept hc ht hp
    · cases h
  · next ht =>
    split at h
    · next ws hws => cases h; exact .advanceGet hc ht hws
    · cases h
  · next ht => cases h; exact .advanceRet hc ht
  · cases h

theorem publish_step {j : ℕ} {c : Computation K V C} (hc : s.comps[j]? = some c)
    (h : publish s j c = some t) : Step debug compute s (.publish j) t := by
  unfold publish at h
  split at h
  · next ht hn => cases h; exact .publish hc ht hn
  · cases h

theorem reap_step {j : ℕ} {c : Computation K V C} (hc : s.comps[j]? = some c)
    (h : reap s j c = some t) : Step debug compute s (.reap j) t := by
  unfold reap at h
  split at h
  · next hcond =>
    cases h
    simp only [Bool.and_eq_true, List.all_eq_true] at hcond
    refine .reap hc hcond.1.1 fun r hr ho => ?_
    simpa [ho] using hcond.2 r hr
  · cases h

theorem step_sound {a : Act K C} (h : step debug compute s a = some t) :
    Step debug compute s a t := by
  cases a with
  | set k c => cases h; exact .set k c
  | lookup i => exact lookup_step h
  | bump i => exact bump_step h
  | store i => exact store_step h
  | nextVersion => cases h; exact .nextVersion
  | request k => cases h; exact .request k
  | enter i =>
    obtain ⟨r,hr,hok,h⟩ := withReq_some h
    exact enter_step hr (isEnter_eq (Bool.and_eq_true_iff.mp hok).1) h
  | ask i =>
    obtain ⟨r,hr,hok,h⟩ := withReq_some h
    exact ask_step hr (isAsk_eq (Bool.and_eq_true_iff.mp hok).1) h
  | look i =>
    obtain ⟨r,hr,hok,h⟩ := withReq_some h
    exact look_step hr (isLook_eq (Bool.and_eq_true_iff.mp hok).1) h
  | resume i =>
    obtain ⟨r,hr,-,h⟩ := withReq_some h
    exact resume_step hr h
  | drop i =>
    obtain ⟨r,hr,-,h⟩ := withReq_some h
    exact drop_step hr h
  | leave i =>
    obtain ⟨r,hr,-,h⟩ := withReq_some h
    exact leave_step hr h
  | last i =>
    obtain ⟨r,hr,-,h⟩ := withReq_some h
    exact last_step hr h
  | deliver i =>
    obtain ⟨r,hr,-,h⟩ := withReq_some h
    exact deliver_step hr h
  | spawn j =>
    obtain ⟨c,hc,h⟩ := withComp_some h
    exact spawn_step hc h
  | read j =>
    obtain ⟨c,hc,h⟩ := withComp_some h
    exact read_step hc h
  | advance j =>
    obtain ⟨c,hc,h⟩ := withComp_some h
    exact advance_step hc h
  | publish j =>
    obtain ⟨c,hc,h⟩ := withComp_some h
    exact publish_step hc h
  | reap j =>
    obtain ⟨c,hc,h⟩ := withComp_some h
    exact reap_step hc h

end Sound

end BuildFiji.Engine.Tasks
