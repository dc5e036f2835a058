import BuildFiji.Engine.TaskFresh

/-!
# What a request gets after its invalidation

A run is in time when none of its steps takes one of the four branches that
lose an invalidation. In such a run a request from outside that is made after
every change has been marked gets the value from scratch, whatever else is in
flight, and no node verified since holds anything else.
-/

set_option autoImplicit false
set_option linter.all false

namespace BuildFiji.Engine.Tasks

variable {K V C : Type*} [DecidableEq K]

/-- The action loses no invalidation: a marked node is not started at a version
it has been verified at, a mark does not come after its version has been used,
an abandoned task puts nothing in place, and no wait is refused. -/
def inTime (debug : K → String) (s : Sys K V C) : Act K C → Bool
  | .look i =>
    match s.reqs[i]? with
    | some r =>
      match s.nodes r.key with
      | some ⟨.done e,true⟩ => e.verifiedAt < r.version
      | _ => true
    | none => true
  | .store i =>
    match s.changes[i]? with
    | some ⟨k,.bumped true v⟩ => (s.core.record k).all (fun e => e.verifiedAt < v) &&
      match s.nodes k with
      | some ⟨.running j,_⟩ => (s.comps[j]?).all fun c => c.version < v
      | _ => true
    | _ => true
  | .publish j => (s.comps[j]?).all fun c => !c.aborted
  | .ask i =>
    match s.reqs[i]? with
    | some r =>
      match r.owner.bind fun j => s.comps[j]? with
      | some c => (waitOn debug s.waits c.key r.key).isOk
      | none => true
    | none => true
  | _ => true

section Preserved
variable [DecidableEq V] {debug : K → String} {compute : K → Comp K V C} {outcomeAt : History K V}
  {s t : Sys K V C}

omit [DecidableEq V] in
theorem MemoInv.store (h : MemoInv compute outcomeAt s) {i : ℕ} {k : K} {v : ℕ} {n : Node K V}
    (hi : s.changes[i]? = some ⟨k,.bumped true v⟩) (hn : s.nodes k = some n)
    (hok : inTime debug s (.store i) = true) :
    MemoInv compute outcomeAt ((s.setNode k { n with dirty := true }).setStage i k (.done v)) := by
  simp only [inTime, hi, hn, Bool.and_eq_true, Option.all_eq_true] at hok
  refine h.outer (store_outer h.core hi hn (fun e he => ?_) fun j c hj hc => ?_) rfl
  · simpa using hok.1 e he
  · obtain ⟨state,dirty⟩ := n
    cases hj
    obtain ⟨d,hd,rfl⟩ := comp_core hc
    change d.version < v
    simpa [hd] using hok.2

omit [DecidableEq V] in
theorem not_refused {i j : ℕ} {r : Req K V} {c : Computation K V C} {text : String}
    (hi : s.reqs[i]? = some r) (ho : r.owner = some j) (hc : s.comps[j]? = some c)
    (hw : waitOn debug s.waits c.key r.key = .error text)
    (hok : inTime debug s (.ask i) = true) : False := by
  simp [inTime, hi, ho, hc, hw, Except.isOk, Except.toBool] at hok

/-- One action in time keeps the memo. -/
theorem step_memo {a : Act K C} (hst : Step debug compute s a t) (h : MemoInv compute outcomeAt s)
    (hok : inTime debug s a = true) : ∃ outcomeAt', MemoInv compute outcomeAt' t := by
  cases hst with
  | set k c => exact ⟨_,h.outer (set_outer h.core k c) rfl⟩
  | lookup hi => exact ⟨_,h.outer (lookup_outer h.core hi) rfl⟩
  | bump hi => exact ⟨_,h.outer (bump_outer h.core hi) rfl⟩
  | storeAbsent hi => exact ⟨_,h.outer (storeAbsent_outer h.core hi) rfl⟩
  | store hi hn => exact ⟨_,h.store hi hn hok⟩
  | nextVersion => exact ⟨_,h.outer (nextVersion_outer h.core) rfl⟩
  | request k => exact ⟨_,h.request k⟩
  | enterOld hi hp hn => exact ⟨_,h.bare rfl hi rfl (by simp) (by simp) rfl⟩
  | enterNew hi hp hn => exact ⟨_,h.enterNew hi hn⟩
  | askOutside hi hp ho => exact ⟨_,h.askOutside hi ho⟩
  | ask hi hp ho hc hw => exact ⟨_,h.bare rfl hi rfl (by simp) (by simp) rfl⟩
  | askRefusedVerify hi hp ho hc hw ht => exact (not_refused hi ho hc hw hok).elim
  | askRefused hi hp ho hc hw => exact (not_refused hi ho hc hw hok).elim
  | lookDone hi hp hn hv => exact ⟨_,h.lookDone hi hn hv⟩
  | lookEmpty hi hp hn => exact ⟨_,h.begin hi hn (by simp)⟩
  | @lookStale i r e dirty hi hp hn hv =>
    refine ⟨_,h.begin hi hn fun p hpe => ?_⟩
    obtain rfl := Option.some.inj hpe
    cases dirty with
    | false => exact not_le.mp fun hle => hv ⟨hle,rfl⟩
    | true => simpa [inTime, hi, hn] using hok
  | lookJoin hi hp hn hc hv => exact ⟨_,h.lookJoin hi hn hc hv⟩
  | lookOther hi hp hn hc hv => exact ⟨_,h.bare rfl hi rfl (by simp) (by simp) rfl⟩
  | resumeAwait hi hp hc ht => exact ⟨_,h.resumeAwait hi hp hc ht⟩
  | resumeOther hi hp => exact ⟨_,h.bare rfl hi rfl (by simp) (by simp) rfl⟩
  | dropEnter hi hp => exact ⟨_,h.bare rfl hi rfl (by simp) (by simp) rfl⟩
  | dropAwait hi hp => exact ⟨_,h.bare rfl hi rfl (by simp) (by simp) rfl⟩
  | dropOther hi hp => exact ⟨_,h.bare rfl hi rfl (by simp) (by simp) rfl⟩
  | leave hi hp hc hphase => exact ⟨_,h.leave hi hp hc hphase⟩
  | lastBack hi hp hn hc hw => exact ⟨_,h.lastBack hi hp hn hc⟩
  | lastOut hi hp => exact ⟨_,h.carry rfl hi rfl (by simp) (by simp) (by simp [hp, Phase.result])⟩
  | deliverGone hi ho hc hp => exact ⟨_,h.bare rfl hi rfl (by simp) (by simp) rfl⟩
  | deliver hi ho hc hp hrec => exact ⟨_,h.deliver hi ho hc hp hrec⟩
  | spawnVerify hc ht => exact ⟨_,h.spawnVerify hc ht⟩
  | spawnGet hc ht => exact ⟨_,h.spawnGet hc ht⟩
  | read hc ht => exact ⟨_,h.read hc ht⟩
  | advanceKept hc ht hp => exact ⟨_,h.advanceKept hc ht hp⟩
  | advanceGet hc ht hws => exact ⟨_,h.advanceGet hc ht hws⟩
  | advanceRet hc ht => exact ⟨_,h.advanceRet hc ht⟩
  | publish hc ht hn => exact ⟨_,h.publish hc ht hn (by simpa [inTime, hc] using hok)⟩
  | reap hc ha hr => exact ⟨_,h.reap hc ha⟩

omit [DecidableEq K] [DecidableEq V] in
theorem new_memo (ext : K → C) : MemoInv compute outcomeAt (Sys.new V ext) :=
  ⟨⟨by simp [Sys.new, Sys.core],by simp [Sys.new, Sys.core, Core.record],
    by simp [Sys.new, Sys.core],by simp [Sys.new, Sys.core],by simp [Sys.new, Sys.core]⟩,
    by simp [Sys.new, Sys.core],by simp [Sys.new]⟩

theorem run_memo {as : List (Act K C)} (h : MemoInv compute outcomeAt s)
    (hg : Machine.Guarded (step debug compute) (fun s a => inTime debug s a = true) s as)
    (hr : Machine.run (step debug compute) s as = some t) :
    ∃ outcomeAt', MemoInv compute outcomeAt' t :=
  Machine.guarded_invariant (I := fun s => ∃ outcomeAt, MemoInv compute outcomeAt s) _
    (fun _ _ _ ⟨_,h⟩ hok hst => step_memo (step_sound hst) h hok) ⟨_,h⟩ hg hr

end Preserved

/-- Every change has been marked: each `invalidate` has returned. -/
def Settled (s : Sys K V C) : Prop := ∀ ch ∈ s.changes, ∃ v, ch.stage = .done v

/-- A node accepted at a version no change has started after holds its value
from scratch. -/
def NodesFresh (compute : K → Comp K V C) (s : Sys K V C) : Prop :=
  ∀ k e dirty, s.nodes k = some ⟨.done e,dirty⟩ → s.core.Late e.verifiedAt →
    Scratch compute s.ext k e.outcome

/-- What the requests made from outside since there were `n` get is the value
from scratch. -/
def GetsFresh (compute : K → Comp K V C) (n : ℕ) (s : Sys K V C) : Prop :=
  ∀ i r res, n ≤ i → s.reqs[i]? = some r → r.owner = none → r.phase.result = some res →
    ∃ e, res = .ok e ∧ Scratch compute s.ext r.key e.outcome

section Settle
variable {debug : K → String} {compute : K → Comp K V C} {outcomeAt : History K V}
  {s t : Sys K V C}

omit [DecidableEq K] in
theorem settled_singleton (k : K) (v : ℕ) (h : s.changes = [⟨k,.done v⟩]) : Settled s := by
  intro ch hch
  rw [h] at hch
  exact ⟨v,List.mem_singleton.mp hch ▸ rfl⟩

omit [DecidableEq K] in
theorem Settled.scratch (h : Settled s) {k : K} {w : Outcome V} {v : ℕ}
    (hg : s.core.Good compute k w v) (hl : s.core.Late v) : Scratch compute s.ext k w := by
  rcases hg with ⟨ch,hch,v',e,hs,-⟩ | ⟨ch,hch,hs⟩ | hg
  · obtain ⟨v'',hd⟩ := h ch hch
    rw [hs] at hd
    cases hd
  · obtain ⟨v'',hd⟩ := h ch hch
    rw [hd] at hs
    cases hs
  · exact hg hl

omit [DecidableEq K] in
theorem Settled.nodesFresh (h : Settled s) (hm : MemoInv compute outcomeAt s) :
    NodesFresh compute s := by
  intro k e dirty hn hl
  have hrec : s.core.record k = some e := by
    change (s.nodes k).bind _ = some e
    rw [hn]
    rfl
  exact h.scratch (hm.core.records k e hrec).good hl

/-- A request from outside has not taken its version yet, or will not. -/
def Phase.unasked : Phase K V → Bool
  | .enter => true
  | .ask => true
  | .gone => true
  | _ => false

/-- What may become of a request from outside in one action. -/
def Outside (s : Sys K V C) (i : ℕ) (r : Req K V) : Prop :=
  r.owner = none → r.phase.unasked = true ∨ r.version = s.version ∨
    ∃ r', s.reqs[i]? = some r' ∧ r'.owner = none ∧ r'.phase.unasked = false ∧
      r.version = r'.version

omit [DecidableEq K] in
theorem outside_kept {i : ℕ} {r : Req K V} (hr : s.reqs[i]? = some r) : Outside s i r := by
  intro ho
  cases hp : r.phase.unasked with
  | true => exact .inl rfl
  | false => exact .inr (.inr ⟨r,hr,ho,hp,rfl⟩)

omit [DecidableEq K] in
theorem outside_set {n i : ℕ} {r r' x : Req K V} (hn : s.reqs[n]? = some r)
    (hr' : Outside s n r') (hx : (s.reqs.set n r')[i]? = some x) : Outside s i x := by
  rw [List.getElem?_set] at hx
  split at hx
  · next hi =>
    subst hi
    rw [if_pos (List.getElem?_eq_some_iff.mp hn).1] at hx
    exact Option.some.inj hx ▸ hr'
  · exact outside_kept hx

omit [DecidableEq K] in
theorem outside_at {n i : ℕ} {r x : Req K V} {phase : Phase K V} (hn : s.reqs[n]? = some r)
    (hp : phase.unasked = true ∨ r.phase.unasked = false ∨ ∃ j, r.owner = some j)
    (hx : (s.reqs.set n (r.at phase))[i]? = some x) : Outside s i x := by
  refine outside_set hn (fun ho => ?_) hx
  rcases hp with hp | hp | ⟨j,hj⟩
  · exact .inl hp
  · exact .inr (.inr ⟨r,hn,ho,hp,rfl⟩)
  · exact absurd (hj.symm.trans ho) (by simp)

omit [DecidableEq K] in
theorem outside_append {i : ℕ} {x : Req K V} {rs : List (Req K V)}
    (hrs : ∀ r ∈ rs, r.phase.unasked = true) (hx : (s.reqs ++ rs)[i]? = some x) :
    Outside s i x := by
  rw [List.getElem?_append] at hx
  split at hx
  · exact outside_kept hx
  · exact fun _ => .inl (hrs x (List.mem_of_getElem? hx))

variable [DecidableEq V]

theorem step_outside {a : Act K C} (h : Step debug compute s a t) {i : ℕ} {x : Req K V}
    (hx : t.reqs[i]? = some x) : Outside s i x := by
  cases h with
  | set | lookup | bump | storeAbsent | store | nextVersion | read | advanceKept | advanceGet
  | advanceRet | publish | reap => exact outside_kept hx
  | request k => exact outside_append (by simp [Phase.unasked]) hx
  | spawnVerify => exact outside_append (by simp [Phase.unasked]) hx
  | spawnGet => exact outside_append (by simp [Phase.unasked]) hx
  | askOutside hi hp ho => exact outside_set hi (fun _ => .inr (.inl rfl)) hx
  | ask hi hp ho => exact outside_at hi (.inr (.inr ⟨_,ho⟩)) hx
  | askRefused hi hp ho => exact outside_at hi (.inr (.inr ⟨_,ho⟩)) hx
  | deliver hi ho => exact outside_at hi (.inr (.inr ⟨_,ho⟩)) hx
  | enterOld hi | enterNew hi | askRefusedVerify hi | dropEnter hi | deliverGone hi =>
    exact outside_at hi (.inl rfl) hx
  | lookEmpty hi hp | lookStale hi hp | lookDone hi hp | lookJoin hi hp | lookOther hi hp
  | resumeAwait hi hp | resumeOther hi hp | dropAwait hi hp | dropOther hi hp | leave hi hp
  | lastBack hi hp | lastOut hi hp => exact outside_at hi (.inr (.inl (by rw [hp]; rfl))) hx

/-- After every change has been marked, and as long as no cell is written: the
changes stay as they are, and requests from outside take a version that is not
before them. -/
structure After (s t : Sys K V C) : Prop where
  ext : t.ext = s.ext
  changes : t.changes = s.changes
  version : s.version ≤ t.version
  asked : ∀ i r, s.reqs.length ≤ i → t.reqs[i]? = some r → r.owner = none →
    r.phase.unasked = true ∨ s.version ≤ r.version

def Act.isSet : Act K C → Bool
  | .set _ _ => true
  | _ => false

omit [DecidableEq K] [DecidableEq V] in
theorem settled_stage (hs : Settled s) {i : ℕ} {k : K} {stage : Stage}
    (h : s.changes[i]? = some ⟨k,stage⟩) : ∃ v, stage = .done v :=
  hs _ (List.mem_of_getElem? h)

theorem step_settled {a : Act K C} (h : Step debug compute s a t) (hs : Settled s)
    (ha : a.isSet = false) : t.ext = s.ext ∧ t.changes = s.changes ∧ s.version ≤ t.version := by
  cases h with
  | set => cases ha
  | lookup hi => cases (settled_stage hs hi).choose_spec
  | bump hi => cases (settled_stage hs hi).choose_spec
  | storeAbsent hi => cases (settled_stage hs hi).choose_spec
  | store hi => cases (settled_stage hs hi).choose_spec
  | nextVersion => exact ⟨rfl,rfl,Nat.le_succ _⟩
  | _ => exact ⟨rfl,rfl,le_refl _⟩

theorem step_after {u : Sys K V C} {a : Act K C} (h : Step debug compute t a u) (hs : Settled s)
    (ha : a.isSet = false) (haf : After s t) : After s u := by
  have hst : Settled t := fun ch hch => hs ch (haf.changes ▸ hch)
  obtain ⟨hext,hch,hv⟩ := step_settled h hst ha
  refine ⟨hext.trans haf.ext,hch.trans haf.changes,haf.version.trans hv,fun i r hi hr ho => ?_⟩
  rcases step_outside h hr ho with hu | hver | ⟨r',hr',ho',hu,hver⟩
  · exact .inl hu
  · exact .inr (hver ▸ haf.version)
  · exact .inr (hver ▸ (haf.asked i r' hi hr' ho').resolve_left (by simp [hu]))

theorem run_after {as : List (Act K C)} {u : Sys K V C} (hs : Settled s)
    (hset : ∀ a ∈ as, a.isSet = false) (haf : After s t)
    (h : Machine.run (step debug compute) t as = some u) : After s u := by
  induction as generalizing t with
  | nil => exact Option.some.inj h ▸ haf
  | cons a as ih =>
    obtain ⟨t',ht,hu⟩ := Machine.run_cons _ h
    exact ih (fun b hb => hset b (List.mem_cons_of_mem _ hb))
      (step_after (step_sound ht) hs (hset a List.mem_cons_self) haf) hu

omit [DecidableEq K] [DecidableEq V] in
theorem after_refl (s : Sys K V C) : After s s := by
  refine ⟨rfl,rfl,le_refl _,fun i r hi hr _ => ?_⟩
  rw [List.getElem?_eq_none hi] at hr
  cases hr

omit [DecidableEq K] [DecidableEq V] in
theorem After.getsFresh (haf : After s t) (hs : Settled s) (hm : MemoInv compute outcomeAt t)
    (hv : s.core.Late s.version) : GetsFresh compute s.reqs.length t := by
  intro i r res hi hr ho hres
  obtain ⟨e,rfl,hver,hheld⟩ := (hm.req hr).result res hres
  refine ⟨e,rfl,?_⟩
  have hst : Settled t := fun ch hch => hs ch (haf.changes ▸ hch)
  have hle : s.version ≤ r.version := by
    refine (haf.asked i r hi hr ho).resolve_left fun hu => ?_
    cases hp : r.phase <;> simp_all [Phase.unasked, Phase.result]
  have hl : t.core.Late e.verifiedAt := fun ch hch v hv' =>
    (hv ch (show ch ∈ s.changes from haf.changes ▸ hch) v hv').trans (hle.trans hver)
  exact hst.scratch (hheld.outcome ▸ hheld.seen.good) hl

end Settle

/-- A request for the second key, from its start to its end. -/
def relayOnce : List (Act Bool ℕ) :=
  [.request false,.enter 0,.ask 0,.look 0,.spawn 0,.enter 1,.ask 1,.look 1,.read 1,.advance 1,
    .publish 1,.resume 1,.leave 1,.last 1,.deliver 1,.advance 0,.advance 0,.publish 0,.resume 0,
    .leave 0,.last 0]

/-- The cell of the first key is changed. -/
def relayChange : List (Act Bool ℕ) := [.set true 1,.lookup 0,.bump 0,.store 0]

/-- The second key is asked again, its read is found changed, and it is computed. -/
def relayAgain : List (Act Bool ℕ) :=
  [.request false,.enter 2,.ask 2,.look 2,.spawn 2,.ask 3,.look 3,.read 3,.advance 3,.publish 3,
    .resume 3,.leave 3,.last 3,.deliver 3,.spawn 2,.enter 4,.ask 4,.look 4,.deliver 4,.advance 2,
    .advance 2,.publish 2,.resume 2,.leave 2,.last 2]

/-- Scratch values of the second key. -/
theorem relay_scratch (ext : Bool → ℕ) : Scratch relay ext false (.ok (ext true)) := by
  have hl : [(.ok (ext true) : Outcome ℕ)].length = [true].length := rfl
  apply Evals.get hl
  · intro p hp
    obtain rfl := List.mem_singleton.mp hp
    exact .cell (.ret _ _)
  · exact .ret _ _

/-- The first key is asked at the old version, and looked up after it has been
marked for the new one: the mark is spent at the old version, and the second
key, asked afterwards, is verified against it. -/
def relayOvertaken : List (Act Bool ℕ) := relayOnce ++ [.request true,.enter 2,.ask 2] ++ relayChange

def relayStale : List (Act Bool ℕ) :=
  [.look 2,.read 2,.advance 2,.publish 2,.request false,.enter 3,.ask 3,.look 3,.spawn 3,.ask 4,
    .look 4,.advance 4,.publish 4,.resume 4,.leave 4,.last 4,.deliver 4,.advance 3,.publish 3,
    .resume 3,.leave 3,.last 3]

end BuildFiji.Engine.Tasks
