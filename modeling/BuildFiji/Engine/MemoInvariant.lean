import BuildFiji.Engine.Memo

/-!
# What the memo of the engine keeps true

Every evaluation, whether or not a wait is refused on the way, keeps the
records coherent: a record that lists all its reads can be replayed, and a
dependency whose `changed_at` is still the observed one still has the outcome
that was read. No external state is assumed to be acyclic here.
-/

set_option autoImplicit false
set_option linter.all false

namespace BuildFiji.Engine.Memo

variable {K V C : Type*} [DecidableEq K]

def Node.record : Node K V → Option (Evaluated K V)
  | ⟨.empty,_⟩ => none
  | ⟨.done e,_⟩ => some e
  | ⟨.running previous _,_⟩ => previous

def Node.stale : Node K V → Bool
  | ⟨.running _ d,dirty⟩ => dirty || d
  | ⟨_,dirty⟩ => dirty

def record (g : Graph K V) (k : K) : Option (Evaluated K V) := (g.nodes k).bind Node.record

def stale (g : Graph K V) (k : K) : Bool := (g.nodes k).any Node.stale

def Running (g : Graph K V) (k : K) : Prop := ∃ p d dirty, g.nodes k = some ⟨.running p d,dirty⟩

/-- A read: the key, the `changed_at` observed and the outcome given. -/
abbrev Read (K V : Type*) := K × ℕ × Outcome V

def stamps (tr : List (Read K V)) : List (K × ℕ) := tr.map fun t => (t.1,t.2.1)

def values (tr : List (Read K V)) : List (K × Outcome V) := tr.map fun t => (t.1,t.2.2)

structure Coherent (compute : K → Comp K V C) (ext : K → C) (g : Graph K V) : Prop where
  fresh : ∀ k e, record g k = some e → e.changedAt ≤ e.verifiedAt ∧ e.verifiedAt ≤ g.version ∧
    (stale g k = true → e.verifiedAt < g.version)
  deps : ∀ k e, record g k = some e → ∀ p ∈ e.deps,
    ∃ e', record g p.1 = some e' ∧ p.2 ≤ e'.changedAt
  replay : ∀ k e, record g k = some e → g.unrecorded k = false → ∃ own tr,
    e.deps = stamps tr ∧ Replay own (compute k) (values tr) e.outcome ∧
    (stale g k = true ∨ own = ext k) ∧
    ∀ t ∈ tr, ∀ e', record g t.1 = some e' → e'.changedAt = t.2.1 → e'.outcome = t.2.2

/-- What an evaluation leaves alone: waits, running nodes, and whatever was
verified at the version it runs at. -/
structure Frame (g g' : Graph K V) : Prop where
  version : g'.version = g.version
  waits : ∀ a b, (adj g'.waits a).count b = (adj g.waits a).count b
  running : ∀ n, Running g n → g'.nodes n = g.nodes n ∧ g'.unrecorded n = g.unrecorded n
  idle : ∀ n, ¬ Running g n → ¬ Running g' n
  verified : ∀ n e, record g n = some e → e.verifiedAt = g.version →
    record g' n = some e ∧ g'.unrecorded n = g.unrecorded n
  reverified : g'.reverified = false → g.reverified = false

theorem Frame.refl (g : Graph K V) : Frame g g :=
  ⟨rfl,fun _ _ => rfl,fun _ _ => ⟨rfl,rfl⟩,fun _ h => h,fun _ _ h _ => ⟨h,rfl⟩,fun h => h⟩

theorem Frame.running_iff {g g' : Graph K V} (h : Frame g g') (n : K) :
    Running g' n ↔ Running g n := by
  constructor
  · intro hr
    by_contra hn
    exact h.idle n hn hr
  · rintro ⟨p,d,dirty,hr⟩
    exact ⟨p,d,dirty,(h.running n ⟨p,d,dirty,hr⟩).1.trans hr⟩

theorem Frame.trans {g g' g'' : Graph K V} (h : Frame g g') (h' : Frame g' g'') : Frame g g'' where
  version := h'.version.trans h.version
  waits a b := (h'.waits a b).trans (h.waits a b)
  running n hr := by
    obtain ⟨h1,h2⟩ := h.running n hr
    obtain ⟨h3,h4⟩ := h'.running n ((h.running_iff n).mpr hr)
    exact ⟨h3.trans h1,h4.trans h2⟩
  idle n hn := h'.idle n (h.idle n hn)
  verified n e he hv := by
    obtain ⟨h1,h2⟩ := h.verified n e he hv
    obtain ⟨h3,h4⟩ := h'.verified n e h1 (hv.trans h.version.symm)
    exact ⟨h3,h4.trans h2⟩
  reverified hr := h.reverified (h'.reverified hr)

theorem set_nodes (g : Graph K V) (k n : K) (x : Node K V) :
    (g.set k x).nodes n = if n = k then some x else g.nodes n := by
  by_cases h : n = k
  · subst h
    simp [Graph.set]
  · simp [Graph.set, h]

theorem record_set (g : Graph K V) (k n : K) (x : Node K V) :
    record (g.set k x) n = if n = k then x.record else record g n := by
  unfold record
  rw [set_nodes]
  split <;> simp

theorem stale_set (g : Graph K V) (k n : K) (x : Node K V) :
    stale (g.set k x) n = if n = k then x.stale else stale g n := by
  unfold stale
  rw [set_nodes]
  split <;> simp

theorem node_cases (g : Graph K V) (k : K) :
    (∃ n, g.nodes k = some n ∧ g.node k = g) ∨
    (g.nodes k = none ∧ g.node k = g.set k ⟨.empty,false⟩) := by
  unfold Graph.node
  cases h : g.nodes k with
  | some n => exact .inl ⟨n,rfl,rfl⟩
  | none => exact .inr ⟨rfl,rfl⟩

theorem node_named (g : Graph K V) (k : K) : ∃ n, (g.node k).nodes k = some n := by
  rcases node_cases g k with ⟨n,h,he⟩ | ⟨h,he⟩
  · exact ⟨n,by rw [he, h]⟩
  · exact ⟨_,by rw [he, set_nodes, if_pos rfl]⟩

theorem node_record (g : Graph K V) (k n : K) : record (g.node k) n = record g n := by
  rcases node_cases g k with ⟨x,h,he⟩ | ⟨h,he⟩
  · rw [he]
  · rw [he, record_set]
    split
    · next hn => simp [hn, record, h, Node.record]
    · rfl

theorem node_stale (g : Graph K V) (k n : K) : stale (g.node k) n = stale g n := by
  rcases node_cases g k with ⟨x,h,he⟩ | ⟨h,he⟩
  · rw [he]
  · rw [he, stale_set]
    split
    · next hn => simp [hn, stale, h, Node.stale]
    · rfl

theorem node_unrecorded (g : Graph K V) (k : K) : (g.node k).unrecorded = g.unrecorded := by
  rcases node_cases g k with ⟨_,_,he⟩ | ⟨_,he⟩
  · rw [he]
  · rw [he]
    rfl

theorem node_waits (g : Graph K V) (k : K) : (g.node k).waits = g.waits := by
  rcases node_cases g k with ⟨_,_,he⟩ | ⟨_,he⟩
  · rw [he]
  · rw [he]
    rfl

theorem frame_node (g : Graph K V) (k : K) : Frame g (g.node k) := by
  rcases node_cases g k with ⟨_,_,he⟩ | ⟨h,he⟩
  · rw [he]
    exact .refl g
  · have hne : ∀ n, Running g n → n ≠ k := by
      rintro n ⟨p,d,dirty,hr⟩ rfl
      rw [h] at hr
      cases hr
    rw [he]
    refine ⟨rfl,fun _ _ => rfl,fun n hr => ?_,fun n hn => ?_,fun n e hn _ => ⟨?_,rfl⟩,fun h => h⟩
    · exact ⟨by rw [set_nodes, if_neg (hne n hr)],rfl⟩
    · rintro ⟨p,d,dirty,hr⟩
      rw [set_nodes] at hr
      split at hr
      · cases hr
      · exact hn ⟨p,d,dirty,hr⟩
    · rw [← he, node_record, hn]

section Invariant
variable {compute : K → Comp K V C} {ext : K → C}

omit [DecidableEq K] in
theorem Coherent.congr {g g' : Graph K V} (h : Coherent compute ext g)
    (hv : g'.version = g.version) (hr : ∀ n, record g' n = record g n)
    (hs : ∀ n, stale g' n = stale g n) (hu : g'.unrecorded = g.unrecorded) :
    Coherent compute ext g' := by
  refine ⟨fun k e he => ?_,fun k e he p hp => ?_,fun k e he hm => ?_⟩
  · rw [hr] at he
    rw [hs, hv]
    exact h.fresh k e he
  · rw [hr] at he
    simpa only [hr] using h.deps k e he p hp
  · rw [hr] at he
    rw [hu] at hm
    simpa only [hr, hs] using h.replay k e he hm

omit [DecidableEq K] in
theorem Coherent.waits {g : Graph K V} (h : Coherent compute ext g) (w : Waits K) :
    Coherent compute ext { g with waits := w } :=
  h.congr rfl (fun _ => rfl) (fun _ => rfl) rfl

theorem Coherent.node {g : Graph K V} (h : Coherent compute ext g) (k : K) :
    Coherent compute ext (g.node k) := by
  apply h.congr
  · exact (frame_node g k).version
  · exact node_record g k
  · exact node_stale g k
  · exact node_unrecorded g k

/-- A wait taken before an evaluation and given back after it leaves the wait
graph as it was. -/
theorem frame_wait {debug : K → String} {g g' : Graph K V} {k d : K} {w : Waits K}
    (hw : waitOn debug g.waits k d = .ok w) (h : Frame { g with waits := w } g') :
    Frame g (g'.unwait k d) := by
  obtain ⟨-,rfl⟩ := (waitOn_ok debug g.waits w k d).mp hw
  refine ⟨h.version,fun a b => ?_,h.running,h.idle,h.verified,h.reverified⟩
  have hc : ∀ a b, (adj g'.waits a).count b =
      (adj g.waits a).count b + if a = k ∧ b = d then 1 else 0 :=
    fun a b => (h.waits a b).trans (pushWait_count g.waits k d a b)
  have hd : d ∈ adj g'.waits k := List.count_pos_iff.mp (by rw [hc]; simp)
  rw [Graph.unwait, dropWaiting_count _ _ _ _ _ hd, hc, Nat.add_sub_cancel]

/-- A read whose dependency is as it was when it was read, at this version. -/
def Current (g : Graph K V) (t : Read K V) : Prop :=
  ∃ e, record g t.1 = some e ∧ e.verifiedAt = g.version ∧ e.changedAt = t.2.1 ∧ e.outcome = t.2.2

def Observed (g : Graph K V) (q : K × ℕ) : Prop :=
  ∃ e, record g q.1 = some e ∧ e.verifiedAt = g.version ∧ e.changedAt ≤ q.2

theorem Frame.current {g g' : Graph K V} (h : Frame g g') {t : Read K V} (ht : Current g t) :
    Current g' t := by
  obtain ⟨e,he,hv,hc,ho⟩ := ht
  exact ⟨e,(h.verified _ e he hv).1,hv.trans h.version.symm,hc,ho⟩

theorem Frame.observed {g g' : Graph K V} (h : Frame g g') {q : K × ℕ} (hq : Observed g q) :
    Observed g' q := by
  obtain ⟨e,he,hv,hc⟩ := hq
  exact ⟨e,(h.verified _ e he hv).1,hv.trans h.version.symm,hc⟩

theorem Frame.record_running {g g' : Graph K V} (h : Frame g g') {k : K} (hk : Running g k) :
    record g' k = record g k := by rw [record, record, (h.running k hk).1]

theorem Frame.stale_running {g g' : Graph K V} (h : Frame g g') {k : K} (hk : Running g k) :
    stale g' k = stale g k := by rw [stale, stale, (h.running k hk).1]

def start (g : Graph K V) (k : K) (previous : Option (Evaluated K V)) (dirty : Bool) : Graph K V :=
  g.set k ⟨.running previous dirty,false⟩

def finish (g : Graph K V) (k : K) (e : Evaluated K V) (missed : Bool) : Graph K V :=
  { g.set k ⟨.done e,false⟩ with unrecorded := Function.update g.unrecorded k missed }

@[simp] theorem finish_version (g : Graph K V) (k : K) (e : Evaluated K V) (missed : Bool) :
    (finish g k e missed).version = g.version := rfl

theorem finish_record (g : Graph K V) (k n : K) (e : Evaluated K V) (missed : Bool) :
    record (finish g k e missed) n = if n = k then some e else record g n :=
  record_set g k n ⟨.done e,false⟩

theorem finish_stale (g : Graph K V) (k n : K) (e : Evaluated K V) (missed : Bool) :
    stale (finish g k e missed) n = if n = k then false else stale g n :=
  stale_set g k n ⟨.done e,false⟩

theorem finish_unrecorded (g : Graph K V) (k n : K) (e : Evaluated K V) (missed : Bool) :
    (finish g k e missed).unrecorded n = if n = k then missed else g.unrecorded n := by
  simp [finish, Function.update_apply]

/-- A record that may take the place of what its node held. -/
def Supersedes (previous : Option (Evaluated K V)) (e : Evaluated K V) : Prop :=
  ∀ p, previous = some p → p.changedAt ≤ e.changedAt ∧
    (e.changedAt = p.changedAt → e.outcome = p.outcome)

omit [DecidableEq K] in
/-- A record stays coherent when the records it may have read are superseded. -/
theorem reads_superseded {g g' : Graph K V} {tr : List (Read K V)}
    (hd : ∀ q ∈ stamps tr, ∃ e, record g q.1 = some e ∧ q.2 ≤ e.changedAt)
    (ho : ∀ t ∈ tr, ∀ e, record g t.1 = some e → e.changedAt = t.2.1 → e.outcome = t.2.2)
    (hs : ∀ n e, record g' n = some e → Supersedes (record g n) e) :
    ∀ t ∈ tr, ∀ e, record g' t.1 = some e → e.changedAt = t.2.1 → e.outcome = t.2.2 := by
  intro t ht e he hc
  obtain ⟨p,hp,hle⟩ := hd (t.1,t.2.1) (List.mem_map_of_mem ht)
  obtain ⟨hpe,heq⟩ := hs t.1 e he p hp
  have hpc : e.changedAt = p.changedAt := by
    dsimp only at hle
    omega
  rw [heq hpc]
  exact ho t ht p hp (hpc ▸ hc)

theorem finish_supersedes {g : Graph K V} {k : K} {e : Evaluated K V}
    (hs : Supersedes (record g k) e) (missed : Bool) (n : K) (e' : Evaluated K V)
    (he : record (finish g k e missed) n = some e') : Supersedes (record g n) e' := by
  rw [finish_record] at he
  split at he
  · next hn =>
    subst hn
    exact Option.some.inj he ▸ hs
  · intro p hp
    obtain rfl : e' = p := Option.some.inj (he.symm.trans hp)
    exact ⟨le_refl _,fun _ => rfl⟩

theorem finish_deps {g : Graph K V} {k n : K} {e p : Evaluated K V} {c : ℕ}
    (hs : Supersedes (record g k) e) (missed : Bool) (hp : record g n = some p)
    (hc : c ≤ p.changedAt) :
    ∃ e', record (finish g k e missed) n = some e' ∧ c ≤ e'.changedAt := by
  rw [finish_record]
  split
  · next hn =>
    subst hn
    exact ⟨e,rfl,hc.trans (hs p hp).1⟩
  · exact ⟨p,hp,hc⟩

/-- Putting a record of this version in place keeps the memo coherent, if
the record is coherent with the records it read. -/
theorem Coherent.finish {g : Graph K V} {k : K} {e : Evaluated K V} {missed : Bool}
    (h : Coherent compute ext g) (hs : Supersedes (record g k) e) (hc : e.changedAt ≤ e.verifiedAt)
    (hv : e.verifiedAt = g.version)
    (hd : ∀ q ∈ e.deps, ∃ e', record g q.1 = some e' ∧ q.2 ≤ e'.changedAt)
    (hr : missed = false → ∃ tr, e.deps = stamps tr ∧
      Replay (ext k) (compute k) (values tr) e.outcome ∧
      ∀ t ∈ tr, ∀ e', record g t.1 = some e' → e'.changedAt = t.2.1 → e'.outcome = t.2.2) :
    Coherent compute ext (finish g k e missed) := by
  have hsup := finish_supersedes hs missed
  refine ⟨fun n e' he => ?_,fun n e' he q hq => ?_,fun n e' he hm => ?_⟩
  · rw [finish_stale]
    rw [finish_record] at he
    split at he
    · next hn =>
      obtain rfl := Option.some.inj he
      exact ⟨hc,hv.le,by simp [hn]⟩
    · next hn => simpa [hn] using h.fresh n e' he
  · rw [finish_record] at he
    split at he
    · obtain rfl := Option.some.inj he
      obtain ⟨p,hp,hle⟩ := hd q hq
      exact finish_deps hs missed hp hle
    · obtain ⟨p,hp,hle⟩ := h.deps n e' he q hq
      exact finish_deps hs missed hp hle
  · rw [finish_unrecorded] at hm
    rw [finish_record] at he
    rw [finish_stale]
    split at he
    · next hn =>
      subst hn
      obtain rfl := Option.some.inj he
      obtain ⟨tr,ht,hre,ho⟩ := hr (by simpa using hm)
      exact ⟨ext n,tr,ht,hre,.inr rfl,reads_superseded (by rwa [← ht]) ho hsup⟩
    · next hn =>
      obtain ⟨own,tr,ht,hre,hown,ho⟩ := h.replay n e' he (by simpa [hn] using hm)
      have hdep := h.deps n e' he
      rw [ht] at hdep
      exact ⟨own,tr,ht,hre,by simpa [hn] using hown,reads_superseded hdep ho hsup⟩

/-- A node that was started and is not running any more, with everything in
between framed. -/
theorem frame_close {g g' g'' : Graph K V} {k : K} {previous : Option (Evaluated K V)} {dirty : Bool}
    (h : Frame (start g k previous dirty) g') (hk : ¬ Running g k) (hk' : ¬ Running g'' k)
    (hold : ∀ e, record g k = some e → e.verifiedAt ≠ g.version)
    (hn : ∀ n, n ≠ k → g''.nodes n = g'.nodes n ∧ g''.unrecorded n = g'.unrecorded n)
    (hv : g''.version = g'.version) (hw : g''.waits = g'.waits)
    (hr : g''.reverified = g'.reverified) : Frame g g'' := by
  have hset : ∀ n, n ≠ k → (start g k previous dirty).nodes n = g.nodes n :=
    fun n hne => by rw [start, set_nodes, if_neg hne]
  have hrun : ∀ n, n ≠ k → (Running (start g k previous dirty) n ↔ Running g n) :=
    fun n hne => by rw [Running, Running, hset n hne]
  refine ⟨hv.trans h.version,fun a b => ?_,fun n hr => ?_,fun n hnr => ?_,fun n e he hve => ?_,?_⟩
  · rw [hw]
    exact h.waits a b
  · have hne : n ≠ k := fun e => hk (e ▸ hr)
    obtain ⟨h1,h2⟩ := h.running n ((hrun n hne).mpr hr)
    exact ⟨(hn n hne).1.trans (h1.trans (hset n hne)),(hn n hne).2.trans h2⟩
  · by_cases hne : n = k
    · exact hne ▸ hk'
    · have hi := h.idle n (fun hr => hnr ((hrun n hne).mp hr))
      rwa [Running, (hn n hne).1]
  · have hne : n ≠ k := fun e' => hold e (e' ▸ he) hve
    have hrec : record (start g k previous dirty) n = some e := by rw [record, hset n hne]; exact he
    obtain ⟨h1,h2⟩ := h.verified n e hrec hve
    exact ⟨by rw [record, (hn n hne).1]; exact h1,(hn n hne).2.trans h2⟩
  · intro hf
    exact h.reverified (hr ▸ hf)

end Invariant

end BuildFiji.Engine.Memo
