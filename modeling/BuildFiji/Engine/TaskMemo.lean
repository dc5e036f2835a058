import BuildFiji.Engine.TaskSteps

/-!
# What the memo means while tasks run

A record is good at the versions that no finished change is later than. A
read is seen at a version: the record of its key has been verified at that
version, and has either not changed since the read or changed at a later
version. `outcomeAt` gives the outcome a key had from each `changed_at` on;
there is one such history as long as no task puts an old result in place.

A change is in progress from its write to its mark. Where the node was there
to be looked up, what read the old cell is marked, taken up by a computation
that was started because of the mark, or the change is still in progress.
-/

set_option autoImplicit false
set_option linter.all false

namespace BuildFiji.Engine.Tasks

variable {K V C : Type*}

def Computation.core (c : Computation K V C) : Computation K V C := { c with waiters := 0 }

/-- The state without the requests, the wait edges and the counts of waiters. -/
structure Core (K V C : Type*) where
  version : ℕ
  ext : K → C
  nodes : K → Option (Node K V)
  comp : ℕ → Option (Computation K V C)
  changes : List (Change K)

def Sys.core (s : Sys K V C) : Core K V C where
  version := s.version
  ext := s.ext
  nodes := s.nodes
  comp j := (s.comps[j]?).map Computation.core
  changes := s.changes

def State.record (comp : ℕ → Option (Computation K V C)) : State K V → Option (Evaluated K V)
  | .empty => none
  | .done e => some e
  | .running j => (comp j).bind Computation.previous

/-- What a node would give back if it were abandoned now. -/
def Core.record (x : Core K V C) (k : K) : Option (Evaluated K V) :=
  (x.nodes k).bind fun n => n.state.record x.comp

def Stage.started : Stage → Option ℕ
  | .bumped _ v => some v
  | .done v => some v
  | _ => none

/-- The change has written the cell and not yet started its version. -/
def Stage.unbumped : Stage → Bool
  | .set => true
  | .looked _ => true
  | _ => false

/-- The change has still to mark its node. -/
def Stage.marks : Stage → Bool
  | .set => true
  | .looked found => found
  | .bumped found _ => found
  | .done _ => false

namespace Core
variable (x : Core K V C)

/-- Every version that a change has started is at most `v`. -/
def Late (v : ℕ) : Prop := ∀ ch ∈ x.changes, ∀ v', ch.stage.started = some v' → v' ≤ v

def Early (v : ℕ) : Prop := ∃ ch ∈ x.changes, ∃ v', ch.stage.started = some v' ∧ v < v'

def Unbumped : Prop := ∃ ch ∈ x.changes, ch.stage.unbumped = true

def Pending (k : K) : Prop := ∃ ch ∈ x.changes, ch.key = k ∧ ch.stage.marks = true

/-- A change is about to mark a node that has been verified at its version. -/
def Doomed : Prop := ∃ ch ∈ x.changes, ∃ v e, ch.stage = .bumped true v ∧
  x.record ch.key = some e ∧ v ≤ e.verifiedAt

def Marked (k : K) : Prop := ∃ n, x.nodes k = some n ∧ n.dirty = true

def Taken (k : K) : Prop := ∃ j dirty c, x.nodes k = some ⟨.running j,dirty⟩ ∧
  x.comp j = some c ∧ c.dirty = true

/-- What a task has read of its cell is accounted for. -/
def Own (k : K) (cells : List C) : Prop :=
  (∀ c ∈ cells, c = x.ext k) ∨ x.Marked k ∨ x.Pending k

def Good (compute : K → Comp K V C) (d : K) (w : Outcome V) (v : ℕ) : Prop :=
  x.Doomed ∨ x.Unbumped ∨ (x.Late v → Scratch compute x.ext d w)

end Core

/-- The outcome of a key from each `changed_at` on. -/
abbrev History (K V : Type*) := K → ℕ → Outcome V

variable (compute : K → Comp K V C) (outcomeAt : History K V)

structure Seen (x : Core K V C) (d : K) (c v : ℕ) : Prop where
  record : ∃ e, x.record d = some e ∧ v ≤ e.verifiedAt ∧ c ≤ e.changedAt ∧
    (e.changedAt = c ∨ v < e.changedAt)
  good : x.Good compute d (outcomeAt d c) v

def Known (deps : List (K × ℕ)) (d : K) (w : Outcome V) : Prop :=
  ∃ c, (d,c) ∈ deps ∧ outcomeAt d c = w

/-- The reads of a computation at a version, up to the point `rest`. -/
structure Replayed (x : Core K V C) (k : K) (v : ℕ) (deps : List (K × ℕ)) (rest : Comp K V C)
    (cells : List C) : Prop where
  follows : Follows cells (Known outcomeAt deps) (compute k) rest
  seen : ∀ q ∈ deps, Seen compute outcomeAt x q.1 q.2 v

structure RecordOk (x : Core K V C) (k : K) (e : Evaluated K V) : Prop where
  fresh : e.changedAt ≤ e.verifiedAt ∧ e.verifiedAt ≤ x.version
  outcome : outcomeAt k e.changedAt = e.outcome
  good : x.Good compute k e.outcome e.verifiedAt
  replayed : ∃ cells, (x.Own k cells ∨ x.Taken k) ∧
    Replayed compute outcomeAt x k e.verifiedAt e.deps (.ret e.outcome) cells
  marked : x.Marked k ∨ x.Taken k → x.Early e.verifiedAt

def TaskOk (x : Core K V C) (c : Computation K V C) : Prop :=
  match c.task with
  | .verify checked todo _ => ∃ p, c.previous = some p ∧ c.dirty = false ∧
      p.deps = checked ++ todo ∧ ∀ q ∈ checked, Seen compute outcomeAt x q.1 q.2 c.version
  | .compute deps rest _ => ∃ cells, x.Own c.key cells ∧
      Replayed compute outcomeAt x c.key c.version deps rest cells
  | .publish e => e.verifiedAt = c.version ∧ (e.changedAt = c.version ∨
      ∃ p, c.previous = some p ∧ e.changedAt = p.changedAt ∧ e.outcome = p.outcome) ∧
      ∃ cells, x.Own c.key cells ∧
        Replayed compute outcomeAt x c.key c.version e.deps (.ret e.outcome) cells
  | _ => True

/-- A result that was the record of its key at some time since it was asked for. -/
structure Held (x : Core K V C) (k : K) (e : Evaluated K V) : Prop where
  version : e.verifiedAt ≤ x.version
  outcome : outcomeAt k e.changedAt = e.outcome
  seen : Seen compute outcomeAt x k e.changedAt e.verifiedAt

def Task.unfinished : Task K V C → Bool
  | .verify _ _ _ => true
  | .compute _ _ _ => true
  | .publish _ => true
  | _ => false

structure CompOk (x : Core K V C) (c : Computation K V C) : Prop where
  version : c.version ≤ x.version
  node : ∃ n, x.nodes c.key = some n
  previous : ∀ p, c.previous = some p → p.verifiedAt < c.version ∧
    ∀ q ∈ p.deps, ∃ e, x.record q.1 = some e ∧ q.2 ≤ e.changedAt
  task : c.aborted = false → TaskOk compute outcomeAt x c
  returned : ∀ r, c.task = .returned r → ∃ e, r = .ok e ∧ e.verifiedAt = c.version ∧
    Held compute outcomeAt x c.key e

structure CoreInv (x : Core K V C) : Prop where
  changes : ∀ ch ∈ x.changes, ∀ v, ch.stage.started = some v → v ≤ x.version
  records : ∀ k e, x.record k = some e → RecordOk compute outcomeAt x k e
  comps : ∀ j c, x.comp j = some c → CompOk compute outcomeAt x c
  running : ∀ k j dirty, x.nodes k = some ⟨.running j,dirty⟩ → ∃ c, x.comp j = some c ∧
    c.key = k ∧ c.aborted = false ∧ c.task.unfinished = true ∧
    (dirty = true → x.Early c.version)
  live : ∀ j c, x.comp j = some c → c.aborted = false → c.task.unfinished = true →
    ∃ dirty, x.nodes c.key = some ⟨.running j,dirty⟩

def Phase.result : Phase K V → Option (Result K V)
  | .leave _ r => r
  | .last _ r => r
  | .got r => r
  | _ => none

/-- The result a request has, or is about to be given. -/
def Gets (x : Core K V C) (r : Req K V) (e : Evaluated K V) : Prop :=
  r.phase.result = some (.ok e) ∨
    ∃ j c, r.phase = .await j ∧ x.comp j = some c ∧ c.task = .returned (.ok e)

/-- An answered request of a task is among what the task has recorded. -/
def Recorded (task : Task K V C) (k : K) (o : Outcome V) : Prop :=
  match task with
  | .verify _ _ _ => False
  | .compute deps _ _ => Known outcomeAt deps k o
  | _ => True

structure ReqInv (x : Core K V C) (r : Req K V) : Prop where
  version : r.version ≤ x.version
  owner : ∀ j, r.owner = some j → ∃ c, x.comp j = some c ∧ c.version = r.version ∧
    (c.aborted = false → ∀ o, r.phase = .done o → Recorded outcomeAt c.task r.key o) ∧
    ∀ p, c.previous = some p → ∀ e, Gets x r e → ∀ n, (r.key,n) ∈ p.deps → n ≤ e.changedAt
  await : ∀ j, r.phase = .await j → ∃ c, x.comp j = some c ∧ c.key = r.key ∧ c.version = r.version
  result : ∀ res, r.phase.result = some res → ∃ e, res = .ok e ∧ r.version ≤ e.verifiedAt ∧
    Held compute outcomeAt x r.key e

/-- The requests a task waits for are for the keys it asked. -/
def AskedOk (reqs : List (Req K V)) (j : ℕ) (task : Task K V C) : Prop :=
  match task with
  | .verify _ todo (some i) => ∃ q rest r, todo = q::rest ∧ reqs[i]? = some r ∧ r.key = q.1 ∧
      r.owner = some j
  | .compute _ rest (some asked) => ∃ keys cont, rest = .get keys cont ∧
      asked.length = keys.length ∧ ∀ p ∈ keys.zip asked, ∃ r, reqs[p.2]? = some r ∧ r.key = p.1 ∧
        r.owner = some j
  | _ => True

structure MemoInv (s : Sys K V C) : Prop where
  core : CoreInv compute outcomeAt s.core
  asked : ∀ j c, s.core.comp j = some c → AskedOk s.reqs j c.task
  reqs : ∀ r ∈ s.reqs, ReqInv compute outcomeAt s.core r

/-- How the records may change in one action. -/
structure Grows (x : Core K V C) (outcomeAt' : History K V) (x' : Core K V C) : Prop where
  version : x.version ≤ x'.version
  record : ∀ k p, x.record k = some p → ∃ e, x'.record k = some e ∧ (e = p ∨
    p.verifiedAt < e.verifiedAt ∧ (e.changedAt = p.changedAt ∨ e.changedAt = e.verifiedAt))
  outcome : ∀ k c p, x.record k = some p → c ≤ p.changedAt → outcomeAt' k c = outcomeAt k c
  good : ∀ d w v, v ≤ x.version → x.Good compute d w v → x'.Good compute d w v

variable {compute outcomeAt} {outcomeAt' : History K V} {x x' : Core K V C}

theorem Core.late_mono {v v' : ℕ} (h : v ≤ v') (hl : x.Late v) : x.Late v' :=
  fun ch hch v'' hs => (hl ch hch v'' hs).trans h

theorem Core.late_early {v : ℕ} (hl : x.Late v) : ¬ x.Early v := by
  rintro ⟨ch,hch,v',hs,hlt⟩
  exact absurd (hl ch hch v' hs) (by omega)

theorem Core.good_anti {d : K} {w : Outcome V} {v v' : ℕ} (h : v ≤ v')
    (hg : x.Good compute d w v') : x.Good compute d w v :=
  hg.imp_right fun hg => hg.imp_right fun hs hl => hs (late_mono h hl)

theorem Seen.anti {d : K} {c v v' : ℕ} (h : v ≤ v') (hs : Seen compute outcomeAt x d c v') :
    Seen compute outcomeAt x d c v := by
  obtain ⟨⟨e,he,hv,hc,hor⟩,hg⟩ := hs
  exact ⟨⟨e,he,h.trans hv,hc,hor.imp_right fun hlt => by omega⟩,x.good_anti h hg⟩

theorem Grows.changedAt (hx : CoreInv compute outcomeAt x)
    (g : Grows compute outcomeAt x outcomeAt' x') {k : K} {p : Evaluated K V}
    (hp : x.record k = some p) : ∃ e, x'.record k = some e ∧ p.changedAt ≤ e.changedAt := by
  have hf := (hx.records k p hp).fresh.1
  obtain ⟨e,he,rfl | ⟨hlt,hc | hc⟩⟩ := g.record k p hp
  · exact ⟨e,he,le_refl _⟩
  · exact ⟨e,he,hc.ge⟩
  · exact ⟨e,he,by omega⟩

theorem Seen.mono (hx : CoreInv compute outcomeAt x)
    (g : Grows compute outcomeAt x outcomeAt' x') {d : K} {c v : ℕ}
    (h : Seen compute outcomeAt x d c v) :
    Seen compute outcomeAt' x' d c v ∧ outcomeAt' d c = outcomeAt d c := by
  obtain ⟨⟨p,hp,hv,hc,hor⟩,hg⟩ := h
  obtain ⟨hf,hver⟩ := (hx.records d p hp).fresh
  have ho : outcomeAt' d c = outcomeAt d c := g.outcome d c p hp hc
  refine ⟨⟨?_,by rw [ho]; exact g.good _ _ _ (hv.trans hver) hg⟩,ho⟩
  obtain ⟨e,he,rfl | ⟨hlt,hch | hch⟩⟩ := g.record d p hp
  · exact ⟨e,he,hv,hc,hor⟩
  · exact ⟨e,he,by omega,by omega,by omega⟩
  · exact ⟨e,he,by omega,by omega,by omega⟩

theorem Replayed.mono (hx : CoreInv compute outcomeAt x)
    (g : Grows compute outcomeAt x outcomeAt' x') {k : K} {v : ℕ} {deps : List (K × ℕ)}
    {rest : Comp K V C} {cells : List C}
    (h : Replayed compute outcomeAt x k v deps rest cells) :
    Replayed compute outcomeAt' x' k v deps rest cells := by
  refine ⟨h.follows.mono (fun _ hc => hc) ?_,fun q hq => ((h.seen q hq).mono hx g).1⟩
  rintro d w ⟨c,hm,rfl⟩
  exact ⟨c,hm,((h.seen _ hm).mono hx g).2⟩

theorem Held.mono (hx : CoreInv compute outcomeAt x)
    (g : Grows compute outcomeAt x outcomeAt' x') {k : K} {e : Evaluated K V}
    (h : Held compute outcomeAt x k e) : Held compute outcomeAt' x' k e := by
  obtain ⟨hs,ho⟩ := h.seen.mono hx g
  exact ⟨h.version.trans g.version,ho.trans h.outcome,hs⟩

theorem RecordOk.mono (hx : CoreInv compute outcomeAt x)
    (g : Grows compute outcomeAt x outcomeAt' x') {k : K} {e : Evaluated K V}
    (hrec : x.record k = some e) (h : RecordOk compute outcomeAt x k e)
    (hown : ∀ cells, x.Own k cells ∨ x.Taken k → x'.Own k cells ∨ x'.Taken k)
    (hm : x'.Marked k ∨ x'.Taken k → x'.Early e.verifiedAt) :
    RecordOk compute outcomeAt' x' k e := by
  obtain ⟨cells,ho,hr⟩ := h.replayed
  exact ⟨⟨h.fresh.1,h.fresh.2.trans g.version⟩,(g.outcome k _ e hrec (le_refl _)).trans h.outcome,
    g.good _ _ _ h.fresh.2 h.good,⟨cells,hown cells ho,hr.mono hx g⟩,hm⟩

theorem TaskOk.mono (hx : CoreInv compute outcomeAt x)
    (g : Grows compute outcomeAt x outcomeAt' x') {c : Computation K V C}
    (h : TaskOk compute outcomeAt x c) (hown : ∀ cells, x.Own c.key cells → x'.Own c.key cells) :
    TaskOk compute outcomeAt' x' c := by
  unfold TaskOk at h ⊢
  cases ht : c.task with
  | verify checked todo asked =>
    rw [ht] at h
    obtain ⟨p,hp,hd,hdeps,hs⟩ := h
    exact ⟨p,hp,hd,hdeps,fun q hq => ((hs q hq).mono hx g).1⟩
  | compute deps rest asked =>
    rw [ht] at h
    obtain ⟨cells,ho,hr⟩ := h
    exact ⟨cells,hown cells ho,hr.mono hx g⟩
  | publish e =>
    rw [ht] at h
    obtain ⟨hv,hc,cells,ho,hr⟩ := h
    exact ⟨hv,hc,cells,hown cells ho,hr.mono hx g⟩
  | returned r => trivial
  | stopped => trivial

theorem CompOk.mono (hx : CoreInv compute outcomeAt x)
    (g : Grows compute outcomeAt x outcomeAt' x') {c : Computation K V C}
    (h : CompOk compute outcomeAt x c) (hn : ∃ n, x'.nodes c.key = some n)
    (hown : c.aborted = false → c.task.unfinished = true →
      ∀ cells, x.Own c.key cells → x'.Own c.key cells) :
    CompOk compute outcomeAt' x' c := by
  refine ⟨h.version.trans g.version,hn,fun p hp => ⟨(h.previous p hp).1,fun q hq => ?_⟩,fun ha => ?_,
    fun r hr => ?_⟩
  · obtain ⟨e,he,hle⟩ := (h.previous p hp).2 q hq
    obtain ⟨e',he',hle'⟩ := g.changedAt hx he
    exact ⟨e',he',hle.trans hle'⟩
  · by_cases hu : c.task.unfinished = true
    · exact (h.task ha).mono hx g (hown ha hu)
    · unfold TaskOk
      cases ht : c.task <;> simp_all [Task.unfinished]
  · obtain ⟨e,he,hv,hh⟩ := h.returned r hr
    exact ⟨e,he,hv,hh.mono hx g⟩

theorem recorded_mono (hx : CoreInv compute outcomeAt x)
    (g : Grows compute outcomeAt x outcomeAt' x') {c : Computation K V C}
    (h : CompOk compute outcomeAt x c) (ha : c.aborted = false) {k : K} {o : Outcome V}
    (hr : Recorded outcomeAt c.task k o) : Recorded outcomeAt' c.task k o := by
  have ht := h.task ha
  unfold TaskOk at ht
  unfold Recorded at hr ⊢
  cases hc : c.task with
  | verify checked todo asked => simp [hc] at hr
  | compute deps rest asked =>
    rw [hc] at hr ht
    obtain ⟨n,hm,rfl⟩ := hr
    obtain ⟨cells,-,hrep⟩ := ht
    exact ⟨n,hm,((hrep.seen _ hm).mono hx g).2⟩
  | publish e => trivial
  | returned r => trivial
  | stopped => trivial

/-- How the computations may change in one action. -/
def Evolves (outcomeAt : History K V) (x : Core K V C) (outcomeAt' : History K V)
    (x' : Core K V C) : Prop :=
  ∀ j c, x.comp j = some c → ∃ c', x'.comp j = some c' ∧ c'.key = c.key ∧
    c'.version = c.version ∧ c'.previous = c.previous ∧ (c'.aborted = false →
      c.aborted = false ∧ ∀ k o, Recorded outcomeAt c.task k o → Recorded outcomeAt' c'.task k o)

theorem ReqInv.mono (hx : CoreInv compute outcomeAt x)
    (g : Grows compute outcomeAt x outcomeAt' x') (hev : Evolves outcomeAt x outcomeAt' x')
    {r : Req K V} (h : ReqInv compute outcomeAt x r)
    (hg : ∀ e, Gets x' r e → Gets x r e ∨ ∀ j c p n, r.owner = some j → x.comp j = some c →
      c.previous = some p → (r.key,n) ∈ p.deps → n ≤ e.changedAt) :
    ReqInv compute outcomeAt' x' r := by
  refine ⟨h.version.trans g.version,fun j hj => ?_,fun j hj => ?_,fun res hres => ?_⟩
  · obtain ⟨c,hc,hv,hrec,hfl⟩ := h.owner j hj
    obtain ⟨c',hc',-,hv',hp',ha⟩ := hev j c hc
    refine ⟨c',hc',hv'.trans hv,fun hna o ho => ?_,fun p hp e he n hn => ?_⟩
    · exact (ha hna).2 _ _ (hrec (ha hna).1 o ho)
    · rcases hg e he with he | he
      · exact hfl p (hp' ▸ hp) e he n hn
      · exact he j c p n hj hc (hp' ▸ hp) hn
  · obtain ⟨c,hc,hk,hv⟩ := h.await j hj
    obtain ⟨c',hc',hk',hv',-⟩ := hev j c hc
    exact ⟨c',hc',hk'.trans hk,hv'.trans hv⟩
  · obtain ⟨e,he,hv,hh⟩ := h.result res hres
    exact ⟨e,he,hv,hh.mono hx g⟩

end BuildFiji.Engine.Tasks
