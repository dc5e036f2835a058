import Mathlib.Data.List.Basic
import Mathlib.Data.Nat.Notation
import BuildFiji.Lib.Fallible
import Mathlib.Data.List.Count
import Mathlib.Data.List.Induction

/-!
# The slots of the jobs

A freed slot is handed to the waiting action with the greatest rank, of equal
ones to the one that came first.
-/

set_option autoImplicit false
set_option linter.all false

namespace BuildFiji.Exec

structure Waiter where
  rank : ℕ
  arrival : ℕ
  id : ℕ
  deriving DecidableEq, Repr

def Waiter.before (a b : Waiter) : Bool := b.rank < a.rank || (a.rank = b.rank && a.arrival < b.arrival)

structure Slots where
  free : ℕ
  next : ℕ
  waiting : List Waiter
  deriving DecidableEq, Repr

namespace Slots

def new (count : ℕ) : Slots := ⟨count,0,[]⟩

/-- What the heap pops. -/
def greatest : List Waiter → Option Waiter
  | [] => none
  | w::ws =>
    match greatest ws with
    | none => some w
    | some v => if v.before w then some v else some w

/-- A slot at once, or a place in the heap. -/
def acquire (s : Slots) (rank id : ℕ) : Slots × Bool :=
  if 0 < s.free ∧ s.waiting = [] then ({ s with free := s.free-1 },true)
  else ({ s with next := s.next+1, waiting := ⟨rank,s.next,id⟩::s.waiting },false)

/-- The slot handed on, and to whom. -/
def release (s : Slots) : Slots × Option ℕ :=
  match greatest s.waiting with
  | some w => ({ s with waiting := s.waiting.erase w },some w.id)
  | none => ({ s with free := s.free+1 },none)

def ids (s : Slots) : List ℕ := s.waiting.map Waiter.id

theorem greatest_mem {ws : List Waiter} {w : Waiter} (h : greatest ws = some w) : w ∈ ws := by
  induction ws with
  | nil => cases h
  | cons v ws ih =>
    rw [greatest] at h
    split at h
    · rw [← Option.some.inj h]
      exact List.mem_cons_self
    · next u hu =>
      split at h
      · exact List.mem_cons_of_mem _ (ih (hu.trans h))
      · rw [← Option.some.inj h]
        exact List.mem_cons_self

theorem greatest_none {ws : List Waiter} (h : greatest ws = none) : ws = [] := by
  cases ws with
  | nil => rfl
  | cons v ws =>
    rw [greatest] at h
    split at h
    · cases h
    · split at h
      · cases h
      · cases h

/-- Nobody that waits goes before the one that is served. -/
theorem greatest_first {ws : List Waiter} {w : Waiter} (h : greatest ws = some w) :
    ∀ v ∈ ws, v.before w = false := by
  have hbefore : ∀ a b : Waiter, a.before b = true ↔
      b.rank < a.rank ∨ a.rank = b.rank ∧ a.arrival < b.arrival := by
    intro a b
    rw [Waiter.before, Bool.or_eq_true, Bool.and_eq_true, decide_eq_true_eq, decide_eq_true_eq,
      decide_eq_true_eq]
  induction ws generalizing w with
  | nil => cases h
  | cons u ws ih =>
    intro v hv
    rw [← Bool.not_eq_true, hbefore]
    rw [greatest] at h
    split at h
    · next hnone =>
      obtain rfl := Option.some.inj h
      rw [greatest_none hnone, List.mem_singleton] at hv
      subst hv
      omega
    · next x hx =>
      have hxs := ih hx
      split at h
      · next hxu =>
        obtain rfl := Option.some.inj h
        rcases List.mem_cons.mp hv with rfl | hv
        · have := (hbefore _ _).mp hxu
          omega
        · have := hxs v hv
          rw [← Bool.not_eq_true, hbefore] at this
          exact this
      · next hxu =>
        obtain rfl := Option.some.inj h
        rw [hbefore] at hxu
        rcases List.mem_cons.mp hv with rfl | hv
        · omega
        · have := hxs v hv
          rw [← Bool.not_eq_true, hbefore] at this
          omega

theorem erase_ids {ws : List Waiter} {w : Waiter} (hnodup : (ws.map Waiter.id).Nodup) (hw : w ∈ ws) :
    (ws.erase w).map Waiter.id = (ws.map Waiter.id).erase w.id := by
  induction ws with
  | nil => cases hw
  | cons v ws ih =>
    rw [List.map_cons, List.nodup_cons] at hnodup
    by_cases hv : v = w
    · subst hv
      rw [List.erase_cons_head, List.map_cons, List.erase_cons_head]
    · have hmem := (List.mem_cons.mp hw).resolve_left (Ne.symm hv)
      have hid : v.id ≠ w.id := fun heq => hnodup.1 (heq ▸ List.mem_map_of_mem hmem)
      rw [List.erase_cons_tail (by simpa using hv), List.map_cons, List.map_cons,
        List.erase_cons_tail (by simpa using hid), ih hnodup.2 hmem]

end Slots

end BuildFiji.Exec

/-!
## Slots whose waiters give up

A slot is sent to its waiter outside the lock, and a call that waits may be given up at any
moment. Whoever gives up before the slot is sent is passed over; whoever gives up after that
takes the slot along.
-/

namespace BuildFiji.Exec

/-- Where a call of `acquire` is. -/
inductive CallPlace where
  | waiting
  /-- The slot was sent, and the call has not gone on yet. -/
  | handed
  | holding
  /-- The slot is being dropped, and is not handed on yet. -/
  | dropping
  | over
deriving DecidableEq

/-- The calls are numbered as they came; `lock` is whose drop has the lock. -/
structure Pool where
  slots : Slots
  calls : List CallPlace
  lock : Option ℕ
deriving DecidableEq

inductive PoolEvent where
  | acquire (rank : ℕ)
  /-- The call goes on with the slot that was sent to it. -/
  | resume (i : ℕ)
  /-- The future of the call is dropped. -/
  | giveUp (i : ℕ)
  | drop (i : ℕ)
  /-- The drop gets the lock. -/
  | lock (i : ℕ)
  /-- The drop that has the lock pops the next waiter and sends it the slot, or frees the slot. -/
  | release
deriving DecidableEq

namespace Pool

def new (count : ℕ) : Pool := ⟨.new count,[],none⟩

/-- A sent slot is received only if the call still waits. -/
def send (s : Pool) (i : ℕ) (slots : Slots) (w : ℕ) : Pool :=
  if s.calls[w]? = some .waiting then ⟨slots,(s.calls.set w .handed).set i .over,none⟩
  else { s with slots := slots }

def step (s : Pool) : PoolEvent → Option Pool
  | .acquire rank =>
    if s.lock = none then
      let taken := s.slots.acquire rank s.calls.length
      some { s with slots := taken.1, calls := s.calls ++ [if taken.2 then .holding else .waiting] }
    else none
  | .resume i =>
    if s.calls[i]? = some .handed then some { s with calls := s.calls.set i .holding } else none
  | .giveUp i =>
    if s.calls[i]? = some .waiting ∨ s.calls[i]? = some .handed then
      some { s with calls := s.calls.set i .over }
    else none
  | .drop i =>
    if s.calls[i]? = some .holding then some { s with calls := s.calls.set i .dropping } else none
  | .lock i =>
    if s.lock = none ∧ s.calls[i]? = some .dropping then some { s with lock := some i } else none
  | .release =>
    match s.lock with
    | none => none
    | some i =>
      match s.slots.release with
      | (slots,some w) => some (s.send i slots w)
      | (slots,none) => some ⟨slots,s.calls.set i .over,none⟩

def run (s : Pool) (events : List PoolEvent) : Option Pool := events.foldlM step s

/-- The slots there are as values, one that is being dropped with them. -/
def live (s : Pool) : ℕ := s.calls.countP fun p => p = .holding ∨ p = .dropping

def handed (s : Pool) : ℕ := s.calls.count .handed

/-- No slot is lost or made, and none is free while somebody waits. -/
structure Right (count : ℕ) (s : Pool) : Prop where
  conserved : s.live + s.handed + s.slots.free = count
  idle : 0 < s.slots.free → ∀ i : ℕ, s.calls[i]? ≠ some .waiting

/-- Whoever is handed a slot waited, and nobody who waits goes before. -/
def HandsOn (s s' : Pool) : Prop :=
  ∀ i : ℕ, s.calls[i]? ≠ some .handed → s'.calls[i]? = some .handed →
    s.calls[i]? = some .waiting ∧ ∃ w ∈ s.slots.waiting, w.id = i ∧
      ∀ j : ℕ, s.calls[j]? = some .waiting → ∃ v ∈ s.slots.waiting, v.id = j ∧ v.before w = false

/-- No call is given up between being sent a slot and going on with it. -/
def Kept (s : Pool) : PoolEvent → Prop
  | .giveUp i => s.calls[i]? ≠ some .handed
  | _ => True

section Counts

/-- There is a slot that is this call's. -/
def owns (p : CallPlace) : Bool := p = .holding ∨ p = .dropping ∨ p = .handed

theorem live_handed (s : Pool) : s.live + s.handed = s.calls.countP owns := by
  unfold live handed
  induction s.calls with
  | nil => rfl
  | cons p calls ih =>
    rw [List.countP_cons, List.countP_cons, List.count_cons, ← ih]
    cases p <;> simp [owns] <;> omega

theorem countP_set {calls : List CallPlace} {i : ℕ} {p : CallPlace} (h : calls[i]? = some p) (q : CallPlace) :
    (calls.set i q).countP owns + (if owns p then 1 else 0) =
      calls.countP owns + if owns q then 1 else 0 := by
  obtain ⟨hlt,hp⟩ := List.getElem?_eq_some_iff.mp h
  induction calls generalizing i with
  | nil => cases h
  | cons c calls ih =>
    cases i with
    | zero =>
      cases h
      rw [List.set_cons_zero, List.countP_cons, List.countP_cons]
      omega
    | succ i =>
      rw [List.getElem?_cons_succ] at h
      rw [List.set_cons_succ, List.countP_cons, List.countP_cons]
      have := ih h (by simpa using hlt) (by simpa using hp)
      omega

end Counts

section Steps

/-- What the heap and the calls have to do with each other; `lost` slots were taken along. -/
structure Inv (count lost : ℕ) (s : Pool) : Prop where
  total : s.calls.countP owns + s.slots.free + lost = count
  idle : s.slots.free = 0 ∨ s.slots.waiting = []
  entries : ∀ i : ℕ, s.calls[i]? = some .waiting → ∃ w ∈ s.slots.waiting, w.id = i
  locked : ∀ i : ℕ, s.lock = some i → s.calls[i]? = some .dropping

variable {count lost : ℕ} {s s' : Pool}

theorem inv_new (count : ℕ) : Inv count 0 (new count) :=
  ⟨Nat.zero_add count,.inr rfl,fun _ h => (nomatch h),fun _ h => (nomatch h)⟩

theorem Inv.right (h : Inv count lost s) : s.Right count ↔ lost = 0 := by
  have htotal := h.total
  have hlive := live_handed s
  constructor
  · intro hright
    have := hright.conserved
    omega
  · intro hlost
    refine ⟨by omega,fun hfree i hi => ?_⟩
    obtain ⟨w,hw,-⟩ := h.entries i hi
    rcases h.idle with hidle | hidle
    · omega
    · rw [hidle] at hw
      cases hw

/-- Of another call nothing changes. -/
theorem set_place {calls : List CallPlace} {i j : ℕ} {p q : CallPlace} (h : (calls.set i p)[j]? = some q)
    (hpq : p ≠ q) : calls[j]? = some q := by
  by_cases hij : i = j
  · subst hij
    rw [List.getElem?_set] at h
    split at h
    · split at h
      · cases h
        exact absurd rfl hpq
      · cases h
    · next hne => exact absurd rfl hne
  · rwa [List.getElem?_set_ne hij] at h

/-- A call moves on by itself, which is not from the heap into it, nor the one with the lock. -/
theorem Inv.move (h : Inv count lost s) {i : ℕ} {p q : CallPlace} (hp : s.calls[i]? = some p)
    (hq : q ≠ .waiting) (hlock : p ≠ .dropping) {lost' : ℕ}
    (hcount : (if owns p then 1 else 0) + lost = (if owns q then 1 else 0) + lost') :
    Inv count lost' { s with calls := s.calls.set i q } := by
  have htotal := h.total
  have hset := countP_set hp q
  refine ⟨by dsimp only; omega,h.idle,fun j hj => h.entries j (set_place hj hq),fun j hj => ?_⟩
  have hne : i ≠ j := by
    rintro rfl
    have := h.locked i hj
    rw [hp] at this
    exact hlock (Option.some.inj this)
  dsimp only
  rw [List.getElem?_set_ne hne]
  exact h.locked j hj

/-- The slots that one step takes along. -/
def losses (s : Pool) : PoolEvent → ℕ
  | .giveUp i => if s.calls[i]? = some .handed then 1 else 0
  | _ => 0

theorem Inv.acquire (h : Inv count lost s) (rank : ℕ) (hlock : s.lock = none) :
    Inv count lost { s with
      slots := (s.slots.acquire rank s.calls.length).1
      calls := s.calls ++ [if (s.slots.acquire rank s.calls.length).2 then .holding else .waiting] } := by
  have htotal := h.total
  have hlocked : ∀ i : ℕ, s.lock ≠ some i := fun i hi => by
    rw [hlock] at hi
    cases hi
  by_cases hfree : 0 < s.slots.free ∧ s.slots.waiting = []
  · have hslots : s.slots.acquire rank s.calls.length = ({ s.slots with free := s.slots.free-1 },true) :=
      if_pos hfree
    rw [hslots]
    refine ⟨?_,.inr hfree.2,fun i hi => ?_,fun i hi => absurd hi (hlocked i)⟩
    · rw [List.countP_append]
      simp [owns]
      omega
    · dsimp only at hi ⊢
      rw [List.getElem?_append] at hi
      split at hi
      · exact h.entries i hi
      · rw [List.getElem?_singleton] at hi
        split at hi <;> cases hi
  · have hslots : s.slots.acquire rank s.calls.length = ({ s.slots with
        next := s.slots.next+1, waiting := ⟨rank,s.slots.next,s.calls.length⟩::s.slots.waiting },false) :=
      if_neg hfree
    rw [hslots]
    refine ⟨?_,.inl ?_,fun i hi => ?_,fun i hi => absurd hi (hlocked i)⟩
    · rw [List.countP_append]
      simp [owns]
      omega
    · rcases h.idle with hidle | hidle
      · exact hidle
      · dsimp only
        by_contra hne
        exact hfree ⟨Nat.pos_of_ne_zero hne,hidle⟩
    · dsimp only at hi ⊢
      rw [List.getElem?_append] at hi
      split at hi
      · obtain ⟨w,hw,hid⟩ := h.entries i hi
        exact ⟨w,List.mem_cons_of_mem _ hw,hid⟩
      · next hge =>
        rw [List.getElem?_singleton] at hi
        split at hi
        · exact ⟨_,List.mem_cons_self,by dsimp only; omega⟩
        · cases hi

/-- The slot goes to the one that is popped, if that still waits. -/
theorem Inv.send (h : Inv count lost s) {i : ℕ} (hlock : s.lock = some i) {w : Waiter}
    (hw : Slots.greatest s.slots.waiting = some w) :
    Inv count lost (s.send i { s.slots with waiting := s.slots.waiting.erase w } w.id) := by
  have htotal := h.total
  have hmem := Slots.greatest_mem hw
  have hfree : s.slots.free = 0 := by
    rcases h.idle with hidle | hidle
    · exact hidle
    · rw [hidle] at hmem
      cases hmem
  have hkept : ∀ j : ℕ, j ≠ w.id → s.calls[j]? = some .waiting → ∃ v ∈ s.slots.waiting.erase w, v.id = j := by
    intro j hne hj
    obtain ⟨v,hv,hid⟩ := h.entries j hj
    refine ⟨v,(List.mem_erase_of_ne ?_).mpr hv,hid⟩
    rintro rfl
    exact hne hid.symm
  unfold Pool.send
  split
  · next hwaits =>
    have hdropping := h.locked i hlock
    have hne : w.id ≠ i := by
      intro heq
      rw [heq, hdropping] at hwaits
      cases hwaits
    have hset := countP_set hwaits .handed
    have hstill : (s.calls.set w.id .handed)[i]? = some .dropping := (List.getElem?_set_ne hne).trans hdropping
    have hset' := countP_set hstill .over
    have howns : owns .waiting = false ∧ owns .handed = true ∧ owns .dropping = true ∧ owns .over = false := by
      decide
    rw [howns.1, howns.2.1] at hset
    rw [howns.2.2.1, howns.2.2.2] at hset'
    refine ⟨?_,.inl hfree,fun j hj => ?_,fun j hj => nomatch hj⟩
    · simp only [if_true, Bool.false_eq_true, if_false] at hset hset'
      dsimp only
      omega
    · have hj' := set_place (set_place hj (by decide)) (by decide)
      refine hkept j ?_ hj'
      rintro rfl
      dsimp only at hj
      rw [List.getElem?_set_ne hne.symm, List.getElem?_set_self (List.getElem?_eq_some_iff.mp hwaits).1] at hj
      cases hj
  · next hgone =>
    refine ⟨htotal,.inl hfree,fun j hj => hkept j ?_ hj,h.locked⟩
    rintro rfl
    exact hgone hj

theorem Inv.step (h : Inv count lost s) {e : PoolEvent} (hstep : step s e = some s') :
    Inv count (lost + s.losses e) s' := by
  unfold Pool.step at hstep
  cases e with
  | acquire rank =>
    dsimp only at hstep
    split at hstep
    · next hlock =>
      cases hstep
      exact h.acquire rank hlock
    · cases hstep
  | resume i =>
    dsimp only at hstep
    split at hstep
    · next hp =>
      cases hstep
      exact h.move hp (by decide) (by decide) rfl
    · cases hstep
  | giveUp i =>
    dsimp only at hstep
    split at hstep
    · next hp =>
      cases hstep
      rcases hp with hp | hp
      · exact h.move hp (by decide) (by decide) (by simp [losses, hp, owns])
      · exact h.move hp (by decide) (by decide) (by simp [losses, hp, owns]; omega)
    · cases hstep
  | drop i =>
    dsimp only at hstep
    split at hstep
    · next hp =>
      cases hstep
      exact h.move hp (by decide) (by decide) rfl
    · cases hstep
  | lock i =>
    dsimp only at hstep
    split at hstep
    · next hp =>
      cases hstep
      refine ⟨h.total,h.idle,h.entries,fun j hj => ?_⟩
      cases hj
      exact hp.2
    · cases hstep
  | release =>
    dsimp only at hstep
    cases hlock : s.lock with
    | none =>
      rw [hlock] at hstep
      cases hstep
    | some i =>
      rw [hlock] at hstep
      unfold Slots.release at hstep
      cases hw : Slots.greatest s.slots.waiting with
      | some w =>
        rw [hw] at hstep
        cases hstep
        exact h.send hlock hw
      | none =>
        rw [hw] at hstep
        cases hstep
        have htotal := h.total
        have hset := countP_set (h.locked i hlock) .over
        have howns : owns .dropping = true ∧ owns .over = false := by decide
        rw [howns.1, howns.2] at hset
        simp only [if_true, Bool.false_eq_true, if_false] at hset
        refine ⟨?_,.inr (Slots.greatest_none hw),fun j hj => h.entries j (set_place hj (by decide)),
          fun j hj => nomatch hj⟩
        dsimp only [losses]
        omega

/-- A waiter that is popped goes before all that wait. -/
theorem Inv.handsOn (h : Inv count lost s) {e : PoolEvent} (hstep : Pool.step s e = some s') :
    HandsOn s s' := by
  intro i hnot hi
  unfold Pool.step at hstep
  cases e with
  | acquire rank =>
    dsimp only at hstep
    split at hstep
    · cases hstep
      dsimp only at hi
      rw [List.getElem?_append] at hi
      split at hi
      · exact absurd hi hnot
      · rw [List.getElem?_singleton] at hi
        split at hi
        · split at hi <;> cases hi
        · cases hi
    · cases hstep
  | resume j =>
    dsimp only at hstep
    split at hstep
    · cases hstep
      exact absurd (set_place hi (by decide)) hnot
    · cases hstep
  | giveUp j =>
    dsimp only at hstep
    split at hstep
    · cases hstep
      exact absurd (set_place hi (by decide)) hnot
    · cases hstep
  | drop j =>
    dsimp only at hstep
    split at hstep
    · cases hstep
      exact absurd (set_place hi (by decide)) hnot
    · cases hstep
  | lock j =>
    dsimp only at hstep
    split at hstep
    · cases hstep
      exact absurd hi hnot
    · cases hstep
  | release =>
    dsimp only at hstep
    cases hlock : s.lock with
    | none =>
      rw [hlock] at hstep
      cases hstep
    | some k =>
      rw [hlock] at hstep
      unfold Slots.release at hstep
      cases hw : Slots.greatest s.slots.waiting with
      | none =>
        rw [hw] at hstep
        cases hstep
        exact absurd (set_place hi (by decide)) hnot
      | some w =>
        rw [hw] at hstep
        cases hstep
        unfold Pool.send at hi
        split at hi
        · next hwaits =>
          have hi' := set_place hi (by decide)
          have heq : w.id = i := by
            by_contra hne
            rw [List.getElem?_set_ne hne] at hi'
            exact hnot hi'
          subst heq
          refine ⟨hwaits,w,Slots.greatest_mem hw,rfl,fun j hj => ?_⟩
          obtain ⟨v,hv,hid⟩ := h.entries j hj
          exact ⟨v,hv,hid,Slots.greatest_first hw v hv⟩
        · exact absurd hi hnot

theorem run_concat (s : Pool) (events : List PoolEvent) (e : PoolEvent) :
    run s (events ++ [e]) = (run s events).bind fun s => step s e := by
  unfold run
  rw [List.foldlM_append]
  simp only [List.foldlM_cons, List.foldlM_nil, bind_pure]
  rfl

/-- After a run, with the slots it took along. -/
theorem inv_run {events : List PoolEvent} (hrun : run (new count) events = some s) :
    ∃ lost, Inv count lost s ∧ (lost = 0 ↔ ∀ front e back, events = front ++ e::back →
      ∀ s, run (new count) front = some s → s.Kept e) := by
  induction events using List.reverseRecOn generalizing s with
  | nil =>
    cases hrun
    exact ⟨0,inv_new count,by simp⟩
  | append_singleton events e ih =>
    rw [run_concat] at hrun
    obtain ⟨t,ht,hstep⟩ := Option.bind_eq_some_iff.mp hrun
    obtain ⟨lost,hinv,hiff⟩ := ih ht
    refine ⟨_,hinv.step hstep,?_⟩
    have hkept : t.losses e = 0 ↔ t.Kept e := by
      cases e <;> simp [losses, Kept]
    rw [Nat.add_eq_zero_iff, hiff, hkept]
    constructor
    · rintro ⟨hbefore,hlast⟩ front d back heq u hu
      rcases List.eq_nil_or_concat back with rfl | ⟨back,c,rfl⟩
      · obtain ⟨rfl,hd⟩ := List.append_inj' heq rfl
        cases hd
        rw [ht] at hu
        cases hu
        exact hlast
      · rw [List.concat_eq_append, ← List.cons_append, ← List.append_assoc] at heq
        exact hbefore front d back (List.append_inj' heq rfl).1 u hu
    · intro hall
      refine ⟨fun front d back heq => hall front d (back ++ [e]) (by rw [heq]; simp),hall events e [] rfl t ht⟩

end Steps

/-- In every run the slots are conserved in every state if and only if no call is given up after a slot
was sent to it; and whatever is given up, a slot goes to who waits and goes first. -/
theorem slots_conserved (count : ℕ) (events : List PoolEvent) {s : Pool} (hrun : run (new count) events = some s) :
    ((∀ front back, events = front ++ back → ∀ t, run (new count) front = some t → t.Right count) ↔
      ∀ front e back, events = front ++ e::back → ∀ t, run (new count) front = some t → t.Kept e) ∧
    (∀ front e back, events = front ++ e::back →
      ∀ t t', run (new count) front = some t → t.step e = some t' → HandsOn t t') ∧
    ∀ front back, events = front ++ back → ∀ t, run (new count) front = some t →
      0 < t.slots.free → ∀ i : ℕ, t.calls[i]? ≠ some .waiting := by
  refine ⟨⟨fun hright => ?_,fun hkept front back heq t ht => ?_⟩,fun front e back _ t t' ht hstep => ?_,
    fun front back _ t ht => ?_⟩
  · obtain ⟨lost,hinv,hiff⟩ := inv_run hrun
    exact hiff.mp (hinv.right.mp (hright events [] (List.append_nil events).symm s hrun))
  · obtain ⟨lost,hinv,hiff⟩ := inv_run ht
    refine hinv.right.mpr (hiff.mpr fun front' e back' heq' => hkept front' e (back' ++ back) ?_)
    rw [heq, heq']
    simp
  · obtain ⟨lost,hinv,-⟩ := inv_run ht
    exact hinv.handsOn hstep
  · obtain ⟨lost,hinv,-⟩ := inv_run ht
    intro hfree i hi
    obtain ⟨w,hw,-⟩ := hinv.entries i hi
    rcases hinv.idle with hidle | hidle
    · omega
    · rw [hidle] at hw
      cases hw

/-- One slot: its waiter is given up once it was sent the slot, and then nobody has it. -/
theorem slot_lost :
    ∃ s, run (new 1) [.acquire 0,.acquire 0,.drop 0,.lock 0,.release,.giveUp 1] = some s ∧
      s.lock = none ∧ s.live + s.handed + s.slots.free = 0 :=
  ⟨_,rfl,rfl,rfl⟩

theorem slots_conserved_handed :
    ((∀ front back, [.acquire 0,.acquire 5,.giveUp 1,.acquire 3,.drop 0,.lock 0,.release,.release,.resume 2] =
        front ++ back → ∀ t, run (new 1) front = some t → t.Right 1) ↔
      ∀ front e back, [.acquire 0,.acquire 5,.giveUp 1,.acquire 3,.drop 0,.lock 0,.release,.release,.resume 2] =
        front ++ e::back → ∀ t, run (new 1) front = some t → t.Kept e) ∧
    (∀ front e back, [.acquire 0,.acquire 5,.giveUp 1,.acquire 3,.drop 0,.lock 0,.release,.release,.resume 2] =
        front ++ e::back →
      ∀ t t', run (new 1) front = some t → t.step e = some t' → HandsOn t t') ∧
    ∀ front back, [.acquire 0,.acquire 5,.giveUp 1,.acquire 3,.drop 0,.lock 0,.release,.release,.resume 2] =
        front ++ back → ∀ t, run (new 1) front = some t →
      0 < t.slots.free → ∀ i : ℕ, t.calls[i]? ≠ some .waiting :=
  slots_conserved 1 _ (s := ⟨⟨0,2,[]⟩,[.over,.over,.holding],none⟩) (by decide)

end Pool

end BuildFiji.Exec
