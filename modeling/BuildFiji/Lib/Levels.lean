import Mathlib.Data.Finset.Card
import Mathlib.Data.Finset.Dedup
import Mathlib.Data.List.Chain
import Mathlib.Data.Nat.Find
import Mathlib.Logic.Relation

/-!
# Breadth-first search by levels

Steps count the edges of a path. The search keeps what it has seen and the
frontier, what it saw last: after `n` levels it has seen what is within `n`
steps of the roots, and the frontier is what is no nearer than that.
-/

set_option autoImplicit false
set_option linter.all false

namespace BuildFiji.Levels

open Relation

variable {α : Type*} {edge : α → α → Prop}

inductive Steps (edge : α → α → Prop) : ℕ → α → α → Prop where
  | refl (a : α) : Steps edge 0 a a
  | tail {n : ℕ} {a b c : α} : Steps edge n a b → edge b c → Steps edge (n+1) a c

/-- Within `d` steps, or in any number where there is no `d`. -/
def Within (edge : α → α → Prop) (d : Option ℕ) (a b : α) : Prop :=
  ∃ n, (∀ m ∈ d, n ≤ m) ∧ Steps edge n a b

section Steps

theorem steps_zero {a b : α} : Steps edge 0 a b ↔ a = b := by
  constructor
  · intro h
    cases h
    rfl
  · rintro rfl
    exact .refl a

theorem steps_succ {n : ℕ} {a c : α} :
    Steps edge (n+1) a c ↔ ∃ b, Steps edge n a b ∧ edge b c := by
  constructor
  · intro h
    cases h with
    | tail hab hbc => exact ⟨_,hab,hbc⟩
  · rintro ⟨b,hab,hbc⟩
    exact hab.tail hbc

theorem Steps.head {n : ℕ} {a b c : α} (hab : edge a b) (h : Steps edge n b c) :
    Steps edge (n+1) a c := by
  induction h with
  | refl => exact (Steps.refl a).tail hab
  | tail _ he ih => exact (ih hab).tail he

theorem Steps.reached {n : ℕ} {a b : α} (h : Steps edge n a b) : ReflTransGen edge a b := by
  induction h with
  | refl => exact .refl
  | tail _ he ih => exact ih.tail he

theorem within_none {a b : α} : Within edge none a b ↔ ReflTransGen edge a b := by
  constructor
  · rintro ⟨n,-,h⟩
    exact h.reached
  · intro h
    induction h with
    | refl => exact ⟨0,by simp,.refl a⟩
    | tail _ he ih =>
      obtain ⟨n,-,hn⟩ := ih
      exact ⟨n+1,by simp,hn.tail he⟩

end Steps

section Search
variable {roots : α → Prop}

/-- The vertices within `n` steps of a root, and among them those no root is
nearer to. -/
def Near (edge : α → α → Prop) (roots : α → Prop) (n : ℕ) (x : α) : Prop :=
  ∃ r, roots r ∧ ∃ k ≤ n, Steps edge k r x

def At (edge : α → α → Prop) (roots : α → Prop) (n : ℕ) (x : α) : Prop :=
  (∃ r, roots r ∧ Steps edge n r x) ∧ ∀ r, roots r → ∀ k < n, ¬ Steps edge k r x

theorem At.near {n : ℕ} {x : α} (h : At edge roots n x) : Near edge roots n x := by
  obtain ⟨r,hr,hs⟩ := h.1
  exact ⟨r,hr,n,le_refl n,hs⟩

theorem Near.mono {m n : ℕ} (hmn : m ≤ n) {x : α} (h : Near edge roots m x) :
    Near edge roots n x := by
  obtain ⟨r,hr,k,hk,hs⟩ := h
  exact ⟨r,hr,k,hk.trans hmn,hs⟩

theorem at_zero {x : α} : At edge roots 0 x ↔ roots x := by
  constructor
  · rintro ⟨⟨r,hr,hs⟩,-⟩
    exact steps_zero.mp hs ▸ hr
  · intro h
    exact ⟨⟨x,h,.refl x⟩,by simp⟩

theorem near_zero {x : α} : Near edge roots 0 x ↔ roots x := by
  constructor
  · rintro ⟨r,hr,k,hk,hs⟩
    rw [Nat.le_zero.mp hk] at hs
    exact steps_zero.mp hs ▸ hr
  · intro h
    exact ⟨x,h,0,le_refl 0,.refl x⟩

/-- What is near is at some level no further. -/
theorem Near.at {n : ℕ} {x : α} (h : Near edge roots n x) : ∃ k ≤ n, At edge roots k x := by
  classical
  have hex : ∃ k, ∃ r, roots r ∧ Steps edge k r x := by
    obtain ⟨r,hr,k,-,hs⟩ := h
    exact ⟨k,r,hr,hs⟩
  refine ⟨Nat.find hex,?_,Nat.find_spec hex,fun r hr k hk hs => Nat.find_min hex hk ⟨r,hr,hs⟩⟩
  obtain ⟨r,hr,k,hk,hs⟩ := h
  exact (Nat.find_min' hex ⟨r,hr,hs⟩).trans hk

theorem At.eq {m n : ℕ} {x : α} (h : At edge roots m x) (k : At edge roots n x) : m = n := by
  obtain ⟨⟨r,hr,hs⟩,hmin⟩ := h
  obtain ⟨⟨r',hr',hs'⟩,hmin'⟩ := k
  apply Nat.le_antisymm
  · exact not_lt.mp fun hlt => hmin r' hr' n hlt hs'
  · exact not_lt.mp fun hlt => hmin' r hr m hlt hs

theorem at_succ {n : ℕ} {x : α} :
    At edge roots (n+1) x ↔ ¬ Near edge roots n x ∧ ∃ a, At edge roots n a ∧ edge a x := by
  constructor
  · rintro ⟨⟨r,hr,hs⟩,hmin⟩
    have hfar : ¬ Near edge roots n x := by
      rintro ⟨r',hr',k,hk,hs'⟩
      exact hmin r' hr' k (by omega) hs'
    obtain ⟨a,ha,he⟩ := steps_succ.mp hs
    refine ⟨hfar,a,⟨⟨r,hr,ha⟩,fun r' hr' k hk hs' => ?_⟩,he⟩
    exact hmin r' hr' (k+1) (by omega) (hs'.tail he)
  · rintro ⟨hfar,a,⟨⟨r,hr,hs⟩,-⟩,he⟩
    refine ⟨⟨r,hr,hs.tail he⟩,fun r' hr' k hk hs' => ?_⟩
    exact hfar ⟨r',hr',k,by omega,hs'⟩

theorem near_succ {n : ℕ} {x : α} :
    Near edge roots (n+1) x ↔ Near edge roots n x ∨ At edge roots (n+1) x := by
  constructor
  · intro h
    obtain ⟨k,hk,hat⟩ := h.at
    rcases Nat.lt_or_eq_of_le hk with hlt | rfl
    · exact .inl (hat.near.mono (by omega))
    · exact .inr hat
  · rintro (h | h)
    · exact h.mono (by omega)
    · exact h.near

/-- An edge leads at most one level further. -/
theorem Near.next {n : ℕ} {a x : α} (h : Near edge roots n a) (he : edge a x) :
    Near edge roots (n+1) x := by
  obtain ⟨r,hr,k,hk,hs⟩ := h
  exact ⟨r,hr,k+1,by omega,hs.tail he⟩

/-- Once a level is empty, everything reached has been near. -/
theorem near_of_empty {n : ℕ} (h : ∀ x, ¬ At edge roots n x) {r x : α} (hr : roots r)
    (hx : ReflTransGen edge r x) : Near edge roots n x := by
  induction hx with
  | refl => exact ⟨r,hr,0,by omega,.refl r⟩
  | tail _ he ih =>
    obtain ⟨k,hk,hat⟩ := ih.at
    have hlt : k < n := Nat.lt_of_le_of_ne hk fun heq => h _ (heq ▸ hat)
    exact (hat.near.next he).mono hlt

theorem near_reached {n : ℕ} {x : α} (h : Near edge roots n x) :
    ∃ r, roots r ∧ ReflTransGen edge r x := by
  obtain ⟨r,hr,k,-,hs⟩ := h
  exact ⟨r,hr,hs.reached⟩

/-- The invariant of the search after `n` levels. -/
structure Searched (edge : α → α → Prop) (roots : α → Prop) (n : ℕ)
    (seen frontier : α → Prop) : Prop where
  seen_iff : ∀ x, seen x ↔ Near edge roots n x
  frontier_iff : ∀ x, frontier x ↔ At edge roots n x

theorem Searched.initial {seen frontier : α → Prop} (hs : ∀ x, seen x ↔ roots x)
    (hf : ∀ x, frontier x ↔ roots x) : Searched edge roots 0 seen frontier :=
  ⟨fun x => (hs x).trans near_zero.symm,fun x => (hf x).trans at_zero.symm⟩

theorem Searched.step {n : ℕ} {seen frontier seen' next : α → Prop}
    (h : Searched edge roots n seen frontier)
    (hn : ∀ x, next x ↔ ¬ seen x ∧ ∃ a, frontier a ∧ edge a x)
    (hs : ∀ x, seen' x ↔ seen x ∨ next x) : Searched edge roots (n+1) seen' next := by
  have hat : ∀ x, next x ↔ At edge roots (n+1) x := by
    intro x
    rw [hn, at_succ, h.seen_iff]
    simp only [h.frontier_iff]
  refine ⟨fun x => ?_,hat⟩
  rw [hs, h.seen_iff, hat, near_succ]

theorem within_reached {d : Option ℕ} {a b : α} (h : Within edge d a b) : ReflTransGen edge a b := by
  obtain ⟨n,-,hn⟩ := h
  exact hn.reached

/-- A search that ends, with an empty frontier or at its depth, has seen what is
within the depth. -/
theorem Searched.ends {n : ℕ} {seen frontier : α → Prop} (h : Searched edge roots n seen frontier)
    {d : Option ℕ} (hn : ∀ m ∈ d, n ≤ m) (hend : (∀ x, ¬ frontier x) ∨ n ∈ d) (x : α) :
    seen x ↔ ∃ r, roots r ∧ Within edge d r x := by
  rw [h.seen_iff]
  constructor
  · rintro ⟨r,hr,k,hk,hs⟩
    exact ⟨r,hr,k,fun m hm => hk.trans (hn m hm),hs⟩
  · rintro ⟨r,hr,hx⟩
    rcases hend with hnil | hd
    · exact near_of_empty (fun y hy => hnil y ((h.frontier_iff y).mpr hy)) hr (within_reached hx)
    · obtain ⟨k,hk,hs⟩ := hx
      exact ⟨r,hr,k,hk n hd,hs⟩

/-- The vertices on the way to a level, one for each level. -/
theorem At.levels {n : ℕ} {x : α} (h : At edge roots n x) :
    ∃ l : List α, l.Nodup ∧ l.length = n+1 ∧ ∀ y ∈ l, Near edge roots n y := by
  induction n generalizing x with
  | zero => exact ⟨[x],by simp,rfl,by simpa using h.near⟩
  | succ n ih =>
    obtain ⟨hfar,a,ha,-⟩ := at_succ.mp h
    obtain ⟨l,hnd,hlen,hl⟩ := ih ha
    refine ⟨x::l,List.nodup_cons.mpr ⟨fun hx => hfar (hl x hx),hnd⟩,by simp [hlen],fun y hy => ?_⟩
    rcases List.mem_cons.mp hy with rfl | hy
    · exact h.near
    · exact (hl y hy).mono (Nat.le_succ n)

/-- A graph has fewer levels than vertices. -/
theorem At.lt_card {n : ℕ} {x : α} (h : At edge roots n x) {all : Finset α}
    (hall : ∀ y, Near edge roots n y → y ∈ all) : n < all.card := by
  classical
  obtain ⟨l,hnd,hlen,hl⟩ := h.levels
  have hsub : l.toFinset ⊆ all := fun y hy => hall y (hl y (List.mem_toFinset.mp hy))
  have hcard := Finset.card_le_card hsub
  rw [List.toFinset_card_of_nodup hnd] at hcard
  omega

theorem near_mem (all : α → Prop) (hroots : ∀ r, roots r → all r)
    (hedge : ∀ a b, all a → edge a b → all b) {n : ℕ} {x : α} (h : Near edge roots n x) : all x := by
  obtain ⟨r,hr,hx⟩ := near_reached h
  clear h
  induction hx with
  | refl => exact hroots r hr
  | tail _ he ih => exact hedge _ _ ih he

end Search

section Saw

/-- What was seen and is still to be looked at, before and after vertices were
found: those not seen before are put behind the others. -/
structure Saw (seen next seen' next' new : α → Prop) : Prop where
  seen_iff : ∀ x, seen' x ↔ seen x ∨ new x
  next_iff : ∀ x, next' x ↔ next x ∨ ¬ seen x ∧ new x

theorem Saw.nothing {seen next : α → Prop} : Saw seen next seen next fun _ => False :=
  ⟨by simp,by simp⟩

theorem Saw.trans {seen next seen' next' seen'' next'' new new' : α → Prop}
    (h : Saw seen next seen' next' new) (k : Saw seen' next' seen'' next'' new') :
    Saw seen next seen'' next'' fun x => new x ∨ new' x := by
  refine ⟨fun x => ?_,fun x => ?_⟩
  · rw [k.seen_iff, h.seen_iff, or_assoc]
  · rw [k.next_iff, h.next_iff, h.seen_iff]
    tauto

theorem Saw.congr {seen next seen' next' new new' : α → Prop} (h : Saw seen next seen' next' new)
    (hnew : ∀ x, new x ↔ new' x) : Saw seen next seen' next' new' := by
  rw [← funext fun x => propext (hnew x)]
  exact h

/-- A level of the search sees what the frontier leads to, and that is the next
frontier. -/
theorem Searched.saw {roots seen frontier seen' next : α → Prop} {n : ℕ}
    (h : Searched edge roots n seen frontier)
    (k : Saw seen (fun _ => False) seen' next fun x => ∃ a, frontier a ∧ edge a x) :
    Searched edge roots (n+1) seen' next := by
  have hnext : ∀ x, next x ↔ ¬ seen x ∧ ∃ a, frontier a ∧ edge a x := by
    intro x
    simpa using k.next_iff x
  refine h.step hnext fun x => ?_
  rw [k.seen_iff, hnext]
  tauto

variable {σ β ε : Type*} (seen next : σ → α → Prop) (new : β → α → Prop)

theorem Saw.foldlM {f : σ → β → Except ε σ} {l : List β}
    (h : ∀ s, ∀ b ∈ l, ∃ s', f s b = .ok s' ∧ Saw (seen s) (next s) (seen s') (next s') (new b))
    (s : σ) : ∃ s', l.foldlM f s = .ok s' ∧
      Saw (seen s) (next s) (seen s') (next s') fun x => ∃ b ∈ l, new b x := by
  induction l generalizing s with
  | nil => exact ⟨s,rfl,Saw.nothing.congr (by simp)⟩
  | cons b l ih =>
    obtain ⟨s₁,hs₁,hsaw₁⟩ := h s b List.mem_cons_self
    obtain ⟨s₂,hs₂,hsaw₂⟩ := ih (fun s b' hb' => h s b' (List.mem_cons_of_mem _ hb')) s₁
    refine ⟨s₂,?_,(hsaw₁.trans hsaw₂).congr (by simp)⟩
    rw [List.foldlM_cons, hs₁]
    exact hs₂

theorem Saw.foldl {f : σ → β → σ}
    (h : ∀ s b, Saw (seen s) (next s) (seen (f s b)) (next (f s b)) (new b)) (l : List β) (s : σ) :
    Saw (seen s) (next s) (seen (l.foldl f s)) (next (l.foldl f s)) fun x => ∃ b ∈ l, new b x := by
  induction l generalizing s with
  | nil => exact Saw.nothing.congr (by simp)
  | cons b l ih => exact ((h s b).trans (ih (f s b))).congr (by simp)

end Saw

section Path

/-- A path from one of the starts to one of the goals, as the list of its
vertices. -/
def IsPath (edge : α → α → Prop) (start goal : α → Prop) (p : List α) : Prop :=
  p.IsChain edge ∧ (∃ a ∈ p.head?, start a) ∧ ∃ b ∈ p.getLast?, goal b

variable {start goal : α → Prop}

theorem Steps.path {n : ℕ} {a b : α} (h : Steps edge n a b) :
    ∃ p : List α, p.IsChain edge ∧ p.head? = some a ∧ p.getLast? = some b ∧ p.length = n+1 := by
  induction h with
  | refl => exact ⟨[_],by simp,rfl,rfl,rfl⟩
  | @tail n _ b c _ he ih =>
    obtain ⟨p,hp,hhead,hlast,hlen⟩ := ih
    refine ⟨p ++ [c],?_,by simp [hhead],by simp,by simp [hlen]⟩
    rw [List.isChain_append]
    refine ⟨hp,by simp,fun x hx y hy => ?_⟩
    rw [hlast] at hx
    simp only [Option.mem_some_iff, List.head?_cons] at hx hy
    exact hx ▸ hy ▸ he

theorem steps_of_path {p : List α} (hp : p.IsChain edge) {a b : α} (ha : p.head? = some a)
    (hb : p.getLast? = some b) : Steps edge (p.length-1) a b := by
  induction p generalizing a with
  | nil => simp at ha
  | cons x rest ih =>
    obtain rfl : x = a := by simpa using ha
    cases rest with
    | nil =>
      obtain rfl : x = b := by simpa using hb
      exact .refl x
    | cons y rest =>
      rw [List.isChain_cons_cons] at hp
      have htail := ih hp.2 rfl (by simpa using hb)
      exact htail.head hp.1

theorem isPath_steps {p : List α} (h : IsPath edge start goal p) :
    ∃ a b, start a ∧ goal b ∧ Steps edge (p.length-1) a b := by
  obtain ⟨hp,⟨a,ha,hstart⟩,b,hb,hgoal⟩ := h
  exact ⟨a,b,hstart,hgoal,steps_of_path hp ha hb⟩

/-- What lies on a path is reached by a start and reaches a goal. -/
theorem on_path_iff {t : α} : (∃ p, IsPath edge start goal p ∧ t ∈ p) ↔
    (∃ a, start a ∧ ReflTransGen edge a t) ∧ ∃ b, goal b ∧ ReflTransGen edge t b := by
  constructor
  · rintro ⟨p,⟨hp,⟨a,ha,hstart⟩,b,hb,hgoal⟩,ht⟩
    obtain ⟨front,back,rfl⟩ := List.append_of_mem ht
    have hsplit := List.isChain_append.mp hp
    have hfirst : Steps edge ((front ++ [t]).length-1) a t := by
      apply steps_of_path
      · apply (List.isChain_append.mpr ⟨hsplit.1,by simp,fun x hx y hy => ?_⟩)
        exact hsplit.2.2 x hx y (by simpa using hy)
      · cases front with
        | nil => simpa using ha
        | cons c front => simpa using ha
      · simp
    have hsecond : Steps edge ((t::back).length-1) t b := by
      apply steps_of_path hsplit.2.1 rfl
      simpa [List.getLast?_append] using hb
    exact ⟨⟨a,hstart,hfirst.reached⟩,b,hgoal,hsecond.reached⟩
  · rintro ⟨⟨a,hstart,hat⟩,b,hgoal,htb⟩
    obtain ⟨m,-,hm⟩ := within_none.mpr hat
    obtain ⟨n,-,hn⟩ := within_none.mpr htb
    obtain ⟨p,hp,hhead,hlast,-⟩ := hm.path
    obtain ⟨q,hq,hhead',hlast',-⟩ := hn.path
    cases q with
    | nil => simp at hhead'
    | cons x q =>
      obtain rfl : x = t := by simpa using hhead'
      refine ⟨p ++ q,⟨?_,⟨a,by simp [hhead],hstart⟩,b,?_,hgoal⟩,
        List.mem_append_left q (List.mem_of_getLast? hlast)⟩
      · refine List.isChain_append.mpr ⟨hp,hq.tail,fun y hy z hz => ?_⟩
        rw [hlast, Option.mem_some_iff] at hy
        cases q with
        | nil => simp at hz
        | cons w q =>
          obtain rfl : w = z := by simpa using hz
          exact hy ▸ (List.isChain_cons_cons.mp hq).1
      · cases q with
        | nil =>
          rw [List.append_nil, hlast]
          simpa using hlast'
        | cons w q => simpa [List.getLast?_append] using hlast'

end Path

section Queue
variable {start goal : α → Prop}

/-- The invariant of a search with a queue: what was looked at, what is left of
the level and what was found of the next one. The map gives what each vertex was
found from, and none of what was looked at is a goal. -/
structure Queued (edge : α → α → Prop) (start goal : α → Prop) (n : ℕ) (done level next : List α)
    (parent : α → Option (Option α)) : Prop where
  nodup : (done ++ (level ++ next)).Nodup
  known : ∀ x, (parent x).isSome ↔ x ∈ done ++ (level ++ next)
  done_near : ∀ x ∈ done, Near edge start n x
  level_at : ∀ x ∈ level, At edge start n x
  next_at : ∀ x ∈ next, At edge start (n+1) x
  near_known : ∀ x, Near edge start n x → x ∈ done ++ level
  closed : ∀ x ∈ done, ∀ y, edge x y → y ∈ done ++ (level ++ next)
  missed : ∀ x ∈ done, ¬ goal x
  start_of : ∀ x, parent x = some none → start x
  parent_of : ∀ x p, parent x = some (some p) → edge p x ∧ ∃ k, At edge start k p ∧ At edge start (k+1) x

theorem Queued.initial (edge : α → α → Prop) (start goal : α → Prop) {level : List α}
    (parent : α → Option (Option α)) (hnd : level.Nodup)
    (hlevel : ∀ x, x ∈ level ↔ start x) (hknown : ∀ x, (parent x).isSome ↔ x ∈ level)
    (hnone : ∀ x p, parent x ≠ some (some p)) : Queued edge start goal 0 [] level [] parent where
  nodup := by simpa using hnd
  known := by simpa using hknown
  done_near := by simp
  level_at x hx := at_zero.mpr ((hlevel x).mp hx)
  next_at := by simp
  near_known x hx := by simpa using (hlevel x).mpr (near_zero.mp hx)
  closed := by simp
  missed := by simp
  start_of x hx := (hlevel x).mp ((hknown x).mp (by simp [hx]))
  parent_of x p hp := absurd hp (hnone x p)

/-- With nothing left of a level the search is at the next one. -/
theorem Queued.turn {n : ℕ} {done next : List α} {parent : α → Option (Option α)}
    (h : Queued edge start goal n done [] next parent) :
    Queued edge start goal (n+1) done next [] parent where
  nodup := by simpa using h.nodup
  known := by simpa using h.known
  done_near x hx := (h.done_near x hx).mono (Nat.le_succ n)
  level_at := h.next_at
  next_at := by simp
  near_known x hx := by
    rcases near_succ.mp hx with hx | hx
    · exact List.mem_append_left next (by simpa using h.near_known x hx)
    · obtain ⟨-,a,ha,he⟩ := at_succ.mp hx
      simpa using h.closed a (by simpa using h.near_known a ha.near) x he
  closed x hx y he := by simpa using h.closed x hx y he
  missed := h.missed
  start_of := h.start_of
  parent_of := h.parent_of

theorem Queued.step {n : ℕ} {done level next new : List α} {x : α}
    {parent parent' : α → Option (Option α)}
    (h : Queued edge start goal n done (x::level) next parent) (hx : ¬ goal x) (hnd : new.Nodup)
    (hnew : ∀ y ∈ new, parent y = none ∧ edge x y)
    (hall : ∀ y, edge x y → (parent y).isSome ∨ y ∈ new)
    (hparent : ∀ y, y ∈ new → parent' y = some (some x))
    (hframe : ∀ y, y ∉ new → parent' y = parent y) :
    Queued edge start goal n (done ++ [x]) level (next ++ new) parent' := by
  have hmem : ∀ y, y ∈ done ++ [x] ++ (level ++ (next ++ new)) ↔
      y ∈ done ++ ((x::level) ++ next) ∨ y ∈ new := by
    intro y
    simp only [List.mem_append, List.mem_cons, List.not_mem_nil, or_false]
    tauto
  have hfresh : ∀ y ∈ new, y ∉ done ++ ((x::level) ++ next) := by
    intro y hy hold
    have hknown := (h.known y).mpr hold
    simp [(hnew y hy).1] at hknown
  have hxat : At edge start n x := h.level_at x List.mem_cons_self
  have hnewat : ∀ y ∈ new, At edge start (n+1) y := by
    intro y hy
    refine at_succ.mpr ⟨fun hnear => hfresh y hy ?_,x,hxat,(hnew y hy).2⟩
    have hold := h.near_known y hnear
    simp only [List.mem_append] at hold ⊢
    tauto
  constructor
  · have heq : done ++ [x] ++ (level ++ (next ++ new)) = done ++ ((x::level) ++ next) ++ new := by
      simp
    rw [heq]
    apply h.nodup.append hnd
    intro y hy hy'
    exact hfresh y hy' hy
  · intro y
    rw [hmem, ← h.known]
    by_cases hy : y ∈ new
    · simp [hparent y hy, hy]
    · simp [hframe y hy, hy]
  · intro y hy
    rcases List.mem_append.mp hy with hy | hy
    · exact h.done_near y hy
    · exact List.mem_singleton.mp hy ▸ hxat.near
  · exact fun y hy => h.level_at y (List.mem_cons_of_mem x hy)
  · intro y hy
    rcases List.mem_append.mp hy with hy | hy
    · exact h.next_at y hy
    · exact hnewat y hy
  · intro y hy
    simpa using h.near_known y hy
  · intro y hy z he
    rw [hmem]
    rcases List.mem_append.mp hy with hy | hy
    · exact .inl (h.closed y hy z he)
    · rw [List.mem_singleton.mp hy] at he
      exact (hall z he).imp_left (h.known z).mp
  · intro y hy
    rcases List.mem_append.mp hy with hy | hy
    · exact h.missed y hy
    · exact List.mem_singleton.mp hy ▸ hx
  · intro y hy
    by_cases hmem : y ∈ new
    · simp [hparent y hmem] at hy
    · exact h.start_of y (hframe y hmem ▸ hy)
  · intro y p hp
    by_cases hmem : y ∈ new
    · rw [hparent y hmem] at hp
      obtain rfl : x = p := by simpa using hp
      exact ⟨(hnew y hmem).2,n,hxat,hnewat y hmem⟩
    · exact h.parent_of y p (hframe y hmem ▸ hp)

/-- No goal is nearer than the level a search is at. -/
theorem Queued.le_of_goal {n : ℕ} {done level next : List α} {parent : α → Option (Option α)}
    (h : Queued edge start goal n done level next parent) {k : ℕ} {a b : α} (ha : start a)
    (hb : goal b) (hs : Steps edge k a b) : n ≤ k := by
  by_contra hlt
  obtain ⟨j,hj,hat⟩ := Near.at ⟨a,ha,k,le_refl k,hs⟩
  rcases List.mem_append.mp (h.near_known b (hat.near.mono (by omega))) with hdone | hlevel
  · exact h.missed b hdone hb
  · have heq := (h.level_at b hlevel).eq hat
    omega

/-- A search whose queue is empty has found no goal since none is reached. -/
theorem Queued.unreached {n : ℕ} {done : List α} {parent : α → Option (Option α)}
    (h : Queued edge start goal n done [] [] parent) {a b : α} (ha : start a) (hb : goal b) :
    ¬ ReflTransGen edge a b := by
  intro hab
  have hempty : ∀ x, ¬ At edge start (n+1) x := by
    intro x hx
    obtain ⟨hfar,c,hc,he⟩ := at_succ.mp hx
    have hdone := h.closed c (by simpa using h.near_known c hc.near) x he
    exact hfar (h.done_near x (by simpa using hdone))
  obtain ⟨k,hk,hat⟩ := (near_of_empty hempty ha hab).at
  have hnear : Near edge start n b := by
    rcases Nat.lt_or_eq_of_le hk with hlt | rfl
    · exact hat.near.mono (by omega)
    · exact absurd hat (hempty b)
  exact h.missed b (by simpa using h.near_known b hnear) hb

end Queue

end BuildFiji.Levels
