import Mathlib

/-!
# Worklists

A walk over a graph keeps what it has looked at and what it has still to look
at. One step looks at the first of these and puts the new ends of its edges
behind the others. A walk with a stack does not look at what it puts there: the
same node may be in it more than once, and is passed over from the second time on.
-/

set_option autoImplicit false
set_option linter.all false

namespace BuildFiji.Worklist

open Relation

variable {α : Type*} {edge : α → α → Prop} {start : α}

structure Walked (edge : α → α → Prop) (start : α) (done todo : List α) : Prop where
  nodup : (done ++ todo).Nodup
  start_mem : start ∈ done ++ todo
  reached : ∀ a ∈ done ++ todo, ReflTransGen edge start a
  closed : ∀ a ∈ done, ∀ b, edge a b → b ∈ done ++ todo

theorem Walked.initial : Walked edge start [] [start] :=
  ⟨by simp,by simp,by simp [ReflTransGen.refl],by simp⟩

theorem Walked.step {done todo new : List α} {a : α} (h : Walked edge start done (a::todo))
    (hnd : new.Nodup) (hnew : ∀ b ∈ new, b ∉ done ++ a::todo ∧ edge a b)
    (hall : ∀ b, edge a b → b ∈ done ++ a::todo ∨ b ∈ new) :
    Walked edge start (done ++ [a]) (todo ++ new) := by
  have heq : done ++ [a] ++ (todo ++ new) = done ++ a::todo ++ new := by simp
  have hmem : ∀ b, b ∈ done ++ a::todo ∨ b ∈ new → b ∈ done ++ [a] ++ (todo ++ new) := by
    intro b hb
    rw [heq]
    exact List.mem_append.mpr hb
  refine ⟨?_,hmem _ (.inl h.start_mem),fun b hb => ?_,fun b hb c hc => ?_⟩
  · rw [heq]
    apply h.nodup.append hnd
    intro b hb hb'
    exact (hnew b hb').1 hb
  · rw [heq] at hb
    rcases List.mem_append.mp hb with hb | hb
    · exact h.reached b hb
    · exact (h.reached a (by simp)).tail (hnew b hb).2
  · rcases List.mem_append.mp hb with hb | hb
    · exact hmem c (.inl (h.closed b hb c hc))
    · rw [List.mem_singleton.mp hb] at hc
      exact hmem c (hall c hc)

/-- With nothing left to do, what has been looked at is what is reached. -/
theorem Walked.mem_iff {done : List α} (h : Walked edge start done []) (a : α) :
    a ∈ done ↔ ReflTransGen edge start a := by
  constructor
  · intro ha
    exact h.reached a (by simpa using ha)
  · intro ha
    induction ha with
    | refl => simpa using h.start_mem
    | tail _ he ih => simpa using h.closed _ ih _ he

theorem Walked.length_le {done todo : List α} (h : Walked edge start done todo) {all : List α}
    (hall : ∀ a, ReflTransGen edge start a → a ∈ all) : done.length+todo.length ≤ all.length := by
  classical
  rw [← List.length_append]
  exact (h.nodup.subperm fun a ha => hall a (h.reached a ha)).length_le

section Stack

variable {α : Type*} [DecidableEq α] (next : α → List α)

/-- The nodes in the order in which they are looked at. -/
def walk : ℕ → List α → List α → Option (List α)
  | 0, _, _ => none
  | _+1, [], visited => some visited
  | fuel+1, a::stack, visited =>
    if a ∈ visited then walk fuel stack visited
    else walk fuel ((next a).reverse ++ stack) (visited ++ [a])

def Step (a b : α) : Prop := b ∈ next a

/-- What is looked at and what is still in the stack. -/
structure Stacked (starts visited stack : List α) : Prop where
  starts_mem : ∀ s ∈ starts, s ∈ visited ∨ s ∈ stack
  reached : ∀ a, a ∈ visited ∨ a ∈ stack → ∃ s ∈ starts, ReflTransGen (Step next) s a
  closed : ∀ a ∈ visited, ∀ b ∈ next a, b ∈ visited ∨ b ∈ stack

variable {next} {starts visited stack : List α} {a : α}

omit [DecidableEq α] in
theorem Stacked.initial : Stacked next starts [] starts :=
  ⟨fun _ h => Or.inr h,fun a h => ⟨a,h.resolve_left List.not_mem_nil,.refl⟩,
    fun _ h => absurd h List.not_mem_nil⟩

omit [DecidableEq α] in
theorem Stacked.pass (h : Stacked next starts visited (a::stack)) (ha : a ∈ visited) :
    Stacked next starts visited stack := by
  have still : ∀ b, b ∈ visited ∨ b ∈ a::stack → b ∈ visited ∨ b ∈ stack := by
    intro b hb
    rcases hb with hb | hb
    · exact Or.inl hb
    · rcases List.mem_cons.mp hb with rfl | hb
      · exact Or.inl ha
      · exact Or.inr hb
  refine ⟨fun s hs => still s (h.starts_mem s hs),fun b hb => h.reached b ?_,
    fun b hb c hc => still c (h.closed b hb c hc)⟩
  exact hb.imp_right (List.mem_cons_of_mem a)

omit [DecidableEq α] in
theorem Stacked.visit (h : Stacked next starts visited (a::stack)) :
    Stacked next starts (visited ++ [a]) ((next a).reverse ++ stack) := by
  have still : ∀ b, b ∈ visited ∨ b ∈ a::stack →
      b ∈ visited ++ [a] ∨ b ∈ (next a).reverse ++ stack := by
    intro b hb
    rcases hb with hb | hb
    · exact Or.inl (List.mem_append_left _ hb)
    · rcases List.mem_cons.mp hb with rfl | hb
      · exact Or.inl (List.mem_append_right _ List.mem_cons_self)
      · exact Or.inr (List.mem_append_right _ hb)
  refine ⟨fun s hs => still s (h.starts_mem s hs),?_,?_⟩
  · intro b hb
    rcases hb with hb | hb
    · rcases List.mem_append.mp hb with hb | hb
      · exact h.reached b (Or.inl hb)
      · rw [List.mem_singleton.mp hb]
        exact h.reached a (Or.inr List.mem_cons_self)
    · rcases List.mem_append.mp hb with hb | hb
      · obtain ⟨s,hs,hr⟩ := h.reached a (Or.inr List.mem_cons_self)
        exact ⟨s,hs,hr.tail (List.mem_reverse.mp hb)⟩
      · exact h.reached b (Or.inr (List.mem_cons_of_mem a hb))
  · intro b hb c hc
    rcases List.mem_append.mp hb with hb | hb
    · exact still c (h.closed b hb c hc)
    · rw [List.mem_singleton.mp hb] at hc
      exact Or.inr (List.mem_append_left _ (List.mem_reverse.mpr hc))

theorem walk_stacked {fuel : ℕ} {out : List α} (h : Stacked next starts visited stack)
    (hwalk : walk next fuel stack visited = some out) : Stacked next starts out [] := by
  induction fuel generalizing stack visited with
  | zero => cases hwalk
  | succ fuel ih =>
    cases stack with
    | nil =>
      cases hwalk
      exact h
    | cons a stack =>
      rw [walk] at hwalk
      by_cases ha : a ∈ visited
      · rw [if_pos ha] at hwalk
        exact ih (h.pass ha) hwalk
      · rw [if_neg ha] at hwalk
        exact ih h.visit hwalk

omit [DecidableEq α] in
theorem Stacked.mem_iff (h : Stacked next starts visited []) (a : α) :
    a ∈ visited ↔ ∃ s ∈ starts, ReflTransGen (Step next) s a := by
  constructor
  · intro ha
    exact h.reached a (Or.inl ha)
  · rintro ⟨s,hs,hr⟩
    induction hr with
    | refl => exact (h.starts_mem s hs).resolve_right List.not_mem_nil
    | tail _ hbc ih => exact (h.closed _ ih _ hbc).resolve_right List.not_mem_nil

/-- What a finished walk has looked at is what its starts reach. -/
theorem mem_walk {fuel : ℕ} {out : List α} (hwalk : walk next fuel starts [] = some out) (a : α) :
    a ∈ out ↔ ∃ s ∈ starts, ReflTransGen (Step next) s a :=
  (walk_stacked Stacked.initial hwalk).mem_iff a

/-- The edges that are still to be put on the stack, of the nodes that have any. -/
def pendingEdges (next : α → List α) (nodes visited : List α) : ℕ :=
  ((nodes.filter fun a => a ∉ visited).map fun a => (next a).length).sum

theorem pendingEdges_visit {nodes : List α} (hnodes : ∀ a, next a ≠ [] → a ∈ nodes)
    (ha : a ∉ visited) : (next a).length + pendingEdges next nodes (visited ++ [a]) ≤
      pendingEdges next nodes visited := by
  have hsub : ∀ b, b ∉ visited ++ [a] → b ∉ visited :=
    fun b hb h => hb (List.mem_append_left _ h)
  have mono : ∀ l : List α, pendingEdges next l (visited ++ [a]) ≤ pendingEdges next l visited := by
    intro l
    induction l with
    | nil => exact Nat.le_refl _
    | cons b l ih =>
      unfold pendingEdges at ih ⊢
      by_cases hb : b ∉ visited ++ [a]
      · simp only [List.filter_cons, decide_eq_true hb, decide_eq_true (hsub b hb), if_true,
          List.map_cons, List.sum_cons]
        omega
      · simp only [List.filter_cons, decide_eq_false hb]
        by_cases hb' : b ∉ visited
        · simp only [decide_eq_true hb', if_true, List.map_cons, List.sum_cons]
          exact ih.trans (Nat.le_add_left _ _)
        · simpa only [decide_eq_false hb', Bool.false_eq_true, if_false] using ih
  by_cases he : next a = []
  · rw [he, List.length_nil, Nat.zero_add]
    exact mono nodes
  · obtain ⟨p,q,rfl⟩ := List.append_of_mem (hnodes a he)
    have hp := mono p
    have hq := mono q
    unfold pendingEdges at hp hq ⊢
    simp only [List.filter_append, List.filter_cons, List.map_append, List.sum_append, ha,
      List.mem_append, List.mem_singleton, or_true, not_true_eq_false, not_false_eq_true,
      decide_true, decide_false, if_true, List.map_cons, List.sum_cons] at hp hq ⊢
    simp only [Bool.false_eq_true, if_false]
    omega

theorem walk_ends {nodes : List α} (hnodes : ∀ a, next a ≠ [] → a ∈ nodes) {fuel : ℕ}
    (h : stack.length + pendingEdges next nodes visited < fuel) :
    ∃ out, walk next fuel stack visited = some out := by
  induction fuel generalizing stack visited with
  | zero => exact absurd h (Nat.not_lt_zero _)
  | succ fuel ih =>
    cases stack with
    | nil => exact ⟨visited,rfl⟩
    | cons a stack =>
      rw [walk]
      rw [List.length_cons] at h
      by_cases ha : a ∈ visited
      · rw [if_pos ha]
        apply ih
        omega
      · rw [if_neg ha]
        have hvisit := pendingEdges_visit hnodes ha
        apply ih
        rw [List.length_append, List.length_reverse]
        omega

end Stack

end BuildFiji.Worklist
