import BuildFiji.Lib.Digraph
import Mathlib

/-!
# Depth-first walks with a stack

A walk that remembers on its stack how far it is with the successors of each node. Nodes are
noted when all their successors were seen, so that without cycles a node comes after all that it
leads to.
-/

set_option autoImplicit false
set_option linter.all false

namespace BuildFiji.DepthFirst

open Relation Digraph

variable {α : Type*} [DecidableEq α] (adj : α → List α)

structure Walk (α : Type*) where
  visited : List α
  post : List α
  /-- With the index of the successor that is next. -/
  stack : List (α × ℕ)
deriving DecidableEq

/-- One turn of the loop; a walk with nothing on its stack stays as it is. -/
def turn (w : Walk α) : Walk α :=
  match w.stack with
  | [] => w
  | (a,n)::stack =>
    match (adj a)[n]? with
    | some b =>
      if b ∈ w.visited then { w with stack := (a,n+1)::stack }
      else ⟨b::w.visited,w.post,(b,0)::(a,n+1)::stack⟩
    | none => ⟨w.visited,w.post ++ [a],stack⟩

def loop : ℕ → Walk α → Walk α
  | 0, w => w
  | fuel+1, w => if w.stack = [] then w else loop fuel (turn adj w)

/-- From one start, if that was not visited. -/
def startAt (fuel : ℕ) (w : Walk α) (a : α) : Walk α :=
  if a ∈ w.visited then w else loop adj fuel ⟨a::w.visited,w.post,[(a,0)]⟩

/-- The turns that are enough: one for each edge and each node. -/
def enough (nodes : List α) : ℕ := (nodes.map fun a => (adj a).length+1).sum

def postorder (nodes : List α) : List α :=
  (nodes.foldl (startAt adj (enough adj nodes)) ⟨[],[],[]⟩).post

section Measure

variable {adj} {nodes : List α}

/-- What is left to do. -/
def measure (adj : α → List α) (nodes : List α) (w : Walk α) : ℕ :=
  enough adj (nodes.filter (· ∉ w.visited)) + (w.stack.map fun e => (adj e.1).length-e.2+1).sum

theorem enough_visit (hnodup : nodes.Nodup) {a : α} (ha : a ∈ nodes) {visited : List α} (hnew : a ∉ visited) :
    enough adj (nodes.filter (· ∉ a::visited)) + ((adj a).length+1) = enough adj (nodes.filter (· ∉ visited)) := by
  unfold enough
  induction nodes with
  | nil => cases ha
  | cons b nodes ih =>
    rw [List.nodup_cons] at hnodup
    by_cases hba : b = a
    · subst hba
      have hsame : nodes.filter (· ∉ b::visited) = nodes.filter (· ∉ visited) := by
        apply List.filter_congr
        intro c hc
        have hne : c ≠ b := fun heq => hnodup.1 (heq ▸ hc)
        simp [hne]
      rw [List.filter_cons_of_neg (by simp), List.filter_cons_of_pos (by simpa using hnew), hsame,
        List.map_cons, List.sum_cons]
      omega
    · have hmem := (List.mem_cons.mp ha).resolve_left (Ne.symm hba)
      have := ih hnodup.2 hmem
      by_cases hb : b ∈ visited
      · rw [List.filter_cons_of_neg (by simp [hb]), List.filter_cons_of_neg (by simp [hb])]
        exact this
      · rw [List.filter_cons_of_pos (by simp [hb, hba]), List.filter_cons_of_pos (by simp [hb]), List.map_cons,
          List.map_cons, List.sum_cons, List.sum_cons]
        omega

end Measure

/-- What holds between the turns. -/
structure Inv (nodes : List α) (w : Walk α) : Prop where
  nodup : (w.post ++ w.stack.map Prod.fst).Nodup
  visited : ∀ a, a ∈ w.visited ↔ a ∈ w.post ++ w.stack.map Prod.fst
  nodes : ∀ a ∈ w.visited, a ∈ nodes
  seen : ∀ e ∈ w.stack, e.2 ≤ (adj e.1).length ∧ ∀ b ∈ (adj e.1).take e.2, b ∈ w.visited
  chain : (w.stack.map Prod.fst).IsChain fun a b => Edge adj b a

section Turns

variable {adj} {nodes : List α} {w : Walk α}

theorem Inv.turn (h : Inv adj nodes w) (hnodes : nodes.Nodup) (hclosed : ∀ a ∈ nodes, ∀ b ∈ adj a, b ∈ nodes)
    (hne : w.stack ≠ []) :
    Inv adj nodes (turn adj w) ∧ measure adj nodes (turn adj w) + 1 = measure adj nodes w := by
  obtain ⟨visited,post,stack⟩ := w
  cases stack with
  | nil => exact absurd rfl hne
  | cons e stack =>
    obtain ⟨a,n⟩ := e
    obtain ⟨hnodup,hvisited,hmem,hseen,hchain⟩ := h
    dsimp only at hnodup hvisited hmem hseen hchain
    obtain ⟨hn,htaken⟩ := hseen (a,n) List.mem_cons_self
    dsimp only at hn htaken
    have ha : a ∈ visited := (hvisited a).mpr (by simp)
    unfold DepthFirst.turn
    dsimp only
    cases hb : (adj a)[n]? with
    | some b =>
      obtain ⟨hlt,hget⟩ := List.getElem?_eq_some_iff.mp hb
      have hedge : b ∈ adj a := hget ▸ List.getElem_mem hlt
      have htake : ∀ c ∈ (adj a).take (n+1), c ∈ (adj a).take n ∨ c = b := by
        intro c hc
        rw [List.take_succ_eq_append_getElem hlt, hget] at hc
        simpa using hc
      dsimp only
      split
      · next hold =>
        refine ⟨⟨hnodup,hvisited,hmem,fun e he => ?_,hchain⟩,?_⟩
        · rcases List.mem_cons.mp he with rfl | he
          · refine ⟨hlt,fun c hc => ?_⟩
            rcases htake c hc with hc | rfl
            · exact htaken c hc
            · exact hold
          · exact hseen e (List.mem_cons_of_mem _ he)
        · simp only [measure, List.map_cons, List.sum_cons]
          omega
      · next hnew =>
        have hbn : b ∈ nodes := hclosed a (hmem a ha) b hedge
        refine ⟨⟨?_,?_,?_,fun e he => ?_,?_⟩,?_⟩
        · have hnot := fun hb => hnew ((hvisited b).mpr hb)
          dsimp only
          rw [List.map_cons, List.nodup_middle, List.nodup_cons]
          exact ⟨hnot,hnodup⟩
        · intro c
          dsimp only
          rw [List.mem_cons, hvisited c]
          simp only [List.map_cons, List.mem_append, List.mem_cons]
          tauto
        · intro c hc
          rcases List.mem_cons.mp hc with rfl | hc
          · exact hbn
          · exact hmem c hc
        · rcases List.mem_cons.mp he with rfl | he
          · exact ⟨Nat.zero_le _,fun c hc => absurd hc (by simp)⟩
          · rcases List.mem_cons.mp he with rfl | he
            · refine ⟨hlt,fun c hc => ?_⟩
              rcases htake c hc with hc | rfl
              · exact List.mem_cons_of_mem _ (htaken c hc)
              · exact List.mem_cons_self
            · obtain ⟨hle,hin⟩ := hseen e (List.mem_cons_of_mem _ he)
              exact ⟨hle,fun c hc => List.mem_cons_of_mem _ (hin c hc)⟩
        · exact List.isChain_cons_cons.mpr ⟨hedge,hchain⟩
        · have : enough adj (nodes.filter (· ∉ b::visited)) + ((adj b).length+1) =
              enough adj (nodes.filter (· ∉ visited)) := enough_visit hnodes hbn hnew
          simp only [measure, List.map_cons, List.sum_cons]
          omega
    | none =>
      have hlen : (adj a).length ≤ n := List.getElem?_eq_none_iff.mp hb
      refine ⟨⟨?_,?_,hmem,fun e he => hseen e (List.mem_cons_of_mem _ he),?_⟩,?_⟩
      · dsimp only
        rw [List.append_assoc]
        exact hnodup
      · intro c
        dsimp only
        rw [hvisited c, List.append_assoc]
        rfl
      · rw [List.map_cons] at hchain
        exact hchain.tail
      · simp only [measure, List.map_cons, List.sum_cons]
        omega

/-- What is deeper in the stack leads to what is above it. -/
theorem Inv.leads (h : Inv adj nodes w) {a : α} {n : ℕ} {stack : List (α × ℕ)} (hw : w.stack = (a,n)::stack)
    {b : α} (hb : b ∈ stack.map Prod.fst) : TransGen (Edge adj) b a := by
  have htrans : IsTrans α fun a b => TransGen (Edge adj) b a := ⟨fun _ _ _ h k => k.trans h⟩
  have hchain := h.chain
  rw [hw, List.map_cons] at hchain
  have hpaths : (a::stack.map Prod.fst).IsChain fun a b => TransGen (Edge adj) b a :=
    hchain.imp fun _ _ h => TransGen.single h
  exact (List.pairwise_cons.mp hpaths.pairwise).1 b hb

/-- What a node leads to was noted before it. -/
def Ordered (adj : α → List α) (post : List α) : Prop :=
  ∀ front a back, post = front ++ a::back → ∀ b ∈ adj a, b ∈ front

theorem Inv.turn_ordered (h : Inv adj nodes w) (hacyclic : Acyclic adj) (ho : Ordered adj w.post) :
    Ordered adj (DepthFirst.turn adj w).post := by
  unfold DepthFirst.turn
  split
  · exact ho
  · next a n stack hw =>
    split
    · split
      · exact ho
      · exact ho
    · next hnone =>
      intro front x back heq b hb
      rcases List.eq_nil_or_concat back with rfl | ⟨back,last,rfl⟩
      · obtain ⟨rfl,hxa⟩ := List.append_inj' heq rfl
        obtain rfl : a = x := List.singleton_inj.mp hxa
        have hseen := (h.seen (a,n) (hw ▸ List.mem_cons_self)).2 b
        rw [List.take_of_length_le (List.getElem?_eq_none_iff.mp hnone)] at hseen
        rcases List.mem_append.mp ((h.visited b).mp (hseen hb)) with hpost | hstack
        · exact hpost
        · exfalso
          rw [hw, List.map_cons] at hstack
          rcases List.mem_cons.mp hstack with rfl | hdeep
          · exact hacyclic _ (TransGen.single hb)
          · exact hacyclic _ ((h.leads hw hdeep).tail hb)
      · rw [List.concat_eq_append, ← List.cons_append, ← List.append_assoc] at heq
        exact ho front x back (List.append_inj' heq rfl).1 b hb

theorem visited_turn {a : α} (ha : a ∈ w.visited) : a ∈ (DepthFirst.turn adj w).visited := by
  unfold DepthFirst.turn
  split
  · exact ha
  · split
    · split
      · exact ha
      · exact List.mem_cons_of_mem _ ha
    · exact ha

end Turns

section Runs

variable {adj} {nodes : List α} (hnodes : nodes.Nodup) (hclosed : ∀ a ∈ nodes, ∀ b ∈ adj a, b ∈ nodes)

include hnodes hclosed

/-- With turns enough the stack gets empty, and what the turns keep is kept. -/
theorem loop_keeps {P : Walk α → Prop} (hP : ∀ w, Inv adj nodes w → P w → P (turn adj w)) {fuel : ℕ}
    {w : Walk α} (h : Inv adj nodes w) (hw : P w) (hfuel : measure adj nodes w ≤ fuel) :
    Inv adj nodes (loop adj fuel w) ∧ P (loop adj fuel w) ∧ (loop adj fuel w).stack = [] := by
  induction fuel generalizing w with
  | zero =>
    refine ⟨h,hw,?_⟩
    by_contra hne
    have := (h.turn hnodes hclosed hne).2
    omega
  | succ fuel ih =>
    rw [loop]
    split
    · next hnil => exact ⟨h,hw,hnil⟩
    · next hne =>
      obtain ⟨hturn,hless⟩ := h.turn hnodes hclosed hne
      exact ih hturn (hP w h hw) (by omega)

theorem startAt_keeps {P : Walk α → Prop} (hP : ∀ w, Inv adj nodes w → P w → P (turn adj w)) {w : Walk α} {a : α}
    (ha : a ∈ nodes) (h : Inv adj nodes w) (hnil : w.stack = []) (hold : a ∈ w.visited → P w)
    (hstart : P ⟨a::w.visited,w.post,[(a,0)]⟩) :
    Inv adj nodes (startAt adj (enough adj nodes) w a) ∧ P (startAt adj (enough adj nodes) w a) ∧
      (startAt adj (enough adj nodes) w a).stack = [] := by
  unfold startAt
  split
  · next hvisited => exact ⟨h,hold hvisited,hnil⟩
  · next hnew =>
    obtain ⟨hnodup,hvisited,hmem,-,-⟩ := h
    simp only [hnil, List.map_nil, List.append_nil] at hnodup hvisited
    apply loop_keeps hnodes hclosed hP
    · refine ⟨?_,fun b => ?_,fun b hb => ?_,fun e he => ?_,List.isChain_singleton _⟩
      · apply List.Nodup.append hnodup (List.nodup_singleton a)
        intro b hb hba
        rw [List.mem_singleton] at hba
        exact hnew ((hvisited a).mpr (hba ▸ hb))
      · simp [hvisited, or_comm]
      · rcases List.mem_cons.mp hb with rfl | hb
        · exact ha
        · exact hmem b hb
      · rw [List.mem_singleton.mp he]
        exact ⟨Nat.zero_le _,fun b hb => absurd hb (by simp)⟩
    · exact hstart
    · have hvisit : enough adj (nodes.filter (· ∉ a::w.visited)) + ((adj a).length+1) =
          enough adj (nodes.filter (· ∉ w.visited)) := enough_visit hnodes ha hnew
      have hsub : enough adj (nodes.filter (· ∉ w.visited)) ≤ enough adj nodes :=
        (List.filter_sublist.map _).sum_le_sum (by simp)
      simp only [measure, List.map_cons, List.map_nil, List.sum_cons, List.sum_nil]
      omega

/-- What holds between the starts. -/
theorem starts_keep {P : Walk α → Prop} (hP : ∀ w, Inv adj nodes w → P w → P (turn adj w))
    (hstart : ∀ w a, P w → P ⟨a::w.visited,w.post,[(a,0)]⟩) {starts : List α} (hs : ∀ a ∈ starts, a ∈ nodes)
    {w : Walk α} (h : Inv adj nodes w) (hnil : w.stack = []) (hw : P w) :
    Inv adj nodes (starts.foldl (startAt adj (enough adj nodes)) w) ∧
      P (starts.foldl (startAt adj (enough adj nodes)) w) ∧
      (starts.foldl (startAt adj (enough adj nodes)) w).stack = [] := by
  induction starts generalizing w with
  | nil => exact ⟨h,hw,hnil⟩
  | cons a starts ih =>
    obtain ⟨h',hw',hnil'⟩ := startAt_keeps hnodes hclosed hP (hs a List.mem_cons_self) h hnil (fun _ => hw)
      (hstart w a hw)
    exact ih (fun b hb => hs b (List.mem_cons_of_mem _ hb)) h' hnil' hw'

theorem starts_visited {starts : List α} (hs : ∀ a ∈ starts, a ∈ nodes) {w : Walk α} (h : Inv adj nodes w)
    (hnil : w.stack = []) :
    ∀ a ∈ starts, a ∈ (starts.foldl (startAt adj (enough adj nodes)) w).visited := by
  induction starts generalizing w with
  | nil => exact fun a ha => absurd ha (by simp)
  | cons a starts ih =>
    have hs' : ∀ b ∈ starts, b ∈ nodes := fun b hb => hs b (List.mem_cons_of_mem _ hb)
    obtain ⟨h',hw',hnil'⟩ := startAt_keeps hnodes hclosed (P := fun w => a ∈ w.visited)
      (fun _ _ ha => visited_turn ha) (hs a List.mem_cons_self) h hnil id List.mem_cons_self
    intro b hb
    rcases List.mem_cons.mp hb with rfl | hb
    · exact (starts_keep hnodes hclosed (P := fun w => b ∈ w.visited) (fun _ _ ha => visited_turn ha)
        (fun _ _ ha => List.mem_cons_of_mem _ ha) hs' h' hnil' hw').2.1
    · exact ih hs' h' hnil' b hb

omit [DecidableEq α] hnodes hclosed in
theorem Inv.initial : Inv adj nodes ⟨[],[],[]⟩ := ⟨by simp,by simp,by simp,by simp,List.isChain_nil⟩

/-- Each node is noted once. -/
theorem postorder_perm : (postorder adj nodes).Perm nodes := by
  obtain ⟨h,-,hnil⟩ := starts_keep hnodes hclosed (P := fun _ => True) (fun _ _ _ => trivial)
    (fun _ _ _ => trivial) (fun _ ha => ha) Inv.initial rfl trivial
  have hall := starts_visited hnodes hclosed (fun _ ha => ha) (@Inv.initial _ adj nodes) rfl
  obtain ⟨hnodup,hvisited,hmem,-,-⟩ := h
  simp only [hnil, List.map_nil, List.append_nil] at hnodup hvisited
  apply (List.perm_ext_iff_of_nodup hnodup hnodes).mpr
  intro a
  constructor
  · intro ha
    exact hmem a ((hvisited a).mpr ha)
  · intro ha
    exact (hvisited a).mp (hall a ha)

theorem postorder_ordered (hacyclic : Acyclic adj) : Ordered adj (postorder adj nodes) :=
  (starts_keep hnodes hclosed (P := fun w => Ordered adj w.post)
    (fun _ h hw => h.turn_ordered hacyclic hw) (fun _ _ hw => hw) (fun _ ha => ha) Inv.initial rfl
    (fun _ _ _ heq => absurd heq (by simp))).2.1

end Runs

end BuildFiji.DepthFirst
