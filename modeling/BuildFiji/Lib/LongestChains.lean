import BuildFiji.Lib.Ranks
import Mathlib

/-!
# Longest chains

Nodes have a weight of their own, and a chain weighs what its nodes do. A chain that starts at a
node is the node before a chain that starts behind it, so the heaviest is found once those behind
are known: in an order in which a node stands before all behind it, from the end, or by a walk
that comes back to a node after them.
-/

set_option autoImplicit false
set_option linter.all false

namespace BuildFiji.LongestChains

open Relation Digraph Ranks

variable {α : Type*}

/-- Nothing is the most there is of nothing. -/
def most (l : List ℕ) : ℕ := l.max?.getD 0

section Weights

theorem le_most {l : List ℕ} {x : ℕ} (h : x ∈ l) : x ≤ most l := List.le_max?_getD_of_mem h

theorem most_mem {l : List ℕ} (h : l ≠ []) : most l ∈ l := by
  cases hmax : l.max? with
  | none => exact absurd (List.max?_eq_none_iff.mp hmax) h
  | some x =>
    rw [most, hmax]
    exact List.max?_mem hmax

variable (next : α → List α) (own : α → ℕ) (cap : ℕ → ℕ)

/-- What the chains that start at a node weigh. -/
def weights (a : α) : Set ℕ := {w | ∃ l, (a::l).IsChain (Edge next) ∧ w = cap ((a::l).map own).sum}

variable {next own cap}

/-- A chain from a node is the node alone or goes on with a chain from one behind it. -/
theorem weights_isGreatest (hmono : Monotone cap) (hcap : ∀ x y, cap (x + cap y) = cap (x + y)) {a : α} {f : α → ℕ}
    (hf : ∀ b ∈ next a, IsGreatest (weights next own cap b) (f b)) :
    IsGreatest (weights next own cap a) (cap (own a + most ((next a).map f))) := by
  constructor
  · by_cases hnext : next a = []
    · exact ⟨[],List.isChain_singleton a,by rw [hnext]; rfl⟩
    · obtain ⟨b,hb,hmost⟩ := List.mem_map.mp (most_mem fun h => hnext (List.map_eq_nil_iff.mp h))
      obtain ⟨l,hchain,hweight⟩ := (hf b hb).1
      refine ⟨b::l,List.isChain_cons_cons.mpr ⟨hb,hchain⟩,?_⟩
      rw [← hmost, hweight, hcap, ← List.sum_cons, ← List.map_cons]
  · rintro w ⟨l,hchain,rfl⟩
    cases l with
    | nil =>
      apply hmono
      rw [List.map_singleton, List.sum_singleton]
      exact Nat.le_add_right _ _
    | cons b l =>
      obtain ⟨hb,hchain⟩ := List.isChain_cons_cons.mp hchain
      have hle : cap ((b::l).map own).sum ≤ f b := (hf b hb).2 ⟨l,hchain,rfl⟩
      have hmost : f b ≤ most ((next a).map f) := le_most (List.mem_map_of_mem hb)
      rw [List.map_cons, List.sum_cons, ← hcap]
      exact hmono (Nat.add_le_add_left (hle.trans hmost) _)

end Weights

section Cycles

variable {next : α → List α} {nodes : List α}

/-- What holds of a node when it holds of all behind it holds of every node. -/
theorem behind_induction (hacyclic : Acyclic next) {P : α → Prop}
    (hP : ∀ a ∈ nodes, (∀ b ∈ nodes, b ∈ next a → P b) → P a) : ∀ a ∈ nodes, P a := by
  classical
  have hswap : ∀ b a, Edge (fun b => nodes.filter (b ∈ next ·)) b a → Function.swap (Edge next) b a :=
    fun b a hedge => show b ∈ next a by simpa using (List.mem_filter.mp hedge).2
  have hflip : Acyclic fun b => nodes.filter (b ∈ next ·) := fun a hcycle =>
    hacyclic a (transGen_swap.mp (TransGen.mono hswap a a hcycle))
  refine acyclic_induction hflip fun a ha h => hP a ha fun b hb hedge => h b hb ?_
  exact List.mem_filter.mpr ⟨ha,by simpa using hedge⟩

/-- Among finitely many nodes an endless chain comes back to one it has passed. -/
theorem acc_iff_no_cycle (hin : ∀ a, ∀ b ∈ next a, b ∈ nodes) {r : α} : Acc (flip (Edge next)) r ↔
    ∀ a, ReflTransGen (Edge next) r a → ¬TransGen (Edge next) a a := by
  constructor
  · intro hacc
    induction hacc with
    | intro r _ ih =>
      intro a hreach hcycle
      cases hreach.cases_head with
      | inl heq =>
        subst heq
        obtain ⟨b,hb,hback⟩ := TransGen.head'_iff.mp hcycle
        exact ih b hb b .refl (TransGen.tail' hback hb)
      | inr h =>
        obtain ⟨b,hb,hreach⟩ := h
        exact ih b hb a hreach hcycle
  · intro h
    classical
    let R (a b : {a // a ∈ nodes ∧ ReflTransGen (Edge next) r a}) := TransGen (Edge next) b.1 a.1
    have hirrefl : Std.Irrefl R := ⟨fun a => h a.1 a.2.2⟩
    have htrans : IsTrans _ R := ⟨fun _ _ _ h k => k.trans h⟩
    have hfinite : Finite {a // a ∈ nodes ∧ ReflTransGen (Edge next) r a} :=
      Finite.of_injective (fun a => (⟨a.1,a.2.1⟩ : {a // a ∈ nodes})) fun _ _ heq =>
        Subtype.ext (congrArg (fun a => a.1) heq)
    have hwf := Finite.wellFounded_of_trans_of_irrefl R
    have hall : ∀ a : {a // a ∈ nodes ∧ ReflTransGen (Edge next) r a}, Acc (flip (Edge next)) a.1 := by
      intro a
      induction a using hwf.induction with
      | h a ih => exact ⟨a.1,fun b hb => ih ⟨b,hin a.1 b hb,a.2.2.tail hb⟩ (TransGen.single hb)⟩
    exact ⟨r,fun b hb => hall ⟨b,hin r b hb,ReflTransGen.single hb⟩⟩

end Cycles

section Sweep

variable [DecidableEq α]

/-- The nodes that wait for no other any more, in the order in which that came to be. -/
structure Sweep (α : Type*) where
  waiting : α → ℕ
  order : List α

/-- A counter that has nothing left to count cannot be decremented. -/
def release (s : Sweep α) (b : α) : Option (Sweep α) :=
  match s.waiting b with
  | 0 => none
  | left+1 => some {
      waiting := Function.update s.waiting b left
      order := if left = 0 then s.order ++ [b] else s.order }

variable (next : α → List α)

def sweepLoop : ℕ → ℕ → Sweep α → Option (List α)
  | 0, _, _ => none
  | fuel+1, i, s =>
    match s.order[i]? with
    | none => some s.order
    | some a => ((next a).foldlM release s).bind (sweepLoop fuel (i+1))

/-- What holds once the nodes in `done` and some of the edges from them were looked at. -/
structure Swept (nodes done targets : List α) (s : Sweep α) : Prop where
  taken : done <+: s.order
  within : ∀ b, targets.count b ≤ (done.flatMap next).count b
  nodup : s.order.Nodup
  counted : ∀ b, s.waiting b + targets.count b = incoming next nodes b
  released : ∀ b, b ∈ s.order ↔ b ∈ nodes ∧ s.waiting b = 0
  sorted : s.order.Pairwise fun a b => a ∉ next b

variable {next} {nodes done targets : List α} {s : Sweep α}

theorem Swept.count_le (h : Swept next nodes done targets s) {l : List α} (hnodup : (l ++ done).Nodup)
    (hl : ∀ a ∈ l, a ∈ nodes) (b : α) : ((l ++ done).flatMap next).count b ≤ incoming next nodes b := by
  rw [← ends_map]
  refine Ranks.count_le hnodup (fun a ha => ?_) b
  rcases List.mem_append.mp ha with ha|ha
  · exact hl a ha
  · exact ((h.released a).mp (h.taken.subset ha)).1

theorem Swept.initial (hnodes : nodes.Nodup) {waiting : α → ℕ} (hwaiting : ∀ b, waiting b = incoming next nodes b) :
    Swept next nodes [] [] ⟨waiting,nodes.filter fun a => waiting a = 0⟩ := by
  refine ⟨List.nil_prefix,fun b => le_rfl,hnodes.filter _,fun b => hwaiting b,fun b => by simp,?_⟩
  refine List.Pairwise.imp_of_mem (R := fun _ _ => True) (fun {a b} ha hb _ hedge => ?_) (List.pairwise_of_forall fun _ _ => trivial)
  have hzero := of_decide_eq_true (List.mem_filter.mp ha).2
  rw [hwaiting a, incoming, List.count_eq_zero] at hzero
  exact hzero (List.mem_flatMap.mpr ⟨b,(List.mem_filter.mp hb).1,hedge⟩)

/-- An edge more is one more that leads to its end. -/
theorem incoming_insertEdge (hnodes : nodes.Nodup) {a : α} (ha : a ∈ nodes) (b c : α) :
    incoming (insertEdge next a b) nodes c = incoming next nodes c + if c = b then 1 else 0 := by
  unfold incoming
  induction nodes with
  | nil => cases ha
  | cons x nodes ih =>
    rw [List.nodup_cons] at hnodes
    rw [List.flatMap_cons, List.flatMap_cons, List.count_append, List.count_append]
    by_cases hx : x = a
    · subst hx
      have hrest : nodes.flatMap (insertEdge next x b) = nodes.flatMap next :=
        List.flatMap_congr fun y hy => if_neg fun heq : y = x => hnodes.1 (heq ▸ hy)
      rw [hrest, insertEdge, if_pos rfl, List.count_append, List.count_singleton, Nat.add_right_comm]
      by_cases hc : c = b
      · simp [hc]
      · simp [hc, Ne.symm hc]
    · rw [ih hnodes.2 ((List.mem_cons.mp ha).resolve_left (Ne.symm hx)), insertEdge, if_neg hx]
      omega

theorem Swept.release (h : Swept next nodes done targets s) {b : α} (hb : b ∈ nodes)
    (hroom : targets.count b < (done.flatMap next).count b) :
    ∃ s', release s b = some s' ∧ Swept next nodes done (targets ++ [b]) s' := by
  have hdone : done.Nodup := h.nodup.sublist h.taken.sublist
  have hall : (done.flatMap next).count b ≤ incoming next nodes b :=
    h.count_le (l := []) hdone (fun _ h => absurd h List.not_mem_nil) b
  have hcounted := h.counted b
  unfold LongestChains.release
  cases hwaiting : s.waiting b with
  | zero => omega
  | succ left =>
    have hnew : b ∉ s.order := fun hmem => by
      have := ((h.released b).mp hmem).2
      omega
    refine ⟨_,rfl,?_⟩
    have hcount : ∀ c, c ≠ b → (targets ++ [b]).count c = targets.count c := fun c hc => by
      rw [List.count_append, List.count_singleton, if_neg (by simpa using Ne.symm hc), Nat.add_zero]
    refine ⟨?_,fun c => ?_,?_,fun c => ?_,fun c => ?_,?_⟩
    · dsimp only
      split
      · exact h.taken.trans (List.prefix_append _ _)
      · exact h.taken
    · by_cases hc : c = b
      · rw [hc, List.count_append, List.count_singleton_self]
        exact hroom
      · rw [hcount c hc]
        exact h.within c
    · dsimp only
      split
      · exact h.nodup.append (List.nodup_singleton b) (by simpa using hnew)
      · exact h.nodup
    · dsimp only
      by_cases hc : c = b
      · rw [hc, Function.update_self, List.count_append, List.count_singleton_self]
        omega
      · rw [Function.update_of_ne hc, hcount c hc]
        exact h.counted c
    · dsimp only
      by_cases hc : c = b
      · subst hc
        rw [Function.update_self]
        split
        · next hleft => simp [hleft, hb]
        · next hleft => exact iff_of_false hnew fun h => hleft h.2
      · rw [Function.update_of_ne hc, ← h.released]
        split
        · simp [hc]
        · rfl
    · dsimp only
      split
      · refine List.pairwise_append.mpr ⟨h.sorted,List.pairwise_singleton _ _,fun x hx y hy hedge => ?_⟩
        rw [List.mem_singleton] at hy
        subst hy
        -- all the edges to `x` were looked at, so none of them is from the node that is new
        have hx0 := ((h.released x).mp hx).2
        have hxcount := h.counted x
        have hxwithin := h.within x
        have hle := h.count_le (l := [y]) (List.nodup_cons.mpr ⟨fun hmem => hnew (h.taken.subset hmem),hdone⟩)
          (fun a ha => List.mem_singleton.mp ha ▸ hb) x
        rw [List.flatMap_append, List.count_append, List.flatMap_singleton] at hle
        have hpos := List.count_pos_iff.mpr hedge
        omega
      · exact h.sorted

theorem Swept.releases (h : Swept next nodes done targets s) {l : List α} (hl : ∀ b ∈ l, b ∈ nodes)
    (hroom : ∀ b, (targets ++ l).count b ≤ (done.flatMap next).count b) :
    ∃ s', l.foldlM LongestChains.release s = some s' ∧ Swept next nodes done (targets ++ l) s' := by
  induction l generalizing targets s with
  | nil => exact ⟨s,rfl,by rwa [List.append_nil]⟩
  | cons b l ih =>
    have hb := hroom b
    rw [List.count_append, List.count_cons_self] at hb
    obtain ⟨s',hstep,h'⟩ := h.release (hl b List.mem_cons_self) (by omega)
    obtain ⟨s'',hsteps,h''⟩ := ih h' (fun c hc => hl c (List.mem_cons_of_mem _ hc))
      (by simpa only [List.append_assoc, List.singleton_append] using hroom)
    refine ⟨s'',?_,by rwa [List.append_assoc] at h''⟩
    rw [List.foldlM_cons, hstep]
    exact hsteps

theorem Swept.turn (hclosed : ∀ a ∈ nodes, ∀ b ∈ next a, b ∈ nodes)
    (h : Swept next nodes done (done.flatMap next) s) {a : α} (ha : s.order[done.length]? = some a) :
    ∃ s', (next a).foldlM LongestChains.release s = some s' ∧
      Swept next nodes (done ++ [a]) ((done ++ [a]).flatMap next) s' := by
  have hmem : a ∈ nodes := ((h.released a).mp (List.mem_of_getElem? ha)).1
  have htaken : done ++ [a] <+: s.order := by
    obtain ⟨rest,hrest⟩ := h.taken
    rw [← hrest, List.getElem?_append_right le_rfl, Nat.sub_self] at ha
    cases rest with
    | nil => cases ha
    | cons b rest =>
      cases ha
      exact ⟨rest,by rw [← hrest, List.append_assoc]; rfl⟩
  have hflat : (done ++ [a]).flatMap next = done.flatMap next ++ next a := by
    rw [List.flatMap_append, List.flatMap_singleton]
  have hmoved : Swept next nodes (done ++ [a]) (done.flatMap next) s := by
    refine ⟨htaken,fun b => ?_,h.nodup,h.counted,h.released,h.sorted⟩
    rw [hflat, List.count_append]
    exact Nat.le_add_right _ _
  rw [hflat]
  exact hmoved.releases (hclosed a hmem) fun b => by rw [hflat]

/-- Every node comes at most once, so the sweep ends. -/
theorem sweepLoop_ends (hclosed : ∀ a ∈ nodes, ∀ b ∈ next a, b ∈ nodes) {fuel : ℕ}
    (h : Swept next nodes done (done.flatMap next) s) (hfuel : nodes.length < fuel + done.length) :
    ∃ s', sweepLoop next fuel done.length s = some s'.order ∧
      Swept next nodes s'.order (s'.order.flatMap next) s' := by
  induction fuel generalizing done s with
  | zero =>
    have hle := (h.nodup.subperm fun a ha => ((h.released a).mp ha).1).length_le
    have := h.taken.length_le
    omega
  | succ fuel ih =>
    rw [sweepLoop]
    cases ha : s.order[done.length]? with
    | none =>
      have hall : done = s.order := h.taken.eq_of_length_le (List.getElem?_eq_none_iff.mp ha)
      exact ⟨s,rfl,hall ▸ h⟩
    | some a =>
      obtain ⟨s',hfold,h'⟩ := h.turn hclosed ha
      obtain ⟨s'',hloop,hend⟩ := ih h' (by rw [List.length_append, List.length_singleton]; omega)
      refine ⟨s'',?_,hend⟩
      dsimp only
      rw [hfold, Option.bind_some, ← hloop, List.length_append, List.length_singleton]

/-- Without cycles the sweep leaves no node out. -/
theorem Swept.complete (hnodes : nodes.Nodup) (hacyclic : Acyclic next)
    (h : Swept next nodes s.order (s.order.flatMap next) s) : ∀ b ∈ nodes, b ∈ s.order := by
  refine acyclic_induction hacyclic fun b hb hpred => (h.released b).mpr ⟨hb,?_⟩
  have hall := count_eq hnodes h.nodup (fun a ha => ((h.released a).mp ha).1) hpred
  have hcounted := h.counted b
  rw [hall, incoming] at hcounted
  omega

end Sweep

section Fill

variable [DecidableEq α] (next : α → List α) (own : α → ℕ) (cap : ℕ → ℕ)

/-- From the end of the order, so that what is behind a node is filled in before it. -/
def fill (order : List α) : α → ℕ :=
  order.foldr (fun a f => Function.update f a (cap (own a + most ((next a).map f)))) own

variable {next own cap}

theorem fill_eq {order : List α} (hself : ∀ a, a ∉ next a) (hnodup : order.Nodup)
    (hsorted : order.Pairwise fun a b => a ∉ next b) {a : α} (ha : a ∈ order) :
    fill next own cap order a = cap (own a + most ((next a).map (fill next own cap order))) := by
  induction order with
  | nil => cases ha
  | cons x order ih =>
    rw [List.nodup_cons] at hnodup
    rw [List.pairwise_cons] at hsorted
    have hold : x ∉ next a → (next a).map (fill next own cap (x::order)) = (next a).map (fill next own cap order) :=
      fun hx => List.map_congr_left fun b hb => Function.update_of_ne (fun heq : b = x => hx (heq ▸ hb)) _ _
    rcases List.mem_cons.mp ha with rfl|ha
    · rw [hold (hself a)]
      exact Function.update_self ..
    · have hne : a ≠ x := fun heq => hnodup.1 (heq ▸ ha)
      rw [hold (hsorted.1 a ha), ← ih hnodup.2 hsorted.2 ha]
      exact Function.update_of_ne hne _ _

theorem fill_isGreatest {nodes order : List α} (hmono : Monotone cap) (hcap : ∀ x y, cap (x + cap y) = cap (x + y))
    (hclosed : ∀ a ∈ nodes, ∀ b ∈ next a, b ∈ nodes) (hacyclic : Acyclic next) (hnodup : order.Nodup)
    (hsorted : order.Pairwise fun a b => a ∉ next b) (hall : ∀ a ∈ nodes, a ∈ order) :
    ∀ a ∈ nodes, IsGreatest (weights next own cap a) (fill next own cap order a) := by
  refine behind_induction hacyclic fun a ha h => ?_
  rw [fill_eq (fun a hedge => hacyclic a (TransGen.single hedge)) hnodup hsorted (hall a ha)]
  exact weights_isGreatest hmono hcap fun b hb => h b (hclosed a ha b hb) hb

end Fill

section Walk

variable [DecidableEq α] (next : α → List α) (own : α → ℕ) (limit : ℕ)

/-- What is known of some nodes, and a stack of those to come. One is put back below those
behind it, to be known after them. -/
structure Walk (α : Type*) where
  chain : α → Option ℕ
  stack : List (α × Bool)

/-- A sum past the limit is none. -/
def add (x y : ℕ) : Option ℕ := if x + y < limit then some (x + y) else none

def turn (chain : α → Option ℕ) (a : α) (visited : Bool) (stack : List (α × Bool)) : Option (Walk α) :=
  if (chain a).isSome then some ⟨chain,stack⟩
  else if visited then
    (add limit (own a) (most ((next a).filterMap chain))).map fun v => ⟨Function.update chain a (some v),stack⟩
  else some ⟨chain,(((next a).filter fun b => (chain b).isNone).map (·,false)).reverse ++ (a,true)::stack⟩

def walkLoop : ℕ → Walk α → Option (α → Option ℕ)
  | 0, _ => none
  | fuel+1, w =>
    match w.stack with
    | [] => some w.chain
    | (a,visited)::stack => (turn next own limit w.chain a visited stack).bind (walkLoop fuel)

/-- What is known is the heaviest chain. It is known of nodes only that no endless chain starts at. -/
def Known (chain : α → Option ℕ) : Prop :=
  ∀ a v, chain a = some v → Acc (flip (Edge next)) a ∧ IsGreatest (weights next own id a) v ∧ v < limit

/-- Nothing is forgotten. -/
def Extends (chain chain' : α → Option ℕ) : Prop := ∀ a, (chain a).isSome → (chain' a).isSome

variable {next own limit} {chain : α → Option ℕ}

theorem Known.update (h : Known next own limit chain) {a : α} (hnext : ∀ b ∈ next a, (chain b).isSome) :
    Acc (flip (Edge next)) a ∧
      IsGreatest (weights next own id a) (own a + most ((next a).filterMap chain)) ∧
      ∀ v, add limit (own a) (most ((next a).filterMap chain)) = some v →
        Known next own limit (Function.update chain a (some v)) := by
  have hvalue : ∀ b ∈ next a, chain b = some ((chain b).getD 0) := fun b hb => by
    obtain ⟨v,hv⟩ := Option.isSome_iff_exists.mp (hnext b hb)
    rw [hv, Option.getD_some]
  have hmap : (next a).filterMap chain = (next a).map fun b => (chain b).getD 0 := by
    rw [← List.filterMap_eq_map]
    exact List.filterMap_congr hvalue
  have hacc : Acc (flip (Edge next)) a := ⟨a,fun b hb => (h b _ (hvalue b hb)).1⟩
  have hgreatest : IsGreatest (weights next own id a) _ :=
    weights_isGreatest monotone_id (fun _ _ => rfl) fun b hb => (h b _ (hvalue b hb)).2.1
  rw [← hmap] at hgreatest
  refine ⟨hacc,hgreatest,fun v hv c w hw => ?_⟩
  by_cases hc : c = a
  · subst hc
    rw [Function.update_self] at hw
    cases hw
    unfold add at hv
    split at hv
    · next hlt =>
      cases hv
      exact ⟨hacc,hgreatest,hlt⟩
    · cases hv
  · rw [Function.update_of_ne hc] at hw
    exact h c w hw

theorem Extends.update (a : α) (v : ℕ) : Extends chain (Function.update chain a (some v)) := by
  intro c hc
  by_cases hca : c = a
  · rw [hca, Function.update_self]
    rfl
  · rwa [Function.update_of_ne hca]

/-- What lies on top of the stack is worked off before what lies below it. -/
theorem walkLoop_top {fuel : ℕ} {l : List α} {stack : List (α × Bool)} {out : α → Option ℕ}
    (hknown : Known next own limit chain)
    (hloop : walkLoop next own limit fuel ⟨chain,l.map (·,false) ++ stack⟩ = some out) :
    ∃ fuel' chain', fuel' ≤ fuel ∧ walkLoop next own limit fuel' ⟨chain',stack⟩ = some out ∧
      Known next own limit chain' ∧ Extends chain chain' ∧ ∀ a ∈ l, (chain' a).isSome := by
  induction fuel using Nat.strong_induction_on generalizing chain l stack with
  | _ fuel ih =>
  cases l with
  | nil => exact ⟨fuel,chain,le_rfl,hloop,hknown,fun _ h => h,fun _ h => absurd h List.not_mem_nil⟩
  | cons a l =>
    cases fuel with
    | zero => cases hloop
    | succ fuel =>
      rw [List.map_cons, List.cons_append, walkLoop] at hloop
      dsimp only at hloop
      unfold turn at hloop
      -- once `a` is known, the rest of the list is worked off
      have hrest : ∀ fuel₁ chain₁, fuel₁ < fuel+1 → Known next own limit chain₁ → Extends chain chain₁ →
          (chain₁ a).isSome → walkLoop next own limit fuel₁ ⟨chain₁,l.map (·,false) ++ stack⟩ = some out →
          ∃ fuel' chain', fuel' ≤ fuel+1 ∧ walkLoop next own limit fuel' ⟨chain',stack⟩ = some out ∧
            Known next own limit chain' ∧ Extends chain chain' ∧ ∀ b ∈ a::l, (chain' b).isSome := by
        intro fuel₁ chain₁ hlt hknown₁ hext ha hloop₁
        obtain ⟨fuel',chain',hle,hloop',hknown',hext',hall⟩ := ih fuel₁ hlt hknown₁ hloop₁
        exact ⟨fuel',chain',by omega,hloop',hknown',fun b hb => hext' b (hext b hb),
          List.forall_mem_cons.mpr ⟨hext' a ha,hall⟩⟩
      split at hloop
      · next ha =>
        exact hrest fuel chain (Nat.lt_succ_self _) hknown (fun _ h => h) ha hloop
      · rw [if_neg Bool.false_ne_true, Option.bind_some, ← List.map_reverse] at hloop
        obtain ⟨fuel₁,chain₁,hle₁,hloop₁,hknown₁,hext₁,hall₁⟩ := ih fuel (Nat.lt_succ_self _) hknown hloop
        cases fuel₁ with
        | zero => cases hloop₁
        | succ fuel₁ =>
          rw [walkLoop] at hloop₁
          dsimp only at hloop₁
          unfold turn at hloop₁
          split at hloop₁
          · next ha => exact hrest fuel₁ chain₁ (by omega) hknown₁ hext₁ ha hloop₁
          · have hnext : ∀ b ∈ next a, (chain₁ b).isSome := by
              intro b hb
              cases hcb : (chain b).isNone with
              | true => exact hall₁ b (List.mem_reverse.mpr (List.mem_filter.mpr ⟨hb,hcb⟩))
              | false => exact hext₁ b (by rwa [Option.isNone_eq_false_iff] at hcb)
            rw [if_pos rfl] at hloop₁
            obtain ⟨-,-,hupdate⟩ := hknown₁.update hnext
            cases hadd : add limit (own a) (most ((next a).filterMap chain₁)) with
            | none =>
              rw [hadd] at hloop₁
              cases hloop₁
            | some v =>
              rw [hadd] at hloop₁
              refine hrest fuel₁ _ (by omega) (hupdate v hadd) (fun b hb => Extends.update a v b (hext₁ b hb)) ?_ hloop₁
              rw [Function.update_self]
              rfl

/-- Every chain from the node stays below the limit. -/
def Fits (next : α → List α) (own : α → ℕ) (limit : ℕ) (a : α) : Prop := ∀ w ∈ weights next own id a, w < limit

omit [DecidableEq α] in
theorem Fits.behind {a b : α} (h : Fits next own limit a) (hb : b ∈ next a) : Fits next own limit b := by
  rintro w ⟨l,hchain,rfl⟩
  have hlt := h _ ⟨b::l,List.isChain_cons_cons.mpr ⟨hb,hchain⟩,rfl⟩
  rw [List.map_cons, List.sum_cons] at hlt
  exact (Nat.le_add_left _ _).trans_lt hlt

/-- The walk has done with what lay on top of its stack. -/
def Done (next : α → List α) (own : α → ℕ) (limit : ℕ) (l : List α) : Prop :=
  ∀ chain stack, Known next own limit chain → ∃ turns chain', Known next own limit chain' ∧ Extends chain chain' ∧
    (∀ a ∈ l, (chain' a).isSome) ∧
    ∀ fuel, walkLoop next own limit (fuel + turns) ⟨chain,l.map (·,false) ++ stack⟩ =
      walkLoop next own limit fuel ⟨chain',stack⟩

theorem done_of_each {l : List α} (h : ∀ a ∈ l, Done next own limit [a]) : Done next own limit l := by
  induction l with
  | nil => exact fun chain stack hknown => ⟨0,chain,hknown,fun _ h => h,fun _ h => absurd h List.not_mem_nil,fun _ => rfl⟩
  | cons a l ih =>
    rw [List.forall_mem_cons] at h
    intro chain stack hknown
    obtain ⟨k,chain₁,hknown₁,hext₁,ha,hturns₁⟩ := h.1 chain (l.map (·,false) ++ stack) hknown
    obtain ⟨n,chain₂,hknown₂,hext₂,hl,hturns₂⟩ := ih h.2 chain₁ stack hknown₁
    refine ⟨n+k,chain₂,hknown₂,fun b hb => hext₂ b (hext₁ b hb),?_,fun fuel => ?_⟩
    · exact List.forall_mem_cons.mpr ⟨hext₂ a (ha a List.mem_cons_self),hl⟩
    · rw [← hturns₂, ← hturns₁, Nat.add_assoc]
      rfl

theorem done_of_acc {a : α} (hacc : Acc (flip (Edge next)) a) (hfits : Fits next own limit a) :
    Done next own limit [a] := by
  induction hacc with
  | intro a _ ih =>
  intro chain stack hknown
  cases ha : (chain a).isSome with
  | true =>
    refine ⟨1,chain,hknown,fun _ h => h,fun b hb => List.mem_singleton.mp hb ▸ ha,fun fuel => ?_⟩
    rw [List.map_singleton, List.singleton_append, walkLoop]
    dsimp only
    rw [turn, if_pos ha, Option.bind_some]
  | false =>
    have hbehind : Done next own limit ((next a).filter fun b => (chain b).isNone).reverse :=
      done_of_each fun b hb =>
        have hb := List.mem_of_mem_filter (List.mem_reverse.mp hb)
        ih b hb (hfits.behind hb)
    obtain ⟨k,chain₁,hknown₁,hext₁,hall₁,hturns₁⟩ := hbehind chain ((a,true)::stack) hknown
    have hnext : ∀ b ∈ next a, (chain₁ b).isSome := by
      intro b hb
      cases hcb : (chain b).isNone with
      | true => exact hall₁ b (List.mem_reverse.mpr (List.mem_filter.mpr ⟨hb,hcb⟩))
      | false => exact hext₁ b (by rwa [Option.isNone_eq_false_iff] at hcb)
    obtain ⟨-,hgreatest,hupdate⟩ := hknown₁.update hnext
    -- the turn that comes back to `a`
    have hback : ∃ chain₂, Known next own limit chain₂ ∧ Extends chain₁ chain₂ ∧ (chain₂ a).isSome ∧
        turn next own limit chain₁ a true stack = some ⟨chain₂,stack⟩ := by
      cases ha₁ : (chain₁ a).isSome with
      | true => exact ⟨chain₁,hknown₁,fun _ h => h,ha₁,by rw [turn, if_pos ha₁]⟩
      | false =>
        have hadd : add limit (own a) (most ((next a).filterMap chain₁)) =
            some (own a + most ((next a).filterMap chain₁)) := if_pos (hfits _ hgreatest.1)
        refine ⟨_,hupdate _ hadd,Extends.update a _,?_,?_⟩
        · rw [Function.update_self]
          rfl
        · rw [turn, if_neg (by rw [ha₁]; exact Bool.false_ne_true), if_pos rfl, hadd]
          rfl
    obtain ⟨chain₂,hknown₂,hext₂,ha₂,hturn₂⟩ := hback
    refine ⟨1+k+1,chain₂,hknown₂,fun b hb => hext₂ b (hext₁ b hb),fun b hb => List.mem_singleton.mp hb ▸ ha₂,
      fun fuel => ?_⟩
    have hfirst : turn next own limit chain a false stack =
        some ⟨chain,((next a).filter fun b => (chain b).isNone).reverse.map (·,false) ++ (a,true)::stack⟩ := by
      rw [turn, if_neg (by rw [ha]; exact Bool.false_ne_true), if_neg Bool.false_ne_true, List.map_reverse]
    rw [List.map_singleton, List.singleton_append, ← Nat.add_assoc, walkLoop]
    dsimp only
    rw [hfirst, Option.bind_some, ← Nat.add_assoc, hturns₁, walkLoop]
    dsimp only
    rw [hturn₂, Option.bind_some]

omit [DecidableEq α] in
theorem known_nothing : Known next own limit fun _ => none := fun _ _ h => nomatch h

theorem walkLoop_empty {fuel : ℕ} {chain out : α → Option ℕ} (h : walkLoop next own limit fuel ⟨chain,[]⟩ = some out) :
    chain = out := by
  cases fuel with
  | zero => cases h
  | succ fuel => exact Option.some.inj h

/-- The walk ends when no endless chain starts at its nodes and none is too heavy, and only then. -/
theorem walkLoop_ends_iff (roots : List α) :
    (∃ fuel out, walkLoop next own limit fuel ⟨fun _ => none,roots.map (·,false)⟩ = some out) ↔
      ∀ r ∈ roots, Acc (flip (Edge next)) r ∧ Fits next own limit r := by
  constructor
  · rintro ⟨fuel,out,hloop⟩ r hr
    rw [← List.append_nil (roots.map _)] at hloop
    obtain ⟨_,chain',-,-,hknown,-,hall⟩ := walkLoop_top known_nothing hloop
    obtain ⟨v,hv⟩ := Option.isSome_iff_exists.mp (hall r hr)
    obtain ⟨hacc,hgreatest,hlt⟩ := hknown r v hv
    exact ⟨hacc,fun w hw => (hgreatest.2 hw).trans_lt hlt⟩
  · intro h
    have hdone : Done next own limit roots := done_of_each fun r hr => done_of_acc (h r hr).1 (h r hr).2
    obtain ⟨turns,chain',-,-,-,hturns⟩ := hdone (fun _ => none) [] known_nothing
    refine ⟨1+turns,chain',?_⟩
    rw [← List.append_nil (roots.map _), hturns]
    rfl

/-- What it ends with is the heaviest chain from each. -/
theorem walkLoop_known {fuel : ℕ} {roots : List α} {out : α → Option ℕ}
    (hloop : walkLoop next own limit fuel ⟨fun _ => none,roots.map (·,false)⟩ = some out) :
    ∀ r ∈ roots, ∃ v, out r = some v ∧ IsGreatest (weights next own id r) v := by
  intro r hr
  rw [← List.append_nil (roots.map _)] at hloop
  obtain ⟨_,chain',-,hempty,hknown,-,hall⟩ := walkLoop_top known_nothing hloop
  obtain rfl := walkLoop_empty hempty
  obtain ⟨v,hv⟩ := Option.isSome_iff_exists.mp (hall r hr)
  exact ⟨v,hv,(hknown r v hv).2.1⟩

end Walk

end BuildFiji.LongestChains
