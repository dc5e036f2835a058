import BuildFiji.Lib.Digraph
import BuildFiji.Lib.Levels
import Mathlib.Data.List.Flatten
import Mathlib.Data.List.Perm.Subperm
import Mathlib.Data.Finite.Defs
import Mathlib.Order.WellFounded
import Mathlib.Data.Fintype.Card
import Mathlib.Data.Fintype.EquivFin
import Mathlib.Order.RelClasses

/-!
# Ranks in a multigraph

Two sweeps with a queue from the nodes that no edge leads to. The one ranks a node when it first
meets it; the other takes a node into the queue when its last incoming edge was followed, and
ranks it behind all that lead to it.
-/

set_option autoImplicit false
set_option linter.all false

namespace BuildFiji.Ranks

open Relation Digraph Levels

variable {α : Type*} [DecidableEq α] (adj : α → List α) (nodes : List α)

/-- How many edges lead to a node. -/
def incoming (b : α) : ℕ := (nodes.flatMap adj).count b

def starts : List α := nodes.filter fun a => incoming adj nodes a = 0

def rankStarts (a : α) : Option ℕ := if a ∈ starts adj nodes then some 0 else none

structure Nearest (α : Type*) where
  rank : α → Option ℕ
  queue : List α

/-- An edge to a node that has no rank gives it one. -/
def meet (here : ℕ) (s : Nearest α) (b : α) : Nearest α :=
  match s.rank b with
  | some _ => s
  | none => ⟨Function.update s.rank b (some (here+1)),s.queue ++ [b]⟩

def nearestLoop : ℕ → Nearest α → Option (α → Option ℕ)
  | 0, _ => none
  | fuel+1, s =>
    match s.queue with
    | [] => some s.rank
    | a::queue =>
      (s.rank a).bind fun here => nearestLoop fuel ((adj a).foldl (meet here) { s with queue := queue })

def nearest : Option (α → Option ℕ) :=
  nearestLoop adj (nodes.length+1) ⟨rankStarts adj nodes,starts adj nodes⟩

structure Farthest (α : Type*) where
  rank : α → Option ℕ
  remaining : α → ℕ
  queue : List α

/-- A counter that has nothing left to count cannot be decremented. -/
def follow (here : ℕ) (s : Farthest α) (b : α) : Option (Farthest α) :=
  match s.remaining b with
  | 0 => none
  | left+1 => some {
      rank := Function.update s.rank b (some (max ((s.rank b).getD 0) (here+1)))
      remaining := Function.update s.remaining b left
      queue := if left = 0 then s.queue ++ [b] else s.queue }

def farthestLoop : ℕ → Farthest α → Option (α → Option ℕ)
  | 0, _ => none
  | fuel+1, s =>
    match s.queue with
    | [] => some s.rank
    | a::queue =>
      (s.rank a).bind fun here =>
        ((adj a).foldlM (follow here) { s with queue := queue }).bind (farthestLoop fuel)

def farthest : Option (α → Option ℕ) :=
  farthestLoop adj (nodes.length+1) ⟨rankStarts adj nodes,incoming adj nodes,starts adj nodes⟩

/-- The nodes that no edge leads to. -/
def Root (a : α) : Prop := a ∈ nodes ∧ ∀ b ∈ nodes, ¬ Edge adj b a

def edgesOf (a : α) : List (α × α) := (adj a).map (a,·)

section Roots

variable {adj nodes}

theorem mem_starts {a : α} : a ∈ starts adj nodes ↔ Root adj nodes a := by
  unfold starts Root incoming
  simp only [List.mem_filter, decide_eq_true_eq, List.count_eq_zero, List.mem_flatMap, not_exists, not_and]
  rfl

theorem rankStarts_some {a : α} {r : ℕ} : rankStarts adj nodes a = some r ↔ Root adj nodes a ∧ r = 0 := by
  unfold rankStarts
  rw [← mem_starts]
  by_cases h : a ∈ starts adj nodes
  · simp [h, eq_comm]
  · simp [h]

theorem starts_nodup (hnodes : nodes.Nodup) : (starts adj nodes).Nodup := hnodes.filter _

omit [DecidableEq α] in
theorem Root.no_edge {a b : α} (h : Root adj nodes b) (ha : a ∈ nodes) (hb : b ∈ adj a) : False := h.2 a ha hb

end Roots

section NearestRuns

variable {adj nodes}

/-- What holds of the nodes that were taken from the queue and of those in it, once some edges
were followed. -/
structure NearInv (adj : α → List α) (nodes taken : List α) (edges : List (α × α)) (s : Nearest α) : Prop where
  nodup : (taken ++ s.queue).Nodup
  inside : ∀ a ∈ taken ++ s.queue, a ∈ nodes
  ranked : ∀ a, a ∈ taken ++ s.queue ↔ ∃ r, s.rank a = some r
  roots : ∀ a, Root adj nodes a → s.rank a = some 0
  attained : ∀ a r, s.rank a = some r → ∃ root, Root adj nodes root ∧ Steps (Edge adj) r root a
  sorted : s.queue.Pairwise fun b c => ∀ r q, s.rank b = some r → s.rank c = some q → r ≤ q
  followed : ∀ e ∈ edges, ∃ r q, s.rank e.1 = some r ∧ s.rank e.2 = some q ∧ q ≤ r+1

/-- While the edges of a node are followed. -/
structure Meeting (adj : α → List α) (nodes taken : List α) (edges : List (α × α)) (a : α) (here : ℕ)
    (s : Nearest α) : Prop extends NearInv adj nodes taken edges s where
  place : s.rank a = some here
  low : ∀ b r, s.rank b = some r → r ≤ here+1
  high : ∀ b ∈ s.queue, ∀ r, s.rank b = some r → here ≤ r

theorem Meeting.meet {taken : List α} {edges : List (α × α)} {a b : α} {here : ℕ} {s : Nearest α}
    (h : Meeting adj nodes taken edges a here s) (hb : b ∈ adj a) (hin : b ∈ nodes) :
    Meeting adj nodes taken (edges ++ [(a,b)]) a here (meet here s b) := by
  unfold Ranks.meet
  cases hrank : s.rank b with
  | some q =>
    refine { h with followed := fun e he => ?_ }
    rcases List.mem_append.mp he with he | he
    · exact h.followed e he
    · rw [List.mem_singleton.mp he]
      exact ⟨here,q,h.place,hrank,h.low b q hrank⟩
  | none =>
    have hnew : b ∉ taken ++ s.queue := by
      intro hmem
      obtain ⟨r,hr⟩ := (h.ranked b).mp hmem
      rw [hrank] at hr
      cases hr
    have hold : ∀ c r, s.rank c = some r → Function.update s.rank b (some (here+1)) c = some r := by
      intro c r hr
      rw [Function.update_of_ne (fun heq => by rw [heq, hrank] at hr; cases hr)]
      exact hr
    have hback : ∀ c r, Function.update s.rank b (some (here+1)) c = some r →
        c = b ∧ r = here+1 ∨ c ≠ b ∧ s.rank c = some r := by
      intro c r hr
      by_cases hcb : c = b
      · rw [hcb, Function.update_self] at hr
        exact .inl ⟨hcb,(Option.some.inj hr).symm⟩
      · rw [Function.update_of_ne hcb] at hr
        exact .inr ⟨hcb,hr⟩
    constructor
    · constructor
      · dsimp only
        rw [← List.append_assoc]
        exact h.nodup.append (List.nodup_singleton b) (by simpa using hnew)
      · intro c hc
        dsimp only at hc
        rw [← List.append_assoc] at hc
        rcases List.mem_append.mp hc with hc | hc
        · exact h.inside c hc
        · exact List.mem_singleton.mp hc ▸ hin
      · intro c
        dsimp only
        rw [← List.append_assoc, List.mem_append, List.mem_singleton, h.ranked]
        by_cases hcb : c = b
        · simp [hcb]
        · simp [hcb]
      · exact fun c hc => hold c 0 (h.roots c hc)
      · intro c r hr
        rcases hback c r hr with ⟨rfl,rfl⟩ | ⟨-,hr⟩
        · obtain ⟨root,hroot,hs⟩ := h.attained a here h.place
          exact ⟨root,hroot,hs.tail hb⟩
        · exact h.attained c r hr
      · apply List.pairwise_append.mpr
        refine ⟨h.sorted.imp_of_mem fun {x y} hx hy hle r q hr hq => ?_,List.pairwise_singleton _ _,
          fun x hx y hy r q hr hq => ?_⟩
        · have hxb : x ≠ b := fun heq => hnew (heq ▸ List.mem_append_right _ hx)
          have hyb : y ≠ b := fun heq => hnew (heq ▸ List.mem_append_right _ hy)
          exact hle r q ((hback x r hr).resolve_left fun h => hxb h.1).2
            ((hback y q hq).resolve_left fun h => hyb h.1).2
        · rw [List.mem_singleton.mp hy] at hq
          dsimp only at hq
          rw [Function.update_self] at hq
          obtain rfl := Option.some.inj hq
          rcases hback x r hr with ⟨-,rfl⟩ | ⟨-,hr⟩
          · exact le_rfl
          · exact h.low x r hr
      · intro e he
        rcases List.mem_append.mp he with he | he
        · obtain ⟨r,q,hr,hq,hle⟩ := h.followed e he
          exact ⟨r,q,hold _ r hr,hold _ q hq,hle⟩
        · rw [List.mem_singleton.mp he]
          exact ⟨here,here+1,hold a here h.place,Function.update_self ..,le_rfl⟩
    · exact hold a here h.place
    · intro c r hr
      rcases hback c r hr with ⟨-,rfl⟩ | ⟨-,hr⟩
      · exact le_rfl
      · exact h.low c r hr
    · intro c hc r hr
      rcases hback c r hr with ⟨-,rfl⟩ | ⟨hcb,hr⟩
      · exact Nat.le_succ here
      · exact h.high c ((List.mem_append.mp hc).resolve_right fun h => hcb (List.mem_singleton.mp h)) r hr

theorem Meeting.meets {taken : List α} {a : α} {here : ℕ} {targets : List α} (hb : ∀ b ∈ targets, b ∈ adj a)
    (hin : ∀ b ∈ targets, b ∈ nodes) {edges : List (α × α)} {s : Nearest α}
    (h : Meeting adj nodes taken edges a here s) :
    Meeting adj nodes taken (edges ++ targets.map (a,·)) a here (targets.foldl (Ranks.meet here) s) := by
  induction targets generalizing edges s with
  | nil => simpa using h
  | cons b targets ih =>
    have hstep := h.meet (hb b List.mem_cons_self) (hin b List.mem_cons_self)
    have hrest := ih (fun c hc => hb c (List.mem_cons_of_mem _ hc)) (fun c hc => hin c (List.mem_cons_of_mem _ hc))
      hstep
    rw [List.append_assoc] at hrest
    exact hrest

/-- Between two nodes: no rank is far from those in the queue. -/
structure Between (adj : α → List α) (nodes taken : List α) (s : Nearest α) : Prop
    extends NearInv adj nodes taken (taken.flatMap (edgesOf adj)) s where
  level : ∀ a r, s.rank a = some r → ∀ b ∈ s.queue, ∀ q, s.rank b = some q → r ≤ q+1

theorem Between.take (hclosed : ∀ a ∈ nodes, ∀ b ∈ adj a, b ∈ nodes) {taken queue : List α} {a : α} {here : ℕ}
    {rank : α → Option ℕ} (h : Between adj nodes taken ⟨rank,a::queue⟩) (hplace : rank a = some here) :
    Between adj nodes (taken ++ [a]) ((adj a).foldl (Ranks.meet here) ⟨rank,queue⟩) := by
  have heq : taken ++ [a] ++ queue = taken ++ a::queue := by simp
  have hmeeting : Meeting adj nodes (taken ++ [a]) (taken.flatMap (edgesOf adj)) a here ⟨rank,queue⟩ := by
    constructor
    · refine { h with nodup := ?_, inside := ?_, ranked := ?_, sorted := ?_ }
      · exact heq ▸ h.nodup
      · exact heq ▸ h.inside
      · exact heq ▸ h.ranked
      · exact (List.pairwise_cons.mp h.sorted).2
    · exact hplace
    · exact fun b r hr => h.level b r hr a List.mem_cons_self here hplace
    · exact fun b hb r hr => (List.pairwise_cons.mp h.sorted).1 b hb here r hplace hr
  have ha : a ∈ nodes := h.inside a (by simp)
  have hend := hmeeting.meets (fun _ hb => hb) (hclosed a ha)
  refine ⟨?_,fun c r hr b hb q hq => ?_⟩
  · rw [List.flatMap_append, List.flatMap_singleton]
    exact hend.toNearInv
  · have hlow := hend.low c r hr
    have hhigh := hend.high b hb q hq
    omega

omit [DecidableEq α] in
theorem NearInv.room {taken : List α} {edges : List (α × α)} {s : Nearest α} (h : NearInv adj nodes taken edges s) :
    taken.length+s.queue.length ≤ nodes.length := by
  rw [← List.length_append]
  exact (h.nodup.subperm h.inside).length_le

theorem nearestLoop_ends (hclosed : ∀ a ∈ nodes, ∀ b ∈ adj a, b ∈ nodes) {fuel : ℕ} {taken : List α}
    {s : Nearest α} (h : Between adj nodes taken s) (hfuel : nodes.length < fuel+taken.length) :
    ∃ rank taken', nearestLoop adj fuel s = some rank ∧ Between adj nodes taken' ⟨rank,[]⟩ := by
  induction fuel generalizing taken s with
  | zero =>
    have := h.room
    omega
  | succ fuel ih =>
    obtain ⟨rank,queue⟩ := s
    cases queue with
    | nil => exact ⟨rank,taken,rfl,h⟩
    | cons a queue =>
      obtain ⟨here,hplace⟩ := (h.ranked a).mp (by simp)
      have hnext := h.take hclosed hplace
      obtain ⟨rank',taken',hloop,hend⟩ := ih hnext (by rw [List.length_append, List.length_singleton]; omega)
      refine ⟨rank',taken',?_,hend⟩
      rw [nearestLoop]
      dsimp only at hplace ⊢
      rw [hplace]
      exact hloop

theorem Between.initial (hnodes : nodes.Nodup) : Between adj nodes [] ⟨rankStarts adj nodes,starts adj nodes⟩ := by
  refine ⟨⟨starts_nodup hnodes,fun a ha => (mem_starts.mp ha).1,fun a => ?_,fun a ha => ?_,fun a r hr => ?_,?_,
    by simp⟩,fun a r hr b hb q hq => ?_⟩
  · rw [List.nil_append, mem_starts]
    simp [rankStarts_some]
  · exact rankStarts_some.mpr ⟨ha,rfl⟩
  · obtain ⟨hroot,rfl⟩ := rankStarts_some.mp hr
    exact ⟨a,hroot,.refl a⟩
  · apply List.pairwise_of_forall
    intro b c r q hr hq
    rw [(rankStarts_some.mp hr).2]
    exact Nat.zero_le q
  · rw [(rankStarts_some.mp hr).2]
    exact Nat.zero_le _

/-- The first sweep ends, with the lengths of the shortest paths. -/
theorem nearest_at (hnodes : nodes.Nodup) (hclosed : ∀ a ∈ nodes, ∀ b ∈ adj a, b ∈ nodes) :
    ∃ rank, nearest adj nodes = some rank ∧
      ∀ a r, rank a = some r ↔ At (Edge adj) (Root adj nodes) r a := by
  obtain ⟨rank,taken,hloop,hend⟩ := nearestLoop_ends hclosed (Between.initial hnodes) (Nat.lt_succ_self _)
  have hshort : ∀ root, Root adj nodes root → ∀ n a, Steps (Edge adj) n root a →
      ∃ q, rank a = some q ∧ q ≤ n := by
    intro root hroot n a hs
    induction hs with
    | refl => exact ⟨0,hend.roots _ hroot,le_rfl⟩
    | @tail n root b c _ he ih =>
      obtain ⟨q,hq,hle⟩ := ih hroot
      have htaken : b ∈ taken := by simpa using (hend.ranked b).mpr ⟨q,hq⟩
      obtain ⟨r,p,hr,hp,hnear⟩ := hend.followed (b,c)
        (List.mem_flatMap.mpr ⟨b,htaken,List.mem_map.mpr ⟨c,he,rfl⟩⟩)
      obtain rfl : r = q := Option.some.inj (hr.symm.trans hq)
      exact ⟨p,hp,by omega⟩
  have hat : ∀ a r, rank a = some r → At (Edge adj) (Root adj nodes) r a := by
    intro a r hr
    refine ⟨hend.attained a r hr,fun root hroot k hk hs => ?_⟩
    obtain ⟨q,hq,hle⟩ := hshort root hroot k a hs
    obtain rfl : r = q := Option.some.inj (hr.symm.trans hq)
    omega
  refine ⟨rank,hloop,fun a r => ⟨hat a r,fun h => ?_⟩⟩
  obtain ⟨root,hroot,hs⟩ := h.1
  obtain ⟨q,hq,-⟩ := hshort root hroot r a hs
  rwa [h.eq (hat a q hq)]

end NearestRuns

section FarthestRuns

variable {adj nodes}

/-- An edge is followed when what it starts at was taken from the queue, and a node gets into the
queue when all edges to it were followed. -/
structure FarInv (adj : α → List α) (nodes taken : List α) (edges : List (α × α)) (s : Farthest α) : Prop where
  nodup : (taken ++ s.queue).Nodup
  counted : ∀ b, s.remaining b + (edges.map Prod.snd).count b = incoming adj nodes b
  released : ∀ a, a ∈ taken ++ s.queue ↔ a ∈ nodes ∧ s.remaining a = 0
  ranked : ∀ a ∈ taken ++ s.queue, ∃ r, s.rank a = some r
  inside : ∀ a r, s.rank a = some r → a ∈ nodes
  roots : ∀ a, Root adj nodes a → s.rank a = some 0
  attained : ∀ a r, s.rank a = some r → ∃ root, Root adj nodes root ∧ Steps (Edge adj) r root a
  followed : ∀ e ∈ edges, e.1 ∈ taken ∧ ∃ r q, s.rank e.1 = some r ∧ s.rank e.2 = some q ∧ r+1 ≤ q

omit [DecidableEq α] in
theorem ends_map (taken : List α) : (taken.flatMap (edgesOf adj)).map Prod.snd = taken.flatMap adj := by
  simp [List.map_flatMap, edgesOf, Function.comp_def]

/-- The edges out of some of the nodes are not more than there are. -/
theorem count_le {taken : List α} (hnodup : taken.Nodup) (hin : ∀ a ∈ taken, a ∈ nodes) (b : α) :
    ((taken.flatMap (edgesOf adj)).map Prod.snd).count b ≤ incoming adj nodes b := by
  obtain ⟨l,hperm,hsub⟩ := hnodup.subperm hin
  rw [ends_map, incoming, ← (hperm.flatMap_right adj).count_eq b]
  exact (hsub.flatMap adj).count_le b

theorem count_filter (l : List α) (b : α) :
    ((l.filter (b ∈ adj ·)).flatMap adj).count b = (l.flatMap adj).count b := by
  induction l with
  | nil => rfl
  | cons a l ih =>
    by_cases hb : b ∈ adj a
    · rw [List.filter_cons_of_pos (by simpa using hb), List.flatMap_cons, List.flatMap_cons, List.count_append,
        List.count_append, ih]
    · rw [List.filter_cons_of_neg (by simpa using hb), List.flatMap_cons, List.count_append, ih,
        List.count_eq_zero.mpr hb, Nat.zero_add]

/-- With all that leads to a node its edges are complete. -/
theorem count_eq (hnodes : nodes.Nodup) {taken : List α} (hnodup : taken.Nodup) (hin : ∀ a ∈ taken, a ∈ nodes) {b : α}
    (hpred : ∀ a ∈ nodes, Edge adj a b → a ∈ taken) :
    (taken.flatMap adj).count b = (nodes.flatMap adj).count b := by
  rw [← count_filter, ← count_filter (l := nodes)]
  have hperm : (taken.filter (b ∈ adj ·)).Perm (nodes.filter (b ∈ adj ·)) := by
    apply (List.perm_ext_iff_of_nodup (hnodup.filter _) (hnodes.filter _)).mpr
    intro a
    simp only [List.mem_filter, decide_eq_true_eq]
    exact ⟨fun h => ⟨hin a h.1,h.2⟩,fun h => ⟨hpred a h.1 h.2,h.2⟩⟩
  exact (hperm.flatMap_right adj).count_eq b

theorem FarInv.follow {taken : List α} {edges : List (α × α)} {a b : α} {here : ℕ} {s : Farthest α}
    (h : FarInv adj nodes taken edges s) (ha : a ∈ taken) (hplace : s.rank a = some here) (hb : b ∈ adj a)
    (hin : b ∈ nodes) (hfits : (edges.map Prod.snd).count b < incoming adj nodes b) :
    ∃ s', follow here s b = some s' ∧ FarInv adj nodes taken (edges ++ [(a,b)]) s' ∧ s'.rank a = some here := by
  have hcount := h.counted b
  obtain ⟨left,hleft⟩ : ∃ left, s.remaining b = left+1 := Nat.exists_eq_succ_of_ne_zero (by omega)
  have hnew : b ∉ taken ++ s.queue := by
    intro hmem
    have := ((h.released b).mp hmem).2
    omega
  have hmem : ∀ c, c ∈ taken ++ (if left = 0 then s.queue ++ [b] else s.queue) ↔
      c ∈ taken ++ s.queue ∨ left = 0 ∧ c = b := by
    intro c
    by_cases hzero : left = 0
    · simp [hzero, or_assoc]
    · simp [hzero]
  have hne : ∀ c ∈ taken, c ≠ b := fun c hc heq => hnew (heq ▸ List.mem_append_left _ hc)
  set new := max ((s.rank b).getD 0) (here+1) with hmax
  have hraised : ∀ q, s.rank b = some q → q ≤ new := by
    intro q hq
    rw [hmax, hq]
    exact le_max_left ..
  rw [Ranks.follow, hleft]
  refine ⟨_,rfl,⟨?_,fun c => ?_,fun c => ?_,fun c hc => ?_,fun c r hr => ?_,fun c hc => ?_,fun c r hr => ?_,
    fun e he => ?_⟩,?_⟩
  · dsimp only
    split
    · rw [← List.append_assoc]
      exact h.nodup.append (List.nodup_singleton b) (by simpa using hnew)
    · exact h.nodup
  · dsimp only
    have := h.counted c
    by_cases hcb : c = b
    · subst hcb
      rw [Function.update_self, List.map_append, List.count_append]
      simp only [List.map_cons, List.map_nil, List.count_singleton_self]
      omega
    · rw [Function.update_of_ne hcb, List.map_append, List.count_append]
      simp only [List.map_cons, List.map_nil, List.count_singleton]
      simp [Ne.symm hcb, this]
  · dsimp only
    rw [hmem, h.released]
    by_cases hcb : c = b
    · subst hcb
      simp [hleft, hin]
    · simp [hcb]
  · dsimp only at hc ⊢
    by_cases hcb : c = b
    · exact ⟨new,by rw [hcb, Function.update_self]⟩
    · rw [Function.update_of_ne hcb]
      exact h.ranked c (((hmem c).mp hc).resolve_right fun h => hcb h.2)
  · by_cases hcb : c = b
    · exact hcb ▸ hin
    · dsimp only at hr
      rw [Function.update_of_ne hcb] at hr
      exact h.inside c r hr
  · have hcb : c ≠ b := by
      rintro rfl
      exact hc.no_edge ((h.released a).mp (List.mem_append_left _ ha)).1 hb
    dsimp only
    rw [Function.update_of_ne hcb]
    exact h.roots c hc
  · dsimp only at hr
    by_cases hcb : c = b
    · rw [hcb, Function.update_self] at hr
      rw [hcb, ← Option.some.inj hr]
      have hhere : ∃ root, Root adj nodes root ∧ Steps (Edge adj) (here+1) root b := by
        obtain ⟨root,hroot,hs⟩ := h.attained a here hplace
        exact ⟨root,hroot,hs.tail hb⟩
      cases hrank : s.rank b with
      | none => simpa [hmax, hrank] using hhere
      | some q =>
        rw [Option.getD_some]
        rcases max_choice q (here+1) with hq | hq <;> rw [hq]
        · exact h.attained b q hrank
        · exact hhere
    · rw [Function.update_of_ne hcb] at hr
      exact h.attained c r hr
  · dsimp only
    rcases List.mem_append.mp he with he | he
    · obtain ⟨htaken,r,q,hr,hq,hle⟩ := h.followed e he
      rw [Function.update_of_ne (hne _ htaken)]
      by_cases heb : e.2 = b
      · refine ⟨htaken,r,new,hr,by rw [heb, Function.update_self],?_⟩
        exact hle.trans (hraised q (heb ▸ hq))
      · exact ⟨htaken,r,q,hr,by rwa [Function.update_of_ne heb],hle⟩
    · rw [List.mem_singleton.mp he]
      refine ⟨ha,here,new,?_,Function.update_self ..,le_max_right ..⟩
      rwa [Function.update_of_ne (hne a ha)]
  · dsimp only
    rwa [Function.update_of_ne (hne a ha)]

/-- The edges of a node are followed without a counter running out. -/
theorem FarInv.follows {taken targets : List α} {a : α} {here : ℕ} (ha : a ∈ taken) (hb : ∀ b ∈ targets, b ∈ adj a)
    (hin : ∀ b ∈ targets, b ∈ nodes) {edges : List (α × α)} {s : Farthest α}
    (h : FarInv adj nodes taken edges s) (hplace : s.rank a = some here)
    (hfits : ∀ b, ((edges ++ targets.map (a,·)).map Prod.snd).count b ≤ incoming adj nodes b) :
    ∃ s', targets.foldlM (Ranks.follow here) s = some s' ∧
      FarInv adj nodes taken (edges ++ targets.map (a,·)) s' := by
  induction targets generalizing edges s with
  | nil => exact ⟨s,rfl,by simpa using h⟩
  | cons b targets ih =>
    have hroom : (edges.map Prod.snd).count b < incoming adj nodes b := by
      have := hfits b
      rw [List.map_append, List.count_append, List.map_cons, List.map_cons, List.count_cons_self] at this
      omega
    obtain ⟨s',hstep,h',hplace'⟩ := h.follow ha hplace (hb b List.mem_cons_self) (hin b List.mem_cons_self) hroom
    obtain ⟨s'',hsteps,h''⟩ := ih (fun c hc => hb c (List.mem_cons_of_mem _ hc))
      (fun c hc => hin c (List.mem_cons_of_mem _ hc)) h' hplace'
      (by simpa only [List.append_assoc, List.singleton_append, ← List.map_cons] using hfits)
    refine ⟨s'',?_,?_⟩
    · rw [List.foldlM_cons, hstep]
      exact hsteps
    · rwa [List.append_assoc] at h''

theorem FarInv.take (hclosed : ∀ a ∈ nodes, ∀ b ∈ adj a, b ∈ nodes) {taken queue : List α} {a : α} {here : ℕ}
    {rank : α → Option ℕ} {remaining : α → ℕ}
    (h : FarInv adj nodes taken (taken.flatMap (edgesOf adj)) ⟨rank,remaining,a::queue⟩)
    (hplace : rank a = some here) :
    ∃ s', (adj a).foldlM (Ranks.follow here) ⟨rank,remaining,queue⟩ = some s' ∧
      FarInv adj nodes (taken ++ [a]) ((taken ++ [a]).flatMap (edgesOf adj)) s' := by
  have heq : taken ++ [a] ++ queue = taken ++ a::queue := by simp
  have hmoved : FarInv adj nodes (taken ++ [a]) (taken.flatMap (edgesOf adj)) ⟨rank,remaining,queue⟩ :=
    ⟨heq ▸ h.nodup,h.counted,heq ▸ h.released,heq ▸ h.ranked,h.inside,h.roots,h.attained,fun e he =>
      ⟨List.mem_append_left _ (h.followed e he).1,(h.followed e he).2⟩⟩
  have hedges : (taken ++ [a]).flatMap (edgesOf adj) = taken.flatMap (edgesOf adj) ++ (adj a).map (a,·) := by
    rw [List.flatMap_append, List.flatMap_singleton, edgesOf]
  have hin : ∀ b ∈ taken ++ [a], b ∈ nodes := fun b hb => ((h.released b).mp (heq ▸ List.mem_append_left queue hb)).1
  rw [hedges]
  apply hmoved.follows (by simp) (fun _ hb => hb) (hclosed a (hin a (by simp))) hplace
  rw [← hedges]
  exact count_le (hmoved.nodup.sublist (List.sublist_append_left _ _)) hin

theorem farthestLoop_ends (hclosed : ∀ a ∈ nodes, ∀ b ∈ adj a, b ∈ nodes) {fuel : ℕ} {taken : List α}
    {s : Farthest α} (h : FarInv adj nodes taken (taken.flatMap (edgesOf adj)) s)
    (hfuel : nodes.length < fuel+taken.length) :
    ∃ rank remaining taken', farthestLoop adj fuel s = some rank ∧
      FarInv adj nodes taken' (taken'.flatMap (edgesOf adj)) ⟨rank,remaining,[]⟩ := by
  induction fuel generalizing taken s with
  | zero =>
    have hroom := (h.nodup.subperm fun a ha => ((h.released a).mp ha).1).length_le
    rw [List.length_append] at hroom
    omega
  | succ fuel ih =>
    obtain ⟨rank,remaining,queue⟩ := s
    cases queue with
    | nil => exact ⟨rank,remaining,taken,rfl,h⟩
    | cons a queue =>
      obtain ⟨here,hplace⟩ := h.ranked a (by simp)
      dsimp only at hplace
      obtain ⟨s',hsteps,hnext⟩ := h.take hclosed hplace
      obtain ⟨rank',remaining',taken',hloop,hend⟩ := ih hnext
        (by rw [List.length_append, List.length_singleton]; omega)
      refine ⟨rank',remaining',taken',?_,hend⟩
      rw [farthestLoop]
      dsimp only
      rw [hplace, Option.bind_some, hsteps]
      exact hloop

theorem FarInv.initial (hnodes : nodes.Nodup) :
    FarInv adj nodes [] [] ⟨rankStarts adj nodes,incoming adj nodes,starts adj nodes⟩ := by
  refine ⟨starts_nodup hnodes,fun b => by simp,fun a => ?_,fun a ha => ?_,fun a r hr => ?_,fun a ha => ?_,
    fun a r hr => ?_,by simp⟩
  · simp [starts]
  · exact ⟨0,rankStarts_some.mpr ⟨mem_starts.mp ha,rfl⟩⟩
  · exact (rankStarts_some.mp hr).1.1
  · exact rankStarts_some.mpr ⟨ha,rfl⟩
  · obtain ⟨hroot,rfl⟩ := rankStarts_some.mp hr
    exact ⟨a,hroot,.refl a⟩

/-- In a finite graph without cycles, what holds of a node when it holds of all that lead to it
holds of every node. -/
theorem acyclic_induction (hacyclic : Acyclic adj) {P : α → Prop}
    (hP : ∀ b ∈ nodes, (∀ a ∈ nodes, Edge adj a b → P a) → P b) : ∀ b ∈ nodes, P b := by
  have hirrefl : Std.Irrefl fun a b : {a // a ∈ nodes} => TransGen (Edge adj) a.1 b.1 := ⟨fun a => hacyclic a.1⟩
  have htrans : IsTrans {a // a ∈ nodes} fun a b => TransGen (Edge adj) a.1 b.1 := ⟨fun _ _ _ h k => h.trans k⟩
  have hwf := Finite.wellFounded_of_trans_of_irrefl fun a b : {a // a ∈ nodes} => TransGen (Edge adj) a.1 b.1
  intro b hb
  induction hsub : (⟨b,hb⟩ : {a // a ∈ nodes}) using hwf.induction generalizing b with
  | h x ih =>
    subst hsub
    exact hP b hb fun a ha he => ih ⟨a,ha⟩ (TransGen.single he) a ha rfl

/-- The second sweep ends. Without cycles it ranks every node, with the length of the longest
path. -/
theorem farthest_longest (hnodes : nodes.Nodup) (hclosed : ∀ a ∈ nodes, ∀ b ∈ adj a, b ∈ nodes) :
    ∃ rank, farthest adj nodes = some rank ∧ (∀ a r, rank a = some r → a ∈ nodes) ∧
      (Acyclic adj → ∀ a ∈ nodes, ∃ r, rank a = some r ∧
        (∃ root, Root adj nodes root ∧ Steps (Edge adj) r root a) ∧
        ∀ root n, Root adj nodes root → Steps (Edge adj) n root a → n ≤ r) := by
  obtain ⟨rank,remaining,taken,hloop,hend⟩ := farthestLoop_ends hclosed (FarInv.initial hnodes) (Nat.lt_succ_self _)
  refine ⟨rank,hloop,hend.inside,fun hacyclic => ?_⟩
  have htaken : taken.Nodup := by simpa using hend.nodup
  have hin : ∀ a ∈ taken, a ∈ nodes := fun a ha => ((hend.released a).mp (List.mem_append_left _ ha)).1
  have hall : ∀ b ∈ nodes, b ∈ taken := by
    refine acyclic_induction hacyclic fun b hb hpred => ?_
    have hzero : remaining b = 0 := by
      have hcount := hend.counted b
      rw [ends_map, count_eq hnodes htaken hin hpred, ← incoming] at hcount
      dsimp only at hcount
      omega
    simpa using (hend.released b).mpr ⟨hb,hzero⟩
  have hlong : ∀ root n a, Root adj nodes root → Steps (Edge adj) n root a → ∃ r, rank a = some r ∧ n ≤ r := by
    intro root n a hroot hs
    induction hs with
    | refl => exact ⟨0,hend.roots _ hroot,le_rfl⟩
    | @tail n root b c _ he ih =>
      obtain ⟨q,hq,hle⟩ := ih hroot
      obtain ⟨-,r,p,hr,hp,hfar⟩ := hend.followed (b,c)
        (List.mem_flatMap.mpr ⟨b,hall b (hend.inside b q hq),List.mem_map.mpr ⟨c,he,rfl⟩⟩)
      obtain rfl : r = q := Option.some.inj (hr.symm.trans hq)
      exact ⟨p,hp,by omega⟩
  intro a ha
  obtain ⟨r,hr⟩ := hend.ranked a (List.mem_append_left _ (hall a ha))
  refine ⟨r,hr,hend.attained a r hr,fun root n hroot hs => ?_⟩
  obtain ⟨q,hq,hle⟩ := hlong root n a hroot hs
  obtain rfl : r = q := Option.some.inj (hr.symm.trans hq)
  exact hle

end FarthestRuns

end BuildFiji.Ranks
