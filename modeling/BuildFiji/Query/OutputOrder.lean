import BuildFiji.Query.Output
import Mathlib.Order.Bounds.Basic

/-!
# A query's result in dependency order, and its ranks

The order lists each target once and, where there is no cycle, a target before all that it depends
on. The ranks are the lengths of the paths from the targets nothing depends on; where there is a
cycle every target still gets one.
-/

set_option autoImplicit false
set_option linter.all false

namespace BuildFiji.Query.Output

open Relation Digraph Levels BuildFiji.Graph

section Subgraphs

abbrev Subgraph.Leads (g : Subgraph) : Label → Label → Prop := Digraph.Edge g.next

variable (g : Subgraph)

theorem keys_nodup : g.keys.Nodup := by
  have h := Std.ExtTreeMap.distinct_keys (t := g.edges)
  exact h.imp fun {a b} hne heq => hne (by rw [heq]; exact Std.ReflOrd.compare_self)

theorem mem_keys {label : Label} : label ∈ g.keys ↔ label ∈ g.edges := Std.ExtTreeMap.mem_keys

theorem next_closed : ∀ a ∈ g.keys, ∀ b ∈ g.next a, b ∈ g.keys := by
  intro a _ b hb
  obtain ⟨e,he,rfl⟩ := List.mem_map.mp hb
  unfold Subgraph.edgesOf at he
  cases hes : g.edges[a]? with
  | none => simp [hes] at he
  | some es => exact (mem_keys g).mpr (g.closed a es hes e (by simpa [hes] using he))

theorem reached_keys {a b : Label} (ha : a ∈ g.keys) (h : ReflTransGen g.Leads a b) : b ∈ g.keys := by
  induction h with
  | refl => exact ha
  | tail _ he ih => exact next_closed g _ ih _ he

/-- The subgraph of a set is made of its targets and of the edges between them. -/
theorem subgraph_ok {nodeEdges : Label → Except String (List Edge)} {set : Targets} {g : Subgraph}
    (h : subgraph nodeEdges set = .ok g) (label : Label) :
    (label ∈ g.edges ↔ label ∈ set) ∧ (label ∈ set →
      ∃ es, nodeEdges label = .ok es ∧ g.edgesOf label = es.filter fun e => e.target ∈ set) := by
  unfold subgraph at h
  split at h
  · cases h
  · next edges hedges =>
    obtain rfl := Except.ok.inj h
    obtain ⟨hout,hin⟩ := subgraphEdges_get nodeEdges set hedges label
    refine ⟨?_,fun hmem => ?_⟩
    · dsimp only
      rw [Std.ExtTreeMap.mem_iff_isSome_getElem?]
      by_cases hmem : label ∈ set
      · obtain ⟨es,-,hes⟩ := hin hmem
        simp [hes, hmem]
      · simp [hout hmem, hmem]
    · obtain ⟨es,hes,hget⟩ := hin hmem
      exact ⟨es,hes,by simp [Subgraph.edgesOf, hget]⟩

end Subgraphs

section Order

variable (g : Subgraph)

theorem dependencyOrder_perm : (dependencyOrder g).Perm g.keys :=
  (List.reverse_perm _).trans (DepthFirst.postorder_perm (keys_nodup g) (next_closed g))

theorem dependencyOrder_nodup : (dependencyOrder g).Nodup := (dependencyOrder_perm g).nodup_iff.mpr (keys_nodup g)

theorem mem_dependencyOrder {a : Label} : a ∈ dependencyOrder g ↔ a ∈ g.edges :=
  (dependencyOrder_perm g).mem_iff.trans (mem_keys g)

theorem dependencyOrder_next (hacyclic : Acyclic g.next) {front back : List Label} {a : Label}
    (hsplit : dependencyOrder g = front ++ a::back) : ∀ b ∈ g.next a, b ∈ back := by
  intro b hb
  have hpost : DepthFirst.postorder g.next g.keys = back.reverse ++ a::front.reverse := by
    rw [← List.reverse_reverse (DepthFirst.postorder _ _)]
    change (dependencyOrder g).reverse = _
    rw [hsplit]
    simp
  have hbefore := DepthFirst.postorder_ordered (keys_nodup g) (next_closed g) hacyclic _ a _ hpost b hb
  exact List.mem_reverse.mp hbefore

theorem dependencyOrder_depends (hacyclic : Acyclic g.next) {front back : List Label} {a b : Label}
    (hsplit : dependencyOrder g = front ++ a::back) (h : TransGen g.Leads a b) : b ∈ back := by
  induction h with
  | single he => exact dependencyOrder_next g hacyclic hsplit _ he
  | tail _ he ih =>
    obtain ⟨mid,rest,rfl⟩ := List.append_of_mem ih
    have hlater := @dependencyOrder_next g hacyclic (front ++ a::mid) rest _ (by simp [hsplit]) _ he
    simp [hlater]

end Order

section Ranks

variable (g : Subgraph)

/-- The lengths of the paths to a target from those that nothing in the set depends on. -/
def lengths (a : Label) : Set ℕ :=
  {n | ∃ top ∈ g.edges, (∀ b ∈ g.edges, ¬ g.Leads b top) ∧ Steps g.Leads n top a}

variable {g}

theorem mem_lengths {a : Label} {n : ℕ} :
    n ∈ lengths g a ↔ ∃ top, Ranks.Root g.next g.keys top ∧ Steps g.Leads n top a := by
  simp only [lengths, Set.mem_ofPred_eq, Ranks.Root, mem_keys, and_assoc]

theorem isLeast_lengths {a : Label} {r : ℕ} :
    IsLeast (lengths g a) r ↔ At g.Leads (Ranks.Root g.next g.keys) r a := by
  unfold IsLeast At
  rw [mem_lengths]
  apply and_congr_right
  intro _
  constructor
  · intro h root hroot k hk hs
    exact absurd (h (mem_lengths.mpr ⟨root,hroot,hs⟩)) (not_le.mpr hk)
  · intro h n hn
    obtain ⟨root,hroot,hs⟩ := mem_lengths.mp hn
    exact not_lt.mp fun hlt => h root hroot n hlt hs

/-- Without cycles every target is led to by one that nothing depends on. -/
theorem lengths_nonempty (hacyclic : Acyclic g.next) : ∀ a ∈ g.keys, (lengths g a).Nonempty := by
  refine Ranks.acyclic_induction hacyclic fun b hb ih => ?_
  by_cases hroot : Ranks.Root g.next g.keys b
  · exact ⟨0,mem_lengths.mpr ⟨b,hroot,.refl b⟩⟩
  · unfold Ranks.Root at hroot
    push Not at hroot
    obtain ⟨a,ha,he⟩ := hroot hb
    obtain ⟨n,hn⟩ := ih a ha he
    obtain ⟨root,hroot,hs⟩ := mem_lengths.mp hn
    exact ⟨n+1,mem_lengths.mpr ⟨root,hroot,hs.tail he⟩⟩

theorem nearest_least (hacyclic : Acyclic g.next) {rank : Label → Option ℕ}
    (hrank : ∀ a r, rank a = some r ↔ At g.Leads (Ranks.Root g.next g.keys) r a) :
    ∀ a ∈ g.keys, ∃ r, rank a = some r ∧ IsLeast (lengths g a) r := by
  intro a ha
  classical
  have hfind := Nat.find_spec (lengths_nonempty hacyclic a ha)
  have hleast : IsLeast (lengths g a) (Nat.find (lengths_nonempty hacyclic a ha)) :=
    ⟨hfind,fun n hn => Nat.find_min' _ hn⟩
  exact ⟨_,(hrank a _).mpr (isLeast_lengths.mp hleast),hleast⟩

variable (g)

/-- Both sweeps end, with a rank for every target of the set. -/
theorem ranks_total (longest : Bool) :
    ∃ rank, ranks g longest = some rank ∧ (∀ a, (rank a).isSome ↔ a ∈ g.edges) ∧ (Acyclic g.next →
      ∀ a ∈ g.edges, ∃ r, rank a = some r ∧
        if longest then IsGreatest (lengths g a) r else IsLeast (lengths g a) r) := by
  have hfilled : ∀ rank : Label → Option ℕ, (∀ a r, rank a = some r → a ∈ g.keys) → ∀ a,
      (if a ∈ g.edges then some ((rank a).getD 0) else rank a).isSome ↔ a ∈ g.edges := by
    intro rank hin a
    by_cases ha : a ∈ g.edges
    · simp [ha]
    · cases hr : rank a with
      | none => simp [ha]
      | some r => exact absurd ((mem_keys g).mp (hin a r hr)) ha
  cases longest with
  | true =>
    obtain ⟨rank,hloop,hin,hlong⟩ := Ranks.farthest_longest (keys_nodup g) (next_closed g)
    refine ⟨_,by rw [ranks, if_pos rfl, hloop]; rfl,hfilled rank hin,fun hacyclic a ha => ?_⟩
    obtain ⟨r,hr,hpath,hmax⟩ := hlong hacyclic a ((mem_keys g).mpr ha)
    refine ⟨r,by simp [ha, hr],mem_lengths.mpr hpath,fun n hn => ?_⟩
    obtain ⟨root,hroot,hs⟩ := mem_lengths.mp hn
    exact hmax root n hroot hs
  | false =>
    obtain ⟨rank,hloop,hat⟩ := Ranks.nearest_at (keys_nodup g) (next_closed g)
    have hin : ∀ a r, rank a = some r → a ∈ g.keys := by
      intro a r hr
      obtain ⟨root,hroot,hs⟩ := ((hat a r).mp hr).1
      exact reached_keys g hroot.1 hs.reached
    refine ⟨_,by rw [ranks, if_neg (by simp), hloop]; rfl,hfilled rank hin,fun hacyclic a ha => ?_⟩
    obtain ⟨r,hr,hleast⟩ := nearest_least hacyclic hat a ((mem_keys g).mpr ha)
    exact ⟨r,by simp [ha, hr],hleast⟩

end Ranks

/-- The order and the ranks of every finite subgraph. -/
theorem order_and_ranks (g : Subgraph) :
    (dependencyOrder g).Nodup ∧ (∀ a, a ∈ dependencyOrder g ↔ a ∈ g.edges) ∧
    (Acyclic g.next → ∀ front a back, dependencyOrder g = front ++ a::back →
      ∀ b, TransGen g.Leads a b → b ∈ back) ∧
    ∀ longest, ∃ rank, ranks g longest = some rank ∧ (∀ a, (rank a).isSome ↔ a ∈ g.edges) ∧
      (Acyclic g.next → ∀ a ∈ g.edges, ∃ r, rank a = some r ∧
        if longest then IsGreatest (lengths g a) r else IsLeast (lengths g a) r) :=
  ⟨dependencyOrder_nodup g,fun _ => mem_dependencyOrder g,
    fun hacyclic _ _ _ hsplit _ h => dependencyOrder_depends g hacyclic hsplit h,ranks_total g⟩

end BuildFiji.Query.Output
