import Mathlib.Logic.Relation
import Mathlib.Data.List.Basic
import Mathlib.Data.Finset.Card
import Mathlib.Data.Finset.Dedup
import Mathlib.Tactic.Common

/-!
# Finite digraphs given by adjacency lists

Edges may repeat, so the graph is a multigraph; reachability forgets the
multiplicities. The search keeps one list of vertices it has seen across all
branches and stops at the first path found.
-/

set_option autoImplicit false
set_option linter.all false

namespace BuildFiji.Digraph

open Relation

variable {α : Type*}

def Edge (adj : α → List α) (a b : α) : Prop := b ∈ adj a

def Acyclic (adj : α → List α) : Prop := ∀ a, ¬ TransGen (Edge adj) a a

def insertEdge [DecidableEq α] (adj : α → List α) (a b : α) : α → List α :=
  fun x => if x = a then adj a ++ [b] else adj x

theorem insertEdge_edge [DecidableEq α] (adj : α → List α) (a b x y : α) :
    Edge (insertEdge adj a b) x y ↔ Edge adj x y ∨ (x = a ∧ y = b) := by
  unfold Edge insertEdge
  by_cases h : x = a
  · subst h
    simp
  · simp [h]

theorem acyclic_mono {adj adj' : α → List α} (h : ∀ a b, Edge adj a b → Edge adj' a b)
    (ha : Acyclic adj') : Acyclic adj :=
  fun a hc => ha a (TransGen.mono h _ _ hc)

/-- A path in the larger graph either avoids the new edge or passes it. -/
theorem insertEdge_path [DecidableEq α] {adj : α → List α} {a b x y : α}
    (h : TransGen (Edge (insertEdge adj a b)) x y) :
    TransGen (Edge adj) x y ∨ (ReflTransGen (Edge adj) x a ∧ ReflTransGen (Edge adj) b y) := by
  induction h with
  | single h =>
    rcases (insertEdge_edge adj a b _ _).mp h with h | ⟨rfl,rfl⟩
    · exact .inl (.single h)
    · exact .inr ⟨.refl,.refl⟩
  | tail _ h ih =>
    rcases (insertEdge_edge adj a b _ _).mp h with h | ⟨rfl,rfl⟩
    · rcases ih with ih | ⟨hx,hy⟩
      · exact .inl (ih.tail h)
      · exact .inr ⟨hx,hy.tail h⟩
    · rcases ih with ih | ⟨hx,-⟩
      · exact .inr ⟨ih.to_reflTransGen,.refl⟩
      · exact .inr ⟨hx,.refl⟩

/-- An edge closes a cycle in an acyclic graph exactly when its head reaches
its tail. -/
theorem insertEdge_acyclic_iff [DecidableEq α] {adj : α → List α} (ha : Acyclic adj) (a b : α) :
    Acyclic (insertEdge adj a b) ↔ ¬ ReflTransGen (Edge adj) b a := by
  have hsub : ∀ x y, Edge adj x y → Edge (insertEdge adj a b) x y :=
    fun x y h => (insertEdge_edge adj a b x y).mpr (.inl h)
  constructor
  · intro h hba
    have hab : Edge (insertEdge adj a b) a b := (insertEdge_edge adj a b a b).mpr (.inr ⟨rfl,rfl⟩)
    exact h a (TransGen.head' hab (ReflTransGen.mono hsub _ _ hba))
  · intro h x hx
    rcases insertEdge_path hx with hx | ⟨hxa,hbx⟩
    · exact ha x hx
    · exact h (hbx.trans hxa)

section Search
variable [DecidableEq α] (adj : α → List α) (target : α)

abbrev Found (α : Type*) := Bool × List α × List α

def searchList (rec : α → List α → List α → Found α) :
    List α → List α → List α → Found α
  | [], path, seen => (false,path,seen)
  | next::rest, path, seen =>
    if next ∈ seen then searchList rec rest path seen
    else
      match rec next (path++[next]) (seen++[next]) with
      | (true,p,s) => (true,p,s)
      | (false,_,s) => searchList rec rest path s

/-- Depth first from one vertex: whether the target was found, the path to
it, and the vertices seen. The fuel bounds the depth. -/
def search : ℕ → α → List α → List α → Found α
  | 0, _, path, seen => (false,path,seen)
  | fuel+1, v, path, seen =>
    if v = target then (true,path,seen) else searchList (search fuel) (adj v) path seen

/-- What a failed search has established: it keeps what was seen before, and
the vertices it adds miss the target and have all their successors seen. -/
def Explored (seen seen' : List α) : Prop :=
  (∀ x ∈ seen, x ∈ seen') ∧ ∀ x ∈ seen', x ∉ seen → x ≠ target ∧ ∀ y ∈ adj x, y ∈ seen'

def Outcome (v : α) (seen : List α) (r : Found α) : Prop :=
  (r.1 = true → ReflTransGen (Edge adj) v target) ∧
  (r.1 = false → v ≠ target ∧ Explored adj target seen r.2.2 ∧ ∀ y ∈ adj v, y ∈ r.2.2)

def ListOutcome (vs seen : List α) (r : Found α) : Prop :=
  (r.1 = true → ∃ v ∈ vs, ReflTransGen (Edge adj) v target) ∧
  (r.1 = false → Explored adj target seen r.2.2 ∧ ∀ v ∈ vs, v ∈ r.2.2)

variable {adj target}

theorem Explored.trans {s t u : List α} (h : Explored adj target s t)
    (k : Explored adj target t u) : Explored adj target s u := by
  refine ⟨fun x hx => k.1 x (h.1 x hx),fun x hx hs => ?_⟩
  by_cases ht : x ∈ t
  · exact ⟨(h.2 x ht hs).1,fun y hy => k.1 y ((h.2 x ht hs).2 y hy)⟩
  · exact k.2 x hx ht

def unseen (U : Finset α) (seen : List α) : ℕ := (U \ seen.toFinset).card

theorem unseen_mono (U : Finset α) {s t : List α} (h : ∀ x ∈ s, x ∈ t) : unseen U t ≤ unseen U s := by
  apply Finset.card_le_card
  intro x hx
  simp only [Finset.mem_sdiff, List.mem_toFinset] at hx ⊢
  exact ⟨hx.1,fun hs => hx.2 (h x hs)⟩

theorem unseen_push (U : Finset α) {s : List α} {v : α} (hv : v ∈ U) (hs : v ∉ s) :
    unseen U (s++[v]) < unseen U s := by
  apply Finset.card_lt_card
  rw [Finset.ssubset_iff_of_subset]
  · exact ⟨v,by simp [hv,hs],by simp⟩
  · intro x hx
    simp only [Finset.mem_sdiff, List.mem_toFinset, List.mem_append] at hx ⊢
    exact ⟨hx.1,fun h => hx.2 (.inl h)⟩

theorem searchList_outcome (U : Finset α) (fuel : ℕ)
    (rec : α → List α → List α → Found α)
    (hrec : ∀ v path seen, v ∈ seen → unseen U seen < fuel →
      Outcome adj target v seen (rec v path seen))
    (vs : List α) (hvs : ∀ v ∈ vs, v ∈ U) (path seen : List α) (hf : unseen U seen ≤ fuel) :
    ListOutcome adj target vs seen (searchList rec vs path seen) := by
  induction vs generalizing seen with
  | nil =>
    refine ⟨fun h => by simp [searchList] at h,fun _ => ⟨⟨fun _ hx => hx,?_⟩,by simp⟩⟩
    intro x hx hs
    exact absurd hx hs
  | cons next rest ih =>
    have hrest : ∀ v ∈ rest, v ∈ U := fun v hv => hvs v (by simp [hv])
    by_cases hseen : next ∈ seen
    · obtain ⟨ht,hn⟩ := ih hrest seen hf
      rw [searchList, if_pos hseen]
      refine ⟨fun h => ?_,fun h => ⟨(hn h).1,fun v hv => ?_⟩⟩
      · obtain ⟨v,hv,hr⟩ := ht h
        exact ⟨v,by simp [hv],hr⟩
      · rcases List.mem_cons.mp hv with rfl | hv
        · exact (hn h).1.1 _ hseen
        · exact (hn h).2 v hv
    · have hpush := unseen_push U (hvs next (by simp)) hseen
      have h1 := hrec next (path++[next]) (seen++[next]) (by simp) (by omega)
      rw [searchList, if_neg hseen]
      rcases hr : rec next (path++[next]) (seen++[next]) with ⟨found,p,s⟩
      rw [hr] at h1
      cases found with
      | true => exact ⟨fun _ => ⟨next,by simp,h1.1 rfl⟩,fun h => by simp at h⟩
      | false =>
        obtain ⟨hne,hex,hadj⟩ := h1.2 rfl
        have hseen1 : Explored adj target seen s := by
          refine ⟨fun x hx => hex.1 x (by simp [hx]),fun x hx hs => ?_⟩
          by_cases hxn : x = next
          · subst hxn
            exact ⟨hne,hadj⟩
          · exact hex.2 x hx (by simp [hs,hxn])
        obtain ⟨ht,hn⟩ := ih hrest s ((unseen_mono U hseen1.1).trans hf)
        refine ⟨fun h => ?_,fun h => ⟨hseen1.trans (hn h).1,fun v hv => ?_⟩⟩
        · obtain ⟨v,hv,hr⟩ := ht h
          exact ⟨v,by simp [hv],hr⟩
        · rcases List.mem_cons.mp hv with rfl | hv
          · exact (hn h).1.1 _ (hex.1 _ (by simp))
          · exact (hn h).2 v hv

theorem search_outcome (U : Finset α) (hU : ∀ a b, Edge adj a b → b ∈ U) (fuel : ℕ) (v : α)
    (path seen : List α) (hv : v ∈ seen) (hf : unseen U seen < fuel) :
    Outcome adj target v seen (search adj target fuel v path seen) := by
  induction fuel generalizing v path seen with
  | zero => omega
  | succ fuel ih =>
    by_cases hvt : v = target
    · subst hvt
      simp only [search, if_true]
      exact ⟨fun _ => .refl,fun h => by simp at h⟩
    · obtain ⟨ht,hn⟩ := searchList_outcome U fuel _ ih
        (adj v) (fun y hy => hU v y hy) path seen (by omega)
      simp only [search, if_neg hvt]
      refine ⟨fun h => ?_,fun h => ⟨hvt,(hn h).1,(hn h).2⟩⟩
      obtain ⟨y,hy,hr⟩ := ht h
      exact .head hy hr

/-- With one unit of fuel for every vertex an edge may lead to, the search
decides reachability. -/
theorem search_iff (U : Finset α) (hU : ∀ a b, Edge adj a b → b ∈ U) (fuel : ℕ)
    (hf : U.card < fuel) (v : α) (path : List α) :
    (search adj target fuel v path [v]).1 = true ↔ ReflTransGen (Edge adj) v target := by
  have hu : unseen U [v] < fuel := lt_of_le_of_lt (Finset.card_le_card Finset.sdiff_subset) hf
  have ho : Outcome adj target v [v] (search adj target fuel v path [v]) :=
    search_outcome U hU fuel v path [v] (by simp) hu
  obtain ⟨ht,hn⟩ := ho
  refine ⟨ht,fun h => ?_⟩
  by_contra hc
  obtain ⟨hne,hex,hadj⟩ := hn (by simpa using hc)
  have hclosed : ∀ x, ReflTransGen (Edge adj) v x →
      x ∈ (search adj target fuel v path [v]).2.2 ∧ x ≠ target := by
    intro x hx
    induction hx with
    | refl => exact ⟨hex.1 v (by simp),hne⟩
    | @tail b c _ hbc ih =>
      have hc' : c ∈ (search adj target fuel v path [v]).2.2 := by
        by_cases hb : b = v
        · subst hb
          exact hadj c hbc
        · exact (hex.2 b ih.1 (by simpa using hb)).2 c hbc
      by_cases hcv : c = v
      · exact ⟨hc',hcv ▸ hne⟩
      · exact ⟨hc',(hex.2 c hc' (by simpa using hcv)).1⟩
  exact (hclosed target h).2 rfl

end Search

end BuildFiji.Digraph
