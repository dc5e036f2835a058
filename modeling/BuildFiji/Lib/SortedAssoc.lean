import Mathlib.Data.List.Pairwise
import Mathlib.Data.String.Basic
import Mathlib.Order.Basic

/-!
# Sorted association lists

A map as the list of its entries in the order of their keys: what it holds
determines it, so insertions at different keys commute. The list is not bundled
with its order, for maps that hold maps of their own kind.
-/

set_option autoImplicit false
set_option linter.all false

namespace BuildFiji.SortedAssoc

variable {κ β : Type*} [LinearOrder κ]

def find (k : κ) : List (κ × β) → Option β
  | [] => none
  | (k',v)::rest => if k = k' then some v else find k rest

def put (k : κ) (v : β) : List (κ × β) → List (κ × β)
  | [] => [(k,v)]
  | (k',v')::rest =>
    if k < k' then (k,v)::(k',v')::rest
    else if k = k' then (k,v)::rest
    else (k',v')::put k v rest

def Sorted (l : List (κ × β)) : Prop := l.Pairwise fun a b => a.1 < b.1

attribute [local simp] find put in
theorem find_put_self (k : κ) (v : β) (l : List (κ × β)) : find k (put k v l) = some v := by
  induction l with
  | nil => simp
  | cons e rest ih =>
    rw [put]
    split
    · simp
    · next hlt =>
      split
      · simp
      · next hne => rw [find, if_neg hne, ih]

theorem find_put_ne {k k' : κ} (h : k' ≠ k) (v : β) (l : List (κ × β)) :
    find k' (put k v l) = find k' l := by
  induction l with
  | nil => simp [put, find, h]
  | cons e rest ih =>
    rw [put]
    split
    · rw [find, if_neg h]
    · split
      · next he => rw [find, find, if_neg h, if_neg (he ▸ h)]
      · rw [find, find, ih]

theorem mem_put {k : κ} {v : β} {e : κ × β} {l : List (κ × β)} (h : e ∈ put k v l) :
    e = (k,v) ∨ e ∈ l := by
  induction l with
  | nil => exact .inl (List.mem_singleton.mp h)
  | cons f rest ih =>
    rw [put] at h
    split at h
    · exact (List.mem_cons.mp h)
    · split at h
      · exact (List.mem_cons.mp h).imp_right (List.mem_cons_of_mem _)
      · rcases List.mem_cons.mp h with rfl | h
        · exact .inr List.mem_cons_self
        · exact (ih h).imp_right (List.mem_cons_of_mem _)

theorem Sorted.put {l : List (κ × β)} (h : Sorted l) (k : κ) (v : β) : Sorted (put k v l) := by
  induction l with
  | nil => exact List.pairwise_singleton _ _
  | cons e rest ih =>
    obtain ⟨hhead,hrest⟩ := List.pairwise_cons.mp h
    rw [SortedAssoc.put]
    split
    · next hlt =>
      refine List.pairwise_cons.mpr ⟨fun f hf => ?_,h⟩
      rcases List.mem_cons.mp hf with rfl | hf
      · exact hlt
      · exact hlt.trans (hhead f hf)
    · next hlt =>
      split
      · next heq => exact List.pairwise_cons.mpr ⟨fun f hf => heq ▸ hhead f hf,hrest⟩
      · next hne =>
        refine List.pairwise_cons.mpr ⟨fun f hf => ?_,ih hrest⟩
        rcases mem_put hf with rfl | hf
        · exact lt_of_le_of_ne (not_lt.mp hlt) (Ne.symm hne)
        · exact hhead f hf

theorem Sorted.find_eq {l : List (κ × β)} (h : Sorted l) {k : κ} {v : β} :
    find k l = some v ↔ (k,v) ∈ l := by
  induction l with
  | nil => simp [find]
  | cons e rest ih =>
    obtain ⟨hhead,hrest⟩ := List.pairwise_cons.mp h
    obtain ⟨k',v'⟩ := e
    rw [find, List.mem_cons, Prod.mk.injEq]
    split
    · next heq =>
      subst heq
      constructor
      · intro hv
        exact .inl ⟨rfl,(Option.some.inj hv).symm⟩
      · rintro (⟨-,rfl⟩ | hmem)
        · rfl
        · exact absurd (hhead _ hmem) (lt_irrefl k)
    · next hne =>
      rw [ih hrest]
      exact ⟨.inr,fun hor => hor.resolve_left fun hand => hne hand.1⟩

/-- Sorted lists that hold the same are the same. -/
theorem Sorted.ext {l m : List (κ × β)} (hl : Sorted l) (hm : Sorted m)
    (h : ∀ k, find k l = find k m) : l = m := by
  have hperm : l.Perm m := by
    have hnl : l.Nodup := hl.imp fun hlt heq => absurd (heq ▸ hlt) (lt_irrefl _)
    have hnm : m.Nodup := hm.imp fun hlt heq => absurd (heq ▸ hlt) (lt_irrefl _)
    refine (List.perm_ext_iff_of_nodup hnl hnm).mpr fun e => ?_
    rw [← hl.find_eq (k := e.1) (v := e.2), ← hm.find_eq, h]
  exact hperm.eq_of_pairwise (fun a b _ _ hab hba => absurd hba hab.asymm) hl hm

theorem put_comm {l : List (κ × β)} (h : Sorted l) {k k' : κ} (hne : k ≠ k') (v v' : β) :
    put k v (put k' v' l) = put k' v' (put k v l) := by
  refine ((h.put k' v').put k v).ext ((h.put k v).put k' v') fun j => ?_
  by_cases hj : j = k
  · subst hj
    rw [find_put_self, find_put_ne hne, find_put_self]
  · by_cases hj' : j = k'
    · subst hj'
      rw [find_put_ne hj, find_put_self, find_put_self]
    · rw [find_put_ne hj, find_put_ne hj', find_put_ne hj', find_put_ne hj]

theorem put_put {l : List (κ × β)} (h : Sorted l) (k : κ) (v w : β) :
    put k v (put k w l) = put k v l := by
  refine ((h.put k w).put k v).ext (h.put k v) fun j => ?_
  by_cases hj : j = k
  · subst hj
    rw [find_put_self, find_put_self]
  · rw [find_put_ne hj, find_put_ne hj, find_put_ne hj]

section Collect

/-- The entries one after the other, of which the last of a key stays. -/
def collect (entries : List (κ × β)) : List (κ × β) := entries.foldl (fun m e => put e.1 e.2 m) []

def lastUnder (k : κ) : List (κ × β) → Option β
  | [] => none
  | e::rest => (lastUnder k rest).or (if e.1 = k then some e.2 else none)

theorem find_foldl_put (k : κ) (entries m : List (κ × β)) :
    find k (entries.foldl (fun m e => put e.1 e.2 m) m) = (lastUnder k entries).or (find k m) := by
  induction entries generalizing m with
  | nil => rfl
  | cons e rest ih =>
    rw [List.foldl_cons, ih, lastUnder, Option.or_assoc]
    congr 1
    by_cases h : e.1 = k
    · rw [if_pos h, ← h, find_put_self]
      rfl
    · rw [if_neg h, find_put_ne (Ne.symm h)]
      rfl

theorem find_collect (k : κ) (entries : List (κ × β)) : find k (collect entries) = lastUnder k entries := by
  rw [collect, find_foldl_put]
  exact Option.or_none

theorem collect_sorted (entries : List (κ × β)) : Sorted (collect entries) := by
  rw [collect]
  generalize hm : ([] : List (κ × β)) = m
  have h : Sorted m := by
    rw [← hm]
    exact .nil
  clear hm
  induction entries generalizing m with
  | nil => exact h
  | cons e rest ih => exact ih _ (h.put e.1 e.2)

theorem mem_collect {e : κ × β} {entries : List (κ × β)} :
    e ∈ collect entries ↔ lastUnder e.1 entries = some e.2 := by
  rw [← find_collect]
  exact (collect_sorted entries).find_eq.symm

theorem lastUnder_map {γ : Type*} (f : β → γ) (k : κ) (entries : List (κ × β)) :
    lastUnder k (entries.map fun e => (e.1,f e.2)) = (lastUnder k entries).map f := by
  induction entries with
  | nil => rfl
  | cons e rest ih =>
    rw [List.map_cons, lastUnder, lastUnder, ih, Option.map_or]
    congr 1
    split <;> rfl

theorem mem_of_lastUnder {k : κ} {v : β} {entries : List (κ × β)} (h : lastUnder k entries = some v) :
    (k,v) ∈ entries := by
  induction entries with
  | nil => cases h
  | cons e rest ih =>
    rw [lastUnder] at h
    rcases Option.or_eq_some_iff.mp h with h | ⟨-,h⟩
    · exact List.mem_cons_of_mem _ (ih h)
    · obtain ⟨hk,hv⟩ := Option.ite_none_right_eq_some.mp h
      cases hk
      cases hv
      exact List.mem_cons_self

theorem lastUnder_none {k : κ} {entries : List (κ × β)} :
    lastUnder k entries = none ↔ ∀ e ∈ entries, e.1 ≠ k := by
  induction entries with
  | nil => simp [lastUnder]
  | cons e rest ih =>
    rw [lastUnder, Option.or_eq_none_iff, ih, List.forall_mem_cons, and_comm]
    simp

/-- Entries under new names, of which the one with the greatest key stays. -/
theorem Sorted.lastUnder_renamed {μ : Type*} [LinearOrder μ] {l : List (κ × β)} (h : Sorted l)
    (name : β → μ) {n : μ} {v : β} :
    lastUnder n (l.map fun e => (name e.2,e.2)) = some v ↔
      ∃ k, (k,v) ∈ l ∧ name v = n ∧ ∀ e ∈ l, k < e.1 → name e.2 ≠ n := by
  induction l generalizing v with
  | nil => simp [lastUnder]
  | cons e rest ih =>
    obtain ⟨hhead,hrest⟩ := List.pairwise_cons.mp h
    rw [List.map_cons, lastUnder]
    cases hr : lastUnder n (rest.map fun e => (name e.2,e.2)) with
    | some w =>
      rw [Option.some_or, ← hr, ih hrest]
      constructor
      · rintro ⟨k,hk,hn,hafter⟩
        refine ⟨k,List.mem_cons_of_mem _ hk,hn,?_⟩
        intro f hf hlt
        rcases List.mem_cons.mp hf with rfl | hf
        · exact absurd hlt (hhead _ hk).asymm
        · exact hafter f hf hlt
      · rintro ⟨k,hk,hn,hafter⟩
        refine ⟨k,?_,hn,fun f hf => hafter f (List.mem_cons_of_mem _ hf)⟩
        rcases List.mem_cons.mp hk with rfl | hk
        · obtain ⟨j,hj,hw,-⟩ := (ih hrest).mp hr
          exact absurd hw (hafter _ (List.mem_cons_of_mem _ hj) (hhead _ hj))
        · exact hk
    | none =>
      have hnone : ∀ f ∈ rest, name f.2 ≠ n := by
        intro f hf
        exact lastUnder_none.mp hr (name f.2,f.2) (List.mem_map_of_mem hf)
      rw [Option.none_or, Option.ite_none_right_eq_some, Option.some.injEq]
      constructor
      · rintro ⟨hn,rfl⟩
        refine ⟨e.1,List.mem_cons_self,hn,?_⟩
        intro f hf hlt
        rcases List.mem_cons.mp hf with rfl | hf
        · exact absurd hlt (lt_irrefl _)
        · exact hnone f hf
      · rintro ⟨k,hk,hn,-⟩
        rcases List.mem_cons.mp hk with rfl | hk
        · exact ⟨hn,rfl⟩
        · exact absurd hn (hnone _ hk)

/-- The value is the last under a key, and no last one under a later key is named so. -/
def StaysUnder {γ μ : Type*} (name : γ → μ) (entries : List (κ × γ)) (v : γ) (n : μ) : Prop :=
  ∃ k, lastUnder k entries = some v ∧ ∀ k' w, k < k' → lastUnder k' entries = some w → name w ≠ n

/-- Collected by their keys, and then by the names of their values. -/
theorem find_renamed {γ μ : Type*} [LinearOrder μ] {f : γ → β} (hf : Function.Injective f)
    (name : β → μ) (entries : List (κ × γ)) {n : μ} {v : γ} :
    find n (collect ((collect (entries.map fun e => (e.1,f e.2))).map fun e => (name e.2,e.2))) =
        some (f v) ↔ name (f v) = n ∧ StaysUnder (fun w => name (f w)) entries v n := by
  have hmem : ∀ {k : κ} {a : β}, (k,a) ∈ collect (entries.map fun e => (e.1,f e.2)) ↔
      ∃ w, lastUnder k entries = some w ∧ f w = a := by
    intro k a
    rw [mem_collect, lastUnder_map, Option.map_eq_some_iff]
  rw [find_collect, (collect_sorted _).lastUnder_renamed name]
  constructor
  · rintro ⟨k,hk,hn,hlater⟩
    obtain ⟨w,hw,hwv⟩ := hmem.mp hk
    cases hf hwv
    exact ⟨hn,k,hw,fun k' w hlt hw => hlater (k',f w) (hmem.mpr ⟨w,hw,rfl⟩) hlt⟩
  · rintro ⟨hn,k,hk,hlater⟩
    refine ⟨k,hmem.mpr ⟨v,hk,rfl⟩,hn,?_⟩
    rintro ⟨k',a⟩ ha hlt
    obtain ⟨w,hw,rfl⟩ := hmem.mp ha
    exact hlater k' w hlt hw

end Collect

end BuildFiji.SortedAssoc
