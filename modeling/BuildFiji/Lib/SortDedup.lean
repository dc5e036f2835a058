import Mathlib.Data.List.Sort

/-!
# Sorted without repeats

A list sorted, and then each run of equal elements cut down to one.
-/

set_option autoImplicit false
set_option linter.all false

namespace BuildFiji.SortDedup

variable {α : Type*}

/-- Of equal neighbours the last. -/
def dedup [DecidableEq α] : List α → List α
  | [] => []
  | [x] => [x]
  | x::y::rest => if x = y then dedup (y::rest) else x::dedup (y::rest)

theorem mem_dedup [DecidableEq α] {x : α} (l : List α) : x ∈ dedup l ↔ x ∈ l := by
  induction l using dedup.induct with
  | case1 => rfl
  | case2 y => rfl
  | case3 y rest ih => simpa [dedup] using ih
  | case4 y z rest hne ih => simp only [dedup, if_neg hne, List.mem_cons, ih]

def sortDedup [LinearOrder α] (l : List α) : List α := dedup (l.insertionSort (· ≤ ·))

theorem mem_sortDedup [LinearOrder α] {x : α} {l : List α} : x ∈ sortDedup l ↔ x ∈ l := by
  rw [sortDedup, mem_dedup, List.mem_insertionSort]

theorem dedup_pairwise [LinearOrder α] (l : List α) (h : l.Pairwise (· ≤ ·)) : (dedup l).Pairwise (· < ·) := by
  induction l using dedup.induct with
  | case1 => exact .nil
  | case2 x => exact List.pairwise_singleton _ x
  | case3 x rest ih =>
    rw [dedup, if_pos rfl]
    exact ih h.of_cons
  | case4 x y rest hne ih =>
    rw [dedup, if_neg hne]
    refine List.pairwise_cons.mpr ⟨fun z hz => ?_,ih h.of_cons⟩
    rw [mem_dedup] at hz
    have hxy : x < y := lt_of_le_of_ne ((List.pairwise_cons.mp h).1 y List.mem_cons_self) hne
    rcases List.mem_cons.mp hz with rfl|hz
    · exact hxy
    · exact hxy.trans_le ((List.pairwise_cons.mp h.of_cons).1 z hz)

theorem sortDedup_nodup [LinearOrder α] (l : List α) : (sortDedup l).Nodup :=
  (dedup_pairwise _ (List.pairwise_insertionSort _ l)).imp ne_of_lt

end BuildFiji.SortDedup
