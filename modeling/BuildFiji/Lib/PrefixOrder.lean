import Mathlib

/-!
# Words with a common beginning

In the order of words, those that begin with a word stand together, and the word itself is the
first of them: a search among the words after it is over at the first that begins otherwise.
-/

set_option autoImplicit false
set_option linter.all false

namespace BuildFiji.PrefixOrder

variable {α : Type*} [LinearOrder α] {w x y : List α}

theorem lt_append_cons (w : List α) (a : α) (rest : List α) : w < w ++ a::rest := by
  induction w with
  | nil => exact List.nil_lt_cons a rest
  | cons b w ih => exact List.cons_lt_cons_iff.mpr (.inr ⟨rfl,ih⟩)

/-- What is between a word and one that begins with it begins with it too. -/
theorem prefix_of_between (hwx : w < x) (hxy : x < y) (hy : w <+: y) : w <+: x := by
  induction w generalizing x y with
  | nil => exact List.nil_prefix
  | cons a w ih =>
    obtain ⟨rest,rfl⟩ := hy
    cases x with
    | nil => exact absurd hwx (List.not_lt_nil _)
    | cons b x =>
      rw [List.cons_append] at hxy
      rcases List.cons_lt_cons_iff.mp hwx with hab | ⟨rfl,hrest⟩
      · rcases List.cons_lt_cons_iff.mp hxy with hba | ⟨rfl,-⟩
        · exact absurd hab hba.asymm
        · exact absurd hab (lt_irrefl _)
      · rcases List.cons_lt_cons_iff.mp hxy with hlt | ⟨-,hlater⟩
        · exact absurd hlt (lt_irrefl _)
        · exact List.cons_prefix_cons.mpr ⟨rfl,ih hrest hlater (List.prefix_append w rest)⟩

/-- After a word that begins otherwise, none begins with it. -/
theorem not_prefix_of_lt (hwx : w < x) (hxy : x < y) (hx : ¬ w <+: x) : ¬ w <+: y :=
  fun hy => hx (prefix_of_between hwx hxy hy)

end BuildFiji.PrefixOrder
