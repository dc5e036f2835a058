import Mathlib.Data.List.Basic

/-!
# Texts with separators

Where a text splits at a separator that its parts do not hold.
-/

set_option autoImplicit false
set_option linter.all false

namespace BuildFiji.Text

variable {α : Type*}

/-- Around the first place where the separator stands. -/
def splitOnce [BEq α] (sep : List α) : List α → Option (List α × List α)
  | [] => none
  | c::cs =>
    if sep.isPrefixOf (c::cs) then some ([],(c::cs).drop sep.length)
    else (splitOnce sep cs).map fun parts => (c::parts.1,parts.2)

section SplitOnce

variable [BEq α] [LawfulBEq α] {c : α} {a : List α}

/-- Where the first character of the separator does not stand before it. -/
theorem splitOnce_sep {sep : List α} (b : List α) (h : c ∉ a) :
    splitOnce (c::sep) (a ++ (c::sep ++ b)) = some (a,b) := by
  induction a with
  | nil =>
    rw [List.nil_append, List.cons_append, splitOnce]
    simp
  | cons x a ih =>
    have hx : c ≠ x := fun he => h (he ▸ List.mem_cons_self)
    rw [List.cons_append, splitOnce, ih fun hm => h (List.mem_cons_of_mem _ hm)]
    simp [hx]

theorem splitOnce_char (b : List α) (h : c ∉ a) : splitOnce [c] (a ++ c::b) = some (a,b) :=
  splitOnce_sep b h

theorem splitOnce_absent (h : c ∉ a) : splitOnce [c] a = none := by
  induction a with
  | nil => rfl
  | cons x a ih =>
    have hx : c ≠ x := fun he => h (he ▸ List.mem_cons_self)
    rw [splitOnce, ih fun hm => h (List.mem_cons_of_mem _ hm)]
    simp [hx]

theorem splitOnce_some {l b : List α} (h : splitOnce [c] l = some (a,b)) :
    l = a ++ c::b ∧ c ∉ a := by
  induction l generalizing a with
  | nil => cases h
  | cons x l ih =>
    rw [splitOnce] at h
    by_cases hx : x = c
    · subst hx
      simp only [List.isPrefixOf_cons₂_self, List.isPrefixOf_nil_left, if_true, List.length_singleton,
        List.drop_succ_cons, List.drop_zero, Option.some.injEq, Prod.mk.injEq] at h
      obtain ⟨rfl,rfl⟩ := h
      exact ⟨rfl,List.not_mem_nil⟩
    · have hne : ¬[c].isPrefixOf (x::l) = true := by simpa using Ne.symm hx
      rw [if_neg hne] at h
      obtain ⟨⟨a',b'⟩,hl,h⟩ := Option.map_eq_some_iff.mp h
      cases h
      obtain ⟨rfl,hm⟩ := ih hl
      refine ⟨rfl,?_⟩
      intro hmem
      rcases List.mem_cons.mp hmem with hc | hmem
      · exact hx hc.symm
      · exact hm hmem

end SplitOnce

theorem append_sep_inj {a : α} {x y z w : List α} (hx : a ∉ x) (hy : a ∉ y)
    (h : x ++ a::z = y ++ a::w) : x = y ∧ z = w := by
  induction x generalizing y with
  | nil =>
    cases y with
    | nil => simpa using h
    | cons b y =>
      simp only [List.nil_append, List.cons_append, List.cons.injEq] at h
      exact absurd (h.1 ▸ List.mem_cons_self) hy
  | cons b x ih =>
    cases y with
    | nil =>
      simp only [List.nil_append, List.cons_append, List.cons.injEq] at h
      exact absurd (h.1 ▸ List.mem_cons_self) hx
    | cons c y =>
      simp only [List.cons_append, List.cons.injEq] at h
      obtain ⟨rfl,h⟩ := h
      obtain ⟨rfl,rfl⟩ := ih (fun hm => hx (List.mem_cons_of_mem _ hm))
        (fun hm => hy (List.mem_cons_of_mem _ hm)) h
      exact ⟨rfl,rfl⟩

/-- The same around the last separator. -/
theorem append_last_inj {a : α} {x y z w : List α} (hz : a ∉ z) (hw : a ∉ w)
    (h : x ++ a::z = y ++ a::w) : x = y ∧ z = w := by
  have hrev := congrArg List.reverse h
  simp only [List.reverse_append, List.reverse_cons, List.append_assoc, List.singleton_append] at hrev
  obtain ⟨hzw,hxy⟩ := append_sep_inj (by simpa using hz) (by simpa using hw) hrev
  exact ⟨List.reverse_inj.mp hxy,List.reverse_inj.mp hzw⟩

theorem intercalate_append (sep : List α) {p q : List (List α)} (hp : p ≠ []) (hq : q ≠ []) :
    sep.intercalate (p ++ q) = sep.intercalate p ++ sep ++ sep.intercalate q := by
  induction p with
  | nil => exact absurd rfl hp
  | cons x p ih =>
    cases p with
    | nil => rw [List.singleton_append, List.intercalate_cons_of_ne_nil hq, List.intercalate_singleton]
    | cons y p =>
      have hne : y::p ≠ [] := by simp
      have hne' : y::p ++ q ≠ [] := by simp
      rw [List.cons_append, List.intercalate_cons_of_ne_nil hne', ih hne,
        List.intercalate_cons_of_ne_nil hne]
      simp only [List.append_assoc]

/-- The characters with Unicode's `White_Space`. -/
def isWhitespace (c : Char) : Bool :=
  let n := c.toNat
  (9 ≤ n && n ≤ 13) || n = 0x20 || n = 0x85 || n = 0xa0 || n = 0x1680 ||
    (0x2000 ≤ n && n ≤ 0x200a) || n = 0x2028 || n = 0x2029 || n = 0x202f || n = 0x205f || n = 0x3000

end BuildFiji.Text
