import Mathlib.Data.List.Basic
import Mathlib.Data.Nat.Notation

/-!
# Prefix codes

A code none of whose words begins another, so that what follows a word can be
told from it. Lists of such words can be taken apart where a mark follows that
begins none of them.
-/

set_option autoImplicit false
set_option linter.all false

namespace BuildFiji.Codes

variable {α β γ : Type*}

def PrefixCode (code : α → List γ) : Prop :=
  ∀ a b s t, code a ++ s = code b ++ t → a = b ∧ s = t

variable {code : α → List γ}

theorem PrefixCode.injective (h : PrefixCode code) : Function.Injective code := fun a b hab =>
  (h a b [] [] (by rw [hab])).1

/-- A word, and what always stands after it. -/
theorem PrefixCode.then (h : PrefixCode code) (mark : List γ) {a b : α} {s t : List γ}
    (heq : code a ++ (mark ++ s) = code b ++ (mark ++ t)) : a = b ∧ s = t := by
  obtain ⟨hab,hst⟩ := h a b _ _ heq
  exact ⟨hab,List.append_cancel_left hst⟩

/-- Before and after each word. -/
theorem PrefixCode.wrap (h : PrefixCode code) (before after : List γ) :
    PrefixCode fun a => before ++ (code a ++ after) := by
  intro a b s t heq
  simp only [List.append_assoc] at heq
  exact h.then after (List.append_cancel_left heq)

/-- A word for nothing, that begins otherwise than all others. -/
def optional (absent : List γ) (code : α → List γ) : Option α → List γ
  | none => absent
  | some a => code a

theorem PrefixCode.optional (h : PrefixCode code) {c : γ} {absent : List γ}
    (hcode : ∀ a, (code a).head? ≠ some c) (hne : ∀ a, code a ≠ []) :
    PrefixCode (Codes.optional (c::absent) code) := by
  have hhead : ∀ a s, (code a ++ s).head? ≠ some c := by
    intro a s heq
    rw [List.head?_append_of_ne_nil _ (hne a)] at heq
    exact hcode a heq
  intro a b s t heq
  cases a with
  | none =>
    cases b with
    | none => exact ⟨rfl,List.append_cancel_left heq⟩
    | some b => exact absurd (by rw [← show _ = code b ++ t from heq]; rfl) (hhead b t)
  | some a =>
    cases b with
    | none => exact absurd (by rw [show code a ++ s = _ from heq]; rfl) (hhead a s)
    | some b =>
      obtain ⟨rfl,hst⟩ := h a b s t heq
      exact ⟨rfl,hst⟩

/-- Words one after another, up to a mark that begins none of them. -/
theorem PrefixCode.marked (h : PrefixCode code) {c : γ} (hcode : ∀ a, (code a).head? ≠ some c)
    (hne : ∀ a, code a ≠ []) {as bs : List α} {s t : List γ}
    (heq : as.flatMap code ++ c::s = bs.flatMap code ++ c::t) : as = bs ∧ s = t := by
  have hhead : ∀ a s, (code a ++ s).head? ≠ some c := by
    intro a s heq
    rw [List.head?_append_of_ne_nil _ (hne a)] at heq
    exact hcode a heq
  induction as generalizing bs with
  | nil =>
    cases bs with
    | nil => exact ⟨rfl,(List.cons.inj heq).2⟩
    | cons b bs =>
      rw [List.flatMap_cons, List.append_assoc] at heq
      exact absurd (by rw [← heq]; rfl) (hhead b _)
  | cons a as ih =>
    cases bs with
    | nil =>
      rw [List.flatMap_cons, List.append_assoc] at heq
      exact absurd (by rw [heq]; rfl) (hhead a _)
    | cons b bs =>
      rw [List.flatMap_cons, List.flatMap_cons, List.append_assoc, List.append_assoc] at heq
      obtain ⟨rfl,hrest⟩ := h a b _ _ heq
      obtain ⟨rfl,hst⟩ := ih hrest
      exact ⟨rfl,hst⟩

/-- Words one after another, where there is no empty one. -/
theorem PrefixCode.words (h : PrefixCode code) (hne : ∀ a, code a ≠ []) {as bs : List α}
    (heq : as.flatMap code = bs.flatMap code) : as = bs := by
  induction as generalizing bs with
  | nil =>
    cases bs with
    | nil => rfl
    | cons b bs =>
      rw [List.flatMap_nil, List.flatMap_cons] at heq
      exact absurd (List.append_eq_nil_iff.mp heq.symm).1 (hne b)
  | cons a as ih =>
    cases bs with
    | nil =>
      rw [List.flatMap_nil, List.flatMap_cons] at heq
      exact absurd (List.append_eq_nil_iff.mp heq).1 (hne a)
    | cons b bs =>
      rw [List.flatMap_cons, List.flatMap_cons] at heq
      obtain ⟨rfl,hrest⟩ := h a b _ _ heq
      rw [ih hrest]

/-- Words of one length. -/
theorem PrefixCode.of_length {n : ℕ} (hinj : Function.Injective code)
    (hlen : ∀ a, (code a).length = n) : PrefixCode code := by
  intro a b s t heq
  obtain ⟨hab,hst⟩ := List.append_inj heq ((hlen a).trans (hlen b).symm)
  exact ⟨hinj hab,hst⟩

/-- Words between brackets, with a separator before each but the first. -/
def bracketed (opening closing : γ) (separator : List γ) (code : α → List γ) : List α → List γ
  | [] => [opening,closing]
  | a::as => opening::(code a ++ (as.flatMap (fun a => separator ++ code a) ++ [closing]))

theorem PrefixCode.bracketed (h : PrefixCode code) {opening closing c : γ} {separator : List γ}
    (hne : ∀ a, code a ≠ []) (hcode : ∀ a, (code a).head? ≠ some closing) (hc : c ≠ closing) :
    PrefixCode (Codes.bracketed opening closing (c::separator) code) := by
  have hfirst : ∀ a s, (code a ++ s).head? ≠ some closing := by
    intro a s heq
    rw [List.head?_append_of_ne_nil _ (hne a)] at heq
    exact hcode a heq
  have hrest : PrefixCode fun a => (c::separator) ++ code a := by
    intro a b s t heq
    simp only [List.append_assoc] at heq
    exact h a b s t (List.append_cancel_left heq)
  intro as bs s t heq
  cases as with
  | nil =>
    cases bs with
    | nil => exact ⟨rfl,List.append_cancel_left heq⟩
    | cons b bs =>
      simp only [Codes.bracketed, List.cons_append, List.cons.injEq, List.append_assoc] at heq
      exact absurd (by rw [← heq.2]; rfl) (hfirst b _)
  | cons a as =>
    cases bs with
    | nil =>
      simp only [Codes.bracketed, List.cons_append, List.cons.injEq, List.append_assoc] at heq
      exact absurd (by rw [heq.2]; rfl) (hfirst a _)
    | cons b bs =>
      simp only [Codes.bracketed, List.cons_append, List.cons.injEq, List.append_assoc,
        List.nil_append] at heq
      obtain ⟨rfl,hwords⟩ := h a b _ _ heq.2
      obtain ⟨rfl,hst⟩ := hrest.marked (fun a hhead => hc (Option.some.inj hhead))
        (fun _ => List.cons_ne_nil _ _) hwords
      exact ⟨rfl,hst⟩

end BuildFiji.Codes
