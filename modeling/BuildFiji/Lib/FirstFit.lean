import Mathlib.Data.List.Forall2
import Mathlib.Tactic.ByCases

/-!
# The first that fits

A list is tried from its front, and the first element with a property is taken. The
elements before it are what the search has passed over.
-/

set_option autoImplicit false
set_option linter.all false

namespace BuildFiji.FirstFit

variable {α β : Type*} {P Q : α → Prop} {l before : List α} {a x : α}

/-- The search passes over some elements and takes the next. -/
structure FirstIn (P : α → Prop) (l before : List α) (x : α) : Prop where
  «at» : ∃ after, l = before ++ x::after
  fits : P x
  passed : ∀ y ∈ before, ¬P y

theorem FirstIn.mem (h : FirstIn P l before x) : x ∈ l := by
  obtain ⟨after,rfl⟩ := h.at
  exact List.mem_append_right _ List.mem_cons_self

theorem FirstIn.sub (h : FirstIn P l before x) : ∀ y ∈ before, y ∈ l := by
  obtain ⟨after,rfl⟩ := h.at
  exact fun y hy => List.mem_append_left _ hy

theorem first_here (h : P a) : FirstIn P (a::l) [] a := ⟨⟨l,rfl⟩,h,nofun⟩

theorem FirstIn.later (h : FirstIn P l before x) (ha : ¬P a) : FirstIn P (a::l) (a::before) x := by
  obtain ⟨after,rfl⟩ := h.at
  exact ⟨⟨after,rfl⟩,h.fits,List.forall_mem_cons.mpr ⟨ha,h.passed⟩⟩

theorem not_first_nil : ¬FirstIn P [] before x := fun h => nomatch h.mem

theorem first_cons : FirstIn P (a::l) before x ↔
    (P a ∧ before = [] ∧ x = a) ∨ (¬P a ∧ ∃ rest, before = a::rest ∧ FirstIn P l rest x) := by
  constructor
  · rintro ⟨⟨after,hat⟩,hfits,hpassed⟩
    cases before with
    | nil =>
      rw [List.nil_append, List.cons.injEq] at hat
      exact .inl ⟨hat.1 ▸ hfits,rfl,hat.1.symm⟩
    | cons b rest =>
      rw [List.cons_append, List.cons.injEq] at hat
      obtain ⟨rfl,hat⟩ := hat
      exact .inr ⟨hpassed a List.mem_cons_self,rest,rfl,⟨after,hat⟩,hfits,
        fun y hy => hpassed y (List.mem_cons_of_mem _ hy)⟩
  · rintro (⟨ha,rfl,rfl⟩ | ⟨ha,rest,rfl,h⟩)
    · exact first_here ha
    · exact h.later ha

theorem FirstIn.unique {before' : List α} {x' : α} (h : FirstIn P l before x) (h' : FirstIn P l before' x') :
    before = before' ∧ x = x' := by
  induction l generalizing before before' with
  | nil => exact absurd h not_first_nil
  | cons a l ih =>
    rcases first_cons.mp h with ⟨ha,rfl,rfl⟩ | ⟨ha,rest,rfl,hrest⟩
    · rcases first_cons.mp h' with ⟨-,rfl,rfl⟩ | ⟨hno,-⟩
      · exact ⟨rfl,rfl⟩
      · exact absurd ha hno
    · rcases first_cons.mp h' with ⟨hyes,-⟩ | ⟨-,rest',rfl,hrest'⟩
      · exact absurd hyes ha
      · obtain ⟨rfl,rfl⟩ := ih hrest hrest'
        exact ⟨rfl,rfl⟩

theorem exists_first (h : a ∈ l) (ha : P a) : ∃ before x, FirstIn P l before x := by
  induction l with
  | nil => exact nomatch h
  | cons b l ih =>
    by_cases hb : P b
    · exact ⟨[],b,first_here hb⟩
    · rcases List.mem_cons.mp h with rfl | h
      · exact absurd ha hb
      · obtain ⟨before,x,hfirst⟩ := ih h
        exact ⟨b::before,x,hfirst.later hb⟩

/-- What is dropped beforehand was never going to fit. -/
theorem FirstIn.filter {q : α → Bool} (h : FirstIn (fun y => q y = true ∧ P y) l before x) :
    FirstIn P (l.filter q) (before.filter q) x := by
  obtain ⟨after,rfl⟩ := h.at
  refine ⟨⟨after.filter q,?_⟩,h.fits.2,?_⟩
  · rw [List.filter_append, List.filter_cons_of_pos h.fits.1]
  · intro y hy hP
    obtain ⟨hmem,hq⟩ := List.mem_filter.mp hy
    exact h.passed y hmem ⟨hq,hP⟩

theorem FirstIn.congr (h : FirstIn P l before x) (hPQ : ∀ y ∈ l, P y ↔ Q y) : FirstIn Q l before x :=
  ⟨h.at,(hPQ x h.mem).mp h.fits,fun y hy hQ => h.passed y hy ((hPQ y (h.sub y hy)).mpr hQ)⟩

section Map

variable {γ : Type*} {f : γ → α} {l before : List γ} {c : γ}

theorem FirstIn.map (h : FirstIn (fun c => P (f c)) l before c) :
    FirstIn P (l.map f) (before.map f) (f c) := by
  obtain ⟨after,rfl⟩ := h.at
  exact ⟨⟨after.map f,by rw [List.map_append, List.map_cons]⟩,h.fits,List.forall_mem_map.mpr h.passed⟩

theorem FirstIn.of_map {before : List α} {x : α} (h : FirstIn P (l.map f) before x) :
    ∃ passed c, FirstIn (fun c => P (f c)) l passed c ∧ f c = x := by
  obtain ⟨c,hc,rfl⟩ := List.mem_map.mp h.mem
  obtain ⟨passed,c',hfirst⟩ := exists_first (P := fun c => P (f c)) hc h.fits
  exact ⟨passed,c',hfirst,(hfirst.map.unique h).2⟩

end Map

section Tried

variable {ε : Type*}

/-- Each element is tried until one gives something or fails. -/
def firstSome (f : α → Except ε (Option β)) : List α → Except ε (Option β)
  | [] => .ok none
  | a::l =>
    match f a with
    | .error e => .error e
    | .ok (some b) => .ok (some b)
    | .ok none => firstSome f l

/-- When no try fails, the loop gives what the first element gives that gives something. -/
theorem firstSome_ok {f : α → Except ε (Option β)} (h : ∀ a ∈ l, ∃ o, f a = .ok o) :
    ∃ o, firstSome f l = .ok o ∧
      ∀ b, o = some b ↔ ∃ before x, FirstIn (fun a => f a ≠ .ok none) l before x ∧ f x = .ok (some b) := by
  induction l with
  | nil => exact ⟨none,rfl,fun b => iff_of_false nofun fun ⟨_,_,hfirst,_⟩ => not_first_nil hfirst⟩
  | cons a l ih =>
    obtain ⟨o,ho⟩ := h a List.mem_cons_self
    obtain ⟨o',ho',hfirst⟩ := ih fun a ha => h a (List.mem_cons_of_mem _ ha)
    rw [firstSome, ho]
    cases o with
    | some b =>
      have hfits : f a ≠ .ok none := by rw [ho]; nofun
      refine ⟨some b,rfl,fun c => ⟨fun hbc => ⟨[],a,first_here hfits,ho.trans (congrArg _ hbc)⟩,?_⟩⟩
      rintro ⟨before,x,hx,hc⟩
      obtain ⟨-,rfl⟩ := hx.unique (first_here hfits)
      exact Except.ok.inj (ho.symm.trans hc)
    | none =>
      refine ⟨o',ho',fun c => (hfirst c).trans ⟨?_,?_⟩⟩
      · rintro ⟨before,x,hx,hc⟩
        exact ⟨_,x,hx.later (not_not.mpr ho),hc⟩
      · rintro ⟨before,x,hx,hc⟩
        rcases first_cons.mp hx with ⟨hno,-⟩ | ⟨-,rest,-,hx⟩
        · exact absurd ho hno
        · exact ⟨rest,x,hx,hc⟩

theorem firstSome_first {f : α → Except ε (Option β)} (h : FirstIn P l before x) {b : β}
    (hx : f x = .ok (some b)) (hno : ∀ y ∈ l, ¬P y → f y = .ok none) : firstSome f l = .ok (some b) := by
  induction l generalizing before with
  | nil => exact absurd h not_first_nil
  | cons a l ih =>
    rcases first_cons.mp h with ⟨-,-,rfl⟩ | ⟨ha,rest,-,hrest⟩
    · rw [firstSome, hx]
    · rw [firstSome, hno a List.mem_cons_self ha]
      exact ih hrest fun y hy => hno y (List.mem_cons_of_mem _ hy)

end Tried

end BuildFiji.FirstFit
