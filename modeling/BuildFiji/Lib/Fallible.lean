import Mathlib.Data.List.Forall2

/-!
# Computations that may fail

What a computation in `Except` that has succeeded went through.
-/

set_option autoImplicit false
set_option linter.all false

namespace BuildFiji.Fallible

universe u v

variable {ε : Type u} {α β : Type v}

theorem bind_ok {x : Except ε α} {f : α → Except ε β} {b : β} :
    (x >>= f) = .ok b ↔ ∃ a, x = .ok a ∧ f a = .ok b := by
  cases x with
  | error e => simp [bind, Except.bind]
  | ok a => simp [bind, Except.bind]

theorem bind_error {x : Except ε α} {f : α → Except ε β} {e : ε} :
    (x >>= f) = .error e ↔ x = .error e ∨ ∃ a, x = .ok a ∧ f a = .error e := by
  cases x with
  | error e => simp [bind, Except.bind]
  | ok a => simp [bind, Except.bind]

theorem pure_ne_error {a : α} {e : ε} : (pure a : Except ε α) ≠ .error e := by
  simp [pure, Except.pure]

theorem pure_ok {a b : α} : (pure a : Except ε α) = .ok b ↔ a = b := by
  simp [pure, Except.pure]

theorem ite_error_ok {p : Prop} [Decidable p] {e : ε} {x : Except ε α} {a : α} :
    (if p then .error e else x) = .ok a ↔ ¬p ∧ x = .ok a := by
  by_cases hp : p <;> simp [hp]

theorem ite_ok_ok {p : Prop} [Decidable p] {x : Except ε α} {a : α} :
    (if p then .ok a else x) = .ok a ↔ p ∨ x = .ok a := by
  by_cases hp : p <;> simp [hp]

theorem mapError_ok {ε' : Type u} {f : ε → ε'} {x : Except ε α} {a : α} :
    x.mapError f = .ok a ↔ x = .ok a := by
  cases x <;> simp [Except.mapError]

theorem toOption_eq_some {x : Except ε α} {a : α} : x.toOption = some a ↔ x = .ok a := by
  cases x <;> simp [Except.toOption]

theorem toOption_eq_none {x : Except ε α} : x.toOption = none ↔ ∀ a, x ≠ .ok a := by
  cases x <;> simp [Except.toOption]

theorem toOption_map (f : α → β) (x : Except ε α) : (x.map f).toOption = x.toOption.map f := by
  cases x <;> rfl

/-- A computation that may also not end: what it came to. -/
theorem any_ok {x : Option (Except ε α)} {p : α → Bool}
    (h : ((x.bind Except.toOption).any p) = true) : ∃ a, x = some (.ok a) ∧ p a = true := by
  match x, h with
  | some (.ok a), h => exact ⟨a,rfl,h⟩

theorem mapM_ok {f : α → Except ε β} {xs : List α} {ys : List β} :
    xs.mapM f = .ok ys ↔ List.Forall₂ (fun x y => f x = .ok y) xs ys := by
  induction xs generalizing ys with
  | nil =>
    rw [List.mapM_nil, pure_ok, List.forall₂_nil_left_iff, eq_comm]
  | cons x xs ih =>
    rw [List.mapM_cons, bind_ok]
    simp only [bind_ok, pure_ok, ih]
    constructor
    · rintro ⟨y,hy,zs,hzs,rfl⟩
      exact .cons hy hzs
    · intro h
      cases h with
      | cons hy hzs => exact ⟨_,hy,_,hzs,rfl⟩

theorem mapM_mem {f : α → Except ε β} {xs : List α} {ys : List β} (h : xs.mapM f = .ok ys) {y : β}
    (hy : y ∈ ys) : ∃ x ∈ xs, f x = .ok y := by
  have hall := mapM_ok.mp h
  clear h
  induction hall with
  | nil => exact absurd hy List.not_mem_nil
  | cons hx _ ih =>
    rcases List.mem_cons.mp hy with rfl | hy
    · exact ⟨_,List.mem_cons_self,hx⟩
    · obtain ⟨x,hmem,hx⟩ := ih hy
      exact ⟨x,List.mem_cons_of_mem _ hmem,hx⟩

/-- A loop whose steps succeed or fail by themselves, whatever came before. -/
theorem foldlM_ok {f : β → α → Except ε β} {p : α → Prop}
    (h : ∀ b a, (∃ b', f b a = .ok b') ↔ p a) (xs : List α) (b : β) :
    (∃ b', xs.foldlM f b = .ok b') ↔ ∀ a ∈ xs, p a := by
  induction xs generalizing b with
  | nil => simp [pure, Except.pure]
  | cons a xs ih =>
    simp only [List.foldlM_cons, bind_ok, List.forall_mem_cons]
    constructor
    · rintro ⟨c,b',ha,hxs⟩
      exact ⟨(h b a).mp ⟨b',ha⟩,(ih b').mp ⟨c,hxs⟩⟩
    · rintro ⟨ha,hxs⟩
      obtain ⟨b',ha⟩ := (h b a).mpr ha
      obtain ⟨c,hxs⟩ := (ih b').mpr hxs
      exact ⟨c,b',ha,hxs⟩

end BuildFiji.Fallible

/-!
## Computations under a guard

A computation that may also be stopped by a guard, and comes to what another comes to unless it is.
-/

namespace BuildFiji.Guarded
open Fallible

universe u v

variable {ε : Type u} {α β : Type v}

def Guards (x : Except (Option ε) α) (y : Except ε α) : Prop := x = .error none ∨ x = y.mapError some

theorem Guards.ok (a : α) : Guards (ε := ε) (.ok a) (.ok a) := .inr rfl

theorem Guards.error (e : ε) : Guards (α := α) (.error (some e)) (.error e) := .inr rfl

theorem Guards.stopped (y : Except ε α) : Guards (.error none) y := .inl rfl

theorem Guards.bind {x : Except (Option ε) α} {y : Except ε α} {f : α → Except (Option ε) β}
    {g : α → Except ε β} (h : Guards x y) (hfg : ∀ a, Guards (f a) (g a)) : Guards (x >>= f) (y >>= g) := by
  rcases h with rfl | rfl
  · exact .inl rfl
  · cases y with
    | error e => exact .error e
    | ok a => exact hfg a

theorem Guards.map {x : Except (Option ε) α} {y : Except ε α} (h : Guards x y) (f : α → β) :
    Guards (x.map f) (y.map f) := by
  rcases h with rfl | rfl
  · exact .inl rfl
  · cases y <;> exact .inr rfl

theorem Guards.mapM {f : α → Except (Option ε) β} {g : α → Except ε β} (h : ∀ a, Guards (f a) (g a))
    (as : List α) : Guards (as.mapM f) (as.mapM g) := by
  induction as with
  | nil => exact .ok []
  | cons a as ih =>
    rw [List.mapM_cons, List.mapM_cons]
    exact (h a).bind fun b => ih.bind fun bs => .ok (b::bs)

/-- Where the guard does not stop it, two computations that it guards are one. -/
theorem Guards.eq {x : Except (Option ε) α} {y z : Except ε α} (hy : Guards x y) (hz : Guards x z)
    (h : x ≠ .error none) : y = z := by
  have hyz : y.mapError some = z.mapError some := (hy.resolve_left h).symm.trans (hz.resolve_left h)
  cases y <;> cases z <;> simp_all [Except.mapError]

end BuildFiji.Guarded
