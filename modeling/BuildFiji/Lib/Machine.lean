import Mathlib.Logic.Relation

/-!
# Deterministic step machines

A machine is a partial step function on labelled actions. An action that is
not enabled gives no successor. Interleavings of concurrent parties are the
lists of labels, so a statement about every list is one about every schedule.
-/

set_option autoImplicit false
set_option linter.all false

namespace BuildFiji.Machine

variable {σ α : Type*} (step : σ → α → Option σ)

def run : σ → List α → Option σ
  | s, [] => some s
  | s, a::as => (step s a).bind fun t => run t as

/-- Every step of the schedule meets the guard in the state it starts from. -/
def Guarded (ok : σ → α → Prop) : σ → List α → Prop
  | _, [] => True
  | s, a::as => ok s a ∧ ∀ t, step s a = some t → Guarded ok t as

instance Guarded.decidable (ok : σ → α → Prop) [∀ s a, Decidable (ok s a)] :
    ∀ (s : σ) (as : List α), Decidable (Guarded step ok s as)
  | _, [] => isTrue trivial
  | s, a::as =>
    match h : step s a with
    | none => decidable_of_iff (ok s a) ⟨fun hs => ⟨hs,fun t ht => by simp [h] at ht⟩,And.left⟩
    | some t =>
      have := decidable ok t as
      decidable_of_iff (ok s a ∧ Guarded step ok t as)
        ⟨fun hs => ⟨hs.1,fun u hu => Option.some.inj (h.symm.trans hu) ▸ hs.2⟩,
          fun hs => ⟨hs.1,hs.2 t h⟩⟩

@[simp] theorem run_nil (s : σ) : run step s [] = some s := rfl

theorem run_cons {s u : σ} {a : α} {as : List α} (h : run step s (a::as) = some u) :
    ∃ t, step s a = some t ∧ run step t as = some u := by
  simpa [run, Option.bind_eq_some_iff] using h

theorem run_append (s : σ) (as bs : List α) :
    run step s (as++bs) = (run step s as).bind fun t => run step t bs := by
  induction as generalizing s with
  | nil => rfl
  | cons a as ih =>
    simp only [List.cons_append, run, Option.bind_assoc]
    congr 1
    funext t
    exact ih t

theorem guarded_append {ok : σ → α → Prop} {s t : σ} {as bs : List α}
    (h : run step s as = some t) :
    Guarded step ok s (as++bs) ↔ Guarded step ok s as ∧ Guarded step ok t bs := by
  induction as generalizing s with
  | nil =>
    cases h
    simp [Guarded]
  | cons a as ih =>
    obtain ⟨u,hu,ht⟩ := run_cons step h
    simp only [List.cons_append, Guarded, hu, Option.some.injEq, forall_eq', ih ht, and_assoc]

/-- An invariant of every step is an invariant of every schedule. -/
theorem run_invariant {I : σ → Prop} (hI : ∀ s a t, I s → step s a = some t → I t)
    {s u : σ} {as : List α} (hs : I s) (h : run step s as = some u) : I u := by
  induction as generalizing s with
  | nil => exact Option.some.inj h ▸ hs
  | cons a as ih =>
    obtain ⟨t,ht,hu⟩ := run_cons step h
    exact ih (hI s a t hs ht) hu

/-- The same where the step lemma needs the guard. -/
theorem guarded_invariant {I : σ → Prop} {ok : σ → α → Prop}
    (hI : ∀ s a t, I s → ok s a → step s a = some t → I t)
    {s u : σ} {as : List α} (hs : I s) (hg : Guarded step ok s as)
    (h : run step s as = some u) : I u := by
  induction as generalizing s with
  | nil => exact Option.some.inj h ▸ hs
  | cons a as ih =>
    obtain ⟨t,ht,hu⟩ := run_cons step h
    exact ih (hI s a t hs hg.1 ht) (hg.2 t ht) hu

/-- What the guard and the invariant give of each step. -/
theorem guarded_imp {I : σ → Prop} {ok ok' : σ → α → Prop}
    (hI : ∀ s a t, I s → ok s a → step s a = some t → I t)
    (hok : ∀ s a, I s → ok s a → ok' s a) {s : σ} {as : List α} (hs : I s)
    (hg : Guarded step ok s as) : Guarded step ok' s as := by
  induction as generalizing s with
  | nil => trivial
  | cons a as ih => exact ⟨hok s a hs hg.1,fun t ht => ih (hI s a t hs hg.1 ht) (hg.2 t ht)⟩

end BuildFiji.Machine
