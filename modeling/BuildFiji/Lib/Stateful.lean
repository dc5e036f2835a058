import Mathlib.Data.List.Basic

/-!
# Invariants of programs that may fail

A program over a state keeps an invariant when every run of it does, whether it ends in a
value or in an error.
-/

set_option autoImplicit false
set_option linter.all false

namespace BuildFiji.Stateful

variable {S ε α β : Type}

/-- The invariant holds after the program if it holds before it, and of its value `P` holds. -/
def Keeps (I : S → Prop) (x : ExceptT ε (StateM S) α) (P : α → Prop) : Prop :=
  ∀ s, I s → I (x s).2 ∧ ∀ a, (x s).1 = .ok a → P a

variable {I : S → Prop} {P : α → Prop} {Q : β → Prop}

theorem keeps_pure {a : α} (h : P a) : Keeps I (pure a : ExceptT ε (StateM S) α) P := by
  intro s hs
  refine ⟨hs,fun b hb => ?_⟩
  cases hb
  exact h

theorem keeps_throw (e : ε) : Keeps I (throw e : ExceptT ε (StateM S) α) P := by
  intro s hs
  exact ⟨hs,fun a ha => nomatch ha⟩

theorem bind_run (x : ExceptT ε (StateM S) α) (f : α → ExceptT ε (StateM S) β) (s : S) :
    (x >>= f) s = match (x s : Except ε α × S) with
      | (.ok a,s) => f a s
      | (.error e,s) => (.error e,s) := by
  show ExceptT.bindCont f (x s).1 (x s).2 = _
  generalize x s = r
  obtain ⟨r,s⟩ := r
  cases r <;> rfl

theorem bind_ok {x : ExceptT ε (StateM S) α} {f : α → ExceptT ε (StateM S) β} {s s' : S} {a : α}
    (h : (x s : Except ε α × S) = (.ok a,s')) : (x >>= f) s = f a s' := by
  rw [bind_run, h]

theorem Keeps.bind {x : ExceptT ε (StateM S) α} {f : α → ExceptT ε (StateM S) β} (hx : Keeps I x P)
    (hf : ∀ a, P a → Keeps I (f a) Q) : Keeps I (x >>= f) Q := by
  intro s hs
  obtain ⟨hkept,hvalue⟩ := hx s hs
  rw [bind_run]
  generalize x s = r at hkept hvalue
  obtain ⟨r,s'⟩ := r
  cases r with
  | ok a => exact hf a (hvalue a rfl) s' hkept
  | error e => exact ⟨hkept,fun b hb => nomatch hb⟩

theorem keeps_ite {p : Prop} [Decidable p] {x y : ExceptT ε (StateM S) α} (hx : Keeps I x P)
    (hy : Keeps I y P) : Keeps I (if p then x else y) P := by
  split
  · exact hx
  · exact hy

theorem Keeps.forM {f : α → ExceptT ε (StateM S) Unit} (hf : ∀ a, Keeps I (f a) fun _ => True)
    (l : List α) : Keeps I (l.forM f) fun _ => True := by
  induction l with
  | nil => exact keeps_pure trivial
  | cons a l ih =>
    show Keeps I (f a >>= fun _ => l.forM f) _
    exact (hf a).bind fun _ _ => ih

end BuildFiji.Stateful

/-!
## Values that are kept for the next reader

Every entry of a cache is the value of its key, so a reader gets the same from the cache as
from the source, and what it computes does not depend on what was kept before.
-/

namespace BuildFiji.Cached

section Yields

variable {σ α β : Type}

/-- The computation has the value `a` from every state. -/
def Yields (x : StateM σ α) (a : α) : Prop := ∀ s, (x s).1 = a

theorem yields_pure (a : α) : Yields (pure a : StateM σ α) a := fun _ => rfl

theorem Yields.bind {x : StateM σ α} {f : α → StateM σ β} {a : α} {b : β} (hx : Yields x a)
    (hf : Yields (f a) b) : Yields (x >>= f) b := by
  intro s
  have h := hf (x s).2
  rw [← hx s] at h
  exact h

theorem Yields.foldlM {step : β → α → StateM σ β} {next : β → α → Id β}
    (h : ∀ b a, Yields (step b a) (next b a)) (l : List α) (b : β) :
    Yields (l.foldlM step b) (l.foldlM next b) := by
  induction l generalizing b with
  | nil => exact yields_pure b
  | cons a l ih =>
    rw [List.foldlM_cons, List.foldlM_cons]
    exact (h b a).bind (ih _)

end Yields

section Kept

variable {κ β : Type} {f : κ → β}

structure Kept (f : κ → β) where
  entries : List (κ × β)
  sound : ∀ e ∈ entries, e.2 = f e.1

def Kept.none (f : κ → β) : Kept f := ⟨[],fun _ h => absurd h List.not_mem_nil⟩

def Kept.add (kept : Kept f) (key : κ) (value : β) (h : value = f key) : Kept f where
  entries := (key,value)::kept.entries
  sound := by
    intro e he
    rcases List.mem_cons.mp he with rfl | he
    · exact h
    · exact kept.sound e he

variable [DecidableEq κ]

/-- What is kept of `key`, else `value`, which is kept from then on. -/
def read (key : κ) (value : β) (h : value = f key) : StateM (Kept f) β := fun kept =>
  match kept.entries.find? fun e => e.1 = key with
  | some e => (e.2,kept)
  | none => (value,kept.add key value h)

theorem read_yields (key : κ) (value : β) (h : value = f key) : Yields (read key value h) (f key) := by
  intro kept
  unfold read
  split
  · next e he =>
    have hkey : e.1 = key := by simpa using List.find?_some he
    show e.2 = f key
    rw [kept.sound e (List.mem_of_find?_eq_some he), hkey]
  · exact h

end Kept

end BuildFiji.Cached
