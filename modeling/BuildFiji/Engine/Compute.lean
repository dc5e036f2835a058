import Mathlib.Logic.Relation
import Mathlib.Data.List.Basic
import Mathlib.Data.Set.Finite.List
import Mathlib.Tactic.Common

/-!
# Computations and their meaning from scratch

A key's computation reads other keys through `Ctx::get` and `Ctx::get_all`
and its own external cell, in an order that may depend on what it has read.
Errors are values: a computation sees the error of a key it reads and may go
on. Errors are compared by what they say, so an error is its text here.

Evaluation from scratch keeps nothing between keys. The dependency relation
of an external state is made of the reads evaluation from scratch performs.
-/

set_option autoImplicit false
set_option linter.all false

namespace BuildFiji.Engine

open Relation

abbrev Outcome (V : Type*) := Except String V

inductive Comp (K V C : Type*) where
  | ret (outcome : Outcome V)
  | cell (cont : C → Comp K V C)
  | get (keys : List K) (cont : List (Outcome V) → Comp K V C)

/-- What a node last computed: each dependency is kept with its `changed_at`
at the time it was read. -/
structure Evaluated (K V : Type*) where
  outcome : Outcome V
  changedAt : ℕ
  verifiedAt : ℕ
  deps : List (K × ℕ)

/-- The result of a recomputation. An outcome equal to the previous one keeps
its `changed_at`. -/
def Evaluated.computed {K V : Type*} [DecidableEq V] (previous : Option (Evaluated K V))
    (version : ℕ) (outcome : Outcome V) (deps : List (K × ℕ)) : Evaluated K V where
  outcome := outcome
  changedAt := match previous with
    | some p => if p.outcome = outcome then p.changedAt else version
    | none => version
  verifiedAt := version
  deps := deps

def Evaluated.kept {K V : Type*} (previous : Evaluated K V) (version : ℕ) : Evaluated K V :=
  { previous with verifiedAt := version }

variable {K V C : Type*} (compute : K → Comp K V C) (ext : K → C)

inductive Evals : K → Comp K V C → Outcome V → Prop where
  | ret (k : K) (o : Outcome V) : Evals k (.ret o) o
  | cell {k : K} {cont : C → Comp K V C} {o : Outcome V} :
      Evals k (cont (ext k)) o → Evals k (.cell cont) o
  | get {k : K} {keys : List K} {cont : List (Outcome V) → Comp K V C}
      {ws : List (Outcome V)} {o : Outcome V} :
      ws.length = keys.length → (∀ p ∈ keys.zip ws, Evals p.1 (compute p.1) p.2) →
      Evals k (cont ws) o → Evals k (.get keys cont) o

def Scratch (k : K) (o : Outcome V) : Prop := Evals compute ext k (compute k) o

/-- The keys a computation reads when every key before them has its value
from scratch. -/
inductive Reads : K → Comp K V C → K → Prop where
  | here {k d : K} {keys : List K} {cont : List (Outcome V) → Comp K V C} :
      d ∈ keys → Reads k (.get keys cont) d
  | cell {k d : K} {cont : C → Comp K V C} : Reads k (cont (ext k)) d → Reads k (.cell cont) d
  | next {k d : K} {keys : List K} {cont : List (Outcome V) → Comp K V C}
      {ws : List (Outcome V)} :
      ws.length = keys.length → (∀ p ∈ keys.zip ws, Scratch compute ext p.1 p.2) →
      Reads k (cont ws) d → Reads k (.get keys cont) d

def Depends (a b : K) : Prop := Reads compute ext a (compute a) b

def DepAcyclic : Prop := ∀ a, ¬ TransGen (Depends compute ext) a a

/-- A finished computation with the external cell it read and, in order, the
keys it read with the outcomes it was given. -/
inductive Replay (own : C) : Comp K V C → List (K × Outcome V) → Outcome V → Prop where
  | ret (o : Outcome V) : Replay own (.ret o) [] o
  | cell {cont : C → Comp K V C} {reads : List (K × Outcome V)} {o : Outcome V} :
      Replay own (cont own) reads o → Replay own (.cell cont) reads o
  | get {keys : List K} {cont : List (Outcome V) → Comp K V C} {ws : List (Outcome V)}
      {reads : List (K × Outcome V)} {o : Outcome V} :
      ws.length = keys.length → Replay own (cont ws) reads o →
      Replay own (.get keys cont) (keys.zip ws ++ reads) o

/-- A computation goes on from one point to another reading only cells of the
list and pairs of the relation, in any order and number. -/
inductive Follows (cells : List C) (known : K → Outcome V → Prop) :
    Comp K V C → Comp K V C → Prop where
  | refl (c : Comp K V C) : Follows cells known c c
  | cell {cont : C → Comp K V C} {c : Comp K V C} {x : C} : x ∈ cells →
      Follows cells known (cont x) c → Follows cells known (.cell cont) c
  | get {keys : List K} {cont : List (Outcome V) → Comp K V C} {ws : List (Outcome V)}
      {c : Comp K V C} : ws.length = keys.length → (∀ p ∈ keys.zip ws, known p.1 p.2) →
      Follows cells known (cont ws) c → Follows cells known (.get keys cont) c

theorem Follows.mono {cells cells' : List C} {known known' : K → Outcome V → Prop}
    (hc : ∀ x ∈ cells, x ∈ cells') (hk : ∀ d w, known d w → known' d w) {a b : Comp K V C}
    (h : Follows cells known a b) : Follows cells' known' a b := by
  induction h with
  | refl c => exact .refl c
  | cell hx _ ih => exact .cell (hc _ hx) ih
  | get hl hw _ ih => exact .get hl (fun p hp => hk _ _ (hw p hp)) ih

theorem Follows.trans {cells : List C} {known : K → Outcome V → Prop} {a b c : Comp K V C}
    (h : Follows cells known a b) (h' : Follows cells known b c) : Follows cells known a c := by
  induction h with
  | refl _ => exact h'
  | cell hx _ ih => exact .cell hx (ih h')
  | get hl hw _ ih => exact .get hl hw (ih h')

variable {compute ext}

/-- What follows from the cell as it is and from values from scratch is the
value from scratch. -/
theorem Follows.evals {cells : List C} {known : K → Outcome V → Prop} {k : K} {c : Comp K V C}
    {o : Outcome V} (h : Follows cells known c (.ret o)) (hc : ∀ x ∈ cells, x = ext k)
    (hk : ∀ d w, known d w → Scratch compute ext d w) : Evals compute ext k c o := by
  generalize hr : Comp.ret o = r at h
  induction h with
  | refl => exact hr ▸ .ret k o
  | cell hx _ ih => exact .cell (hc _ hx ▸ ih hr)
  | get hl hw _ ih => exact .get hl (fun p hp => hk _ _ (hw p hp)) (ih hr)

theorem zip_values_unique (R : K → Outcome V → Prop) {keys : List K} {ws ws' : List (Outcome V)}
    (hl : ws.length = keys.length) (hl' : ws'.length = keys.length)
    (h : ∀ p ∈ keys.zip ws, ∀ w, R p.1 w → p.2 = w) (h' : ∀ p ∈ keys.zip ws', R p.1 p.2) :
    ws = ws' := by
  induction keys generalizing ws ws' with
  | nil => simp_all
  | cons k keys ih =>
    obtain ⟨w,ws,rfl⟩ := List.exists_cons_of_length_eq_add_one hl
    obtain ⟨w',ws',rfl⟩ := List.exists_cons_of_length_eq_add_one hl'
    simp only [List.zip_cons_cons, List.mem_cons, forall_eq_or_imp] at h h'
    simp only [List.length_cons, Nat.add_right_cancel_iff] at hl hl'
    rw [h.1 w' h'.1, ih hl hl' h.2 h'.2]

theorem evals_unique {k : K} {c : Comp K V C} {o o' : Outcome V}
    (h : Evals compute ext k c o) (h' : Evals compute ext k c o') : o = o' := by
  induction h generalizing o' with
  | ret => cases h'; rfl
  | cell _ ih => cases h' with | cell h' => exact ih h'
  | get hl _ _ ihs ih =>
    cases h' with
    | get hl' hs' h' =>
      obtain rfl := zip_values_unique (Scratch compute ext) hl hl' (fun p hp w hw => ihs p hp hw) hs'
      exact ih h'

theorem scratch_unique {k : K} {o o' : Outcome V} (h : Scratch compute ext k o)
    (h' : Scratch compute ext k o') : o = o' := evals_unique h h'

/-- Whatever a terminating evaluation reads evaluates, and the reads below it
are well founded. -/
theorem evals_reads {k d : K} {c : Comp K V C} {o : Outcome V} (h : Evals compute ext k c o)
    (hd : Reads compute ext k c d) :
    (∃ w, Scratch compute ext d w) ∧ Acc (fun b a => Depends compute ext a b) d := by
  induction h generalizing d with
  | ret => cases hd
  | cell _ ih => cases hd with | cell hd => exact ih hd
  | @get k keys cont ws o hl hs _ ihs ih =>
    cases hd with
    | here hd =>
      obtain ⟨i,hi,rfl⟩ := List.getElem_of_mem hd
      have hm : (keys[i],ws.get ⟨i,hl ▸ hi⟩) ∈ keys.zip ws := by
        rw [List.mem_iff_getElem]
        exact ⟨i,by simp [hl,hi],by simp⟩
      exact ⟨⟨_,hs _ hm⟩,⟨_,fun b hb => (ihs _ hm hb).2⟩⟩
    | next hl' hs' hd =>
      obtain rfl := zip_values_unique (Scratch compute ext) hl hl'
        (fun p hp w hw => evals_unique (hs p hp) hw) hs'
      exact ih hd

/-- A terminating evaluation reads finitely many keys. -/
theorem evals_finite {k : K} {c : Comp K V C} {o : Outcome V} (h : Evals compute ext k c o) :
    {d | Reads compute ext k c d}.Finite := by
  induction h with
  | ret => exact Set.finite_empty.subset fun d hd => by cases hd
  | cell _ ih => exact ih.subset fun d hd => by cases hd with | cell hd => exact hd
  | @get k keys cont ws o hl hs _ _ ih =>
    refine (keys.finite_toSet.union ih).subset fun d hd => ?_
    cases hd with
    | here hd => exact .inl hd
    | next hl' hs' hd =>
      obtain rfl := zip_values_unique (Scratch compute ext) hl hl'
        (fun p hp w hw => evals_unique (hs p hp) hw) hs'
      exact .inr hd

theorem scratch_depends {k d : K} {o : Outcome V} (h : Scratch compute ext k o)
    (hd : Depends compute ext k d) : ∃ w, Scratch compute ext d w := (evals_reads h hd).1

theorem scratch_acc {k : K} {o : Outcome V} (h : Scratch compute ext k o) :
    Acc (fun b a => Depends compute ext a b) k := ⟨_,fun _ hb => (evals_reads h hb).2⟩

theorem replay_evals {k : K} {c : Comp K V C} {reads : List (K × Outcome V)} {o : Outcome V}
    (h : Replay (ext k) c reads o) (hs : ∀ p ∈ reads, Scratch compute ext p.1 p.2) :
    Evals compute ext k c o := by
  induction h with
  | ret o => exact .ret k o
  | cell _ ih => exact .cell (ih hs)
  | get hl _ ih =>
    exact .get hl (fun p hp => hs p (List.mem_append_left _ hp))
      (ih fun p hp => hs p (List.mem_append_right _ hp))

/-- A rank that every dependency lowers rules out cycles. -/
theorem depAcyclic_of_rank (rank : K → ℕ) (h : ∀ a b, Depends compute ext a b → rank b < rank a) :
    DepAcyclic compute ext := by
  have hlt : ∀ a b, TransGen (Depends compute ext) a b → rank b < rank a := by
    intro a b hab
    induction hab with
    | single hab => exact h _ _ hab
    | tail _ hbc ih => exact lt_trans (h _ _ hbc) ih
  exact fun a ha => lt_irrefl _ (hlt a a ha)

/-- A recorded read is a read from scratch as soon as the reads before it had
their values from scratch. -/
theorem replay_reads {k d : K} {c : Comp K V C} {reads pre post : List (K × Outcome V)}
    {w o : Outcome V} (h : Replay (ext k) c reads o) (he : reads = pre ++ (d,w)::post)
    (hs : ∀ p ∈ pre, Scratch compute ext p.1 p.2) : Reads compute ext k c d := by
  induction h generalizing pre with
  | ret => simp at he
  | cell _ ih => exact .cell (ih he hs)
  | @get keys cont ws reads o hl _ ih =>
    rcases List.append_eq_append_iff.mp he with ⟨mid,rfl,hm⟩ | ⟨mid,hz,hm⟩
    · exact .next hl (fun p hp => hs p (List.mem_append_left _ hp))
        (ih hm fun p hp => hs p (List.mem_append_right _ hp))
    · cases mid with
      | nil =>
        rw [List.append_nil] at hz
        exact .next hl (fun p hp => hs p (hz ▸ hp)) (@ih [] hm.symm (by simp))
      | cons q mid =>
        obtain ⟨rfl,-⟩ := List.cons.inj hm
        have hq : (d,w) ∈ keys.zip ws := by simp [hz]
        exact .here (List.of_mem_zip hq).1

end BuildFiji.Engine
