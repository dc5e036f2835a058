import Mathlib.Data.Nat.Notation
import Mathlib.Logic.Function.Basic
import Mathlib.Logic.Relation

/-!
# Chains through a table

A table that has at most one successor for a key. A search that follows it from
one key for another stops where the table has no successor; while no chain goes
on for ever, a new entry that closes no ring keeps it so.
-/

set_option autoImplicit false
set_option linter.all false

namespace BuildFiji.Chain

open Relation

variable {κ : Type*}

def Next (table : κ → Option κ) (a b : κ) : Prop := table a = some b

/-- Whether following the table from a key comes upon another. -/
def follow [DecidableEq κ] (table : κ → Option κ) (sought : κ) : ℕ → κ → Option Bool
  | 0, _ => none
  | fuel+1, key =>
    match table key with
    | none => some false
    | some next => if next = sought then some true else follow table sought fuel next

/-- The chain from a key comes to an end. -/
def Ends (table : κ → Option κ) (a : κ) : Prop := Acc (fun b a => Next table a b) a

variable {table : κ → Option κ} {a b : κ}

theorem next_unique {c : κ} (hb : Next table a b) (hc : Next table a c) : b = c :=
  Option.some.inj (hb.symm.trans hc)

theorem ends_empty (a : κ) : Ends (fun _ => none) a := ⟨a,nofun⟩

theorem Ends.irrefl (h : Ends table a) : ¬TransGen (Next table) a a := by
  intro hring
  induction h with
  | intro a _ ih =>
    obtain ⟨b,hab,hba⟩ := TransGen.head'_iff.mp hring
    exact ih b hab (TransGen.tail' hba hab)

section Follow
variable [DecidableEq κ]

theorem follow_true {fuel : ℕ} (h : follow table b fuel a = some true) :
    TransGen (Next table) a b := by
  induction fuel generalizing a with
  | zero => cases h
  | succ fuel ih =>
    rw [follow] at h
    split at h
    · cases h
    · next next hnext =>
      split at h
      · next heq => exact .single (heq ▸ hnext)
      · exact .head hnext (ih h)

theorem follow_false {fuel : ℕ} (h : follow table b fuel a = some false) :
    ¬TransGen (Next table) a b := by
  induction fuel generalizing a with
  | zero => cases h
  | succ fuel ih =>
    intro hpath
    obtain ⟨c,hac,hcb⟩ := TransGen.head'_iff.mp hpath
    rw [follow, show table a = some c from hac] at h
    dsimp only at h
    split at h
    · cases h
    · next hne =>
      rcases hcb.cases_head with rfl | ⟨d,hcd,hdb⟩
      · exact hne rfl
      · exact ih h (TransGen.head' hcd hdb)

/-- The search stops. -/
theorem Ends.follow (h : Ends table a) (b : κ) :
    ∃ fuel found, Chain.follow table b fuel a = some found := by
  induction h with
  | intro a _ ih =>
    cases hnext : table a with
    | none => exact ⟨1,false,by rw [Chain.follow, hnext]⟩
    | some c =>
      by_cases heq : c = b
      · refine ⟨1,true,?_⟩
        rw [Chain.follow, hnext]
        exact if_pos heq
      · obtain ⟨fuel,found,hfound⟩ := ih c hnext
        refine ⟨fuel+1,found,?_⟩
        rw [Chain.follow, hnext]
        exact (if_neg heq).trans hfound

end Follow

/-- New entries that all lead to a key without one. -/
theorem Ends.sink {table' : κ → Option κ} (h : ∀ a, Ends table a) {k : κ} (hk : table' k = none)
    (hnext : ∀ a b, Next table' a b → Next table a b ∨ b = k) (a : κ) : Ends table' a := by
  have hsink : Ends table' k := by
    refine ⟨k,fun b hb => ?_⟩
    rw [Next, hk] at hb
    cases hb
  induction h a with
  | intro a _ ih =>
    refine ⟨a,fun b hb => ?_⟩
    rcases hnext a b hb with hold | rfl
    · exact ih b hold
    · exact hsink

section Update
variable [DecidableEq κ]

theorem Ends.remove (h : ∀ a, Ends table a) (k a : κ) : Ends (Function.update table k none) a := by
  have hsub : ∀ {x y}, Next (Function.update table k none) x y → Next table x y := by
    intro x y hxy
    by_cases hx : x = k
    · subst hx
      rw [Next, Function.update_self] at hxy
      cases hxy
    · rwa [Next, Function.update_of_ne hx] at hxy
  exact Subrelation.accessible (fun hxy => hsub hxy) (h a)

/-- A new entry that closes no ring. -/
theorem Ends.insert (h : ∀ a, Ends table a) {k v : κ} (hne : v ≠ k)
    (hpath : ¬TransGen (Next table) v k) (a : κ) :
    Ends (Function.update table k (some v)) a := by
  have hnext : ∀ {x y}, x ≠ k → Next (Function.update table k (some v)) x y → Next table x y := by
    intro x y hx hxy
    rwa [Next, Function.update_of_ne hx] at hxy
  have haway : ∀ x, Ends table x → x ≠ k → ¬TransGen (Next table) x k →
      Ends (Function.update table k (some v)) x := by
    intro x hx
    induction hx with
    | intro x _ ih =>
      intro hxk hxpath
      refine ⟨x,fun y hxy => ?_⟩
      have hxy := hnext hxk hxy
      refine ih y hxy ?_ fun hyk => hxpath (.head hxy hyk)
      intro heq
      exact hxpath (.single (heq ▸ hxy))
  have hk : Ends (Function.update table k (some v)) k := by
    refine ⟨k,fun y hky => ?_⟩
    rw [Next, Function.update_self] at hky
    cases hky
    exact haway v (h v) hne hpath
  induction h a with
  | intro x _ ih =>
    by_cases hx : x = k
    · subst hx
      exact hk
    · exact ⟨x,fun y hxy => ih y (hnext hx hxy)⟩

end Update

end BuildFiji.Chain
