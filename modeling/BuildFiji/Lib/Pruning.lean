import Mathlib.Data.List.Nodup
import Mathlib.Data.Set.Basic
import Mathlib.Order.Bounds.Basic

/-!
# Pruning

Members of a list that a test does not keep are taken out in place, in rounds, until a round takes
out none. The test may only get stricter as the list shrinks; then it does not matter in which
order members go, and what is left is the largest set that keeps all its members.
-/

set_option autoImplicit false
set_option linter.all false

namespace BuildFiji.Pruning

variable {α : Type*} [DecidableEq α] (keeps : List α → α → Bool)

/-- One member is looked at, beside those that are left; whether any was taken out. -/
def look (s : List α × Bool) (a : α) : List α × Bool :=
  if keeps s.1 a then s else (s.1.filter (· ≠ a),true)

def round (l : List α) : List α × Bool := l.foldl (look keeps) (l,false)

def prune : ℕ → List α → List α
  | 0, l => l
  | n+1, l =>
    match round keeps l with
    | (left,true) => prune n left
    | (left,false) => left

/-- Every member is kept beside the others. -/
def Kept (keep : Set α → α → Prop) (s : Set α) : Prop := ∀ a ∈ s, keep s a

section Rounds

variable {keeps} {l : List α} {a : α} {s : List α × Bool}

theorem look_subset : ∀ b ∈ (look keeps s a).1, b ∈ s.1 := by
  unfold look
  split
  · exact fun b hb => hb
  · exact fun b hb => List.mem_of_mem_filter hb

theorem looks_subset (rest : List α) : ∀ b ∈ (rest.foldl (look keeps) s).1, b ∈ s.1 := by
  induction rest generalizing s with
  | nil => exact fun b hb => hb
  | cons a rest ih => exact fun b hb => look_subset b (ih b hb)

theorem looks_true (rest : List α) (h : s.2 = true) : (rest.foldl (look keeps) s).2 = true := by
  induction rest generalizing s with
  | nil => exact h
  | cons a rest ih =>
    refine ih ?_
    unfold look
    split
    · exact h
    · rfl

/-- A round that takes out nothing has kept each member it looked at. -/
theorem looks_false {rest : List α} (h : (rest.foldl (look keeps) s).2 = false) :
    (rest.foldl (look keeps) s).1 = s.1 ∧ ∀ a ∈ rest, keeps s.1 a = true := by
  induction rest generalizing s with
  | nil => exact ⟨rfl,fun _ h => absurd h List.not_mem_nil⟩
  | cons a rest ih =>
    rw [List.foldl_cons] at h ⊢
    by_cases ha : keeps s.1 a = true
    · have hlook : look keeps s a = s := if_pos ha
      rw [hlook] at h ⊢
      exact ⟨(ih h).1,List.forall_mem_cons.mpr ⟨ha,(ih h).2⟩⟩
    · have hlook : look keeps s a = (s.1.filter (· ≠ a),true) := if_neg ha
      rw [hlook] at h
      rw [looks_true rest rfl] at h
      cases h

/-- A round that takes something out leaves fewer. -/
theorem looks_length (rest : List α) (hmem : ∀ a ∈ rest, a ∈ s.1) (hnodup : rest.Nodup)
    (h : (rest.foldl (look keeps) s).2 = true) (hs : s.2 = false) :
    (rest.foldl (look keeps) s).1.length < s.1.length := by
  induction rest with
  | nil =>
    rw [List.foldl_nil, hs] at h
    cases h
  | cons a rest ih =>
    rw [List.foldl_cons] at h ⊢
    rw [List.forall_mem_cons] at hmem
    by_cases ha : keeps s.1 a = true
    · have hlook : look keeps s a = s := if_pos ha
      rw [hlook] at h ⊢
      exact ih hmem.2 hnodup.of_cons h
    · have hless : (look keeps s a).1.length < s.1.length := by
        rw [look, if_neg ha]
        exact List.length_filter_lt_length_iff_exists.mpr ⟨a,hmem.1,by simp⟩
      refine lt_of_le_of_lt ?_ hless
      have hfilter : ∀ (rest : List α) (t : List α × Bool), (rest.foldl (look keeps) t).1.length ≤ t.1.length := by
        intro rest
        induction rest with
        | nil => exact fun t => le_rfl
        | cons b rest ih =>
          refine fun t => (ih _).trans ?_
          unfold look
          split
          · exact le_rfl
          · exact List.length_filter_le _ _
      exact hfilter rest _

theorem looks_nodup (rest : List α) (h : s.1.Nodup) : (rest.foldl (look keeps) s).1.Nodup := by
  induction rest generalizing s with
  | nil => exact h
  | cons a rest ih =>
    refine ih ?_
    unfold look
    split
    · exact h
    · exact h.filter _

variable {keep : Set α → α → Prop}

/-- What keeps all its members stays through each look. -/
theorem looks_kept (hmono : ∀ s t : Set α, s ⊆ t → ∀ a, keep s a → keep t a)
    (hkeeps : ∀ l a, keeps l a = true ↔ keep {b | b ∈ l} a) {t : Set α} (ht : Kept keep t) (rest : List α)
    (h : ∀ a ∈ t, a ∈ s.1) : ∀ a ∈ t, a ∈ (rest.foldl (look keeps) s).1 := by
  induction rest generalizing s with
  | nil => exact h
  | cons b rest ih =>
    refine ih fun a ha => ?_
    unfold look
    split
    · exact h a ha
    · next hb =>
      refine List.mem_filter.mpr ⟨h a ha,decide_eq_true fun heq => hb ?_⟩
      rw [hkeeps, ← heq]
      exact hmono t _ h a (ht a ha)

end Rounds

section Prune

variable {keeps} {keep : Set α → α → Prop}

/-- As many rounds as there are members are enough to leave the largest set that keeps all its
members. -/
theorem prune_isGreatest (hmono : ∀ s t : Set α, s ⊆ t → ∀ a, keep s a → keep t a)
    (hkeeps : ∀ l a, keeps l a = true ↔ keep {b | b ∈ l} a) {n : ℕ} {l : List α} (hnodup : l.Nodup)
    (hn : l.length < n) : IsGreatest {s | s ⊆ {b | b ∈ l} ∧ Kept keep s} {b | b ∈ prune keeps n l} := by
  induction n generalizing l with
  | zero => exact absurd hn (Nat.not_lt_zero _)
  | succ n ih =>
    rw [prune]
    generalize hround : round keeps l = out
    obtain ⟨left,removed⟩ := out
    have hleft : left = (l.foldl (look keeps) (l,false)).1 := congrArg Prod.fst hround.symm
    have hremoved : (l.foldl (look keeps) (l,false)).2 = removed := congrArg Prod.snd hround
    have hsub : ∀ b ∈ left, b ∈ l := hleft ▸ looks_subset l
    cases removed with
    | false =>
      obtain ⟨hsame,hall⟩ := looks_false hremoved
      rw [hsame] at hleft
      subst hleft
      refine ⟨⟨fun b hb => hb,fun a ha => (hkeeps _ a).mp (hall a ha)⟩,fun s hs => hs.1⟩
    | true =>
      have hlength := looks_length l (fun a ha => ha) hnodup hremoved rfl
      rw [← hleft] at hlength
      have hgreatest := ih (l := left) (hleft ▸ looks_nodup l hnodup) (by dsimp only at hlength; omega)
      refine ⟨⟨fun b hb => hsub b (hgreatest.1.1 hb),hgreatest.1.2⟩,fun s hs => hgreatest.2 ⟨fun b hb => ?_,hs.2⟩⟩
      rw [hleft]
      exact looks_kept hmono hkeeps hs.2 l (fun a ha => hs.1 ha) b hb

end Prune

end BuildFiji.Pruning
