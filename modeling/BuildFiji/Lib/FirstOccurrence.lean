import Mathlib.Data.List.Basic

/-!
# First occurrences

A list collected one element at a time, each only when it is new: its result is
`List.eraseDups` of everything that was offered.
-/

set_option autoImplicit false
set_option linter.all false

namespace BuildFiji.FirstOccurrence

variable {α : Type*}

/-- Wherever `x` stands, `y` stands before it. -/
def Leads (y x : α) (l : List α) : Prop := ∀ p q, l = p ++ x::q → y ∈ p

theorem Leads.append {x y : α} {l m : List α} (hl : Leads y x l) (hm : y ∈ l ∨ Leads y x m) :
    Leads y x (l ++ m) := by
  intro p q h
  obtain ⟨c,hp,hc⟩ | ⟨c,hp,hc⟩ := List.append_eq_append_iff.mp h
  · rcases hm with hm | hm
    · rw [hp]
      exact List.mem_append_left _ hm
    · rw [hp]
      exact List.mem_append_right _ (hm c q hc)
  · cases c with
    | nil =>
      rw [List.append_nil] at hp
      rcases hm with hm | hm
      · exact hp ▸ hm
      · exact absurd (hm [] q (by simpa using hc.symm)) List.not_mem_nil
    | cons d c =>
      simp only [List.cons_append, List.cons.injEq] at hc
      obtain ⟨rfl,-⟩ := hc
      exact hl p c hp

theorem leads_of_not_mem {x y : α} {l : List α} (h : x ∉ l) : Leads y x l := by
  intro p q hl
  exact absurd (hl ▸ List.mem_append_right _ List.mem_cons_self) h

theorem Leads.flatMap {β : Type*} {x y : α} {f : β → List α} (l : List β)
    (h : ∀ b ∈ l, Leads y x (f b)) : Leads y x (l.flatMap f) := by
  induction l with
  | nil => exact leads_of_not_mem List.not_mem_nil
  | cons b l ih =>
    rw [List.flatMap_cons]
    exact (h b List.mem_cons_self).append (.inr (ih fun c hc => h c (List.mem_cons_of_mem _ hc)))

variable [DecidableEq α]

def add (out : List α) (v : α) : List α := if v ∈ out then out else out ++ [v]

def addAll (out l : List α) : List α := l.foldl add out

theorem mem_add {out : List α} {v x : α} : x ∈ add out v ↔ x ∈ out ∨ x = v := by
  unfold add
  split
  · next h =>
    refine ⟨.inl,fun hx => hx.elim id fun heq => heq ▸ h⟩
  · simp

theorem mem_addAll {out l : List α} {x : α} : x ∈ addAll out l ↔ x ∈ out ∨ x ∈ l := by
  induction l generalizing out with
  | nil => simp [addAll]
  | cons v l ih =>
    have h := @ih (add out v)
    rw [mem_add] at h
    rw [List.mem_cons, ← or_assoc]
    exact h

theorem addAll_append (out l m : List α) : addAll out (l ++ m) = addAll (addAll out l) m :=
  List.foldl_append

theorem addAll_of_subset {out l : List α} (h : ∀ x ∈ l, x ∈ out) : addAll out l = out := by
  induction l with
  | nil => rfl
  | cons v l ih =>
    have hv : add out v = out := if_pos (h v List.mem_cons_self)
    have hl := ih fun x hx => h x (List.mem_cons_of_mem _ hx)
    simpa only [addAll, List.foldl_cons, hv] using hl

theorem addAll_eq (out l : List α) : addAll out l = out ++ (l.removeAll out).eraseDups := by
  induction l generalizing out with
  | nil => simp [addAll, List.removeAll]
  | cons v l ih =>
    have hstep : addAll out (v::l) = addAll (add out v) l := rfl
    rw [hstep, ih, add]
    split
    · next h => simp [List.removeAll, h]
    · next h =>
      rw [List.append_assoc]
      congr 1
      have hfilter : (v::l).removeAll out = v::l.removeAll out := by simp [List.removeAll, h]
      rw [hfilter, List.eraseDups_cons, List.singleton_append]
      congr 2
      simp only [List.removeAll, List.filter_filter]
      refine List.filter_congr fun x _ => ?_
      by_cases hx : x = v
      · simp [hx]
      · simp [hx, beq_eq_false_iff_ne.mpr hx]

theorem addAll_nil (l : List α) : addAll [] l = l.eraseDups := by
  rw [addAll_eq]
  simp [List.removeAll]

theorem addAll_nodup {out l : List α} (h : (out ++ l).Nodup) : addAll out l = out ++ l := by
  induction l generalizing out with
  | nil => rw [List.append_nil]; rfl
  | cons v l ih =>
    have hv : v ∉ out := fun hmem =>
      (List.nodup_append.mp h).2.2 v hmem v List.mem_cons_self rfl
    have hstep : add out v = out ++ [v] := if_neg hv
    change addAll (add out v) l = _
    rw [hstep, ih (by rw [List.append_assoc]; exact h), List.append_assoc]
    rfl

theorem nodup_addAll {out : List α} (h : out.Nodup) (l : List α) : (addAll out l).Nodup := by
  induction l generalizing out with
  | nil => exact h
  | cons v l ih =>
    refine ih ?_
    rw [add]
    split
    · exact h
    · next hv => exact List.nodup_append.mpr ⟨h,List.pairwise_singleton _ _,fun a ha b hb =>
        (List.mem_singleton.mp hb).symm ▸ fun heq => hv (heq ▸ ha)⟩

theorem nodup_eraseDups (l : List α) : l.eraseDups.Nodup := by
  rw [← addAll_nil]
  exact nodup_addAll List.nodup_nil l

/-- Collecting keeps which of two comes first. -/
theorem leads_addAll {x y : α} {out l : List α} (hout : Leads y x out)
    (hl : ∀ p q, l = p ++ x::q → y ∈ out ∨ y ∈ p) : Leads y x (addAll out l) := by
  induction l generalizing out with
  | nil => exact hout
  | cons v l ih =>
    refine @ih (add out v) ?_ ?_
    · unfold add
      split
      · exact hout
      · by_cases hv : v = x
        · subst hv
          have hy : y ∈ out := (hl [] l rfl).resolve_right List.not_mem_nil
          exact hout.append (.inl hy)
        · exact hout.append (.inr (leads_of_not_mem (by simpa using Ne.symm hv)))
    · intro p q h
      rw [mem_add]
      rcases hl (v::p) q (by rw [h]; rfl) with hy | hy
      · exact .inl (.inl hy)
      · rcases List.mem_cons.mp hy with rfl | hy
        · exact .inl (.inr rfl)
        · exact .inr hy

section Keyed

variable {ι κ β : Type*} [DecidableEq κ] [DecidableEq β] {key : ι → κ}

/-- New is what has a key of its own. -/
def addKey (key : ι → κ) (out : List ι) (x : ι) : List ι :=
  if key x ∈ out.map key then out else out ++ [x]

def addKeys (key : ι → κ) (out l : List ι) : List ι := l.foldl (addKey key) out

theorem map_addKey (out : List ι) (x : ι) : (addKey key out x).map key = add (out.map key) (key x) := by
  unfold addKey add
  split
  · rfl
  · rw [List.map_append, List.map_singleton]

theorem map_addKeys (out l : List ι) :
    (addKeys key out l).map key = addAll (out.map key) (l.map key) := by
  induction l generalizing out with
  | nil => rfl
  | cons x l ih =>
    have hrest := ih (addKey key out x)
    rw [map_addKey] at hrest
    exact hrest

theorem of_mem_addKeys {out l : List ι} {x : ι} (h : x ∈ addKeys key out l) : x ∈ out ∨ x ∈ l := by
  induction l generalizing out with
  | nil => exact .inl h
  | cons y l ih =>
    rcases ih h with hx | hx
    · unfold addKey at hx
      split at hx
      · exact .inl hx
      · rcases List.mem_append.mp hx with hx | hx
        · exact .inl hx
        · exact .inr (List.mem_cons.mpr (.inl (List.mem_singleton.mp hx)))
    · exact .inr (List.mem_cons_of_mem _ hx)

/-- What equal keys stand for alike may be dropped by key before it is spread. -/
theorem addAll_flatMap_addKeys {g : ι → List β} (out l : List ι)
    (h : ∀ x ∈ out ++ l, ∀ y ∈ out ++ l, key x = key y → g x = g y) :
    addAll [] ((addKeys key out l).flatMap g) = addAll [] (out.flatMap g ++ l.flatMap g) := by
  induction l generalizing out with
  | nil => rw [List.flatMap_nil, List.append_nil]; rfl
  | cons x l ih =>
    have hx : x ∈ out ++ x::l := List.mem_append_right _ List.mem_cons_self
    change addAll [] ((addKeys key (addKey key out x) l).flatMap g) = _
    by_cases hkey : key x ∈ out.map key
    · have hout : addKey key out x = out := if_pos hkey
      obtain ⟨y,hy,heq⟩ := List.mem_map.mp hkey
      have hsame := h y (List.mem_append_left _ hy) x hx heq
      have hgone : addAll (addAll [] (out.flatMap g)) (g x) = addAll [] (out.flatMap g) := by
        apply addAll_of_subset
        intro v hv
        exact mem_addAll.mpr (.inr (List.mem_flatMap.mpr ⟨y,hy,hsame ▸ hv⟩))
      rw [hout, ih out, List.flatMap_cons, addAll_append, addAll_append, addAll_append, hgone]
      intro a ha b hb
      exact h a (List.append_subset.mpr ⟨List.subset_append_left _ _,fun z hz =>
        List.mem_append_right _ (List.mem_cons_of_mem _ hz)⟩ ha) b (List.append_subset.mpr
          ⟨List.subset_append_left _ _,fun z hz => List.mem_append_right _ (List.mem_cons_of_mem _ hz)⟩ hb)
    · have hout : addKey key out x = out ++ [x] := if_neg hkey
      rw [hout, ih (out ++ [x])]
      · simp only [List.flatMap_append, List.flatMap_cons, List.flatMap_nil, List.append_nil,
          List.append_assoc]
      · intro a ha b hb
        rw [List.append_assoc] at ha hb
        exact h a ha b hb

end Keyed

end BuildFiji.FirstOccurrence
