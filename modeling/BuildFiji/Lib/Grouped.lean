import Mathlib.Data.List.Induction
import Mathlib.Data.List.Nodup

/-!
# Lists put into groups

Every element joins the group of its key, or begins one behind the others. The groups
come in the order of their first elements, whatever joins them.
-/

set_option autoImplicit false
set_option linter.all false

namespace BuildFiji.Grouped

variable {α β κ μ : Type*}

/-- The element that begins a group, and those that join it. -/
structure Gathered (α : Type*) where
  first : α
  rest : List α

def Gathered.all (g : Gathered α) : List α := g.first::g.rest

section Collect
variable [DecidableEq κ] [DecidableEq μ]

def place (key : α → κ) (x : α) : List (Gathered α) → List (Gathered α)
  | [] => [⟨x,[]⟩]
  | g::gs => if key g.first = key x then ⟨g.first,g.rest ++ [x]⟩::gs else g::place key x gs

def collect (key : α → κ) (xs : List α) : List (Gathered α) :=
  xs.foldl (fun gs x => place key x gs) []

def addFirst (key : α → κ) (x : α) (found : List α) : List α :=
  if key x ∈ found.map key then found else found ++ [x]

/-- The first element of each key. -/
def firsts (key : α → κ) (xs : List α) : List α := xs.foldl (fun found x => addFirst key x found) []

theorem place_firsts (key : α → κ) (x : α) (gs : List (Gathered α)) :
    (place key x gs).map Gathered.first = addFirst key x (gs.map Gathered.first) := by
  induction gs with
  | nil => rfl
  | cons g gs ih =>
    rw [place, addFirst]
    by_cases h : key g.first = key x
    · simp [h]
    · rw [if_neg h, List.map_cons, ih, addFirst, List.map_cons, List.map_cons]
      by_cases hmem : key x ∈ (gs.map Gathered.first).map key
      · rw [if_pos hmem, if_pos (List.mem_cons_of_mem _ hmem)]
      · rw [if_neg hmem, if_neg fun hx => (List.mem_cons.mp hx).elim (Ne.symm h) hmem]
        rfl

theorem collect_concat (key : α → κ) (xs : List α) (x : α) :
    collect key (xs ++ [x]) = place key x (collect key xs) := by
  rw [collect, List.foldl_append]
  rfl

theorem firsts_concat (key : α → κ) (xs : List α) (x : α) :
    firsts key (xs ++ [x]) = addFirst key x (firsts key xs) := by
  rw [firsts, List.foldl_append]
  rfl

theorem mem_place {key : α → κ} {x y : α} {gs : List (Gathered α)} {g : Gathered α}
    (hg : g ∈ place key x gs) (hy : y ∈ g.all) : y = x ∨ ∃ g' ∈ gs, y ∈ g'.all := by
  induction gs with
  | nil =>
    rw [place, List.mem_singleton] at hg
    subst hg
    exact .inl (List.mem_singleton.mp hy)
  | cons g' gs ih =>
    rw [place] at hg
    split at hg
    · rcases List.mem_cons.mp hg with rfl | hg
      · rcases List.mem_cons.mp hy with hy | hy
        · exact .inr ⟨g',List.mem_cons_self,hy ▸ List.mem_cons_self⟩
        · rcases List.mem_append.mp hy with hy | hy
          · exact .inr ⟨g',List.mem_cons_self,List.mem_cons_of_mem _ hy⟩
          · exact .inl (List.mem_singleton.mp hy)
      · exact .inr ⟨g,List.mem_cons_of_mem _ hg,hy⟩
    · rcases List.mem_cons.mp hg with rfl | hg
      · exact .inr ⟨g,List.mem_cons_self,hy⟩
      · exact (ih hg).imp_right fun ⟨h,hh,hy⟩ => ⟨h,List.mem_cons_of_mem _ hh,hy⟩

theorem mem_collect {key : α → κ} {xs : List α} {g : Gathered α} {y : α} (hg : g ∈ collect key xs)
    (hy : y ∈ g.all) : y ∈ xs := by
  induction xs using List.reverseRecOn generalizing g with
  | nil => cases hg
  | append_singleton xs x ih =>
    rw [collect_concat] at hg
    rcases mem_place hg hy with rfl | ⟨g',hg',hy'⟩
    · simp
    · exact List.mem_append_left _ (ih hg' hy')

theorem collect_firsts (key : α → κ) (xs : List α) :
    (collect key xs).map Gathered.first = firsts key xs := by
  induction xs using List.reverseRecOn with
  | nil => rfl
  | append_singleton xs x ih =>
    rw [collect_concat, firsts_concat, place_firsts, ih]

theorem firsts_map (key : β → κ) (f : α → β) (xs : List α) :
    firsts key (xs.map f) = (firsts (fun x => key (f x)) xs).map f := by
  induction xs using List.reverseRecOn with
  | nil => rfl
  | append_singleton xs x ih =>
    rw [List.map_append, List.map_singleton, firsts_concat, firsts_concat, ih, addFirst, addFirst,
      List.map_map]
    by_cases h : key (f x) ∈ (firsts (fun x => key (f x)) xs).map fun x => key (f x)
    · exact (if_pos h).trans (congrArg _ (if_pos h).symm)
    · rw [if_neg h, List.map_append]
      exact if_neg h

theorem mem_firsts {key : α → κ} {xs : List α} {x : α} (h : x ∈ firsts key xs) : x ∈ xs := by
  induction xs using List.reverseRecOn with
  | nil => exact h
  | append_singleton xs y ih =>
    rw [firsts_concat, addFirst] at h
    split at h
    · exact List.mem_append_left _ (ih h)
    · exact (List.mem_append.mp h).elim (fun h => List.mem_append_left _ (ih h))
        (List.mem_append_right _)

theorem firsts_keys {key : α → κ} {xs : List α} {x : α} (h : x ∈ xs) :
    key x ∈ (firsts key xs).map key := by
  induction xs using List.reverseRecOn with
  | nil => cases h
  | append_singleton xs y ih =>
    rw [firsts_concat, addFirst]
    split
    · next hy =>
      rcases List.mem_append.mp h with h | h
      · exact ih h
      · exact List.mem_singleton.mp h ▸ hy
    · rw [List.map_append, List.mem_append]
      rcases List.mem_append.mp h with h | h
      · exact .inl (ih h)
      · exact .inr (List.mem_singleton.mp h ▸ List.mem_singleton_self _)

/-- The first of each coarse key are the first among the first of each fine key. -/
theorem firsts_firsts {fine : α → κ} {coarse : α → μ} {xs : List α}
    (h : ∀ x ∈ xs, ∀ y ∈ xs, fine x = fine y → coarse x = coarse y) :
    firsts coarse (firsts fine xs) = firsts coarse xs := by
  induction xs using List.reverseRecOn with
  | nil => rfl
  | append_singleton xs x ih =>
    have hxs : ∀ y ∈ xs, ∀ z ∈ xs, fine y = fine z → coarse y = coarse z := fun y hy z hz =>
      h y (List.mem_append_left _ hy) z (List.mem_append_left _ hz)
    rw [firsts_concat, firsts_concat, addFirst]
    split
    · next hmem =>
      obtain ⟨y,hy,hkey⟩ := List.mem_map.mp hmem
      have hy' := mem_firsts hy
      have hsame : coarse y = coarse x := h y (List.mem_append_left _ hy') x (by simp) hkey
      rw [ih hxs, addFirst, if_pos (hsame ▸ firsts_keys hy')]
    · rw [firsts_concat, ih hxs]

theorem any_place (key : α → κ) (p : α → Bool) (x : α) (gs : List (Gathered α)) :
    (place key x gs).any (fun g => g.all.any p) = (gs.any (fun g => g.all.any p) || p x) := by
  induction gs with
  | nil => simp [place, Gathered.all]
  | cons g gs ih =>
    rw [place]
    split
    · have hall : (Gathered.all ⟨g.first,g.rest ++ [x]⟩).any p = (g.all.any p || p x) := by
        simp [Gathered.all, Bool.or_assoc]
      rw [List.any_cons, List.any_cons, hall, Bool.or_assoc, Bool.or_comm (p x), Bool.or_assoc]
    · rw [List.any_cons, List.any_cons, ih, Bool.or_assoc]

theorem any_collect (key : α → κ) (p : α → Bool) (xs : List α) :
    (collect key xs).any (fun g => g.all.any p) = xs.any p := by
  induction xs using List.reverseRecOn with
  | nil => rfl
  | append_singleton xs x ih => rw [collect_concat, any_place, ih, List.any_append, List.any_cons, List.any_nil, Bool.or_false]

theorem place_fresh {key : α → κ} {x : α} {gs : List (Gathered α)}
    (h : key x ∉ gs.map fun g => key g.first) : place key x gs = gs ++ [⟨x,[]⟩] := by
  induction gs with
  | nil => rfl
  | cons g gs ih =>
    rw [List.map_cons, List.mem_cons, not_or] at h
    rw [place, if_neg (Ne.symm h.1), ih h.2, List.cons_append]

theorem place_last {key : α → κ} {x y : α} {ys : List α} {gs : List (Gathered α)}
    (h : key x ∉ gs.map fun g => key g.first) (hy : key y = key x) :
    place key x (gs ++ [⟨y,ys⟩]) = gs ++ [⟨y,ys ++ [x]⟩] := by
  induction gs with
  | nil => exact if_pos hy
  | cons g gs ih =>
    rw [List.map_cons, List.mem_cons, not_or] at h
    rw [List.cons_append, place, if_neg (Ne.symm h.1), ih h.2, List.cons_append]

/-- Elements of one new key make one group. -/
theorem foldl_place_block {key : α → κ} {x : α} {xs : List α} {gs : List (Gathered α)}
    (h : key x ∉ gs.map fun g => key g.first) (hxs : ∀ y ∈ xs, key y = key x) :
    (x::xs).foldl (fun gs x => place key x gs) gs = gs ++ [⟨x,xs⟩] := by
  induction xs using List.reverseRecOn with
  | nil => exact place_fresh h
  | append_singleton xs y ih =>
    have hy : key y = key x := hxs y (by simp)
    rw [← List.cons_append, List.foldl_append, ih fun z hz => hxs z (List.mem_append_left _ hz),
      List.foldl_cons, List.foldl_nil, place_last (hy ▸ h) hy.symm]

theorem firsts_nodup (key : α → κ) (xs : List α) : ((firsts key xs).map key).Nodup := by
  induction xs using List.reverseRecOn with
  | nil => exact List.nodup_nil
  | append_singleton xs x ih =>
    rw [firsts_concat, addFirst]
    split
    · exact ih
    · next hx =>
      rw [List.map_append, List.map_singleton, ← List.concat_eq_append]
      exact ih.concat hx

theorem collect_keys_nodup (key : α → κ) (xs : List α) :
    ((collect key xs).map fun g => key g.first).Nodup := by
  have hfirsts := firsts_nodup key xs
  rw [← collect_firsts, List.map_map] at hfirsts
  exact hfirsts

/-- What stands in blocks, each of a key of its own, is grouped as it stands. -/
theorem collect_flatMap {key : α → κ} {f : β → List α} {k : β → κ} {bs : List β}
    (hne : ∀ b ∈ bs, f b ≠ []) (hkey : ∀ b ∈ bs, ∀ x ∈ f b, key x = k b) (hnodup : (bs.map k).Nodup) :
    (collect key (bs.flatMap f)).map Gathered.all = bs.map f ∧
      (collect key (bs.flatMap f)).map (fun g => key g.first) = bs.map k := by
  induction bs using List.reverseRecOn with
  | nil => exact ⟨rfl,rfl⟩
  | append_singleton bs b ih =>
    rw [List.map_append, List.map_singleton, List.nodup_append] at hnodup
    obtain ⟨hnodup,-,hnew⟩ := hnodup
    obtain ⟨hall,hkeys⟩ := ih (fun c hc => hne c (List.mem_append_left _ hc))
      (fun c hc => hkey c (List.mem_append_left _ hc)) hnodup
    have hb : b ∈ bs ++ [b] := by simp
    cases hf : f b with
    | nil => exact absurd hf (hne b hb)
    | cons x xs =>
      have hx : key x = k b := hkey b hb x (by rw [hf]; exact List.mem_cons_self)
      have hxs : ∀ y ∈ xs, key y = key x := fun y hy =>
        (hkey b hb y (by rw [hf]; exact List.mem_cons_of_mem _ hy)).trans hx.symm
      have hfresh : key x ∉ (collect key (bs.flatMap f)).map fun g => key g.first := by
        rw [hkeys, hx]
        exact fun hmem => hnew _ hmem _ List.mem_cons_self rfl
      have hcollect : collect key ((bs ++ [b]).flatMap f) = collect key (bs.flatMap f) ++ [⟨x,xs⟩] := by
        rw [List.flatMap_append, List.flatMap_singleton, hf, collect, List.foldl_append]
        exact foldl_place_block hfresh hxs
      rw [hcollect, List.map_append, List.map_append, List.map_append, List.map_append, hall, hkeys,
        List.map_singleton, List.map_singleton, List.map_singleton, List.map_singleton, hf, ← hx]
      exact ⟨rfl,rfl⟩

end Collect

section Maps

/-- Elements that look the same one way do so another way. -/
theorem map_eq_of {f : α → μ} {f' : β → μ} {g : α → κ} {g' : β → κ} {xs : List α} {ys : List β}
    (hfg : ∀ x ∈ xs, ∀ y ∈ ys, f x = f' y → g x = g' y) (h : xs.map f = ys.map f') :
    xs.map g = ys.map g' := by
  induction xs generalizing ys with
  | nil =>
    cases ys with
    | nil => rfl
    | cons y ys => cases h
  | cons x xs ih =>
    cases ys with
    | nil => cases h
    | cons y ys =>
      obtain ⟨hxy,hrest⟩ := List.cons.inj h
      rw [List.map_cons, List.map_cons, hfg x List.mem_cons_self y List.mem_cons_self hxy,
        ih (fun a ha b hb => hfg a (List.mem_cons_of_mem _ ha) b (List.mem_cons_of_mem _ hb)) hrest]

theorem map_pair_iff {f g : α → κ} {f' g' : α → μ} {xs ys : List α} :
    xs.map (fun x => (f x,f' x)) = ys.map (fun y => (g y,g' y)) ↔
      xs.map f = ys.map g ∧ xs.map f' = ys.map g' := by
  induction xs generalizing ys with
  | nil => cases ys <;> simp
  | cons x xs ih =>
    cases ys with
    | nil => simp
    | cons y ys =>
      simp only [List.map_cons, List.cons.injEq, Prod.mk.injEq, ih]
      tauto

end Maps

end BuildFiji.Grouped
