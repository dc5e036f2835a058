import Mathlib.Data.List.Induction
import Std.Data.ExtTreeMap

/-!
# Merging entries into a map

A later entry for a key replaces an earlier one. What was merged before, less
what is no longer kept, can be merged with the same entries again without
changing anything.
-/

set_option autoImplicit false
set_option linter.all false

namespace BuildFiji.Merged

variable {κ β : Type*} [Ord κ] [Std.TransOrd κ] [Std.LawfulEqOrd κ] [DecidableEq κ]

def merged (entries : List (κ × β)) : Std.ExtTreeMap κ β :=
  entries.foldl (fun map entry => map.insert entry.1 entry.2) ∅

omit [Std.LawfulEqOrd κ] [DecidableEq κ] in
@[simp] theorem merged_nil (k : κ) : (merged ([] : List (κ × β)))[k]? = none := by simp [merged]

theorem merged_concat (l : List (κ × β)) (e : κ × β) (k : κ) :
    (merged (l ++ [e]))[k]? = if e.1 = k then some e.2 else (merged l)[k]? := by
  rw [merged, List.foldl_append, List.foldl_cons, List.foldl_nil, Std.ExtTreeMap.getElem?_insert]
  exact if_congr Std.LawfulEqOrd.compare_eq_iff_eq rfl rfl

theorem merged_append (a b : List (κ × β)) (k : κ) :
    (merged (a ++ b))[k]? = (merged b)[k]?.or (merged a)[k]? := by
  induction b using List.reverseRecOn with
  | nil => simp
  | append_singleton b e ih =>
    rw [← List.append_assoc, merged_concat, merged_concat, ih]
    split
    · rfl
    · rfl

theorem merged_mem {l : List (κ × β)} {k : κ} {v : β} (h : (merged l)[k]? = some v) :
    (k,v) ∈ l := by
  induction l using List.reverseRecOn with
  | nil => simp at h
  | append_singleton l e ih =>
    rw [merged_concat] at h
    rw [List.mem_append, List.mem_singleton]
    split at h
    · next heq =>
      subst heq
      exact .inr (Prod.ext rfl (Option.some.inj h).symm)
    · exact .inl (ih h)

/-- Where no key comes twice, nothing is replaced. -/
theorem merged_distinct {l : List (κ × β)} (h : l.Pairwise fun a b => a.1 ≠ b.1) (k : κ) (v : β) :
    (merged l)[k]? = some v ↔ (k,v) ∈ l := by
  induction l using List.reverseRecOn with
  | nil => simp
  | append_singleton l e ih =>
    obtain ⟨hl,-,hne⟩ := List.pairwise_append.mp h
    obtain ⟨k',v'⟩ := e
    rw [merged_concat, List.mem_append, List.mem_singleton, Prod.mk.injEq]
    split
    · next heq =>
      subst heq
      constructor
      · intro hv
        exact .inr ⟨rfl,(Option.some.inj hv).symm⟩
      · rintro (hmem | ⟨-,rfl⟩)
        · exact absurd rfl (hne _ hmem (k',v') (List.mem_singleton.mpr rfl))
        · rfl
    · next hkey =>
      rw [ih hl]
      exact ⟨.inl,fun hor => hor.resolve_right fun hand => hkey hand.1.symm⟩

omit [DecidableEq κ] in
theorem toList_distinct (m : Std.ExtTreeMap κ β) : m.toList.Pairwise fun a b => a.1 ≠ b.1 :=
  m.distinct_keys_toList.imp fun hne heq => hne (Std.LawfulEqOrd.compare_eq_iff_eq.mpr heq)

omit [Ord κ] [Std.TransOrd κ] [Std.LawfulEqOrd κ] in
theorem filter_key {l : List (κ × β)} (h : l.Pairwise fun a b => a.1 ≠ b.1) {k : κ} {v : β}
    (hmem : (k,v) ∈ l) : l.filter (fun e => e.1 = k) = [(k,v)] := by
  induction l with
  | nil => cases hmem
  | cons e l ih =>
    obtain ⟨hhead,hl⟩ := List.pairwise_cons.mp h
    rcases List.mem_cons.mp hmem with rfl | hmem
    · rw [List.filter_cons_of_pos (by simp), List.filter_eq_nil_iff.mpr]
      intro f hf heq
      exact hhead f hf (of_decide_eq_true heq).symm
    · rw [List.filter_cons_of_neg, ih hl hmem]
      intro heq
      exact hhead _ hmem (of_decide_eq_true heq)

/-- What a map has for one key, as its only entry. -/
theorem toList_filter_key (m : Std.ExtTreeMap κ β) (k : κ) :
    m.toList.filter (fun e => e.1 = k) = (m[k]?.map fun v => (k,v)).toList := by
  cases hk : m[k]? with
  | some v =>
    exact filter_key (toList_distinct m) (Std.ExtTreeMap.mem_toList_iff_getElem?_eq_some.mpr hk)
  | none =>
    refine List.filter_eq_nil_iff.mpr fun e he heq => ?_
    have hget := Std.ExtTreeMap.mem_toList_iff_getElem?_eq_some.mp (show (e.1,e.2) ∈ m.toList from he)
    rw [of_decide_eq_true heq, hk] at hget
    cases hget

theorem merged_kept (m : Std.ExtTreeMap κ β) (keep : κ → Bool) (k : κ) :
    (merged (m.toList.filter fun e => keep e.1))[k]? = if keep k then m[k]? else none := by
  refine Option.ext fun v => ?_
  rw [merged_distinct ((toList_distinct m).filter _), List.mem_filter,
    Std.ExtTreeMap.mem_toList_iff_getElem?_eq_some]
  split
  · next hk => exact ⟨fun h => h.1,fun h => ⟨h,hk⟩⟩
  · next hk => exact ⟨fun h => absurd h.2 hk,nofun⟩

theorem merged_toList (m : Std.ExtTreeMap κ β) : merged m.toList = m := by
  refine Std.ExtTreeMap.ext_getElem? fun k => ?_
  have h := merged_kept m (fun _ => true) k
  rwa [List.filter_eq_self.mpr fun _ _ => rfl, if_pos rfl] at h

theorem merged_of_keys {l : List (κ × β)} {keep : κ → Bool} (h : ∀ e ∈ l, keep e.1 = true) {k : κ}
    (hk : keep k = false) : (merged l)[k]? = none := by
  induction l using List.reverseRecOn with
  | nil => simp
  | append_singleton l e ih =>
    rw [merged_concat, ih fun e he => h e (List.mem_append_left _ he), if_neg]
    rintro rfl
    rw [h e (by simp)] at hk
    cases hk

/-- Merging the same entries again changes nothing. -/
theorem merged_again {a b : List (κ × β)} {keep : κ → Bool} (h : ∀ e ∈ a, keep e.1 = true) :
    merged (((merged (a ++ b)).toList.filter fun e => keep e.1) ++ b) = merged (a ++ b) := by
  refine Std.ExtTreeMap.ext_getElem? fun k => ?_
  rw [merged_append, merged_kept, merged_append]
  cases hb : (merged b)[k]? with
  | some v => rfl
  | none =>
    split
    · rfl
    · next hk => rw [merged_of_keys h (Bool.eq_false_iff.mpr hk)]

end BuildFiji.Merged
