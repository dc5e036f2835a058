import BuildFiji.Lib.Digraph
import Mathlib.Data.List.Chain

/-!
# Along simple paths

A depth-first walk that turns back only at what is on its own path goes along every simple
path. It comes to all that can be reached, and it never turns back exactly if nothing that can
be reached is on a cycle.
-/

set_option autoImplicit false
set_option linter.all false

namespace BuildFiji.SimplePaths

open Relation

variable {α : Type*} {edge : α → α → Prop} {s t r : α} {path path' path'' : List α}

/-- From `s`, with `path` behind, the walk comes to `t` with `path'` behind. -/
inductive Along (edge : α → α → Prop) : List α → α → List α → α → Prop where
  | here {path : List α} {s : α} : Along edge path s path s
  | step {path path' : List α} {s c t : α} : edge s c → c ∉ path →
      Along edge (path ++ [c]) c path' t → Along edge path s path' t

section Along

theorem Along.trans (h : Along edge path s path' t) (k : Along edge path' t path'' r) :
    Along edge path s path'' r := by
  induction h with
  | here => exact k
  | step he hc _ ih => exact .step he hc (ih k)

theorem Along.reached (h : Along edge path s path' t) : ReflTransGen edge s t := by
  induction h with
  | here => exact .refl
  | step he _ _ ih => exact .head he ih

theorem Along.end_mem (h : Along edge path s path' t) (hs : s ∈ path) : t ∈ path' := by
  induction h with
  | here => exact hs
  | step _ _ _ ih => exact ih (List.mem_append_right _ List.mem_cons_self)

/-- All that is behind leads to where the walk is. -/
theorem Along.leads (h : Along edge path s path' t) (hs : ∀ x ∈ path, ReflTransGen edge x s) :
    ∀ x ∈ path', ReflTransGen edge x t := by
  induction h with
  | here => exact hs
  | step he _ _ ih =>
    refine ih fun x hx => ?_
    rcases List.mem_append.mp hx with hx | hx
    · exact (hs x hx).tail he
    · rw [List.mem_singleton.mp hx]

theorem Along.from_root (h : Along edge path s path' t) (hs : s ∈ path)
    (hroot : ∀ x ∈ path, ReflTransGen edge r x) : ∀ x ∈ path', ReflTransGen edge r x := by
  induction h with
  | here => exact hroot
  | step he _ _ ih =>
    refine ih (List.mem_append_right _ List.mem_cons_self) fun x hx => ?_
    rcases List.mem_append.mp hx with hx | hx
    · exact hroot x hx
    · rw [List.mem_singleton.mp hx]
      exact (hroot _ hs).tail he

end Along

section Reached

theorem last_occurrence [DecidableEq α] {c : α} {l : List α} (h : c ∈ l) :
    ∃ before later, l = before ++ c::later ∧ c ∉ later := by
  obtain ⟨later,before,heq,hno⟩ := List.eq_append_cons_of_mem (List.mem_reverse.mpr h)
  refine ⟨before.reverse,later.reverse,?_,fun hc => hno (List.mem_reverse.mp hc)⟩
  rw [← List.reverse_reverse l, heq]
  simp

/-- A chain can be cut to one that does not come back to where it begins. -/
theorem cut_chain [DecidableEq α] {l : List α} (h : List.IsChain edge (s::l)) : ∃ l', l'.Sublist l ∧
    List.IsChain edge (s::l') ∧ s ∉ l' ∧
      (s::l').getLast (List.cons_ne_nil _ _) = (s::l).getLast (List.cons_ne_nil _ _) := by
  by_cases hs : s ∈ l
  · obtain ⟨before,later,rfl,hno⟩ := last_occurrence hs
    refine ⟨later,?_,?_,hno,?_⟩
    · exact (List.sublist_cons_self _ _).trans (List.sublist_append_right _ _)
    · exact (List.isChain_append.mp (List.isChain_cons.mp h).2).2.1
    · exact (List.getLast_append_of_ne_nil (l := s::before) _ (List.cons_ne_nil s later)).symm
  · exact ⟨l,List.Sublist.refl l,h,hs,rfl⟩

theorem along_of_chain [DecidableEq α] (path : List α) (n : ℕ) {l : List α} (hn : l.length ≤ n)
    (h : List.IsChain edge (s::l)) (hpath : ∀ x ∈ l, x ∉ path) :
    ∃ path', Along edge path s path' ((s::l).getLast (List.cons_ne_nil _ _)) := by
  induction n generalizing l s path with
  | zero =>
    rw [List.length_eq_zero_iff.mp (Nat.le_zero.mp hn)]
    exact ⟨path,.here⟩
  | succ n ih =>
    cases l with
    | nil => exact ⟨path,.here⟩
    | cons c l =>
      obtain ⟨he,hchain⟩ := List.isChain_cons_cons.mp h
      obtain ⟨l',hsub,hcut,hc,hlast⟩ := cut_chain hchain
      have hlength : l'.length ≤ n := hsub.length_le.trans (Nat.le_of_succ_le_succ hn)
      obtain ⟨path',hpath'⟩ := @ih c (path ++ [c]) l' hlength hcut (by
        intro x hx hmem
        rcases List.mem_append.mp hmem with hmem | hmem
        · exact hpath x (List.mem_cons_of_mem _ (hsub.subset hx)) hmem
        · exact hc (List.mem_singleton.mp hmem ▸ hx))
      refine ⟨path',.step he (hpath c List.mem_cons_self) ?_⟩
      rw [List.getLast_cons (List.cons_ne_nil _ _), ← hlast]
      exact hpath'

/-- The walk comes to all that can be reached. -/
theorem along_iff : (∃ path', Along edge [s] s path' t) ↔ ReflTransGen edge s t := by
  classical
  constructor
  · rintro ⟨path',h⟩
    exact h.reached
  · intro h
    obtain ⟨l,hchain,hlast⟩ := List.exists_isChain_cons_of_relationReflTransGen h
    obtain ⟨l',-,hcut,hs,hlast'⟩ := cut_chain hchain
    obtain ⟨path',hpath'⟩ := along_of_chain [s] l'.length le_rfl hcut (by
      intro x hx hmem
      exact hs (List.mem_singleton.mp hmem ▸ hx))
    rw [hlast', hlast] at hpath'
    exact ⟨path',hpath'⟩

end Reached

section Acyclic

/-- Where the walk never turns back it follows every chain. -/
theorem along_chain (hno : ∀ path' t, Along edge path s path' t → ∀ c, edge t c → c ∉ path')
    {l : List α} (h : List.IsChain edge (s::l)) :
    Along edge path s (path ++ l) ((s::l).getLast (List.cons_ne_nil _ _)) := by
  induction l generalizing s path with
  | nil =>
    rw [List.append_nil]
    exact .here
  | cons c l ih =>
    obtain ⟨he,hchain⟩ := List.isChain_cons_cons.mp h
    have hc : c ∉ path := hno path s .here c he
    have hrest := @ih c (path ++ [c])
      (fun path' t hpath' => hno path' t (.step he hc hpath')) hchain
    rw [List.append_assoc] at hrest
    rw [List.getLast_cons (List.cons_ne_nil _ _)]
    exact .step he hc hrest

/-- It never turns back exactly if nothing that can be reached is on a cycle. -/
theorem along_acyclic : (∀ path' t, Along edge [s] s path' t → ∀ c, edge t c → c ∉ path') ↔
    ∀ t, ReflTransGen edge s t → ¬ TransGen edge t t := by
  constructor
  · intro hno t hreached hcycle
    obtain ⟨path',hpath'⟩ := along_iff.mpr hreached
    obtain ⟨u,hu,he⟩ := TransGen.tail'_iff.mp hcycle
    obtain ⟨l,hchain,hlast⟩ := List.exists_isChain_cons_of_relationReflTransGen hu
    have hon := along_chain (fun path'' u h => hno path'' u (hpath'.trans h)) hchain
    rw [hlast] at hon
    exact hno _ u (hpath'.trans hon) t he
      (List.mem_append_left _ (hpath'.end_mem List.mem_cons_self))
  · intro hacyclic path' t h c he hc
    have hself : ∀ x ∈ [s], ReflTransGen edge x s ∧ ReflTransGen edge s x := by
      intro x hx
      rw [List.mem_singleton.mp hx]
      exact ⟨.refl,.refl⟩
    have hleads := h.leads fun x hx => (hself x hx).1
    have hroot := h.from_root List.mem_cons_self fun x hx => (hself x hx).2
    exact hacyclic c (hroot c hc) (TransGen.tail' (hleads c hc) he)

end Acyclic

end BuildFiji.SimplePaths
