import Mathlib.Data.List.Nodup

/-!
# Runs

A list falls into runs: an element with those after it that join it. Where joining is an
equivalence, elements next to each other that join are in one run, and in a run of
several every element stands next to one it joins.
-/

set_option autoImplicit false
set_option linter.all false

namespace BuildFiji.Runs

variable {α : Type*} {joins : α → α → Bool}

section Runs

variable (joins)

def runsFrom (head : α) (run : List α) : List α → List (α × List α)
  | [] => [(head,run)]
  | x::xs => if joins head x then runsFrom head (run ++ [x]) xs else (head,run)::runsFrom x [] xs

def runs : List α → List (α × List α)
  | [] => []
  | x::xs => runsFrom joins x [] xs

def members (run : α × List α) : List α := run.1::run.2

end Runs

theorem runsFrom_flatten (head : α) (run xs : List α) :
    (runsFrom joins head run xs).flatMap members = head::run ++ xs := by
  induction xs generalizing head run with
  | nil => simp [runsFrom, members]
  | cons x xs ih =>
    rw [runsFrom]
    split
    · rw [ih]
      simp
    · rw [List.flatMap_cons, ih]
      rfl

theorem runs_flatten (l : List α) : (runs joins l).flatMap members = l := by
  cases l with
  | nil => rfl
  | cons x xs => exact runsFrom_flatten x [] xs

theorem runsFrom_joined {head : α} {run xs : List α} (hrun : ∀ y ∈ run, joins head y = true) :
    ∀ q ∈ runsFrom joins head run xs, ∀ y ∈ q.2, joins q.1 y = true := by
  induction xs generalizing head run with
  | nil =>
    intro q hq
    rw [List.mem_singleton.mp hq]
    exact hrun
  | cons x xs ih =>
    rw [runsFrom]
    split
    · next hx =>
      apply ih
      intro y hy
      rcases List.mem_append.mp hy with hy | hy
      · exact hrun y hy
      · rwa [List.mem_singleton.mp hy]
    · intro q hq
      rcases List.mem_cons.mp hq with rfl | hq
      · exact hrun
      · exact ih (fun _ h => absurd h List.not_mem_nil) q hq

theorem runs_joined {l : List α} {q : α × List α} (hq : q ∈ runs joins l) :
    ∀ y ∈ q.2, joins q.1 y = true := by
  cases l with
  | nil => cases hq
  | cons x xs => exact runsFrom_joined (fun _ h => absurd h List.not_mem_nil) q hq

theorem pair_infix_append {x y : α} {a b : List α} (h : [x,y] <:+: a ++ b) :
    [x,y] <:+: a ∨ [x,y] <:+: b ∨ a.getLast? = some x ∧ b.head? = some y := by
  induction a with
  | nil => exact Or.inr (Or.inl h)
  | cons z a ih =>
    rw [List.cons_append, List.infix_cons_iff] at h
    rcases h with h | h
    · cases a with
      | nil =>
        rw [List.nil_append, List.cons_prefix_cons] at h
        obtain ⟨rfl,t,rfl⟩ := h
        exact Or.inr (Or.inr ⟨rfl,rfl⟩)
      | cons w a =>
        rw [List.cons_append, List.cons_prefix_cons, List.cons_prefix_cons] at h
        obtain ⟨rfl,rfl,-⟩ := h
        exact Or.inl ⟨[],a,rfl⟩
    · rcases ih h with h | h | ⟨hlast,hhead⟩
      · exact Or.inl (h.trans (List.suffix_cons z a).isInfix)
      · exact Or.inr (Or.inl h)
      · refine Or.inr (Or.inr ⟨?_,hhead⟩)
        rw [List.getLast?_cons, hlast]
        rfl

section Equivalence

variable (symm : ∀ x y, joins x y = true → joins y x = true)
variable (trans : ∀ x y z, joins x y = true → joins y z = true → joins x z = true)

include trans in
theorem runsFrom_adjacent {head : α} {run xs : List α} (hrun : ∀ z ∈ run, joins head z = true) {x y : α}
    (hadj : [x,y] <:+: head::run ++ xs) (hxy : joins x y = true) :
    ∃ q ∈ runsFrom joins head run xs, q.2 ≠ [] ∧ x ∈ members q ∧ y ∈ members q := by
  have hshort : ∀ rest : List α, [x,y] <:+: head::rest → rest ≠ [] := by
    rintro rest hsub rfl
    have hlen := hsub.length_le
    exact absurd hlen (by simp)
  induction xs generalizing head run with
  | nil =>
    rw [List.append_nil] at hadj
    exact ⟨(head,run),List.mem_singleton_self _,hshort run hadj,hadj.mem (by simp),hadj.mem (by simp)⟩
  | cons w ws ih =>
    rw [runsFrom]
    split
    · next hw =>
      apply ih
      · intro z hz
        rcases List.mem_append.mp hz with hz | hz
        · exact hrun z hz
        · rwa [List.mem_singleton.mp hz]
      · simpa using hadj
      · exact hshort
    · next hw =>
      rcases pair_infix_append hadj with hadj | hadj | ⟨hlast,hhead⟩
      · exact ⟨(head,run),List.mem_cons_self,hshort run hadj,hadj.mem (by simp),hadj.mem (by simp)⟩
      · have hnext : ∀ rest : List α, [x,y] <:+: w::rest → rest ≠ [] := by
          rintro rest hsub rfl
          exact absurd hsub.length_le (by simp)
        obtain ⟨q,hq,hne,hboth⟩ := ih (fun _ h => absurd h List.not_mem_nil) hadj hnext
        exact ⟨q,List.mem_cons_of_mem _ hq,hne,hboth⟩
      · cases hhead
        have hx := List.mem_of_getLast? hlast
        rcases List.mem_cons.mp hx with rfl | hx
        · exact absurd hxy hw
        · exact absurd (trans _ _ _ (hrun x hx) hxy) hw

include trans in
/-- Neighbours that join are in one run. -/
theorem runs_adjacent {l : List α} {x y : α} (hadj : [x,y] <:+: l) (hxy : joins x y = true) :
    ∃ q ∈ runs joins l, q.2 ≠ [] ∧ x ∈ members q ∧ y ∈ members q := by
  cases l with
  | nil => exact absurd hadj.length_le (by simp)
  | cons z l => exact runsFrom_adjacent trans (fun _ h => absurd h List.not_mem_nil) hadj hxy

include symm trans in
/-- In a run of several every element stands next to one it joins. -/
theorem adjacent_of_run {l : List α} {q : α × List α} (hq : q ∈ runs joins l) (hne : q.2 ≠ []) {x : α}
    (hx : x ∈ members q) : ∃ y, joins x y = true ∧ ([x,y] <:+: l ∨ [y,x] <:+: l) := by
  have hsub : members q <:+: l := by
    obtain ⟨a,b,hab⟩ := List.append_of_mem hq
    have hflat : (runs joins l).flatMap members = l := runs_flatten l
    rw [hab, List.flatMap_append, List.flatMap_cons, ← List.append_assoc] at hflat
    exact ⟨_,_,hflat⟩
  have hjoined := runs_joined hq
  rcases List.mem_cons.mp hx with rfl | hx
  · cases hrest : q.2 with
    | nil => exact absurd hrest hne
    | cons y rest =>
      refine ⟨y,hjoined y (by rw [hrest]; exact List.mem_cons_self),Or.inl (List.IsInfix.trans ?_ hsub)⟩
      rw [members, hrest]
      exact ⟨[],rest,rfl⟩
  · obtain ⟨a,b,hab⟩ := List.append_of_mem hx
    rcases List.eq_nil_or_concat (q.1::a) with hnil | ⟨a',z,haz⟩
    · cases hnil
    · rw [List.concat_eq_append] at haz
      have hz : joins q.1 z = true ∨ z = q.1 := by
        have hmem : z ∈ q.1::a := by rw [haz]; simp
        rcases List.mem_cons.mp hmem with rfl | hmem
        · exact Or.inr rfl
        · exact Or.inl (hjoined z (by rw [hab]; exact List.mem_append_left _ hmem))
      have hx' := symm _ _ (hjoined x hx)
      refine ⟨z,?_,Or.inr (List.IsInfix.trans ⟨a',b,?_⟩ hsub)⟩
      · rcases hz with hz | rfl
        · exact trans _ _ _ hx' hz
        · exact hx'
      · rw [members, hab, ← List.cons_append, haz]
        simp

end Equivalence

/-- An element of a list without repeats is in one run. -/
theorem run_unique {l : List α} (hn : l.Nodup) {q q' : α × List α} (hq : q ∈ runs joins l)
    (hq' : q' ∈ runs joins l) {x : α} (hx : x ∈ members q) (hx' : x ∈ members q') : q = q' := by
  have hflat : (runs joins l).flatMap members = l := runs_flatten l
  rw [← hflat] at hn
  generalize runs joins l = rs at hq hq' hn
  clear hflat
  induction rs with
  | nil => cases hq
  | cons r rs ih =>
    rw [List.flatMap_cons, List.nodup_append] at hn
    obtain ⟨-,hrest,hapart⟩ := hn
    rcases List.mem_cons.mp hq with rfl | hin
    · rcases List.mem_cons.mp hq' with rfl | hq'
      · rfl
      · exact absurd rfl (hapart x hx x (List.mem_flatMap.mpr ⟨q',hq',hx'⟩))
    · rcases List.mem_cons.mp hq' with rfl | hmem
      · exact absurd rfl (hapart x hx' x (List.mem_flatMap.mpr ⟨q,hin,hx⟩))
      · exact ih hin hmem hrest

theorem mem_run {l : List α} {x : α} (hx : x ∈ l) : ∃ q ∈ runs joins l, x ∈ members q := by
  have hflat : (runs joins l).flatMap members = l := runs_flatten l
  rw [← hflat] at hx
  exact List.mem_flatMap.mp hx

end BuildFiji.Runs
