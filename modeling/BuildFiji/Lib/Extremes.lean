import Mathlib.Data.List.Induction
import Mathlib.Data.Nat.Notation

/-!
# First, last and greatest

Where an element of a list stands that is the first or the last of its kind, or the
last of those whose key is the greatest.
-/

set_option autoImplicit false
set_option linter.all false

namespace BuildFiji.Extremes

variable {α β : Type*}

section Greatest

variable (key : α → ℕ)

/-- Of two with one key the later. -/
def maxByKey : List α → Option α
  | [] => none
  | a::as => some (as.foldl (fun x y => if key y < key x then x else y) a)

theorem foldl_greatest (as : List α) (a : α) : ∃ before m after, a::as = before ++ m::after ∧
    as.foldl (fun x y => if key y < key x then x else y) a = m ∧
    (∀ x ∈ before, key x ≤ key m) ∧ ∀ x ∈ after, key x < key m := by
  induction as using List.reverseRecOn with
  | nil => exact ⟨[],a,[],rfl,rfl,nofun,nofun⟩
  | append_singleton as y ih =>
    obtain ⟨before,m,after,hlist,hfold,hbefore,hafter⟩ := ih
    rw [List.foldl_append, hfold, List.foldl_cons, List.foldl_nil, ← List.cons_append, hlist]
    by_cases hlt : key y < key m
    · refine ⟨before,m,after ++ [y],by simp,if_pos hlt,hbefore,?_⟩
      intro x hx
      rcases List.mem_append.mp hx with hx | hx
      · exact hafter x hx
      · rwa [List.mem_singleton.mp hx]
    · refine ⟨before ++ m::after,y,[],rfl,if_neg hlt,?_,nofun⟩
      intro x hx
      have hle : key m ≤ key y := Nat.le_of_not_lt hlt
      rcases List.mem_append.mp hx with hx | hx
      · exact Nat.le_trans (hbefore x hx) hle
      · rcases List.mem_cons.mp hx with rfl | hx
        · exact hle
        · exact Nat.le_trans (Nat.le_of_lt (hafter x hx)) hle

variable {key}

theorem maxByKey_none {l : List α} : maxByKey key l = none ↔ l = [] := by
  cases l with
  | nil => exact iff_of_true rfl rfl
  | cons a as => exact iff_of_false nofun nofun

theorem maxByKey_some {l : List α} {m : α} (h : maxByKey key l = some m) :
    ∃ before after, l = before ++ m::after ∧ (∀ x ∈ before, key x ≤ key m) ∧
      ∀ x ∈ after, key x < key m := by
  cases l with
  | nil => cases h
  | cons a as =>
    obtain ⟨before,m',after,hlist,hfold,hbefore,hafter⟩ := foldl_greatest key as a
    obtain rfl : m' = m := hfold.symm.trans (Option.some.inj h)
    exact ⟨before,after,hlist,hbefore,hafter⟩

/-- Where the greatest image comes from. -/
theorem maxByKey_filterMap {f : β → Option α} {l : List β} {m : α}
    (h : maxByKey key (l.filterMap f) = some m) : ∃ before x after, l = before ++ x::after ∧ f x = some m ∧
      (∀ y ∈ before, ∀ n, f y = some n → key n ≤ key m) ∧
      ∀ y ∈ after, ∀ n, f y = some n → key n < key m := by
  obtain ⟨before,after,hlist,hbefore,hafter⟩ := maxByKey_some h
  obtain ⟨l1,l2,rfl,rfl,hl2⟩ := List.filterMap_eq_append_iff.mp hlist
  obtain ⟨skipped,x,l3,rfl,hskipped,hx,rfl⟩ := List.filterMap_eq_cons_iff.mp hl2
  refine ⟨l1 ++ skipped,x,l3,by rw [List.append_assoc],hx,?_,?_⟩
  · intro y hy n hn
    rcases List.mem_append.mp hy with hy | hy
    · exact hbefore n (List.mem_filterMap.mpr ⟨y,hy,hn⟩)
    · rw [hskipped y hy] at hn
      cases hn
  · exact fun y hy n hn => hafter n (List.mem_filterMap.mpr ⟨y,hy,hn⟩)

end Greatest

section Kinds

variable (l : List α) (q : α → Prop)

def IsFirst (x : α) : Prop := ∃ before after, l = before ++ x::after ∧ q x ∧ ∀ y ∈ before, ¬q y

def IsLast (x : α) : Prop := ∃ before after, l = before ++ x::after ∧ q x ∧ ∀ y ∈ after, ¬q y

variable {l q}

theorem IsLast.mem {x : α} (h : IsLast l q x) : x ∈ l ∧ q x := by
  obtain ⟨before,after,rfl,hq,-⟩ := h
  exact ⟨List.mem_append_right _ List.mem_cons_self,hq⟩

theorem IsFirst.mem {x : α} (h : IsFirst l q x) : x ∈ l ∧ q x := by
  obtain ⟨before,after,rfl,hq,-⟩ := h
  exact ⟨List.mem_append_right _ List.mem_cons_self,hq⟩

theorem isLast_reverse {x : α} : IsLast l q x ↔ IsFirst l.reverse q x := by
  constructor
  · rintro ⟨before,after,rfl,hq,hafter⟩
    exact ⟨after.reverse,before.reverse,by simp,hq,fun y hy => hafter y (List.mem_reverse.mp hy)⟩
  · rintro ⟨before,after,hlist,hq,hbefore⟩
    refine ⟨after.reverse,before.reverse,?_,hq,fun y hy => hbefore y (List.mem_reverse.mp hy)⟩
    rw [← List.reverse_reverse l, hlist]
    simp

theorem IsFirst.unique {x y : α} (hx : IsFirst l q x) (hy : IsFirst l q y) : x = y := by
  obtain ⟨before,after,rfl,hqx,hbefore⟩ := hx
  obtain ⟨before',after',hlist,hqy,hbefore'⟩ := hy
  induction before generalizing before' with
  | nil =>
    cases before' with
    | nil => exact (List.cons.inj hlist).1
    | cons z before' =>
      obtain ⟨rfl,-⟩ := List.cons.inj hlist
      exact absurd hqx (hbefore' x List.mem_cons_self)
  | cons z before ih =>
    cases before' with
    | nil =>
      obtain ⟨rfl,-⟩ := List.cons.inj hlist
      exact absurd hqy (hbefore z List.mem_cons_self)
    | cons z' before' =>
      obtain ⟨-,hlist⟩ := List.cons.inj hlist
      exact ih (fun w hw => hbefore w (List.mem_cons_of_mem _ hw)) before' hlist
        (fun w hw => hbefore' w (List.mem_cons_of_mem _ hw))

theorem IsLast.unique {x y : α} (hx : IsLast l q x) (hy : IsLast l q y) : x = y :=
  (isLast_reverse.mp hx).unique (isLast_reverse.mp hy)

theorem exists_isFirst {x : α} (hx : x ∈ l) (hq : q x) : ∃ y, IsFirst l q y := by
  induction l with
  | nil => cases hx
  | cons z l ih =>
    by_cases hz : q z
    · exact ⟨z,[],l,rfl,hz,nofun⟩
    · rcases List.mem_cons.mp hx with rfl | hx
      · exact absurd hq hz
      · obtain ⟨y,before,after,rfl,hy,hbefore⟩ := ih hx
        refine ⟨y,z::before,after,rfl,hy,?_⟩
        intro w hw
        rcases List.mem_cons.mp hw with rfl | hw
        · exact hz
        · exact hbefore w hw

theorem exists_isLast {x : α} (hx : x ∈ l) (hq : q x) : ∃ y, IsLast l q y := by
  obtain ⟨y,hy⟩ := exists_isFirst (List.mem_reverse.mpr hx) hq
  exact ⟨y,isLast_reverse.mpr hy⟩

/-- Searched for from the end. -/
theorem find?_reverse {p : α → Bool} {x : α} : l.reverse.find? p = some x ↔ IsLast l (fun y => p y = true) x := by
  rw [isLast_reverse, List.find?_eq_some_iff_append, IsFirst]
  simp only [Bool.not_eq_true', Bool.not_eq_true]
  constructor
  · rintro ⟨hp,before,after,hlist,hbefore⟩
    exact ⟨before,after,hlist,hp,hbefore⟩
  · rintro ⟨before,after,hlist,hp,hbefore⟩
    exact ⟨hp,before,after,hlist,hbefore⟩

end Kinds

end BuildFiji.Extremes
