import Mathlib.Data.List.Basic
import Mathlib.Logic.Function.Basic
import Mathlib.Logic.Relation

/-!
# Work that is shared by those who wait for it

A node holds a value or is being worked out by a numbered piece of work. A piece of work
counts those who wait for it; one who leaves gives up the count first and looks at the
node after, and the last to leave puts back what the node held before, unless somebody
has come or the work is done in between. What is put in place by work that was given up
is not looked at here: a step takes none of it.
-/

set_option autoImplicit false
set_option linter.all false

namespace BuildFiji.SharedWork

open Relation

variable {K S : Type*}

inductive Held (S : Type*) where
  | value (v : S)
  | running (j : ℕ)

structure Work (K S : Type*) where
  key : K
  previous : S
  dirty : Bool
  waiters : ℕ
  aborted : Bool
  stored : Bool

/-- How many wait for a piece of work at a node, and how many have given up their count
and not looked at the node yet. -/
structure State (K S : Type*) where
  nodes : K → Option (Held S × Bool)
  works : List (Work K S)
  waiting : ℕ → K → ℕ
  leaving : ℕ → K → ℕ

def one [DecidableEq K] (j : ℕ) (k : K) (j' : ℕ) (k' : K) : ℕ := if j' = j ∧ k' = k then 1 else 0

theorem one_self [DecidableEq K] (j : ℕ) (k : K) : one j k j k = 1 := if_pos ⟨rfl,rfl⟩

section Moves
variable [DecidableEq K]

inductive Move (s t : State K S) : Prop where
  | still (hn : t.nodes = s.nodes) (hs : t.works = s.works) (hw : t.waiting = s.waiting)
      (hl : t.leaving = s.leaving)
  | enter (k : K) (v : S) (hk : s.nodes k = none)
      (hn : t.nodes = Function.update s.nodes k (some (.value v,false))) (hs : t.works = s.works)
      (hw : t.waiting = s.waiting) (hl : t.leaving = s.leaving)
  | mark (k : K) (held : Held S) (dirty : Bool) (hk : s.nodes k = some (held,dirty))
      (hn : t.nodes = Function.update s.nodes k (some (held,true))) (hs : t.works = s.works)
      (hw : t.waiting = s.waiting) (hl : t.leaving = s.leaving)
  | begin (k : K) (v : S) (dirty : Bool) (hk : s.nodes k = some (.value v,dirty))
      (hn : t.nodes = Function.update s.nodes k (some (.running s.works.length,false)))
      (hs : t.works = s.works ++ [⟨k,v,dirty,1,false,false⟩])
      (hw : ∀ j k', t.waiting j k' = s.waiting j k'+one s.works.length k j k')
      (hl : t.leaving = s.leaving)
  | join (j : ℕ) (k : K) (dirty : Bool) (w : Work K S) (hk : s.nodes k = some (.running j,dirty))
      (hj : s.works[j]? = some w) (hn : t.nodes = s.nodes)
      (hs : t.works = s.works.set j { w with waiters := w.waiters+1 })
      (hw : ∀ j' k', t.waiting j' k' = s.waiting j' k'+one j k j' k')
      (hl : t.leaving = s.leaving)
  | leave (j : ℕ) (k : K) (w : Work K S) (hj : s.works[j]? = some w) (hone : w.waiters ≠ 1)
      (hn : t.nodes = s.nodes) (hs : t.works = s.works.set j { w with waiters := w.waiters-1 })
      (hw : ∀ j' k', t.waiting j' k'+one j k j' k' = s.waiting j' k')
      (hl : t.leaving = s.leaving)
  | leaveLast (j : ℕ) (k : K) (w : Work K S) (hj : s.works[j]? = some w) (hone : w.waiters = 1)
      (hn : t.nodes = s.nodes) (hs : t.works = s.works.set j { w with waiters := w.waiters-1 })
      (hw : ∀ j' k', t.waiting j' k'+one j k j' k' = s.waiting j' k')
      (hl : ∀ j' k', t.leaving j' k' = s.leaving j' k'+one j k j' k')
  | stay (j : ℕ) (k : K)
      (hno : ∀ dirty w, s.nodes k = some (.running j,dirty) → s.works[j]? = some w → w.waiters ≠ 0)
      (hn : t.nodes = s.nodes) (hs : t.works = s.works) (hw : t.waiting = s.waiting)
      (hl : ∀ j' k', t.leaving j' k'+one j k j' k' = s.leaving j' k')
  | goBack (j : ℕ) (k : K) (dirty : Bool) (w : Work K S) (hk : s.nodes k = some (.running j,dirty))
      (hj : s.works[j]? = some w) (hzero : w.waiters = 0)
      (hn : t.nodes = Function.update s.nodes k (some (.value w.previous,dirty || w.dirty)))
      (hs : t.works = s.works.set j { w with aborted := true }) (hw : t.waiting = s.waiting)
      (hl : ∀ j' k', t.leaving j' k'+one j k j' k' = s.leaving j' k')
  | store (j : ℕ) (w : Work K S) (v : S) (held : Held S) (dirty : Bool)
      (hj : s.works[j]? = some w) (ha : w.aborted = false) (hnew : w.stored = false)
      (hk : s.nodes w.key = some (held,dirty))
      (hn : t.nodes = Function.update s.nodes w.key (some (.value v,dirty)))
      (hs : t.works = s.works.set j { w with stored := true })
      (hw : t.waiting = s.waiting) (hl : t.leaving = s.leaving)

end Moves

/-- Nothing was begun at the node after the piece of work. -/
def Newest (s : State K S) (j : ℕ) (k : K) : Prop :=
  ∀ (j' : ℕ) (w : Work K S), j < j' → s.works[j']? = some w → w.key ≠ k

structure Sound (s : State K S) : Prop where
  counts : ∀ (j : ℕ) (w : Work K S), s.works[j]? = some w → w.waiters = s.waiting j w.key
  keys : ∀ j k, 0 < s.waiting j k+s.leaving j k → ∃ w : Work K S, s.works[j]? = some w ∧ w.key = k
  running : ∀ k j dirty, s.nodes k = some (.running j,dirty) → ∃ w : Work K S, s.works[j]? = some w ∧
    w.key = k ∧ w.aborted = false ∧ w.stored = false ∧ 0 < w.waiters+s.leaving j k
  live : ∀ (j : ℕ) (w : Work K S), s.works[j]? = some w → w.aborted = false → w.stored = false →
    ∃ dirty, s.nodes w.key = some (.running j,dirty)
  ended : ∀ (j : ℕ) (w : Work K S), s.works[j]? = some w → w.aborted = true → w.waiters = 0 ∧ w.stored = false
  back : ∀ (j : ℕ) (w : Work K S), s.works[j]? = some w → w.aborted = true → Newest s j w.key →
    ∃ dirty, s.nodes w.key = some (.value w.previous,dirty) ∧ (w.dirty = true → dirty = true)

theorem Sound.empty : Sound (⟨fun _ => none,[],fun _ _ => 0,fun _ _ => 0⟩ : State K S) where
  counts _ _ h := by cases h
  keys _ _ h := by cases h
  running _ _ _ h := by cases h
  live _ _ h := by cases h
  ended _ _ h := by cases h
  back _ _ h := by cases h

section Frame

variable {s t : State K S} {j : ℕ} {w w' : Work K S}

theorem set_some {works : List (Work K S)} (hj : works[j]? = some w) {j' : ℕ} {x : Work K S} :
    (works.set j w')[j']? = some x ↔ j' = j ∧ x = w' ∨ j' ≠ j ∧ works[j']? = some x := by
  obtain ⟨hlt,-⟩ := List.getElem?_eq_some_iff.mp hj
  by_cases h : j' = j
  · subst h
    simp [hlt, eq_comm]
  · simp [List.getElem?_set_ne (Ne.symm h), h]

theorem append_some {works : List (Work K S)} {j' : ℕ} {x : Work K S} :
    (works ++ [w])[j']? = some x ↔ works[j']? = some x ∨ j' = works.length ∧ x = w := by
  rw [List.getElem?_append]
  split
  · next hlt =>
    have hne : j' ≠ works.length := by omega
    simp [hne]
  · next hge =>
    have hnone : works[j']? = none := List.getElem?_eq_none (by omega)
    rw [hnone, List.getElem?_singleton]
    split
    · next h0 =>
      have heq : j' = works.length := by omega
      simp [heq, eq_comm]
    · next h0 =>
      have hne : j' ≠ works.length := by omega
      simp [hne]

/-- What was begun stays what it was. -/
def Keeps (s t : State K S) : Prop :=
  ∀ (j : ℕ) (w : Work K S), s.works[j]? = some w → ∃ w' : Work K S, t.works[j]? = some w' ∧ w'.key = w.key ∧
    w'.previous = w.previous ∧ w'.dirty = w.dirty

theorem Keeps.refl (s : State K S) : Keeps s s := fun _ w h => ⟨w,h,rfl,rfl,rfl⟩

theorem Keeps.trans {u : State K S} (h : Keeps s t) (h' : Keeps t u) : Keeps s u := by
  intro j w hj
  obtain ⟨w',hj',h1,h2,h3⟩ := h j w hj
  obtain ⟨x,hx,h1',h2',h3'⟩ := h' j w' hj'
  exact ⟨x,hx,h1'.trans h1,h2'.trans h2,h3'.trans h3⟩

theorem Keeps.same (h : t.works = s.works) : Keeps s t := fun _ w hj => ⟨w,h ▸ hj,rfl,rfl,rfl⟩

theorem Keeps.set (hj : s.works[j]? = some w) (h : t.works = s.works.set j w') (hkey : w'.key = w.key)
    (hp : w'.previous = w.previous) (hd : w'.dirty = w.dirty) : Keeps s t := by
  intro j' x hx
  by_cases heq : j' = j
  · subst heq
    cases hj.symm.trans hx
    exact ⟨w',by rw [h]; exact (set_some hj).mpr (.inl ⟨rfl,rfl⟩),hkey,hp,hd⟩
  · exact ⟨x,by rw [h]; exact (set_some hj).mpr (.inr ⟨heq,hx⟩),rfl,rfl,rfl⟩

theorem Newest.of_keeps {k : K} (hk : Keeps s t) (h : Newest t j k) : Newest s j k := by
  intro j' w hlt hj
  obtain ⟨w',hj',hkey,-⟩ := hk j' w hj
  exact hkey ▸ h j' w' hlt hj'

variable [DecidableEq K]

theorem Move.keeps (h : Move s t) : Keeps s t := by
  cases h with
  | still hn hs hw hl => exact .same hs
  | enter k v hk hn hs hw hl => exact .same hs
  | mark k held dirty hk hn hs hw hl => exact .same hs
  | begin k v dirty hk hn hs hw hl =>
    intro j w hj
    exact ⟨w,by rw [hs]; exact append_some.mpr (.inl hj),rfl,rfl,rfl⟩
  | join j k dirty w hk hj hn hs hw hl => exact .set hj hs rfl rfl rfl
  | leave j k w hj hone hn hs hw hl => exact .set hj hs rfl rfl rfl
  | leaveLast j k w hj hone hn hs hw hl => exact .set hj hs rfl rfl rfl
  | stay j k hno hn hs hw hl => exact .same hs
  | goBack j k dirty w hk hj hzero hn hs hw hl => exact .set hj hs rfl rfl rfl
  | store j w v held dirty hj ha hnew hk hn hs hw hl => exact .set hj hs rfl rfl rfl

/-- A node that is marked stays so until work is begun at it. -/
theorem Move.marked {k : K} {held : Held S} (h : Move s t) (hk : s.nodes k = some (held,true)) :
    (∃ held', t.nodes k = some (held',true)) ∨
      ∃ w, t.works = s.works ++ [w] ∧ w.key = k := by
  have hsame : ∀ {k' : K} {x : Option (Held S × Bool)}, t.nodes = Function.update s.nodes k' x →
      k ≠ k' → ∃ held', t.nodes k = some (held',true) := by
    intro k' x hn hne
    rw [hn, Function.update_of_ne hne]
    exact ⟨held,hk⟩
  cases h with
  | still hn hs hw hl => exact .inl ⟨held,hn ▸ hk⟩
  | enter k' v hk' hn hs hw hl =>
    refine .inl (hsame hn ?_)
    rintro rfl
    cases hk.symm.trans hk'
  | mark k' held' dirty hk' hn hs hw hl =>
    by_cases heq : k = k'
    · subst heq
      exact .inl ⟨held',by rw [hn, Function.update_self]⟩
    · exact .inl (hsame hn heq)
  | begin k' v dirty hk' hn hs hw hl =>
    by_cases heq : k = k'
    · exact .inr ⟨_,hs,heq.symm⟩
    · exact .inl (hsame hn heq)
  | join j k' dirty w hk' hj hn hs hw hl => exact .inl ⟨held,hn ▸ hk⟩
  | leave j k' w hj hone hn hs hw hl => exact .inl ⟨held,hn ▸ hk⟩
  | leaveLast j k' w hj hone hn hs hw hl => exact .inl ⟨held,hn ▸ hk⟩
  | stay j k' hno hn hs hw hl => exact .inl ⟨held,hn ▸ hk⟩
  | goBack j k' dirty w hk' hj hzero hn hs hw hl =>
    by_cases heq : k = k'
    · subst heq
      cases hk.symm.trans hk'
      exact .inl ⟨_,by rw [hn, Function.update_self, Bool.true_or]⟩
    · exact .inl (hsame hn heq)
  | store j w v held' dirty hj ha hnew hk' hn hs hw hl =>
    by_cases heq : k = w.key
    · subst heq
      cases hk.symm.trans hk'
      exact .inl ⟨_,by rw [hn, Function.update_self]⟩
    · exact .inl (hsame hn heq)

end Frame

section Preserved

variable {s t : State K S}

/-- One who waits, or is about to look at the node, knows the key. -/
theorem Sound.key_of_waiting (h : Sound s) {j : ℕ} {k : K} {w : Work K S} (hj : s.works[j]? = some w)
    (hpos : 0 < s.waiting j k+s.leaving j k) : w.key = k := by
  obtain ⟨w',hj',hkey⟩ := h.keys j k hpos
  cases hj.symm.trans hj'
  exact hkey

theorem Sound.running_of (h : Sound s) {j : ℕ} {k : K} {dirty : Bool} {w : Work K S}
    (hk : s.nodes k = some (.running j,dirty)) (hj : s.works[j]? = some w) :
    w.key = k ∧ w.aborted = false ∧ w.stored = false ∧ 0 < w.waiters+s.leaving j k := by
  obtain ⟨w',hj',h'⟩ := h.running k j dirty hk
  cases hj.symm.trans hj'
  exact h'

/-- Only those who wait for one piece of work change. -/
theorem Sound.counted (h : Sound s) {j : ℕ} {w : Work K S} (w' : Work K S)
    (hj : s.works[j]? = some w) (hkey : w'.key = w.key) (hp : w'.previous = w.previous)
    (hd : w'.dirty = w.dirty) (ha : w'.aborted = w.aborted) (hst : w'.stored = w.stored)
    (hn : t.nodes = s.nodes) (hs : t.works = s.works.set j w')
    (hcount : w'.waiters = t.waiting j w.key)
    (hw : ∀ j' k, j' ≠ j → t.waiting j' k = s.waiting j' k)
    (hl : ∀ j' k, j' ≠ j → t.leaving j' k = s.leaving j' k)
    (hkeys : ∀ k, 0 < t.waiting j k+t.leaving j k → w.key = k)
    (hrun : ∀ dirty, s.nodes w.key = some (.running j,dirty) → 0 < w'.waiters+t.leaving j w.key)
    (hend : w.aborted = true → w'.waiters = 0) : Sound t := by
  have hkeeps : Keeps s t := .set hj hs hkey hp hd
  refine ⟨fun j' x hx => ?_,fun j' k hpos => ?_,fun k j' d hk => ?_,fun j' x hx hxa hxs => ?_,
    fun j' x hx hxa => ?_,fun j' x hx hxa hnew => ?_⟩
  · rw [hs, set_some hj] at hx
    rcases hx with ⟨rfl,rfl⟩ | ⟨hne,hx⟩
    · rw [hkey]
      exact hcount
    · rw [hw j' _ hne]
      exact h.counts j' x hx
  · rw [hs]
    by_cases hne : j' = j
    · subst hne
      exact ⟨w',(set_some hj).mpr (.inl ⟨rfl,rfl⟩),hkey.trans (hkeys k hpos)⟩
    · rw [hw j' k hne, hl j' k hne] at hpos
      obtain ⟨x,hx,hxk⟩ := h.keys j' k hpos
      exact ⟨x,(set_some hj).mpr (.inr ⟨hne,hx⟩),hxk⟩
  · rw [hn] at hk
    rw [hs]
    obtain ⟨x,hx,hxk,hxa,hxs,hpos⟩ := h.running k j' d hk
    by_cases hne : j' = j
    · subst hne
      cases hj.symm.trans hx
      refine ⟨w',(set_some hj).mpr (.inl ⟨rfl,rfl⟩),hkey.trans hxk,ha.trans hxa,hst.trans hxs,?_⟩
      rw [← hxk] at hk ⊢
      exact hrun d hk
    · rw [hl j' k hne]
      exact ⟨x,(set_some hj).mpr (.inr ⟨hne,hx⟩),hxk,hxa,hxs,hpos⟩
  · rw [hs, set_some hj] at hx
    rw [hn]
    rcases hx with ⟨rfl,rfl⟩ | ⟨hne,hx⟩
    · rw [hkey]
      exact h.live j' w hj (ha ▸ hxa) (hst ▸ hxs)
    · exact h.live j' x hx hxa hxs
  · rw [hs, set_some hj] at hx
    rcases hx with ⟨rfl,rfl⟩ | ⟨hne,hx⟩
    · have hold := ha ▸ hxa
      exact ⟨hend hold,hst.trans (h.ended j' w hj hold).2⟩
    · exact h.ended j' x hx hxa
  · rw [hs, set_some hj] at hx
    rw [hn]
    rcases hx with ⟨rfl,rfl⟩ | ⟨hne,hx⟩
    · rw [hkey] at hnew ⊢
      rw [hp, hd]
      exact h.back j' w hj (ha ▸ hxa) (.of_keeps hkeeps hnew)
    · exact h.back j' x hx hxa (.of_keeps hkeeps hnew)

variable [DecidableEq K]

theorem one_ne {j j' : ℕ} {k k' : K} (h : ¬(j' = j ∧ k' = k)) : one j k j' k' = 0 := if_neg h

theorem update_some {f : K → Option (Held S × Bool)} {k k' : K} {x y : Held S × Bool} :
    Function.update f k (some x) k' = some y ↔ k' = k ∧ x = y ∨ k' ≠ k ∧ f k' = some y := by
  by_cases h : k' = k
  · subst h
    simp
  · simp [h]

/-- Only a node changes, from one value to another or from none. -/
theorem Sound.node (h : Sound s) {k : K} {x : Held S × Bool}
    (hn : t.nodes = Function.update s.nodes k (some x)) (hs : t.works = s.works)
    (hw : t.waiting = s.waiting) (hl : t.leaving = s.leaving)
    (hx : ∀ j dirty, x = (.running j,dirty) → ∃ dirty', s.nodes k = some (.running j,dirty'))
    (hlive : ∀ j dirty, s.nodes k = some (.running j,dirty) → ∃ dirty', x = (.running j,dirty'))
    (hback : ∀ v dirty, s.nodes k = some (.value v,dirty) →
      ∃ dirty', x = (.value v,dirty') ∧ (dirty = true → dirty' = true)) : Sound t := by
  refine ⟨?_,?_,fun k' j dirty hk' => ?_,fun j w hj ha hst => ?_,?_,fun j w hj ha hnew => ?_⟩
  · rw [hs, hw]
    exact h.counts
  · rw [hs, hw, hl]
    exact h.keys
  · rw [hn, update_some] at hk'
    rw [hs, hl]
    rcases hk' with ⟨rfl,heq⟩ | ⟨hne,hk'⟩
    · obtain ⟨dirty',hk'⟩ := hx j dirty heq
      exact h.running _ j dirty' hk'
    · exact h.running k' j dirty hk'
  · rw [hs] at hj
    obtain ⟨dirty,hk'⟩ := h.live j w hj ha hst
    rw [hn]
    by_cases heq : w.key = k
    · obtain ⟨dirty',rfl⟩ := hlive j dirty (heq ▸ hk')
      exact ⟨dirty',update_some.mpr (.inl ⟨heq,rfl⟩)⟩
    · exact ⟨dirty,update_some.mpr (.inr ⟨heq,hk'⟩)⟩
  · rw [hs]
    exact h.ended
  · rw [hs] at hj
    obtain ⟨dirty,hk',hdirty⟩ := h.back j w hj ha (.of_keeps (.same hs) hnew)
    rw [hn]
    by_cases heq : w.key = k
    · obtain ⟨dirty',rfl,hd⟩ := hback _ dirty (heq ▸ hk')
      exact ⟨dirty',update_some.mpr (.inl ⟨heq,rfl⟩),fun ht => hd (hdirty ht)⟩
    · exact ⟨dirty,update_some.mpr (.inr ⟨heq,hk'⟩),hdirty⟩

theorem Sound.begin (h : Sound s) {k : K} {v : S} {dirty : Bool} (hk : s.nodes k = some (.value v,dirty))
    (hn : t.nodes = Function.update s.nodes k (some (.running s.works.length,false)))
    (hs : t.works = s.works ++ [⟨k,v,dirty,1,false,false⟩])
    (hw : ∀ j k', t.waiting j k' = s.waiting j k'+one s.works.length k j k')
    (hl : t.leaving = s.leaving) : Sound t := by
  have hfresh : ∀ (j : ℕ) (w : Work K S), s.works[j]? = some w → j ≠ s.works.length := by
    intro j w hj
    obtain ⟨hlt,-⟩ := List.getElem?_eq_some_iff.mp hj
    omega
  have hnone : s.waiting s.works.length k = 0 := by
    by_contra hne
    obtain ⟨w,hj,-⟩ := h.keys s.works.length k (by omega)
    exact hfresh _ w hj rfl
  have hkeeps : Keeps s t := fun j w hj => ⟨w,by rw [hs]; exact append_some.mpr (.inl hj),rfl,rfl,rfl⟩
  refine ⟨fun j w hj => ?_,fun j k' hpos => ?_,fun k' j d hk' => ?_,fun j w hj ha hst => ?_,
    fun j w hj ha => ?_,fun j w hj ha hnew => ?_⟩
  · rw [hs, append_some] at hj
    rw [hw]
    rcases hj with hj | ⟨rfl,rfl⟩
    · rw [one_ne fun he => hfresh j w hj he.1]
      exact h.counts j w hj
    · rw [hnone, one_self]
  · rw [hw, hl] at hpos
    rw [hs]
    by_cases he : j = s.works.length ∧ k' = k
    · obtain ⟨rfl,rfl⟩ := he
      exact ⟨_,append_some.mpr (.inr ⟨rfl,rfl⟩),rfl⟩
    · rw [one_ne he] at hpos
      obtain ⟨w,hj,hkey⟩ := h.keys j k' hpos
      exact ⟨w,append_some.mpr (.inl hj),hkey⟩
  · rw [hn, update_some] at hk'
    rw [hs, hl]
    rcases hk' with ⟨rfl,heq⟩ | ⟨hne,hk'⟩
    · cases heq
      exact ⟨_,append_some.mpr (.inr ⟨rfl,rfl⟩),rfl,rfl,rfl,Nat.add_pos_left Nat.one_pos _⟩
    · obtain ⟨w,hj,hrest⟩ := h.running k' j d hk'
      exact ⟨w,append_some.mpr (.inl hj),hrest⟩
  · rw [hs, append_some] at hj
    rw [hn]
    rcases hj with hj | ⟨rfl,rfl⟩
    · obtain ⟨d,hk'⟩ := h.live j w hj ha hst
      refine ⟨d,update_some.mpr (.inr ⟨fun heq => ?_,hk'⟩)⟩
      rw [heq, hk] at hk'
      cases hk'
    · exact ⟨false,update_some.mpr (.inl ⟨rfl,rfl⟩)⟩
  · rw [hs, append_some] at hj
    rcases hj with hj | ⟨rfl,rfl⟩
    · exact h.ended j w hj ha
    · cases ha
  · rw [hs, append_some] at hj
    rcases hj with hj | ⟨rfl,rfl⟩
    · obtain ⟨d,hk',hd⟩ := h.back j w hj ha (.of_keeps hkeeps hnew)
      rw [hn]
      refine ⟨d,update_some.mpr (.inr ⟨fun heq => ?_,hk'⟩),hd⟩
      have hlt := (List.getElem?_eq_some_iff.mp hj).1
      exact hnew _ _ hlt (by rw [hs]; exact append_some.mpr (.inr ⟨rfl,rfl⟩)) heq.symm
    · cases ha

/-- Work that runs is done with: its node holds a value, and nobody is the wiser. -/
theorem Sound.settle (h : Sound s) {j : ℕ} {k : K} {w : Work K S} (w' : Work K S) {v : S}
    {dirty dirty' : Bool}
    (hk : s.nodes k = some (.running j,dirty)) (hj : s.works[j]? = some w) (hkey : w'.key = w.key)
    (hp : w'.previous = w.previous) (hd : w'.dirty = w.dirty) (hwait : w'.waiters = w.waiters)
    (hn : t.nodes = Function.update s.nodes k (some (.value v,dirty')))
    (hs : t.works = s.works.set j w') (hw : t.waiting = s.waiting)
    (hl : ∀ j' k', ¬(j' = j ∧ k' = k) → t.leaving j' k' = s.leaving j' k')
    (hlk : t.leaving j k ≤ s.leaving j k) (hdone : w'.aborted = true ∨ w'.stored = true)
    (hend : w'.aborted = true → w'.waiters = 0 ∧ w'.stored = false ∧ v = w.previous ∧
      (w.dirty = true → dirty' = true)) : Sound t := by
  obtain ⟨hwk,hwa,hws,-⟩ := h.running_of hk hj
  have hkeeps : Keeps s t := .set hj hs hkey hp hd
  -- No other work runs at the node, and what was given up there is not the newest.
  have hother : ∀ (j' : ℕ) (x : Work K S), j' ≠ j → x.key = k →
      ∀ d, s.nodes x.key ≠ some (.running j',d) := by
    rintro j' x hne rfl d hx
    cases hk.symm.trans hx
    exact hne rfl
  refine ⟨fun j' x hx => ?_,fun j' k' hpos => ?_,fun k' j' d hk' => ?_,fun j' x hx hxa hxs => ?_,
    fun j' x hx hxa => ?_,fun j' x hx hxa hnew => ?_⟩
  · rw [hs, set_some hj] at hx
    rw [hw]
    rcases hx with ⟨rfl,rfl⟩ | ⟨hne,hx⟩
    · rw [hkey, hwait]
      exact h.counts j' w hj
    · exact h.counts j' x hx
  · have hold : 0 < s.waiting j' k'+s.leaving j' k' := by
      rw [hw] at hpos
      by_cases he : j' = j ∧ k' = k
      · obtain ⟨rfl,rfl⟩ := he
        omega
      · rwa [hl j' k' he] at hpos
    obtain ⟨x,hx,hxk⟩ := h.keys j' k' hold
    obtain ⟨x',hx',hxk',-⟩ := hkeeps j' x hx
    exact ⟨x',hx',hxk'.trans hxk⟩
  · rw [hn, update_some] at hk'
    rcases hk' with ⟨-,heq⟩ | ⟨hne,hk'⟩
    · cases heq
    · obtain ⟨x,hx,hxk,hrest⟩ := h.running k' j' d hk'
      have hjj : j' ≠ j := by
        rintro rfl
        cases hj.symm.trans hx
        exact hne (hxk.symm.trans hwk)
      rw [hs, hl j' k' fun he => hjj he.1]
      exact ⟨x,(set_some hj).mpr (.inr ⟨hjj,hx⟩),hxk,hrest⟩
  · rw [hs, set_some hj] at hx
    rcases hx with ⟨rfl,rfl⟩ | ⟨hne,hx⟩
    · rcases hdone with he | he
      · cases he.symm.trans hxa
      · cases he.symm.trans hxs
    · obtain ⟨d,hx'⟩ := h.live j' x hx hxa hxs
      rw [hn]
      exact ⟨d,update_some.mpr (.inr ⟨fun he => hother j' x hne he d hx',hx'⟩)⟩
  · rw [hs, set_some hj] at hx
    rcases hx with ⟨rfl,rfl⟩ | ⟨hne,hx⟩
    · exact ⟨(hend hxa).1,(hend hxa).2.1⟩
    · exact h.ended j' x hx hxa
  · rw [hs, set_some hj] at hx
    rw [hn]
    rcases hx with ⟨rfl,rfl⟩ | ⟨hne,hx⟩
    · obtain ⟨-,-,rfl,hdirty⟩ := hend hxa
      rw [hkey, hp, hd]
      exact ⟨dirty',update_some.mpr (.inl ⟨hwk,rfl⟩),hdirty⟩
    · obtain ⟨d,hx',hdirty⟩ := h.back j' x hx hxa (.of_keeps hkeeps hnew)
      refine ⟨d,update_some.mpr (.inr ⟨fun he => ?_,hx'⟩),hdirty⟩
      rw [he, hk] at hx'
      cases hx'

theorem Sound.move (h : Sound s) (hm : Move s t) : Sound t := by
  cases hm with
  | still hn hs hw hl =>
    obtain ⟨nodes,works,waiting,leaving⟩ := t
    cases hn
    cases hs
    cases hw
    cases hl
    exact h
  | enter k v hk hn hs hw hl =>
    refine h.node hn hs hw hl nofun (fun j d hk' => ?_) fun v d hk' => ?_
    · cases hk.symm.trans hk'
    · cases hk.symm.trans hk'
  | mark k held dirty hk hn hs hw hl =>
    refine h.node hn hs hw hl (fun j d he => ?_) (fun j d hk' => ?_) fun v d hk' => ?_
    · cases he
      exact ⟨dirty,hk⟩
    · cases hk.symm.trans hk'
      exact ⟨true,rfl⟩
    · cases hk.symm.trans hk'
      exact ⟨true,rfl,fun _ => rfl⟩
  | begin k v dirty hk hn hs hw hl => exact h.begin hk hn hs hw hl
  | join j k dirty w hk hj hn hs hw hl =>
    obtain ⟨rfl,ha,hst,hpos⟩ := h.running_of hk hj
    have hcount := h.counts j w hj
    refine h.counted { w with waiters := w.waiters+1 } hj rfl rfl rfl rfl rfl hn hs ?_
      (fun j' k hne => ?_) (fun j' k _ => by rw [hl]) (fun k hk' => ?_)
      (fun d _ => Nat.add_pos_left (Nat.succ_pos _) _) fun he => ?_
    · rw [hw, one_self, hcount]
    · rw [hw, one_ne fun he => hne he.1, Nat.add_zero]
    · by_contra hne
      rw [hw, one_ne fun he => hne he.2.symm, hl, Nat.add_zero] at hk'
      exact hne (h.key_of_waiting hj hk')
    · cases ha.symm.trans he
  | leave j k w hj hone hn hs hw hl =>
    have hjk := hw j k
    rw [one_self] at hjk
    obtain rfl := @Sound.key_of_waiting _ _ _ h j k w hj (by omega)
    have hcount := h.counts j w hj
    refine h.counted { w with waiters := w.waiters-1 } hj rfl rfl rfl rfl rfl hn hs ?_
      (fun j' k hne => ?_) (fun j' k _ => by rw [hl]) (fun k hk => ?_) (fun d _ => ?_) fun he => ?_
    · dsimp only
      omega
    · have hjk' := hw j' k
      rwa [one_ne fun he => hne he.1] at hjk'
    · have hle := hw j k
      rw [hl] at hk
      exact h.key_of_waiting hj (by omega)
    · dsimp only
      omega
    · dsimp only
      rw [(h.ended j w hj he).1]
  | leaveLast j k w hj hone hn hs hw hl =>
    have hjk := hw j k
    rw [one_self] at hjk
    obtain rfl := @Sound.key_of_waiting _ _ _ h j k w hj (by omega)
    have hcount := h.counts j w hj
    refine h.counted { w with waiters := w.waiters-1 } hj rfl rfl rfl rfl rfl hn hs ?_
      (fun j' k hne => ?_) (fun j' k hne => ?_) (fun k hk => ?_) (fun d _ => ?_) fun he => ?_
    · dsimp only
      omega
    · have hjk' := hw j' k
      rwa [one_ne fun he => hne he.1] at hjk'
    · rw [hl, one_ne fun he => hne he.1, Nat.add_zero]
    · by_contra hne
      have hle := hw j k
      rw [hl, one_ne fun he => hne he.2.symm, Nat.add_zero] at hk
      exact hne (h.key_of_waiting hj (by omega))
    · rw [hl, one_self]
      omega
    · dsimp only
      rw [(h.ended j w hj he).1]
  | stay j k hno hn hs hw hl =>
    have hjk := hl j k
    rw [one_self] at hjk
    obtain ⟨w,hj,rfl⟩ := h.keys j k (by omega)
    have hset : s.works.set j w = s.works := by
      obtain ⟨hlt,rfl⟩ := List.getElem?_eq_some_iff.mp hj
      exact List.set_getElem_self hlt
    refine h.counted w hj rfl rfl rfl rfl rfl hn (hs.trans hset.symm) ?_ (fun j' k _ => by rw [hw])
      (fun j' k hne => ?_) (fun k hk => ?_) (fun d hk => ?_) fun he => (h.ended j w hj he).1
    · rw [hw]
      exact h.counts j w hj
    · have hjk' := hl j' k
      rwa [one_ne fun he => hne he.1] at hjk'
    · have hle := hl j k
      rw [hw] at hk
      exact h.key_of_waiting hj (by omega)
    · have hne := hno d w hk hj
      omega
  | goBack j k dirty w hk hj hzero hn hs hw hl =>
    obtain ⟨hkey,ha,hst,hpos⟩ := h.running_of hk hj
    refine h.settle { w with aborted := true } hk hj rfl rfl rfl rfl hn hs hw (fun j' k' hne => ?_) ?_ (.inl rfl) fun _ =>
      ⟨hzero,hst,rfl,fun hd => by rw [hd, Bool.or_true]⟩
    · have hlk := hl j' k'
      rw [one_ne hne] at hlk
      exact hlk
    · have hlk := hl j k
      omega
  | store j w v held dirty hj ha hnew hk hn hs hw hl =>
    obtain ⟨d,hrun⟩ := h.live j w hj ha hnew
    refine h.settle { w with stored := true } hrun hj rfl rfl rfl rfl hn hs hw (fun _ _ _ => by rw [hl])
      (Nat.le_of_eq (by rw [hl])) (.inr rfl) fun he => ?_
    cases ha.symm.trans he

end Preserved

section Runs
variable [DecidableEq K] {s t u : State K S}

theorem Sound.moves (h : Sound s) (hm : ReflTransGen Move s t) : Sound t := by
  induction hm with
  | refl => exact h
  | tail _ hstep ih => exact ih.move hstep

theorem moves_keeps (hm : ReflTransGen Move s t) : Keeps s t := by
  induction hm with
  | refl => exact .refl s
  | tail _ hstep ih => exact ih.trans hstep.keeps

omit [DecidableEq K] in
theorem Keeps.length_le (h : Keeps s t) : s.works.length ≤ t.works.length := by
  by_contra hlt
  obtain ⟨w,hw⟩ : ∃ w, s.works[t.works.length]? = some w :=
    ⟨_,List.getElem?_eq_getElem (by omega)⟩
  obtain ⟨w',hw',-⟩ := h _ w hw
  have hlt' := (List.getElem?_eq_some_iff.mp hw').1
  omega

/-- A mark is lost to work that was begun after it only. -/
theorem moves_marked {k : K} {held : Held S} (hm : ReflTransGen Move s t)
    (hk : s.nodes k = some (held,true)) :
    (∃ held', t.nodes k = some (held',true)) ∨
      ∃ (j : ℕ) (w : Work K S), s.works.length ≤ j ∧ t.works[j]? = some w ∧ w.key = k := by
  induction hm with
  | refl => exact .inl ⟨held,hk⟩
  | @tail u v hmoves hstep ih =>
    rcases ih with ⟨held',hu⟩ | ⟨j,w,hle,hj,hkey⟩
    · rcases hstep.marked hu with hv | ⟨w,hv,hkey⟩
      · exact .inl hv
      · refine .inr ⟨_,w,(moves_keeps hmoves).length_le,?_,hkey⟩
        rw [hv]
        exact append_some.mpr (.inr ⟨rfl,rfl⟩)
    · obtain ⟨w',hj',hkey',-⟩ := hstep.keeps j w hj
      exact .inr ⟨j,w',hle,hj',hkey'.trans hkey⟩

omit [DecidableEq K] in
/-- Work that has stored nothing and that nobody has to do with was given up. -/
theorem Sound.given_up (h : Sound s) {j : ℕ} {w : Work K S} (hj : s.works[j]? = some w)
    (hst : w.stored = false) (hnone : s.waiting j w.key+s.leaving j w.key = 0) :
    w.aborted = true := by
  by_contra ha
  obtain ⟨dirty,hk⟩ := h.live j w hj (Bool.eq_false_iff.mpr ha) hst
  obtain ⟨-,-,-,hpos⟩ := h.running_of hk hj
  rw [h.counts j w hj] at hpos
  omega

/-- The node goes back to what it held when the work was begun, and keeps the marks. -/
theorem Sound.gone_back (h : Sound t) {j : ℕ} {w w' : Work K S} (hj : s.works[j]? = some w)
    (hsu : ReflTransGen Move s u) (hut : ReflTransGen Move u t) (hj' : t.works[j]? = some w')
    (ha : w'.aborted = true) (hnew : Newest t j w.key) :
    ∃ dirty, t.nodes w.key = some (.value w.previous,dirty) ∧ (w.dirty = true → dirty = true) ∧
      ∀ held, u.nodes w.key = some (held,true) → dirty = true := by
  obtain ⟨x,hx,hkey,hp,hd⟩ := moves_keeps (hsu.trans hut) j w hj
  cases hj'.symm.trans hx
  rw [← hkey] at hnew
  obtain ⟨dirty,hk,hdirty⟩ := h.back j w' hj' ha hnew
  rw [hkey, hp] at hk
  refine ⟨dirty,hk,fun hw => hdirty (hd.trans hw),fun held hu => ?_⟩
  rcases moves_marked hut hu with ⟨held',hk'⟩ | ⟨j',y,hle,hy,hkey'⟩
  · cases hk.symm.trans hk'
    rfl
  · have hlt := (List.getElem?_eq_some_iff.mp hj).1
    have hlen := (moves_keeps hsu).length_le
    exact absurd (hkey'.trans hkey.symm) (hnew j' y (by omega) hy)

end Runs

end BuildFiji.SharedWork
