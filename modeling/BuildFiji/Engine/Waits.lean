import BuildFiji.Lib.Digraph
import Mathlib.Data.List.AList

/-!
# The wait graph of the engine

`Inner::waits` maps the id of a running node to the nodes it is waiting on.
Ids are handed out once for each key, so a node is named by its key here.
The list of a node holds one entry for each live wait, in the order of
`Vec::push` and `Vec::swap_remove`; an entry whose list is empty is removed.
A request from outside the graph has no node and takes no edge.
-/

set_option autoImplicit false
set_option linter.all false

namespace BuildFiji.Engine

open BuildFiji.Digraph Relation

variable {K : Type*} [DecidableEq K]

abbrev Waits (K : Type*) := AList fun _ : K => List K

def adj (w : Waits K) (a : K) : List K := (w.lookup a).getD []

def pushWait (w : Waits K) (a b : K) : Waits K := w.insert a (adj w a ++ [b])

def swapRemove (l : List K) (i : ℕ) : List K :=
  match l.getLast? with
  | none => []
  | some z => (l.set i z).dropLast

/-- `Waiting::drop`. -/
def dropWaiting (w : Waits K) (a b : K) : Waits K :=
  match w.lookup a with
  | none => w
  | some list =>
    let left := if b ∈ list then swapRemove list (list.idxOf b) else list
    if left = [] then w.erase a else w.insert a left

def edges (w : Waits K) : List K := w.entries.flatMap Sigma.snd

/-- The search is as deep as the number of edges at most: a vertex is entered
once, and only at the end of an edge. -/
def reaches (w : Waits K) (v target : K) (path seen : List K) : Bool × List K × List K :=
  search (adj w) target ((edges w).length+1) v path seen

def cycleText (keys : List String) : String := "cycle: " ++ " -> ".intercalate keys

/-- `Inner::wait_on` for a computation: the edge, or the text of the cycle
that it would close. `debug` is how a key prints. -/
def waitOn (debug : K → String) (w : Waits K) (a b : K) : Except String (Waits K) :=
  let r := reaches w b a [b] [b]
  if r.1 ∨ b = a then .error (cycleText (debug a :: r.2.1.map debug)) else .ok (pushWait w a b)

@[simp] theorem adj_empty (x : K) : adj (∅ : Waits K) x = [] := by simp [adj]

theorem adj_insert (w : Waits K) (a x : K) (l : List K) :
    adj (w.insert a l) x = if x = a then l else adj w x := by
  by_cases h : x = a
  · subst h
    simp [adj]
  · simp [adj, h, AList.lookup_insert_ne]

@[simp] theorem adj_pushWait (w : Waits K) (a b : K) : adj (pushWait w a b) = insertEdge (adj w) a b := by
  funext x
  rw [pushWait, adj_insert, insertEdge]

theorem swapRemove_count (l : List K) (b x : K) (hb : b ∈ l) :
    (swapRemove l (l.idxOf b)).count x = l.count x - if x = b then 1 else 0 := by
  rcases List.eq_nil_or_concat l with rfl | ⟨init,z,rfl⟩
  · simp at hb
  rw [List.concat_eq_append] at hb ⊢
  simp only [swapRemove, List.getLast?_append, List.getLast?_singleton, Option.some_or]
  by_cases hi : b ∈ init
  · have hlt := List.idxOf_lt_length_of_mem hi
    rw [List.idxOf_append_of_mem hi, List.set_append_left _ _ hlt, List.dropLast_concat,
      List.count_set hlt, List.getElem_idxOf hlt, List.count_append]
    have hpos : 0 < init.count b := List.count_pos_iff.mpr hi
    by_cases hx : x = b
    · subst hx
      by_cases hz : z = x
      · simp only [hz, beq_self_eq_true, if_true, List.count_singleton_self]
        omega
      · simp [hz]
    · by_cases hz : z = x <;> simp [hx, Ne.symm hx, hz]
  · have hz : b = z := by simpa [hi] using hb
    subst hz
    rw [List.idxOf_append_of_notMem hi]
    by_cases hx : x = b
    · subst hx
      simp
    · simp [List.count_append, hx, Ne.symm hx]

theorem adj_erase (w : Waits K) (a x : K) :
    adj (w.erase a) x = if x = a then [] else adj w x := by
  by_cases h : x = a
  · subst h
    simp [adj]
  · simp [adj, h, AList.lookup_erase_ne]

theorem adj_dropWaiting (w : Waits K) (a b x : K) :
    adj (dropWaiting w a b) x =
      if x = a ∧ b ∈ adj w a then swapRemove (adj w a) ((adj w a).idxOf b) else adj w x := by
  unfold dropWaiting
  cases hl : w.lookup a with
  | none =>
    have ha : adj w a = [] := by simp [adj, hl]
    simp [ha]
  | some list =>
    have ha : adj w a = list := by simp [adj, hl]
    subst ha
    by_cases hx : x = a
    · subst hx
      by_cases hb : b ∈ adj w x
      · simp only [hb, if_true, and_self]
        split_ifs with he
        · rw [adj_erase, if_pos rfl, he]
        · rw [adj_insert, if_pos rfl]
      · simp only [hb, if_false, and_false]
        split_ifs with he
        · rw [adj_erase, if_pos rfl, he]
        · rw [adj_insert, if_pos rfl]
    · simp only [hx, false_and, if_false]
      split_ifs
      all_goals simp only [adj_erase, adj_insert, hx, if_false]

/-- A wait that ends takes away one occurrence of its own edge and nothing
else. -/
theorem dropWaiting_count (w : Waits K) (a b x y : K) (h : b ∈ adj w a) :
    (adj (dropWaiting w a b) x).count y =
      (adj w x).count y - if x = a ∧ y = b then 1 else 0 := by
  rw [adj_dropWaiting]
  by_cases hx : x = a
  · subst hx
    simp only [h, and_true, if_true, true_and]
    exact swapRemove_count _ b y h
  · simp [hx]

theorem pushWait_count (w : Waits K) (a b x y : K) :
    (adj (pushWait w a b) x).count y = (adj w x).count y + if x = a ∧ y = b then 1 else 0 := by
  rw [adj_pushWait]
  by_cases hx : x = a
  · subst hx
    by_cases hy : y = b
    · subst hy
      simp [insertEdge]
    · simp [insertEdge, hy, Ne.symm hy]
  · simp [insertEdge, hx]

theorem mem_edges (w : Waits K) {a b : K} (h : b ∈ adj w a) : b ∈ edges w := by
  unfold adj at h
  cases hl : w.lookup a with
  | none => simp [hl] at h
  | some list =>
    rw [hl, Option.getD_some] at h
    have hm : (⟨a,list⟩ : Sigma fun _ : K => List K) ∈ w.entries := AList.mem_lookup_iff.mp hl
    exact List.mem_flatMap.mpr ⟨_,hm,h⟩

theorem reaches_iff (w : Waits K) (v target : K) (path : List K) :
    (reaches w v target path [v]).1 = true ↔ ReflTransGen (Edge (adj w)) v target := by
  apply search_iff (edges w).toFinset
  · intro a b h
    exact List.mem_toFinset.mpr (mem_edges w h)
  · exact Nat.lt_succ_of_le (List.toFinset_card_le _)

theorem waitOn_ok (debug : K → String) (w w' : Waits K) (a b : K) :
    waitOn debug w a b = .ok w' ↔ ¬ ReflTransGen (Edge (adj w)) b a ∧ w' = pushWait w a b := by
  have hr := reaches_iff w b a [b]
  unfold waitOn
  by_cases h : ReflTransGen (Edge (adj w)) b a
  · simp [hr.mpr h, h]
  · have hf : (reaches w b a [b] [b]).1 = false := Bool.eq_false_iff.mpr (fun ht => h (hr.mp ht))
    have hne : b ≠ a := fun e => h (e ▸ .refl)
    simp [hf, hne, h, eq_comm]

/-- A wait is refused exactly when its edge would close a cycle. -/
theorem waitOn_refused_iff (debug : K → String) (w : Waits K) (hw : Acyclic (adj w)) (a b : K) :
    (∃ text, waitOn debug w a b = .error text) ↔ ¬ Acyclic (adj (pushWait w a b)) := by
  rw [adj_pushWait, insertEdge_acyclic_iff hw, not_not]
  cases h : waitOn debug w a b with
  | error text =>
    refine iff_of_true ⟨text,rfl⟩ ?_
    by_contra hn
    rw [(waitOn_ok debug w _ a b).mpr ⟨hn,rfl⟩] at h
    cases h
  | ok w' => exact iff_of_false (by simp) ((waitOn_ok debug w w' a b).mp h).1

theorem waitOn_acyclic {debug : K → String} {w w' : Waits K} {a b : K}
    (hw : Acyclic (adj w)) (h : waitOn debug w a b = .ok w') : Acyclic (adj w') := by
  obtain ⟨hn,rfl⟩ := (waitOn_ok debug w w' a b).mp h
  rw [adj_pushWait]
  exact (insertEdge_acyclic_iff hw a b).mpr hn

theorem dropWaiting_acyclic {w : Waits K} (a b : K) (hw : Acyclic (adj w)) :
    Acyclic (adj (dropWaiting w a b)) := by
  refine acyclic_mono (fun x y hxy => ?_) hw
  by_cases h : b ∈ adj w a
  · have hc := dropWaiting_count w a b x y h
    have hp : 0 < (adj (dropWaiting w a b) x).count y := List.count_pos_iff.mpr hxy
    exact List.count_pos_iff.mp (by omega)
  · have he : adj (dropWaiting w a b) x = adj w x := by simp [adj_dropWaiting, h]
    unfold Edge at hxy ⊢
    rwa [he] at hxy

end BuildFiji.Engine
