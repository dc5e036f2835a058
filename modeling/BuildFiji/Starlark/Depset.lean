import BuildFiji.Lib.Fallible
import BuildFiji.Lib.FirstOccurrence
import Mathlib.Logic.Relation

/-!
# Depsets

A depset is a small set with others below it, laid out by its own order when it
is built. Depsets live in a heap, where a set is known by its place, and are
flattened by one walk over the layouts with an explicit stack.
-/

set_option autoImplicit false
set_option linter.all false

namespace BuildFiji.Starlark

open FirstOccurrence

inductive Order where
  | default
  | postorder
  | preorder
  | topological
deriving DecidableEq

namespace Order

def name : Order → String
  | .default => "default"
  | .postorder => "postorder"
  | .preorder => "preorder"
  | .topological => "topological"

def compatible (a b : Order) : Bool := a == b || a == .default || b == .default

end Order

structure Depset (V : Type) where
  order : Order
  itemType : Option String
  setsFirst : Bool
  items : List V
  sets : List ℕ

inductive Kid (V : Type) where
  | item (v : V)
  | set (id : ℕ)

abbrev Heap (V : Type) := List (Depset V)

variable {V : Type}

namespace Depset

def len (d : Depset V) : ℕ := d.items.length+d.sets.length

/-- The children in layout order. -/
def kids (d : Depset V) : List (Kid V) :=
  if d.setsFirst then d.sets.map .set ++ d.items.map .item
  else d.items.map .item ++ d.sets.map .set

def kid (d : Depset V) (i : ℕ) : Option (Kid V) :=
  if d.setsFirst then
    if i < d.sets.length then d.sets[i]?.map .set else d.items[i-d.sets.length]?.map .item
  else if i < d.items.length then d.items[i]?.map .item else d.sets[i-d.items.length]?.map .set

theorem kid_eq (d : Depset V) (i : ℕ) : d.kid i = d.kids[i]? := by
  unfold kid kids
  split
  · rw [List.getElem?_append, List.length_map, List.getElem?_map, List.getElem?_map]
  · rw [List.getElem?_append, List.length_map, List.getElem?_map, List.getElem?_map]

end Depset

section New
variable [DecidableEq V] (typeOf : V → String) (hashable : V → Bool)

/-- Every child must be of an order that goes with this one, empty or not. -/
def checkOrders (heap : Heap V) (order : Order) : List ℕ → Except String (List (ℕ × Depset V))
  | [] => .ok []
  | id::rest =>
    match heap[id]? with
    | none => .error "checked to be a depset"
    | some child =>
      if order.compatible child.order then
        match checkOrders heap order rest with
        | .error e => .error e
        | .ok children => .ok ((id,child)::children)
      else .error ("Order '" ++ order.name ++ "' is incompatible with order '" ++
        child.order.name ++ "'")

/-- The type the elements have so far, and whether another goes with it. -/
def joinType (itemType : Option String) (ty : String) : Except String (Option String) :=
  match itemType with
  | none => .ok (some ty)
  | some expected =>
    if expected = ty then .ok (some expected)
    else .error ("cannot add an item of type '" ++ ty ++ "' to a depset of '" ++ expected ++ "'")

def addItem (found : Option String × List V) (v : V) : Except String (Option String × List V) := do
  if !hashable v then throw "depset elements must not be mutable values"
  let itemType ← joinType found.1 (typeOf v)
  return (itemType,add found.2 v)

def addSet (found : Option String × List ℕ) (child : ℕ × Depset V) :
    Except String (Option String × List ℕ) :=
  match child.2.itemType with
  | none => .ok found
  | some ty => do
    let itemType ← joinType found.1 ty
    return (itemType,found.2 ++ [child.1])

/-- The one set that there is nothing to add to, if it is of the same order. -/
def alone (heap : Heap V) (order : Order) (items : List V) (sets : List ℕ) : Option ℕ :=
  match items, sets with
  | [], [only] => if heap[only]?.any fun d => d.order = order then some only else none
  | _, _ => none

def layOut (order : Order) (itemType : Option String) (items : List V) (sets : List ℕ) : Depset V :=
  if order = .topological then ⟨order,itemType,true,items.reverse,sets.reverse⟩
  else ⟨order,itemType,order ≠ .preorder,items,sets⟩

def newDepset (heap : Heap V) (direct : List V) (order : Order) (transitive : List ℕ) :
    Except String (Heap V × ℕ) := do
  let children ← checkOrders heap order transitive
  let (itemType,items) ← direct.foldlM (addItem typeOf hashable) (none,[])
  let (itemType,sets) ← children.foldlM addSet (itemType,[])
  match alone heap order items sets with
  | some only => return (heap,only)
  | none => return (heap ++ [layOut order itemType items sets],heap.length)

end New

section Flatten
variable [DecidableEq V]

/-- The walk: what it has found, the sets it has entered, and those it is in,
the innermost first, with the next child of each. The elements seen are those
found. -/
structure Walk (V : Type) where
  out : List V
  entered : List ℕ
  stack : List (Depset V × ℕ)

def flattenFrom (heap : Heap V) : ℕ → Walk V → Option (List V)
  | 0, _ => none
  | fuel+1, w =>
    match w.stack with
    | [] => some w.out
    | (set,next)::stack =>
      if set.len ≤ next then flattenFrom heap fuel ⟨w.out,w.entered,stack⟩
      else
        match set.kid next with
        | none => flattenFrom heap fuel ⟨w.out,w.entered,stack⟩
        | some (.item v) => flattenFrom heap fuel ⟨add w.out v,w.entered,(set,next+1)::stack⟩
        | some (.set id) =>
          if id ∈ w.entered then flattenFrom heap fuel ⟨w.out,w.entered,(set,next+1)::stack⟩
          else
            match heap[id]? with
            | none => flattenFrom heap fuel ⟨w.out,id::w.entered,(set,next+1)::stack⟩
            | some child =>
              flattenFrom heap fuel ⟨w.out,id::w.entered,(child,0)::(set,next+1)::stack⟩

def flatten (heap : Heap V) (top : Depset V) (root : Option ℕ) (fuel : ℕ) : Option (List V) :=
  (flattenFrom heap fuel ⟨[],root.toList,[(top,0)]⟩).map fun out =>
    if top.order = .topological then out.reverse else out

end Flatten

end BuildFiji.Starlark

/-!
## Flattening is expansion

The walk comes to the first occurrences of the elements of the full expansion,
in which a set is expanded wherever it is met: a set that has been entered
before is older than the one it is met in, so it is not one the walk is still
in, and all that it holds has been found.
-/

namespace BuildFiji.Starlark

open FirstOccurrence Relation

variable {V : Type}

/-- The full expansion of a set. The sets below it are older than it. -/
def expand (heap : Heap V) (id : ℕ) : List V :=
  match heap[id]? with
  | none => []
  | some set => set.kids.flatMap fun kid =>
    match kid with
    | .item v => [v]
    | .set below => if _h : below < id then expand heap below else []
termination_by id

/-- Sets hold older sets, a set without a type holds nothing, and only a set in
preorder lays out its items first. -/
structure Grounded (heap : Heap V) : Prop where
  older : ∀ (id : ℕ) (d : Depset V), heap[id]? = some d → ∀ s ∈ d.sets, s < id
  empty : ∀ (id : ℕ) (d : Depset V), heap[id]? = some d → d.itemType = none →
    d.items = [] ∧ d.sets = []
  first : ∀ (id : ℕ) (d : Depset V), heap[id]? = some d → d.order ≠ .preorder → d.setsFirst = true

def expandKid (heap : Heap V) : Kid V → List V
  | .item v => [v]
  | .set id => expand heap id

theorem Depset.set_mem_kids {d : Depset V} {id : ℕ} : Kid.set id ∈ d.kids ↔ id ∈ d.sets := by
  unfold kids
  split <;> simp

theorem Depset.item_mem_kids {d : Depset V} {v : V} : Kid.item v ∈ d.kids ↔ v ∈ d.items := by
  unfold kids
  split <;> simp

theorem Depset.length_kids (d : Depset V) : d.kids.length = d.len := by
  unfold kids len
  split <;> simp [Nat.add_comm]

theorem Depset.not_len_le {d : Depset V} {next : ℕ} {kid : Kid V} (h : d.kids[next]? = some kid) :
    ¬d.len ≤ next := by
  rw [← Depset.length_kids, Nat.not_le]
  exact (List.getElem?_eq_some_iff.mp h).1

section Expand
variable {heap : Heap V}

theorem Grounded.expand_eq (h : Grounded heap) {id : ℕ} {d : Depset V} (hd : heap[id]? = some d) :
    expand heap id = d.kids.flatMap (expandKid heap) := by
  rw [expand, hd]
  refine List.flatMap_congr fun kid hk => ?_
  cases kid with
  | item v => rfl
  | set s => exact dif_pos (h.older id d hd s (Depset.set_mem_kids.mp hk))

theorem expand_append (heap more : Heap V) {id : ℕ} (h : id < heap.length) :
    expand (heap ++ more) id = expand heap id := by
  induction id using Nat.strongRecOn with
  | ind id ih =>
    rw [expand, expand, List.getElem?_append_left h]
    cases hd : heap[id]? with
    | none => rfl
    | some d =>
      refine List.flatMap_congr fun kid _ => ?_
      cases kid with
      | item v => rfl
      | set s =>
        simp only
        split
        · next hs => exact ih s hs (Nat.lt_trans hs h)
        · rfl

end Expand

section Walk
variable [DecidableEq V] {heap : Heap V}

/-- The walk comes from one state to another, whatever fuel is left there. -/
def Comes (heap : Heap V) (w w' : Walk V) : Prop :=
  ∃ n, ∀ fuel, flattenFrom heap (fuel+n) w = flattenFrom heap fuel w'

theorem Comes.trans {w w' w'' : Walk V} (h : Comes heap w w') (h' : Comes heap w' w'') :
    Comes heap w w'' := by
  obtain ⟨n,hn⟩ := h
  obtain ⟨m,hm⟩ := h'
  refine ⟨m+n,fun fuel => ?_⟩
  rw [← hm fuel, ← hn, Nat.add_assoc]

theorem comes_pop {out : List V} {entered : List ℕ} {set : Depset V} {next : ℕ}
    {stack : List (Depset V × ℕ)} (h : set.kids.length ≤ next) :
    Comes heap ⟨out,entered,(set,next)::stack⟩ ⟨out,entered,stack⟩ := by
  refine ⟨1,fun fuel => ?_⟩
  rw [flattenFrom]
  rw [Depset.length_kids] at h
  simp [h]

theorem comes_item {out : List V} {entered : List ℕ} {set : Depset V} {next : ℕ} {v : V}
    {stack : List (Depset V × ℕ)} (h : set.kids[next]? = some (.item v)) :
    Comes heap ⟨out,entered,(set,next)::stack⟩ ⟨add out v,entered,(set,next+1)::stack⟩ := by
  refine ⟨1,fun fuel => ?_⟩
  have hlen := Depset.not_len_le h
  rw [← Depset.kid_eq] at h
  rw [flattenFrom]
  simp [hlen, h]

theorem comes_skip {out : List V} {entered : List ℕ} {set : Depset V} {next id : ℕ}
    {stack : List (Depset V × ℕ)} (h : set.kids[next]? = some (.set id)) (hid : id ∈ entered) :
    Comes heap ⟨out,entered,(set,next)::stack⟩ ⟨out,entered,(set,next+1)::stack⟩ := by
  refine ⟨1,fun fuel => ?_⟩
  have hlen := Depset.not_len_le h
  rw [← Depset.kid_eq] at h
  rw [flattenFrom]
  simp [hlen, h, hid]

theorem comes_enter {out : List V} {entered : List ℕ} {set child : Depset V} {next id : ℕ}
    {stack : List (Depset V × ℕ)} (h : set.kids[next]? = some (.set id)) (hid : id ∉ entered)
    (hchild : heap[id]? = some child) :
    Comes heap ⟨out,entered,(set,next)::stack⟩
      ⟨out,id::entered,(child,0)::(set,next+1)::stack⟩ := by
  refine ⟨1,fun fuel => ?_⟩
  have hlen := Depset.not_len_le h
  rw [← Depset.kid_eq] at h
  rw [flattenFrom]
  simp [hlen, h, hid, hchild]

/-- The sets entered that are older than one hold nothing that is not found. -/
def Found (heap : Heap V) (out : List V) (entered : List ℕ) (id : ℕ) : Prop :=
  ∀ s ∈ entered, s < id → ∀ x ∈ expand heap s, x ∈ out

/-- The walk has come through a part of the layouts of a set: it has found the
elements of that part, and what it has entered is older than the set. -/
structure Through (heap : Heap V) (id : ℕ) (part : List V) (out : List V) (entered : List ℕ)
    (frame : Depset V × ℕ) (stack : List (Depset V × ℕ)) (entered' : List ℕ) : Prop where
  comes : Comes heap ⟨out,entered,frame::stack⟩ ⟨addAll out part,entered',stack⟩
  kept : ∀ s ∈ entered, s ∈ entered'
  found : ∀ s ∈ entered', s ∈ entered ∨ s < id ∧ ∀ x ∈ expand heap s, x ∈ addAll out part

section Through
variable {id next : ℕ} {part out : List V} {entered entered' entered'' : List ℕ} {d : Depset V}
  {stack : List (Depset V × ℕ)}

theorem Through.item {v : V} (hkid : d.kids[next]? = some (.item v))
    (h : Through heap id part (add out v) entered (d,next+1) stack entered') :
    Through heap id ([v] ++ part) out entered (d,next) stack entered' :=
  ⟨(comes_item hkid).trans h.comes,h.kept,h.found⟩

theorem Through.skip {s : ℕ} (hkid : d.kids[next]? = some (.set s)) (hs : s ∈ entered)
    (hfound : ∀ x ∈ expand heap s, x ∈ out)
    (h : Through heap id part out entered (d,next+1) stack entered') :
    Through heap id (expand heap s ++ part) out entered (d,next) stack entered' := by
  have hsame : addAll out (expand heap s ++ part) = addAll out part := by
    rw [addAll_append, addAll_of_subset hfound]
  refine ⟨?_,h.kept,?_⟩
  · rw [hsame]
    exact (comes_skip hkid hs).trans h.comes
  · rw [hsame]
    exact h.found

theorem Through.enter {s : ℕ} {child : Depset V} (hkid : d.kids[next]? = some (.set s))
    (hs : s ∉ entered) (hlt : s < id) (hchild : heap[s]? = some child)
    (h : Through heap s (expand heap s) out (s::entered) (child,0) ((d,next+1)::stack) entered')
    (h' : Through heap id part (addAll out (expand heap s)) entered' (d,next+1) stack entered'') :
    Through heap id (expand heap s ++ part) out entered (d,next) stack entered'' := by
  refine ⟨?_,fun t ht => h'.kept t (h.kept t (List.mem_cons_of_mem _ ht)),fun t ht => ?_⟩
  · rw [addAll_append]
    exact (comes_enter hkid hs hchild).trans (h.comes.trans h'.comes)
  · rw [addAll_append]
    have hin : ∀ x ∈ addAll out (expand heap s), x ∈ addAll (addAll out (expand heap s)) part :=
      fun x hx => mem_addAll.mpr (.inl hx)
    rcases h'.found t ht with ht | ht
    · rcases h.found t ht with ht | ⟨hts,hx⟩
      · rcases List.mem_cons.mp ht with rfl | ht
        · exact .inr ⟨hlt,fun x hx => hin x (mem_addAll.mpr (.inr hx))⟩
        · exact .inl ht
      · exact .inr ⟨Nat.lt_trans hts hlt,fun x hx' => hin x (hx x hx')⟩
    · exact .inr ht

end Through

/-- From any of its children on, given how the older sets are walked. -/
theorem visitKids (hg : Grounded heap) {id : ℕ} {d : Depset V} (hd : heap[id]? = some d)
    (stack : List (Depset V × ℕ))
    (ih : ∀ s < id, ∀ child, heap[s]? = some child → ∀ out entered stack, Found heap out entered s →
      ∃ entered', Through heap s (expand heap s) out entered (child,0) stack entered')
    (rest : List (Kid V)) (next : ℕ) (hrest : d.kids.drop next = rest) (out : List V)
    (entered : List ℕ) (hf : Found heap out entered id) :
    ∃ entered', Through heap id (rest.flatMap (expandKid heap)) out entered (d,next) stack
      entered' := by
  induction rest generalizing next out entered with
  | nil =>
    exact ⟨entered,comes_pop (List.drop_eq_nil_iff.mp hrest),fun s hs => hs,fun s hs => .inl hs⟩
  | cons kid rest ihr =>
    have hkid : d.kids[next]? = some kid := by
      rw [← List.head?_drop, hrest]
      rfl
    have hnext : d.kids.drop (next+1) = rest := by
      rw [← List.tail_drop, hrest]
      rfl
    cases kid with
    | item v =>
      have hf' : Found heap (add out v) entered id :=
        fun s hs hlt x hx => mem_add.mpr (.inl (hf s hs hlt x hx))
      obtain ⟨entered',ht⟩ := ihr (next+1) hnext (add out v) entered hf'
      exact ⟨entered',ht.item hkid⟩
    | set s =>
      have hlt : s < id := hg.older id d hd s (Depset.set_mem_kids.mp (List.mem_of_getElem? hkid))
      by_cases hs : s ∈ entered
      · -- Entered before, so all that it holds has been found.
        obtain ⟨entered',ht⟩ := ihr (next+1) hnext out entered hf
        exact ⟨entered',ht.skip hkid hs (hf s hs hlt)⟩
      · have hlen := (List.getElem?_eq_some_iff.mp hd).1
        have hchild := List.getElem?_eq_getElem (Nat.lt_trans hlt hlen)
        have hfs : Found heap out (s::entered) s := by
          intro t ht hts x hx
          rcases List.mem_cons.mp ht with rfl | ht
          · omega
          · exact hf t ht (Nat.lt_trans hts hlt) x hx
        obtain ⟨entered',ht⟩ := ih s hlt _ hchild out (s::entered) ((d,next+1)::stack) hfs
        have hf' : Found heap (addAll out (expand heap s)) entered' id := by
          intro t ht' hlt' x hx
          rcases ht.found t ht' with ht' | ⟨-,hx'⟩
          · rcases List.mem_cons.mp ht' with rfl | ht'
            · exact mem_addAll.mpr (.inr hx)
            · exact mem_addAll.mpr (.inl (hf t ht' hlt' x hx))
          · exact hx' x hx
        obtain ⟨entered'',ht'⟩ := ihr (next+1) hnext _ entered' hf'
        exact ⟨entered'',ht.enter hkid hs hlt hchild ht'⟩

theorem visit (hg : Grounded heap) (id : ℕ) {d : Depset V} (hd : heap[id]? = some d)
    (out : List V) (entered : List ℕ) (stack : List (Depset V × ℕ))
    (hf : Found heap out entered id) :
    ∃ entered', Through heap id (expand heap id) out entered (d,0) stack entered' := by
  induction id using Nat.strongRecOn generalizing d out entered stack with
  | ind id ih =>
    obtain ⟨entered',ht⟩ := visitKids hg hd stack
      (fun s hs child hc out entered stack hf => ih s hs hc out entered stack hf) d.kids 0 rfl out
      entered hf
    rw [← hg.expand_eq hd] at ht
    exact ⟨entered',ht⟩

/-- The first occurrences, the other way round in a topological set. -/
def listing (order : Order) (l : List V) : List V :=
  if order = .topological then l.eraseDups.reverse else l.eraseDups

theorem flatten_expand (hg : Grounded heap) {id : ℕ} {d : Depset V} (hd : heap[id]? = some d)
    {root : Option ℕ} (hroot : root = none ∨ root = some id) :
    ∃ n, ∀ fuel, n ≤ fuel → flatten heap d root fuel = some (listing d.order (expand heap id)) := by
  have hf : Found heap [] root.toList id := by
    intro s hs hlt
    rcases hroot with rfl | rfl
    · cases hs
    · rw [Option.toList_some, List.mem_singleton] at hs
      omega
  obtain ⟨entered',ht⟩ := visit hg id hd [] root.toList [] hf
  obtain ⟨n,hn⟩ := ht.comes
  refine ⟨n+1,fun fuel hfuel => ?_⟩
  obtain ⟨k,rfl⟩ := Nat.exists_eq_add_of_le hfuel
  have hcome := hn (k+1)
  have hfinal : flattenFrom heap (k+1) ⟨addAll [] (expand heap id),entered',[]⟩ =
      some (addAll [] (expand heap id)) := by
    rw [flattenFrom]
  rw [show n+1+k = k+1+n by omega, flatten, hcome, hfinal, addAll_nil]
  rfl

end Walk

end BuildFiji.Starlark
