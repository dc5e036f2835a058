import BuildFiji.Starlark.Depset

/-!
# Building depsets

What a sequence of calls builds expands to what the calls say, with every set
expanded wherever it is named: dropping the empty ones and handing back a set
that there is nothing to add to change nothing. In a topological set, what a set
holds itself comes before what is below it.
-/

set_option autoImplicit false
set_option linter.all false

namespace BuildFiji.Starlark

open FirstOccurrence Relation

variable {V : Type}

section Calls
variable [DecidableEq V] (typeOf : V → String) (hashable : V → Bool)

/-- A call of `depset`, with the results of earlier calls. -/
structure Call (V : Type) where
  direct : List V
  order : Order
  transitive : List ℕ

def call (built : Heap V × List ℕ) (c : Call V) : Except String (Heap V × List ℕ) :=
  match c.transitive.mapM fun i => built.2[i]? with
  | none => .error "no such depset"
  | some transitive =>
    match newDepset typeOf hashable built.1 c.direct c.order transitive with
    | .error e => .error e
    | .ok (heap,id) => .ok (heap,built.2 ++ [id])

def build (calls : List (Call V)) : Except String (Heap V × List ℕ) :=
  calls.foldlM (call typeOf hashable) ([],[])

/-- The expansion that the order of a set gives it, of all the sets it is made of. -/
def naiveLayout (order : Order) (items : List V) (sets : List (List V)) : List V :=
  match order with
  | .preorder => items ++ sets.flatten
  | .topological => sets.reverse.flatten ++ items.reverse
  | _ => sets.flatten ++ items

/-- What the calls come to when no set is dropped, shared or taken for another. -/
def naive (done : List (Order × List V)) (c : Call V) : List (Order × List V) :=
  done ++ [(c.order,naiveLayout c.order c.direct.eraseDups
    (c.transitive.map fun i => (done[i]?.map Prod.snd).getD []))]

end Calls

section New
variable {heap : Heap V}

theorem checkOrders_ok {order : Order} {transitive : List ℕ} {children : List (ℕ × Depset V)}
    (h : checkOrders heap order transitive = .ok children) :
    children.map Prod.fst = transitive ∧ ∀ c ∈ children, heap[c.1]? = some c.2 := by
  induction transitive generalizing children with
  | nil =>
    cases h
    exact ⟨rfl,nofun⟩
  | cons id rest ih =>
    rw [checkOrders] at h
    split at h
    · cases h
    · next child hc =>
      split at h
      · split at h
        · cases h
        · next more hm =>
          cases h
          obtain ⟨hfst,hmem⟩ := ih hm
          refine ⟨by simp [hfst],fun c hmem' => ?_⟩
          rcases List.mem_cons.mp hmem' with rfl | hmem'
          · exact hc
          · exact hmem c hmem'
      · cases h

theorem joinType_some {itemType itemType' : Option String} {ty : String}
    (h : joinType itemType ty = .ok itemType') : itemType' ≠ none := by
  unfold joinType at h
  split at h
  · cases h
    simp
  · split at h
    · cases h
      simp
    · cases h

theorem addItems_ok [DecidableEq V] {typeOf : V → String} {hashable : V → Bool} {direct : List V} {found found' : Option String × List V}
    (h : direct.foldlM (addItem typeOf hashable) found = .ok found')
    (hfound : found.1 = none → found.2 = []) :
    found'.2 = addAll found.2 direct ∧ (found'.1 = none → found'.2 = []) := by
  induction direct generalizing found with
  | nil =>
    rw [List.foldlM_nil, Fallible.pure_ok] at h
    subst h
    exact ⟨rfl,hfound⟩
  | cons v direct ih =>
    rw [List.foldlM_cons, Fallible.bind_ok] at h
    obtain ⟨mid,hmid,h⟩ := h
    have hstep : mid.2 = add found.2 v ∧ mid.1 ≠ none := by
      unfold addItem at hmid
      split at hmid
      · cases hmid
      · simp only [Fallible.bind_ok, Fallible.pure_ok] at hmid
        obtain ⟨itemType,hj,rfl⟩ := hmid
        exact ⟨rfl,joinType_some hj⟩
    obtain ⟨hout,hnone⟩ := ih h fun hn => absurd hn hstep.2
    rw [hstep.1] at hout
    exact ⟨hout,hnone⟩

theorem addSets_ok {children : List (ℕ × Depset V)} {found found' : Option String × List ℕ}
    (h : children.foldlM addSet found = .ok found') :
    found'.2 = found.2 ++ (children.filter fun c => c.2.itemType ≠ none).map Prod.fst ∧
      (found'.1 = none → found.1 = none ∧ ∀ c ∈ children, c.2.itemType = none) := by
  induction children generalizing found with
  | nil =>
    rw [List.foldlM_nil, Fallible.pure_ok] at h
    subst h
    exact ⟨by simp,fun hn => ⟨hn,nofun⟩⟩
  | cons c children ih =>
    rw [List.foldlM_cons, Fallible.bind_ok] at h
    obtain ⟨mid,hmid,h⟩ := h
    obtain ⟨hout,hnone⟩ := ih h
    unfold addSet at hmid
    split at hmid
    · next hc =>
      cases hmid
      refine ⟨by simpa [hc] using hout,fun hn => ?_⟩
      obtain ⟨h1,h2⟩ := hnone hn
      refine ⟨h1,fun c' hc' => ?_⟩
      rcases List.mem_cons.mp hc' with rfl | hc'
      · exact hc
      · exact h2 c' hc'
    · next ty hc =>
      simp only [Fallible.bind_ok, Fallible.pure_ok] at hmid
      obtain ⟨itemType,hj,rfl⟩ := hmid
      refine ⟨by simp [hout, hc],fun hn => absurd (hnone hn).1 (joinType_some hj)⟩

theorem Grounded.expand_empty (hg : Grounded heap) {id : ℕ} {d : Depset V} (hd : heap[id]? = some d)
    (hn : d.itemType = none) : expand heap id = [] := by
  obtain ⟨hi,hs⟩ := hg.empty id d hd hn
  rw [hg.expand_eq hd, Depset.kids, hi, hs]
  simp

theorem flatMap_filter {α β : Type} {f : α → List β} {p : α → Bool} (l : List α)
    (h : ∀ a ∈ l, p a = false → f a = []) : (l.filter p).flatMap f = l.flatMap f := by
  induction l with
  | nil => rfl
  | cons a l ih =>
    have hl := ih fun b hb => h b (List.mem_cons_of_mem _ hb)
    cases hp : p a with
    | true => rw [List.filter_cons_of_pos hp, List.flatMap_cons, List.flatMap_cons, hl]
    | false =>
      rw [List.filter_cons_of_neg (by simp [hp]), List.flatMap_cons, h a List.mem_cons_self hp, hl,
        List.nil_append]

/-- The expansion of a new set, from those of the sets it holds. -/
theorem layOut_expand (order : Order) (itemType : Option String) (items : List V) (sets : List ℕ) :
    (layOut order itemType items sets).kids.flatMap (expandKid heap) =
      naiveLayout order items (sets.map (expand heap)) := by
  have hitems : ∀ l : List V, (l.map Kid.item).flatMap (expandKid heap) = l := by
    intro l
    rw [List.flatMap_map]
    simp [expandKid]
  have hsets : ∀ l : List ℕ, (l.map Kid.set).flatMap (expandKid heap) = (l.map (expand heap)).flatten := by
    intro l
    rw [List.flatMap_map, ← List.flatMap_def]
    rfl
  cases order with
  | topological =>
    simp only [layOut, Depset.kids, naiveLayout, if_true, List.flatMap_append, hitems, hsets]
    rw [List.map_reverse]
  | preorder => simp [layOut, Depset.kids, naiveLayout, hitems, hsets]
  | default => simp [layOut, Depset.kids, naiveLayout, hitems, hsets]
  | postorder => simp [layOut, Depset.kids, naiveLayout, hitems, hsets]

/-- Sets that expand to nothing may be left out. -/
theorem naiveLayout_filter {α : Type} {f : α → List V} {p : α → Bool} {l : List α} (order : Order)
    (items : List V) (h : ∀ a ∈ l, p a = false → f a = []) :
    naiveLayout order items ((l.filter p).map f) = naiveLayout order items (l.map f) := by
  have hl : ((l.filter p).map f).flatten = (l.map f).flatten := by
    rw [← List.flatMap_def, ← List.flatMap_def, flatMap_filter l h]
  have hrev : ((l.filter p).map f).reverse.flatten = (l.map f).reverse.flatten := by
    rw [← List.map_reverse, ← List.map_reverse, ← List.filter_reverse, ← List.flatMap_def,
      ← List.flatMap_def, flatMap_filter l.reverse fun a ha => h a (List.mem_reverse.mp ha)]
  cases order <;> simp [naiveLayout, hl, hrev]

theorem alone_some {order : Order} {items : List V} {sets : List ℕ} {only : ℕ}
    (h : alone heap order items sets = some only) :
    items = [] ∧ sets = [only] ∧ ∃ d, heap[only]? = some d ∧ d.order = order := by
  unfold alone at h
  split at h
  · split at h
    · next ho =>
      cases h
      obtain ⟨d,hd,ho⟩ := (Option.any_eq_true _ _).mp ho
      exact ⟨rfl,rfl,d,hd,of_decide_eq_true ho⟩
    · cases h
  · cases h

theorem layOut_sets {order : Order} {itemType : Option String} {items : List V} {sets : List ℕ} {s : ℕ} :
    s ∈ (layOut order itemType items sets).sets ↔ s ∈ sets := by
  unfold layOut
  split <;> simp

theorem layOut_itemType (order : Order) (itemType : Option String) (items : List V) (sets : List ℕ) :
    (layOut order itemType items sets).itemType = itemType := by
  unfold layOut
  split <;> rfl

theorem layOut_order (order : Order) (itemType : Option String) (items : List V) (sets : List ℕ) :
    (layOut order itemType items sets).order = order := by
  unfold layOut
  split <;> simp_all

theorem layOut_first (order : Order) (itemType : Option String) (items : List V) (sets : List ℕ)
    (h : (layOut order itemType items sets).order ≠ .preorder) :
    (layOut order itemType items sets).setsFirst = true := by
  rw [layOut_order] at h
  unfold layOut
  split
  · rfl
  · exact decide_eq_true h

theorem Grounded.push (hg : Grounded heap) {d : Depset V} (hsets : ∀ s ∈ d.sets, s < heap.length)
    (hempty : d.itemType = none → d.items = [] ∧ d.sets = [])
    (hfirst : d.order ≠ .preorder → d.setsFirst = true) : Grounded (heap ++ [d]) := by
  have hcases : ∀ (id : ℕ) (e : Depset V), (heap ++ [d])[id]? = some e →
      heap[id]? = some e ∨ id = heap.length ∧ e = d := by
    intro id e he
    rw [List.getElem?_append] at he
    split at he
    · exact .inl he
    · next hlt =>
      obtain ⟨hl,he⟩ := List.getElem?_eq_some_iff.mp he
      simp only [List.length_singleton] at hl
      have hid : id = heap.length := by omega
      subst hid
      exact .inr ⟨rfl,by simpa using he.symm⟩
  constructor
  · intro id e he s hs
    rcases hcases id e he with he | ⟨rfl,rfl⟩
    · exact hg.older id e he s hs
    · exact hsets s hs
  · intro id e he hn
    rcases hcases id e he with he | ⟨rfl,rfl⟩
    · exact hg.empty id e he hn
    · exact hempty hn
  · intro id e he ho
    rcases hcases id e he with he | ⟨rfl,rfl⟩
    · exact hg.first id e he ho
    · exact hfirst ho

theorem newDepset_ok [DecidableEq V] {typeOf : V → String} {hashable : V → Bool}
    (hg : Grounded heap) {direct : List V} {order : Order} {transitive : List ℕ} {heap' : Heap V}
    {id : ℕ} (h : newDepset typeOf hashable heap direct order transitive = .ok (heap',id)) :
    Grounded heap' ∧ (∃ more, heap' = heap ++ more) ∧
      ∃ d, heap'[id]? = some d ∧ d.order = order ∧
        expand heap' id = naiveLayout order direct.eraseDups (transitive.map (expand heap)) := by
  unfold newDepset at h
  rw [Fallible.bind_ok] at h
  obtain ⟨children,hc,h⟩ := h
  rw [Fallible.bind_ok] at h
  obtain ⟨⟨itemType,items⟩,hi,h⟩ := h
  rw [Fallible.bind_ok] at h
  obtain ⟨⟨itemType',sets⟩,hs,h⟩ := h
  obtain ⟨rfl,hchild⟩ := checkOrders_ok hc
  obtain ⟨hitems,hnone⟩ := addItems_ok hi fun _ => rfl
  rw [addAll_nil] at hitems
  obtain ⟨hsets,hnone'⟩ := addSets_ok hs
  rw [List.nil_append] at hsets
  simp only at hitems hsets hnone hnone'
  have hlayout : naiveLayout order items (sets.map (expand heap)) =
      naiveLayout order direct.eraseDups ((children.map Prod.fst).map (expand heap)) := by
    rw [hitems, hsets, List.map_map, List.map_map]
    refine naiveLayout_filter order _ fun c hc hn => ?_
    exact hg.expand_empty (hchild c hc) (by simpa using hn)
  rw [← hlayout]
  have hlt : ∀ s ∈ sets, s < heap.length := by
    intro s hs
    rw [hsets] at hs
    obtain ⟨c,hc,rfl⟩ := List.mem_map.mp hs
    exact (List.getElem?_eq_some_iff.mp (hchild c (List.mem_filter.mp hc).1)).1
  cases ha : alone heap order items sets with
  | some only =>
    simp only [ha, Fallible.pure_ok] at h
    cases h
    obtain ⟨rfl,rfl,d,hd,ho⟩ := alone_some ha
    refine ⟨hg,⟨[],by simp⟩,d,hd,ho,?_⟩
    cases order <;> simp [naiveLayout]
  | none =>
    simp only [ha, Fallible.pure_ok] at h
    cases h
    have hgrounded : Grounded (heap ++ [layOut order itemType' items sets]) := by
      refine hg.push (fun s hs => hlt s (layOut_sets.mp hs)) (fun hn => ?_)
        (layOut_first order itemType' items sets)
      obtain ⟨hn,hall⟩ := hnone' (by simpa [layOut_itemType] using hn)
      have hno : sets = [] := by
        rw [hsets, List.filter_eq_nil_iff.mpr fun c hc => by simp [hall c hc]]
        rfl
      rw [hnone hn, hno]
      unfold layOut
      split <;> simp
    refine ⟨hgrounded,⟨_,rfl⟩,_,List.getElem?_concat_length,layOut_order ..,?_⟩
    rw [hgrounded.expand_eq List.getElem?_concat_length, layOut_expand]
    congr 1
    exact List.map_congr_left fun s hs => expand_append heap _ (hlt s hs)

end New

section Built

/-- The depsets that the calls have given, and what the calls say they hold. -/
structure Built (built : Heap V × List ℕ) (done : List (Order × List V)) : Prop where
  grounded : Grounded built.1
  length : built.2.length = done.length
  said : ∀ (i id : ℕ), built.2[i]? = some id →
    ∃ d, built.1[id]? = some d ∧ done[i]? = some (d.order,expand built.1 id)

theorem built_nil : Built (([],[]) : Heap V × List ℕ) [] := by
  refine ⟨⟨?_,?_,?_⟩,rfl,?_⟩
  · intro id d hd
    simp at hd
  · intro id d hd
    simp at hd
  · intro id d hd
    simp at hd
  · intro i id hid
    simp at hid

theorem mapM_getElem? {α : Type} {l : List α} {is : List ℕ} {xs : List α}
    (h : is.mapM (fun i => l[i]?) = some xs) : List.Forall₂ (fun i x => l[i]? = some x) is xs := by
  induction is generalizing xs with
  | nil =>
    cases h
    exact .nil
  | cons i is ih =>
    simp only [List.mapM_cons, Option.bind_eq_bind, Option.bind_eq_some_iff] at h
    obtain ⟨x,hx,ys,hys,h⟩ := h
    cases h
    exact .cons hx (ih hys)

theorem Built.transitive {built : Heap V × List ℕ} {done : List (Order × List V)}
    (hb : Built built done) {is ids : List ℕ}
    (h : List.Forall₂ (fun i id => built.2[i]? = some id) is ids) :
    ids.map (expand built.1) = is.map fun i => (done[i]?.map Prod.snd).getD [] := by
  induction h with
  | nil => rfl
  | cons hx _ ih =>
    obtain ⟨d,-,hi⟩ := hb.said _ _ hx
    rw [List.map_cons, List.map_cons, ih, hi]
    rfl

variable [DecidableEq V] {typeOf : V → String} {hashable : V → Bool}

theorem Built.call {built built' : Heap V × List ℕ} {done : List (Order × List V)}
    (hb : Built built done) {c : Call V} (h : Starlark.call typeOf hashable built c = .ok built') :
    Built built' (naive done c) := by
  unfold Starlark.call at h
  split at h
  · cases h
  · next transitive ht =>
    split at h
    · cases h
    · next heap id hn =>
      cases h
      obtain ⟨hg,⟨more,rfl⟩,d,hd,ho,he⟩ := newDepset_ok hb.grounded hn
      have hsaid : ∀ (i id : ℕ), built.2[i]? = some id → ∃ d, (built.1 ++ more)[id]? = some d ∧
          done[i]? = some (d.order,expand (built.1 ++ more) id) := by
        intro i id hid
        obtain ⟨d,hd,hi⟩ := hb.said i id hid
        have hlt := (List.getElem?_eq_some_iff.mp hd).1
        rw [← expand_append built.1 more hlt] at hi
        exact ⟨d,(List.getElem?_append_left hlt).trans hd,hi⟩
      have htrans := hb.transitive (mapM_getElem? ht)
      refine ⟨hg,by simp [naive, hb.length],fun i id' hid => ?_⟩
      rw [List.getElem?_append] at hid
      split at hid
      · next hlt =>
        obtain ⟨d,hd,hi⟩ := hsaid i id' hid
        refine ⟨d,hd,?_⟩
        rw [naive, List.getElem?_append_left (hb.length ▸ hlt)]
        exact hi
      · next hlt =>
        obtain ⟨hl,hid⟩ := List.getElem?_eq_some_iff.mp hid
        have hi : i = built.2.length := by
          simp only [List.length_singleton] at hl
          omega
        subst hi
        simp only [Nat.sub_self, List.getElem_cons_zero] at hid
        subst hid
        refine ⟨d,hd,?_⟩
        rw [naive, hb.length, List.getElem?_concat_length, ho, he, htrans]

theorem build_built {calls : List (Call V)} {built : Heap V × List ℕ}
    (h : build typeOf hashable calls = .ok built) : Built built (calls.foldl naive []) := by
  have hrun : ∀ (calls : List (Call V)) (start : Heap V × List ℕ) (done : List (Order × List V)),
      Built start done → calls.foldlM (Starlark.call typeOf hashable) start = .ok built →
      Built built (calls.foldl naive done) := by
    intro calls
    induction calls with
    | nil =>
      intro start done hs h
      rw [List.foldlM_nil, Fallible.pure_ok] at h
      exact h ▸ hs
    | cons c calls ih =>
      intro start done hs h
      rw [List.foldlM_cons, Fallible.bind_ok] at h
      obtain ⟨mid,hm,h⟩ := h
      exact ih mid _ (hs.call hm) h
  exact hrun calls _ _ built_nil h

end Built

section Topological
variable {heap : Heap V}

/-- One set holds another. -/
def HoldsSet (heap : Heap V) (a b : ℕ) : Prop := ∃ d, heap[a]? = some d ∧ b ∈ d.sets

theorem Grounded.expand_first (hg : Grounded heap) {id : ℕ} {d : Depset V} (hd : heap[id]? = some d)
    (hfirst : d.setsFirst = true) : expand heap id = d.sets.flatMap (expand heap) ++ d.items := by
  rw [hg.expand_eq hd, Depset.kids, if_pos hfirst, List.flatMap_append, List.flatMap_map,
    List.flatMap_map]
  simp [expandKid]

theorem Grounded.mem_expand (hg : Grounded heap) {id : ℕ} {x : V} :
    x ∈ expand heap id ↔ ∃ s d, ReflTransGen (HoldsSet heap) id s ∧ heap[s]? = some d ∧ x ∈ d.items := by
  induction id using Nat.strongRecOn with
  | ind id ih =>
    cases hd : heap[id]? with
    | none =>
      rw [expand, hd]
      simp only [List.not_mem_nil, false_iff, not_exists, not_and]
      intro s e hs he
      rcases ReflTransGen.cases_head hs with rfl | ⟨t,⟨d,hd',-⟩,-⟩
      · rw [hd] at he
        cases he
      · rw [hd] at hd'
        cases hd'
    | some d =>
      rw [hg.expand_eq hd, List.mem_flatMap]
      constructor
      · rintro ⟨kid,hk,hx⟩
        cases kid with
        | item v =>
          rw [List.mem_singleton.mp hx]
          exact ⟨id,d,.refl,hd,Depset.item_mem_kids.mp hk⟩
        | set t =>
          have ht := Depset.set_mem_kids.mp hk
          obtain ⟨s,e,hs,he,hx⟩ := (ih t (hg.older id d hd t ht)).mp hx
          exact ⟨s,e,.head ⟨d,hd,ht⟩ hs,he,hx⟩
      · rintro ⟨s,e,hs,he,hx⟩
        rcases ReflTransGen.cases_head hs with rfl | ⟨t,⟨d',hd',ht⟩,hs⟩
        · cases hd.symm.trans he
          exact ⟨.item x,Depset.item_mem_kids.mpr hx,List.mem_singleton.mpr rfl⟩
        · cases hd.symm.trans hd'
          exact ⟨.set t,Depset.set_mem_kids.mpr ht,(ih t (hg.older id d hd t ht)).mpr ⟨s,e,hs,he,hx⟩⟩

/-- Every set from the root down is topological, and holds its items alone. -/
structure TopologicalBelow (heap : Heap V) (root : ℕ) : Prop where
  order : ∀ (s : ℕ) (d : Depset V), ReflTransGen (HoldsSet heap) root s → heap[s]? = some d →
    d.order = .topological
  one : ∀ (s t : ℕ) (d e : Depset V) (x : V), ReflTransGen (HoldsSet heap) root s →
    ReflTransGen (HoldsSet heap) root t → heap[s]? = some d → heap[t]? = some e → x ∈ d.items →
    x ∈ e.items → s = t

theorem TopologicalBelow.leads {root : ℕ} (hg : Grounded heap) (h : TopologicalBelow heap root)
    {s t : ℕ} {d e : Depset V} {x y : V} (hs : ReflTransGen (HoldsSet heap) root s)
    (ht : TransGen (HoldsSet heap) s t) (hd : heap[s]? = some d) (he : heap[t]? = some e)
    (hx : x ∈ d.items) (hy : y ∈ e.items) (u : ℕ) (hu : ReflTransGen (HoldsSet heap) root u) :
    Leads y x (expand heap u) := by
  induction u using Nat.strongRecOn with
  | ind u ih =>
    cases hc : heap[u]? with
    | none =>
      rw [expand, hc]
      exact leads_of_not_mem List.not_mem_nil
    | some c =>
      have hfirst : c.setsFirst = true := hg.first u c hc (by rw [h.order u c hu hc]; decide)
      rw [hg.expand_first hc hfirst]
      have hsets : Leads y x (c.sets.flatMap (expand heap)) :=
        Leads.flatMap _ fun b hb => ih b (hg.older u c hc b hb) (hu.tail ⟨c,hc,hb⟩)
      refine hsets.append ?_
      by_cases hus : u = s
      · -- The sets below `s` come before its items, and `y` is in one of them.
        subst hus
        cases hc.symm.trans hd
        obtain ⟨b,⟨c',hc',hb⟩,hbt⟩ := TransGen.head'_iff.mp ht
        cases hc.symm.trans hc'
        exact .inl (List.mem_flatMap.mpr ⟨b,hb,hg.mem_expand.mpr ⟨t,e,hbt,he,hy⟩⟩)
      · exact .inr (leads_of_not_mem fun hxc => hus (h.one u s c d x hu hs hc hd hxc hx))

theorem TopologicalBelow.before [DecidableEq V] {root : ℕ} (hg : Grounded heap)
    (h : TopologicalBelow heap root) {s t : ℕ} {d e : Depset V} {x y : V}
    (hs : ReflTransGen (HoldsSet heap) root s) (ht : TransGen (HoldsSet heap) s t)
    (hd : heap[s]? = some d) (he : heap[t]? = some e) (hx : x ∈ d.items) (hy : y ∈ e.items) :
    ∃ p q, listing .topological (expand heap root) = p ++ x::q ∧ y ∈ q := by
  have hleads := h.leads hg hs ht hd he hx hy root .refl
  have hcollected : Leads y x (expand heap root).eraseDups := by
    rw [← addAll_nil]
    exact leads_addAll (leads_of_not_mem List.not_mem_nil) fun p q hpq => .inr (hleads p q hpq)
  have hmem : x ∈ (expand heap root).eraseDups :=
    List.mem_eraseDups.mpr (hg.mem_expand.mpr ⟨s,d,hs,hd,hx⟩)
  obtain ⟨p,q,hpq⟩ := List.append_of_mem hmem
  refine ⟨q.reverse,p.reverse,?_,List.mem_reverse.mpr (hcollected p q hpq)⟩
  rw [listing, if_pos rfl, hpq]
  simp

end Topological

theorem flatten_is_naive [DecidableEq V] (typeOf : V → String) (hashable : V → Bool)
    (calls : List (Call V)) (heap : Heap V) (ids : List ℕ)
    (h : build typeOf hashable calls = .ok (heap,ids)) :
    (∀ (id : ℕ) (d : Depset V) (root : Option ℕ), heap[id]? = some d → root = none ∨ root = some id →
      ∃ n, ∀ fuel, n ≤ fuel → flatten heap d root fuel = some (listing d.order (expand heap id))) ∧
    (∀ (id : ℕ) (d : Depset V), heap[id]? = some d →
      expand heap id = d.kids.flatMap (expandKid heap)) ∧
    (∀ i id : ℕ, ids[i]? = some id → ∃ d, heap[id]? = some d ∧
      (calls.foldl naive [])[i]? = some (d.order,expand heap id)) ∧
    (∀ (root s t : ℕ) (d e : Depset V) (x y : V), TopologicalBelow heap root →
      ReflTransGen (HoldsSet heap) root s → TransGen (HoldsSet heap) s t → heap[s]? = some d →
      heap[t]? = some e → x ∈ d.items → y ∈ e.items →
      ∃ p q, listing .topological (expand heap root) = p ++ x::q ∧ y ∈ q) := by
  have hb := build_built h
  refine ⟨fun id d root hd hr => flatten_expand hb.grounded hd hr,
    fun id d hd => hb.grounded.expand_eq hd,hb.said,
    fun root s t d e x y ht hs hst hd he hx hy => ht.before hb.grounded hs hst hd he hx hy⟩

/-- A set below two others, in one that holds both. -/
def diamond : List (Call ℕ) :=
  [⟨[1],.default,[]⟩,⟨[2],.topological,[0]⟩,⟨[3],.topological,[0]⟩,⟨[4,1],.topological,[1,2]⟩,
    ⟨[],.topological,[3]⟩]

def diamondHeap : Heap ℕ :=
  [⟨.default,some "int",true,[1],[]⟩,⟨.topological,some "int",true,[2],[0]⟩,
    ⟨.topological,some "int",true,[3],[0]⟩,⟨.topological,some "int",true,[1,4],[2,1]⟩]

theorem flatten_is_naive_diamond :
    build (fun _ => "int") (fun _ => true) diamond = .ok (diamondHeap,[0,1,2,3,3]) ∧
    ∃ d, diamondHeap[3]? = some d ∧ ∃ n, ∀ fuel, n ≤ fuel →
      flatten diamondHeap d (some 3) fuel = some (listing d.order (expand diamondHeap 3)) := by
  have hbuild : build (fun _ => "int") (fun _ => true) diamond = .ok (diamondHeap,[0,1,2,3,3]) := rfl
  exact ⟨hbuild,_,rfl,
    (flatten_is_naive _ _ diamond diamondHeap _ hbuild).1 3 _ (some 3) rfl (.inr rfl)⟩

end BuildFiji.Starlark
