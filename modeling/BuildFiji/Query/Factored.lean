import BuildFiji.Query.OutputOrder
import Mathlib

/-!
# The factored graph of a query's result

A group's first target stands for it, and only the edges of the representatives are drawn. Since
the targets of a group have the same successors and the same predecessors, these are the edges of
all: what is drawn between two groups is what leads from any target of the one to any of the
other.
-/

set_option autoImplicit false
set_option linter.all false

namespace BuildFiji.Query.Output

open BuildFiji.Graph

section Shapes

variable (g : Subgraph)

theorem mem_precede_fold {source x : Label} {targets : List Label} {preds : Label → Finset Label} {t : Label} :
    x ∈ targets.foldl (precede source) preds t ↔ x ∈ preds t ∨ x = source ∧ t ∈ targets := by
  induction targets generalizing preds with
  | nil => simp
  | cons target targets ih =>
    rw [List.foldl_cons, ih]
    unfold precede
    by_cases h : t = target
    · subst h
      simp only [Function.update_self, Finset.mem_insert, List.mem_cons, true_or, and_true]
      tauto
    · simp [Function.update_of_ne h, h]

theorem mem_predecessors {x t : Label} : x ∈ predecessors g t ↔ x ∈ g.keys ∧ t ∈ g.next x := by
  have hfold : ∀ (sources : List Label) (preds : Label → Finset Label),
      x ∈ sources.foldl (fun preds source => (g.next source).foldl (precede source) preds) preds t ↔
        x ∈ preds t ∨ x ∈ sources ∧ t ∈ g.next x := by
    intro sources
    induction sources with
    | nil => simp
    | cons source sources ih =>
      intro preds
      rw [List.foldl_cons, ih, mem_precede_fold]
      by_cases hx : x = source
      · subst hx
        simp only [List.mem_cons, true_or, true_and]
        tauto
      · simp [hx]
  rw [predecessors, hfold]
  simp

/-- With the same predecessors and the same successors. -/
def Same (a b : Label) : Prop :=
  (∀ x ∈ g.keys, a ∈ g.next x ↔ b ∈ g.next x) ∧ ∀ y, y ∈ g.next a ↔ y ∈ g.next b

variable {g}

theorem Same.symm {a b : Label} (h : Same g a b) : Same g b a :=
  ⟨fun x hx => (h.1 x hx).symm,fun y => (h.2 y).symm⟩

theorem same_of_shape {a b : Label} (h : shapeOf g a = shapeOf g b) : Same g a b := by
  obtain ⟨hpreds,hnext⟩ := Prod.mk.inj h
  refine ⟨fun x hx => ?_,fun y => ?_⟩
  · have := congrArg (x ∈ ·) hpreds
    simp only [mem_predecessors, hx, true_and] at this
    exact this ▸ Iff.rfl
  · have := congrArg (y ∈ ·) hnext
    simp only [List.mem_toFinset] at this
    exact this ▸ Iff.rfl

end Shapes

section Merging

variable (g : Subgraph) (factored : Bool) (order : List Label)

/-- The representative, as the whole order has it. -/
def firstOf (label : Label) : Label :=
  if factored then (order.find? fun x => shapeOf g x = shapeOf g label).getD label else label

/-- What has been merged of the order. -/
structure Merged (done : List Label) (m : Merging) : Prop where
  byShape : factored = true → ∀ s, m.byShape.lookup s = done.find? fun x => shapeOf g x = s
  repOf : ∀ l, m.out.repOf[l]? = if l ∈ done then some (firstOf g factored order l) else none
  members : ∀ r, m.out.members r = done.filter fun l => firstOf g factored order l = r
  order : m.out.order = done.filter fun l => firstOf g factored order l = l

variable {g factored order}

theorem firstOf_known {done rest : List Label} {label : Label} {m : Merging} (hsplit : order = done ++ label::rest)
    (h : Merged g factored order done m) :
    ((if factored then m.byShape.lookup (shapeOf g label) else none).getD label) = firstOf g factored order label := by
  cases factored with
  | false => rfl
  | true =>
    rw [if_pos rfl, h.byShape rfl, firstOf, if_pos rfl, hsplit, List.find?_append,
      List.find?_cons_of_pos (by simp)]
    cases done.find? fun x => shapeOf g x = shapeOf g label <;> rfl

theorem lookup_append_single {l : List (Shape × Label)} {s s' : Shape} {label : Label} :
    (l ++ [(s,label)]).lookup s' = (l.lookup s').or (if s' = s then some label else none) := by
  induction l with
  | nil =>
    by_cases h : s' = s
    · simp [List.lookup, h]
    · simp [List.lookup, beq_false_of_ne h, h]
  | cons e l ih =>
    by_cases h : s' = e.1
    · simp [List.lookup, h]
    · simp [List.lookup, beq_false_of_ne h, ih]

theorem Merged.merge {done rest : List Label} {label : Label} {m : Merging} (hsplit : order = done ++ label::rest)
    (h : Merged g factored order done m) : Merged g factored order (done ++ [label]) (merge g factored m label) := by
  have hrep := firstOf_known hsplit h
  unfold Output.merge
  dsimp only
  rw [hrep]
  refine ⟨fun hf s => ?_,fun l => ?_,fun r => ?_,?_⟩
  · subst hf
    dsimp only
    rw [List.find?_append, ← h.byShape rfl]
    simp only [if_true, Bool.true_and]
    cases hknown : m.byShape.lookup (shapeOf g label) with
    | none =>
      rw [if_pos (by rfl), lookup_append_single]
      by_cases hs : s = shapeOf g label
      · simp [hs]
      · simp [hs, Ne.symm hs]
    | some rep =>
      rw [if_neg (by simp)]
      by_cases hs : s = shapeOf g label
      · simp [hs, hknown]
      · simp [Ne.symm hs]
  · dsimp only
    rw [Std.ExtTreeMap.getElem?_insert, h.repOf]
    by_cases hl : l = label
    · simp [hl]
    · simp [hl, Ne.symm hl]
  · rw [List.filter_append, ← h.members, Factored.members, Std.ExtTreeMap.getElem?_insert]
    by_cases hr : firstOf g factored order label = r
    · simp [hr]
    · simp [hr, Factored.members]
  · rw [List.filter_append, ← h.order]
    dsimp only
    split
    · next heq => simp [heq]
    · next hne => simp [hne]

theorem merged_all {done rest : List Label} {m : Merging} (hsplit : order = done ++ rest)
    (h : Merged g factored order done m) : Merged g factored order order (rest.foldl (Output.merge g factored) m) := by
  induction rest generalizing done m with
  | nil =>
    rw [List.append_nil] at hsplit
    exact hsplit ▸ h
  | cons label rest ih => exact ih (by simp [hsplit]) (h.merge hsplit)

theorem Merged.initial : Merged g factored order [] ⟨[],⟨[],∅,∅⟩⟩ :=
  ⟨fun _ _ => rfl,fun _ => by simp,fun _ => by simp [Factored.members],rfl⟩

theorem factor_merged : ∃ m, m.out = factor g order factored ∧ Merged g factored order order m :=
  ⟨_,rfl,merged_all rfl Merged.initial⟩

theorem firstOf_same (l : Label) : Same g (firstOf g factored order l) l := by
  unfold firstOf
  split
  · cases hfind : order.find? fun x => shapeOf g x = shapeOf g l with
    | none => exact ⟨fun _ _ => Iff.rfl,fun _ => Iff.rfl⟩
    | some x => exact same_of_shape (by simpa using List.find?_some hfind)
  · exact ⟨fun _ _ => Iff.rfl,fun _ => Iff.rfl⟩

theorem firstOf_mem {l : Label} (h : l ∈ order) : firstOf g factored order l ∈ order := by
  unfold firstOf
  split
  · cases hfind : order.find? fun x => shapeOf g x = shapeOf g l with
    | none => exact h
    | some x => exact List.mem_of_find?_eq_some hfind
  · exact h

theorem firstOf_firstOf (l : Label) :
    firstOf g factored order (firstOf g factored order l) = firstOf g factored order l := by
  cases factored with
  | false => rfl
  | true =>
    simp only [firstOf, if_true]
    cases hfind : order.find? fun x => shapeOf g x = shapeOf g l with
    | none => simp [hfind]
    | some x =>
      have hshape : shapeOf g x = shapeOf g l := by simpa using List.find?_some hfind
      simp [hshape, hfind]

end Merging

section Groups

variable (g : Subgraph) (factored : Bool)

theorem representative_eq {l : Label} (h : l ∈ g.edges) :
    (graphNodes g factored).representative l = firstOf g factored (dependencyOrder g) l := by
  obtain ⟨m,hm,hmerged⟩ := @factor_merged g factored (dependencyOrder g)
  rw [graphNodes, ← hm, Factored.representative, hmerged.repOf, if_pos ((mem_dependencyOrder g).mpr h)]
  rfl

theorem mem_members {r l : Label} :
    l ∈ (graphNodes g factored).members r ↔ l ∈ g.edges ∧ (graphNodes g factored).representative l = r := by
  obtain ⟨m,hm,hmerged⟩ := @factor_merged g factored (dependencyOrder g)
  have hmembers := hmerged.members r
  rw [hm] at hmembers
  change (graphNodes g factored).members r = _ at hmembers
  rw [hmembers, List.mem_filter, mem_dependencyOrder, decide_eq_true_eq]
  apply and_congr_right
  intro h
  rw [representative_eq g factored h]

theorem members_nodup (r : Label) : ((graphNodes g factored).members r).Nodup := by
  obtain ⟨m,hm,hmerged⟩ := @factor_merged g factored (dependencyOrder g)
  have hmembers := hmerged.members r
  rw [hm] at hmembers
  change (graphNodes g factored).members r = _ at hmembers
  rw [hmembers]
  exact (dependencyOrder_nodup g).filter _

theorem order_eq : (graphNodes g factored).order =
    (dependencyOrder g).filter fun l => firstOf g factored (dependencyOrder g) l = l := by
  obtain ⟨m,hm,hmerged⟩ := @factor_merged g factored (dependencyOrder g)
  rw [graphNodes, ← hm, hmerged.order]

theorem mem_order {l : Label} :
    l ∈ (graphNodes g factored).order ↔ l ∈ g.edges ∧ (graphNodes g factored).representative l = l := by
  rw [order_eq, List.mem_filter, mem_dependencyOrder, decide_eq_true_eq]
  apply and_congr_right
  intro h
  rw [representative_eq g factored h]

theorem representative_order {l : Label} (h : l ∈ g.edges) :
    (graphNodes g factored).representative l ∈ (graphNodes g factored).order := by
  rw [order_eq, representative_eq g factored h, List.mem_filter, decide_eq_true_eq]
  exact ⟨firstOf_mem ((mem_dependencyOrder g).mpr h),firstOf_firstOf l⟩

theorem representative_same {l : Label} (h : l ∈ g.edges) : Same g ((graphNodes g factored).representative l) l := by
  rw [representative_eq g factored h]
  exact firstOf_same l

theorem representative_unfactored {l : Label} (h : l ∈ g.edges) : (graphNodes g false).representative l = l :=
  representative_eq g false h

/-- What a representative leads to, each with its own representative, is what each of its group
leads to. -/
theorem leads_iff {u v : Label} (hu : u ∈ g.edges) (hv : v ∈ g.edges) :
    (∃ w ∈ g.next ((graphNodes g factored).representative u),
      (graphNodes g factored).representative w = (graphNodes g factored).representative v) ↔ v ∈ g.next u := by
  have hsame := representative_same g factored hu
  constructor
  · rintro ⟨w,hw,heq⟩
    have huw := (hsame.2 w).mp hw
    have hwin := (mem_keys g).mp (next_closed g u ((mem_keys g).mpr hu) w huw)
    have hsw := (representative_same g factored hwin).1 u ((mem_keys g).mpr hu)
    have hsv := (representative_same g factored hv).1 u ((mem_keys g).mpr hu)
    rw [heq] at hsw
    exact hsv.mp (hsw.mpr huw)
  · intro h
    exact ⟨v,(hsame.2 v).mpr h,rfl⟩

end Groups

section Drawing

variable (g : Subgraph) (naming : Naming) (nodes : Factored)

theorem drawEdges_count (label t : Label) (seen : List Label) (es : List Edge) :
    (drawEdges nodes label seen es).count (.edge label t) =
      if t ∉ seen ∧ ∃ e ∈ es, nodes.representative e.target = t then 1 else 0 := by
  induction es generalizing seen with
  | nil => simp [drawEdges]
  | cons e es ih =>
    have hcondition : (e.condition.toList.map Drawn.condition).count (.edge label t) = 0 := by
      rw [List.count_eq_zero]
      simp
    rw [drawEdges]
    split
    · next hseen =>
      rw [ih]
      congr 1
      apply propext
      apply and_congr_right
      intro ht
      have hne : nodes.representative e.target ≠ t := fun heq => ht (heq ▸ hseen)
      simp [hne]
    · next hnew =>
      rw [List.count_cons, List.count_append, hcondition, ih]
      by_cases heq : nodes.representative e.target = t
      · subst heq
        simp [hnew]
      · simp [heq, Ne.symm heq]

theorem drawEdges_other {label other t : Label} (h : other ≠ label) (seen : List Label) (es : List Edge) :
    (drawEdges nodes label seen es).count (.edge other t) = 0 := by
  rw [List.count_eq_zero]
  induction es generalizing seen with
  | nil => simp [drawEdges]
  | cons e es ih =>
    rw [drawEdges]
    split
    · exact ih seen
    · simp [h, ih]

theorem mem_listedEdges {label : Label} {e : Edge} : e ∈ listedEdges g naming label ↔ e ∈ g.edgesOf label := by
  unfold listedEdges
  split
  · exact List.mem_mergeSort
  · exact Iff.rfl

theorem drawn_count {order : List Label} (hnodup : order.Nodup) {r t : Label} (hr : r ∈ order) :
    (order.flatMap fun label => .node label :: drawEdges nodes label [] (listedEdges g naming label)).count
      (Drawn.edge r t) = if ∃ w ∈ g.next r, nodes.representative w = t then 1 else 0 := by
  induction order with
  | nil => cases hr
  | cons label order ih =>
    rw [List.nodup_cons] at hnodup
    rw [List.flatMap_cons, List.count_append, List.count_cons_of_ne (by simp)]
    by_cases heq : label = r
    · subst heq
      have hrest : (order.flatMap fun label => .node label :: drawEdges nodes label [] (listedEdges g naming label)).count
          (Drawn.edge label t) = 0 := by
        rw [List.count_eq_zero, List.mem_flatMap]
        rintro ⟨other,hother,hmem⟩
        have hne : label ≠ other := fun heq => hnodup.1 (heq ▸ hother)
        rcases List.mem_cons.mp hmem with hmem | hmem
        · cases hmem
        · exact List.count_eq_zero.mp (drawEdges_other nodes hne [] _) hmem
      rw [hrest, drawEdges_count]
      simp [mem_listedEdges, Subgraph.next]
    · rw [drawEdges_other nodes (Ne.symm heq), Nat.zero_add]
      exact ih hnodup.2 ((List.mem_cons.mp hr).resolve_left (Ne.symm heq))

/-- Only representatives are drawn. -/
theorem drawn_representatives (factored : Bool) {s t : Label}
    (h : Drawn.edge s t ∈ drawn g naming (graphNodes g factored)) :
    s ∈ (graphNodes g factored).order ∧ t ∈ (graphNodes g factored).order := by
  obtain ⟨label,hlabel,hmem⟩ := List.mem_flatMap.mp h
  have hedge := (List.mem_cons.mp hmem).resolve_left (by simp)
  have hs : s = label := by
    by_contra hne
    exact List.count_eq_zero.mp (drawEdges_other _ hne [] _) hedge
  subst hs
  have hcount := List.count_pos_iff.mpr hedge
  rw [drawEdges_count] at hcount
  split at hcount
  · next hdrawn =>
    obtain ⟨e,he,rfl⟩ := hdrawn.2
    rw [mem_listedEdges] at he
    have hkey := (mem_keys g).mpr ((mem_order g factored).mp hlabel).1
    have htarget := next_closed g s hkey e.target (List.mem_map.mpr ⟨e,he,rfl⟩)
    exact ⟨hlabel,representative_order g factored ((mem_keys g).mp htarget)⟩
  · cases hcount

end Drawing

/-- The groups are a partition of the targets, and between two of them an edge is drawn, once,
exactly when it leads from one target to another. -/
theorem factored_quotient (g : Subgraph) (naming : Naming) (factored : Bool) :
    (∀ a ∈ g.edges, ∃! r, a ∈ (graphNodes g factored).members r) ∧
    (∀ r a, a ∈ (graphNodes g factored).members r → a ∈ g.edges ∧ r ∈ (graphNodes g factored).order) ∧
    (∀ r, ((graphNodes g factored).members r).Nodup) ∧
    (∀ r ∈ (graphNodes g factored).order, r ∈ (graphNodes g factored).members r) ∧
    (∀ u ∈ g.edges, ∀ v ∈ g.edges, (drawn g naming (graphNodes g factored)).count
      (.edge ((graphNodes g factored).representative u) ((graphNodes g factored).representative v)) =
        if v ∈ g.next u then 1 else 0) ∧
    (∀ s t, Drawn.edge s t ∈ drawn g naming (graphNodes g factored) →
      s ∈ (graphNodes g factored).order ∧ t ∈ (graphNodes g factored).order) ∧
    ∀ u ∈ g.edges, (graphNodes g false).representative u = u := by
  refine ⟨fun a ha => ?_,fun r a h => ?_,members_nodup g factored,fun r hr => ?_,fun u hu v hv => ?_,
    fun _ _ => drawn_representatives g naming factored,fun u hu => representative_unfactored g hu⟩
  · refine ⟨(graphNodes g factored).representative a,(mem_members g factored).mpr ⟨ha,rfl⟩,fun r hr => ?_⟩
    exact ((mem_members g factored).mp hr).2.symm
  · obtain ⟨ha,rfl⟩ := (mem_members g factored).mp h
    exact ⟨ha,representative_order g factored ha⟩
  · exact (mem_members g factored).mpr ((mem_order g factored).mp hr)
  · have hnodup : (graphNodes g factored).order.Nodup := by
      rw [order_eq]
      exact (dependencyOrder_nodup g).filter _
    rw [drawn, drawn_count g naming _ hnodup (representative_order g factored hu)]
    simp only [leads_iff g factored hu hv]

end BuildFiji.Query.Output
