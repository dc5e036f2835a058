import BuildFiji.Lib.Fallible
import BuildFiji.Lib.Levels
import BuildFiji.Query.Eval
import Mathlib

/-!
# The graph functions of a query

The functions search the graph forward by levels, backward by levels over an
index of it, and forward with a queue and parent pointers. Over a finite graph
whose nodes load each of them ends, and all of them are about one relation: an
edge that the options keep, from a target that the graph of the query has.
-/

set_option autoImplicit false
set_option linter.all false

namespace BuildFiji.Query

open BuildFiji.Graph BuildFiji.Fallible BuildFiji.Levels

/-- A finite graph in which every node loads. -/
structure TargetGraph.Finite (graph : TargetGraph) (all : Finset Label) : Prop where
  loads : ∀ a ∈ all, ∃ node, graph.node a = .ok node ∧ ∀ edge ∈ node.edges, edge.target ∈ all
  selects : ∀ word labels, graph.pattern word = .ok labels → ∀ l ∈ labels, l ∈ all

namespace Evaluator

/-- A universe query has no target outside of its universe. -/
def Has (e : Evaluator) (label : Label) : Prop := ∀ u ∈ e.universeTargets, label ∈ u

def Leads (e : Evaluator) (a b : Label) : Prop :=
  ∃ node, e.graph.node a = .ok node ∧ ∃ edge ∈ node.edges, keeps e.options edge ∧ edge.target = b

def Kept (e : Evaluator) (a b : Label) : Prop := e.Has a ∧ e.Leads a b

/-- An evaluator as it is set up for a query, with or without a universe. -/
def Built (e : Evaluator) : Prop :=
  ∃ graph options, e = new graph options ∨
    ∃ fuel patterns, (new graph options).withUniverse fuel patterns = .ok e

/-- Targets of the query that load and lead only to each other. -/
structure Vertices (e : Evaluator) (all : Finset Label) : Prop where
  loads : ∀ a ∈ all, ∃ node, e.graph.node a = .ok node
  closed : ∀ a ∈ all, ∀ b, e.Leads a b → b ∈ all
  has : ∀ a ∈ all, e.Has a

section Edges

theorem mem_filter {f : Label → Bool} {targets : Targets} {x : Label} :
    x ∈ targets.filter f ↔ x ∈ targets ∧ f x := by
  simp [Std.ExtTreeSet.mem_filter, Std.ExtTreeSet.get_eq]

theorem mem_filter_contains {targets within : Targets} {x : Label} :
    x ∈ targets.filter (within.contains ·) ↔ x ∈ targets ∧ x ∈ within := mem_filter

theorem withoutRepeats_key (key : Label × Bool) (seen : List (Label × Bool)) (es : List Edge) :
    (∃ edge ∈ withoutRepeats seen es, (edge.target,edge.aspect) = key) ↔
      key ∉ seen ∧ ∃ edge ∈ es, (edge.target,edge.aspect) = key := by
  induction es generalizing seen with
  | nil => simp [withoutRepeats]
  | cons edge es ih =>
    rw [withoutRepeats]
    split
    · next hseen =>
      rw [ih, List.exists_mem_cons_iff]
      constructor
      · exact fun h => ⟨h.1,.inr h.2⟩
      · rintro ⟨hkey,rfl | h⟩
        · exact absurd hseen hkey
        · exact ⟨hkey,h⟩
    · next hseen =>
      rw [List.exists_mem_cons_iff, List.exists_mem_cons_iff, ih, List.mem_cons]
      by_cases heq : (edge.target,edge.aspect) = key
      · simp [heq, heq ▸ hseen]
      · simp [heq, Ne.symm heq]

theorem mem_edges {e : Evaluator} {node : Node} {b : Label} :
    (∃ edge ∈ e.edges node, edge.target = b) ↔
      ∃ edge ∈ node.edges, keeps e.options edge ∧ edge.target = b := by
  have hkey : ∀ (es : List Edge), (∃ edge ∈ es, edge.target = b) ↔
      ∃ aspect, ∃ edge ∈ es, (edge.target,edge.aspect) = (b,aspect) := by
    intro es
    constructor
    · rintro ⟨edge,hmem,rfl⟩
      exact ⟨edge.aspect,edge,hmem,rfl⟩
    · rintro ⟨aspect,edge,hmem,heq⟩
      exact ⟨edge,hmem,(Prod.mk.inj heq).1⟩
  rw [edges, hkey]
  simp only [withoutRepeats_key, List.not_mem_nil, not_false_eq_true, true_and]
  rw [← hkey]
  simp [and_assoc]

theorem leads_iff {e : Evaluator} {a b : Label} {node : Node} (h : e.graph.node a = .ok node) :
    e.Leads a b ↔ ∃ edge ∈ e.edges node, edge.target = b := by
  rw [mem_edges, Leads, h]
  simp

theorem Vertices.kept_iff {e : Evaluator} {all : Finset Label} (h : e.Vertices all) {a b : Label}
    (ha : a ∈ all) : e.Kept a b ↔ e.Leads a b :=
  ⟨And.right,fun hl => ⟨h.has a ha,hl⟩⟩

theorem Vertices.kept_mem {e : Evaluator} {all : Finset Label} (h : e.Vertices all) {a b : Label}
    (ha : a ∈ all) (hk : e.Kept a b) : b ∈ all := h.closed a ha b hk.2

end Edges

section Levels
variable {e : Evaluator} {all : Finset Label}

/-- A walk by levels ends for lack of fuel only before it has made as many levels
as there are vertices. -/
theorem levelsLoop_ends {σ : Type} (edge : Label → Label → Prop) (roots : Label → Prop)
    (seen : σ → Label → Prop) (frontier : σ → List Label) (visit : σ → Result σ)
    (hroots : ∀ r, roots r → r ∈ all) (hedge : ∀ a b, a ∈ all → edge a b → b ∈ all)
    (hvisit : ∀ s, (∀ a ∈ frontier s, a ∈ all) → ∃ s', visit s = .ok s' ∧
      Saw (seen s) (fun _ => False) (seen s') (· ∈ frontier s') fun x => ∃ a ∈ frontier s, edge a x)
    (depth : Option ℕ) (fuel n : ℕ) (s : σ) (hs : Searched edge roots n (seen s) (· ∈ frontier s))
    (hn : ∀ m ∈ depth, n ≤ m) (hcard : n ≤ all.card) :
    (levelsLoop frontier visit depth fuel n s = .error .outOfFuel ∧ fuel+n ≤ all.card) ∨
      ∃ s', levelsLoop frontier visit depth fuel n s = .ok s' ∧
        ∀ x, seen s' x ↔ ∃ r, roots r ∧ Within edge depth r x := by
  induction fuel generalizing n s with
  | zero => exact .inl ⟨rfl,by omega⟩
  | succ fuel ih =>
    rw [levelsLoop]
    split
    · next hend =>
      refine .inr ⟨s,rfl,hs.ends hn ?_⟩
      refine hend.imp (fun hnil x hx => by simp [hnil] at hx) fun hdepth => ?_
      cases depth with
      | none => simp [depthAllows] at hdepth
      | some d =>
        have hle := hn d rfl
        have heq : d = n := by
          simp only [depthAllows, Option.all_some, decide_eq_true_eq] at hdepth
          omega
        exact heq ▸ rfl
    · next hgo =>
      obtain ⟨hne,hdepth⟩ := not_or.mp hgo
      have hat : ∀ a ∈ frontier s, At edge roots n a := fun a ha => (hs.frontier_iff a).mp ha
      have hmem : ∀ y, Near edge roots n y → y ∈ all :=
        fun y => near_mem (· ∈ all) hroots hedge
      obtain ⟨s',hs',hsaw⟩ := hvisit s fun a ha => hmem a (hat a ha).near
      obtain ⟨a,ha⟩ := List.exists_mem_of_ne_nil _ hne
      have hlt : n < all.card := (hat a ha).lt_card hmem
      have hnext : ∀ m ∈ depth, n+1 ≤ m := by
        intro m hm
        obtain rfl : depth = some m := hm
        exact Nat.succ_le_of_lt (by simpa [depthAllows] using hdepth)
      have hrest := ih (n+1) s' (hs.saw hsaw) hnext hlt
      rw [hs']
      refine hrest.imp (fun h => ⟨h.1,by omega⟩) fun h => h

theorem see_saw (label : Label) (walk : DepsWalk) (edge : Edge) :
    Saw (· ∈ walk.seen) (· ∈ walk.next) (· ∈ (walk.see label edge).seen)
      (· ∈ (walk.see label edge).next) fun x => edge.target = x := by
  rw [DepsWalk.see]
  constructor <;> intro x <;> split
  · next hmem =>
    constructor
    · exact .inl
    · rintro (h | rfl)
      · exact h
      · exact hmem
  · simp [or_comm]
  · next hmem =>
    constructor
    · exact .inl
    · rintro (h | ⟨hfar,rfl⟩)
      · exact h
      · exact absurd hmem hfar
  · next hmem =>
    simp only [List.mem_append, List.mem_singleton, eq_comm]
    constructor
    · rintro (h | rfl)
      · exact .inl h
      · exact .inr ⟨hmem,rfl⟩
    · exact fun h => h.imp_right And.right

theorem depsVisit_saw (hV : e.Vertices all) (text : Option String) (walk : DepsWalk) {label : Label}
    (h : label ∈ all) : ∃ walk', depsVisit e text walk label = .ok walk' ∧
      Saw (· ∈ walk.seen) (· ∈ walk.next) (· ∈ walk'.seen) (· ∈ walk'.next) (e.Kept label) := by
  obtain ⟨node,hnode⟩ := hV.loads label h
  refine ⟨(e.edges node).foldl (DepsWalk.see label) walk,by simp only [depsVisit, hnode]; rfl,?_⟩
  have hsaw := Saw.foldl (fun w : DepsWalk => (· ∈ w.seen)) (fun w => (· ∈ w.next))
    (fun edge x => edge.target = x) (see_saw label) (e.edges node) walk
  exact hsaw.congr fun x => (leads_iff hnode).symm.trans (hV.kept_iff h).symm

theorem depsLevel_saw (hV : e.Vertices all) (text : Option String) (walk : DepsWalk)
    (h : ∀ a ∈ walk.next, a ∈ all) : ∃ walk', depsLevel e text walk = .ok walk' ∧
      Saw (· ∈ walk.seen) (fun _ => False) (· ∈ walk'.seen) (· ∈ walk'.next)
        fun x => ∃ a ∈ walk.next, e.Kept a x := by
  obtain ⟨walk',hwalk,hsaw⟩ := Saw.foldlM (f := depsVisit e text) (l := walk.next)
    (fun w : DepsWalk => (· ∈ w.seen)) (fun w => (· ∈ w.next)) e.Kept
    (fun w label hl => depsVisit_saw hV text w (h label hl)) { walk with next := [] }
  exact ⟨walk',hwalk,by simpa using hsaw⟩

/-- The dependencies of some vertices, unless the fuel is less than what the
number of all vertices asks for. -/
theorem depsIn_ends (hV : e.Vertices all) (fuel : ℕ) {roots : Targets} (hroots : ∀ r ∈ roots, r ∈ all)
    (depth : Option ℕ) (text : Option String) :
    (depsIn e fuel roots depth text = .error .outOfFuel ∧ fuel ≤ all.card) ∨
      ∃ found, depsIn e fuel roots depth text = .ok found ∧
        ∀ x, x ∈ found ↔ ∃ r ∈ roots, Within e.Kept depth r x := by
  have hstart : Searched e.Kept (· ∈ roots) 0 (· ∈ roots) (· ∈ roots.toList) :=
    Searched.initial (fun _ => Iff.rfl) fun _ => Std.ExtTreeSet.mem_toList
  rcases levelsLoop_ends e.Kept (· ∈ roots) (fun w : DepsWalk => (· ∈ w.seen)) DepsWalk.next
    (depsLevel e text) hroots
    (fun a b => hV.kept_mem) (depsLevel_saw hV text) depth fuel 0 ⟨roots,∅,roots.toList⟩ hstart
    (by simp) (Nat.zero_le _) with ⟨hstop,hfuel⟩ | ⟨walk,hwalk,hiff⟩
  · exact .inl ⟨by simp [depsIn, hstop, bind, Except.bind],hfuel⟩
  · exact .inr ⟨walk.seen,by simp [depsIn, hwalk, bind, Except.bind, pure, Except.pure],hiff⟩

section Reverse

/-- An index of the edges that lead to each target. -/
theorem reverse_add (label : Label) (reverse : Reverse) (edge : Edge) (b a : Label) :
    a ∈ (reverse.add label edge).getD b [] ↔
      a ∈ reverse.getD b [] ∨ (a = label ∧ edge.target = b) := by
  rw [Reverse.add, Std.ExtTreeMap.getD_insert]
  split
  · next heq =>
    rw [Std.LawfulEqOrd.compare_eq_iff_eq] at heq
    simp [heq]
  · next hne =>
    rw [Std.LawfulEqOrd.compare_eq_iff_eq] at hne
    simp [hne]

theorem reverse_addAll (label : Label) (edges : List Edge) (reverse : Reverse) (b a : Label) :
    a ∈ (edges.foldl (Reverse.add label) reverse).getD b [] ↔
      a ∈ reverse.getD b [] ∨ (a = label ∧ ∃ edge ∈ edges, edge.target = b) := by
  induction edges generalizing reverse with
  | nil => simp
  | cons edge edges ih =>
    rw [List.foldl_cons, ih, reverse_add, List.exists_mem_cons_iff]
    tauto

theorem reverseVisits (hV : e.Vertices all) (labels : List Label) (h : ∀ a ∈ labels, a ∈ all)
    (reverse : Reverse) : ∃ index, labels.foldlM (reverseVisit e) reverse = .ok index ∧
      ∀ b a, a ∈ index.getD b [] ↔ a ∈ reverse.getD b [] ∨ (a ∈ labels ∧ e.Kept a b) := by
  induction labels generalizing reverse with
  | nil => exact ⟨reverse,rfl,by simp⟩
  | cons label labels ih =>
    obtain ⟨hlabel,hrest⟩ := List.forall_mem_cons.mp h
    obtain ⟨node,hnode⟩ := hV.loads label hlabel
    obtain ⟨index,hindex,hiff⟩ := ih hrest ((e.edges node).foldl (Reverse.add label) reverse)
    refine ⟨index,?_,fun b a => ?_⟩
    · rw [List.foldlM_cons, reverseVisit, hnode]
      exact hindex
    · rw [hiff, reverse_addAll, ← leads_iff hnode, ← hV.kept_iff hlabel, List.mem_cons]
      constructor
      · rintro ((ha | ⟨rfl,hk⟩) | ⟨ha,hk⟩)
        · exact .inl ha
        · exact .inr ⟨.inl rfl,hk⟩
        · exact .inr ⟨.inr ha,hk⟩
      · rintro (ha | ⟨rfl | ha,hk⟩)
        · exact .inl (.inl ha)
        · exact .inl (.inr ⟨rfl,hk⟩)
        · exact .inr ⟨ha,hk⟩

theorem reverseSee_saw (found : Targets × List Label) (parent : Label) :
    Saw (· ∈ found.1) (· ∈ found.2) (· ∈ (reverseSee found parent).1)
      (· ∈ (reverseSee found parent).2) fun x => x = parent := by
  rw [reverseSee]
  split
  · next hmem =>
    refine ⟨fun x => ⟨.inl,?_⟩,fun x => ⟨.inl,?_⟩⟩
    · rintro (h | rfl)
      · exact h
      · exact hmem
    · rintro (h | ⟨hfar,rfl⟩)
      · exact h
      · exact absurd hmem hfar
  · next hmem =>
    refine ⟨fun x => ?_,fun x => ?_⟩
    · rw [Std.ExtTreeSet.mem_insert, Std.LawfulEqOrd.compare_eq_iff_eq, or_comm, eq_comm]
    · simp only [List.mem_append, List.mem_singleton]
      constructor
      · rintro (h | rfl)
        · exact .inl h
        · exact .inr ⟨hmem,rfl⟩
      · exact fun h => h.imp_right And.right

theorem reverseLevel_saw (reverse : Reverse) (found : Targets × List Label) :
    ∃ found', reverseLevel reverse found = .ok found' ∧
      Saw (· ∈ found.1) (fun _ => False) (· ∈ found'.1) (· ∈ found'.2)
        fun x => ∃ a ∈ found.2, x ∈ reverse.getD a [] := by
  refine ⟨_,rfl,?_⟩
  have hrow : ∀ (s : Targets × List Label) (label : Label),
      Saw (· ∈ s.1) (· ∈ s.2) (· ∈ ((reverse.getD label []).foldl reverseSee s).1)
        (· ∈ ((reverse.getD label []).foldl reverseSee s).2) fun x => x ∈ reverse.getD label [] := by
    intro s label
    exact (Saw.foldl (fun t : Targets × List Label => (· ∈ t.1)) (fun t => (· ∈ t.2))
      (fun parent x => x = parent) reverseSee_saw (reverse.getD label []) s).congr (by simp)
  have hall := Saw.foldl (fun t : Targets × List Label => (· ∈ t.1)) (fun t => (· ∈ t.2))
    (fun label x => x ∈ reverse.getD label [])
    hrow found.2 (found.1,[])
  simpa using hall

/-- Steps backward inside a set that the edges do not leave. -/
theorem steps_inside {closure : Targets} (hclosed : ∀ a ∈ closure, ∀ b, e.Kept a b → b ∈ closure)
    {n : ℕ} {r x : Label} (hr : r ∈ closure) :
    Steps (fun a b => b ∈ closure ∧ e.Kept b a) n r x ↔ x ∈ closure ∧ Steps e.Kept n x r := by
  constructor
  · intro h
    induction h with
    | refl => exact ⟨hr,.refl _⟩
    | tail _ he ih => exact ⟨he.1,(ih hr).2.head he.2⟩
  · rintro ⟨hx,h⟩
    induction h with
    | refl => exact .refl _
    | @tail n a b c hab hbc ih =>
      have hb : b ∈ closure := by
        clear ih hbc hr
        induction hab with
        | refl => exact hx
        | tail _ he ih => exact hclosed _ (ih hx) _ he
      exact (ih hb hx).head ⟨hb,hbc⟩

theorem reverseClosure_ends (hV : e.Vertices all) (fuel : ℕ) {closure : Targets}
    (hsub : ∀ a ∈ closure, a ∈ all) (hclosed : ∀ a ∈ closure, ∀ b, e.Kept a b → b ∈ closure)
    (targets : Targets) (depth : Option ℕ) :
    (reverseClosure e fuel closure targets depth = .error .outOfFuel ∧ fuel ≤ all.card) ∨
      ∃ found, reverseClosure e fuel closure targets depth = .ok found ∧ ∀ x, x ∈ found ↔
        x ∈ closure ∧ ∃ y ∈ targets, y ∈ closure ∧ Within e.Kept depth x y := by
  obtain ⟨reverse,hreverse,hiff⟩ := reverseVisits hV closure.toList
    (fun a ha => hsub a (Std.ExtTreeSet.mem_toList.mp ha)) ∅
  simp only [Std.ExtTreeMap.getD_empty, List.not_mem_nil, false_or, Std.ExtTreeSet.mem_toList] at hiff
  have hstart : Searched (fun a b => b ∈ closure ∧ e.Kept b a)
      (· ∈ targets.filter (closure.contains ·)) 0 (· ∈ targets.filter (closure.contains ·))
      (· ∈ (targets.filter (closure.contains ·)).toList) :=
    Searched.initial (fun _ => Iff.rfl) fun _ => Std.ExtTreeSet.mem_toList
  have hends := levelsLoop_ends (fun a b => b ∈ closure ∧ e.Kept b a)
    (· ∈ targets.filter (closure.contains ·)) (fun found : Targets × List Label => (· ∈ found.1))
    Prod.snd (reverseLevel reverse) (fun r hr => hsub r (mem_filter_contains.mp hr).2)
    (fun a b _ hb => hsub b hb.1)
    (fun found _ => by simpa only [hiff] using reverseLevel_saw reverse found)
    depth fuel 0
    (targets.filter (closure.contains ·),(targets.filter (closure.contains ·)).toList) hstart
    (by simp) (Nat.zero_le _)
  rcases hends with ⟨hstop,hfuel⟩ | ⟨found,hfound,hwithin⟩
  · exact .inl ⟨by simp [reverseClosure, hreverse, hstop, bind, Except.bind],hfuel⟩
  · refine .inr ⟨found.1,
      by simp [reverseClosure, hreverse, hfound, bind, Except.bind, pure, Except.pure],fun x => ?_⟩
    rw [hwithin]
    constructor
    · rintro ⟨y,hy,n,hn,hs⟩
      obtain ⟨ht,hy⟩ := mem_filter_contains.mp hy
      obtain ⟨hx,hs⟩ := (steps_inside hclosed hy).mp hs
      exact ⟨hx,y,ht,hy,n,hn,hs⟩
    · rintro ⟨hx,y,ht,hy,n,hn,hs⟩
      exact ⟨y,mem_filter_contains.mpr ⟨ht,hy⟩,n,hn,(steps_inside hclosed hy).mpr ⟨hx,hs⟩⟩

end Reverse

section Back
variable {start goal : Label → Prop} {n : ℕ} {done level next : List Label} {parents : Parents}

/-- The way back from a vertex takes as many steps as its level says. -/
theorem pathBack_ends (h : Queued e.Kept start goal n done level next fun x => parents[x]?) {k : ℕ}
    {x : Label} (hat : At e.Kept start k x) (hk : k ≤ n) (fuel : ℕ) (hfuel : k < fuel)
    (path : Targets) : ∃ out p, pathBack parents fuel (some x) path = .ok out ∧
      IsPath e.Kept start (· = x) p ∧ p.length = k+1 ∧ ∀ t, t ∈ out ↔ t ∈ path ∨ t ∈ p := by
  induction k generalizing x fuel path with
  | zero =>
    cases fuel with
    | zero => omega
    | succ fuel =>
      have hback : parents[x]?.join = none := by
        cases hx : parents[x]?.join with
        | none => rfl
        | some p =>
          obtain ⟨-,k,-,hat'⟩ := h.parent_of x p (Option.join_eq_some_iff.mp hx)
          exact absurd (hat.eq hat') (by omega)
      refine ⟨path.insert x,[x],by rw [pathBack, hback, pathBack],⟨by simp,?_,x,by simp⟩,rfl,?_⟩
      · exact ⟨x,by simp,at_zero.mp hat⟩
      · intro t
        rw [Std.ExtTreeSet.mem_insert, Std.LawfulEqOrd.compare_eq_iff_eq, List.mem_singleton, or_comm,
          eq_comm]
  | succ k ih =>
    cases fuel with
    | zero => omega
    | succ fuel =>
      have hmem : x ∈ done ++ (level ++ next) := by
        rw [← List.append_assoc]
        exact List.mem_append_left next (h.near_known x (hat.near.mono hk))
      obtain ⟨p,hp⟩ := Option.isSome_iff_exists.mp ((h.known x).mpr hmem)
      cases p with
      | none =>
        have hzero : At e.Kept start 0 x := at_zero.mpr (h.start_of x hp)
        exact absurd (hat.eq hzero) (by omega)
      | some q =>
        obtain ⟨hedge,j,hq,hx⟩ := h.parent_of x q hp
        obtain rfl : j = k := by
          have heq := hat.eq hx
          omega
        obtain ⟨out,p,hout,⟨hchain,hstart,b,hlast,hb⟩,hlen,hmem⟩ :=
          ih hq (by omega) fuel (by omega) (path.insert x)
        obtain rfl : b = q := hb
        refine ⟨out,p ++ [x],?_,⟨?_,?_,x,by simp⟩,by simp [hlen],fun t => ?_⟩
        · rw [pathBack, hp]
          exact hout
        · refine List.isChain_append.mpr ⟨hchain,by simp,fun y hy z hz => ?_⟩
          rw [hlast] at hy
          simp only [Option.mem_some_iff, List.head?_cons] at hy hz
          exact hy ▸ hz ▸ hedge
        · obtain ⟨a,ha,hstart⟩ := hstart
          refine ⟨a,?_,hstart⟩
          rw [Option.mem_def] at ha ⊢
          simp [ha]
        · rw [hmem, Std.ExtTreeSet.mem_insert, Std.LawfulEqOrd.compare_eq_iff_eq, List.mem_append,
            List.mem_singleton, @eq_comm _ x t]
          tauto

/-- What an expansion puts behind the queue. -/
theorem pathSee_all (label : Label) (edges : List Edge) (parents : Parents) (queue : List Label) :
    ∃ new : List Label, (edges.foldl (pathSee label) (parents,queue)).2 = queue ++ new ∧ new.Nodup ∧
      (∀ y ∈ new, parents[y]? = none ∧ ∃ edge ∈ edges, edge.target = y) ∧
      (∀ edge ∈ edges, parents[edge.target]?.isSome ∨ edge.target ∈ new) ∧
      (∀ y ∈ new, (edges.foldl (pathSee label) (parents,queue)).1[y]? = some (some label)) ∧
      ∀ y, y ∉ new → (edges.foldl (pathSee label) (parents,queue)).1[y]? = parents[y]? := by
  induction edges generalizing parents queue with
  | nil => exact ⟨[],by simp⟩
  | cons edge edges ih =>
    rw [List.foldl_cons, pathSee]
    by_cases hmem : edge.target ∈ parents
    · obtain ⟨new,hqueue,hnd,hnew,hall,hset,hframe⟩ := ih parents queue
      rw [if_pos hmem]
      refine ⟨new,hqueue,hnd,fun y hy => ?_,?_,hset,hframe⟩
      · obtain ⟨hnone,edge',hedge',htarget⟩ := hnew y hy
        exact ⟨hnone,edge',List.mem_cons_of_mem _ hedge',htarget⟩
      · rw [List.forall_mem_cons]
        exact ⟨.inl (Std.ExtTreeMap.mem_iff_isSome_getElem?.mp hmem),hall⟩
    · rw [if_neg hmem]
      obtain ⟨new,hqueue,hnd,hnew,hall,hset,hframe⟩ :=
        ih (parents.insert edge.target (some label)) (queue ++ [edge.target])
      have hget : ∀ y, (parents.insert edge.target (some label))[y]? =
          if edge.target = y then some (some label) else parents[y]? := by
        intro y
        rw [Std.ExtTreeMap.getElem?_insert]
        simp only [Std.LawfulEqOrd.compare_eq_iff_eq]
      have hfresh : edge.target ∉ new := by
        intro hin
        have hnone := (hnew _ hin).1
        simp at hnone
      refine ⟨edge.target::new,by rw [hqueue, List.append_assoc]; rfl,
        List.nodup_cons.mpr ⟨hfresh,hnd⟩,?_,?_,?_,?_⟩
      · refine List.forall_mem_cons.mpr ⟨⟨?_,edge,List.mem_cons_self,rfl⟩,fun y hy => ?_⟩
        · exact Std.ExtTreeMap.getElem?_eq_none hmem
        · obtain ⟨hnone,edge',hedge',htarget⟩ := hnew y hy
          have hne : edge.target ≠ y := fun heq => hfresh (heq ▸ hy)
          rw [hget, if_neg hne] at hnone
          exact ⟨hnone,edge',List.mem_cons_of_mem _ hedge',htarget⟩
      · refine List.forall_mem_cons.mpr ⟨.inr List.mem_cons_self,fun edge' hedge' => ?_⟩
        by_cases heq : edge.target = edge'.target
        · exact .inr (heq ▸ List.mem_cons_self)
        · have hor := hall edge' hedge'
          rw [hget, if_neg heq] at hor
          exact hor.imp_right (List.mem_cons_of_mem _)
      · refine List.forall_mem_cons.mpr ⟨?_,hset⟩
        rw [hframe _ hfresh, hget, if_pos rfl]
      · intro y hy
        obtain ⟨hne,hnot⟩ := List.ne_and_not_mem_of_not_mem_cons hy
        rw [hframe y hnot, hget, if_neg (Ne.symm hne)]

end Back

section SomePath

/-- The vertices of a shortest path, none of which there are if there is no
path. -/
def Shortest (edge : Label → Label → Prop) (start goal : Label → Prop) (found : Targets) : Prop :=
  (∃ p, IsPath edge start goal p ∧ (∀ q, IsPath edge start goal q → p.length ≤ q.length) ∧
    ∀ t, t ∈ found ↔ t ∈ p) ∨
  (found = ∅ ∧ ∀ p, ¬ IsPath edge start goal p)

variable {start : Label → Prop} {goal : Targets}

theorem Queued.length_le (hstart : ∀ a, start a → a ∈ all) (hV : e.Vertices all) {n : ℕ}
    {done level next : List Label} {parent : Label → Option (Option Label)}
    (h : Queued e.Kept start (· ∈ goal) n done level next parent) :
    done.length+(level.length+next.length) ≤ all.card := by
  have hsub : (done ++ (level ++ next)).toFinset ⊆ all := by
    intro x hx
    have hmem : ∀ n y, Near e.Kept start n y → y ∈ all := fun _ y =>
      near_mem (· ∈ all) hstart fun a b => hV.kept_mem
    simp only [List.mem_toFinset, List.mem_append] at hx
    rcases hx with hx | hx | hx
    · exact hmem n x (h.done_near x hx)
    · exact hmem n x (h.level_at x hx).near
    · exact hmem (n+1) x (h.next_at x hx).near
  have hcard := Finset.card_le_card hsub
  rwa [List.toFinset_card_of_nodup h.nodup, List.length_append, List.length_append] at hcard

theorem pathLoop_ends (hV : e.Vertices all) (hstart : ∀ a, start a → a ∈ all) {fuel : ℕ}
    (hfuel : all.card ≤ fuel) (steps n : ℕ) (done level next : List Label) (parents : Parents)
    (h : Queued e.Kept start (· ∈ goal) n done level next fun x => parents[x]?)
    (hturn : level = [] → next = []) (hsteps : all.card < steps+done.length) :
    ∃ found, pathLoop e fuel goal steps parents (level ++ next) = .ok found ∧
      Shortest e.Kept start (· ∈ goal) found := by
  have hlen := Queued.length_le hstart hV h
  induction steps generalizing n done level next parents with
  | zero => omega
  | succ steps ih =>
    cases level with
    | nil =>
      obtain rfl := hturn rfl
      refine ⟨∅,rfl,.inr ⟨rfl,fun p hp => ?_⟩⟩
      obtain ⟨a,b,ha,hb,hs⟩ := isPath_steps hp
      exact h.unreached ha hb hs.reached
    | cons x level =>
      have hxat := h.level_at x List.mem_cons_self
      rw [List.cons_append, pathLoop]
      split
      · next hgoal =>
        have hlt := hxat.lt_card fun y => near_mem (· ∈ all) hstart fun a b => hV.kept_mem
        obtain ⟨found,p,hfound,⟨hchain,hhead,b,hlast,hb⟩,hplen,hmem⟩ :=
          pathBack_ends h hxat (le_refl n) fuel (by omega) ∅
        refine ⟨found,hfound,.inl ⟨p,⟨hchain,hhead,b,hlast,hb ▸ hgoal⟩,fun q hq => ?_,?_⟩⟩
        · obtain ⟨a,b,ha,hb,hs⟩ := isPath_steps hq
          have hle := h.le_of_goal ha hb hs
          have hne : q ≠ [] := by
            rintro rfl
            obtain ⟨-,⟨a,ha,-⟩,-⟩ := hq
            simp at ha
          have hpos := List.length_pos_iff.mpr hne
          omega
        · intro t
          rw [hmem]
          simp
      · next hgoal =>
        have hxall : x ∈ all :=
          near_mem (· ∈ all) hstart (fun a b => hV.kept_mem) hxat.near
        obtain ⟨node,hnode⟩ := hV.loads x hxall
        have hkept : ∀ y, e.Kept x y ↔ ∃ edge ∈ e.edges node, edge.target = y := fun y =>
          (hV.kept_iff hxall).trans (leads_iff hnode)
        obtain ⟨new,hqueue,hnd,hnew,hall,hset,hframe⟩ :=
          pathSee_all x (e.edges node) parents (level ++ next)
        have hstep := h.step hgoal hnd (fun y hy => ⟨(hnew y hy).1,(hkept y).mpr (hnew y hy).2⟩)
          (fun y hy => by
            obtain ⟨edge,hedge,rfl⟩ := (hkept y).mp hy
            exact hall edge hedge) hset hframe
        have hlen' := Queued.length_le hstart hV hstep
        have hsteps' : all.card < steps+(done ++ [x]).length := by
          rw [List.length_append]
          simp only [List.length_singleton]
          omega
        have hgo : (do
            let node ← said (e.graph.node x)
            let found := (e.edges node).foldl (pathSee x) (parents,level ++ next)
            pathLoop e fuel goal steps found.1 found.2 : Result Targets) =
            pathLoop e fuel goal steps
              ((e.edges node).foldl (pathSee x) (parents,level ++ next)).1 (level ++ (next ++ new)) := by
          rw [hnode, ← List.append_assoc, ← hqueue]
          rfl
        rw [hgo]
        cases level with
        | nil =>
          have hturned := hstep.turn
          have hrest := ih (n+1) (done ++ [x]) (next ++ new) [] _ hturned (by simp) hsteps'
            (Queued.length_le hstart hV hturned)
          simpa using hrest
        | cons y level => exact ih n (done ++ [x]) (y::level) (next ++ new) _ hstep (by simp) hsteps' hlen'

theorem somePath_ends (hV : e.Vertices all) {fuel : ℕ} (hfuel : all.card < fuel) {start : Targets}
    (goal : Targets) (hstart : ∀ a ∈ start, a ∈ all) : ∃ found, somePath e fuel start goal = .ok found ∧
      Shortest e.Kept (· ∈ start) (· ∈ goal) found := by
  have hparents : ∀ (labels : List Label) (parents : Parents) (x : Label),
      (labels.foldl (fun parents l => parents.insert l none) parents)[x]? =
        if x ∈ labels then some none else parents[x]? := by
    intro labels
    induction labels with
    | nil => simp
    | cons l labels ih =>
      intro parents x
      rw [List.foldl_cons, ih, Std.ExtTreeMap.getElem?_insert]
      simp only [Std.LawfulEqOrd.compare_eq_iff_eq, List.mem_cons]
      by_cases hx : x ∈ labels
      · simp [hx]
      · simp [hx, eq_comm]
  have hnd : start.toList.Nodup :=
    Std.ExtTreeSet.distinct_toList.imp fun hne heq => hne (Std.LawfulEqOrd.compare_eq_iff_eq.mpr heq)
  have hqueued := Queued.initial e.Kept (· ∈ start) (· ∈ goal)
    (fun x => (start.toList.foldl (fun parents l => parents.insert l none) (∅ : Parents))[x]?) hnd (fun _ => Std.ExtTreeSet.mem_toList)
    (fun x => by
      rw [hparents]
      split <;> simp_all)
    (fun x p => by
      rw [hparents]
      split <;> simp)
  have hends := pathLoop_ends hV hstart hfuel.le fuel 0 [] start.toList [] _ hqueued (by simp) (by simpa)
  simpa [somePath] using hends

end SomePath

section Universe

theorem has_new (graph : TargetGraph) (options : Options) (l : Label) : (new graph options).Has l := by
  simp [Has, new]

theorem new_vertices {graph : TargetGraph} (options : Options) (h : graph.Finite all) :
    (new graph options).Vertices all where
  loads a ha := by
    obtain ⟨node,hnode,-⟩ := h.loads a ha
    exact ⟨node,hnode⟩
  closed a ha b hb := by
    obtain ⟨node,hnode,hedges⟩ := h.loads a ha
    obtain ⟨edge,hedge,rfl⟩ := (leads_iff hnode).mp hb
    obtain ⟨edge',hedge',-,heq⟩ := mem_edges.mp ⟨edge,hedge,rfl⟩
    exact heq ▸ hedges edge' hedge'
  has a _ := has_new graph options a

/-- A universe holds targets of the graph, and what its targets lead to. -/
theorem universe_closed {graph : TargetGraph} {options : Options} (h : graph.Finite all) {fuel : ℕ}
    {patterns : List String} (hbuilt : (new graph options).withUniverse fuel patterns = .ok e) :
    e.graph = graph ∧ e.options = options ∧ ∃ u, e.universeTargets = some u ∧ (∀ a ∈ u, a ∈ all) ∧
      ∀ a ∈ u, ∀ b, (new graph options).Leads a b → b ∈ u := by
  have hV := new_vertices options h
  have hroots : ∀ (ps : List String) (roots : Targets), (∀ a ∈ roots, a ∈ all) →
      ∀ a ∈ ps.foldl (fun roots p => roots.insertMany ((graph.pattern p).toOption.getD [])) roots,
        a ∈ all := by
    intro ps
    induction ps with
    | nil => exact fun _ h => h
    | cons p ps ih =>
      intro roots hroots
      refine ih _ fun a ha => ?_
      rw [Std.ExtTreeSet.mem_insertMany_list] at ha
      rcases ha with ha | ha
      · exact hroots a ha
      · cases hp : graph.pattern p with
        | error _ => simp [hp, Except.toOption] at ha
        | ok labels => exact h.selects p labels hp a (by simpa [hp, Except.toOption] using ha)
  rw [withUniverse, bind_ok] at hbuilt
  obtain ⟨u,hu,he⟩ := hbuilt
  rw [pure_ok] at he
  subst he
  refine ⟨rfl,rfl,u,rfl,?_⟩
  rcases depsIn_ends hV fuel (hroots patterns ∅ (by simp)) none none with ⟨hstop,-⟩ | ⟨u',hu',hiff⟩
  · exact absurd (hstop.symm.trans hu) (by simp)
  · obtain rfl : u' = u := by
      have heq := hu'.symm.trans hu
      simpa using heq
    constructor
    · intro a ha
      obtain ⟨r,hr,hra⟩ := (hiff a).mp ha
      have hreach := within_reached hra
      clear hra
      induction hreach with
      | refl => exact hroots patterns ∅ (by simp) r hr
      | tail _ he ih => exact hV.kept_mem (ih ((hiff _).mpr ⟨r,hr,within_none.mpr ‹_›⟩)) he
    · intro a ha b hab
      obtain ⟨r,hr,hra⟩ := (hiff a).mp ha
      refine (hiff b).mpr ⟨r,hr,within_none.mpr ((within_none.mp hra).tail ⟨?_,hab⟩)⟩
      exact has_new graph options a

/-- The targets of the graph that the query has. -/
theorem built_vertices (hbuilt : e.Built) (h : e.graph.Finite all) :
    ∃ V : Finset Label, e.Vertices V ∧ V.card ≤ all.card ∧ ∀ a ∈ all, e.Has a → a ∈ V := by
  obtain ⟨graph,options,rfl | ⟨fuel,patterns,hu⟩⟩ := hbuilt
  · exact ⟨all,new_vertices options h,le_refl _,fun a ha _ => ha⟩
  · have hgraph : e.graph = graph := by
      rw [withUniverse, bind_ok] at hu
      obtain ⟨u,-,he⟩ := hu
      rw [pure_ok] at he
      exact he ▸ rfl
    obtain ⟨-,hoptions,u,huniverse,hsub,hclosed⟩ := universe_closed (hgraph ▸ h) hu
    have hleads : ∀ a b, e.Leads a b ↔ (new graph options).Leads a b := by
      intro a b
      rw [Leads, Leads, hgraph, hoptions]
      rfl
    have hhas : ∀ a, e.Has a ↔ a ∈ u := by
      intro a
      simp [Has, huniverse]
    have hV := new_vertices options (hgraph ▸ h)
    refine ⟨all.filter (· ∈ u),⟨fun a ha => ?_,fun a ha b hab => ?_,fun a ha => ?_⟩,
      Finset.card_filter_le _ _,fun a ha hasa => ?_⟩
    · obtain ⟨node,hnode⟩ := hV.loads a (Finset.mem_filter.mp ha).1
      exact ⟨node,hgraph ▸ hnode⟩
    · have hb := hclosed a (Finset.mem_filter.mp ha).2 b ((hleads a b).mp hab)
      exact Finset.mem_filter.mpr ⟨hsub b hb,hb⟩
    · exact (hhas a).mpr (Finset.mem_filter.mp ha).2
    · exact Finset.mem_filter.mpr ⟨ha,(hhas a).mp hasa⟩

theorem mem_withinUniverse {targets : Targets} {x : Label} :
    (x ∈ (e.withinUniverse targets).1 ↔ x ∈ targets ∧ e.Has x) ∧
      (x ∈ (e.withinUniverse targets).2 ↔ x ∈ targets ∧ ¬ e.Has x) := by
  rw [withinUniverse]
  cases hu : e.universeTargets with
  | none => simp [Has, hu]
  | some u =>
    rw [mem_filter_contains, mem_filter, ← Std.ExtTreeSet.contains_iff_mem (t := u)]
    simp [Has, hu, ← Std.ExtTreeSet.contains_iff_mem]

theorem mem_bothWithinUniverse {start goal : Targets} {x : Label} :
    (x ∈ (e.bothWithinUniverse start goal).1 ↔ x ∈ start ∧ e.Has x) ∧
      (x ∈ (e.bothWithinUniverse start goal).2 ↔ x ∈ goal ∧ e.Has x) := by
  rw [bothWithinUniverse, mem_filter, mem_filter]
  cases hu : e.universeTargets with
  | none => simp [Has, hu]
  | some u => simp [Has, hu]

theorem not_kept {a b : Label} (h : ¬ e.Has a) : ¬ e.Kept a b := fun hk => h hk.1

/-- A target that the query does not have leads nowhere. -/
theorem within_absent {d : Option ℕ} {a b : Label} (h : ¬ e.Has a) :
    Within e.Kept d a b ↔ a = b := by
  constructor
  · intro hab
    rcases (within_reached hab).cases_head with heq | ⟨c,hac,-⟩
    · exact heq
    · exact absurd hac (not_kept h)
  · rintro rfl
    exact ⟨0,by simp,.refl a⟩

end Universe

section Calls
variable (chars : CharClass) (fuel : ℕ) (regex : String → Except String (String → Bool))
  (suiteTests : Label → Option (List Label)) (env : Env)

def depthArgs (depth : Option ℕ) : List Arg := (depth.map fun n => Arg.int n).toList

theorem depthArg_depthArgs {depth : Option ℕ} (h : ∀ n ∈ depth, n < 2^63) (args : List Arg) :
    depthArg (args ++ depthArgs depth) args.length = depth := by
  cases depth with
  | none => simp [depthArg, depthArgs]
  | some n =>
    have hn : n < 2^63 := h n rfl
    have hword : asUsize (n : ℤ) = n := by
      rw [asUsize, Int.emod_eq_of_lt (by omega) (by omega)]
      rfl
    simp [depthArg, depthArgs, hword]

theorem deps_reach (hV : e.Vertices all) (hfuel : all.card < fuel) {roots : Targets}
    (hroots : ∀ r ∈ roots, r ∈ all) (depth : Option ℕ) (text : Option String) :
    ∃ found, depsIn e fuel roots depth text = .ok found ∧
      ∀ x, x ∈ found ↔ ∃ r ∈ roots, Within e.Kept depth r x :=
  (depsIn_ends hV fuel hroots depth text).resolve_left fun h => absurd h.2 (by omega)

theorem rdeps_reach (hV : e.Vertices all) (hfuel : all.card < fuel) {within : Targets}
    (hwithin : ∀ r ∈ within, r ∈ all) (targets : Targets) (depth : Option ℕ) :
    ∃ found, rdeps e fuel within targets depth = .ok found ∧ ∀ x, x ∈ found ↔
      (∃ r ∈ within, Relation.ReflTransGen e.Kept r x) ∧ ∃ y ∈ targets,
        (∃ r ∈ within, Relation.ReflTransGen e.Kept r y) ∧ Within e.Kept depth x y := by
  obtain ⟨closure,hclosure,hiff⟩ := deps_reach fuel hV hfuel hwithin none none
  simp only [within_none] at hiff
  have hsub : ∀ a ∈ closure, a ∈ all := by
    intro a ha
    obtain ⟨r,hr,hra⟩ := (hiff a).mp ha
    clear ha
    induction hra with
    | refl => exact hwithin r hr
    | tail _ he ih => exact hV.kept_mem ih he
  have hclosed : ∀ a ∈ closure, ∀ b, e.Kept a b → b ∈ closure := by
    intro a ha b hab
    obtain ⟨r,hr,hra⟩ := (hiff a).mp ha
    exact (hiff b).mpr ⟨r,hr,hra.tail hab⟩
  obtain ⟨found,hfound,hmem⟩ := (reverseClosure_ends hV fuel hsub hclosed targets depth).resolve_left
    fun h => absurd h.2 (by omega)
  refine ⟨found,?_,fun x => ?_⟩
  · rw [rdeps, deps, hclosure]
    exact hfound
  · rw [hmem, hiff]
    simp only [hiff]

variable {x y : Expr} {X Y : Targets} {V : Finset Label}

theorem call_deps (hV : e.Vertices V) (hfuel : V.card < fuel) (hX : ∀ a ∈ X, e.Has a → a ∈ V)
    {depth : Option ℕ} (hd : ∀ n ∈ depth, n < 2^63)
    (hx : evalIn e chars fuel regex suiteTests env x = .ok X) :
    ∃ found, evalIn e chars fuel regex suiteTests env (.call .deps (.expr x::depthArgs depth)) =
        .ok found ∧ ∀ t, t ∈ found ↔ ∃ a ∈ X, Within e.Kept depth a t := by
  have hinside : ∀ r ∈ (e.withinUniverse X).1, r ∈ V := fun r hr =>
    hX r (mem_withinUniverse.1.mp hr).1 (mem_withinUniverse.1.mp hr).2
  obtain ⟨found,hfound,hiff⟩ := deps_reach fuel hV hfuel hinside depth
    (some ((Expr.call .deps (.expr x::depthArgs depth)).display chars))
  have hdepth : depthArg (.expr x::depthArgs depth) 1 = depth := depthArg_depthArgs hd [.expr x]
  refine ⟨union found (e.withinUniverse X).2,?_,fun t => ?_⟩
  · simp only [evalIn, argValues, call, exprArg, List.getElem?_cons_zero, hx, hdepth]
    exact bind_ok.mpr ⟨X,rfl,bind_ok.mpr ⟨found,hfound,rfl⟩⟩
  · rw [union, Std.ExtTreeSet.mem_union_iff, hiff, mem_withinUniverse.2]
    constructor
    · rintro (⟨r,hr,hrt⟩ | ⟨ht,hno⟩)
      · exact ⟨r,(mem_withinUniverse.1.mp hr).1,hrt⟩
      · exact ⟨t,ht,(within_absent hno).mpr rfl⟩
    · rintro ⟨r,hr,hrt⟩
      by_cases hhas : e.Has r
      · exact .inl ⟨r,mem_withinUniverse.1.mpr ⟨hr,hhas⟩,hrt⟩
      · obtain rfl := (within_absent hhas).mp hrt
        exact .inr ⟨hr,hhas⟩

/-- What is reached from inside the universe is what is reached and inside it. -/
theorem reach_inside (hV : e.Vertices V) (hX : ∀ a ∈ X, e.Has a → a ∈ V) (t : Label) :
    (∃ r ∈ (e.withinUniverse X).1, Relation.ReflTransGen e.Kept r t) ↔
      e.Has t ∧ ∃ a ∈ X, Relation.ReflTransGen e.Kept a t := by
  constructor
  · rintro ⟨r,hr,hrt⟩
    obtain ⟨hmem,hhas⟩ := mem_withinUniverse.1.mp hr
    refine ⟨hV.has t ?_,r,hmem,hrt⟩
    clear hr
    induction hrt with
    | refl => exact hX r hmem hhas
    | tail _ he ih => exact hV.kept_mem ih he
  · rintro ⟨ht,a,ha,hat⟩
    by_cases hhas : e.Has a
    · exact ⟨a,mem_withinUniverse.1.mpr ⟨ha,hhas⟩,hat⟩
    · obtain rfl := (within_absent hhas).mp (within_none.mpr hat)
      exact absurd ht hhas

theorem call_rdeps (hV : e.Vertices V) (hfuel : V.card < fuel) (hX : ∀ a ∈ X, e.Has a → a ∈ V)
    {depth : Option ℕ} (hd : ∀ n ∈ depth, n < 2^63)
    (hx : evalIn e chars fuel regex suiteTests env x = .ok X)
    (hy : evalIn e chars fuel regex suiteTests env y = .ok Y) :
    ∃ found, evalIn e chars fuel regex suiteTests env
        (.call .rDeps (.expr x::.expr y::depthArgs depth)) = .ok found ∧ ∀ t, t ∈ found ↔
      (e.Has t ∧ ∃ a ∈ X, Relation.ReflTransGen e.Kept a t) ∧
      ∃ b ∈ Y, (e.Has b ∧ ∃ a ∈ X, Relation.ReflTransGen e.Kept a b) ∧ Within e.Kept depth t b := by
  have hinside : ∀ r ∈ (e.withinUniverse X).1, r ∈ V := fun r hr =>
    hX r (mem_withinUniverse.1.mp hr).1 (mem_withinUniverse.1.mp hr).2
  obtain ⟨found,hfound,hiff⟩ := rdeps_reach fuel hV hfuel hinside Y depth
  have hdepth : depthArg (.expr x::.expr y::depthArgs depth) 2 = depth :=
    depthArg_depthArgs hd [.expr x,.expr y]
  refine ⟨found,?_,fun t => ?_⟩
  · simp only [evalIn, argValues, call, exprArg, List.getElem?_cons_zero, List.getElem?_cons_succ, hx,
      hy, hdepth]
    exact hfound
  · rw [hiff]
    simp only [reach_inside hV hX]

theorem call_paths (hV : e.Vertices V) (hfuel : V.card < fuel) (hX : ∀ a ∈ X, e.Has a → a ∈ V)
    (hx : evalIn e chars fuel regex suiteTests env x = .ok X)
    (hy : evalIn e chars fuel regex suiteTests env y = .ok Y) :
    ∃ paths path,
      evalIn e chars fuel regex suiteTests env (.call .allPaths [.expr x,.expr y]) = .ok paths ∧
      evalIn e chars fuel regex suiteTests env (.call .somePath [.expr x,.expr y]) = .ok path ∧
      (∀ t, t ∈ paths ↔
        ∃ p, IsPath e.Kept (fun a => a ∈ X ∧ e.Has a) (fun b => b ∈ Y ∧ e.Has b) p ∧ t ∈ p) ∧
      Shortest e.Kept (fun a => a ∈ X ∧ e.Has a) (fun b => b ∈ Y ∧ e.Has b) path := by
  have hstart : ∀ r ∈ (e.bothWithinUniverse X Y).1, r ∈ V := fun r hr =>
    hX r (mem_bothWithinUniverse.1.mp hr).1 (mem_bothWithinUniverse.1.mp hr).2
  obtain ⟨reach,hreach,hiff⟩ := deps_reach fuel hV hfuel hstart none none
  simp only [within_none] at hiff
  have hsub : ∀ a ∈ reach, a ∈ V := by
    intro a ha
    obtain ⟨r,hr,hra⟩ := (hiff a).mp ha
    clear ha
    induction hra with
    | refl => exact hstart r hr
    | tail _ he ih => exact hV.kept_mem ih he
  obtain ⟨back,hback,hmem⟩ := rdeps_reach fuel hV hfuel hsub (e.bothWithinUniverse X Y).2 none
  obtain ⟨path,hpath,hshort⟩ := somePath_ends hV hfuel
    (e.bothWithinUniverse X Y).2 hstart
  simp only [within_none] at hmem
  have hstarts : (fun a => a ∈ (e.bothWithinUniverse X Y).1) = fun a => a ∈ X ∧ e.Has a :=
    funext fun a => propext mem_bothWithinUniverse.1
  have hgoals : (fun b => b ∈ (e.bothWithinUniverse X Y).2) = fun b => b ∈ Y ∧ e.Has b :=
    funext fun b => propext mem_bothWithinUniverse.2
  refine ⟨reach.filter (back.contains ·),path,?_,?_,fun t => ?_,hstarts ▸ hgoals ▸ hshort⟩
  · simp only [evalIn, argValues, call, exprArg, List.getElem?_cons_zero, List.getElem?_cons_succ, hx,
      hy]
    exact bind_ok.mpr ⟨X,rfl,bind_ok.mpr ⟨Y,rfl,bind_ok.mpr ⟨reach,hreach,bind_ok.mpr
      ⟨back,hback,rfl⟩⟩⟩⟩
  · simp only [evalIn, argValues, call, exprArg, List.getElem?_cons_zero, List.getElem?_cons_succ, hx,
      hy]
    exact hpath
  · rw [mem_filter_contains, hmem, hiff, ← hstarts, ← hgoals, on_path_iff]
    constructor
    · rintro ⟨hreached,-,b,hb,-,htb⟩
      exact ⟨hreached,b,hb,htb⟩
    · rintro ⟨⟨a,ha,hat⟩,b,hb,htb⟩
      have hreached : t ∈ reach := (hiff t).mpr ⟨a,ha,hat⟩
      exact ⟨⟨a,ha,hat⟩,⟨t,hreached,.refl⟩,b,hb,⟨t,hreached,htb⟩,htb⟩

theorem Shortest.empty_iff {edge : Label → Label → Prop} {start goal : Label → Prop}
    {paths path : Targets} (hall : ∀ t, t ∈ paths ↔ ∃ p, IsPath edge start goal p ∧ t ∈ p)
    (h : Shortest edge start goal path) : (path = ∅ ↔ paths = ∅) ∧ ∀ t ∈ path, t ∈ paths := by
  rcases h with ⟨p,hp,-,hmem⟩ | ⟨rfl,hno⟩
  · obtain ⟨-,⟨a,ha,-⟩,-⟩ := id hp
    have hin : a ∈ p := List.mem_of_head? ha
    refine ⟨⟨fun hnil => ?_,fun hnil => ?_⟩,fun t ht => (hall t).mpr ⟨p,hp,(hmem t).mp ht⟩⟩
    · have hmem' := (hmem a).mpr hin
      simp [hnil] at hmem'
    · have hmem' := (hall a).mpr ⟨p,hp,hin⟩
      simp [hnil] at hmem'
  · refine ⟨⟨fun _ => ?_,fun _ => rfl⟩,by simp⟩
    refine Std.ExtTreeSet.ext_mem fun t => ?_
    rw [hall]
    simp [hno]

/-- The graph functions are about the paths of kept edges between the targets of
the query, and so is each of them about the others. -/
theorem graph_functions_are_reachability (hbuilt : e.Built) (hfinite : e.graph.Finite all)
    (hfuel : all.card < fuel) (hX : ∀ a ∈ X, a ∈ all) {depth : Option ℕ}
    (hd : ∀ n ∈ depth, n < 2^63) (hx : evalIn e chars fuel regex suiteTests env x = .ok X)
    (hy : evalIn e chars fuel regex suiteTests env y = .ok Y) :
    ∃ deps rdeps paths path,
      evalIn e chars fuel regex suiteTests env (.call .deps (.expr x::depthArgs depth)) = .ok deps ∧
      evalIn e chars fuel regex suiteTests env
        (.call .rDeps (.expr x::.expr y::depthArgs depth)) = .ok rdeps ∧
      evalIn e chars fuel regex suiteTests env (.call .allPaths [.expr x,.expr y]) = .ok paths ∧
      evalIn e chars fuel regex suiteTests env (.call .somePath [.expr x,.expr y]) = .ok path ∧
      (∀ t, t ∈ deps ↔ ∃ a ∈ X, Within e.Kept depth a t) ∧
      (∀ t, t ∈ rdeps ↔ (e.Has t ∧ ∃ a ∈ X, Relation.ReflTransGen e.Kept a t) ∧
        ∃ b ∈ Y, (e.Has b ∧ ∃ a ∈ X, Relation.ReflTransGen e.Kept a b) ∧ Within e.Kept depth t b) ∧
      (∀ t, t ∈ paths ↔
        ∃ p, IsPath e.Kept (fun a => a ∈ X ∧ e.Has a) (fun b => b ∈ Y ∧ e.Has b) p ∧ t ∈ p) ∧
      Shortest e.Kept (fun a => a ∈ X ∧ e.Has a) (fun b => b ∈ Y ∧ e.Has b) path ∧
      (path = ∅ ↔ paths = ∅) ∧ ∀ t ∈ path, t ∈ paths := by
  obtain ⟨V,hV,hcard,hsub⟩ := built_vertices hbuilt hfinite
  have hfuel : V.card < fuel := by omega
  have hX : ∀ a ∈ X, e.Has a → a ∈ V := fun a ha hhas => hsub a (hX a ha) hhas
  obtain ⟨deps,hdeps,hdepsiff⟩ := call_deps chars fuel regex suiteTests env hV hfuel hX hd hx
  obtain ⟨rdeps,hrdeps,hrdepsiff⟩ := call_rdeps chars fuel regex suiteTests env hV hfuel hX hd hx hy
  obtain ⟨paths,path,hpaths,hpath,hall,hshort⟩ :=
    call_paths chars fuel regex suiteTests env hV hfuel hX hx hy
  obtain ⟨hempty,hsubset⟩ := hshort.empty_iff hall
  exact ⟨deps,rdeps,paths,path,hdeps,hrdeps,hpaths,hpath,hdepsiff,hrdepsiff,hall,hshort,hempty,
    hsubset⟩

def ringLabel (name : String) : Label := ⟨"","p",name⟩

def ringNode (edges : List Edge) : Node := ⟨.rule "genrule" false false,"BUILD:1:1",[],edges⟩

/-- Two targets that depend on each other, the second also on a third and, as a
tool, on itself. -/
def ringGraph : TargetGraph where
  pattern word := if word = "//p:a" then .ok [ringLabel "a"] else .ok [ringLabel "c"]
  patternLenient _ := ⟨[],none,false⟩
  node label :=
    if label = ringLabel "a" then .ok (ringNode [⟨ringLabel "b",false,false,false,false⟩])
    else if label = ringLabel "b" then .ok (ringNode [⟨ringLabel "a",true,false,false,false⟩,
      ⟨ringLabel "b",false,true,false,false⟩,⟨ringLabel "c",false,false,false,false⟩])
    else .ok (ringNode [])
  siblings _ := .ok []
  buildFiles _ := .ok []
  loadFiles _ := .ok []
  visible _ _ := .ok true
  isConfiguration _ := false
  inConfiguration _ _ := false
  display := labelText

def ringTargets : Finset Label := {ringLabel "a",ringLabel "b",ringLabel "c"}

theorem ringGraph_finite : ringGraph.Finite ringTargets where
  loads a ha := by
    simp only [ringTargets, Finset.mem_insert, Finset.mem_singleton] at ha
    rcases ha with rfl | rfl | rfl <;> exact ⟨_,rfl,by decide⟩
  selects word labels h l hl := by
    by_cases hword : word = "//p:a"
    · obtain rfl : [ringLabel "a"] = labels := by simpa [ringGraph, hword] using h
      simp only [List.mem_singleton] at hl
      exact hl ▸ by decide
    · obtain rfl : [ringLabel "c"] = labels := by simpa [ringGraph, hword] using h
      simp only [List.mem_singleton] at hl
      exact hl ▸ by decide

def ringEvaluator : Evaluator := new ringGraph ⟨true,false,true,false⟩

theorem graph_functions_are_reachability_ring :
    ∃ path, evalIn ringEvaluator .asciiOnly 4 (fun _ => .error "") (fun _ => none) []
        (.call .somePath [.expr (.word "//p:a"),.expr (.word "//p:c")]) = .ok path ∧
      Shortest ringEvaluator.Kept (fun a => a ∈ ({} : Targets).insert (ringLabel "a") ∧ ringEvaluator.Has a)
        (fun b => b ∈ ({} : Targets).insert (ringLabel "c") ∧ ringEvaluator.Has b) path := by
  obtain ⟨-,-,-,path,-,-,-,hpath,-,-,-,hshort,-,-⟩ :=
    @graph_functions_are_reachability ringEvaluator ringTargets .asciiOnly 4 (fun _ => .error "")
    (fun _ => none) [] (.word "//p:a") (.word "//p:c") (({} : Targets).insert (ringLabel "a"))
    (({} : Targets).insert (ringLabel "c"))
    ⟨ringGraph,_,.inl rfl⟩ ringGraph_finite (by decide) (by
      intro a ha
      simp only [Std.ExtTreeSet.mem_insert, Std.LawfulEqOrd.compare_eq_iff_eq] at ha
      obtain rfl : ringLabel "a" = a := by simpa using ha
      decide) (some 1) (by simp) rfl rfl
  exact ⟨path,hpath,hshort⟩

end Calls

end Levels

end Evaluator

end BuildFiji.Query
