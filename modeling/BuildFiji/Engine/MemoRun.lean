import BuildFiji.Engine.MemoTotal

/-!
# Sequences of operations

Between two operations nothing runs and nothing waits. A change of a cell
starts a version and marks the node, so no record of the new version is old.
-/

set_option autoImplicit false
set_option linter.all false

namespace BuildFiji.Engine.Memo

open BuildFiji.Digraph Relation

variable {K V C : Type*} [DecidableEq K]

/-- The gets of a sequence of operations, each with the external state it is
made at. -/
def requests (ext : K → C) : List (Op K C) → List (K × (K → C))
  | [] => []
  | .change k c::ops => requests (Function.update ext k c) ops
  | .nextVersion::ops => requests ext ops
  | .get k::ops => (k,ext)::requests ext ops

/-- The external states a sequence of operations goes through. -/
def externals (ext : K → C) : List (Op K C) → List (K → C)
  | [] => [ext]
  | .change k c::ops => ext::externals (Function.update ext k c) ops
  | _::ops => externals ext ops

def World.new (V : Type*) (ext : K → C) : World K V C := ⟨ext,Graph.new K V⟩

/-- Nothing runs and nothing waits. -/
structure Settled (compute : K → Comp K V C) (w : World K V C) : Prop where
  coherent : Coherent compute w.ext w.graph
  idle : ∀ n, ¬ Running w.graph n
  quiet : ∀ a, adj w.graph.waits a = []

variable {compute : K → Comp K V C}

theorem new_settled (compute : K → Comp K V C) (ext : K → C) :
    Settled compute (World.new V ext) := by
  have hrec : ∀ k, record (Graph.new K V) k = none := fun _ => rfl
  refine ⟨⟨?_,?_,?_⟩,?_,fun _ => rfl⟩
  · intro k e he
    cases (hrec k).symm.trans he
  · intro k e he
    cases (hrec k).symm.trans he
  · intro k e he
    cases (hrec k).symm.trans he
  · rintro n ⟨p,d,dirty,h⟩
    cases h

/-- A graph whose version has moved on holds no record of its version. -/
theorem sound_of_fresh {ext ext' : K → C} {g g' : Graph K V} (h : Coherent compute ext g)
    (hr : ∀ n, record g' n = record g n) (hv : g'.version = g.version+1)
    (hq : ∀ a, adj g'.waits a = []) : Sound compute ext' g' := by
  refine ⟨fun n e he hve => ?_,fun a b hab => by simp [hq] at hab⟩
  rw [hr] at he
  have hle := (h.fresh n e he).2.1
  omega

omit [DecidableEq K] in
theorem Coherent.bump {ext ext' : K → C} {g g' : Graph K V} (h : Coherent compute ext g)
    (hr : ∀ n, record g' n = record g n) (hu : g'.unrecorded = g.unrecorded)
    (hv : g'.version = g.version+1) (hs : ∀ n, stale g n = true → stale g' n = true)
    (he : ∀ n e, record g n = some e → stale g' n = true ∨ ext' n = ext n) :
    Coherent compute ext' g' := by
  refine ⟨fun k e hk => ?_,fun k e hk q hq => ?_,fun k e hk hm => ?_⟩
  · rw [hr] at hk
    obtain ⟨h1,h2,-⟩ := h.fresh k e hk
    exact ⟨h1,by omega,fun _ => by omega⟩
  · rw [hr] at hk
    simpa only [hr] using h.deps k e hk q hq
  · rw [hr] at hk
    rw [hu] at hm
    obtain ⟨own,tr,ht,hre,hown,ho⟩ := h.replay k e hk hm
    refine ⟨own,tr,ht,hre,?_,by simpa only [hr] using ho⟩
    rcases hown with hown | rfl
    · exact .inl (hs k hown)
    · exact (he k e hk).imp_right Eq.symm

theorem invalidate_cases (g : Graph K V) (k : K) :
    (g.nodes k = none ∧ invalidate g k = { g with version := g.version+1 }) ∨
    ∃ n, g.nodes k = some n ∧
      invalidate g k = { g with version := g.version+1 }.set k { n with dirty := true } := by
  unfold invalidate
  cases h : g.nodes k with
  | none => exact .inl ⟨rfl,rfl⟩
  | some n => exact .inr ⟨n,rfl,rfl⟩

theorem invalidate_record (g : Graph K V) (k n : K) : record (invalidate g k) n = record g n := by
  rcases invalidate_cases g k with ⟨h,he⟩ | ⟨x,h,he⟩
  · rw [he]
    rfl
  · rw [he, record_set]
    split
    · next hn =>
      subst hn
      obtain ⟨state,dirty⟩ := x
      rw [record, h]
      cases state <;> rfl
    · rfl

theorem invalidate_stale (g : Graph K V) (k n : K) :
    stale (invalidate g k) n = (stale g n || (decide (n = k) && (g.nodes k).isSome)) := by
  rcases invalidate_cases g k with ⟨h,he⟩ | ⟨x,h,he⟩
  · rw [he, h]
    simp [stale]
  · rw [he, stale_set, h]
    split
    · next hn =>
      subst hn
      obtain ⟨state,dirty⟩ := x
      cases state <;> simp [stale, h, Node.stale]
    · next hn =>
      simp [stale, hn]

theorem invalidate_rest (g : Graph K V) (k : K) : (invalidate g k).version = g.version+1 ∧
    (invalidate g k).waits = g.waits ∧ (invalidate g k).unrecorded = g.unrecorded ∧
    (invalidate g k).reverified = g.reverified ∧
    ∀ n, Running (invalidate g k) n → Running g n := by
  rcases invalidate_cases g k with ⟨h,he⟩ | ⟨x,h,he⟩
  · rw [he]
    exact ⟨rfl,rfl,rfl,rfl,fun _ h => h⟩
  · rw [he]
    refine ⟨rfl,rfl,rfl,rfl,?_⟩
    rintro n ⟨p,d,dirty,hr⟩
    rw [set_nodes] at hr
    split at hr
    · next hn =>
      obtain ⟨state,dirty'⟩ := x
      cases hr
      exact ⟨p,d,dirty',hn ▸ h⟩
    · exact ⟨p,d,dirty,hr⟩

def World.change (w : World K V C) (k : K) (c : C) : World K V C :=
  ⟨Function.update w.ext k c,invalidate w.graph k⟩

def World.bump (w : World K V C) : World K V C :=
  { w with graph := { w.graph with version := w.graph.version+1 } }

/-- A change of a cell, with its invalidation. -/
theorem change_ok {w : World K V C} (h : Settled compute w) (k : K) (c : C) :
    Settled compute (w.change k c) ∧ Sound compute (w.change k c).ext (w.change k c).graph ∧
    (∀ S, NoMissed S w.graph → NoMissed S (w.change k c).graph) := by
  obtain ⟨hv,hw,hu,-,hrun⟩ := invalidate_rest w.graph k
  have hq : ∀ a, adj (invalidate w.graph k).waits a = [] := fun a => by rw [hw]; exact h.quiet a
  have hst : ∀ n, stale w.graph n = true → stale (invalidate w.graph k) n = true :=
    fun n hn => by simp [invalidate_stale, hn]
  have hrec := invalidate_record w.graph k
  refine ⟨⟨h.coherent.bump hrec hu hv hst fun n e he => ?_,fun n hn => h.idle n (hrun n hn),hq⟩,
    sound_of_fresh h.coherent hrec hv hq,fun S hm n hS hn => ?_⟩
  · by_cases hn : n = k
    · subst hn
      obtain ⟨x,hx,-⟩ := Option.bind_eq_some_iff.mp he
      exact .inl (by simp [World.change, invalidate_stale, hx])
    · exact .inr (by simp [World.change, hn])
  · exact hst n (hm n hS (hu ▸ hn))

theorem bump_ok {w : World K V C} (h : Settled compute w) :
    Settled compute w.bump ∧ Sound compute w.bump.ext w.bump.graph :=
  ⟨⟨h.coherent.bump (fun _ => rfl) rfl rfl (fun _ hs => hs) fun _ _ _ => .inr rfl,h.idle,h.quiet⟩,
    sound_of_fresh h.coherent (fun _ => rfl) rfl h.quiet⟩

variable [DecidableEq V]

theorem get_ok {debug : K → String} {fuel : ℕ} {w w' : World K V C} {k : K} {o : Outcome V}
    (h : Settled compute w) (hg : get debug compute fuel w k = some (o,w')) :
    w'.ext = w.ext ∧ Settled compute w' ∧
    (w'.graph.reverified = false → w.graph.reverified = false) ∧
    ∀ {S : K → Prop}, Region compute w.ext S k → Sound compute w.ext w.graph →
      Clear S w.graph w'.graph →
      Kept compute w.ext S w.graph w'.graph ∧ Scratch compute w.ext k o := by
  simp only [get] at hg
  cases he : evaluate debug compute w.ext (w.graph.node k).version fuel (w.graph.node k) k with
  | none => simp [he] at hg
  | some a =>
    obtain ⟨r,g'⟩ := a
    simp only [he] at hg
    obtain ⟨rfl,rfl⟩ := Prod.mk.inj (Option.some.inj hg)
    have hok := evaluate_ok fuel (w.graph.node k) k r g' rfl (h.coherent.node k) he
    have hf := (frame_node w.graph k).trans hok.frame
    refine ⟨rfl,⟨hok.coherent,fun n hn => h.idle n ((hf.running_iff n).mp hn),fun a => ?_⟩,
      hf.reverified,fun ha hs hcl => ?_⟩
    · refine List.eq_nil_iff_forall_not_mem.mpr fun b hb => ?_
      have hc := List.count_pos_iff.mpr hb
      rw [hf.waits, h.quiet] at hc
      simp at hc
    · obtain ⟨hk,e,rfl⟩ := hok.sound ha (hs.node k) (hcl.right (.node hs k))
      obtain ⟨hre,hve⟩ := hok.done e rfl
      exact ⟨.trans (.node hs k) hk,(hk.1.current k e hre (hve.trans hok.frame.version.symm)).2⟩

/-- The keys a key depends on, and the key. -/
def Below (compute : K → Comp K V C) (ext : K → C) (k n : K) : Prop :=
  ReflTransGen (Depends compute ext) k n

/-- Each get made at an acyclic external state starts where every key below
the one asked for whose last computation was refused a read is marked dirty,
or else does not come to verify such a node. -/
def ClearRun (debug : K → String) (compute : K → Comp K V C) (fuel : ℕ) :
    List (Op K C) → World K V C → Prop
  | [], _ => True
  | .change k c::ops, w => ClearRun debug compute fuel ops (w.change k c)
  | .nextVersion::ops, w => ClearRun debug compute fuel ops w.bump
  | .get k::ops, w => ∀ o w', get debug compute fuel w k = some (o,w') →
    (DepAcyclic compute w.ext → Clear (Below compute w.ext k) w.graph w'.graph) ∧
    ClearRun debug compute fuel ops w'

omit [DecidableEq K] [DecidableEq V] in
theorem below_region {ext : K → C} (ha : DepAcyclic compute ext) (k : K) :
    Region compute ext (Below compute ext k) k := ⟨ha,fun _ _ h hd => h.tail hd,.refl⟩

theorem runOps_get {debug : K → String} {fuel : ℕ} {k : K} {ops : List (Op K C)}
    {w w'' : World K V C} {os : List (Outcome V)}
    (h : runOps debug compute fuel (.get k::ops) w = some (os,w'')) :
    ∃ o w' os', get debug compute fuel w k = some (o,w') ∧
      runOps debug compute fuel ops w' = some (os',w'') ∧ os = o::os' := by
  rw [runOps] at h
  cases hg : get debug compute fuel w k with
  | none => simp [hg] at h
  | some a =>
    obtain ⟨o,w'⟩ := a
    simp only [hg] at h
    cases hr : runOps debug compute fuel ops w' with
    | none => simp [hr] at h
    | some b =>
      obtain ⟨os',w3⟩ := b
      simp only [hr] at h
      obtain ⟨rfl,rfl⟩ := Prod.mk.inj (Option.some.inj h)
      exact ⟨o,w',os',rfl,hr,rfl⟩

/-- Along a clear run every get at an acyclic external state answers from
scratch, and the world it ends in is again sound where it is acyclic. -/
theorem runOps_ok {debug : K → String} {fuel : ℕ} (ops : List (Op K C)) {w w' : World K V C}
    {os : List (Outcome V)} (hst : Settled compute w)
    (hs : DepAcyclic compute w.ext → Sound compute w.ext w.graph)
    (hcl : ClearRun debug compute fuel ops w)
    (h : runOps debug compute fuel ops w = some (os,w')) :
    Settled compute w' ∧ (DepAcyclic compute w'.ext → Sound compute w'.ext w'.graph) ∧
    List.Forall₂ (fun r o => DepAcyclic compute r.2 → Scratch compute r.2 r.1 o)
      (requests w.ext ops) os := by
  induction ops generalizing w os with
  | nil =>
    obtain ⟨rfl,rfl⟩ := Prod.mk.inj (Option.some.inj h)
    exact ⟨hst,hs,.nil⟩
  | cons op ops ih =>
    cases op with
    | change k c =>
      obtain ⟨h1,h2,-⟩ := change_ok hst k c
      exact ih h1 (fun _ => h2) hcl h
    | nextVersion =>
      obtain ⟨h1,h2⟩ := bump_ok hst
      exact @ih w.bump os h1 (fun _ => h2) hcl h
    | get k =>
      obtain ⟨o,w1,os',hg,hr,rfl⟩ := runOps_get h
      obtain ⟨hclk,hcl'⟩ := hcl o w1 hg
      obtain ⟨he,hst1,-,hk⟩ := get_ok hst hg
      have hk' : DepAcyclic compute w.ext → Sound compute w.ext w1.graph ∧
          Scratch compute w.ext k o := by
        intro ha
        obtain ⟨hk1,ho⟩ := hk (below_region ha k) (hs ha) (hclk ha)
        exact ⟨hk1.1,ho⟩
      obtain ⟨h1,h2,h3⟩ := ih hst1 (by rw [he]; exact fun ha => (hk' ha).1) hcl' hr
      rw [he] at h3
      exact ⟨h1,h2,.cons (fun ha => (hk' ha).2) h3⟩

/-- Where every external state is acyclic no read is ever left unrecorded. -/
theorem acyclic_clear {debug : K → String} {fuel : ℕ} (ops : List (Op K C)) {w : World K V C}
    (hst : Settled compute w) (hs : Sound compute w.ext w.graph)
    (hm : NoMissed (fun _ => True) w.graph)
    (hac : ∀ r ∈ requests w.ext ops, DepAcyclic compute r.2) :
    ClearRun debug compute fuel ops w := by
  induction ops generalizing w with
  | nil => trivial
  | cons op ops ih =>
    cases op with
    | change k c =>
      obtain ⟨h1,h2,h3⟩ := change_ok hst k c
      exact ih h1 h2 (h3 _ hm) hac
    | nextVersion =>
      obtain ⟨h1,h2⟩ := bump_ok hst
      exact ih h1 h2 hm hac
    | get k =>
      intro o w' hg
      have ha := hac (k,w.ext) (by simp [requests])
      obtain ⟨he,hst1,-,hk⟩ := get_ok hst hg
      obtain ⟨⟨hs1,hm1⟩,-⟩ := hk ⟨ha,fun _ _ _ _ => trivial,trivial⟩ hs (.inl hm)
      refine ⟨fun _ => .inl fun n _ hn => hm n trivial hn,?_⟩
      refine ih hst1 (by rwa [he]) (hm1 hm) fun r hr => hac r ?_
      rw [he] at hr
      simp [requests, hr]

/-- A run that ends without having verified a node with an unrecorded read is
clear throughout. -/
theorem reverified_clear {debug : K → String} {fuel : ℕ} (ops : List (Op K C)) {w w' : World K V C}
    {os : List (Outcome V)} (hst : Settled compute w)
    (h : runOps debug compute fuel ops w = some (os,w')) (hr : w'.graph.reverified = false) :
    ClearRun debug compute fuel ops w ∧ w.graph.reverified = false := by
  induction ops generalizing w os with
  | nil =>
    obtain ⟨rfl,rfl⟩ := Prod.mk.inj (Option.some.inj h)
    exact ⟨trivial,hr⟩
  | cons op ops ih =>
    cases op with
    | change k c =>
      obtain ⟨h1,h2⟩ := ih (change_ok hst k c).1 h
      exact ⟨h1,(invalidate_rest w.graph k).2.2.2.1 ▸ h2⟩
    | nextVersion => exact @ih w.bump os (bump_ok hst).1 h
    | get k =>
      obtain ⟨o,w1,os',hg,hrest,rfl⟩ := runOps_get h
      obtain ⟨-,hst1,hmono,-⟩ := get_ok hst hg
      obtain ⟨h1,h2⟩ := ih hst1 hrest
      refine ⟨fun o' w2 hg' => ?_,hmono h2⟩
      obtain ⟨-,rfl⟩ := Prod.mk.inj (Option.some.inj (hg.symm.trans hg'))
      exact ⟨fun _ => .inr h2,h1⟩

omit [DecidableEq V] in
theorem externals_head (ext : K → C) (ops : List (Op K C)) : ext ∈ externals ext ops := by
  induction ops with
  | nil => simp [externals]
  | cons op ops ih => cases op <;> simp [externals, ih]

theorem requests_externals (ext : K → C) (ops : List (Op K C)) :
    ∀ r ∈ requests ext ops, r.2 ∈ externals ext ops := by
  induction ops generalizing ext with
  | nil => simp [requests]
  | cons op ops ih =>
    cases op with
    | change k c => exact fun r hr => List.mem_cons_of_mem _ (ih _ r hr)
    | nextVersion => exact ih ext
    | get k =>
      intro r hr
      rcases List.mem_cons.mp hr with rfl | hr
      · exact externals_head ext (.get k::ops)
      · exact ih ext r hr

theorem get_answers (debug : K → String) {ext : K → C} {k : K} {o : Outcome V}
    (hs : Scratch compute ext k o) (S : K → Prop) : ∃ N, ∀ fuel, N ≤ fuel → ∀ w : World K V C,
      w.ext = ext → Settled compute w → Sound compute ext w.graph → Region compute ext S k →
      NoMissed S w.graph → ∃ a, get debug compute fuel w k = some a := by
  obtain ⟨N,hN⟩ := @evaluate_answers _ _ _ _ compute ext S debug k _ o hs
  refine ⟨N,fun fuel hf w he hst hsd hre hm => ?_⟩
  subst he
  have hidle : ∀ n, ¬ Running (w.graph.node k) n :=
    fun n hn => hst.idle n (((frame_node w.graph k).running_iff n).mp hn)
  have hready : Ready compute w.ext S (w.graph.node k).version (w.graph.node k) k :=
    ⟨rfl,hst.coherent.node k,hsd.node k,hre,(Kept.node hsd k).2 hm,
      fun n hn => absurd hn (hidle n)⟩
  obtain ⟨⟨r,g'⟩,hev⟩ := hN fuel hf _ _ hready (hidle k) (node_named w.graph k)
  simp only [get, hev]
  exact ⟨_,rfl⟩

theorem runOps_answers (debug : K → String) (ops : List (Op K C)) (ext : K → C)
    (hac : ∀ r ∈ requests ext ops, DepAcyclic compute r.2 ∧ ∃ o, Scratch compute r.2 r.1 o) :
    ∃ N, ∀ fuel, N ≤ fuel → ∀ w : World K V C, w.ext = ext → Settled compute w →
      Sound compute ext w.graph → NoMissed (fun _ => True) w.graph →
      ∃ a, runOps debug compute fuel ops w = some a := by
  induction ops generalizing ext with
  | nil => exact ⟨0,fun _ _ w _ _ _ _ => ⟨_,rfl⟩⟩
  | cons op ops ih =>
    cases op with
    | change k c =>
      obtain ⟨N,hN⟩ := ih (Function.update ext k c) hac
      refine ⟨N,fun fuel hf w he hst hs hm => ?_⟩
      subst he
      obtain ⟨h1,h2,h3⟩ := change_ok hst k c
      exact hN fuel hf (w.change k c) rfl h1 h2 (h3 _ hm)
    | nextVersion =>
      obtain ⟨N,hN⟩ := ih ext hac
      refine ⟨N,fun fuel hf w he hst hs hm => ?_⟩
      subst he
      obtain ⟨h1,h2⟩ := bump_ok hst
      exact hN fuel hf w.bump rfl h1 h2 hm
    | get k =>
      obtain ⟨ha,o,ho⟩ := hac (k,ext) (by simp [requests])
      obtain ⟨N1,hN1⟩ := get_answers debug ho fun _ => True
      obtain ⟨N2,hN2⟩ := ih ext fun r hr => hac r (by simp [requests, hr])
      refine ⟨max N1 N2,fun fuel hf w he hst hs hm => ?_⟩
      have hre : Region compute ext (fun _ => True) k := ⟨ha,fun _ _ _ _ => trivial,trivial⟩
      obtain ⟨⟨o1,w1⟩,h1⟩ := hN1 fuel (le_trans (le_max_left _ _) hf) w he hst hs hre hm
      subst he
      obtain ⟨he1,hst1,-,hk⟩ := get_ok hst h1
      obtain ⟨⟨hs1,hm1⟩,-⟩ := hk hre hs (.inl hm)
      obtain ⟨⟨os,w2⟩,h2⟩ := hN2 fuel (le_trans (le_max_right _ _) hf) w1 he1 hst1 hs1 (hm1 hm)
      simp only [runOps, h1, h2]
      exact ⟨_,rfl⟩

omit [DecidableEq V] in
theorem new_sound (ext : K → C) : Sound compute ext (Graph.new K V) := by
  refine ⟨fun n e he => ?_,fun a b hab => ?_⟩
  · cases (show record (Graph.new K V) n = none from rfl).symm.trans he
  · cases hab

/-- Used by one caller at a time, under external states that are all acyclic,
the engine answers every get as evaluation from scratch does; and it does
answer, given a value from scratch for each get. -/
theorem gets_from_scratch (debug : K → String) (compute : K → Comp K V C) (ext : K → C)
    (ops : List (Op K C)) (hac : ∀ e ∈ externals ext ops, DepAcyclic compute e) :
    (∀ fuel os w, runOps debug compute fuel ops (World.new V ext) = some (os,w) →
      List.Forall₂ (fun r o => Scratch compute r.2 r.1 o) (requests ext ops) os) ∧
    ((∀ r ∈ requests ext ops, ∃ o, Scratch compute r.2 r.1 o) →
      ∃ N, ∀ fuel, N ≤ fuel → ∃ os w,
        runOps debug compute fuel ops (World.new V ext) = some (os,w)) := by
  have hst := new_settled compute ext
  have hreq : ∀ r ∈ requests ext ops, DepAcyclic compute r.2 :=
    fun r hr => hac r.2 (requests_externals ext ops r hr)
  have hm : NoMissed (fun _ => True) (World.new V ext).graph := fun n _ hn => by cases hn
  constructor
  · intro fuel os w h
    have hcl : ClearRun debug compute fuel ops (World.new V ext) :=
      acyclic_clear ops hst (new_sound ext) hm hreq
    obtain ⟨-,-,hall⟩ := runOps_ok ops hst (fun _ => new_sound ext) hcl h
    rw [List.forall₂_iff_get] at hall ⊢
    exact ⟨hall.1,fun i h1 h2 => hall.2 i h1 h2 (hreq _ (List.get_mem _ _))⟩
  · intro hex
    obtain ⟨N,hN⟩ := runOps_answers debug ops ext fun r hr => ⟨hreq r hr,hex r hr⟩
    refine ⟨N,fun fuel hf => ?_⟩
    obtain ⟨⟨os,w⟩,h⟩ := hN fuel hf (World.new V ext) rfl hst (new_sound ext) hm
    exact ⟨os,w,h⟩

/-- Two keys that read each other when the cell of the first holds zero. -/
def selector : Bool → Comp Bool ℕ ℕ
  | true => .cell fun c =>
    if c = 0 then .get [false] fun ws => .ret (ws.headD (.ok 0)) else .ret (.ok c)
  | false => .get [true] fun ws => .ret (ws.headD (.ok 0))

theorem selector_acyclic (ext : Bool → ℕ) (h : ext true ≠ 0) : DepAcyclic selector ext := by
  refine depAcyclic_of_rank (fun k => if k then 0 else 1) fun a b hab => ?_
  cases a with
  | true =>
    cases hab with
    | cell hab =>
      simp only [if_neg h] at hab
      cases hab
  | false =>
    cases hab with
    | here hb =>
      obtain rfl := List.mem_singleton.mp hb
      decide
    | next _ _ hab => cases hab

theorem selector_scratch (ext : Bool → ℕ) (h : ext true ≠ 0) (k : Bool) :
    Scratch selector ext k (.ok (ext true)) := by
  have ht : Scratch selector ext true (.ok (ext true)) := by
    refine .cell ?_
    simp only [if_neg h]
    exact .ret _ _
  cases k with
  | true => exact ht
  | false =>
    have hws : ∀ p ∈ [true].zip [Except.ok (ext true)],
        Evals selector ext p.1 (selector p.1) p.2 := by
      intro p hp
      obtain rfl : p = (true,Except.ok (ext true)) := by simpa using hp
      exact ht
    exact .get rfl hws (.ret _ _)

theorem gets_from_scratch_selector :
    (∃ w, runOps toString selector 3 [.get false,.change true 2,.get false]
      (World.new ℕ fun _ => 1) = some ([.ok 1,.ok 2],w)) ∧
    List.Forall₂ (fun r o => Scratch selector r.2 r.1 o)
      (requests (fun _ => 1) [.get false,.change true 2,.get false]) [.ok 1,.ok 2] := by
  have hac : ∀ e ∈ externals (fun _ : Bool => 1) [.get false,.change true 2,.get false],
      DepAcyclic selector e := by
    intro e he
    refine selector_acyclic e ?_
    simp only [externals, List.mem_cons, List.not_mem_nil, or_false] at he
    rcases he with rfl | rfl <;> simp
  refine ⟨⟨_,rfl⟩,(gets_from_scratch toString selector _ _ hac).1 3 _ _ rfl⟩

/-- A key that was on or above a cycle answers from scratch once the external
state is acyclic, in every clear run; and a get that starts clear does answer. -/
theorem clear_run_recovers (debug : K → String) (compute : K → Comp K V C) (ext : K → C)
    (ops : List (Op K C)) (fuel : ℕ) (os : List (Outcome V)) (w : World K V C)
    (hcl : ClearRun debug compute fuel ops (World.new V ext))
    (h : runOps debug compute fuel ops (World.new V ext) = some (os,w)) :
    List.Forall₂ (fun r o => DepAcyclic compute r.2 → Scratch compute r.2 r.1 o)
      (requests ext ops) os ∧
    (DepAcyclic compute w.ext → ∀ k o, Scratch compute w.ext k o →
      NoMissed (Below compute w.ext k) w.graph →
      ∃ N, ∀ fuel, N ≤ fuel → ∃ w', get debug compute fuel w k = some (o,w')) := by
  obtain ⟨hst,hs,hall⟩ := runOps_ok ops (new_settled compute ext) (fun _ => new_sound ext) hcl h
  refine ⟨hall,fun ha k o ho hm => ?_⟩
  obtain ⟨N,hN⟩ := get_answers debug ho (Below compute w.ext k)
  refine ⟨N,fun fuel hf => ?_⟩
  obtain ⟨⟨o',w'⟩,hg⟩ := hN fuel hf w rfl hst (hs ha) (below_region ha k) hm
  obtain ⟨-,-,-,hk⟩ := get_ok hst hg
  obtain ⟨-,ho'⟩ := hk (below_region ha k) (hs ha) (.inl hm)
  exact ⟨w',by rw [hg, scratch_unique ho ho']⟩

/-- The key above the cycle was refused a read, so it has no entry for the key
whose cell has changed and is kept. -/
theorem refused_read_outlives_cycle :
    (∃ w, runOps toString selector 3 [.get true,.change true 5,.get false]
      (World.new ℕ fun _ => 0) = some ([.error "cycle: false -> true -> false",
        .error "cycle: false -> true -> false"],w)) ∧
    requests (fun _ => 0) [.get true,.change true 5,.get false] =
      [(true,fun _ => 0),(false,Function.update (fun _ => 0) true 5)] ∧
    DepAcyclic selector (Function.update (fun _ => 0) true 5) ∧
    Scratch selector (Function.update (fun _ => 0) true 5) false (.ok 5) := by
  refine ⟨⟨_,rfl⟩,rfl,selector_acyclic _ (by simp),?_⟩
  have h := selector_scratch (Function.update (fun _ => 0) true 5) (by simp) false
  simpa using h

theorem clear_run_recovers_selector :
    List.Forall₂ (fun r o => DepAcyclic selector r.2 → Scratch selector r.2 r.1 o)
      (requests (fun _ => 0) [.get true,.change true 5,.get true])
      [.error "cycle: false -> true -> false",.ok 5] := by
  have hst := new_settled selector (fun _ : Bool => 0)
  exact (clear_run_recovers toString selector (fun _ => 0) [.get true,.change true 5,.get true] 3
    _ _ (reverified_clear _ hst rfl rfl).1 rfl).1

end BuildFiji.Engine.Memo
