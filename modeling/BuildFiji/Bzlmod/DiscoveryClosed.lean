import BuildFiji.Bzlmod.Discovery
import Mathlib.Data.Set.Card
import Mathlib.Data.Set.Finite.Lattice

/-!
# The discovered graph is the least closed one

One round finds exactly what is reached when the nodep edges to the names of
the round before count. These names only grow from round to round, and the
round that ends discovery has passed over no edge that counts.
-/

set_option autoImplicit false
set_option linter.all false

namespace BuildFiji.Bzlmod

section Round
variable {starlark : Starlark} {root : ModuleFile} {overrides : Overrides}
  {source : ModuleFileSource} {previous : Names}

structure RoundInv (starlark : Starlark) (root : ModuleFile) (overrides : Overrides)
    (source : ModuleFileSource) (previous : Names) (horizon : List ModuleKey) (graph : DepGraph)
    (unfulfilled : Names) : Prop where
  modules : ∀ k m, graph[k]? = some m → moduleAt starlark root overrides source k = .ok m
  root_mem : ModuleKey.root ∈ graph
  horizon_mem : ∀ k ∈ horizon, k ∈ graph
  reached : ∀ k ∈ graph, ReachedBy (moduleAt starlark root overrides source) (· ∈ previous) k
  dep : ∀ k m, graph[k]? = some m → k ∉ horizon → ∀ d ∈ m.deps, d.spec.toModuleKey ∈ graph
  nodep : ∀ k m, graph[k]? = some m → k ∉ horizon → ∀ d ∈ m.nodepDeps,
    d.toModuleKey ∈ graph ∨ d.name ∉ previous ∧ d.name ∈ unfulfilled
  passed : ∀ n ∈ unfulfilled, n ∉ previous

theorem start_getElem? {m : Module} {k : ModuleKey} {module : Module}
    (h : ((∅ : DepGraph).insert .root m)[k]? = some module) : k = .root ∧ module = m := by
  rw [insert_getElem? ∅ (.root,m) k] at h
  split at h
  · next hk => exact ⟨hk.symm,(Option.some.inj h).symm⟩
  · simp at h

theorem start_inv : RoundInv starlark root overrides source previous [.root]
    ((∅ : DepGraph).insert .root (rootModule root overrides)) ∅ := by
  have hmem : ModuleKey.root ∈ (∅ : DepGraph).insert .root (rootModule root overrides) :=
    Std.ExtTreeMap.mem_insert_self
  refine ⟨fun k m h => ?_,hmem,fun k hk => ?_,fun k hk => ?_,fun k m h hk => ?_,fun k m h hk => ?_,
    by simp⟩
  · obtain ⟨rfl,rfl⟩ := start_getElem? h
    exact moduleAt_root
  · rw [List.mem_singleton.mp hk]
    exact hmem
  · obtain ⟨m,hm⟩ := getElem?_of_mem hk
    rw [(start_getElem? hm).1]
    exact .root
  · exact absurd (List.mem_singleton.mpr (start_getElem? h).1) hk
  · exact absurd (List.mem_singleton.mpr (start_getElem? h).1) hk

/-- One horizon. -/
theorem RoundInv.step {horizon : List ModuleKey} {graph : DepGraph} {unfulfilled : Names}
    (h : RoundInv starlark root overrides source previous horizon graph unfulfilled)
    {ms : List (ModuleKey × Module)}
    (hms : readAll starlark root overrides source
      (horizon.foldl (expand graph previous) ([],unfulfilled)).1 = .ok ms) :
    RoundInv starlark root overrides source previous (ms.map Prod.fst)
      (ms.foldl (fun graph m => graph.insert m.1 m.2) graph)
      (horizon.foldl (expand graph previous) ([],unfulfilled)).2 := by
  have hf := foldl_finds (@expand_finds graph previous) horizon ([],unfulfilled)
  generalize hfound : horizon.foldl (expand graph previous) ([],unfulfilled) = found at hf hms
  obtain ⟨hkeys,hread⟩ := readAll_ok hms
  have hmem := mem_insertAll ms graph
  have hnew : ∀ k, k ∈ found.1 → k ∉ graph ∧ ReachedBy (moduleAt starlark root overrides source)
      (· ∈ previous) k := by
    intro k hk
    obtain ⟨hg,d,rfl,hd⟩ := (hf.new k hk).resolve_left (by simp)
    refine ⟨hg,?_⟩
    rcases hd with ⟨x,hx,m,hm,hd⟩ | ⟨⟨x,hx,m,hm,hd⟩,hn⟩
    · obtain ⟨d',hd',rfl⟩ := List.mem_map.mp hd
      exact .dep (h.reached x (h.horizon_mem x hx)) (h.modules x m hm) hd'
    · exact .nodep (h.reached x (h.horizon_mem x hx)) (h.modules x m hm) hd hn
  have hold : ∀ k m, (ms.foldl (fun graph m => graph.insert m.1 m.2) graph)[k]? = some m →
      k ∉ ms.map Prod.fst → graph[k]? = some m := by
    intro k m hm hk
    rwa [insertAll_getElem? ms graph hk] at hm
  have hin : ∀ k, k ∈ graph ∨ k ∈ found.1 →
      k ∈ ms.foldl (fun graph m => graph.insert m.1 m.2) graph :=
    fun k hk => (hmem k).mpr (hkeys ▸ hk)
  refine ⟨fun k m hm => ?_,(hmem _).mpr (.inl h.root_mem),fun k hk => (hmem k).mpr (.inr hk),
    fun k hk => ?_,fun k m hm hk d hd => ?_,fun k m hm hk d hd => ?_,fun n hn => ?_⟩
  · rcases insertAll_some ms graph hm with hm | hm
    · exact h.modules k m hm
    · have hk : k ∈ found.1 := hkeys ▸ List.mem_map_of_mem hm
      have hne : k ≠ .root := fun hr => (hnew k hk).1 (hr ▸ h.root_mem)
      rw [moduleAt_other hne]
      exact hread _ hm
  · rcases (hmem k).mp hk with hk | hk
    · exact h.reached k hk
    · exact (hnew k (hkeys ▸ hk)).2
  · have hm := hold k m hm hk
    by_cases hh : k ∈ horizon
    · exact hin _ (hf.dep d.spec ⟨k,hh,m,hm,List.mem_map_of_mem hd⟩)
    · exact hin _ (.inl (h.dep k m hm hh d hd))
  · have hm := hold k m hm hk
    by_cases hh : k ∈ horizon
    · rcases hf.nodep d ⟨k,hh,m,hm,hd⟩ with hd | hd | hd
      · exact .inl (hin _ (.inl hd))
      · exact .inl (hin _ (.inr hd))
      · exact .inr hd
    · exact (h.nodep k m hm hh d hd).imp (fun hd => hin _ (.inl hd)) (And.imp_right (hf.names _))
  · exact (hf.unfulfilled n hn).elim (h.passed n) id

/-- A round that ends has looked at every edge. -/
theorem explore_inv (fuel : ℕ) {horizon : List ModuleKey} {graph graph' : DepGraph}
    {unfulfilled unfulfilled' : Names}
    (h : RoundInv starlark root overrides source previous horizon graph unfulfilled)
    (he : explore starlark root overrides source previous fuel horizon graph unfulfilled =
      some (.ok (graph',unfulfilled'))) :
    RoundInv starlark root overrides source previous [] graph' unfulfilled' := by
  induction fuel generalizing horizon graph unfulfilled with
  | zero => cases he
  | succ fuel ih =>
    rw [explore] at he
    split at he
    · next hnil =>
      cases he
      exact hnil ▸ h
    · dsimp only at he
      split at he
      · cases he
      · next ms hms => exact ih (h.step hms) he

/-- The keys that are still to come. -/
noncomputable def missing (all : Set ModuleKey) (graph : DepGraph) : ℕ := (all \ {k | k ∈ graph}).ncard

theorem missing_lt {all : Set ModuleKey} (hfin : all.Finite) {graph graph' : DepGraph}
    (hsub : ∀ k ∈ graph, k ∈ graph') {k : ModuleKey} (hk : k ∈ all) (hg : k ∉ graph)
    (hg' : k ∈ graph') : missing all graph' < missing all graph := by
  apply Set.ncard_lt_ncard _ hfin.sdiff
  refine ⟨fun x hx => ⟨hx.1,fun hx' => hx.2 (hsub x hx')⟩,fun hall => ?_⟩
  exact (hall ⟨hk,hg⟩).2 hg'

theorem explore_answers {all : Set ModuleKey} (hfin : all.Finite)
    (hall : ∀ k, ReachedBy (moduleAt starlark root overrides source) (· ∈ previous) k → k ∈ all)
    (fuel : ℕ) {horizon : List ModuleKey} {graph : DepGraph} {unfulfilled : Names}
    (h : RoundInv starlark root overrides source previous horizon graph unfulfilled)
    (hfuel : missing all graph+2 ≤ fuel ∨ horizon = [] ∧ 1 ≤ fuel) :
    ∃ r, explore starlark root overrides source previous fuel horizon graph unfulfilled =
      some r := by
  induction fuel generalizing horizon graph unfulfilled with
  | zero => omega
  | succ fuel ih =>
    rw [explore]
    split
    · exact ⟨_,rfl⟩
    · next hne =>
      have hfuel := hfuel.resolve_right fun hnil => hne hnil.1
      dsimp only
      split
      · exact ⟨_,rfl⟩
      · next ms hms =>
        have hstep := h.step hms
        obtain ⟨hkeys,-⟩ := readAll_ok hms
        apply ih hstep
        cases ms with
        | nil => right; exact ⟨rfl,by omega⟩
        | cons m ms =>
          left
          have hm : m.1 ∈ (m::ms).map Prod.fst := by simp
          have hf := foldl_finds (@expand_finds graph previous) horizon ([],unfulfilled)
          have hnew := ((hf.new m.1 (hkeys ▸ hm)).resolve_left (by simp)).1
          have hin := hstep.horizon_mem m.1 hm
          have hlt := missing_lt hfin (fun k hk => (mem_insertAll _ graph k).mpr (.inl hk))
            (hall _ (hstep.reached _ hin)) hnew hin
          omega

/-- What a round has found is what is reached. -/
theorem RoundInv.mem_iff {graph : DepGraph} {unfulfilled : Names}
    (h : RoundInv starlark root overrides source previous [] graph unfulfilled) (k : ModuleKey) :
    k ∈ graph ↔ ReachedBy (moduleAt starlark root overrides source) (· ∈ previous) k := by
  refine ⟨h.reached k,fun hk => ?_⟩
  have hat : ∀ k m, k ∈ graph → moduleAt starlark root overrides source k = .ok m →
      graph[k]? = some m := by
    intro k m hk hm
    obtain ⟨m',hm'⟩ := getElem?_of_mem hk
    cases hm.symm.trans (h.modules k m' hm')
    exact hm'
  induction hk with
  | root => exact h.root_mem
  | dep _ hm hd ih => exact h.dep _ _ (hat _ _ ih hm) (by simp) _ hd
  | nodep _ hm hd hn ih =>
    exact (h.nodep _ _ (hat _ _ ih hm) (by simp) _ hd).resolve_right fun hp => hp.1 hn

theorem prune_getElem? {graph : DepGraph} {k : ModuleKey} {m : Module} :
    (prune graph)[k]? = some m ↔ ∃ m0, graph[k]? = some m0 ∧
      m = { m0 with nodepDeps := m0.nodepDeps.filter fun d => d.toModuleKey ∈ graph } := by
  rw [prune, Std.ExtTreeMap.getElem?_map, Option.map_eq_some_iff]
  exact exists_congr fun m0 => and_congr_right fun _ => eq_comm

theorem mem_prune {graph : DepGraph} {k : ModuleKey} : k ∈ prune graph ↔ k ∈ graph :=
  Std.ExtTreeMap.mem_map

theorem mem_moduleNames {graph : DepGraph} {n : String} :
    n ∈ moduleNames graph ↔ ∃ (k : ModuleKey) (m : Module), graph[k]? = some m ∧ m.name = n := by
  rw [moduleNames, Std.ExtTreeSet.mem_ofList, List.contains_iff_mem, List.mem_map]
  constructor
  · rintro ⟨⟨k,m⟩,hm,rfl⟩
    exact ⟨k,m,Std.ExtTreeMap.mem_toList_iff_getElem?_eq_some.mp hm,rfl⟩
  · rintro ⟨k,m,hm,rfl⟩
    exact ⟨(k,m),Std.ExtTreeMap.mem_toList_iff_getElem?_eq_some.mpr hm,rfl⟩

/-- What a round that ended has found. -/
theorem discoverRound_ok {fuel : ℕ} {graph : DepGraph} {unfulfilled : Names}
    (h : discoverRound starlark root overrides source fuel previous =
      some (.ok (graph,unfulfilled))) :
    ∃ full, RoundInv starlark root overrides source previous [] full unfulfilled ∧
      graph = prune full := by
  obtain ⟨r,hr,h⟩ := Option.map_eq_some_iff.mp h
  cases r with
  | error e => cases h
  | ok r =>
    obtain ⟨full,unfulfilled'⟩ := r
    cases h
    exact ⟨full,explore_inv fuel start_inv hr,rfl⟩

end Round

section Names
variable {starlark : Starlark} {root : ModuleFile} {overrides : Overrides}
  {source : ModuleFileSource} {previous : Names}

/-- The names that count in a round are names of what is reached in it, and of
what is reached at all. -/
structure Counted (starlark : Starlark) (root : ModuleFile) (overrides : Overrides)
    (source : ModuleFileSource) (previous : Names) : Prop where
  kept : ∀ n ∈ previous, ∃ k m, ReachedBy (moduleAt starlark root overrides source)
    (· ∈ previous) k ∧ moduleAt starlark root overrides source k = .ok m ∧ m.name = n
  reached : ∀ n ∈ previous, n = root.module.name ∨
    ∃ k m, Reached (moduleAt starlark root overrides source) k ∧
      moduleAt starlark root overrides source k = .ok m ∧ k.name = n

theorem counted_root :
    Counted starlark root overrides source ((∅ : Names).insert root.module.name) := by
  have hn : ∀ n, n ∈ (∅ : Names).insert root.module.name → n = root.module.name := by
    intro n hn
    rcases Std.ExtTreeSet.mem_insert.mp hn with hn | hn
    · exact (Std.LawfulEqOrd.eq_of_compare hn).symm
    · simp at hn
  refine ⟨fun n hmem => ⟨.root,_,.root,moduleAt_root,?_⟩,fun n hmem => .inl (hn n hmem)⟩
  rw [hn n hmem]
  rfl

theorem Counted.sub (h : Counted starlark root overrides source previous) {k : ModuleKey}
    (hk : ReachedBy (moduleAt starlark root overrides source) (· ∈ previous) k) :
    Reached (moduleAt starlark root overrides source) k := by
  apply hk.reached
  intro key module _ hm d hd hn
  rcases h.reached d.name hn with hroot | hother
  · rcases moduleAt_edge hm (List.mem_append_right _ hd) with he | he
    · exact .inl (he ▸ .root)
    · exact absurd hroot he.2
  · exact .inr hother

/-- The names of one round count in the next. -/
theorem Counted.next (h : Counted starlark root overrides source previous) {full : DepGraph}
    {unfulfilled : Names}
    (hr : RoundInv starlark root overrides source previous [] full unfulfilled) :
    Counted starlark root overrides source (moduleNames (prune full)) ∧
      ∀ n ∈ previous, n ∈ moduleNames (prune full) := by
  have hnames : ∀ n, n ∈ moduleNames (prune full) ↔ ∃ k m,
      ReachedBy (moduleAt starlark root overrides source) (· ∈ previous) k ∧
      moduleAt starlark root overrides source k = .ok m ∧ m.name = n := by
    intro n
    rw [mem_moduleNames]
    constructor
    · rintro ⟨k,m,hm,rfl⟩
      obtain ⟨m0,hm0,rfl⟩ := prune_getElem?.mp hm
      exact ⟨k,m0,hr.reached k (mem_of_getElem? hm0),hr.modules k m0 hm0,rfl⟩
    · rintro ⟨k,m,hk,hm,rfl⟩
      obtain ⟨m0,hm0⟩ := getElem?_of_mem ((hr.mem_iff k).mpr hk)
      cases hm.symm.trans (hr.modules k m0 hm0)
      exact ⟨k,_,prune_getElem?.mpr ⟨m,hm0,rfl⟩,rfl⟩
  have hgrow : ∀ n ∈ previous, n ∈ moduleNames (prune full) := fun n hn =>
    (hnames n).mpr (h.kept n hn)
  refine ⟨⟨fun n hn => ?_,fun n hn => ?_⟩,hgrow⟩
  · obtain ⟨k,m,hk,hm,hname⟩ := (hnames n).mp hn
    exact ⟨k,m,hk.mono hgrow,hm,hname⟩
  · obtain ⟨k,m,hk,hm,rfl⟩ := (hnames n).mp hn
    have hname := moduleAt_name hm
    split at hname
    · exact .inl hname
    · exact .inr ⟨k,m,h.sub hk,hm,hname.symm⟩

end Names

/-- A module of the graph has the name, as the one it is asked for by or as the
one it declares. -/
def Named (graph : DepGraph) (n : String) : Prop :=
  ∃ (k : ModuleKey) (m : Module), graph[k]? = some m ∧ (k.name = n ∨ m.name = n)

section Discover
variable {starlark : Starlark} {root : ModuleFile} {overrides : Overrides}
  {source : ModuleFileSource} {previous : Names}

/-- In the last round an edge to a name of the graph has its own key there. -/
theorem RoundInv.nodep_named {full : DepGraph} {unfulfilled : Names}
    (hr : RoundInv starlark root overrides source previous [] full unfulfilled)
    (hno : ∀ n ∈ unfulfilled, n ∉ moduleNames (prune full)) {k : ModuleKey} {m : Module}
    {d : DepSpec} (hm : full[k]? = some m) (hd : d ∈ m.nodepDeps) (hn : Named full d.name) :
    d.toModuleKey ∈ full := by
  rcases hr.nodep k m hm (by simp) d hd with h | ⟨-,hu⟩
  · exact h
  · rcases moduleAt_edge (hr.modules k m hm) (List.mem_append_right _ hd) with he | ⟨hv,hne⟩
    · exact he ▸ hr.root_mem
    · obtain ⟨other,m',hm',hname⟩ := hn
      have hdecl := moduleAt_name (hr.modules other m' hm')
      have heq : m'.name = d.name := by
        split at hdecl
        · next hroot =>
          rcases hname with hname | hname
          · rw [hroot] at hname
            exact absurd hname.symm (validModuleName_ne_empty hv)
          · exact absurd (hname.symm.trans hdecl) hne
        · rcases hname with hname | hname
          · exact hdecl.trans hname
          · exact hname
      exact absurd (mem_moduleNames.mpr ⟨other,_,prune_getElem?.mpr ⟨m',hm',rfl⟩,heq⟩)
        (hno d.name hu)

theorem RoundInv.mem_iff_reached {full : DepGraph} {unfulfilled : Names}
    (hr : RoundInv starlark root overrides source previous [] full unfulfilled)
    (hc : Counted starlark root overrides source previous)
    (hno : ∀ n ∈ unfulfilled, n ∉ moduleNames (prune full)) (k : ModuleKey) :
    k ∈ full ↔ Reached (moduleAt starlark root overrides source) k := by
  refine ⟨fun hk => hc.sub ((hr.mem_iff k).mp hk),fun hk => ?_⟩
  have hat : ∀ k m, k ∈ full → moduleAt starlark root overrides source k = .ok m →
      full[k]? = some m := by
    intro k m hk hm
    obtain ⟨m',hm'⟩ := getElem?_of_mem hk
    cases hm.symm.trans (hr.modules k m' hm')
    exact hm'
  induction hk with
  | root => exact hr.root_mem
  | dep _ hm hd ih => exact hr.dep _ _ (hat _ _ ih hm) (by simp) _ hd
  | nodep _ hm hd _ hm' hname ih ih' =>
    exact hr.nodep_named hno (hat _ _ ih hm) hd ⟨_,_,hat _ _ ih' hm',.inl hname⟩

/-- The graph of the round that ends discovery. -/
theorem discoverFrom_ok {fuel : ℕ} (rounds : ℕ) {graph : DepGraph}
    (hc : Counted starlark root overrides source previous)
    (h : discoverFrom starlark root overrides source fuel rounds previous = some (.ok graph)) :
    ∃ previous full unfulfilled, Counted starlark root overrides source previous ∧
      RoundInv starlark root overrides source previous [] full unfulfilled ∧
      (∀ n ∈ unfulfilled, n ∉ moduleNames (prune full)) ∧ graph = prune full := by
  induction rounds generalizing previous with
  | zero => cases h
  | succ rounds ih =>
    rw [discoverFrom] at h
    split at h
    · cases h
    · cases h
    · next graph' unfulfilled hround =>
      obtain ⟨full,hr,rfl⟩ := discoverRound_ok hround
      dsimp only at h
      split at h
      · exact ih (hc.next hr).1 h
      · next hno =>
        cases h
        refine ⟨previous,full,unfulfilled,hc,hr,fun n hn hmem => hno ?_,rfl⟩
        rw [List.any_eq_true]
        exact ⟨n,Std.ExtTreeSet.mem_toList.mpr hn,by simpa using hmem⟩

/-- Every name there can be. -/
def allNames (moduleAt : ModuleKey → Except BzlmodError Module) (root : ModuleFile) : Set String :=
  insert root.module.name (ModuleKey.name '' {k | Reached moduleAt k})

theorem Counted.names (hc : Counted starlark root overrides source previous) (n : String)
    (hn : n ∈ previous) : n ∈ allNames (moduleAt starlark root overrides source) root := by
  rcases hc.reached n hn with rfl | ⟨k,m,hk,-,rfl⟩
  · exact Set.mem_insert _ _
  · exact Set.mem_insert_of_mem _ ⟨k,hk,rfl⟩

theorem discoverRound_answers {fuel : ℕ}
    (hfin : {k | Reached (moduleAt starlark root overrides source) k}.Finite)
    (hc : Counted starlark root overrides source previous)
    (hfuel : {k | Reached (moduleAt starlark root overrides source) k}.ncard+2 ≤ fuel) :
    ∃ r, discoverRound starlark root overrides source fuel previous = some r := by
  have hle : missing {k | Reached (moduleAt starlark root overrides source) k}
      ((∅ : DepGraph).insert .root (rootModule root overrides)) ≤
      {k | Reached (moduleAt starlark root overrides source) k}.ncard :=
    Set.ncard_le_ncard Set.sdiff_subset hfin
  obtain ⟨r,hr⟩ := explore_answers hfin (fun k hk => hc.sub hk) fuel start_inv
    (.inl (by omega))
  exact ⟨_,by rw [discoverRound, hr]; rfl⟩

theorem discoverFrom_answers {fuel : ℕ}
    (hfin : {k | Reached (moduleAt starlark root overrides source) k}.Finite)
    (hfuel : {k | Reached (moduleAt starlark root overrides source) k}.ncard+2 ≤ fuel)
    (rounds : ℕ) (hc : Counted starlark root overrides source previous)
    (hrounds : (allNames (moduleAt starlark root overrides source) root \
      {n | n ∈ previous}).ncard < rounds) :
    ∃ r, discoverFrom starlark root overrides source fuel rounds previous = some r := by
  induction rounds generalizing previous with
  | zero => omega
  | succ rounds ih =>
    obtain ⟨r,hround⟩ := discoverRound_answers hfin hc hfuel
    rw [discoverFrom, hround]
    match r, hround with
    | .error e, _ => exact ⟨_,rfl⟩
    | .ok (graph,unfulfilled), hround =>
      obtain ⟨full,hr,rfl⟩ := discoverRound_ok hround
      obtain ⟨hnext,hgrow⟩ := hc.next hr
      dsimp only
      split
      · next hany =>
        apply ih hnext
        obtain ⟨n,hn,hmem⟩ := List.any_eq_true.mp hany
        have hmem : n ∈ moduleNames (prune full) := by simpa using hmem
        have hpass := hr.passed n (Std.ExtTreeSet.mem_toList.mp hn)
        have hall := hnext.names n hmem
        have hlt : (allNames (moduleAt starlark root overrides source) root \
            {n | n ∈ moduleNames (prune full)}).ncard <
            (allNames (moduleAt starlark root overrides source) root \ {n | n ∈ previous}).ncard := by
          apply Set.ncard_lt_ncard _ ((hfin.image _).insert _).sdiff
          refine ⟨fun x hx => ⟨hx.1,fun hx' => hx.2 (hgrow x hx')⟩,fun hsub => ?_⟩
          exact (hsub ⟨hall,hpass⟩).2 hmem
        omega
      · exact ⟨_,rfl⟩

end Discover

/-- Discovery ends where finitely many keys are reached, and the graph it finds
is the least closed one. -/
theorem discover_least_closed (starlark : Starlark) (root : ModuleFile) (overrides : Overrides)
    (source : ModuleFileSource)
    (hfin : {k | Reached (moduleAt starlark root overrides source) k}.Finite) :
    (∃ N, ∀ fuel, N ≤ fuel → ∃ r, discover starlark root overrides source fuel = some r) ∧
    ∀ fuel graph, discover starlark root overrides source fuel = some (.ok graph) →
      ModuleKey.root ∈ graph ∧
      (∀ k, k ∈ graph ↔ Reached (moduleAt starlark root overrides source) k) ∧
      ∀ (k : ModuleKey) (m : Module), graph[k]? = some m →
        (∀ d ∈ m.deps, d.spec.toModuleKey ∈ graph) ∧
        ∃ written, moduleAt starlark root overrides source k = .ok written ∧
          m = { written with nodepDeps := m.nodepDeps } ∧
          ∀ d ∈ written.nodepDeps, (Named graph d.name → d.toModuleKey ∈ graph) ∧
            (d ∈ m.nodepDeps ↔ Named graph d.name) := by
  constructor
  · refine ⟨{k | Reached (moduleAt starlark root overrides source) k}.ncard+
      (allNames (moduleAt starlark root overrides source) root).ncard+2,fun fuel hf => ?_⟩
    refine discoverFrom_answers hfin (by omega) fuel counted_root ?_
    have hle := Set.ncard_le_ncard (Set.sdiff_subset
      (s := allNames (moduleAt starlark root overrides source) root)
      (t := {n | n ∈ (∅ : Names).insert root.module.name})) ((hfin.image _).insert _)
    omega
  · intro fuel graph h
    obtain ⟨previous,full,unfulfilled,hc,hr,hno,rfl⟩ := discoverFrom_ok fuel counted_root h
    have hmem := hr.mem_iff_reached hc hno
    refine ⟨mem_prune.mpr hr.root_mem,fun k => mem_prune.trans (hmem k),fun k m hm => ?_⟩
    obtain ⟨written,hw,rfl⟩ := prune_getElem?.mp hm
    refine ⟨fun d hd => mem_prune.mpr (hr.dep k written hw (by simp) d hd),written,
      hr.modules k written hw,rfl,fun d hd => ?_⟩
    have hnamed : Named (prune full) d.name → d.toModuleKey ∈ full := by
      rintro ⟨other,m',hm',hname⟩
      obtain ⟨m0,hm0,rfl⟩ := prune_getElem?.mp hm'
      exact hr.nodep_named hno hw hd ⟨other,m0,hm0,hname⟩
    refine ⟨fun hn => mem_prune.mpr (hnamed hn),fun hk => ?_,fun hn => ?_⟩
    · have hin : d.toModuleKey ∈ full := by simpa using (List.mem_filter.mp hk).2
      obtain ⟨m',hm'⟩ := getElem?_of_mem (mem_prune.mpr hin)
      exact ⟨d.toModuleKey,m',hm',.inl rfl⟩
    · exact List.mem_filter.mpr ⟨hd,by simpa using hnamed hn⟩

/-- A root module with a dependency that is there, and a nodep edge to a module
that is not. -/
def appVersion : Version :=
  ⟨[.numeric 1 "1",.numeric 0 "0"],[],"1.0",.inr ⟨"1.0".toList,[],by decide,by decide,by decide⟩⟩

def appRoot : ModuleFile where
  module := ⟨.root,"app",.empty,"app",[⟨"lib","lib",appVersion⟩,⟨"bazel_tools","bazel_tools",.empty⟩],
    [⟨"absent",appVersion⟩],none,[]⟩
  overrides := []
  named := by decide
  own := by decide

def appSource : ModuleFileSource where
  moduleFile key _ :=
    if key.name = "bazel_tools" then .ok ("module(name = 'bazel_tools')",none)
    else if key = ⟨"lib",appVersion⟩ then
      .ok ("module(name = 'lib', version = '1.0')",some "https://bcr.bazel.build/")
    else .error (.moduleNotFound key.toString "")
  isolatedExtensionUsages := false

def appStarlark : Starlark := fun _ _ text =>
  if text = "module(name = 'bazel_tools')" then .ok [.module "bazel_tools" "" "" "MODULE.bazel:1:7"]
  else if text = "module(name = 'lib', version = '1.0')" then
    .ok [.module "lib" "1.0" "" "MODULE.bazel:1:7"]
  else .ok []

theorem app_reached_finite :
    {k | Reached (moduleAt appStarlark appRoot ∅ appSource) k}.Finite := by
  apply (List.finite_toSet [.root,⟨"lib",appVersion⟩,⟨"bazel_tools",.empty⟩]).subset
  intro k hk
  have hat : ∀ k ∈ [ModuleKey.root,⟨"lib",appVersion⟩,⟨"bazel_tools",.empty⟩], ∀ m,
      moduleAt appStarlark appRoot ∅ appSource k = .ok m →
      (∀ d ∈ m.deps, d.spec.toModuleKey ∈ [ModuleKey.root,⟨"lib",appVersion⟩,
        ⟨"bazel_tools",.empty⟩]) ∧ ∀ d ∈ m.nodepDeps, d.name = "absent" := by
    intro k hk m hm
    simp only [List.mem_cons, List.not_mem_nil, or_false] at hk
    rcases hk with rfl | rfl | rfl
    · cases hm
      decide
    · cases hm
      decide
    · cases hm
      decide
  induction hk with
  | root => simp
  | dep _ hm hd ih => exact (hat _ ih _ hm).1 _ hd
  | nodep _ hm hd _ hm' hname ih ih' =>
    have habs : ∀ k ∈ [ModuleKey.root,⟨"lib",appVersion⟩,⟨"bazel_tools",.empty⟩],
        k.name ≠ "absent" := by decide
    exact absurd (hname.trans ((hat _ ih _ hm).2 _ hd)) (habs _ ih')

theorem discover_least_closed_app :
    (discover appStarlark appRoot ∅ appSource 3).map (fun r => r.map fun graph =>
      graph.toList.map fun p => p.1.toString) = some (.ok ["<root>","bazel_tools@_","lib@1.0"]) ∧
    ∃ N, ∀ fuel, N ≤ fuel → ∃ r, discover appStarlark appRoot ∅ appSource fuel = some r :=
  ⟨by decide,(discover_least_closed appStarlark appRoot ∅ appSource app_reached_finite).1⟩

end BuildFiji.Bzlmod
