import BuildFiji.Bzlmod.DiscoveryClosed
import BuildFiji.Bzlmod.SelectionGroups
import BuildFiji.Lib.Worklist

/-!
# What the walks keep

A walk ends with what is reached from the root along the rewritten edges. Of a
discovered graph, every edge stays in the graph and every name that is not
under a `multiple_version_override` is reached at its highest version, so a
walk fails only at a module that is above what is allowed or that depends twice
on one module. Without the nodep edges it reaches no more than with them.
-/

set_option autoImplicit false
set_option linter.all false

namespace BuildFiji.Bzlmod

open Relation Worklist

/-- What selection relies on. -/
structure Discovered (graph : DepGraph) : Prop where
  root_mem : ModuleKey.root ∈ graph
  closed : ∀ (k : ModuleKey) (m : Module), graph[k]? = some m → ∀ d ∈ m.edges, d.toModuleKey ∈ graph
  names : ∀ (k : ModuleKey) (m : Module) (k' : ModuleKey) (m' : Module), graph[k]? = some m →
    graph[k']? = some m' → m.name = m'.name → k.name = k'.name

section Discovered
variable {starlark : Starlark} {root : ModuleFile} {overrides : Overrides}
  {source : ModuleFileSource}

theorem ReachedBy.name_ne {counts : String → Prop} {k : ModuleKey}
    (h : ReachedBy (moduleAt starlark root overrides source) counts k) (hk : k ≠ .root) :
    k.name ≠ root.module.name := by
  cases h with
  | root => exact absurd rfl hk
  | dep _ hm hd =>
    exact ((moduleAt_edge hm (List.mem_append_left _ (List.mem_map_of_mem hd))).resolve_left hk).2
  | nodep _ hm hd => exact ((moduleAt_edge hm (List.mem_append_right _ hd)).resolve_left hk).2

theorem discover_discovered {fuel : ℕ} {graph : DepGraph}
    (h : discover starlark root overrides source fuel = some (.ok graph)) : Discovered graph := by
  obtain ⟨previous,full,unfulfilled,-,hr,-,rfl⟩ := discoverFrom_ok fuel counted_root h
  refine ⟨mem_prune.mpr hr.root_mem,fun k m hm d hd => ?_,fun k m k' m' hm hm' hname => ?_⟩
  · obtain ⟨m0,hm0,rfl⟩ := prune_getElem?.mp hm
    rcases List.mem_append.mp hd with hd | hd
    · obtain ⟨d',hd',rfl⟩ := List.mem_map.mp hd
      exact mem_prune.mpr (hr.dep k m0 hm0 (by simp) d' hd')
    · exact mem_prune.mpr (by simpa using (List.mem_filter.mp hd).2)
  · obtain ⟨m0,hm0,rfl⟩ := prune_getElem?.mp hm
    obtain ⟨m1,hm1,rfl⟩ := prune_getElem?.mp hm'
    have hk := moduleAt_name (hr.modules k m0 hm0)
    have hk' := moduleAt_name (hr.modules k' m1 hm1)
    have hne : ∀ k ∈ full, k ≠ .root → k.name ≠ root.module.name :=
      fun k hk => (hr.reached k hk).name_ne
    split at hk
    · next hroot =>
      split at hk'
      · next hroot' => rw [hroot, hroot']
      · next hroot' =>
        exact absurd (hk'.symm.trans (hname.symm.trans hk)) (hne k' (mem_of_getElem? hm1) hroot')
    · next hroot =>
      split at hk'
      · exact absurd (hk.symm.trans (hname.trans hk')) (hne k (mem_of_getElem? hm0) hroot)
      · exact hk.symm.trans (hname.trans hk')

end Discovered

/-- The name is under a `multiple_version_override`. -/
def Overridden (overrides : Overrides) (name : String) : Prop :=
  ∃ mvo, overrides[name]? = some (.multipleVersion mvo)

theorem allowedVersions_of_not_overridden {overrides : Overrides} {name : String}
    (h : ¬Overridden overrides name) : allowedVersions overrides name = [] := by
  unfold allowedVersions
  cases ho : overrides[name]? with
  | none => rfl
  | some o =>
    cases o with
    | multipleVersion mvo => exact absurd ⟨mvo,ho⟩ h
    | singleVersion o => rfl
    | nonRegistry o => rfl

section Visit
variable {overrides : Overrides} {groups : SelectionGroups} {byName : ModuleByName}
  {key : ModuleKey} {module : Module} {dependent : Option ModuleKey}

/-- A module that a walk does not stop at. -/
structure Passes (overrides : Overrides) (groups : SelectionGroups) (key : ModuleKey)
    (module : Module) : Prop where
  allowed : Overridden overrides key.name → ∀ g, groups[key]? = some g →
    g.targetAllowedVersion ≠ .empty
  once : checkTwice key module.deps ∅ = .ok ()

/-- The errors a walk over a discovered graph may end with. -/
inductive WalkError : SelectionError → Prop where
  | notAllowed {dependent : Option ModuleKey} {key : ModuleKey} {allowed : List Version} :
      WalkError (.notAllowed dependent key allowed)
  | dependsTwice {key dep : ModuleKey} {repoName previous : String} :
      WalkError (.dependsTwice key dep repoName previous)

theorem checkTwice_error (deps : List Dep) {seen : Std.ExtTreeMap ModuleKey String}
    {e : SelectionError} (h : checkTwice key deps seen = .error e) : WalkError e := by
  induction deps generalizing seen with
  | nil => cases h
  | cons d deps ih =>
    rw [checkTwice] at h
    split at h
    · cases h
      exact .dependsTwice
    · exact ih h

theorem any_isEmpty {g : Option SelectionGroup} :
    (g.any fun group => group.targetAllowedVersion.isEmpty) = true ↔
      ∃ group, g = some group ∧ group.targetAllowedVersion = .empty := by
  rw [Option.any_eq_true]
  simp only [Version.isEmpty_iff]

/-- What a visit that passes leaves, and what one that does not has met. -/
theorem visit_ok {byName' : ModuleByName}
    (h : visit overrides groups byName key module dependent = .ok byName') :
    Passes overrides groups key module ∧ (Overridden overrides key.name ∧ byName' = byName ∨
      ¬Overridden overrides key.name ∧ byName' = byName.insert module.name (key,dependent)) := by
  unfold visit at h
  split at h
  · next mvo ho =>
    split at h
    · cases h
    · next hany =>
      simp only [Fallible.bind_ok, Fallible.pure_ok] at h
      obtain ⟨_,rfl,⟨⟩,hc,rfl⟩ := h
      refine ⟨⟨fun _ g hg he => hany ?_,hc⟩,.inl ⟨⟨mvo,ho⟩,rfl⟩⟩
      exact any_isEmpty.mpr ⟨g,hg,he⟩
  · next ho =>
    have hno : ¬Overridden overrides key.name := fun ⟨mvo,hm⟩ => ho mvo hm
    split at h
    · split at h
      · cases h
      · simp only [Fallible.bind_ok, Fallible.pure_ok] at h
        obtain ⟨_,rfl,⟨⟩,hc,rfl⟩ := h
        exact ⟨⟨fun hov => absurd hov hno,hc⟩,.inr ⟨hno,rfl⟩⟩
    · simp only [Fallible.bind_ok, Fallible.pure_ok] at h
      obtain ⟨_,rfl,⟨⟩,hc,rfl⟩ := h
      exact ⟨⟨fun hov => absurd hov hno,hc⟩,.inr ⟨hno,rfl⟩⟩

theorem twice_error {byName' : ModuleByName} {e : SelectionError}
    (h : (do
      let byName ← pure byName'
      checkTwice key module.deps ∅
      pure byName : Except SelectionError ModuleByName) = .error e) :
    WalkError e ∧ ¬Passes overrides groups key module := by
  simp only [pure_bind, Fallible.bind_error, Fallible.pure_ne_error, and_false, exists_false,
    or_false] at h
  refine ⟨checkTwice_error _ h,fun hp => ?_⟩
  rw [hp.once] at h
  cases h

theorem visit_error {e : SelectionError}
    (h : visit overrides groups byName key module dependent = .error e) :
    WalkError e ∧ ¬Passes overrides groups key module ∨ ¬Overridden overrides key.name ∧
      ∃ existing from', byName[module.name]? = some (existing,from') ∧ existing ≠ key := by
  unfold visit at h
  split at h
  · next mvo ho =>
    split at h
    · next hany =>
      cases h
      obtain ⟨g,hg,he⟩ := any_isEmpty.mp hany
      exact .inl ⟨.notAllowed,fun hp => hp.allowed ⟨mvo,ho⟩ g hg he⟩
    · exact .inl (twice_error h)
  · next ho =>
    have hno : ¬Overridden overrides key.name := fun ⟨mvo,hm⟩ => ho mvo hm
    split at h
    · next existing dependent' hb =>
      split at h
      · next hne => exact .inr ⟨hno,existing,dependent',hb,hne⟩
      · exact .inl (twice_error h)
    · exact .inl (twice_error h)

end Visit

section Enqueue

/-- What putting the ends of some edges in line adds. -/
structure Enqueued (key : ModuleKey) (edges : List DepSpec) (w w' : WalkState)
    (new : List ModuleKey) : Prop where
  toVisit : w'.toVisit = w.toVisit ++ new.map fun k => (k,some key)
  result : w'.result = w.result
  byName : w'.moduleByName = w.moduleByName
  known : ∀ k, k ∈ w'.known ↔ k ∈ w.known ∨ k ∈ new
  nodup : new.Nodup
  new_edge : ∀ k ∈ new, k ∉ w.known ∧ ∃ d ∈ edges, d.toModuleKey = k
  edge : ∀ d ∈ edges, d.toModuleKey ∈ w'.known

theorem enqueue_known (key : ModuleKey) (w : WalkState) (d : DepSpec)
    (hd : d.toModuleKey ∉ w.known) (k : ModuleKey) :
    k ∈ (enqueue key w d).known ↔ k ∈ w.known ∨ k = d.toModuleKey := by
  rw [enqueue, if_neg hd]
  rw [Std.ExtTreeSet.mem_insert, Std.LawfulEqOrd.compare_eq_iff_eq, or_comm, eq_comm]

theorem foldl_enqueued (key : ModuleKey) (edges : List DepSpec) (w : WalkState) :
    ∃ new, Enqueued key edges w (edges.foldl (enqueue key) w) new := by
  induction edges generalizing w with
  | nil => exact ⟨[],by simp,rfl,rfl,by simp,by simp,by simp,by simp⟩
  | cons d edges ih =>
    obtain ⟨new,h⟩ := ih (enqueue key w d)
    by_cases hd : d.toModuleKey ∈ w.known
    · have hw : enqueue key w d = w := if_pos hd
      rw [hw] at h
      rw [List.foldl_cons, hw]
      refine ⟨new,h.toVisit,h.result,h.byName,h.known,h.nodup,fun k hk => ?_,fun d' hd' => ?_⟩
      · obtain ⟨hk,d',hd',rfl⟩ := h.new_edge k hk
        exact ⟨hk,d',List.mem_cons_of_mem _ hd',rfl⟩
      · rcases List.mem_cons.mp hd' with rfl | hd'
        · exact (h.known _).mpr (.inl hd)
        · exact h.edge d' hd'
    · have hkn := enqueue_known key w d hd
      have hw : enqueue key w d = { w with
          known := w.known.insert d.toModuleKey
          toVisit := w.toVisit ++ [(d.toModuleKey,some key)] } := if_neg hd
      refine ⟨d.toModuleKey::new,?_,?_,?_,fun k => ?_,?_,fun k hk => ?_,fun d' hd' => ?_⟩
      · rw [List.foldl_cons, h.toVisit, hw]
        simp
      · rw [List.foldl_cons, h.result, hw]
      · rw [List.foldl_cons, h.byName, hw]
      · rw [List.foldl_cons, h.known, hkn, List.mem_cons, or_assoc]
      · refine List.nodup_cons.mpr ⟨fun hmem => (h.new_edge _ hmem).1 ?_,h.nodup⟩
        exact (hkn _).mpr (.inr rfl)
      · rcases List.mem_cons.mp hk with rfl | hk
        · exact ⟨hd,d,List.mem_cons_self,rfl⟩
        · obtain ⟨hk,d',hd',rfl⟩ := h.new_edge k hk
          exact ⟨fun hmem => hk ((hkn _).mpr (.inl hmem)),d',List.mem_cons_of_mem _ hd',rfl⟩
      · rcases List.mem_cons.mp hd' with rfl | hd'
        · exact (h.known _).mpr (.inl ((hkn _).mpr (.inr rfl)))
        · exact h.edge d' hd'

end Enqueue

section Walk
variable {depGraph : DepGraph} {overrides : Overrides} {groups : SelectionGroups}
  {resolve : DepSpec → DepSpec} {ignoreNodeps : Bool}

/-- An edge of the rewritten graph that a walk follows. -/
def WalkEdge (depGraph : DepGraph) (resolve : DepSpec → DepSpec) (ignoreNodeps : Bool)
    (a b : ModuleKey) : Prop :=
  ∃ m : Module, depGraph[a]? = some m ∧
    ∃ d ∈ walkEdges (m.withDepsTransformed resolve) ignoreNodeps, d.toModuleKey = b

structure WalkInv (depGraph : DepGraph) (overrides : Overrides) (groups : SelectionGroups)
    (resolve : DepSpec → DepSpec) (ignoreNodeps : Bool) (w : WalkState) : Prop where
  walked : Walked (WalkEdge depGraph resolve ignoreNodeps) .root (w.result.map Prod.fst)
    (w.toVisit.map Prod.fst)
  known : ∀ k, k ∈ w.known ↔ k ∈ w.result.map Prod.fst ++ w.toVisit.map Prod.fst
  modules : ∀ p ∈ w.result, ∃ m : Module, depGraph[p.1]? = some m ∧
    p.2 = m.withDepsTransformed resolve
  passes : ∀ p ∈ w.result, Passes overrides groups p.1 p.2
  byName : ∀ n k dependent, w.moduleByName[n]? = some (k,dependent) →
    ¬Overridden overrides k.name ∧ ∃ m, (k,m) ∈ w.result ∧ m.name = n

theorem walkStart_inv :
    WalkInv depGraph overrides groups resolve ignoreNodeps walkStart := by
  refine ⟨Walked.initial,fun k => ?_,by simp [walkStart],by simp [walkStart],by simp [walkStart]⟩
  simp only [walkStart, Std.ExtTreeSet.mem_insert, Std.LawfulEqOrd.compare_eq_iff_eq]
  simp [eq_comm]

/-- The state after one module. -/
def walkNext (resolve : DepSpec → DepSpec) (ignoreNodeps : Bool) (w : WalkState) (key : ModuleKey)
    (module : Module) (byName : ModuleByName) (rest : List (ModuleKey × Option ModuleKey)) :
    WalkState :=
  let module := module.withDepsTransformed resolve
  let w := (walkEdges module ignoreNodeps).foldl (enqueue key)
    { w with moduleByName := byName, toVisit := rest }
  { w with result := w.result ++ [(key,module)] }

theorem WalkInv.next {w : WalkState} {key : ModuleKey} {dependent : Option ModuleKey}
    {rest : List (ModuleKey × Option ModuleKey)} {module : Module} {byName : ModuleByName}
    (h : WalkInv depGraph overrides groups resolve ignoreNodeps w)
    (hv : w.toVisit = (key,dependent)::rest) (hm : depGraph[key]? = some module)
    (hvisit : visit overrides groups w.moduleByName key (module.withDepsTransformed resolve)
      dependent = .ok byName) :
    WalkInv depGraph overrides groups resolve ignoreNodeps
      (walkNext resolve ignoreNodeps w key module byName rest) := by
  obtain ⟨hpass,hname⟩ := visit_ok hvisit
  obtain ⟨new,he⟩ := foldl_enqueued key (walkEdges (module.withDepsTransformed resolve)
    ignoreNodeps) { w with moduleByName := byName, toVisit := rest }
  have hwalked := h.walked
  have hknown := h.known
  rw [hv, List.map_cons] at hwalked hknown
  have hresult : (walkNext resolve ignoreNodeps w key module byName rest).result =
      w.result ++ [(key,module.withDepsTransformed resolve)] := by
    rw [walkNext, he.result]
  have htoVisit : (walkNext resolve ignoreNodeps w key module byName rest).toVisit.map Prod.fst =
      rest.map Prod.fst ++ new := by
    simp [walkNext, he.toVisit, Function.comp_def]
  refine ⟨?_,fun k => ?_,fun p hp => ?_,fun p hp => ?_,fun n k from' hn => ?_⟩
  · rw [hresult, htoVisit, List.map_append]
    refine hwalked.step he.nodup (fun k hk => ?_) (fun k hk => ?_)
    · obtain ⟨hk,d,hd,rfl⟩ := he.new_edge k hk
      exact ⟨fun hmem => hk ((hknown _).mpr hmem),module,hm,d,hd,rfl⟩
    · obtain ⟨m,hm',d,hd,rfl⟩ := hk
      cases hm.symm.trans hm'
      rcases (he.known _).mp (he.edge d hd) with hk | hk
      · exact .inl ((hknown _).mp hk)
      · exact .inr hk
  · rw [hresult, htoVisit]
    refine (he.known k).trans ?_
    rw [hknown]
    simp only [List.map_append, List.mem_append, List.mem_cons, List.map_cons, List.map_nil,
      List.not_mem_nil, or_false]
    grind
  · rw [hresult] at hp
    rcases List.mem_append.mp hp with hp | hp
    · exact h.modules p hp
    · rw [List.mem_singleton.mp hp]
      exact ⟨module,hm,rfl⟩
  · rw [hresult] at hp
    rcases List.mem_append.mp hp with hp | hp
    · exact h.passes p hp
    · rw [List.mem_singleton.mp hp]
      exact hpass
  · have hn : byName[n]? = some (k,from') := by rwa [walkNext, he.byName] at hn
    rw [hresult]
    rcases hname with ⟨-,rfl⟩ | ⟨hno,rfl⟩
    · obtain ⟨hk,m,hmem,hmn⟩ := h.byName n k from' hn
      exact ⟨hk,m,List.mem_append_left _ hmem,hmn⟩
    · rw [Std.ExtTreeMap.getElem?_insert] at hn
      split at hn
      · next heq =>
        cases hn
        exact ⟨hno,_,List.mem_append_right _ (List.mem_singleton.mpr rfl),
          Std.LawfulEqOrd.eq_of_compare heq⟩
      · obtain ⟨hk,m,hmem,hmn⟩ := h.byName n k from' hn
        exact ⟨hk,m,List.mem_append_left _ hmem,hmn⟩

/-- The edges of the graph are rewritten within it, and to the highest version
where nothing else is asked for. -/
structure Rewrites (depGraph : DepGraph) (overrides : Overrides) (resolve : DepSpec → DepSpec) :
    Prop where
  mem : ∀ d : DepSpec, d.toModuleKey ∈ depGraph → (resolve d).toModuleKey ∈ depGraph
  highest : ∀ d : DepSpec, d.toModuleKey ∈ depGraph → ¬Overridden overrides (resolve d).name →
    IsGreatest {v | ⟨(resolve d).name,v⟩ ∈ depGraph} (resolve d).version

theorem walkEdges_mem {m : Module} {d : DepSpec}
    (hd : d ∈ walkEdges (m.withDepsTransformed resolve) ignoreNodeps) :
    ∃ d' ∈ m.edges, d = resolve d' := by
  have hd : d ∈ (m.withDepsTransformed resolve).edges := by
    unfold walkEdges at hd
    split at hd
    · exact List.mem_append_left _ (by simpa using hd)
    · exact hd
  rw [Module.withDepsTransformed_edges] at hd
  obtain ⟨d',hd',rfl⟩ := List.mem_map.mp hd
  exact ⟨d',hd',rfl⟩

section Reached
variable (hg : Discovered depGraph) (hr : Rewrites depGraph overrides resolve)
include hg hr

theorem walk_reached {k : ModuleKey}
    (h : ReflTransGen (WalkEdge depGraph resolve ignoreNodeps) .root k) :
    k ∈ depGraph ∧ (¬Overridden overrides k.name →
      IsGreatest {v | ⟨k.name,v⟩ ∈ depGraph} k.version) := by
  cases h with
  | refl => exact ⟨hg.root_mem,fun _ => ⟨hg.root_mem,fun v _ => Version.le_empty v⟩⟩
  | tail _ he =>
    obtain ⟨m,hm,d,hd,rfl⟩ := he
    obtain ⟨d',hd',rfl⟩ := walkEdges_mem hd
    have hin := hg.closed _ m hm d' hd'
    exact ⟨hr.mem d' hin,hr.highest d' hin⟩

/-- Where nothing else is asked for, what is reached goes by its name. -/
theorem walk_reached_unique {k k' : ModuleKey} {m m' : Module}
    (h : ReflTransGen (WalkEdge depGraph resolve ignoreNodeps) .root k)
    (h' : ReflTransGen (WalkEdge depGraph resolve ignoreNodeps) .root k')
    (hm : depGraph[k]? = some m) (hm' : depGraph[k']? = some m') (hname : m.name = m'.name)
    (hno : ¬Overridden overrides k.name) : k = k' := by
  have heq := hg.names k m k' m' hm hm' hname
  have h1 := (walk_reached hg hr h).2 hno
  have h2 := (walk_reached hg hr h').2 (heq ▸ hno)
  rw [← heq] at h2
  have hv := h1.unique h2
  obtain ⟨name,version⟩ := k
  obtain ⟨name',version'⟩ := k'
  cases heq
  cases hv
  rfl

end Reached

/-- What may come of a walk. -/
def WalkOutcome (depGraph : DepGraph) (overrides : Overrides) (groups : SelectionGroups)
    (resolve : DepSpec → DepSpec) (ignoreNodeps : Bool) (fuel : ℕ) (w : WalkState) :
    Option (Except SelectionError (List (ModuleKey × Module))) → Prop
  | none => fuel+w.result.length ≤ depGraph.size
  | some (.ok result) => ∃ w', WalkInv depGraph overrides groups resolve ignoreNodeps w' ∧
      w'.toVisit = [] ∧ w'.result = result
  | some (.error e) => WalkError e ∧ ∃ k m,
      ReflTransGen (WalkEdge depGraph resolve ignoreNodeps) .root k ∧ depGraph[k]? = some m ∧
      ¬Passes overrides groups k (m.withDepsTransformed resolve)

theorem WalkOutcome.step {fuel : ℕ} {w w' : WalkState}
    {r : Option (Except SelectionError (List (ModuleKey × Module)))}
    (h : WalkOutcome depGraph overrides groups resolve ignoreNodeps fuel w' r)
    (hlen : w'.result.length = w.result.length+1) :
    WalkOutcome depGraph overrides groups resolve ignoreNodeps (fuel+1) w r := by
  match r, h with
  | none, h =>
    have h : fuel+w'.result.length ≤ depGraph.size := h
    change fuel+1+w.result.length ≤ depGraph.size
    omega
  | some (.ok _), h => exact h
  | some (.error _), h => exact h

theorem walkFrom_outcome (hg : Discovered depGraph) (hr : Rewrites depGraph overrides resolve)
    (fuel : ℕ) {w : WalkState} (h : WalkInv depGraph overrides groups resolve ignoreNodeps w) :
    WalkOutcome depGraph overrides groups resolve ignoreNodeps fuel w
      (walkFrom depGraph overrides groups resolve ignoreNodeps fuel w) := by
  induction fuel generalizing w with
  | zero =>
    have hle := h.walked.length_le fun k hk =>
      Std.ExtTreeMap.mem_keys.mpr (walk_reached hg hr hk).1
    rw [Std.ExtTreeMap.length_keys, List.length_map] at hle
    change 0+w.result.length ≤ depGraph.size
    omega
  | succ fuel ih =>
    rw [walkFrom]
    split
    · next hnil => exact ⟨w,h,hnil,rfl⟩
    · next key dependent rest hv =>
      have hreach := h.walked.reached key (by simp [hv])
      split
      · next hnone =>
        obtain ⟨m,hm⟩ := getElem?_of_mem (walk_reached hg hr hreach).1
        cases hnone.symm.trans hm
      · next module hm =>
        dsimp only
        split
        · next e he =>
          rcases visit_error he with ⟨hwe,hnp⟩ | ⟨hno,existing,from',hb,hne⟩
          · exact ⟨hwe,key,module,hreach,hm,hnp⟩
          · obtain ⟨hno',m,hmem,hname⟩ := h.byName _ _ _ hb
            obtain ⟨m0,hm0,rfl⟩ := h.modules _ hmem
            have hreach' := h.walked.reached existing
              (List.mem_append_left _ (List.mem_map_of_mem hmem))
            exact absurd (walk_reached_unique hg hr hreach' hreach hm0 hm hname hno') hne
        · next byName hvisit =>
          apply (ih (h.next hv hm hvisit)).step
          obtain ⟨new,he⟩ := foldl_enqueued key (walkEdges (module.withDepsTransformed resolve)
            ignoreNodeps) { w with moduleByName := byName, toVisit := rest }
          rw [walkNext, he.result, List.length_append]
          rfl

variable {fuel : ℕ}

theorem walk_answers (hg : Discovered depGraph) (hr : Rewrites depGraph overrides resolve)
    (hfuel : depGraph.size+1 ≤ fuel) :
    ∃ r, walk depGraph overrides groups resolve ignoreNodeps fuel = some r := by
  have h := @walkFrom_outcome _ _ groups _ ignoreNodeps hg hr fuel _ walkStart_inv
  cases hw : walkFrom depGraph overrides groups resolve ignoreNodeps fuel walkStart with
  | some r => exact ⟨r,hw⟩
  | none =>
    rw [hw] at h
    have h : fuel+0 ≤ depGraph.size := h
    omega

theorem walk_error (hg : Discovered depGraph) (hr : Rewrites depGraph overrides resolve)
    {e : SelectionError}
    (hw : walk depGraph overrides groups resolve ignoreNodeps fuel = some (.error e)) :
    WalkError e ∧ ∃ k m, ReflTransGen (WalkEdge depGraph resolve ignoreNodeps) .root k ∧
      depGraph[k]? = some m ∧ ¬Passes overrides groups k (m.withDepsTransformed resolve) := by
  have h := @walkFrom_outcome _ _ groups _ ignoreNodeps hg hr fuel _ walkStart_inv
  rw [walk] at hw
  rwa [hw] at h

theorem walkFrom_ok (fuel : ℕ) {w : WalkState} {result : List (ModuleKey × Module)}
    (h : WalkInv depGraph overrides groups resolve ignoreNodeps w)
    (hw : walkFrom depGraph overrides groups resolve ignoreNodeps fuel w = some (.ok result)) :
    ∃ w', WalkInv depGraph overrides groups resolve ignoreNodeps w' ∧ w'.toVisit = [] ∧
      w'.result = result := by
  induction fuel generalizing w with
  | zero => cases hw
  | succ fuel ih =>
    rw [walkFrom] at hw
    split at hw
    · next hnil =>
      cases hw
      exact ⟨w,h,hnil,rfl⟩
    · next key dependent rest hv =>
      split at hw
      · cases hw
      · next module hm =>
        dsimp only at hw
        split at hw
        · cases hw
        · next byName hvisit => exact ih (h.next hv hm hvisit) hw

/-- What a walk that ends has looked at. -/
structure WalkResult (depGraph : DepGraph) (overrides : Overrides) (groups : SelectionGroups)
    (resolve : DepSpec → DepSpec) (ignoreNodeps : Bool) (result : List (ModuleKey × Module)) :
    Prop where
  nodup : (result.map Prod.fst).Nodup
  mem_iff : ∀ k m, (k,m) ∈ result ↔ ReflTransGen (WalkEdge depGraph resolve ignoreNodeps) .root k ∧
    ∃ m0 : Module, depGraph[k]? = some m0 ∧ m = m0.withDepsTransformed resolve
  passes : ∀ p ∈ result, Passes overrides groups p.1 p.2

theorem walk_result {result : List (ModuleKey × Module)}
    (hw : walk depGraph overrides groups resolve ignoreNodeps fuel = some (.ok result)) :
    WalkResult depGraph overrides groups resolve ignoreNodeps result := by
  obtain ⟨w,hinv,hnil,rfl⟩ := walkFrom_ok fuel walkStart_inv hw
  have hwalked := hinv.walked
  rw [hnil] at hwalked
  refine ⟨by simpa using hwalked.nodup,fun k m => ⟨fun hmem => ?_,?_⟩,hinv.passes⟩
  · exact ⟨(hwalked.mem_iff k).mp (List.mem_map_of_mem hmem),hinv.modules _ hmem⟩
  · rintro ⟨hk,m0,hm0,rfl⟩
    obtain ⟨⟨k,m⟩,hmem,rfl⟩ := List.mem_map.mp ((hwalked.mem_iff k).mpr hk)
    obtain ⟨m1,hm1,rfl⟩ := hinv.modules _ hmem
    cases hm0.symm.trans hm1
    exact hmem

theorem WalkEdge.honour {a b : ModuleKey} (h : WalkEdge depGraph resolve true a b) :
    WalkEdge depGraph resolve false a b := by
  obtain ⟨m,hm,d,hd,rfl⟩ := h
  refine ⟨m,hm,d,?_,rfl⟩
  exact List.mem_append_left _ (by simpa [walkEdges] using hd)

/-- The second walk does not fail once the first has succeeded. -/
theorem second_walk (hg : Discovered depGraph) (hr : Rewrites depGraph overrides resolve)
    (hfuel : depGraph.size+1 ≤ fuel) {first : List (ModuleKey × Module)}
    (hw : walk depGraph overrides groups resolve false fuel = some (.ok first)) :
    ∃ result, walk depGraph overrides groups resolve true fuel = some (.ok result) := by
  obtain ⟨r,hr'⟩ := @walk_answers depGraph overrides groups resolve true fuel hg hr hfuel
  cases r with
  | ok result => exact ⟨result,hr'⟩
  | error e =>
    obtain ⟨-,k,m,hk,hm,hno⟩ := walk_error hg hr hr'
    have hfirst := walk_result hw
    have hmem := (hfirst.mem_iff k _).mpr
      ⟨ReflTransGen.mono (fun _ _ he => WalkEdge.honour he) _ _ hk,m,hm,rfl⟩
    exact absurd (hfirst.passes _ hmem) hno

end Walk

/-- A dependency of the rewritten graph. -/
def Selection.Edge (sel : Selection) (a b : ModuleKey) : Prop :=
  ∃ m, (a,m) ∈ sel.unpruned ∧ ∃ d ∈ m.deps, d.spec.toModuleKey = b

/-- What is resolved is what is reached along the rewritten dependencies; a name
is at its highest version, or its edges at the lowest allowed ones. -/
structure MinimalSelection (graph : DepGraph) (overrides : Overrides) (sel : Selection) : Prop where
  nodup : (sel.resolved.map Prod.fst).Nodup
  reached : ∀ k m, (k,m) ∈ sel.resolved ↔ (k,m) ∈ sel.unpruned ∧ ReflTransGen sel.Edge .root k
  closed : ∀ p ∈ sel.resolved, ∀ d ∈ p.2.deps, d.spec.toModuleKey ∈ sel.resolved.map Prod.fst
  unique : ∀ p ∈ sel.resolved, ∀ q ∈ sel.resolved, ¬Overridden overrides p.1.name →
    p.1.name = q.1.name → p = q
  highest : ∀ p ∈ sel.resolved, ¬Overridden overrides p.1.name →
    IsGreatest {v | ⟨p.1.name,v⟩ ∈ graph} p.1.version
  rewritten : ∃ rewrite : DepSpec → DepSpec, (∀ d, (rewrite d).name = d.name) ∧
    sel.unpruned = graph.toList.map (fun e => (e.1,e.2.withDepsTransformed rewrite)) ∧
    ∀ (k : ModuleKey) (m : Module), graph[k]? = some m → k ∈ sel.resolved.map Prod.fst →
      ∀ d ∈ m.edges, ∀ mvo, overrides[d.name]? = some (.multipleVersion mvo) →
        IsLeast {v | v ∈ mvo.versions ∧ d.version ≤ v} (rewrite d).version

section Run
variable {graph : DepGraph} {overrides : Overrides} {sets : AllowedVersionSets} {fuel : ℕ}

theorem rewrites_of_allowed (h : computeAllowedVersionSets overrides graph = .ok sets) :
    Rewrites graph overrides (resolve (selectedVersions (selectionGroups sets graph))) :=
  ⟨fun _ hd => (resolve_mem h hd).2,fun _ hd hno =>
    resolve_not_overridden h hd (allowedVersions_of_not_overridden hno)⟩

theorem allowVersions_error {name : String} (vs : List Version) {e : SelectionError}
    (h : allowVersions graph name sets vs = .error e) :
    ∃ name v, e = .allowedVersionMissing name v := by
  induction vs generalizing sets with
  | nil => cases h
  | cons v vs ih =>
    rw [allowVersions] at h
    split at h
    · cases h
      exact ⟨name,v,rfl⟩
    · exact ih h

theorem allowOverride_error {entry : String × ModuleOverride} {e : SelectionError}
    (h : allowOverride graph sets entry = .error e) :
    ∃ name v, e = .allowedVersionMissing name v := by
  obtain ⟨name,o⟩ := entry
  cases o with
  | singleVersion o => cases h
  | nonRegistry o => cases h
  | multipleVersion mvo => exact allowVersions_error mvo.versions h

theorem computeAllowedVersionSets_error {e : SelectionError}
    (h : computeAllowedVersionSets overrides graph = .error e) :
    ∃ name v, e = .allowedVersionMissing name v := by
  rw [computeAllowedVersionSets] at h
  generalize overrides.toList = entries, (∅ : AllowedVersionSets) = sets at h
  induction entries generalizing sets with
  | nil => cases h
  | cons entry entries ih =>
    rw [List.foldlM_cons, Fallible.bind_error] at h
    rcases h with h | ⟨sets',-,h⟩
    · exact allowOverride_error h
    · exact ih _ h

theorem run_error (hg : Discovered graph) {e : SelectionError}
    (h : run fuel graph overrides = some (.error e)) :
    WalkError e ∨ ∃ name v, e = .allowedVersionMissing name v := by
  unfold run at h
  split at h
  · next he =>
    cases h
    exact .inr (computeAllowedVersionSets_error he)
  · next sets hs =>
    have hr := rewrites_of_allowed hs
    dsimp only at h
    split at h
    · cases h
    · next he =>
      cases h
      exact .inl (walk_error hg hr he).1
    · split at h
      · cases h
      · next he =>
        cases h
        exact .inl (walk_error hg hr he).1
      · cases h

theorem run_answers (hg : Discovered graph) (hfuel : graph.size+1 ≤ fuel) :
    ∃ r, run fuel graph overrides = some r := by
  unfold run
  split
  · exact ⟨_,rfl⟩
  · next sets hs =>
    have hr := rewrites_of_allowed hs
    obtain ⟨r,hw⟩ := @walk_answers graph overrides (selectionGroups sets graph) _ false fuel hg hr
      hfuel
    obtain ⟨r',hw'⟩ := @walk_answers graph overrides (selectionGroups sets graph) _ true fuel hg hr
      hfuel
    dsimp only
    rw [hw, hw']
    cases r with
    | error e => exact ⟨_,rfl⟩
    | ok first =>
      cases r' with
      | error e => exact ⟨_,rfl⟩
      | ok result => exact ⟨_,rfl⟩

theorem unpruned_mem {f : DepSpec → DepSpec} {k : ModuleKey} {m : Module} :
    (k,m) ∈ graph.toList.map (fun entry => (entry.1,entry.2.withDepsTransformed f)) ↔
      ∃ m0 : Module, graph[k]? = some m0 ∧ m = m0.withDepsTransformed f := by
  rw [List.mem_map]
  constructor
  · rintro ⟨⟨k,m0⟩,hm,heq⟩
    cases heq
    exact ⟨m0,Std.ExtTreeMap.mem_toList_iff_getElem?_eq_some.mp hm,rfl⟩
  · rintro ⟨m0,hm,rfl⟩
    exact ⟨(k,m0),Std.ExtTreeMap.mem_toList_iff_getElem?_eq_some.mpr hm,rfl⟩

theorem unpruned_edge {f : DepSpec → DepSpec} {resolved : List (ModuleKey × Module)} :
    (⟨resolved,graph.toList.map fun entry => (entry.1,entry.2.withDepsTransformed f)⟩ :
      Selection).Edge = WalkEdge graph f true := by
  funext a b
  apply propext
  constructor
  · rintro ⟨m,hm,d,hd,rfl⟩
    obtain ⟨m0,hm0,rfl⟩ := unpruned_mem.mp hm
    exact ⟨m0,hm0,d.spec,List.mem_append_left _ (List.mem_map_of_mem hd),rfl⟩
  · rintro ⟨m0,hm0,_,hd,rfl⟩
    rw [walkEdges, if_pos rfl, List.append_nil] at hd
    obtain ⟨d,hd',rfl⟩ := List.mem_map.mp hd
    exact ⟨_,unpruned_mem.mpr ⟨m0,hm0,rfl⟩,d,hd',rfl⟩

theorem minimal_of_walks (hg : Discovered graph)
    (hs : computeAllowedVersionSets overrides graph = .ok sets)
    {first resolved : List (ModuleKey × Module)}
    (hone : WalkResult graph overrides (selectionGroups sets graph)
      (resolve (selectedVersions (selectionGroups sets graph))) false first)
    (htwo : WalkResult graph overrides (selectionGroups sets graph)
      (resolve (selectedVersions (selectionGroups sets graph))) true resolved) :
    MinimalSelection graph overrides ⟨resolved,graph.toList.map fun entry =>
      (entry.1,entry.2.withDepsTransformed
        (resolve (selectedVersions (selectionGroups sets graph))))⟩ := by
  have hr := rewrites_of_allowed hs
  have hhighest : ∀ p ∈ resolved, ¬Overridden overrides p.1.name →
      IsGreatest {v | ⟨p.1.name,v⟩ ∈ graph} p.1.version := fun p hp =>
    (walk_reached hg hr ((htwo.mem_iff p.1 p.2).mp hp).1).2
  refine ⟨htwo.nodup,fun k m => ?_,fun p hp d hd => ?_,fun p hp q hq hno hname => ?_,hhighest,
    resolve (selectedVersions (selectionGroups sets graph)),fun _ => rfl,rfl,
    fun k m hm hk d hd mvo ho => ?_⟩
  · rw [unpruned_edge, unpruned_mem, htwo.mem_iff, and_comm]
  · obtain ⟨hreach,m0,hm0,hp2⟩ := (htwo.mem_iff p.1 p.2).mp hp
    have hedge : WalkEdge graph _ true p.1 d.spec.toModuleKey :=
      ⟨m0,hm0,d.spec,List.mem_append_left _ (List.mem_map_of_mem (hp2 ▸ hd)),rfl⟩
    obtain ⟨m1,hm1⟩ := getElem?_of_mem (walk_reached hg hr (hreach.tail hedge)).1
    exact List.mem_map_of_mem ((htwo.mem_iff _ _).mpr ⟨hreach.tail hedge,m1,hm1,rfl⟩)
  · obtain ⟨⟨name,version⟩,m⟩ := p
    obtain ⟨⟨name',version'⟩,m'⟩ := q
    obtain rfl : name = name' := hname
    obtain rfl : version = version' :=
      (hhighest (⟨name,version⟩,m) hp hno).unique (hhighest (⟨name,version'⟩,m') hq hno)
    obtain ⟨-,m0,hm0,rfl⟩ := (htwo.mem_iff _ _).mp hp
    obtain ⟨-,m1,hm1,rfl⟩ := (htwo.mem_iff _ _).mp hq
    cases hm0.symm.trans hm1
    rfl
  · obtain ⟨p,hp,rfl⟩ := List.mem_map.mp hk
    have hd' := hg.closed _ m hm d hd
    -- The first walk has been where the edge leads, be it a nodep edge.
    have hreach : ReflTransGen (WalkEdge graph
        (resolve (selectedVersions (selectionGroups sets graph))) false) .root
        (resolve (selectedVersions (selectionGroups sets graph)) d).toModuleKey := by
      apply (ReflTransGen.mono (fun _ _ he => WalkEdge.honour he) _ _
        ((htwo.mem_iff p.1 p.2).mp hp).1).tail
      refine ⟨m,hm,_,?_,rfl⟩
      change _ ∈ Module.edges _
      rw [Module.withDepsTransformed_edges]
      exact List.mem_map_of_mem hd
    obtain ⟨m1,hm1⟩ := getElem?_of_mem (hr.mem d hd')
    have hpass := hone.passes _ ((hone.mem_iff _ _).mpr ⟨hreach,m1,hm1,rfl⟩)
    have hleast := resolve_overridden hs hd' (hpass.allowed ⟨mvo,ho⟩ _
      (selectionGroups_getElem? hm1))
    have hvs : allowedVersions overrides d.name = mvo.versions := by
      rw [allowedVersions, ho]
      rfl
    rwa [hvs] at hleast

theorem run_minimal (hg : Discovered graph) {sel : Selection}
    (h : run fuel graph overrides = some (.ok sel)) : MinimalSelection graph overrides sel := by
  unfold run at h
  split at h
  · cases h
  · next sets hs =>
    dsimp only at h
    split at h
    · cases h
    · cases h
    · next first hfirst =>
      split at h
      · cases h
      · cases h
      · next resolved hresolved =>
        cases h
        exact minimal_of_walks hg hs (walk_result hfirst) (walk_result hresolved)

end Run

/-- Selection ends on every graph that discovery finds, and is minimal where it
succeeds; no walk leaves the graph or meets two versions of one name, and the
second walk succeeds where the first has. -/
theorem run_minimal_versions (starlark : Starlark) (root : ModuleFile) (overrides : Overrides)
    (source : ModuleFileSource) (fuel : ℕ) (graph : DepGraph)
    (h : discover starlark root overrides source fuel = some (.ok graph)) (overrides' : Overrides)
    (fuel' : ℕ) (hfuel : graph.size+1 ≤ fuel') :
    (∃ r, run fuel' graph overrides' = some r) ∧
    (∀ e, run fuel' graph overrides' = some (.error e) → (∀ key, e ≠ .notInGraph key) ∧
      ∀ dependent key existingFrom existing,
        e ≠ .compatibilityLevel dependent key existingFrom existing) ∧
    (∀ sets first, computeAllowedVersionSets overrides' graph = .ok sets →
      walk graph overrides' (selectionGroups sets graph)
        (resolve (selectedVersions (selectionGroups sets graph))) false fuel' = some (.ok first) →
      ∃ result, walk graph overrides' (selectionGroups sets graph)
        (resolve (selectedVersions (selectionGroups sets graph))) true fuel' = some (.ok result)) ∧
    ∀ sel, run fuel' graph overrides' = some (.ok sel) → MinimalSelection graph overrides' sel := by
  have hg := discover_discovered h
  refine ⟨run_answers hg hfuel,fun e he => ?_,fun sets first hs hw => ?_,fun sel => run_minimal hg⟩
  · rcases run_error hg he with hwe | ⟨name,v,rfl⟩
    · cases hwe with
      | notAllowed => simp
      | dependsTwice => simp
    · simp
  · exact second_walk hg (rewrites_of_allowed hs) hfuel hw

/-- `a` at the lower version is all that needs `c`, and `b` asks for the higher. -/
def raisedVersion : Version :=
  ⟨[.numeric 2 "2",.numeric 0 "0"],[],"2.0",.inr ⟨"2.0".toList,[],by decide,by decide,by decide⟩⟩

def raisedRoot : ModuleFile where
  module := ⟨.root,"app",.empty,"app",[⟨"a","a",appVersion⟩,⟨"b","b",appVersion⟩,
    ⟨"bazel_tools","bazel_tools",.empty⟩],[⟨"c",appVersion⟩],none,[]⟩
  overrides := []
  named := by decide
  own := by decide

/-- A few module files, with the calls each makes. -/
def starlarkOf (files : List (String × List Directive)) : Starlark :=
  fun _ _ text => .ok ((files.lookup text).getD [])

def raisedFiles : List (ModuleKey × String × List Directive) :=
  [(⟨"a",appVersion⟩,
    "module(name = 'a', version = '1.0')\nbazel_dep(name = 'c', version = '1.0')",
    [.module "a" "1.0" "" "MODULE.bazel:1:7",.bazelDep "c" "1.0" .default false "MODULE.bazel:2:10"]),
   (⟨"b",appVersion⟩,
    "module(name = 'b', version = '1.0')\nbazel_dep(name = 'a', version = '2.0')",
    [.module "b" "1.0" "" "MODULE.bazel:1:7",.bazelDep "a" "2.0" .default false "MODULE.bazel:2:10"]),
   (⟨"a",raisedVersion⟩,"module(name = 'a', version = '2.0')",
    [.module "a" "2.0" "" "MODULE.bazel:1:7"]),
   (⟨"c",appVersion⟩,"module(name = 'c', version = '1.0')",
    [.module "c" "1.0" "" "MODULE.bazel:1:7"]),
   (⟨"bazel_tools",.empty⟩,"module(name = 'bazel_tools')",
    [.module "bazel_tools" "" "" "MODULE.bazel:1:7"])]

def raisedSource : ModuleFileSource where
  moduleFile key _ :=
    match raisedFiles.lookup key with
    | some (text,_) => .ok (text,none)
    | none => .error (.moduleNotFound key.toString "")
  isolatedExtensionUsages := false

def raisedStarlark : Starlark := starlarkOf (raisedFiles.map Prod.snd)

theorem run_minimal_versions_raised :
    ∃ graph sel, discover raisedStarlark raisedRoot ∅ raisedSource 6 = some (.ok graph) ∧
      graph.size+1 ≤ 7 ∧ run 7 graph ∅ = some (.ok sel) ∧ MinimalSelection graph ∅ sel := by
  have hfound : ((discover raisedStarlark raisedRoot ∅ raisedSource 6).bind Except.toOption).any
      (fun graph => decide (graph.size+1 ≤ 7) && ((run 7 graph ∅).bind Except.toOption).any
        fun _ => true) = true := by decide
  obtain ⟨graph,hd,hg⟩ := Fallible.any_ok hfound
  obtain ⟨hsize,hrun⟩ := Bool.and_eq_true_iff.mp hg
  obtain ⟨sel,hs,-⟩ := Fallible.any_ok hrun
  have hsize := of_decide_eq_true hsize
  exact ⟨graph,sel,hd,hsize,hs,(run_minimal_versions raisedStarlark raisedRoot ∅ raisedSource 6 graph
    hd ∅ 7 hsize).2.2.2 sel hs⟩

/-- The nodep edge of the root to `c`, which is no longer needed. -/
theorem nodep_edge_leaves_resolved :
    ∃ graph sel, discover raisedStarlark raisedRoot ∅ raisedSource 6 = some (.ok graph) ∧
      run 7 graph ∅ = some (.ok sel) ∧
      ∃ p ∈ sel.resolved, ∃ d ∈ p.2.edges, d.toModuleKey ∉ sel.resolved.map Prod.fst := by
  have hfound : ((discover raisedStarlark raisedRoot ∅ raisedSource 6).bind Except.toOption).any
      (fun graph => ((run 7 graph ∅).bind Except.toOption).any fun sel => decide
        (∃ p ∈ sel.resolved, ∃ d ∈ p.2.edges, d.toModuleKey ∉ sel.resolved.map Prod.fst)) = true := by
    decide
  obtain ⟨graph,hd,hg⟩ := Fallible.any_ok hfound
  obtain ⟨sel,hs,hleaves⟩ := Fallible.any_ok hg
  exact ⟨graph,sel,hd,hs,of_decide_eq_true hleaves⟩

end BuildFiji.Bzlmod
