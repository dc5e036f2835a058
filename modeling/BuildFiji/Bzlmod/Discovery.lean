import BuildFiji.Bzlmod.ModuleFile

/-!
# Discovery

Reading module files outward from the root until the whole graph is known. A
nodep edge is taken up only if a module of its name is in the graph anyway, as
of the round before, so discovery goes in rounds and ends with the first that
makes no edge it has passed over count.
-/

set_option autoImplicit false
set_option linter.all false

namespace BuildFiji.Bzlmod

/-- Where module files come from: the text and the registry it was read from. -/
structure ModuleFileSource where
  moduleFile : ModuleKey → Option ModuleOverride → Except BzlmodError (String × Option String)
  isolatedExtensionUsages : Bool

/-- The calls a module file makes when it is evaluated. -/
abbrev Starlark :=
  EvalOptions → Option ModuleOverride → String → Except BzlmodError (List Directive)

abbrev Names := Std.ExtTreeSet String

def applyOverrides (dep : DepSpec) (rootModuleName : String) (overrides : Overrides) : DepSpec :=
  if rootModuleName ≠ "" ∧ dep.name = rootModuleName then ⟨"",.empty⟩
  else
    match overrides[dep.name]? with
    | some (.nonRegistry _) => dep.withVersion .empty
    | some (.singleVersion svo) =>
      if svo.version.isEmpty then dep else dep.withVersion svo.version
    | _ => dep

section Round
variable (starlark : Starlark) (root : ModuleFile) (overrides : Overrides)
  (source : ModuleFileSource)

def dependencyEvalOptions (key : ModuleKey) : EvalOptions :=
  { EvalOptions.dependency key with isolatedExtensionUsages := source.isolatedExtensionUsages }

def readModule (key : ModuleKey) : Except BzlmodError Module := do
  let moduleOverride := overrides[key.name]?
  let (text,registry) ← source.moduleFile key moduleOverride
  let options := dependencyEvalOptions source key
  let calls ← starlark options moduleOverride text
  let file ← evalModuleFile options calls
  let module := file.module.withDepsTransformed fun dep =>
    applyOverrides dep root.module.name overrides
  pure { module with registry := registry }

def rootModule : Module :=
  root.module.withDepsTransformed fun dep => applyOverrides dep root.module.name overrides

def visitDep (graph : DepGraph) (found : List ModuleKey × Names) (dep : DepSpec) :
    List ModuleKey × Names :=
  let key := dep.toModuleKey
  if key ∈ graph ∨ key ∈ found.1 then found else (found.1 ++ [key],found.2)

def visitNodep (graph : DepGraph) (previous : Names) (found : List ModuleKey × Names)
    (dep : DepSpec) : List ModuleKey × Names :=
  let key := dep.toModuleKey
  if key ∈ graph ∨ key ∈ found.1 then found
  else if dep.name ∉ previous then (found.1,found.2.insert dep.name)
  else (found.1 ++ [key],found.2)

/-- The keys of one horizon are in the graph. -/
def expand (graph : DepGraph) (previous : Names) (found : List ModuleKey × Names)
    (key : ModuleKey) : List ModuleKey × Names :=
  match graph[key]? with
  | none => found
  | some module => module.nodepDeps.foldl (visitNodep graph previous)
      ((module.deps.map Dep.spec).foldl (visitDep graph) found)

def readAll (keys : List ModuleKey) : Except BzlmodError (List (ModuleKey × Module)) :=
  keys.mapM fun key => do return (key,← readModule starlark root overrides source key)

/-- The loop over the horizons. -/
def explore (previous : Names) : ℕ → List ModuleKey → DepGraph → Names →
    Option (Except BzlmodError (DepGraph × Names))
  | 0, _, _, _ => none
  | fuel+1, horizon, graph, unfulfilled =>
    if horizon = [] then some (.ok (graph,unfulfilled))
    else
      let found := horizon.foldl (expand graph previous) ([],unfulfilled)
      match readAll starlark root overrides source found.1 with
      | .error e => some (.error e)
      | .ok modules => explore previous fuel (modules.map Prod.fst)
          (modules.foldl (fun graph m => graph.insert m.1 m.2) graph) found.2

/-- A nodep edge whose module never showed up is dropped. -/
def prune (graph : DepGraph) : DepGraph :=
  graph.map fun _ module =>
    { module with nodepDeps := module.nodepDeps.filter fun dep => dep.toModuleKey ∈ graph }

def discoverRound (fuel : ℕ) (previous : Names) :
    Option (Except BzlmodError (DepGraph × Names)) :=
  (explore starlark root overrides source previous fuel [.root]
    ((∅ : DepGraph).insert .root (rootModule root overrides)) ∅).map
    fun round => round.map fun r => (prune r.1,r.2)

def moduleNames (graph : DepGraph) : Names := .ofList (graph.toList.map fun p => p.2.name)

def discoverFrom (fuel : ℕ) : ℕ → Names → Option (Except BzlmodError DepGraph)
  | 0, _ => none
  | rounds+1, previous =>
    match discoverRound starlark root overrides source fuel previous with
    | none => none
    | some (.error e) => some (.error e)
    | some (.ok (graph,unfulfilled)) =>
      let names := moduleNames graph
      if unfulfilled.toList.any fun name => name ∈ names then discoverFrom fuel rounds names
      else some (.ok graph)

def discover (fuel : ℕ) : Option (Except BzlmodError DepGraph) :=
  discoverFrom starlark root overrides source fuel fuel ((∅ : Names).insert root.module.name)

end Round

/-- The file a key names, read and rewritten. -/
def moduleAt (starlark : Starlark) (root : ModuleFile) (overrides : Overrides)
    (source : ModuleFileSource) (key : ModuleKey) : Except BzlmodError Module :=
  if key = .root then .ok (rootModule root overrides)
  else readModule starlark root overrides source key

section Reached
variable (moduleAt : ModuleKey → Except BzlmodError Module)

/-- What is reached from the root when the nodep edges to certain names count. -/
inductive ReachedBy (counts : String → Prop) : ModuleKey → Prop where
  | root : ReachedBy counts .root
  | dep {key : ModuleKey} {module : Module} {dep : Dep} : ReachedBy counts key →
      moduleAt key = .ok module → dep ∈ module.deps → ReachedBy counts dep.spec.toModuleKey
  | nodep {key : ModuleKey} {module : Module} {dep : DepSpec} : ReachedBy counts key →
      moduleAt key = .ok module → dep ∈ module.nodepDeps → counts dep.name →
      ReachedBy counts dep.toModuleKey

/-- The least closed graph: a nodep edge counts when a module of its name is in. -/
inductive Reached : ModuleKey → Prop where
  | root : Reached .root
  | dep {key : ModuleKey} {module : Module} {dep : Dep} : Reached key →
      moduleAt key = .ok module → dep ∈ module.deps → Reached dep.spec.toModuleKey
  | nodep {key other : ModuleKey} {module m : Module} {dep : DepSpec} : Reached key →
      moduleAt key = .ok module → dep ∈ module.nodepDeps → Reached other →
      moduleAt other = .ok m → other.name = dep.name → Reached dep.toModuleKey

variable {moduleAt} {counts counts' : String → Prop} {key : ModuleKey}

theorem ReachedBy.mono (h : ReachedBy moduleAt counts key) (hc : ∀ n, counts n → counts' n) :
    ReachedBy moduleAt counts' key := by
  induction h with
  | root => exact .root
  | dep _ hm hd ih => exact .dep ih hm hd
  | nodep _ hm hd hn ih => exact .nodep ih hm hd (hc _ hn)

theorem ReachedBy.reached (h : ReachedBy moduleAt counts key)
    (hc : ∀ key module, ReachedBy moduleAt counts key → moduleAt key = .ok module →
      ∀ dep ∈ module.nodepDeps, counts dep.name → Reached moduleAt dep.toModuleKey ∨
        ∃ other m, Reached moduleAt other ∧ moduleAt other = .ok m ∧ other.name = dep.name) :
    Reached moduleAt key := by
  induction h with
  | root => exact .root
  | dep _ hm hd ih => exact .dep ih hm hd
  | nodep hk hm hd hn ih =>
    rcases hc _ _ hk hm _ hd hn with h | ⟨other,m,ho,hm',hname⟩
    · exact h
    · exact .nodep ih hm hd ho hm' hname

end Reached

section Found
variable {graph : DepGraph} {previous : Names}

/-- What looking at some edges adds to what has been found: `deps` always
count, `nodeps` when their name does. -/
structure Finds (graph : DepGraph) (previous : Names) (deps nodeps : DepSpec → Prop)
    (found found' : List ModuleKey × Names) : Prop where
  keys : ∀ k ∈ found.1, k ∈ found'.1
  names : ∀ n ∈ found.2, n ∈ found'.2
  dep : ∀ d, deps d → d.toModuleKey ∈ graph ∨ d.toModuleKey ∈ found'.1
  nodep : ∀ d, nodeps d → d.toModuleKey ∈ graph ∨ d.toModuleKey ∈ found'.1 ∨
    d.name ∉ previous ∧ d.name ∈ found'.2
  new : ∀ k ∈ found'.1, k ∈ found.1 ∨ k ∉ graph ∧ ∃ d, d.toModuleKey = k ∧
    (deps d ∨ nodeps d ∧ d.name ∈ previous)
  unfulfilled : ∀ n ∈ found'.2, n ∈ found.2 ∨ n ∉ previous

theorem Finds.refl (found : List ModuleKey × Names) :
    Finds graph previous (fun _ => False) (fun _ => False) found found :=
  ⟨fun _ h => h,fun _ h => h,fun _ h => h.elim,fun _ h => h.elim,fun _ h => .inl h,
    fun _ h => .inl h⟩

theorem Finds.trans {deps nodeps deps' nodeps' : DepSpec → Prop}
    {a b c : List ModuleKey × Names} (h : Finds graph previous deps nodeps a b)
    (h' : Finds graph previous deps' nodeps' b c) :
    Finds graph previous (fun d => deps d ∨ deps' d) (fun d => nodeps d ∨ nodeps' d) a c := by
  refine ⟨fun k hk => h'.keys k (h.keys k hk),fun n hn => h'.names n (h.names n hn),?_,?_,?_,?_⟩
  · rintro d (hd | hd)
    · exact (h.dep d hd).imp_right (h'.keys _)
    · exact h'.dep d hd
  · rintro d (hd | hd)
    · exact (h.nodep d hd).imp_right (Or.imp (h'.keys _) (And.imp_right (h'.names _)))
    · exact h'.nodep d hd
  · intro k hk
    rcases h'.new k hk with hk | ⟨hg,d,hd,hor⟩
    · rcases h.new k hk with hk | ⟨hg,d,hd,hor⟩
      · exact .inl hk
      · exact .inr ⟨hg,d,hd,hor.imp .inl (And.imp_left .inl)⟩
    · exact .inr ⟨hg,d,hd,hor.imp .inr (And.imp_left .inr)⟩
  · intro n hn
    rcases h'.unfulfilled n hn with hn | hn
    · exact h.unfulfilled n hn
    · exact .inr hn

theorem Finds.congr {deps nodeps deps' nodeps' : DepSpec → Prop} {a b : List ModuleKey × Names}
    (h : Finds graph previous deps nodeps a b) (hd : ∀ d, deps d ↔ deps' d)
    (hn : ∀ d, nodeps d ↔ nodeps' d) : Finds graph previous deps' nodeps' a b := by
  obtain rfl : deps = deps' := funext fun d => propext (hd d)
  obtain rfl : nodeps = nodeps' := funext fun d => propext (hn d)
  exact h

theorem visitDep_finds (found : List ModuleKey × Names) (dep : DepSpec) :
    Finds graph previous (· = dep) (fun _ => False) found (visitDep graph found dep) := by
  unfold visitDep
  dsimp only
  split
  · next h =>
    refine ⟨fun _ h => h,fun _ h => h,?_,fun _ h => h.elim,fun _ h => .inl h,fun _ h => .inl h⟩
    rintro d rfl
    exact h
  · next h =>
    rw [not_or] at h
    refine ⟨fun k hk => List.mem_append_left _ hk,fun _ h => h,?_,fun _ h => h.elim,fun k hk => ?_,
      fun _ h => .inl h⟩
    · rintro d rfl
      exact .inr (by simp)
    · rcases List.mem_append.mp hk with hk | hk
      · exact .inl hk
      · obtain rfl := List.mem_singleton.mp hk
        exact .inr ⟨h.1,dep,rfl,.inl rfl⟩

theorem visitNodep_finds (found : List ModuleKey × Names) (dep : DepSpec) :
    Finds graph previous (fun _ => False) (· = dep) found (visitNodep graph previous found dep) := by
  unfold visitNodep
  dsimp only
  split
  · next h =>
    refine ⟨fun _ h => h,fun _ h => h,fun _ h => h.elim,?_,fun _ h => .inl h,fun _ h => .inl h⟩
    rintro d rfl
    exact h.imp_right .inl
  · next h =>
    rw [not_or] at h
    split
    · next hp =>
      refine ⟨fun _ h => h,fun n hn => Std.ExtTreeSet.mem_insert.mpr (.inr hn),fun _ h => h.elim,?_,
        fun _ h => .inl h,fun n hn => ?_⟩
      · rintro d rfl
        exact .inr (.inr ⟨hp,Std.ExtTreeSet.mem_insert_self⟩)
      · rcases Std.ExtTreeSet.mem_insert.mp hn with hn | hn
        · exact .inr (Std.LawfulEqOrd.eq_of_compare hn ▸ hp)
        · exact .inl hn
    · next hp =>
      refine ⟨fun k hk => List.mem_append_left _ hk,fun _ h => h,fun _ h => h.elim,?_,fun k hk => ?_,
        fun _ h => .inl h⟩
      · rintro d rfl
        exact .inr (.inl (by simp))
      · rcases List.mem_append.mp hk with hk | hk
        · exact .inl hk
        · obtain rfl := List.mem_singleton.mp hk
          exact .inr ⟨h.1,dep,rfl,.inr ⟨rfl,not_not.mp hp⟩⟩

/-- Looking at one thing after another. -/
theorem foldl_finds {α : Type*} {f : List ModuleKey × Names → α → List ModuleKey × Names}
    {deps nodeps : α → DepSpec → Prop}
    (hf : ∀ found x, Finds graph previous (deps x) (nodeps x) found (f found x)) (xs : List α)
    (found : List ModuleKey × Names) :
    Finds graph previous (fun d => ∃ x ∈ xs, deps x d) (fun d => ∃ x ∈ xs, nodeps x d) found
      (xs.foldl f found) := by
  induction xs generalizing found with
  | nil => exact (Finds.refl found).congr (by simp) (by simp)
  | cons x xs ih => exact ((hf found x).trans (ih (f found x))).congr (by simp) (by simp)

theorem expand_finds (found : List ModuleKey × Names) (key : ModuleKey) :
    Finds graph previous (fun d => ∃ module, graph[key]? = some module ∧ d ∈ module.deps.map Dep.spec)
      (fun d => ∃ module, graph[key]? = some module ∧ d ∈ module.nodepDeps) found
      (expand graph previous found key) := by
  unfold expand
  split
  · next h => exact (Finds.refl found).congr (by simp [h]) (by simp [h])
  · next module h =>
    refine ((foldl_finds visitDep_finds _ _).trans (foldl_finds visitNodep_finds _ _)).congr ?_ ?_
    · simp [h]
    · simp [h]

end Found

section Insert

theorem insert_getElem? (graph : DepGraph) (m : ModuleKey × Module) (k : ModuleKey) :
    (graph.insert m.1 m.2)[k]? = if m.1 = k then some m.2 else graph[k]? := by
  rw [Std.ExtTreeMap.getElem?_insert]
  exact if_congr Std.LawfulEqOrd.compare_eq_iff_eq rfl rfl

theorem insertAll_getElem? (ms : List (ModuleKey × Module)) (graph : DepGraph) {k : ModuleKey}
    (hk : k ∉ ms.map Prod.fst) :
    (ms.foldl (fun graph m => graph.insert m.1 m.2) graph)[k]? = graph[k]? := by
  induction ms generalizing graph with
  | nil => rfl
  | cons m ms ih =>
    rw [List.map_cons, List.mem_cons, not_or] at hk
    rw [List.foldl_cons, ih _ hk.2, insert_getElem?, if_neg (Ne.symm hk.1)]

theorem insertAll_some (ms : List (ModuleKey × Module)) (graph : DepGraph) {k : ModuleKey}
    {m : Module} (h : (ms.foldl (fun graph m => graph.insert m.1 m.2) graph)[k]? = some m) :
    graph[k]? = some m ∨ (k,m) ∈ ms := by
  induction ms generalizing graph with
  | nil => exact .inl h
  | cons p ms ih =>
    rcases ih _ h with h | h
    · rw [insert_getElem?] at h
      split at h
      · next hp =>
        cases h
        exact .inr (hp ▸ List.mem_cons_self)
      · exact .inl h
    · exact .inr (List.mem_cons_of_mem _ h)

theorem mem_insertAll (ms : List (ModuleKey × Module)) (graph : DepGraph) (k : ModuleKey) :
    k ∈ ms.foldl (fun graph m => graph.insert m.1 m.2) graph ↔ k ∈ graph ∨ k ∈ ms.map Prod.fst := by
  induction ms generalizing graph with
  | nil => simp
  | cons m ms ih =>
    rw [List.foldl_cons, ih, Std.ExtTreeMap.mem_insert, List.map_cons, List.mem_cons,
      Std.LawfulEqOrd.compare_eq_iff_eq]
    grind

theorem mem_of_getElem? {graph : DepGraph} {k : ModuleKey} {m : Module} (h : graph[k]? = some m) :
    k ∈ graph := Std.ExtTreeMap.mem_iff_isSome_getElem?.mpr (by simp [h])

theorem getElem?_of_mem {graph : DepGraph} {k : ModuleKey} (h : k ∈ graph) :
    ∃ m, graph[k]? = some m :=
  Option.isSome_iff_exists.mp (Std.ExtTreeMap.mem_iff_isSome_getElem?.mp h)

end Insert

section Rounds
variable {starlark : Starlark} {root : ModuleFile} {overrides : Overrides}
  {source : ModuleFileSource}

theorem readAll_ok {keys : List ModuleKey} {ms : List (ModuleKey × Module)}
    (h : readAll starlark root overrides source keys = .ok ms) :
    ms.map Prod.fst = keys ∧ ∀ p ∈ ms, readModule starlark root overrides source p.1 = .ok p.2 := by
  rw [readAll, Fallible.mapM_ok] at h
  induction h with
  | nil => exact ⟨rfl,by simp⟩
  | cons hk _ ih =>
    simp only [Fallible.bind_ok, Fallible.pure_ok] at hk
    obtain ⟨m,hm,rfl⟩ := hk
    refine ⟨by rw [List.map_cons, ih.1],fun p hp => ?_⟩
    rcases List.mem_cons.mp hp with rfl | hp
    · exact hm
    · exact ih.2 p hp

theorem moduleAt_root : moduleAt starlark root overrides source .root =
    .ok (rootModule root overrides) := if_pos rfl

theorem moduleAt_other {k : ModuleKey} (hk : k ≠ .root) :
    moduleAt starlark root overrides source k = readModule starlark root overrides source k :=
  if_neg hk

theorem readModule_ok {k : ModuleKey} {m : Module}
    (h : readModule starlark root overrides source k = .ok m) :
    ∃ calls file registry, evalModuleFile (dependencyEvalOptions source k) calls = .ok file ∧
      m = { file.module.withDepsTransformed (fun dep =>
        applyOverrides dep root.module.name overrides) with registry := registry } := by
  simp only [readModule, Fallible.bind_ok, Fallible.pure_ok] at h
  obtain ⟨text,-,calls,-,file,hf,rfl⟩ := h
  exact ⟨calls,file,text.2,hf,rfl⟩

/-- A module goes by the name it was asked for by, the root by its own. -/
theorem moduleAt_name {k : ModuleKey} {m : Module}
    (h : moduleAt starlark root overrides source k = .ok m) :
    m.name = if k = .root then root.module.name else k.name := by
  by_cases hk : k = .root
  · subst hk
    rw [moduleAt_root] at h
    cases h
    rw [if_pos rfl]
    rfl
  · rw [moduleAt_other hk] at h
    obtain ⟨calls,file,registry,hf,rfl⟩ := readModule_ok h
    have hr : (dependencyEvalOptions source k).key.isRoot = false :=
      Bool.eq_false_iff.mpr fun hr => hk (ModuleKey.isRoot_iff.mp hr)
    rw [if_neg hk]
    exact evalModuleFile_name hf hr

/-- A rewritten edge leads to the root, or to a module of another name. -/
theorem applyOverrides_name (d : DepSpec) (rootName : String) (hd : validModuleName d.name = true) :
    (applyOverrides d rootName overrides).toModuleKey = .root ∨
      validModuleName (applyOverrides d rootName overrides).name = true ∧
      (applyOverrides d rootName overrides).name ≠ rootName := by
  unfold applyOverrides
  split
  · exact .inl rfl
  · next h =>
    have hne : d.name ≠ rootName := by
      rintro rfl
      exact h ⟨validModuleName_ne_empty hd,rfl⟩
    right
    split
    · exact ⟨hd,hne⟩
    · split <;> exact ⟨hd,hne⟩
    · exact ⟨hd,hne⟩

theorem moduleAt_edge {k : ModuleKey} {m : Module}
    (h : moduleAt starlark root overrides source k = .ok m) {d : DepSpec} (hd : d ∈ m.edges) :
    d.toModuleKey = .root ∨ validModuleName d.name = true ∧ d.name ≠ root.module.name := by
  have hfile : ∃ file : ModuleFile, d ∈ (file.module.withDepsTransformed fun dep =>
      applyOverrides dep root.module.name overrides).edges := by
    by_cases hk : k = .root
    · subst hk
      rw [moduleAt_root] at h
      cases h
      exact ⟨root,hd⟩
    · rw [moduleAt_other hk] at h
      obtain ⟨calls,file,registry,hf,rfl⟩ := readModule_ok h
      exact ⟨file,hd⟩
  obtain ⟨file,hd⟩ := hfile
  rw [Module.withDepsTransformed_edges] at hd
  obtain ⟨d',hd',rfl⟩ := List.mem_map.mp hd
  exact applyOverrides_name d' root.module.name (file.named d' hd')

end Rounds

end BuildFiji.Bzlmod
