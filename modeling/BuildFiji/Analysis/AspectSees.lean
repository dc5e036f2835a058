import BuildFiji.Analysis.Aspect

/-!
# What an aspect sees

The implementation is told the configuration that its key asks for, and under a
label it sees one target: that of the last followed edge, or of the first one where
none is followed. So it sees what it should, whatever the targets look like, just
when the target was analysed where it was asked for and all the edges of a label
lead to one target and are followed or not alike.
-/

set_option autoImplicit false
set_option linter.all false

namespace BuildFiji.Aspects

open BuildFiji.Graph BuildFiji.RuleDeps BuildFiji.Fallible

section Sees

variable {γ φ π τ μ : Type}

/-- What an edge of the rule leads to, with this aspect's result where it is followed. -/
def Own (env : Env γ φ π τ μ) (aspect : AspectRef) (follows : String → Bool)
    (edge : String × ConfiguredTargetKey γ) (info : DepInfo φ π) : Prop :=
  ∃ dep, env.target edge.2 = .ok dep ∧
    if follows edge.1 then
      ∃ result, env.aspect ⟨edge.2,aspect⟩ = .ok result ∧
        info = (depInfo dep false).extend result.providers
    else info = depInfo dep false

structure Sees (env : Env γ φ π τ μ) (key : AspectKey γ) (base : ConfiguredTarget γ φ π)
    (info : RuleInfo γ) (spec : AspectSpec) (request : AspectRequest γ φ π τ) : Prop where
  target : ∃ results, List.Forall₂ (fun a result => env.aspect ⟨key.target,a⟩ = .ok result)
      spec.requires results ∧
    request.target = (depInfo base false).extend (results.flatMap (·.providers))
  configuration : request.configuration = base.configuration
  edges : ∀ e ∈ info.edges, ∃ dep, Own env key.aspect spec.follows e dep ∧
    request.ruleDeps e.2.label = some dep

/-- The implementation is given the right things where the aspect applies, and elsewhere
the result is empty whatever aspects there are on other targets. -/
structure SeesRight (env : Env γ φ π τ μ) (key : AspectKey γ) : Prop where
  sees : ∀ base info module spec, env.target key.target = .ok base → base.ruleInfo = some info →
    env.module key.aspect.bzl = .ok module →
    env.aspectApplies module key.aspect.name base.providers = true →
    env.aspectSpec module key.aspect.name = some spec →
    ∀ prepared, prepare env key = .ok (some prepared) →
      Sees env key base info spec prepared.request
  stops : ∀ base, env.target key.target = .ok base →
    (base.ruleInfo = none ∨ ∃ module, env.module key.aspect.bzl = .ok module ∧
      env.aspectApplies module key.aspect.name base.providers = false) →
    ∀ aspect, compute { env with aspect := aspect } key = .ok (empty env key)

theorem extend_extend (info : DepInfo φ π) (p q : List π) :
    (info.extend p).extend q = info.extend (p ++ q) := by
  rw [DepInfo.extend, DepInfo.extend, DepInfo.extend, List.append_assoc]

theorem extend_nil (info : DepInfo φ π) : info.extend [] = info := by
  rw [DepInfo.extend, List.append_nil]

theorem withRequired_ok {env : Env γ φ π τ μ} {key : AspectKey γ} {requires : List AspectRef}
    {seen out : DepInfo φ π} (h : withRequired env key seen requires = .ok out) :
    ∃ results, List.Forall₂ (fun a result => env.aspect ⟨key.target,a⟩ = .ok result)
      requires results ∧ out = seen.extend (results.flatMap (·.providers)) := by
  induction requires generalizing seen with
  | nil =>
    rw [withRequired, List.foldlM_nil, pure_ok] at h
    exact ⟨[],.nil,by rw [← h, List.flatMap_nil, extend_nil]⟩
  | cons a as ih =>
    rw [withRequired, List.foldlM_cons, bind_ok] at h
    obtain ⟨next,hnext,h⟩ := h
    obtain ⟨result,hresult,hnext⟩ := bind_ok.mp hnext
    obtain ⟨results,hall,hout⟩ := ih h
    refine ⟨result::results,.cons hresult hall,?_⟩
    rw [hout, ← pure_ok.mp hnext, extend_extend, List.flatMap_cons]

/-- Edges to one target that are followed alike lead to the same. -/
theorem own_alike {env : Env γ φ π τ μ} {aspect : AspectRef} {follows : String → Bool}
    {e e' : String × ConfiguredTargetKey γ} {info : DepInfo φ π} (hk : e.2 = e'.2)
    (hf : follows e.1 = follows e'.1) (h : Own env aspect follows e info) :
    Own env aspect follows e' info := by
  rw [Own, hk, hf] at h
  exact h

theorem addEdge_ok {env : Env γ φ π τ μ} {key : AspectKey γ} {follows : String → Bool}
    {deps out : Label → Option (DepInfo φ π)} {e : String × ConfiguredTargetKey γ}
    (h : addEdge env key follows deps e = .ok out) :
    ∃ dep, Own env key.aspect follows e dep ∧
      (out = insertDep deps e.2.label dep ∨ out = deps ∧ (deps e.2.label).isSome) := by
  obtain ⟨done,hdone,h⟩ := bind_ok.mp h
  by_cases hf : follows e.1 = true
  · rw [if_pos hf] at h
    obtain ⟨result,hresult,h⟩ := bind_ok.mp h
    refine ⟨_,⟨done,hdone,?_⟩,Or.inl (pure_ok.mp h).symm⟩
    rw [if_pos hf]
    exact ⟨result,hresult,rfl⟩
  · rw [if_neg hf] at h
    refine ⟨depInfo done false,⟨done,hdone,if_neg hf ▸ rfl⟩,?_⟩
    by_cases hn : (deps e.2.label).isNone = true
    · rw [if_pos hn] at h
      exact Or.inl (pure_ok.mp h).symm
    · rw [if_neg hn] at h
      refine Or.inr ⟨(pure_ok.mp h).symm,?_⟩
      rwa [Bool.not_eq_true, Option.isNone_eq_false_iff] at hn

/-- What stands under a label is the own target of one of its edges. -/
structure Stand (env : Env γ φ π τ μ) (aspect : AspectRef) (follows : String → Bool)
    (edges : List (String × ConfiguredTargetKey γ)) (deps : Label → Option (DepInfo φ π)) : Prop where
  named : ∀ e ∈ edges, (∃ dep, Own env aspect follows e dep) ∧ (deps e.2.label).isSome
  own : ∀ l dep, deps l = some dep → ∃ e ∈ edges, e.2.label = l ∧ Own env aspect follows e dep

theorem stand_addEdge {env : Env γ φ π τ μ} {key : AspectKey γ} {follows : String → Bool}
    {edges : List (String × ConfiguredTargetKey γ)} {deps out : Label → Option (DepInfo φ π)}
    {e : String × ConfiguredTargetKey γ} (hstand : Stand env key.aspect follows edges deps)
    (h : addEdge env key follows deps e = .ok out) :
    Stand env key.aspect follows (edges ++ [e]) out := by
  obtain ⟨dep,hown,h⟩ := addEdge_ok h
  have kept : ∀ l, (deps l).isSome → (out l).isSome := by
    intro l hl
    rcases h with rfl | ⟨rfl,-⟩
    · unfold insertDep
      split
      · rfl
      · exact hl
    · exact hl
  constructor
  · intro e' he'
    rcases List.mem_append.mp he' with he' | he'
    · exact ⟨(hstand.named e' he').1,kept _ (hstand.named e' he').2⟩
    · rw [List.mem_singleton.mp he']
      refine ⟨⟨dep,hown⟩,?_⟩
      rcases h with rfl | ⟨rfl,hsome⟩
      · rw [insertDep, if_pos rfl]
        rfl
      · exact hsome
  · intro l d hd
    have old : deps l = some d →
        ∃ e' ∈ edges ++ [e], e'.2.label = l ∧ Own env key.aspect follows e' d := by
      intro hd
      obtain ⟨e',he',hl⟩ := hstand.own l d hd
      exact ⟨e',List.mem_append_left _ he',hl⟩
    rcases h with rfl | ⟨rfl,-⟩
    · by_cases hl : l = e.2.label
      · rw [insertDep, if_pos hl] at hd
        cases hd
        exact ⟨e,List.mem_append_right _ List.mem_cons_self,hl.symm,hown⟩
      · rw [insertDep, if_neg hl] at hd
        exact old hd
    · exact old hd

theorem stand_ruleDeps {env : Env γ φ π τ μ} {key : AspectKey γ} {follows : String → Bool}
    {edges : List (String × ConfiguredTargetKey γ)} {out : Label → Option (DepInfo φ π)}
    (h : ruleDeps env key follows edges = .ok out) : Stand env key.aspect follows edges out := by
  induction edges using List.reverseRecOn generalizing out with
  | nil =>
    rw [ruleDeps, List.foldlM_nil, pure_ok] at h
    subst h
    exact ⟨(fun _ h => nomatch h),(fun _ _ h => nomatch h)⟩
  | append_singleton edges e ih =>
    rw [ruleDeps, List.foldlM_append, bind_ok] at h
    obtain ⟨deps,hdeps,h⟩ := h
    rw [List.foldlM_cons, bind_ok] at h
    obtain ⟨out',hout,h⟩ := h
    rw [List.foldlM_nil, pure_ok] at h
    exact stand_addEdge (ih hdeps) (h ▸ hout)

/-- What a successful preparation went through. -/
theorem looks_ok {env : Env γ φ π τ μ} {key : AspectKey γ} {base : ConfiguredTarget γ φ π}
    {info : RuleInfo γ} {spec : AspectSpec} {prepared : Prepared γ φ π τ}
    (h : looks env key base info spec = .ok prepared) :
    withRequired env key (depInfo base false) spec.requires = .ok prepared.request.target ∧
      ruleDeps env key spec.follows info.edges = .ok prepared.request.ruleDeps ∧
      prepared.request.configuration = key.target.configuration := by
  obtain ⟨seen,hseen,h⟩ := bind_ok.mp h
  obtain ⟨deps,hdeps,h⟩ := bind_ok.mp h
  obtain ⟨ownKeys,-,h⟩ := bind_ok.mp h
  obtain ⟨own,-,h⟩ := bind_ok.mp h
  obtain ⟨⟨toolchains,keys⟩,-,h⟩ := bind_ok.mp h
  have hp := pure_ok.mp h
  subst hp
  exact ⟨hseen,hdeps,rfl⟩

theorem prepare_ok (env : Env γ φ π τ μ) {key : AspectKey γ} {base : ConfiguredTarget γ φ π}
    {info : RuleInfo γ} {module : μ} {spec : AspectSpec} (hbase : env.target key.target = .ok base)
    (hinfo : base.ruleInfo = some info) (hmodule : env.module key.aspect.bzl = .ok module)
    (happlies : env.aspectApplies module key.aspect.name base.providers = true)
    (hspec : env.aspectSpec module key.aspect.name = some spec) :
    prepare env key = some <$> looks env key base info spec := by
  unfold prepare
  rw [hbase]
  dsimp only [bind, Except.bind]
  rw [hinfo]
  show (env.module key.aspect.bzl >>= _) = _
  rw [hmodule]
  show (if env.aspectApplies module key.aspect.name base.providers = true then _ else _) = _
  rw [if_pos happlies, hspec]

theorem stops (env : Env γ φ π τ μ) (key : AspectKey γ) {base : ConfiguredTarget γ φ π}
    (hbase : env.target key.target = .ok base)
    (h : base.ruleInfo = none ∨ ∃ module, env.module key.aspect.bzl = .ok module ∧
      env.aspectApplies module key.aspect.name base.providers = false) :
    compute env key = .ok (empty env key) := by
  have hprepare : prepare env key = .ok none := by
    unfold prepare
    rw [hbase]
    dsimp only [bind, Except.bind]
    cases hinfo : base.ruleInfo with
    | none => rfl
    | some info =>
      rcases h with h | ⟨module,hmodule,happlies⟩
      · rw [hinfo] at h
        cases h
      · show (env.module key.aspect.bzl >>= _) = _
        rw [hmodule]
        show (if env.aspectApplies module key.aspect.name base.providers = true then _ else _) = _
        rw [happlies]
        rfl
  rw [compute, hprepare]
  rfl

/-- What is right when the target is where it was asked for and the edges of a label
ask for the same. -/
theorem sees_of_alike {env : Env γ φ π τ μ} {key : AspectKey γ} {base : ConfiguredTarget γ φ π}
    {info : RuleInfo γ} {spec : AspectSpec} {prepared : Prepared γ φ π τ}
    (hconf : base.configuration = key.target.configuration)
    (halike : ∀ e ∈ info.edges, ∀ e' ∈ info.edges, e.2.label = e'.2.label →
      e.2 = e'.2 ∧ spec.follows e.1 = spec.follows e'.1)
    (h : looks env key base info spec = .ok prepared) :
    Sees env key base info spec prepared.request := by
  obtain ⟨htarget,hdeps,hc⟩ := looks_ok h
  have hstand := stand_ruleDeps hdeps
  refine ⟨withRequired_ok htarget,hc.trans hconf.symm,?_⟩
  intro e he
  obtain ⟨dep,hdep⟩ := Option.isSome_iff_exists.mp (hstand.named e he).2
  obtain ⟨e',he',hl,hown⟩ := hstand.own e.2.label dep hdep
  obtain ⟨hk,hf⟩ := halike e' he' e he hl
  exact ⟨dep,own_alike hk hf hown,hdep⟩

end Sees

section Shape

/-- What is known of an aspect on a target before anything is looked at: where the
target was analysed, the edges of its rule if it is one, and what the aspect follows
and requires. -/
structure Shape (γ : Type) where
  key : AspectKey γ
  configuration : γ
  edges : Option (List (String × ConfiguredTargetKey γ))
  attrAspects : List String
  requires : List AspectRef

variable {γ : Type}

def Shape.follows (s : Shape γ) (attr : String) : Bool :=
  s.attrAspects.any fun a => a == "*" || a == attr

structure Fits {φ π τ μ : Type} (s : Shape γ) (env : Env γ φ π τ μ) : Prop where
  target : ∃ base, env.target s.key.target = .ok base ∧ base.configuration = s.configuration ∧
    base.ruleInfo.map (·.edges) = s.edges
  spec : ∃ module spec, env.module s.key.aspect.bzl = .ok module ∧
    env.aspectSpec module s.key.aspect.name = some spec ∧
    spec.attrAspects = s.attrAspects ∧ spec.requires = s.requires

/-- The rule was analysed where it was asked for, and edges that name one label lead to
one target and are followed alike. -/
def Unmixed (s : Shape γ) : Prop :=
  ∀ edges, s.edges = some edges → s.configuration = s.key.target.configuration ∧
    ∀ e ∈ edges, ∀ e' ∈ edges, e.2.label = e'.2.label →
      e.2 = e'.2 ∧ s.follows e.1 = s.follows e'.1

theorem right_of_unmixed {φ π τ μ : Type} {s : Shape γ} {env : Env γ φ π τ μ} (hfits : Fits s env)
    (hunmixed : Unmixed s) : SeesRight env s.key where
  sees := by
    intro base info module spec hbase hinfo hmodule happlies hspec prepared hprepared
    obtain ⟨base',hbase',hconf,hedges⟩ := hfits.target
    obtain ⟨module',spec',hmodule',hspec',hattrs,-⟩ := hfits.spec
    cases hbase.symm.trans hbase'
    cases hmodule.symm.trans hmodule'
    cases hspec.symm.trans hspec'
    rw [hinfo] at hedges
    obtain ⟨hc,halike⟩ := hunmixed info.edges hedges.symm
    rw [prepare_ok env hbase hinfo hmodule happlies hspec] at hprepared
    obtain ⟨out,hlooks,hout⟩ := bind_ok.mp hprepared
    cases hout
    apply sees_of_alike (hconf.trans hc) _ hlooks
    intro e he e' he' hl
    have hsame : s.follows = spec.follows := by
      funext attr
      rw [Shape.follows, ← hattrs, AspectSpec.follows]
    rw [← hsame]
    exact halike e he e' he' hl
  stops := by
    intro base hbase h aspect
    exact stops { env with aspect := aspect } s.key hbase h

end Shape

section Traced

variable {γ : Type} [DecidableEq γ] (s : Shape γ)

/-- What is seen of a target or of the result of an aspect: which one it is. -/
abbrev Trace (γ : Type) := ConfiguredTargetKey γ ⊕ AspectKey γ

def noSchema : RuleSchema := ⟨[],[],false⟩

/-- Each target provides the key it was asked for with, and is of a rule without edges
unless it is the one looked at. -/
def tracedTarget (key : ConfiguredTargetKey γ) :
    ConfiguredTarget γ Unit (Trace γ) :=
  { (ConfiguredTarget.new key () : ConfiguredTarget γ Unit (Trace γ)) with
    configuration := if key = s.key.target then s.configuration else key.configuration
    ruleInfo := (if key = s.key.target then s.edges else some []).map fun edges =>
      ⟨"",noSchema,[],edges,"",""⟩
    providers := [.inl key] }

def tracedSpec (aspect : AspectRef) : AspectSpec :=
  if aspect = s.key.aspect then ⟨s.attrAspects,s.requires,noSchema⟩ else ⟨[],[],noSchema⟩

def tracedAspect (key : AspectKey γ) :
    ConfiguredTarget γ Unit (Trace γ) :=
  match (tracedTarget s key.target).ruleInfo with
  | none => { ConfiguredTarget.new key.target () with ruleClass := some key.aspect.name }
  | some info =>
    { (ConfiguredTarget.new key.target () : ConfiguredTarget γ Unit (Trace γ)) with
      ruleClass := some key.aspect.name
      providers := [.inr key]
      aspectDeps := aspectDeps key (tracedSpec s key.aspect) info.edges }

/-- Every aspect applies, and provides the key that it is the result of. -/
def tracedEnv : Env γ Unit (Trace γ) Unit Label where
  target := fun key => .ok (tracedTarget s key)
  aspect := fun key => .ok (tracedAspect s key)
  module := .ok
  aspectApplies := fun _ _ _ => true
  aspectSpec := fun bzl name => some (tracedSpec s ⟨bzl,name⟩)
  toolchains := fun _ _ => .ok ((),[])
  runAspect := fun request =>
    match request.target.providers with
    | .inl key::_ => .ok ((),[.inr ⟨key,request.aspect⟩])
    | _ => .ok ((),[])
  toExec := id
  blank := ()

omit [DecidableEq γ] in
theorem tracedSpec_schema (aspect : AspectRef) : (tracedSpec s aspect).schema = noSchema := by
  unfold tracedSpec
  split <;> rfl

theorem traced_required (key : AspectKey γ)
    (seen : DepInfo Unit (Trace γ)) (requires : List AspectRef) :
    ∃ more, withRequired (tracedEnv s) key seen requires = .ok (seen.extend more) := by
  induction requires generalizing seen with
  | nil => exact ⟨[],by rw [extend_nil]; rfl⟩
  | cons a as ih =>
    obtain ⟨more,hmore⟩ := ih (seen.extend (tracedAspect s ⟨key.target,a⟩).providers)
    refine ⟨(tracedAspect s ⟨key.target,a⟩).providers ++ more,?_⟩
    rw [← extend_extend]
    exact hmore

theorem traced_ruleDeps (key : AspectKey γ) (follows : String → Bool)
    (edges : List (String × ConfiguredTargetKey γ)) :
    ∃ deps, ruleDeps (tracedEnv s) key follows edges = .ok deps := by
  apply (foldlM_ok (p := fun _ => True) _ edges _).mpr (fun _ _ => trivial)
  intro deps e
  refine ⟨fun _ => trivial,fun _ => ?_⟩
  show ∃ out, (if follows e.1 = true then _ else _) = Except.ok out
  split
  · exact ⟨_,rfl⟩
  · split
    · exact ⟨_,rfl⟩
    · exact ⟨_,rfl⟩

theorem traced_looks (key : AspectKey γ) (base : ConfiguredTarget γ Unit (Trace γ))
    (info : RuleInfo γ) : ∃ prepared more, looks (tracedEnv s) key base info (tracedSpec s key.aspect) =
      .ok prepared ∧ prepared.request.target = (depInfo base false).extend more ∧
      prepared.request.aspect = key.aspect ∧ prepared.deps = [] ∧
      prepared.aspectDeps = aspectDeps key (tracedSpec s key.aspect) info.edges := by
  obtain ⟨more,hmore⟩ := traced_required s key (depInfo base false) (tracedSpec s key.aspect).requires
  obtain ⟨deps,hdeps⟩ := traced_ruleDeps s key (tracedSpec s key.aspect).follows info.edges
  unfold looks
  rw [hmore, hdeps, tracedSpec_schema]
  exact ⟨_,more,rfl,rfl,rfl,rfl,rfl⟩

theorem traced_computed (key : AspectKey γ) :
    (tracedEnv s).aspect key = compute (tracedEnv s) key := by
  have hbase : (tracedEnv s).target key.target = .ok (tracedTarget s key.target) := rfl
  show Except.ok (tracedAspect s key) = _
  cases hinfo : (tracedTarget s key.target).ruleInfo with
  | none =>
    rw [stops (tracedEnv s) key hbase (Or.inl hinfo), tracedAspect, hinfo]
    rfl
  | some info =>
    obtain ⟨prepared,more,hlooks,htarget,haspect,hdeps,hkeys⟩ :=
      traced_looks s key (tracedTarget s key.target) info
    have hprepare := prepare_ok (tracedEnv s) hbase hinfo rfl rfl rfl
    have hrun : (tracedEnv s).runAspect prepared.request = .ok ((),[.inr key]) := by
      show (match prepared.request.target.providers with | .inl k::_ => _ | _ => _) = _
      rw [htarget, haspect]
      rfl
    rw [hlooks] at hprepare
    rw [compute, hprepare]
    show _ = ((tracedEnv s).runAspect prepared.request).mapError (failed key) >>= _
    rw [hrun, tracedAspect, hinfo]
    simp only [hdeps, hkeys]
    rfl

def tracedWorld : World γ Unit (Trace γ) Unit Label where
  toEnv := tracedEnv s
  computed := traced_computed s

theorem traced_fits : Fits s (tracedEnv s) where
  target := by
    refine ⟨tracedTarget s s.key.target,rfl,if_pos rfl,?_⟩
    show ((if s.key.target = s.key.target then s.edges else some []).map _).map _ = _
    rw [if_pos rfl, Option.map_map]
    cases s.edges <;> rfl
  spec := by
    refine ⟨s.key.aspect.bzl,tracedSpec s s.key.aspect,rfl,rfl,?_⟩
    rw [tracedSpec, if_pos rfl]
    exact ⟨rfl,rfl⟩

variable {s}

theorem traced_providers {key : AspectKey γ} (h : s.edges ≠ none) :
    (tracedAspect s key).providers = [.inr key] := by
  obtain ⟨edges,he⟩ := Option.ne_none_iff_exists'.mp h
  unfold tracedAspect tracedTarget
  rw [he]
  by_cases hk : key.target = s.key.target
  · simp only [if_pos hk]
    rfl
  · simp only [if_neg hk]
    rfl

/-- The target that stands under a label tells which edge put it there. -/
theorem traced_own {e : String × ConfiguredTargetKey γ} {info : DepInfo Unit (Trace γ)}
    (h : s.edges ≠ none) (hown : Own (tracedEnv s) s.key.aspect s.follows e info) :
    info.providers = .inl e.2 :: if s.follows e.1 then [.inr ⟨e.2,s.key.aspect⟩] else [] := by
  obtain ⟨dep,hdep,hown⟩ := hown
  cases hdep
  by_cases hf : s.follows e.1 = true
  · rw [if_pos hf] at hown ⊢
    obtain ⟨result,hresult,rfl⟩ := hown
    cases hresult
    show [.inl e.2] ++ (tracedAspect s ⟨e.2,s.key.aspect⟩).providers = _
    rw [traced_providers h]
    rfl
  · rw [if_neg hf] at hown ⊢
    rw [hown]
    rfl

theorem unmixed_of_traced (h : SeesRight (tracedEnv s) s.key) : Unmixed s := by
  intro edges he
  have hinfo : (tracedTarget s s.key.target).ruleInfo = some ⟨"",noSchema,[],edges,"",""⟩ := by
    show (if s.key.target = s.key.target then s.edges else some []).map _ = _
    rw [if_pos rfl, he]
    rfl
  obtain ⟨prepared,-,hlooks,-⟩ := traced_looks s s.key (tracedTarget s s.key.target)
    ⟨"",noSchema,[],edges,"",""⟩
  have hprepare : prepare (tracedEnv s) s.key = .ok (some prepared) := by
    rw [prepare_ok (tracedEnv s) rfl hinfo rfl rfl rfl, hlooks]
    rfl
  have hsees := h.sees _ _ _ _ rfl hinfo rfl rfl rfl prepared hprepare
  have hfollows : (tracedSpec s s.key.aspect).follows = s.follows := by
    rw [tracedSpec, if_pos rfl]
    rfl
  have hne : s.edges ≠ none := by rw [he]; exact Option.some_ne_none _
  refine ⟨?_,?_⟩
  · have hc := hsees.configuration
    rw [(looks_ok hlooks).2.2, tracedTarget, if_pos rfl] at hc
    exact hc.symm
  · intro e hmem e' hmem' hl
    obtain ⟨dep,hown,hdep⟩ := hsees.edges e hmem
    obtain ⟨dep',hown',hdep'⟩ := hsees.edges e' hmem'
    rw [hl, hdep'] at hdep
    cases hdep
    rw [hfollows] at hown hown'
    have hp := (traced_own hne hown).symm.trans (traced_own hne hown')
    obtain ⟨hk,hf⟩ := List.cons.inj hp
    refine ⟨Sum.inl.inj hk,?_⟩
    by_cases hfe : s.follows e.1 = true <;> by_cases hfe' : s.follows e'.1 = true <;>
      simp_all

end Traced

section Right

variable {γ : Type} [DecidableEq γ]

def dep : Label := ⟨"","pkg","dep"⟩

/-- A rule that moves itself to another configuration, and names one target for an
attribute that the aspect follows and for one that it does not. -/
def movedRule : Shape Bool where
  key := ⟨⟨⟨"","pkg","t"⟩,false⟩,⟨⟨"","pkg","a.bzl"⟩,"a"⟩⟩
  configuration := true
  edges := some [("deps",⟨dep,true⟩),("tool",⟨dep,false⟩)]
  attrAspects := ["deps"]
  requires := []

end Right

end BuildFiji.Aspects
