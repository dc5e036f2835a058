import BuildFiji.Analysis.Toolchain
import BuildFiji.Lib.Fallible

/-!
# Which toolchains a rule is given

A platform stands first in the search if it has what the rule asks of it and each type
the rule cannot do without finds a toolchain on it. The search analyses what it finds on
every platform that it meets, also on those that it then passes over.
-/

set_option autoImplicit false
set_option linter.all false

namespace BuildFiji.Toolchains

open BuildFiji.Graph BuildFiji.RuleDeps BuildFiji.FirstFit

namespace Ctx

section Constraints

variable (ctx : Ctx)

/-- The default of a setting that the platform names no value of. -/
def UnnamedDefault (platform : Labels) (value : Label) : Prop :=
  ∃ t setting s, ctx.targetOf value = .ok t ∧ t.constraintSetting = some setting ∧
    ctx.targetOf setting = .ok s ∧ defaultOf s = some value ∧
    ∀ member ∈ platform, ctx.names setting member = false

def Has (platform : Labels) (value : Label) : Prop := value ∈ platform ∨ ctx.UnnamedDefault platform value

def Fits (exec : List Label) (platform : Labels) : Prop := ∀ c ∈ exec, ctx.Has platform c

theorem isUnnamedDefault_ok (platform : Labels) (value : Label) :
    ∃ b, ctx.isUnnamedDefault platform value = .ok b ∧ (b = true ↔ ctx.UnnamedDefault platform value) := by
  rw [isUnnamedDefault]
  cases ht : ctx.targetOf value with
  | error e =>
    refine ⟨false,rfl,iff_of_false Bool.false_ne_true ?_⟩
    rintro ⟨t,-,-,hok,-⟩
    cases ht.symm.trans hok
  | ok t =>
    cases hs : t.constraintSetting with
    | none =>
      refine ⟨false,by simp only [hs],iff_of_false Bool.false_ne_true ?_⟩
      rintro ⟨t',setting,-,hok,hsome,-⟩
      cases ht.symm.trans hok
      cases hs.symm.trans hsome
    | some setting =>
      obtain ⟨s,hsetting⟩ : ∃ s, ctx.targetOf setting = .ok s := ctx.settings value t setting ht hs
      have hiff : ctx.UnnamedDefault platform value ↔ defaultOf s = some value ∧
          ∀ member ∈ platform, ctx.names setting member = false := by
        constructor
        · rintro ⟨t',setting',s',hok,hsome,hs',hrest⟩
          cases ht.symm.trans hok
          cases hs.symm.trans hsome
          cases hsetting.symm.trans hs'
          exact hrest
        · exact fun hrest => ⟨t,setting,s,ht,hs,hsetting,hrest⟩
      simp only [hs, hsetting, hiff]
      by_cases hdefault : defaultOf s = some value
      · refine ⟨!platform.toList.any (ctx.names setting),by simp [hdefault, bind, Except.bind, pure, Except.pure],?_⟩
        rw [Bool.not_eq_true', List.any_eq_false]
        simp [hdefault, Std.ExtTreeSet.mem_toList]
      · exact ⟨false,by simp [hdefault, bind, Except.bind, pure, Except.pure],by simp [hdefault]⟩

theorem addDefaults_ok (platform : Labels) (values : List Label) (out : Labels) :
    ∃ held, values.foldlM (ctx.addDefault platform) out = .ok held ∧
      ∀ c, c ∈ held ↔ c ∈ out ∨ c ∈ values ∧ ctx.UnnamedDefault platform c := by
  induction values generalizing out with
  | nil => exact ⟨out,rfl,fun c => by simp⟩
  | cons value values ih =>
    obtain ⟨b,hb,hdefault⟩ := ctx.isUnnamedDefault_ok platform value
    rw [List.foldlM_cons, addDefault, hb]
    cases b with
    | true =>
      obtain ⟨held,hheld,hmem⟩ := ih (out.insert value)
      refine ⟨held,hheld,fun c => (hmem c).trans ?_⟩
      rw [Std.ExtTreeSet.mem_insert, Std.LawfulEqOrd.compare_eq_iff_eq, List.mem_cons]
      have hvalue := hdefault.mp rfl
      constructor
      · rintro ((rfl | h) | h)
        · exact .inr ⟨.inl rfl,hvalue⟩
        · exact .inl h
        · exact .inr ⟨.inr h.1,h.2⟩
      · rintro (h | ⟨rfl | h,hc⟩)
        · exact .inl (.inr h)
        · exact .inl (.inl rfl)
        · exact .inr ⟨h,hc⟩
    | false =>
      obtain ⟨held,hheld,hmem⟩ := ih out
      refine ⟨held,hheld,fun c => (hmem c).trans ?_⟩
      rw [List.mem_cons]
      have hvalue : ¬ctx.UnnamedDefault platform value := fun h => Bool.false_ne_true (hdefault.mpr h)
      constructor
      · rintro (h | h)
        · exact .inl h
        · exact .inr ⟨.inr h.1,h.2⟩
      · rintro (h | ⟨rfl | h,hc⟩)
        · exact .inl h
        · exact absurd hc hvalue
        · exact .inr ⟨h,hc⟩

theorem withDefaultsFor_ok (platform : Labels) (needed : List Label) :
    ∃ held, ctx.withDefaultsFor platform needed = .ok held ∧
      (needed.all held.contains = true ↔ ctx.Fits needed platform) := by
  obtain ⟨held,hheld,hmem⟩ := ctx.addDefaults_ok platform
    (needed.filter fun value => !platform.contains value) platform
  refine ⟨held,hheld,?_⟩
  rw [List.all_eq_true]
  refine forall₂_congr fun c hc => ?_
  rw [← Std.ExtTreeSet.mem_iff_contains, hmem, Has, List.mem_filter, Bool.not_eq_true', ← Bool.not_eq_true,
    ← Std.ExtTreeSet.mem_iff_contains]
  constructor
  · rintro (h | h)
    · exact .inl h
    · exact .inr h.2
  · rintro (h | h)
    · exact .inl h
    · by_cases hin : c ∈ platform
      · exact .inl hin
      · exact .inr ⟨⟨hc,hin⟩,h⟩

theorem hasAll_ok (exec : List Label) (platform : Labels) :
    ∃ b, ctx.hasAll exec platform = .ok b ∧ (b = true ↔ ctx.Fits exec platform) := by
  obtain ⟨held,hheld,hall⟩ := ctx.withDefaultsFor_ok platform exec
  rw [hasAll, hheld]
  exact ⟨_,rfl,hall⟩

end Constraints

section Resolve

variable (ctx : Ctx) (key : Key)

def Matches (c : Configuration) (setting : Label) : Prop :=
  ∃ t, ctx.target ⟨setting,c⟩ = .ok t ∧ t.configMatching = some true

/-- A registered target is a toolchain of the type that can be used on the platform. -/
structure Serves (wanted : Label) (exec : Labels) (label : Label) (decl : ToolchainDecl) : Prop where
  declared : ∃ t, ctx.target ⟨label,key.configuration⟩ = .ok t ∧ t.toolchainDecl = some decl
  type : decl.toolchainType = wanted ∨ ctx.followAliases decl.toolchainType = .ok wanted
  exec : ctx.Fits decl.execCompatibleWith exec
  target : ctx.Fits decl.targetCompatibleWith key.configuration.constraints
  settings : ∀ s ∈ decl.targetSettings, ctx.Matches key.configuration s

/-- A registered target is analysed, and with it its type and its settings. -/
structure Usable (label : Label) : Prop where
  target : ∃ t, ctx.target ⟨label,key.configuration⟩ = .ok t
  type : ∀ t decl, ctx.target ⟨label,key.configuration⟩ = .ok t → t.toolchainDecl = some decl →
    ∃ type, ctx.followAliases decl.toolchainType = .ok type
  settings : ∀ t decl, ctx.target ⟨label,key.configuration⟩ = .ok t → t.toolchainDecl = some decl →
    ∀ s ∈ decl.targetSettings, ∃ x, ctx.target ⟨s,key.configuration⟩ = .ok x

def registered : List Label := (ctx.registeredToolchains (extraToolchains key)).toOption.getD []

/-- The first registered toolchain of a type that can be used on the platform. -/
def Tool (type : Label) (exec : Labels) (decl : ToolchainDecl) : Prop :=
  ∃ wanted before label, ctx.followAliases type = .ok wanted ∧
    FirstIn (fun l => ∃ d, ctx.Serves key wanted exec l d) (ctx.registered key) before label ∧
    ctx.Serves key wanted exec label decl

variable {ctx key}

theorem matchSettings_ok {c : Configuration} {settings : List Label}
    (h : ∀ s ∈ settings, ∃ x, ctx.target ⟨s,c⟩ = .ok x) (so : Bool) :
    ∃ b, settings.foldlM (ctx.matchSetting c) so = .ok b ∧
      (b = true ↔ so = true ∧ ∀ s ∈ settings, ctx.Matches c s) := by
  induction settings generalizing so with
  | nil => exact ⟨so,rfl,by simp⟩
  | cons s settings ih =>
    obtain ⟨x,hx⟩ := h s List.mem_cons_self
    obtain ⟨b,hb,hiff⟩ := ih (fun s hs => h s (List.mem_cons_of_mem _ hs)) (so && x.configMatching == some true)
    have hmatches : ctx.Matches c s ↔ x.configMatching = some true := by
      constructor
      · rintro ⟨t,ht,hm⟩
        cases hx.symm.trans ht
        exact hm
      · exact fun hm => ⟨x,hx,hm⟩
    rw [List.foldlM_cons, matchSetting, hx]
    refine ⟨b,hb,hiff.trans ?_⟩
    rw [List.forall_mem_cons, hmatches, Bool.and_eq_true, beq_iff_eq, and_assoc]

theorem sameType_ok {type : Label} (h : ∃ l, ctx.followAliases type = .ok l) (wanted : Label) :
    ∃ b, ctx.sameType wanted type = .ok b ∧
      (b = true ↔ type = wanted ∨ ctx.followAliases type = .ok wanted) := by
  obtain ⟨l,hl⟩ := h
  rw [sameType, hl]
  by_cases htype : type = wanted
  · exact ⟨true,if_pos htype,by simp [htype]⟩
  · exact ⟨decide (l = wanted),if_neg htype,by simp [htype]⟩

theorem tryToolchain_ok {label : Label} (h : ctx.Usable key label) (wanted : Label) (exec : Labels) :
    ∃ o, ctx.tryToolchain key wanted exec label = .ok o ∧
      ∀ decl, o = some decl ↔ ctx.Serves key wanted exec label decl := by
  obtain ⟨t,ht⟩ := h.target
  rw [tryToolchain, ht]
  cases hdecl : t.toolchainDecl with
  | none =>
    refine ⟨none,by simp [hdecl, bind, Except.bind, pure, Except.pure],fun d => iff_of_false nofun fun hs => ?_⟩
    obtain ⟨t',ht',hd⟩ := hs.declared
    cases ht.symm.trans ht'
    cases hdecl.symm.trans hd
  | some decl =>
    have hserves : ∀ d, ctx.Serves key wanted exec label d ↔ decl = d ∧
        (decl.toolchainType = wanted ∨ ctx.followAliases decl.toolchainType = .ok wanted) ∧
        (ctx.Fits decl.execCompatibleWith exec ∧ ctx.Fits decl.targetCompatibleWith key.configuration.constraints) ∧
        ∀ s ∈ decl.targetSettings, ctx.Matches key.configuration s := by
      intro d
      constructor
      · intro hs
        obtain ⟨t',ht',hd⟩ := hs.declared
        cases ht.symm.trans ht'
        cases hdecl.symm.trans hd
        exact ⟨rfl,hs.type,⟨hs.exec,hs.target⟩,hs.settings⟩
      · rintro ⟨rfl,htype,⟨hexec,htarget⟩,hsettings⟩
        exact ⟨⟨t,ht,hdecl⟩,htype,hexec,htarget,hsettings⟩
    obtain ⟨same,hsame,hsameIff⟩ := sameType_ok (h.type t decl ht hdecl) wanted
    obtain ⟨execHeld,hexec,hexecIff⟩ := ctx.withDefaultsFor_ok exec decl.execCompatibleWith
    obtain ⟨targetHeld,htarget,htargetIff⟩ :=
      ctx.withDefaultsFor_ok key.configuration.constraints decl.targetCompatibleWith
    obtain ⟨settingsMatch,hmatch,hmatchIff⟩ := matchSettings_ok (h.settings t decl ht hdecl) true
    simp only [hserves, ← hsameIff, ← hexecIff, ← htargetIff, ← Bool.and_eq_true]
    simp only [hdecl, hsame, hexec, htarget, hmatch, bind, Except.bind, pure, Except.pure]
    cases same with
    | false => exact ⟨none,rfl,by simp⟩
    | true =>
      cases hboth : decl.execCompatibleWith.all execHeld.contains && decl.targetCompatibleWith.all targetHeld.contains with
      | false => exact ⟨none,by simp,by simp⟩
      | true =>
        have hrest : (∀ s ∈ decl.targetSettings, ctx.Matches key.configuration s) ↔ settingsMatch = true := by
          rw [hmatchIff]
          simp
        simp only [hrest]
        cases settingsMatch with
        | false => exact ⟨none,by simp,by simp⟩
        | true => exact ⟨some decl,by simp,by simp⟩

variable (ctx key)

/-- What the search asks of analysis. -/
structure Analyses (types : List (Label × Bool)) : Prop where
  platforms : ∃ l, ctx.executionPlatforms (extraPlatforms key) = .ok l
  registered : ∃ l, ctx.registeredToolchains (extraToolchains key) = .ok l ∧ ∀ label ∈ l, ctx.Usable key label
  types : ∀ t ∈ types, (∃ x, ctx.target ⟨t.1,key.configuration⟩ = .ok x) ∧ ∃ l, ctx.followAliases t.1 = .ok l

variable {ctx key} {types : List (Label × Bool)}

theorem resolve_ok (h : ctx.Analyses key types) {t : Label × Bool} (ht : t ∈ types) (exec : Labels) :
    ∃ o, ctx.resolve key t.1 exec = .ok o ∧ ∀ decl, o = some decl ↔ ctx.Tool key t.1 exec decl := by
  obtain ⟨l,hl,husable⟩ := h.registered
  obtain ⟨-,wanted,hwanted⟩ := h.types t ht
  have hregistered : ctx.registered key = l := by rw [registered, hl]; rfl
  have htry := fun label hlabel => tryToolchain_ok (husable label hlabel) wanted exec
  obtain ⟨o,ho,hfirst⟩ := firstSome_ok fun label hlabel => (htry label hlabel).imp fun _ h => h.1
  have hgives : ∀ label ∈ l, ∀ d, ctx.tryToolchain key wanted exec label = .ok (some d) ↔
      ctx.Serves key wanted exec label d := by
    intro label hlabel d
    obtain ⟨o,ho,hiff⟩ := htry label hlabel
    rw [ho, Except.ok.injEq, hiff]
  have hfits : ∀ label ∈ l, ctx.tryToolchain key wanted exec label ≠ .ok none ↔
      ∃ d, ctx.Serves key wanted exec label d := by
    intro label hlabel
    obtain ⟨o,ho,hiff⟩ := htry label hlabel
    simp only [ho, ← hiff, ne_eq, Except.ok.injEq, ← Option.isSome_iff_exists, ← Option.ne_none_iff_isSome]
  rw [resolve, hl, hwanted]
  refine ⟨o,ho,fun decl => (hfirst decl).trans ?_⟩
  constructor
  · rintro ⟨before,label,hin,hd⟩
    exact ⟨wanted,before,label,hwanted,hregistered ▸ hin.congr hfits,(hgives label hin.mem decl).mp hd⟩
  · rintro ⟨wanted',before,label,hw,hin,hd⟩
    cases hwanted.symm.trans hw
    rw [hregistered] at hin
    exact ⟨before,label,hin.congr fun l hl => (hfits l hl).symm,(hgives label hin.mem decl).mpr hd⟩

end Resolve

section Types

variable (ctx : Ctx) (key : Key) (types : List (Label × Bool)) (exec : Labels)

/-- What a type is given on a platform: its toolchain, analysed, or nothing if it has none. -/
def Given (t : Label × Bool) (x : Label × Option Target) : Prop :=
  x.1 = t.1 ∧ ((∃ decl done, ctx.Tool key t.1 exec decl ∧
    ctx.target ⟨decl.toolchain,key.configuration⟩ = .ok done ∧ x.2 = some done) ∨
      (∀ decl, ¬ctx.Tool key t.1 exec decl) ∧ x.2 = none)

/-- Every mandatory type has a toolchain on the platform. -/
def Complete : Prop := ∀ t ∈ types, t.2 = true → ∃ decl, ctx.Tool key t.1 exec decl

/-- The implementations of all the toolchains on the platform are analysed. -/
def AllAnalyse : Prop := ∀ t ∈ types, ∀ decl, ctx.Tool key t.1 exec decl →
  ∃ done, ctx.target ⟨decl.toolchain,key.configuration⟩ = .ok done

variable {ctx key types exec}

/-- What one type adds to the trial: what it is given, or itself to the unmet ones. -/
inductive Adds (ctx : Ctx) (key : Key) (exec : Labels) (t : Label × Bool) (s s' : Trial) : Prop where
  | given (x : Label × Option Target) : ctx.Given key exec t x →
      (t.2 = true → ∃ decl, ctx.Tool key t.1 exec decl) → s'.toolchains = s.toolchains ++ [x] →
      s'.unmet = s.unmet → Adds ctx key exec t s s'
  | unmet : t.2 = true → (∀ decl, ¬ctx.Tool key t.1 exec decl) → s'.unmet = s.unmet ++ [t.1] →
      Adds ctx key exec t s s'

theorem serveType_ok (h : ctx.Analyses key types) {t : Label × Bool} (ht : t ∈ types)
    (hall : ∀ decl, ctx.Tool key t.1 exec decl → ∃ done, ctx.target ⟨decl.toolchain,key.configuration⟩ = .ok done)
    (s : Trial) : ∃ s', ctx.serveType key exec s t = .ok s' ∧ Adds ctx key exec t s s' := by
  obtain ⟨⟨x,hx⟩,-⟩ := h.types t ht
  obtain ⟨o,ho,htool⟩ := resolve_ok h ht exec
  simp only [serveType, hx, ho, bind, Except.bind, pure, Except.pure]
  cases o with
  | some decl =>
    have hdecl := (htool decl).mp rfl
    obtain ⟨done,hdone⟩ := hall decl hdecl
    simp only [hdone]
    exact ⟨_,rfl,.given _ ⟨rfl,.inl ⟨decl,done,hdecl,hdone,rfl⟩⟩ (fun _ => ⟨decl,hdecl⟩) rfl rfl⟩
  | none =>
    have hno : ∀ decl, ¬ctx.Tool key t.1 exec decl := fun decl hd => nomatch (htool decl).mpr hd
    dsimp only
    split
    · next hmandatory => exact ⟨_,rfl,.unmet hmandatory hno rfl⟩
    · next hoptional => exact ⟨_,rfl,.given _ ⟨rfl,.inr ⟨hno,rfl⟩⟩ (fun h => absurd h hoptional) rfl rfl⟩

/-- A toolchain whose implementation is not analysed stops the search. -/
theorem serveType_error (h : ctx.Analyses key types) {t : Label × Bool} (ht : t ∈ types) {decl : ToolchainDecl}
    (hdecl : ctx.Tool key t.1 exec decl)
    (hno : ¬∃ done, ctx.target ⟨decl.toolchain,key.configuration⟩ = .ok done) (s : Trial) :
    ∃ e, ctx.serveType key exec s t = .error e := by
  obtain ⟨⟨x,hx⟩,-⟩ := h.types t ht
  obtain ⟨o,ho,htool⟩ := resolve_ok h ht exec
  simp only [serveType, hx, ho, (htool decl).mpr hdecl, bind, Except.bind]
  cases hdone : ctx.target ⟨decl.toolchain,key.configuration⟩ with
  | error e => exact ⟨e,rfl⟩
  | ok done => exact absurd ⟨done,hdone⟩ hno

theorem serveTypes_ok (h : ctx.Analyses key types) {ts : List (Label × Bool)} (hsub : ∀ t ∈ ts, t ∈ types)
    (hall : ctx.AllAnalyse key ts exec) (s : Trial) : ∃ s', ts.foldlM (ctx.serveType key exec) s = .ok s' ∧
      (ctx.Complete key ts exec → s'.unmet = s.unmet ∧
        ∃ xs, s'.toolchains = s.toolchains ++ xs ∧ List.Forall₂ (ctx.Given key exec) ts xs) ∧
      (s'.unmet = [] → s.unmet = [] ∧ ctx.Complete key ts exec) := by
  induction ts generalizing s with
  | nil => exact ⟨s,rfl,fun _ => ⟨rfl,[],by simp,.nil⟩,fun hs => ⟨hs,nofun⟩⟩
  | cons t ts ih =>
    obtain ⟨s₁,hs₁,hadds⟩ := serveType_ok h (hsub t List.mem_cons_self) (hall t List.mem_cons_self) s
    obtain ⟨s₂,hs₂,hcomplete,hunmet⟩ := ih (fun t ht => hsub t (List.mem_cons_of_mem _ ht))
      (fun t ht => hall t (List.mem_cons_of_mem _ ht)) s₁
    rw [List.foldlM_cons, hs₁]
    refine ⟨s₂,hs₂,?_⟩
    cases hadds with
    | given x hx hserved htoolchains hsame =>
      constructor
      · intro hc
        obtain ⟨hkept,xs,hxs,hgiven⟩ := hcomplete fun t ht => hc t (List.mem_cons_of_mem _ ht)
        refine ⟨hkept.trans hsame,x::xs,?_,.cons hx hgiven⟩
        rw [hxs, htoolchains, List.append_assoc, List.singleton_append]
      · intro hempty
        obtain ⟨hs,hc⟩ := hunmet hempty
        exact ⟨hsame.symm.trans hs,List.forall_mem_cons.mpr ⟨hserved,hc⟩⟩
    | unmet hmandatory hno hunmet₁ =>
      constructor
      · intro hc
        obtain ⟨decl,hdecl⟩ := hc t List.mem_cons_self hmandatory
        exact absurd hdecl (hno decl)
      · intro hempty
        rw [hunmet₁] at hunmet
        exact absurd (hunmet hempty).1 (by simp)

theorem serveTypes_error (h : ctx.Analyses key types) {ts : List (Label × Bool)} (hsub : ∀ t ∈ ts, t ∈ types)
    (hall : ¬ctx.AllAnalyse key ts exec) (s : Trial) : ∃ e, ts.foldlM (ctx.serveType key exec) s = .error e := by
  induction ts generalizing s with
  | nil => exact absurd nofun hall
  | cons t ts ih =>
    have ht := hsub t List.mem_cons_self
    rw [List.foldlM_cons]
    by_cases hhere : ∀ decl, ctx.Tool key t.1 exec decl →
        ∃ done, ctx.target ⟨decl.toolchain,key.configuration⟩ = .ok done
    · obtain ⟨s₁,hs₁,-⟩ := serveType_ok h ht hhere s
      have hrest : ¬ctx.AllAnalyse key ts exec := fun hrest => hall (List.forall_mem_cons.mpr ⟨hhere,hrest⟩)
      rw [hs₁]
      exact ih (fun t ht => hsub t (List.mem_cons_of_mem _ ht)) hrest s₁
    · simp only [not_forall] at hhere
      obtain ⟨decl,hdecl,hno⟩ := hhere
      obtain ⟨e,he⟩ := serveType_error h ht hdecl hno s
      exact ⟨e,by rw [he]; rfl⟩

end Types

section Platforms

variable {ctx : Ctx} {key : Key} {types : List (Label × Bool)}

/-- What the search has found when it takes a platform. -/
structure Found (ctx : Ctx) (key : Key) (types : List (Label × Bool)) (p : Candidate) (r : Resolved) : Prop where
  platform : r.platform = p.label
  toolchains : List.Forall₂ (ctx.Given key p.constraints) types r.toolchains

theorem tryPlatform_ok (h : ctx.Analyses key types) {p : Candidate}
    (hall : ctx.AllAnalyse key types p.constraints) (served : List Label) :
    ∃ trial, ctx.tryPlatform key types p.constraints served = .ok trial ∧
      (trial.unmet = [] ↔ ctx.Complete key types p.constraints) ∧
      (ctx.Complete key types p.constraints →
        List.Forall₂ (ctx.Given key p.constraints) types trial.toolchains) := by
  obtain ⟨trial,htrial,hcomplete,hunmet⟩ := serveTypes_ok h (fun t ht => ht) hall ⟨[],[],[],served⟩
  refine ⟨trial,htrial,⟨fun h => (hunmet h).2,fun hc => (hcomplete hc).1⟩,fun hc => ?_⟩
  obtain ⟨-,xs,hxs,hgiven⟩ := hcomplete hc
  rw [hxs]
  exact hgiven

theorem tryPlatform_error (h : ctx.Analyses key types) {p : Candidate}
    (hall : ¬ctx.AllAnalyse key types p.constraints) (served : List Label) :
    ∃ e, ctx.tryPlatform key types p.constraints served = .error e :=
  serveTypes_error h (fun _ ht => ht) hall _

theorem tryPlatforms_error {p : Candidate} {rest : List Candidate} {served : List Label}
    (he : ∃ e, ctx.tryPlatform key types p.constraints served = .error e) :
    ∃ e, ctx.tryPlatforms key types (p::rest) served = .error e := by
  obtain ⟨e,he⟩ := he
  exact ⟨e,by rw [tryPlatforms, he]; rfl⟩

theorem tryPlatforms_here {p : Candidate} {rest : List Candidate} {served : List Label} {trial : Trial}
    (htrial : ctx.tryPlatform key types p.constraints served = .ok trial) (hunmet : trial.unmet = []) :
    ctx.tryPlatforms key types (p::rest) served =
      .ok (some ⟨trial.toolchains,trial.keys,p.label⟩,trial.served) := by
  rw [tryPlatforms, htrial]
  simp [hunmet, bind, Except.bind, pure, Except.pure]

theorem tryPlatforms_later {p : Candidate} {rest : List Candidate} {served : List Label} {trial : Trial}
    (htrial : ctx.tryPlatform key types p.constraints served = .ok trial) (hunmet : trial.unmet ≠ []) :
    ctx.tryPlatforms key types (p::rest) served = ctx.tryPlatforms key types rest trial.served := by
  rw [tryPlatforms, htrial]
  cases hm : trial.unmet with
  | nil => exact absurd hm hunmet
  | cons t ts => simp [hm, bind, Except.bind]

variable {p : Candidate} {before cs : List Candidate}

/-- The search takes the first platform that is complete, if it can analyse what it
finds on the way to it. -/
theorem tryPlatforms_ok (h : ctx.Analyses key types)
    (hfirst : FirstIn (fun p => ctx.Complete key types p.constraints) cs before p)
    (hbefore : ∀ q ∈ before, ctx.AllAnalyse key types q.constraints)
    (hp : ctx.AllAnalyse key types p.constraints) (served : List Label) :
    ∃ r served', ctx.tryPlatforms key types cs served = .ok (some r,served') ∧ Found ctx key types p r := by
  induction cs generalizing before served with
  | nil => exact absurd hfirst not_first_nil
  | cons q cs ih =>
    rcases first_cons.mp hfirst with ⟨hq,rfl,rfl⟩ | ⟨hq,rest,rfl,hrest⟩
    · obtain ⟨trial,htrial,hunmet,hgiven⟩ := tryPlatform_ok h hp served
      exact ⟨_,_,tryPlatforms_here htrial (hunmet.mpr hq),rfl,hgiven hq⟩
    · obtain ⟨trial,htrial,hunmet,-⟩ := tryPlatform_ok h (hbefore q List.mem_cons_self) served
      rw [tryPlatforms_later htrial fun hempty => hq (hunmet.mp hempty)]
      exact ih hrest (fun q hq => hbefore q (List.mem_cons_of_mem _ hq)) _

/-- What it cannot analyse on the way stops it. -/
theorem tryPlatforms_stopped (h : ctx.Analyses key types)
    (hfirst : FirstIn (fun p => ctx.Complete key types p.constraints) cs before p)
    (hno : ¬((∀ q ∈ before, ctx.AllAnalyse key types q.constraints) ∧ ctx.AllAnalyse key types p.constraints))
    (served : List Label) : ∃ e, ctx.tryPlatforms key types cs served = .error e := by
  induction cs generalizing before served with
  | nil => exact absurd hfirst not_first_nil
  | cons q cs ih =>
    by_cases hall : ctx.AllAnalyse key types q.constraints
    · obtain ⟨trial,htrial,hunmet,-⟩ := tryPlatform_ok h hall served
      rcases first_cons.mp hfirst with ⟨hq,rfl,rfl⟩ | ⟨hq,rest,rfl,hrest⟩
      · exact absurd ⟨nofun,hall⟩ hno
      · rw [tryPlatforms_later htrial fun hempty => hq (hunmet.mp hempty)]
        exact ih hrest (fun hrest' => hno ⟨List.forall_mem_cons.mpr ⟨hall,hrest'.1⟩,hrest'.2⟩) _
    · exact tryPlatforms_error (tryPlatform_error h hall served)

theorem tryPlatforms_none (h : ctx.Analyses key types)
    (hno : ∀ q ∈ cs, ¬ctx.Complete key types q.constraints) (served : List Label) :
    (∃ e, ctx.tryPlatforms key types cs served = .error e) ∨
      ∃ served', ctx.tryPlatforms key types cs served = .ok (none,served') := by
  induction cs generalizing served with
  | nil => exact .inr ⟨served,rfl⟩
  | cons q cs ih =>
    by_cases hall : ctx.AllAnalyse key types q.constraints
    · obtain ⟨trial,htrial,hunmet,-⟩ := tryPlatform_ok h hall served
      rw [tryPlatforms_later htrial fun hempty => hno q List.mem_cons_self (hunmet.mp hempty)]
      exact ih (fun q hq => hno q (List.mem_cons_of_mem _ hq)) _
    · exact .inl (tryPlatforms_error (tryPlatform_error h hall served))

theorem candidates_ok (exec : List Label) (ps : List Candidate) : ∃ fits : Candidate → Bool,
    (∀ p, fits p = true ↔ ctx.Fits exec p.constraints) ∧ ctx.candidates exec ps = .ok (ps.filter fits) := by
  classical
  refine ⟨fun p => decide (ctx.Fits exec p.constraints),fun p => decide_eq_true_iff,?_⟩
  induction ps with
  | nil => rfl
  | cons p ps ih =>
    obtain ⟨b,hb,hiff⟩ := ctx.hasAll_ok exec p.constraints
    rw [candidates, hb, ih, List.filter_cons]
    simp only [bind, Except.bind, pure, Except.pure, decide_eq_true_iff, ← hiff]

end Platforms

section Chosen

variable (ctx : Ctx) (key : Key) (types : List (Label × Bool)) (exec : List Label)

def platforms : List ExecPlatform := (ctx.executionPlatforms (extraPlatforms key)).toOption.getD []

def tried : List Candidate := orTarget key (ctx.platforms key)

/-- The platform has what is asked of it, and a toolchain for each mandatory type. -/
def Good (p : Candidate) : Prop := ctx.Fits exec p.constraints ∧ ctx.Complete key types p.constraints

/-- The configuration for tools that run on the platform. -/
def toolConfiguration (p : Candidate) : Configuration :=
  match p.label with
  | some label => key.configuration.toExecOn ctx.host label p.constraints
  | none => key.configuration.toExec ctx.host

/-- The platform is taken, with its toolchains, and the tools are built for it. A rule
that asks for no type has no platform taken here. -/
structure Picks (p : Candidate) (r : Resolved) : Prop where
  platform : types ≠ [] → r.platform = p.label
  toolchains : List.Forall₂ (ctx.Given key p.constraints) types r.toolchains
  configuration : ctx.execConfiguration key r.platform exec = .ok (ctx.toolConfiguration key p)

/-- The first good platform is taken, unless what it has cannot be analysed. -/
def ResolvesFirst : Prop :=
  match ctx.resolveToolchains key types exec with
  | .ok r => ∃ before p, FirstIn (ctx.Good key types exec) (ctx.tried key) before p ∧ ctx.Picks key types exec p r
  | .error _ => ∀ before p, FirstIn (ctx.Good key types exec) (ctx.tried key) before p →
      ¬ctx.AllAnalyse key types p.constraints

/-- The first platform of the same name has the same constraints. -/
def SameByName (p : Candidate) : Prop :=
  ∀ before q, FirstIn (fun q => q.label = p.label) (ctx.tried key) before q → q.constraints = p.constraints

/-- A rule that asks for no type has a platform; and what is found on the platforms that are
passed over can be analysed too, and none of them has the name of the one that is taken. -/
structure Settled : Prop where
  untyped : types = [] → ∃ p ∈ ctx.tried key, ctx.Fits exec p.constraints
  passed : ∀ before p, FirstIn (ctx.Good key types exec) (ctx.tried key) before p →
    ctx.AllAnalyse key types p.constraints → types ≠ [] →
      (∀ q ∈ before, ctx.Fits exec q.constraints → ctx.AllAnalyse key types q.constraints) ∧
        ctx.SameByName key p

variable {ctx key types exec} {before : List Candidate} {p : Candidate} {r : Resolved}

/-- The platforms under their names, in the order they are tried. -/
theorem tried_cases {ps : List ExecPlatform} (h : ctx.executionPlatforms (extraPlatforms key) = .ok ps) :
    (ps = [] ∧ ctx.tried key = [⟨none,key.configuration.constraints⟩]) ∨
      (ps ≠ [] ∧ ctx.tried key = ps.map fun p => ⟨some p.label,p.constraints⟩) := by
  have hplatforms : ctx.platforms key = ps := by rw [platforms, h]; rfl
  rw [tried, hplatforms]
  cases ps with
  | nil => exact .inl ⟨rfl,rfl⟩
  | cons p ps => exact .inr ⟨by simp,rfl⟩

/-- With no name given, the platform is looked for again. -/
theorem execConfiguration_unnamed (h : ctx.Analyses key types)
    (hfirst : FirstIn (fun p => ctx.Fits exec p.constraints) (ctx.tried key) before p) :
    ctx.execConfiguration key none exec = .ok (ctx.toolConfiguration key p) := by
  obtain ⟨ps,hps⟩ := h.platforms
  rw [execConfiguration, hps]
  rcases tried_cases hps with ⟨rfl,htried⟩ | ⟨-,htried⟩
  · rw [htried] at hfirst
    rw [List.mem_singleton.mp hfirst.mem]
    rfl
  · rw [htried] at hfirst
    obtain ⟨passed,q,hq,rfl⟩ := hfirst.of_map
    have hwanted : ∀ x, ∃ b, ctx.isWanted none exec x = .ok (if b = true then some x else none) ∧
        (b = true ↔ ctx.Fits exec x.constraints) := by
      intro x
      obtain ⟨b,hb,hiff⟩ := ctx.hasAll_ok exec x.constraints
      exact ⟨b,by rw [isWanted, hb]; rfl,hiff⟩
    have hsome : firstSome (ctx.isWanted none exec) ps = .ok (some q) := by
      refine firstSome_first hq ?_ fun y _ hy => ?_
      · obtain ⟨b,hb,hiff⟩ := hwanted q
        rw [hb, if_pos (hiff.mpr hq.fits)]
      · obtain ⟨b,hb,hiff⟩ := hwanted y
        rw [hb, if_neg (mt hiff.mp hy)]
    simp only [hsome, bind, Except.bind]
    rfl

/-- Looked up by its name, the platform is found again if it is the first of that name. -/
theorem execConfiguration_iff (exec : List Label) (h : ctx.Analyses key types) (hp : p ∈ ctx.tried key) :
    ctx.execConfiguration key p.label exec = .ok (ctx.toolConfiguration key p) ↔ ctx.SameByName key p := by
  obtain ⟨ps,hps⟩ := h.platforms
  rw [SameByName, execConfiguration, hps]
  rcases tried_cases hps with ⟨rfl,htried⟩ | ⟨-,htried⟩
  · rw [htried] at hp ⊢
    rw [List.mem_singleton.mp hp]
    refine iff_of_true rfl fun before q hq => ?_
    rw [List.mem_singleton.mp hq.mem]
  · rw [htried] at hp ⊢
    obtain ⟨p,hmem,rfl⟩ := List.mem_map.mp hp
    obtain ⟨passed,q,hq⟩ := exists_first (P := fun q : ExecPlatform => q.label = p.label) hmem rfl
    have hsome : firstSome (ctx.isWanted (some p.label) exec) ps = .ok (some q) := by
      refine firstSome_first hq ?_ fun y _ hy => ?_
      · simp [isWanted, hq.fits, bind, Except.bind, pure, Except.pure]
      · simp [isWanted, hy, bind, Except.bind, pure, Except.pure]
    have hnamed : FirstIn (fun q : Candidate => q.label = some p.label)
        (ps.map fun p => ⟨some p.label,p.constraints⟩) _ ⟨some q.label,q.constraints⟩ :=
      FirstIn.map (hq.congr fun y _ => Option.some_inj.symm)
    simp only [hsome, bind, Except.bind, pure, Except.pure, toolConfiguration, hq.fits, Except.ok.injEq]
    constructor
    · intro heq before x hx
      rw [(hx.unique hnamed).2]
      exact congrArg Configuration.constraints heq
    · intro hsame
      rw [show q.constraints = p.constraints from hsame _ _ hnamed]

theorem complete_nil (platform : Labels) : ctx.Complete key [] platform := nofun

/-- What comes of a rule that asks for some types. -/
theorem resolveToolchains_cases (exec : List Label) (h : ctx.Analyses key types) (htypes : types ≠ []) :
    (∀ before p, FirstIn (ctx.Good key types exec) (ctx.tried key) before p →
      ((∀ q ∈ before, ctx.Fits exec q.constraints → ctx.AllAnalyse key types q.constraints) →
        ctx.AllAnalyse key types p.constraints →
          ∃ r, ctx.resolveToolchains key types exec = .ok r ∧ Found ctx key types p r) ∧
      (¬((∀ q ∈ before, ctx.Fits exec q.constraints → ctx.AllAnalyse key types q.constraints) ∧
        ctx.AllAnalyse key types p.constraints) → ∃ e, ctx.resolveToolchains key types exec = .error e)) ∧
    ((∀ p ∈ ctx.tried key, ¬ctx.Good key types exec p) → ∃ e, ctx.resolveToolchains key types exec = .error e) := by
  obtain ⟨ps,hps⟩ := h.platforms
  have htried : orTarget key ps = ctx.tried key := by
    rw [tried, platforms, hps]
    rfl
  obtain ⟨fits,hfits,hcandidates⟩ := ctx.candidates_ok exec (ctx.tried key)
  have hresult : ∀ r served, ctx.tryPlatforms key types ((ctx.tried key).filter fits) [] = .ok (some r,served) →
      ctx.resolveToolchains key types exec = .ok r := by
    intro r served hr
    rw [resolveToolchains, if_neg htypes, hps]
    simp only [htried, hcandidates, hr, bind, Except.bind, pure, Except.pure]
  have hnothing : ∀ served, ctx.tryPlatforms key types ((ctx.tried key).filter fits) [] = .ok (none,served) →
      ∃ e, ctx.resolveToolchains key types exec = .error e := by
    intro served hserved
    rw [resolveToolchains, if_neg htypes, hps]
    simp only [htried, hcandidates, hserved, bind, Except.bind]
    exact ⟨_,rfl⟩
  have herror : (∃ e, ctx.tryPlatforms key types ((ctx.tried key).filter fits) [] = .error e) →
      ∃ e, ctx.resolveToolchains key types exec = .error e := by
    rintro ⟨e,he⟩
    rw [resolveToolchains, if_neg htypes, hps]
    simp only [htried, hcandidates, he, bind, Except.bind]
    exact ⟨e,rfl⟩
  constructor
  · intro before p hfirst
    have hfirst' := (hfirst.congr (fun y _ => and_congr_left' (hfits y).symm)).filter
    have hpassed : (∀ q ∈ before.filter fits, ctx.AllAnalyse key types q.constraints) ↔
        ∀ q ∈ before, ctx.Fits exec q.constraints → ctx.AllAnalyse key types q.constraints := by
      simp only [List.mem_filter, hfits, and_imp]
    rw [← hpassed]
    constructor
    · intro hbefore hp
      obtain ⟨r,served,hr,hfound⟩ := tryPlatforms_ok h hfirst' hbefore hp []
      exact ⟨r,hresult r served hr,hfound⟩
    · exact fun hno => herror (tryPlatforms_stopped h hfirst' hno [])
  · intro hno
    have hnone : ∀ q ∈ (ctx.tried key).filter fits, ¬ctx.Complete key types q.constraints := by
      intro q hq hc
      obtain ⟨hmem,hq⟩ := List.mem_filter.mp hq
      exact hno q hmem ⟨(hfits q).mp hq,hc⟩
    rcases tryPlatforms_none h hnone [] with he | ⟨served,hserved⟩
    · exact herror he
    · exact hnothing served hserved

/-- Nothing is resolved for a rule that asks for no type. -/
theorem resolvesFirst_untyped (h : ctx.Analyses key []) :
    ctx.ResolvesFirst key [] exec ↔ ∃ p ∈ ctx.tried key, ctx.Fits exec p.constraints := by
  have hgood : ∀ p ∈ ctx.tried key, ctx.Good key [] exec p ↔ ctx.Fits exec p.constraints :=
    fun p _ => and_iff_left (complete_nil p.constraints)
  have hrun : ctx.resolveToolchains key [] exec = .ok ⟨[],[],none⟩ := by rw [resolveToolchains, if_pos rfl]
  rw [ResolvesFirst, hrun]
  constructor
  · rintro ⟨before,p,hfirst,-⟩
    exact ⟨p,hfirst.mem,hfirst.fits.1⟩
  · rintro ⟨p,hp,hfits⟩
    obtain ⟨before,p,hfirst⟩ := exists_first hp ((hgood p hp).mpr hfits)
    exact ⟨before,p,hfirst,⟨fun hne => absurd rfl hne,.nil,execConfiguration_unnamed h (hfirst.congr hgood)⟩⟩

theorem picks_iff (exec : List Label) (h : ctx.Analyses key types) (htypes : types ≠ []) (hp : p ∈ ctx.tried key)
    (hfound : Found ctx key types p r) : ctx.Picks key types exec p r ↔ ctx.SameByName key p := by
  rw [← execConfiguration_iff exec h hp, ← hfound.platform]
  exact ⟨fun hpicks => hpicks.configuration,fun hc => ⟨fun _ => hfound.platform,hfound.toolchains,hc⟩⟩

end Chosen

end Ctx

/-- The toolchains of a rule are those of the first platform that has them, just when what is
found on the platforms before it can be analysed and its name is not theirs with other constraints;
and a rule that asks for none has some platform. -/
theorem resolution_iff (ctx : Ctx) (key : Key) (types : List (Label × Bool)) (exec : List Label)
    (h : ctx.Analyses key types) : ctx.ResolvesFirst key types exec ↔ ctx.Settled key types exec := by
  by_cases htypes : types = []
  · subst htypes
    rw [Ctx.resolvesFirst_untyped h]
    exact ⟨fun hsome => ⟨fun _ => hsome,fun _ _ _ _ hne => absurd rfl hne⟩,fun hs => hs.untyped rfl⟩
  · obtain ⟨hfirst,hnone⟩ := Ctx.resolveToolchains_cases exec h htypes
    by_cases hex : ∃ before p, FirstIn (ctx.Good key types exec) (ctx.tried key) before p
    · obtain ⟨before,p,hin⟩ := hex
      obtain ⟨hok,hstopped⟩ := hfirst before p hin
      have hsettled : ctx.Settled key types exec ↔ (ctx.AllAnalyse key types p.constraints →
          (∀ q ∈ before, ctx.Fits exec q.constraints → ctx.AllAnalyse key types q.constraints) ∧
            ctx.SameByName key p) := by
        constructor
        · exact fun hs hp => hs.passed before p hin hp htypes
        · refine fun hs => ⟨fun hempty => absurd hempty htypes,fun before' p' hin' hp _ => ?_⟩
          obtain ⟨rfl,rfl⟩ := hin.unique hin'
          exact hs hp
      rw [hsettled, Ctx.ResolvesFirst]
      by_cases hall : (∀ q ∈ before, ctx.Fits exec q.constraints → ctx.AllAnalyse key types q.constraints) ∧
          ctx.AllAnalyse key types p.constraints
      · obtain ⟨r,hr,hfound⟩ := hok hall.1 hall.2
        have hpicks := Ctx.picks_iff exec h htypes hin.mem hfound
        rw [hr]
        constructor
        · rintro ⟨before',p',hin',hp⟩ -
          obtain ⟨rfl,rfl⟩ := hin.unique hin'
          exact ⟨hall.1,hpicks.mp hp⟩
        · exact fun hs => ⟨before,p,hin,hpicks.mpr (hs hall.2).2⟩
      · obtain ⟨e,he⟩ := hstopped hall
        rw [he]
        constructor
        · exact fun hno hp => absurd hp (hno before p hin)
        · intro hs before' p' hin' hp
          obtain ⟨rfl,rfl⟩ := hin.unique hin'
          exact hall ⟨(hs hp).1,hp⟩
    · have hnogood : ∀ p ∈ ctx.tried key, ¬ctx.Good key types exec p :=
        fun p hp hgood => hex (exists_first hp hgood)
      obtain ⟨e,he⟩ := hnone hnogood
      rw [Ctx.ResolvesFirst, he]
      refine iff_of_true (fun before p hin => absurd ⟨before,p,hin⟩ hex) ⟨fun hempty => absurd hempty htypes,?_⟩
      exact fun before p hin => absurd ⟨before,p,hin⟩ hex

section TwoPlatforms

def inP (name : String) : Label := ⟨"","p",name⟩

/-- A toolchain of one type that only the first platform can use, and whose implementation
is not there; one of that type and one of another for the second. -/
def declared : String → Option ToolchainDecl
  | "a" => some ⟨inP "t",inP "missing",[inP "left"],[],[]⟩
  | "b" => some ⟨inP "t",inP "tool",[inP "right"],[],[]⟩
  | "c" => some ⟨inP "u",inP "tool",[inP "right"],[],[]⟩
  | _ => none

def analysed : List Label := ["a","b","c","t","u","tool"].map inP

def targetAt (k : Key) : Except String Target :=
  if k.label ∈ analysed then .ok ⟨k.label,[],declared k.label.name,none,none⟩ else .error "no such target"

def having (value : String) : Labels := (∅ : Labels).insert (inP value)

def linux : Host := ⟨"linux","x86_64"⟩

theorem targetAt_ok {k : Key} {t : Target} (h : targetAt k = .ok t) :
    k.label ∈ analysed ∧ t = ⟨k.label,[],declared k.label.name,none,none⟩ := by
  rw [targetAt] at h
  split at h
  · next hmem =>
    cases h
    exact ⟨hmem,rfl⟩
  · cases h

def twoPlatforms : Ctx where
  host := linux
  target := targetAt
  package _ _ := .ok fun _ => none
  executionPlatforms _ := .ok [⟨inP "first",having "left"⟩,⟨inP "second",having "right"⟩]
  registeredToolchains _ := .ok (["a","b","c"].map inP)
  checksum _ := ""
  settings value t setting h hs := by
    rw [(targetAt_ok h).2] at hs
    cases hs

def built : Key := ⟨inP "x",.default linux⟩

def bothTypes : List (Label × Bool) := [(inP "t",true),(inP "u",true)]

theorem target_there {l : Label} (h : l ∈ analysed) (c : Configuration) : ∃ t, twoPlatforms.target ⟨l,c⟩ = .ok t :=
  ⟨⟨l,[],declared l.name,none,none⟩,if_pos h⟩

theorem target_missing {l : Label} {c : Configuration} {t : Target} (h : twoPlatforms.target ⟨l,c⟩ = .ok t) :
    l ∈ analysed := by
  have hat : targetAt ⟨l,c⟩ = .ok t := h
  exact (targetAt_ok hat).1

theorem declared_settings {name : String} {d : ToolchainDecl} (h : declared name = some d) : d.targetSettings = [] := by
  unfold declared at h
  split at h
  all_goals
    cases h
    try rfl

theorem follows (l : Label) : twoPlatforms.followAliases l = .ok l := rfl

theorem mem_having {value : String} {l : Label} : l ∈ having value ↔ l = inP value := by
  rw [having, Std.ExtTreeSet.mem_insert, Std.LawfulEqOrd.compare_eq_iff_eq, eq_comm]
  exact or_iff_left Std.ExtTreeSet.not_mem_empty

theorem has_iff {value : String} {platform : Labels} (h : inP value ∉ analysed) :
    twoPlatforms.Has platform (inP value) ↔ inP value ∈ platform := by
  refine or_iff_left ?_
  rintro ⟨t,-,-,ht,-⟩
  exact h (targetAt_ok ht).1

theorem serves {type name : String} {platform : Labels} {d : ToolchainDecl}
    (h : twoPlatforms.Serves built (inP type) platform (inP name) d) :
    declared name = some d ∧ d.toolchainType = inP type ∧ ∀ c ∈ d.execCompatibleWith, twoPlatforms.Has platform c := by
  obtain ⟨t,ht,hd⟩ := h.declared
  rw [(targetAt_ok ht).2] at hd
  refine ⟨hd,?_,h.exec⟩
  rcases h.type with htype | htype
  · exact htype
  · exact Except.ok.inj htype

theorem serving (type name value : String) {tool : Label} (hname : inP name ∈ analysed)
    (hd : declared name = some ⟨inP type,tool,[inP value],[],[]⟩) (hvalue : inP value ∉ analysed) :
    twoPlatforms.Serves built (inP type) (having value) (inP name) ⟨inP type,tool,[inP value],[],[]⟩ where
  declared := ⟨_,if_pos hname,hd⟩
  type := .inl rfl
  exec := by
    intro c hc
    rw [List.mem_singleton.mp hc, has_iff hvalue, mem_having]
  target := nofun
  settings := nofun

/-- A toolchain that is found is a registered one that serves the type. -/
theorem tool_serves {type : String} {platform : Labels} {d : ToolchainDecl}
    (h : twoPlatforms.Tool built (inP type) platform d) :
    ∃ name ∈ ["a","b","c"], twoPlatforms.Serves built (inP type) platform (inP name) d := by
  obtain ⟨wanted,before,label,hwanted,hin,hserves⟩ := h
  cases (follows (inP type)).symm.trans hwanted
  obtain ⟨name,hname,rfl⟩ := List.mem_map.mp hin.mem
  exact ⟨name,hname,hserves⟩

theorem tool_of_serves {type : String} (name : String) {platform : Labels} {d : ToolchainDecl}
    (hname : name ∈ ["a","b","c"]) (h : twoPlatforms.Serves built (inP type) platform (inP name) d) :
    ∃ d, twoPlatforms.Tool built (inP type) platform d := by
  have hmem : inP name ∈ twoPlatforms.registered built := List.mem_map_of_mem hname
  obtain ⟨before,label,hin⟩ := exists_first
    (P := fun l => ∃ d, twoPlatforms.Serves built (inP type) platform l d) hmem ⟨d,h⟩
  obtain ⟨d,hd⟩ := hin.fits
  exact ⟨d,_,before,label,follows _,hin,hd⟩

theorem first_incomplete : ¬twoPlatforms.Complete built bothTypes (having "left") := by
  intro h
  obtain ⟨d,hd⟩ := h (inP "u",true) (by simp [bothTypes]) rfl
  obtain ⟨name,hname,hserves⟩ := tool_serves hd
  obtain ⟨hdeclared,htype,hexec⟩ := serves hserves
  have hlabels : inP "t" ≠ inP "u" := by decide
  rcases List.mem_cons.mp hname with rfl | hname
  · cases hdeclared
    exact hlabels htype
  rcases List.mem_cons.mp hname with rfl | hname
  · cases hdeclared
    exact hlabels htype
  cases List.mem_singleton.mp hname
  cases hdeclared
  have hright := hexec _ List.mem_cons_self
  rw [has_iff (by decide), mem_having] at hright
  exact absurd hright (by decide)

theorem second_complete : twoPlatforms.Complete built bothTypes (having "right") := by
  intro t ht _
  rcases List.mem_cons.mp ht with rfl | ht
  · exact tool_of_serves "b" (by simp) (serving "t" "b" "right" (by decide) rfl (by decide))
  · cases List.mem_singleton.mp ht
    exact tool_of_serves "c" (by simp) (serving "u" "c" "right" (by decide) rfl (by decide))

/-- What only the first platform can use is not there. -/
theorem first_missing : ¬twoPlatforms.AllAnalyse built bothTypes (having "left") := by
  intro h
  have hserves := serving "t" "a" "left" (by decide) rfl (by decide)
  have hin : FirstIn (fun l => ∃ d, twoPlatforms.Serves built (inP "t") (having "left") l d)
      (twoPlatforms.registered built) [] (inP "a") := first_here ⟨_,hserves⟩
  obtain ⟨done,hdone⟩ := h (inP "t",true) List.mem_cons_self _ ⟨_,[],inP "a",follows _,hin,hserves⟩
  have hmissing : inP "missing" ∈ analysed := target_missing hdone
  exact absurd hmissing (by decide)

theorem right_tool {type : String} {d : ToolchainDecl}
    (h : twoPlatforms.Tool built (inP type) (having "right") d) : d.toolchain = inP "tool" := by
  obtain ⟨name,hname,hserves⟩ := tool_serves h
  obtain ⟨hdeclared,-,hexec⟩ := serves hserves
  rcases List.mem_cons.mp hname with rfl | hname
  · cases hdeclared
    have hleft := hexec _ List.mem_cons_self
    rw [has_iff (by decide), mem_having] at hleft
    exact absurd hleft (by decide)
  rcases List.mem_cons.mp hname with rfl | hname
  · cases hdeclared
    rfl
  · cases List.mem_singleton.mp hname
    cases hdeclared
    rfl

theorem second_analysed : twoPlatforms.AllAnalyse built bothTypes (having "right") := by
  intro t ht d hd
  obtain ⟨type,hname⟩ : ∃ type, t.1 = inP type := by
    rcases List.mem_pair.mp ht with rfl | rfl
    · exact ⟨"t",rfl⟩
    · exact ⟨"u",rfl⟩
  rw [hname] at hd
  rw [right_tool hd]
  exact target_there (by decide) _

theorem two_analyse : twoPlatforms.Analyses built bothTypes where
  platforms := ⟨_,rfl⟩
  registered := by
    refine ⟨_,rfl,fun label hlabel => ?_⟩
    have hmem : label ∈ analysed := List.mem_append_left (["t","u","tool"].map inP) hlabel
    refine ⟨target_there hmem _,fun t d _ _ => ⟨_,follows _⟩,fun t d ht hd s hs => ?_⟩
    have hat : targetAt ⟨label,built.configuration⟩ = .ok t := ht
    rw [(targetAt_ok hat).2] at hd
    rw [declared_settings hd] at hs
    cases hs
  types := by
    intro t ht
    rcases List.mem_pair.mp ht with rfl | rfl
    · exact ⟨target_there (by decide) _,_,follows _⟩
    · exact ⟨target_there (by decide) _,_,follows _⟩

/-- The second platform has a toolchain for both types, but the search ends at the first. -/
theorem passed_over_stops : twoPlatforms.Analyses built bothTypes ∧ ¬twoPlatforms.ResolvesFirst built bothTypes [] := by
  refine ⟨two_analyse,fun h => ?_⟩
  have hfits : ∀ platform, twoPlatforms.Fits [] platform := fun platform => nofun
  have hfirst : FirstIn (twoPlatforms.Good built bothTypes []) (twoPlatforms.tried built)
      [⟨some (inP "first"),having "left"⟩] ⟨some (inP "second"),having "right"⟩ :=
    (first_here ⟨hfits _,second_complete⟩).later fun hgood => first_incomplete hgood.2
  obtain ⟨e,he⟩ := ((Ctx.resolveToolchains_cases [] two_analyse (by decide)).1 _ _ hfirst).2
    fun hall => first_missing (hall.1 _ List.mem_cons_self (hfits _))
  rw [Ctx.ResolvesFirst, he] at h
  exact h _ _ hfirst second_analysed

theorem resolution_iff_two :
    twoPlatforms.ResolvesFirst built bothTypes [] ↔ twoPlatforms.Settled built bothTypes [] :=
  resolution_iff twoPlatforms built bothTypes [] two_analyse

end TwoPlatforms

end BuildFiji.Toolchains
