import BuildFiji.Bzlmod.Resolve

/-!
# What the yanked check sees

The check asks about a name: the first registry that has anything about it
answers, from the lockfile or from its `metadata.json`, whichever registry the
selected version came from. So a version that its own registry has yanked is
refused exactly when that answer has it as well, or when the resolution fails
over another module.
-/

set_option autoImplicit false
set_option linter.all false

namespace BuildFiji.Bzlmod

section Answer
variable (source : RegistrySource)

/-- The registry has nothing about the name. -/
def Silent (name : String) (r : Registry) : Prop :=
  r.lockedYanked name = none ∧ r.metadata source.readJson name = .ok none

/-- What it has lists the version, or cannot be read. -/
def Lists (key : ModuleKey) (r : Registry) : Prop :=
  match r.lockedYanked key.name with
  | some locked => key.version ∈ locked
  | none => ∀ metadata, r.metadata source.readJson key.name = .ok (some metadata) →
      key.version ∈ metadata.yankedVersions

/-- The first registry that is not silent about the name lists the version. -/
inductive FirstLists (key : ModuleKey) : List Registry → Prop where
  | here {r : Registry} {rest : List Registry} (hr : ¬Silent source key.name r)
      (hl : Lists source key r) : FirstLists key (r::rest)
  | next {r : Registry} {rest : List Registry} (hr : Silent source key.name r)
      (hrest : FirstLists key rest) : FirstLists key (r::rest)

/-- The registry that the module file came from has the version as yanked. -/
def OwnYanked (p : ModuleKey × Module) : Prop :=
  ∃ r ∈ source.all, p.2.registry = some r.url ∧
    ∃ metadata, r.metadata source.readJson p.1.name = .ok (some metadata) ∧
      p.1.version ∈ metadata.yankedVersions

variable {source} {key : ModuleKey} {r : Registry} {rest : List Registry}

theorem firstLists_cons :
    FirstLists source key (r::rest) ↔
      (¬Silent source key.name r ∧ Lists source key r) ∨
      (Silent source key.name r ∧ FirstLists source key rest) := by
  constructor
  · intro h
    cases h with
    | here hr hl => exact .inl ⟨hr,hl⟩
    | next hr hrest => exact .inr ⟨hr,hrest⟩
  · rintro (⟨hr,hl⟩ | ⟨hr,hrest⟩)
    · exact .here hr hl
    · exact .next hr hrest

theorem firstLists_iff (rs : List Registry) :
    FirstLists source key rs ↔
      ∀ versions, source.firstYanked key.name rs = .ok versions → key.version ∈ versions := by
  induction rs with
  | nil =>
    constructor
    · intro h
      cases h
    · intro h
      exact absurd (h ∅ rfl) Std.ExtTreeMap.not_mem_empty
  | cons r rest ih =>
    rw [firstLists_cons, ih, RegistrySource.firstYanked]
    unfold Silent Lists
    cases r.lockedYanked key.name with
    | some locked => simp
    | none =>
      cases r.metadata source.readJson key.name with
      | error e => simp [bind, Except.bind]
      | ok found =>
        cases found with
        | none => simp [bind, Except.bind]
        | some metadata => simp [bind, Except.bind, pure, Except.pure]

end Answer

section Check
variable {source : RegistrySource} {options : ResolveOptions}

/-- A selected version the check stops at. -/
def Stops (source : RegistrySource) (key : ModuleKey) : Prop :=
  key.version ≠ .empty ∧ FirstLists source key source.all

theorem checkYankedKey_ok (hdeny : options.yanked = .deny) (yanked : List (ModuleKey × String))
    (key : ModuleKey) :
    (∃ yanked', checkYankedKey source options yanked key = .ok yanked') ↔ ¬Stops source key := by
  unfold checkYankedKey Stops
  rw [firstLists_iff]
  split
  · next he => simp [Version.isEmpty_iff.mp he]
  · next he =>
    have hne : key.version ≠ .empty := fun h => he (Version.isEmpty_iff.mpr h)
    unfold RegistrySource.metadataYanked
    cases source.firstYanked key.name source.all with
    | error e => simp [hne]
    | ok versions =>
      simp only [hne, ne_eq, not_false_eq_true, true_and, Except.ok.injEq, forall_eq',
        Std.ExtTreeMap.mem_iff_isSome_getElem?, hdeny, YankedPolicy.allows]
      cases versions[key.version]? with
      | none => simp
      | some reason => simp

theorem checkYanked_ok (hdeny : options.yanked = .deny) (selection : Selection) :
    (∃ yanked, checkYanked source options selection = .ok yanked) ↔
      ∀ p ∈ selection.resolved, ¬Stops source p.1 := by
  rw [checkYanked, if_neg (by simp [hdeny]), Fallible.foldlM_ok (checkYankedKey_ok hdeny)]
  simp [mem_hashMapOrder]

/-- Its `source.json` cannot be read. -/
def Unsourced (source : RegistrySource) (p : ModuleKey × Module) : Prop :=
  ∃ url e, p.2.registry = some url ∧ source.readSource p.1 url = .error e

theorem readSources_ok (resolved : List (ModuleKey × Module)) :
    readSources source resolved = .ok () ↔ ∀ p ∈ resolved, ¬Unsourced source p := by
  induction resolved with
  | nil => simp [readSources]
  | cons p rest ih =>
    obtain ⟨key,module⟩ := p
    rw [readSources, List.forall_mem_cons, ← ih]
    unfold Unsourced
    cases hreg : module.registry with
    | none => simp
    | some url => cases hread : source.readSource key url with
      | error e => simp [hread]
      | ok u => simp [hread]

/-- What makes a resolution fail after the selection. -/
def Refused (source : RegistrySource) (options : ResolveOptions) (selection : Selection) : Prop :=
  (∃ p ∈ selection.resolved, Stops source p.1) ∨
    options.forLockfile = true ∧ ∃ p ∈ selection.resolved, Unsourced source p

theorem resolveSelected_ok {root : ModuleFile} {overrides : Overrides} {selection : Selection}
    {res : Resolution} :
    resolveSelected source options root overrides selection = .ok res ↔
      ∃ yanked, checkYanked source options selection = .ok yanked ∧
        (options.forLockfile = true → readSources source selection.resolved = .ok ()) ∧
        res = ⟨root.module,overrides,selection,yanked⟩ := by
  unfold resolveSelected
  rw [Fallible.bind_ok]
  refine exists_congr fun yanked => and_congr_right fun _ => ?_
  cases options.forLockfile with
  | false => simp [pure, Except.pure, eq_comm]
  | true =>
    cases readSources source selection.resolved with
    | error e => simp [Functor.map, Except.map]
    | ok u => simp [pure, Except.pure, bind, Except.bind, eq_comm]

theorem resolveSelected_refused (hdeny : options.yanked = .deny) (root : ModuleFile)
    (overrides : Overrides) (selection : Selection) :
    (∃ res, resolveSelected source options root overrides selection = .ok res) ↔
      ¬Refused source options selection := by
  have hcheck := @checkYanked_ok source options hdeny selection
  have hread := @readSources_ok source selection.resolved
  simp only [resolveSelected_ok, Refused, not_or, not_and, not_exists]
  constructor
  · rintro ⟨-,yanked,hy,hr,-⟩
    exact ⟨hcheck.mp ⟨yanked,hy⟩,fun hl => hread.mp (hr hl)⟩
  · rintro ⟨hs,hu⟩
    obtain ⟨yanked,hy⟩ := hcheck.mpr hs
    exact ⟨_,yanked,hy,fun hl => hread.mpr (hu hl),rfl⟩

end Check

section Deny
variable (starlark : Starlark) (debug : ModuleOverride → String) (source : RegistrySource)
  (options : ResolveOptions) (rootModuleFile : String)

/-- A resolution that denies yanked versions lets none through that the registry
it came from has yanked. -/
def DeniesOwnYanked : Prop :=
  ∀ fuel res, resolveModules starlark debug source { options with yanked := .deny } rootModuleFile
    fuel = some (.ok res) →
    ∀ p ∈ res.selection.resolved, p.1.version ≠ .empty → ¬OwnYanked source p

variable {starlark debug source options rootModuleFile}

theorem resolveModules_ok {fuel : ℕ} {res : Resolution} :
    resolveModules starlark debug source options rootModuleFile fuel = some (.ok res) ↔
      ∃ root overrides, selectModules starlark debug source options rootModuleFile fuel =
          some (.ok (root,overrides,res.selection)) ∧
        resolveSelected source options root overrides res.selection = .ok res := by
  unfold resolveModules
  constructor
  · intro h
    split at h
    · cases h
    · cases h
    · next root overrides selection hs =>
      have hok := Option.some.inj h
      obtain ⟨yanked,-,-,rfl⟩ := resolveSelected_ok.mp hok
      exact ⟨root,overrides,hs,hok⟩
  · rintro ⟨root,overrides,hs,hok⟩
    rw [hs]
    exact congrArg some hok

theorem resolveModules_not_refused {fuel : ℕ} {res : Resolution}
    (h : resolveModules starlark debug source { options with yanked := .deny } rootModuleFile fuel =
      some (.ok res)) : ¬Refused source { options with yanked := .deny } res.selection := by
  obtain ⟨root,overrides,-,hok⟩ := resolveModules_ok.mp h
  exact (resolveSelected_refused rfl root overrides res.selection).mp ⟨res,hok⟩

/-- With one registry, and no yanked versions in the lockfile, nothing slips through. -/
theorem denies_of_single {r : Registry} (hall : source.all = [r])
    (hlock : ∀ name, r.lockedYanked name = none) :
    DeniesOwnYanked starlark debug source options rootModuleFile := by
  rintro fuel res h p hp hv ⟨r',hr',-,metadata,hm,hyanked⟩
  rw [hall, List.mem_singleton] at hr'
  subst hr'
  refine resolveModules_not_refused h (.inl ⟨p,hp,hv,?_⟩)
  rw [firstLists_iff, hall, RegistrySource.firstYanked]
  simp [hlock, hm, bind, Except.bind, pure, Except.pure, hyanked]

theorem denies_own_yanked_iff (starlark : Starlark) (debug : ModuleOverride → String)
    (source : RegistrySource) (options : ResolveOptions) (rootModuleFile : String) :
    DeniesOwnYanked starlark debug source options rootModuleFile ↔
      ∀ fuel root overrides selection,
        selectModules starlark debug source { options with yanked := .deny } rootModuleFile fuel =
          some (.ok (root,overrides,selection)) →
        (∃ p ∈ selection.resolved, p.1.version ≠ .empty ∧ OwnYanked source p) →
        (∃ p ∈ selection.resolved, p.1.version ≠ .empty ∧ FirstLists source p.1 source.all) ∨
        options.forLockfile = true ∧ ∃ p ∈ selection.resolved, Unsourced source p := by
  constructor
  · rintro h fuel root overrides selection hs ⟨p,hp,hv,hown⟩
    by_contra hr
    have hr' : ¬Refused source { options with yanked := .deny } selection := hr
    obtain ⟨res,hres⟩ := (resolveSelected_refused rfl root overrides selection).mpr hr'
    have hsel : res.selection = selection := by
      obtain ⟨yanked,-,-,rfl⟩ := resolveSelected_ok.mp hres
      rfl
    subst hsel
    exact h fuel res (resolveModules_ok.mpr ⟨root,overrides,hs,hres⟩) p hp hv hown
  · intro h fuel res hres p hp hv hown
    obtain ⟨root,overrides,hs,-⟩ := resolveModules_ok.mp hres
    exact resolveModules_not_refused hres (h fuel root overrides res.selection hs ⟨p,hp,hv,hown⟩)

end Deny

/-- The first registry has other versions of `m`; the second has `m@1.0`, yanked. -/
def mirrorFiles : List (String × String) :=
  [("file:///mirror/modules/m/metadata.json","\x7b\"versions\": [\"2.0\"]\x7d"),
   ("https://bcr.bazel.build/modules/m/metadata.json",
    "\x7b\"versions\": [\"1.0\"], \"yanked_versions\": \x7b\"1.0\": \"broken\"\x7d\x7d"),
   ("https://bcr.bazel.build/modules/m/1.0/MODULE.bazel","module(name = 'm', version = '1.0')")]

def mirrorJson : List (Bytes × MetadataJson) :=
  [("\x7b\"versions\": [\"2.0\"]\x7d".toUTF8.data.toList,⟨some ["2.0"],none⟩),
   ("\x7b\"versions\": [\"1.0\"], \"yanked_versions\": \x7b\"1.0\": \"broken\"\x7d\x7d".toUTF8.data.toList,
    ⟨some ["1.0"],some ((∅ : Std.ExtTreeMap String String).insert "1.0" "broken")⟩)]

def mirrorRegistry (url : String) : Registry where
  url := url
  fetch file := .ok ((mirrorFiles.lookup file).map fun text => text.toUTF8.data.toList)
  repoSpec _ := .ok ()
  lock := none

def mirrorSource : RegistrySource where
  registries := [mirrorRegistry "file:///mirror",mirrorRegistry "https://bcr.bazel.build"]
  overridden := ∅
  builtin := (∅ : Std.ExtTreeMap String String).insert "bazel_tools" "module(name = 'bazel_tools')"
  readLocal _ := .error "No such file or directory (os error 2)"
  readJson bytes :=
    match mirrorJson.lookup bytes with
    | some json => .ok json
    | none => .error "expected value at line 1 column 1"
  isolatedExtensionUsages := false

def mirrorStarlark : Starlark := starlarkOf
  [("bazel_dep(name = 'm', version = '1.0')",
    [.bazelDep "m" "1.0" .default false "MODULE.bazel:1:10"]),
   ("module(name = 'm', version = '1.0')",[.module "m" "1.0" "" "MODULE.bazel:1:7"]),
   ("module(name = 'bazel_tools')",[.module "bazel_tools" "" "" "MODULE.bazel:1:7"])]

def mirrorOptions : ResolveOptions := ⟨.deny,false,[],false,false⟩

theorem yanked_slips_through :
    ¬DeniesOwnYanked mirrorStarlark (fun _ => "") mirrorSource mirrorOptions
      "bazel_dep(name = 'm', version = '1.0')" := by
  intro h
  have hfound : ((resolveModules mirrorStarlark (fun _ => "") mirrorSource
      { mirrorOptions with yanked := .deny } "bazel_dep(name = 'm', version = '1.0')" 6).bind
        Except.toOption).any (fun res => decide (∃ p ∈ res.selection.resolved,
          p.1 = ⟨"m",appVersion⟩ ∧ p.2.registry = some "https://bcr.bazel.build")) = true := by
    decide
  obtain ⟨res,hres,hp⟩ := Fallible.any_ok hfound
  obtain ⟨p,hp,hkey,hreg⟩ := of_decide_eq_true hp
  apply h 6 res hres p hp
  · rw [hkey]
    decide
  · refine ⟨mirrorRegistry "https://bcr.bazel.build",by simp [RegistrySource.all, mirrorSource],hreg,?_⟩
    rw [hkey]
    exact ⟨_,rfl,by decide⟩

end BuildFiji.Bzlmod
