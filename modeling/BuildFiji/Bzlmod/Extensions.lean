import BuildFiji.Bzlmod.Yanked
import BuildFiji.Lib.Text
import Std.Data.String.ToNat

/-!
# Extension repositories

The names of the repos that module extensions make. An extension is known by the
repo of its `.bzl` file and by where it stands there; its name in that repo gets
a number from the second of the name on.
-/

set_option autoImplicit false
set_option linter.all false

namespace BuildFiji.Bzlmod

structure ExtensionInstance where
  bzlRepo : String
  id : String
  uniqueName : String
  usages : List (ModuleKey × ℕ)
deriving DecidableEq

def ExtensionInstance.repoName (e : ExtensionInstance) (repo : String) : String :=
  e.bzlRepo ++ "+" ++ e.uniqueName ++ "+" ++ repo

/-- What one usage comes to: the extension, its own name, and who uses it. -/
structure ExtensionUse where
  bzlRepo : String
  id : String
  base : String
  usage : ModuleKey × ℕ
deriving DecidableEq

/-- The extensions found, and how often each name of a repo is taken. -/
structure FoundExtensions where
  extensions : List ExtensionInstance
  taken : String × String → ℕ

/-- The name of the extension that is the so-manieth of its own name. -/
def numbered (base : String) (count : ℕ) : String :=
  if count = 1 then base else base ++ toString count

/-- The first extension that the usage is of, with the usage added. -/
def addUsage (u : ExtensionUse) : List ExtensionInstance → Option (List ExtensionInstance)
  | [] => none
  | e::rest =>
    if e.bzlRepo = u.bzlRepo ∧ e.id = u.id then some ({ e with usages := e.usages ++ [u.usage] }::rest)
    else (addUsage u rest).map fun rest => e::rest

def addUse (found : FoundExtensions) (u : ExtensionUse) : FoundExtensions :=
  match addUsage u found.extensions with
  | some extensions => { found with extensions := extensions }
  | none =>
    let count := found.taken (u.bzlRepo,u.base)+1
    ⟨found.extensions ++ [⟨u.bzlRepo,u.id,numbered u.base count,[u.usage]⟩],
      Function.update found.taken (u.bzlRepo,u.base) count⟩

namespace Resolution

def rootOnly (root : Module) : Resolution := ⟨root,∅,⟨[(.root,root)],[]⟩,[]⟩

variable (res : Resolution)

def canonicalNameOf (key : ModuleKey) : String :=
  let versions := res.selection.resolved.countP fun p => p.1.name == key.name
  match if versions > 1 then key.canonicalRepoNameWithVersion else none with
  | some withVersion => withVersion
  | none => key.canonicalRepoName

def baseRows (key : ModuleKey) (module : Module) : List (String × String) :=
  let own := res.canonicalNameOf key
  (if key.isRoot then [("",own)] else []) ++ (module.repoName,own)::
    module.deps.map fun dep => (dep.repoName,res.canonicalNameOf dep.spec.toModuleKey)

/-- The repo that a label written in a module names, and the rest of the label. -/
def labelRepo (key : ModuleKey) (text : String) : Option (String × String) := do
  let module ← res.selection.resolved.lookup key
  match text.toList.dropPrefix? "@@".toList with
  | some rest =>
    let (repo,rest) ← Text.splitOnce "//".toList rest
    return (.ofList repo,"//" ++ .ofList rest)
  | none =>
    match text.toList.dropPrefix? "@".toList with
    | some rest =>
      let (apparent,rest) ← Text.splitOnce "//".toList rest
      let (_,canonical) ← (res.baseRows key module).find? fun row => row.1 == .ofList apparent
      return (canonical,"//" ++ .ofList rest)
    | none =>
      if "//".toList.isPrefixOf text.toList then return (res.canonicalNameOf key,text)
      else return (res.canonicalNameOf key,"//" ++ text)

def extensionUse (key : ModuleKey) (usage : ExtensionUsage) (index : ℕ) : Option ExtensionUse :=
  if usage.isolate then none
  else if usage.bzlFile = ModuleState.innateExtensionFile then do
    let (ruleBzl,rule) := (Text.splitOnce " ".toList usage.extensionName.toList).getD
      (usage.extensionName.toList,[])
    let (repo,rest) ← res.labelRepo key (.ofList ruleBzl)
    return ⟨res.canonicalNameOf key,"@@" ++ repo ++ rest ++ "%" ++ .ofList rule,.ofList rule,
      (key,index)⟩
  else do
    let (repo,rest) ← res.labelRepo key usage.bzlFile
    return ⟨repo,rest ++ "%" ++ usage.extensionName,usage.extensionName,(key,index)⟩

/-- The usages in the order of the selected modules, and as each writes them. -/
def extensionUses : List ExtensionUse :=
  res.selection.resolved.flatMap fun p =>
    p.2.extensionUsages.zipIdx.filterMap fun u => res.extensionUse p.1 u.1 u.2

def extensions : List ExtensionInstance :=
  (res.extensionUses.foldl addUse ⟨[],fun _ => 0⟩).extensions

end Resolution

/-- The names that `extensions` gives out tell everything apart. -/
structure Resolution.UniqueRepoNames (res : Resolution) : Prop where
  distinct : (res.extensions.map fun e => (e.bzlRepo,e.uniqueName)).Nodup
  repos : ∀ e ∈ res.extensions, ∀ f ∈ res.extensions, ∀ r s, validUserRepoName r = true →
    validUserRepoName s = true → (e,r) ≠ (f,s) → e.repoName r ≠ f.repoName s
  modules : ∀ e ∈ res.extensions, ∀ r, validUserRepoName r = true → ∀ p ∈ res.selection.resolved,
    e.repoName r ≠ res.canonicalNameOf p.1

/-- The first use of each extension. -/
def firstUses (uses : List ExtensionUse) : List ExtensionUse :=
  uses.foldl (fun first u =>
    if first.any fun v => v.bzlRepo = u.bzlRepo ∧ v.id = u.id then first else first ++ [u]) []

/-- How many extensions of one repo have one name. -/
def Resolution.sameName (res : Resolution) (repo base : String) : ℕ :=
  (firstUses res.extensionUses).countP fun u => u.bzlRepo = repo ∧ u.base = base

section Found

/-- The extensions are those first used, and the names are the numbered ones. -/
structure FoundInv (first : List ExtensionUse) (names : List (String × String × ℕ))
    (found : FoundExtensions) : Prop where
  ids : found.extensions.map (fun e => (e.bzlRepo,e.id)) = first.map fun u => (u.bzlRepo,u.id)
  once : (first.map fun u => (u.bzlRepo,u.id)).Nodup
  taken : ∀ repo base, found.taken (repo,base) =
    first.countP fun u => u.bzlRepo = repo ∧ u.base = base
  given : found.extensions.map (fun e => (e.bzlRepo,e.uniqueName)) =
    names.map fun n => (n.1,numbered n.2.1 n.2.2)
  nodup : names.Nodup
  mem : ∀ repo base n, (repo,base,n) ∈ names ↔ 1 ≤ n ∧ n ≤ found.taken (repo,base)

theorem addUsage_some {u : ExtensionUse} {es es' : List ExtensionInstance}
    (h : addUsage u es = some es') :
    es'.map (fun e => (e.bzlRepo,e.id)) = es.map (fun e => (e.bzlRepo,e.id)) ∧
    es'.map (fun e => (e.bzlRepo,e.uniqueName)) = es.map (fun e => (e.bzlRepo,e.uniqueName)) ∧
    (u.bzlRepo,u.id) ∈ es.map fun e => (e.bzlRepo,e.id) := by
  induction es generalizing es' with
  | nil => cases h
  | cons e es ih =>
    rw [addUsage] at h
    split at h
    · next he =>
      cases h
      simp [he.1, he.2]
    · obtain ⟨rest,hr,rfl⟩ := Option.map_eq_some_iff.mp h
      obtain ⟨hid,hname,hmem⟩ := ih hr
      exact ⟨by simp [hid],by simp [hname],List.mem_cons_of_mem _ hmem⟩

theorem addUsage_none {u : ExtensionUse} {es : List ExtensionInstance} (h : addUsage u es = none) :
    (u.bzlRepo,u.id) ∉ es.map fun e => (e.bzlRepo,e.id) := by
  induction es with
  | nil => simp
  | cons e es ih =>
    rw [addUsage] at h
    split at h
    · cases h
    · next he =>
      rw [List.map_cons, List.mem_cons, not_or]
      refine ⟨fun heq => he ?_,ih (Option.map_eq_none_iff.mp h)⟩
      rw [Prod.mk.injEq] at heq
      exact ⟨heq.1.symm,heq.2.symm⟩

theorem mem_ids {first : List ExtensionUse} {u : ExtensionUse} :
    (first.any fun v => v.bzlRepo = u.bzlRepo ∧ v.id = u.id) = true ↔
      (u.bzlRepo,u.id) ∈ first.map fun v => (v.bzlRepo,v.id) := by
  simp

theorem FoundInv.push {first : List ExtensionUse} {names : List (String × String × ℕ)}
    {found : FoundExtensions} (hi : FoundInv first names found) {u : ExtensionUse} {count : ℕ}
    (hcount : count = found.taken (u.bzlRepo,u.base)+1)
    (hnew : (u.bzlRepo,u.id) ∉ first.map fun v => (v.bzlRepo,v.id)) :
    FoundInv (first ++ [u]) (names ++ [(u.bzlRepo,u.base,count)])
      ⟨found.extensions ++ [⟨u.bzlRepo,u.id,numbered u.base count,[u.usage]⟩],
        Function.update found.taken (u.bzlRepo,u.base) count⟩ := by
  have htaken : ∀ key, key ≠ (u.bzlRepo,u.base) →
      Function.update found.taken (u.bzlRepo,u.base) count key = found.taken key :=
    fun key h => Function.update_of_ne h _ _
  have hself : Function.update found.taken (u.bzlRepo,u.base) count (u.bzlRepo,u.base) = count :=
    Function.update_self ..
  refine ⟨by simp [hi.ids],?_,fun repo base => ?_,by simp [hi.given],?_,fun repo base n => ?_⟩
  · rw [List.map_append, List.map_singleton, ← List.concat_eq_append]
    exact hi.once.concat hnew
  · rw [List.countP_append, ← hi.taken]
    by_cases h : (repo,base) = (u.bzlRepo,u.base)
    · cases h
      simp [hcount]
    · have hne : ¬(u.bzlRepo = repo ∧ u.base = base) := fun he => h (by rw [he.1, he.2])
      simp [htaken _ h, hne]
  · rw [← List.concat_eq_append]
    apply hi.nodup.concat
    intro hmem
    have := ((hi.mem _ _ _).mp hmem).2
    omega
  · rw [List.mem_append, hi.mem, List.mem_singleton]
    by_cases h : (repo,base) = (u.bzlRepo,u.base)
    · cases h
      simp only [Prod.mk.injEq, true_and]
      rw [hself]
      omega
    · have hne : (repo,base,n) ≠ (u.bzlRepo,u.base,count) := by
        intro he
        cases he
        exact h rfl
      simp [htaken _ h, hne]

theorem FoundInv.step {first : List ExtensionUse} {names : List (String × String × ℕ)}
    {found : FoundExtensions} (hi : FoundInv first names found) (u : ExtensionUse) :
    ∃ names', FoundInv (if first.any fun v => v.bzlRepo = u.bzlRepo ∧ v.id = u.id then first
      else first ++ [u]) names' (addUse found u) := by
  cases ha : addUsage u found.extensions with
  | some es =>
    obtain ⟨hid,hname,hmem⟩ := addUsage_some ha
    rw [if_pos (mem_ids.mpr (hi.ids ▸ hmem)), addUse, ha]
    exact ⟨names,hid.trans hi.ids,hi.once,hi.taken,hname.trans hi.given,hi.nodup,hi.mem⟩
  | none =>
    have hnew := addUsage_none ha
    rw [hi.ids] at hnew
    rw [if_neg (fun h => hnew (mem_ids.mp h)), addUse, ha]
    exact ⟨_,hi.push rfl hnew⟩

theorem foundInv_nil : FoundInv [] [] ⟨[],fun _ => 0⟩ := by
  refine ⟨rfl,List.nodup_nil,fun _ _ => rfl,rfl,List.nodup_nil,fun repo base n => ?_⟩
  simp only [List.not_mem_nil, false_iff]
  omega

theorem foldl_foundInv (uses : List ExtensionUse) {first : List ExtensionUse}
    {names : List (String × String × ℕ)} {found : FoundExtensions} (hi : FoundInv first names found) :
    ∃ names', FoundInv (uses.foldl (fun first u =>
      if first.any fun v => v.bzlRepo = u.bzlRepo ∧ v.id = u.id then first else first ++ [u]) first)
      names' (uses.foldl addUse found) := by
  induction uses generalizing first names found with
  | nil => exact ⟨names,hi⟩
  | cons u uses ih =>
    obtain ⟨names',hi'⟩ := hi.step u
    exact ih hi'

theorem extensions_found (res : Resolution) :
    ∃ names, FoundInv (firstUses res.extensionUses) names
      (res.extensionUses.foldl addUse ⟨[],fun _ => 0⟩) := foldl_foundInv _ foundInv_nil

end Found

section Names

theorem numbered_inj {base : String} {n m : ℕ} (h : numbered base n = numbered base m) : n = m := by
  have hne : ∀ k : ℕ, base ≠ base ++ toString k := by
    intro k he
    have hempty := (String.append_right_inj base).mp ((String.append_empty).trans he)
    exact Nat.repr_ne_empty hempty.symm
  unfold numbered at h
  split at h
  · next hn =>
    split at h
    · next hm => rw [hn, hm]
    · exact absurd h (hne m)
  · split at h
    · exact absurd h.symm (hne n)
    · exact Nat.repr_injective ((String.append_right_inj base).mp h)

theorem validUserRepoName_plus {name : String} (h : validUserRepoName name = true) :
    '+' ∉ name.toList := by
  unfold validUserRepoName at h
  split at h
  · cases h
  · next c cs hcs =>
    rw [hcs]
    intro hmem
    rw [Bool.and_eq_true, List.all_eq_true] at h
    rcases List.mem_cons.mp hmem with rfl | hmem
    · exact absurd h.1 (by decide)
    · exact absurd (h.2 _ hmem) (by decide)

theorem repoName_inj {e f : ExtensionInstance} {r s : String} (hr : validUserRepoName r = true)
    (hs : validUserRepoName s = true) (h : e.repoName r = f.repoName s) :
    e.bzlRepo ++ "+" ++ e.uniqueName = f.bzlRepo ++ "+" ++ f.uniqueName ∧ r = s := by
  have hlist : ∀ (g : ExtensionInstance) (t : String),
      (g.repoName t).toList = (g.bzlRepo ++ "+" ++ g.uniqueName).toList ++ '+'::t.toList := by
    intro g t
    simp [ExtensionInstance.repoName]
  have heq := congrArg String.toList h
  rw [hlist, hlist] at heq
  obtain ⟨hname,hrepo⟩ := Text.append_last_inj (validUserRepoName_plus hr)
    (validUserRepoName_plus hs) heq
  exact ⟨String.toList_inj.mp hname,String.toList_inj.mp hrepo⟩

theorem version_plus (v : Version) : '+' ∉ v.normalized.toList := by
  obtain ⟨h,-,-⟩ | ⟨r,p,hc,hn,-⟩ := v.parsed
  · simp [h]
  · obtain ⟨hr,hp⟩ := Version.captures_chars hc
    have hr' : '+' ∉ r := fun h => absurd (hr _ h) (by decide)
    have hp' : '+' ∉ p := fun h => absurd (hp _ h) (by decide)
    rw [hn, normalize]
    split
    · exact hr'
    · simp [hr', hp']

theorem validModuleName_plus {name : String} (h : validModuleName name = true) :
    '+' ∉ name.toList := by
  unfold validModuleName at h
  rw [Bool.and_eq_true, List.all_eq_true] at h
  exact fun hmem => absurd (h.2 _ hmem) (by decide)

/-- A module's repo name holds one separator at most. -/
theorem canonicalNameOf_plus (res : Resolution) {key : ModuleKey}
    (h : key = .root ∨ validModuleName key.name = true) :
    (res.canonicalNameOf key).toList.count '+' ≤ 1 := by
  have hname : '+' ∉ key.name.toList := by
    obtain rfl | h := h
    · exact List.not_mem_nil
    · exact validModuleName_plus h
  have hwell : ∀ name, key.wellKnownRepoName = some name → name = key.name := by
    intro name hn
    simpa using List.find?_some hn
  have hplain : key.canonicalRepoName.toList.count '+' ≤ 1 := by
    unfold ModuleKey.canonicalRepoName
    split
    · next name hn =>
      rw [hwell name hn, List.count_eq_zero_of_not_mem hname]
      omega
    · split
      · simp
      · simp [List.count_eq_zero_of_not_mem hname]
  have hversion : ∀ name, key.canonicalRepoNameWithVersion = some name →
      name.toList.count '+' ≤ 1 := by
    intro name hn
    unfold ModuleKey.canonicalRepoNameWithVersion at hn
    split at hn
    · next known hk =>
      cases hn
      rw [hwell _ hk, List.count_eq_zero_of_not_mem hname]
      omega
    · split at hn
      · cases hn
      · cases hn
        simp [List.count_eq_zero_of_not_mem hname,
          List.count_eq_zero_of_not_mem (version_plus key.version)]
  simp only [Resolution.canonicalNameOf]
  split
  · next name hn =>
    split at hn
    · exact hversion name hn
    · cases hn
  · exact hplain

theorem repoName_plus (e : ExtensionInstance) (repo : String) :
    2 ≤ (e.repoName repo).toList.count '+' := by
  simp only [ExtensionInstance.repoName, String.toList_append, List.count_append]
  have : "+".toList.count '+' = 1 := by decide
  omega

end Names

section Made

/-- A resolution that the program makes. -/
def Made (res : Resolution) : Prop :=
  (∃ starlark debug source options rootModuleFile fuel,
    resolveModules starlark debug source options rootModuleFile fuel = some (.ok res)) ∨
  ∃ root, res = .rootOnly root

theorem selectModules_ok {starlark : Starlark} {debug : ModuleOverride → String}
    {source : RegistrySource} {options : ResolveOptions} {rootModuleFile : String} {fuel : ℕ}
    {root : ModuleFile} {overrides : Overrides} {selection : Selection}
    (h : selectModules starlark debug source options rootModuleFile fuel =
      some (.ok (root,overrides,selection))) :
    ∃ graph, discover starlark root overrides source.toModuleFileSource fuel = some (.ok graph) ∧
      run fuel graph overrides = some (.ok selection) := by
  unfold selectModules at h
  split at h
  · cases h
  · split at h
    · cases h
    · split at h
      · cases h
      · cases h
      · next graph hd =>
        split at h
        · cases h
        · cases h
        · next hr =>
          cases h
          exact ⟨graph,hd,hr⟩

theorem discover_named {starlark : Starlark} {root : ModuleFile} {overrides : Overrides}
    {source : ModuleFileSource} {fuel : ℕ} {graph : DepGraph}
    (h : discover starlark root overrides source fuel = some (.ok graph)) {k : ModuleKey}
    (hk : k ∈ graph) : k = .root ∨ validModuleName k.name = true := by
  obtain ⟨previous,full,unfulfilled,-,hr,-,rfl⟩ := discoverFrom_ok fuel counted_root h
  cases hr.reached k (mem_prune.mp hk) with
  | root => exact .inl rfl
  | dep _ hm hd =>
    exact (moduleAt_edge hm (List.mem_append_left _ (List.mem_map_of_mem hd))).imp_right And.left
  | nodep _ hm hd => exact (moduleAt_edge hm (List.mem_append_right _ hd)).imp_right And.left

theorem Made.named {res : Resolution} (h : Made res) {p : ModuleKey × Module}
    (hp : p ∈ res.selection.resolved) : p.1 = .root ∨ validModuleName p.1.name = true := by
  obtain ⟨starlark,debug,source,options,text,fuel,h⟩ | ⟨root,rfl⟩ := h
  · obtain ⟨root,overrides,hs,-⟩ := resolveModules_ok.mp h
    obtain ⟨graph,hd,hr⟩ := selectModules_ok hs
    have hmin := run_minimal (discover_discovered hd) hr
    obtain ⟨rewrite,-,hun,-⟩ := hmin.rewritten
    have hmem := ((hmin.reached p.1 p.2).mp hp).1
    rw [hun] at hmem
    obtain ⟨entry,he,heq⟩ := List.mem_map.mp hmem
    have hgraph := Std.ExtTreeMap.mem_toList_iff_getElem?_eq_some.mp he
    have hkey : entry.1 = p.1 := (Prod.mk.inj heq).1
    exact discover_named hd (hkey ▸ mem_of_getElem? hgraph)
  · rw [List.mem_singleton.mp hp]
    exact .inl rfl

end Made

section Unique
variable {res : Resolution}

/-- The part of a repo's name that its extension gives. -/
def repoStem (repo base : String) (n : ℕ) : String := repo ++ "+" ++ numbered base n

/-- The names are as different as what they are made of. -/
theorem stems_nodup (res : Resolution) :
    (res.extensions.map fun e => e.bzlRepo ++ "+" ++ e.uniqueName).Nodup ↔
      ∀ repo base n repo' base' n', 1 ≤ n → n ≤ res.sameName repo base → 1 ≤ n' →
        n' ≤ res.sameName repo' base' → repoStem repo base n = repoStem repo' base' n' →
        repo = repo' ∧ base = base' := by
  obtain ⟨names,hi⟩ := extensions_found res
  have hmem : ∀ repo base n, (repo,base,n) ∈ names ↔ 1 ≤ n ∧ n ≤ res.sameName repo base := by
    intro repo base n
    rw [hi.mem, hi.taken]
    rfl
  have hmap : (res.extensions.map fun e => e.bzlRepo ++ "+" ++ e.uniqueName) =
      names.map fun n => repoStem n.1 n.2.1 n.2.2 := by
    have h := congrArg (List.map fun p : String × String => p.1 ++ "+" ++ p.2) hi.given
    rw [List.map_map, List.map_map] at h
    exact h
  rw [hmap, List.nodup_map_iff_inj_on hi.nodup]
  constructor
  · intro h repo base n repo' base' n' hn hle hn' hle' heq
    have := h _ ((hmem repo base n).mpr ⟨hn,hle⟩) _ ((hmem repo' base' n').mpr ⟨hn',hle'⟩) heq
    cases this
    exact ⟨rfl,rfl⟩
  · rintro h ⟨repo,base,n⟩ hn ⟨repo',base',n'⟩ hn' heq
    obtain ⟨h1,h2⟩ := (hmem _ _ _).mp hn
    obtain ⟨h1',h2'⟩ := (hmem _ _ _).mp hn'
    obtain ⟨rfl,rfl⟩ := h repo base n repo' base' n' h1 h2 h1' h2' heq
    have hn : n = n' := numbered_inj ((String.append_right_inj _).mp heq)
    rw [hn]

theorem extensions_nodup (res : Resolution) : res.extensions.Nodup := by
  obtain ⟨names,hi⟩ := extensions_found res
  have hids := hi.once
  rw [← hi.ids] at hids
  exact hids.of_map _

theorem extension_names_unique_iff (res : Resolution) (h : Made res) :
    res.UniqueRepoNames ↔
      ∀ repo base n repo' base' n', 1 ≤ n → n ≤ res.sameName repo base → 1 ≤ n' →
        n' ≤ res.sameName repo' base' → repoStem repo base n = repoStem repo' base' n' →
        repo = repo' ∧ base = base' := by
  rw [← stems_nodup, List.nodup_map_iff_inj_on (extensions_nodup res)]
  constructor
  · intro hu e he f hf hstem
    by_contra hne
    have hvalid : validUserRepoName "r" = true := by decide
    apply hu.repos e he f hf "r" "r" hvalid hvalid (fun heq => hne (Prod.mk.inj heq).1)
    rw [ExtensionInstance.repoName, ExtensionInstance.repoName, hstem]
  · intro hinj
    refine ⟨?_,fun e he f hf r s hr hs hne heq => ?_,fun e he r hr p hp heq => ?_⟩
    · rw [List.nodup_map_iff_inj_on (extensions_nodup res)]
      intro e he f hf heq
      rw [Prod.mk.injEq] at heq
      exact hinj e he f hf (by rw [heq.1, heq.2])
    · obtain ⟨hstem,rfl⟩ := repoName_inj hr hs heq
      exact hne (by rw [hinj e he f hf hstem])
    · have hmany := repoName_plus e r
      have hfew := canonicalNameOf_plus res (h.named hp)
      rw [heq] at hmany
      omega

/-- Two files of the main repo with a `gen` each, and one with a `gen2`. -/
def genRoot (third : String) : Module :=
  ⟨.root,"app",.empty,"app",[],[],none,[⟨"//:a.bzl","gen",false,false⟩,⟨"//:b.bzl","gen",false,false⟩,
    ⟨"//:c.bzl",third,false,false⟩]⟩

theorem extension_names_unique_other :
    ((Resolution.rootOnly (genRoot "other")).extensions.map fun e => e.repoName "r") =
      ["+gen+r","+gen2+r","+other+r"] ∧
    (Resolution.rootOnly (genRoot "other")).UniqueRepoNames := by
  refine ⟨by decide,(extension_names_unique_iff _ (.inr ⟨_,rfl⟩)).mpr ?_⟩
  rw [← stems_nodup]
  decide

theorem numbered_name_is_taken :
    ((Resolution.rootOnly (genRoot "gen2")).extensions.map fun e => e.repoName "r") =
      ["+gen+r","+gen2+r","+gen2+r"] ∧
    ¬(Resolution.rootOnly (genRoot "gen2")).UniqueRepoNames := by
  refine ⟨by decide,fun h => ?_⟩
  have hno := h.distinct
  revert hno
  decide

end Unique

end BuildFiji.Bzlmod
