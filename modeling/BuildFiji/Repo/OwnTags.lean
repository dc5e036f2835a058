import BuildFiji.Bzlmod.ModuleRepos
import BuildFiji.Repo.LockedInput

/-!
# Which tags a module is told to have made

The usages of an extension stand in the order of the selected modules and of each
module's file. They are put together by the name of the module, so that two versions of
one module that both use the extension become one, with the tags of both.
-/

set_option autoImplicit false
set_option linter.all false

namespace BuildFiji.Replay

open BuildFiji.Bzlmod hiding Bytes

open BuildFiji.Grouped

section Told

variable (d : Declared)

def newModule (u : Use) : ModuleUse where
  name := u.module.name
  version := u.module.version.normalized
  isRoot := u.key.isRoot
  repo := d.res.canonicalNameOf u.key
  tags := []

def nonDev (u : Use) : Bool := u.key.isRoot && !u.usage.devDependency

def addTags (u : Use) (entry : ModuleUse × Bool) : ModuleUse × Bool :=
  ({ entry.1 with tags := entry.1.tags ++ u.said.tags.map tagUse },entry.2 || nonDev u)

/-- One usage, put to the module of its name. -/
def tell (uses : List (ModuleUse × Bool)) (u : Use) : List (ModuleUse × Bool) :=
  match uses.findIdx? fun m => m.1.name == u.module.name with
  | some entry => uses.modify entry (addTags u)
  | none => (uses ++ [(newModule d u,false)]).modify uses.length (addTags u)

def toldUses (e : ExtensionInstance) : List (ModuleUse × Bool) := (d.uses e).foldl (tell d) []

/-- The input of `run_extension`. -/
def runInput (e : ExtensionInstance) (facts : List (String × Json)) : ExtensionInput :=
  ⟨(toldUses d e).map Prod.fst,(toldUses d e).any Prod.snd,facts⟩

def entryOf (g : Gathered Use) : ModuleUse × Bool := (moduleUse d g,g.all.any nonDev)

variable {d}

theorem tell_cons_same {m : ModuleUse × Bool} {u : Use} (h : m.1.name = u.module.name)
    (ms : List (ModuleUse × Bool)) : tell d (m::ms) u = addTags u m::ms := by
  rw [tell, List.findIdx?_cons, if_pos (beq_iff_eq.mpr h)]
  rfl

theorem tell_cons_other {m : ModuleUse × Bool} {u : Use} (h : m.1.name ≠ u.module.name)
    (ms : List (ModuleUse × Bool)) : tell d (m::ms) u = m::tell d ms u := by
  have hne : ¬(m.1.name == u.module.name) = true := by rwa [beq_iff_eq]
  rw [tell, tell, List.findIdx?_cons, if_neg hne]
  cases ms.findIdx? fun m => m.1.name == u.module.name <;> rfl

theorem addTags_entryOf (u : Use) (g : Gathered Use) :
    addTags u (entryOf d g) = entryOf d ⟨g.first,g.rest ++ [u]⟩ := by
  have htags : tagsOf ⟨g.first,g.rest ++ [u]⟩ = tagsOf g ++ u.said.tags := by
    simp [tagsOf, Gathered.all]
  have hany : (Gathered.all ⟨g.first,g.rest ++ [u]⟩).any nonDev = (g.all.any nonDev || nonDev u) := by
    simp [Gathered.all, Bool.or_assoc]
  rw [entryOf, entryOf, addTags, hany, moduleUse, moduleUse, htags, List.map_append]

theorem tell_entries (u : Use) (gs : List (Gathered Use)) :
    tell d (gs.map (entryOf d)) u = (place (fun u => u.module.name) u gs).map (entryOf d) := by
  induction gs with
  | nil =>
    have hnew : addTags u (newModule d u,false) = entryOf d ⟨u,[]⟩ := by
      simp [addTags, newModule, entryOf, moduleUse, tagsOf, Gathered.all]
    rw [place, List.map_singleton, ← hnew]
    rfl
  | cons g gs ih =>
    rw [List.map_cons, place]
    by_cases h : g.first.module.name = u.module.name
    · rw [if_pos h, tell_cons_same h, addTags_entryOf]
      rfl
    · rw [if_neg h, tell_cons_other h, ih]
      rfl

theorem toldUses_eq (e : ExtensionInstance) : toldUses d e = (moduleUses d e).map (entryOf d) := by
  rw [toldUses, moduleUses]
  induction d.uses e using List.reverseRecOn with
  | nil => rfl
  | append_singleton us u ih =>
    rw [List.foldl_append, ih, List.foldl_cons, List.foldl_nil, tell_entries, collect_concat]

/-- What is told is the modules by their names, and whether the root has a usage that is
not for development only. -/
theorem runInput_eq (e : ExtensionInstance) (facts : List (String × Json)) :
    runInput d e facts = extensionInput d e facts := by
  have hany : (toldUses d e).any Prod.snd = rootHasNonDev d e := by
    rw [toldUses_eq, List.any_map, rootHasNonDev]
    exact any_collect _ nonDev (d.uses e)
  rw [runInput, hany, toldUses_eq, List.map_map, extensionInput]
  rfl

end Told

section Usages

variable (res : Resolution)

def SameExtension (e : ExtensionInstance) (x : ExtensionUse) : Prop := x.bzlRepo = e.bzlRepo ∧ x.id = e.id

instance (e : ExtensionInstance) (x : ExtensionUse) : Decidable (SameExtension e x) :=
  inferInstanceAs (Decidable (_ ∧ _))

/-- The usages of an extension that a module has, in the order written. -/
def usagesIn (e : ExtensionInstance) (p : ModuleKey × Module) : List (ExtensionUsage × ℕ) :=
  p.2.extensionUsages.zipIdx.filter fun u => (res.extensionUse p.1 u.1 u.2).any fun x => SameExtension e x

/-- The selected modules that use an extension. -/
def users (e : ExtensionInstance) : List (ModuleKey × Module) :=
  res.selection.resolved.filter fun p => !(usagesIn res e p).isEmpty

variable {res}

theorem extensionUse_usage {key : ModuleKey} {usage : ExtensionUsage} {index : ℕ} {x : ExtensionUse}
    (h : res.extensionUse key usage index = some x) : x.usage = (key,index) := by
  unfold Resolution.extensionUse at h
  split at h
  · cases h
  · split at h
    · obtain ⟨_,-,h⟩ := Option.bind_eq_some_iff.mp h
      cases h
      rfl
    · obtain ⟨_,-,h⟩ := Option.bind_eq_some_iff.mp h
      cases h
      rfl

/-- What has been found of the uses so far. -/
structure UsagesInv (uses : List ExtensionUse) (es : List ExtensionInstance) : Prop where
  once : (es.map fun e => (e.bzlRepo,e.id)).Nodup
  found : ∀ x ∈ uses, (x.bzlRepo,x.id) ∈ es.map fun e => (e.bzlRepo,e.id)
  usages : ∀ e ∈ es, e.usages = (uses.filter fun x => SameExtension e x).map ExtensionUse.usage

theorem addUsage_usages {x : ExtensionUse} {es es' : List ExtensionInstance}
    (honce : (es.map fun e => (e.bzlRepo,e.id)).Nodup) (h : addUsage x es = some es') :
    ∀ e' ∈ es', ∃ e ∈ es, e'.bzlRepo = e.bzlRepo ∧ e'.id = e.id ∧
      e'.usages = if SameExtension e x then e.usages ++ [x.usage] else e.usages := by
  induction es generalizing es' with
  | nil => cases h
  | cons e es ih =>
    rw [List.map_cons, List.nodup_cons] at honce
    rw [addUsage] at h
    split at h
    · next he =>
      cases h
      intro e' he'
      rcases List.mem_cons.mp he' with rfl | he'
      · exact ⟨e,List.mem_cons_self,rfl,rfl,(if_pos ⟨he.1.symm,he.2.symm⟩).symm⟩
      · refine ⟨e',List.mem_cons_of_mem _ he',rfl,rfl,(if_neg ?_).symm⟩
        rintro ⟨hrepo,hid⟩
        apply honce.1
        rw [he.1, he.2, hrepo, hid]
        exact List.mem_map_of_mem (f := fun e => (e.bzlRepo,e.id)) he'
    · next he =>
      obtain ⟨rest,hr,rfl⟩ := Option.map_eq_some_iff.mp h
      intro e' he'
      rcases List.mem_cons.mp he' with rfl | he'
      · refine ⟨e',List.mem_cons_self,rfl,rfl,(if_neg ?_).symm⟩
        exact fun hs => he ⟨hs.1.symm,hs.2.symm⟩
      · obtain ⟨e0,he0,hsame⟩ := ih honce.2 hr e' he'
        exact ⟨e0,List.mem_cons_of_mem _ he0,hsame⟩

theorem filter_concat {uses : List ExtensionUse} {e : ExtensionInstance} {x : ExtensionUse} :
    ((uses ++ [x]).filter fun x => SameExtension e x).map ExtensionUse.usage =
      if SameExtension e x then (uses.filter fun x => SameExtension e x).map ExtensionUse.usage ++ [x.usage]
      else (uses.filter fun x => SameExtension e x).map ExtensionUse.usage := by
  rw [List.filter_append, List.map_append]
  by_cases h : SameExtension e x <;> simp [h]

theorem UsagesInv.step {uses : List ExtensionUse} {found : FoundExtensions}
    (hi : UsagesInv uses found.extensions) (x : ExtensionUse) :
    UsagesInv (uses ++ [x]) (addUse found x).extensions := by
  cases ha : addUsage x found.extensions with
  | some es =>
    obtain ⟨hids,-,hmem⟩ := addUsage_some ha
    rw [addUse, ha]
    refine ⟨hids ▸ hi.once,?_,?_⟩
    · intro y hy
      rw [hids]
      rcases List.mem_append.mp hy with hy | hy
      · exact hi.found y hy
      · rwa [List.mem_singleton.mp hy]
    · intro e' he'
      obtain ⟨e,he,hrepo,hid,husages⟩ := addUsage_usages hi.once ha e' he'
      have hsame : ∀ y, SameExtension e' y ↔ SameExtension e y := fun y => by
        rw [SameExtension, SameExtension, hrepo, hid]
      simp only [hsame]
      rw [husages, filter_concat, hi.usages e he]
  | none =>
    have hnew := addUsage_none ha
    rw [addUse, ha]
    refine ⟨?_,?_,?_⟩
    · rw [List.map_append, List.map_singleton, ← List.concat_eq_append]
      exact hi.once.concat hnew
    · intro y hy
      rw [List.map_append, List.mem_append]
      rcases List.mem_append.mp hy with hy | hy
      · exact Or.inl (hi.found y hy)
      · rw [List.mem_singleton.mp hy]
        exact Or.inr List.mem_cons_self
    · intro e he
      rw [filter_concat]
      rcases List.mem_append.mp he with he | he
      · rw [if_neg, hi.usages e he]
        rintro ⟨hrepo,hid⟩
        apply hnew
        rw [hrepo, hid]
        exact List.mem_map_of_mem (f := fun e => (e.bzlRepo,e.id)) he
      · obtain rfl := List.mem_singleton.mp he
        have hnone : (uses.filter fun y => SameExtension ⟨x.bzlRepo,x.id,
            numbered x.base (found.taken (x.bzlRepo,x.base)+1),[x.usage]⟩ y) = [] := by
          rw [List.filter_eq_nil_iff]
          intro y hy hs
          obtain ⟨hrepo,hid⟩ := of_decide_eq_true hs
          have hrepo : y.bzlRepo = x.bzlRepo := hrepo
          have hid : y.id = x.id := hid
          apply hnew
          rw [← hrepo, ← hid]
          exact hi.found y hy
        rw [if_pos ⟨rfl,rfl⟩, hnone]
        rfl

/-- An extension has the usages of it, in the order of the selected modules. -/
theorem extension_usages {e : ExtensionInstance} (he : e ∈ res.extensions) :
    e.usages = (res.extensionUses.filter fun x => SameExtension e x).map ExtensionUse.usage := by
  have hinv : ∀ uses : List ExtensionUse, UsagesInv uses (uses.foldl addUse ⟨[],fun _ => 0⟩).extensions := by
    intro uses
    induction uses using List.reverseRecOn with
    | nil => exact ⟨List.nodup_nil,nofun,nofun⟩
    | append_singleton uses x ih =>
      rw [List.foldl_append]
      exact ih.step x
  exact (hinv res.extensionUses).usages e he

end Usages

section Own

variable (d : Declared)

/-- What one module says to an extension. -/
def saidBy (e : ExtensionInstance) (p : ModuleKey × Module) : List Use :=
  (usagesIn d.res e p).map fun u => ⟨p.1,p.2,u.1,d.said p.1 u.2⟩

/-- What an extension should be told of a module: its own name, version, repo and tags. -/
def ownUse (e : ExtensionInstance) (p : ModuleKey × Module) : ModuleUse where
  name := p.2.name
  version := p.2.version.normalized
  isRoot := p.1.isRoot
  repo := d.res.canonicalNameOf p.1
  tags := ((usagesIn d.res e p).flatMap fun u => (d.said p.1 u.2).tags).map tagUse

/-- One entry for each selected module that uses the extension, with what it says itself. -/
structure EachItsOwn (e : ExtensionInstance) (input : ExtensionInput) : Prop where
  modules : input.modules = (users d.res e).map (ownUse d e)
  root : input.rootHasNonDevDependency = true ↔
    ∃ p ∈ users d.res e, p.1 = .root ∧ ∃ u ∈ usagesIn d.res e p, u.1.devDependency = false

variable {d} {e : ExtensionInstance}

theorem Made.keys_nodup {res : Resolution} (h : Made res) : (res.selection.resolved.map Prod.fst).Nodup := by
  obtain ⟨starlark,debug,source,options,text,fuel,h⟩ | ⟨root,rfl⟩ := h
  · obtain ⟨root,overrides,hs,-⟩ := resolveModules_ok.mp h
    obtain ⟨graph,-,hr⟩ := selectModules_ok hs
    exact run_keys_nodup hr
  · exact List.nodup_singleton _

theorem map_filter_filterMap {α β γ : Type*} {f : α → Option β} {q : β → Bool} {g : β → γ} {h : α → γ}
    {l : List α} (hfg : ∀ x y, f x = some y → g y = h x) :
    ((l.filterMap f).filter q).map g = (l.filter fun x => (f x).any q).map h := by
  induction l with
  | nil => rfl
  | cons x l ih =>
    cases hx : f x with
    | none => rw [List.filterMap_cons_none hx, ih, List.filter_cons_of_neg (by simp [hx])]
    | some y =>
      rw [List.filterMap_cons_some hx]
      by_cases hq : q y = true
      · rw [List.filter_cons_of_pos hq, List.filter_cons_of_pos (by simpa [hx] using hq), List.map_cons,
          List.map_cons, ih, hfg x y hx]
      · rw [List.filter_cons_of_neg hq, List.filter_cons_of_neg (by simpa [hx] using hq), ih]

theorem lookup_of_mem {α β : Type*} [BEq α] [LawfulBEq α] {l : List (α × β)} (hn : (l.map Prod.fst).Nodup)
    {p : α × β} (hp : p ∈ l) : l.lookup p.1 = some p.2 := by
  induction l with
  | nil => cases hp
  | cons q l ih =>
    rw [List.map_cons, List.nodup_cons] at hn
    rcases List.mem_cons.mp hp with rfl | hmem
    · exact List.lookup_cons_self
    · have hne : ¬p.1 = q.1 := fun h => hn.1 (h ▸ List.mem_map_of_mem hmem)
      obtain ⟨k,v⟩ := q
      have hb : (p.1 == k) = false := by simpa using hne
      rw [List.lookup_cons, hb]
      exact ih hn.2 hmem

theorem saidBy_uses {p : ModuleKey × Module} (hn : (d.res.selection.resolved.map Prod.fst).Nodup)
    (hp : p ∈ d.res.selection.resolved) :
    ((usagesIn d.res e p).map fun u => (p.1,u.2)).filterMap d.useAt = saidBy d e p := by
  rw [List.filterMap_map, saidBy]
  apply filterMap_eq_map_iff.mpr
  intro u hu
  have hz := List.mem_zipIdx_iff_getElem?.mp (List.mem_of_mem_filter hu)
  show d.useAt (p.1,u.2) = _
  rw [Declared.useAt, lookup_of_mem hn hp]
  simp only [Option.bind_eq_bind, Option.bind_some, hz]
  rfl

/-- The uses of an extension are what the modules that use it say, one after the other. -/
theorem uses_eq (hn : (d.res.selection.resolved.map Prod.fst).Nodup) (he : e ∈ d.res.extensions) :
    d.uses e = (users d.res e).flatMap (saidBy d e) := by
  have husages : e.usages = d.res.selection.resolved.flatMap fun p =>
      (usagesIn d.res e p).map fun u => (p.1,u.2) := by
    rw [extension_usages he, Resolution.extensionUses, List.filter_flatMap, List.map_flatMap]
    apply List.flatMap_congr
    intro p _
    exact map_filter_filterMap fun u x hx => extensionUse_usage hx
  have hall : d.uses e = d.res.selection.resolved.flatMap (saidBy d e) := by
    rw [Declared.uses, husages, List.filterMap_flatMap]
    apply List.flatMap_congr
    intro p hp
    exact saidBy_uses hn hp
  rw [hall, users]
  clear hall husages he hn
  induction d.res.selection.resolved with
  | nil => rfl
  | cons p resolved ih =>
    rw [List.flatMap_cons, ih]
    cases hu : usagesIn d.res e p with
    | nil => rw [List.filter_cons_of_neg (by simp [hu]), saidBy, hu, List.map_nil, List.nil_append]
    | cons u us => rw [List.filter_cons_of_pos (by simp [hu]), List.flatMap_cons]

theorem users_nodup (hn : (d.res.selection.resolved.map Prod.fst).Nodup) :
    ((users d.res e).map Prod.fst).Nodup := hn.sublist (List.Sublist.map _ List.filter_sublist)

theorem saidBy_ne_nil {p : ModuleKey × Module} (hp : p ∈ users d.res e) : saidBy d e p ≠ [] := by
  have hne := (List.mem_filter.mp hp).2
  intro h
  rw [saidBy, List.map_eq_nil_iff] at h
  rw [h] at hne
  cases hne

theorem moduleUse_of_all {g : Gathered Use} {p : ModuleKey × Module} (h : g.all = saidBy d e p) :
    moduleUse d g = ownUse d e p := by
  have hfirst : g.first ∈ saidBy d e p := h ▸ List.mem_cons_self
  obtain ⟨u,-,hu⟩ := List.mem_map.mp hfirst
  have htags : tagsOf g = (usagesIn d.res e p).flatMap fun u => (d.said p.1 u.2).tags := by
    rw [tagsOf, h, saidBy, List.flatMap_map]
  rw [moduleUse, htags, ← hu]
  rfl

/-- Modules of different names are told of as they are. -/
theorem modules_own (hn : (d.res.selection.resolved.map Prod.fst).Nodup) (he : e ∈ d.res.extensions)
    (hnames : ((users d.res e).map fun p => p.2.name).Nodup) :
    (moduleUses d e).map (moduleUse d) = (users d.res e).map (ownUse d e) := by
  have hkey : ∀ p ∈ users d.res e, ∀ u ∈ saidBy d e p, u.module.name = p.2.name := by
    intro p _ u hu
    obtain ⟨_,-,rfl⟩ := List.mem_map.mp hu
    rfl
  have hgroups := collect_flatMap (fun p hp => saidBy_ne_nil hp) hkey hnames
  rw [← uses_eq hn he] at hgroups
  exact map_eq_of (fun g _ p _ hall => moduleUse_of_all hall) hgroups.1

theorem root_told (hn : (d.res.selection.resolved.map Prod.fst).Nodup) (he : e ∈ d.res.extensions) :
    rootHasNonDev d e = true ↔
      ∃ p ∈ users d.res e, p.1 = .root ∧ ∃ u ∈ usagesIn d.res e p, u.1.devDependency = false := by
  rw [rootHasNonDev, uses_eq hn he, List.any_eq_true]
  constructor
  · rintro ⟨u,hu,hdev⟩
    obtain ⟨p,hp,hu⟩ := List.mem_flatMap.mp hu
    obtain ⟨w,hw,rfl⟩ := List.mem_map.mp hu
    rw [Bool.and_eq_true, Bool.not_eq_true'] at hdev
    exact ⟨p,hp,ModuleKey.isRoot_iff.mp hdev.1,w,hw,hdev.2⟩
  · rintro ⟨p,hp,hroot,w,hw,hdev⟩
    refine ⟨_,List.mem_flatMap.mpr ⟨p,hp,List.mem_map.mpr ⟨w,hw,rfl⟩⟩,?_⟩
    rw [Bool.and_eq_true, Bool.not_eq_true']
    exact ⟨ModuleKey.isRoot_iff.mpr hroot,hdev⟩

/-- Each module is told of with its own tags exactly where no two that use the extension
have one name. -/
theorem own_tags_iff (d : Declared) (hmade : Made d.res) (e : ExtensionInstance)
    (he : e ∈ d.res.extensions) (facts : List (String × Json)) :
    EachItsOwn d e (runInput d e facts) ↔
      ∀ p ∈ users d.res e, ∀ q ∈ users d.res e, p.2.name = q.2.name → p.1 = q.1 := by
  have hn := Made.keys_nodup hmade
  rw [runInput_eq]
  constructor
  · intro h p hp q hq hname
    have hmodules : (moduleUses d e).map (moduleUse d) = (users d.res e).map (ownUse d e) := h.modules
    have hkeys := congrArg (List.map ModuleUse.name) hmodules
    rw [List.map_map, List.map_map] at hkeys
    have hnodup : ((users d.res e).map fun p => p.2.name).Nodup := by
      have hcollect := collect_keys_nodup (fun u : Use => u.module.name) (d.uses e)
      exact hkeys ▸ hcollect
    rw [List.inj_on_of_nodup_map hnodup hp hq hname]
  · intro hnames
    have hnodup : ((users d.res e).map fun p => p.2.name).Nodup := by
      have hkeys := users_nodup (e := e) hn
      have hlist := hkeys.of_map
      rw [List.nodup_map_iff_inj_on hlist]
      exact fun p hp q hq hname => List.inj_on_of_nodup_map hkeys hp hq (hnames p hp q hq hname)
    exact ⟨modules_own hn he hnodup,root_told hn he⟩

end Own

section Versions

def sharedFiles : List (String × String) :=
  [("https://bcr.bazel.build/modules/a/1.0/MODULE.bazel","a1"),
   ("https://bcr.bazel.build/modules/a/2.0/MODULE.bazel","a2")]

def sharedSource : RegistrySource where
  registries := [⟨"https://bcr.bazel.build",
    fun file => .ok ((sharedFiles.lookup file).map fun text => text.toUTF8.data.toList),fun _ => .ok (),none⟩]
  overridden := ∅
  builtin := (∅ : Std.ExtTreeMap String String).insert "bazel_tools" "tools"
  readLocal _ := .error "No such file or directory (os error 2)"
  readJson _ := .error "expected value at line 1 column 1"
  isolatedExtensionUsages := false

def oneUse (version : String) : List Directive :=
  [.module "a" version "" "MODULE.bazel:1:7",.useExtension "@bazel_tools//:ext.bzl" "ext" false false]

/-- Both versions of `a` are kept, and both use one extension. -/
def sharedStarlark : Starlark := starlarkOf
  [("root",[.bazelDep "a" "1.0" (.text "a1") false "MODULE.bazel:1:10",
     .bazelDep "a" "2.0" (.text "a2") false "MODULE.bazel:2:10",
     .override "a" (.multipleVersion ⟨[appVersion,raisedVersion],none⟩)]),
   ("a1",oneUse "1.0"),("a2",oneUse "2.0"),
   ("tools",[.module "bazel_tools" "" "" "MODULE.bazel:1:7"])]

def sharedResolution : Option (Except BzlmodError Resolution) :=
  resolveModules sharedStarlark (fun _ => "") sharedSource ⟨.allowAll,false,[],false,false⟩ "root" 7

def taggedWithVersion (key : ModuleKey) (_ : ℕ) : Said :=
  ⟨[],[⟨"tag_of_" ++ key.version.normalized,[],false,"",0⟩],[]⟩

/-- The extension is told of one module, that of the first version, with the tags of both. -/
theorem versions_told_as_one : ∃ res, sharedResolution = some (.ok res) ∧ ∃ e ∈ res.extensions,
    (users res e).map (fun p => p.1.toString) = ["a@1.0","a@2.0"] ∧
    ((runInput ⟨res,taggedWithVersion⟩ e []).modules.map fun m => (m.repo,m.tags.map TagUse.tagClass)) =
      [("a+1.0",["tag_of_1.0","tag_of_2.0"])] ∧
    ¬EachItsOwn ⟨res,taggedWithVersion⟩ e (runInput ⟨res,taggedWithVersion⟩ e []) := by
  have hfound : (sharedResolution.bind Except.toOption).any (fun res => res.extensions.any fun e =>
      decide ((users res e).map (fun p => p.1.toString) = ["a@1.0","a@2.0"] ∧
        ((runInput ⟨res,taggedWithVersion⟩ e []).modules.map fun m =>
          (m.repo,m.tags.map TagUse.tagClass)) = [("a+1.0",["tag_of_1.0","tag_of_2.0"])])) = true := by
    decide
  obtain ⟨res,hres,hext⟩ := Fallible.any_ok hfound
  obtain ⟨e,he,htold⟩ := List.any_eq_true.mp hext
  obtain ⟨husers,hmodules⟩ := of_decide_eq_true htold
  refine ⟨res,hres,e,he,husers,hmodules,?_⟩
  intro h
  have hlength := congrArg List.length h.modules
  have htwo := congrArg List.length husers
  have hone := congrArg List.length hmodules
  rw [List.length_map] at hlength htwo hone
  rw [hlength, htwo] at hone
  cases hone

/-- A root module alone is told of as it is. -/
theorem own_tags_root :
    EachItsOwn (rootRun false []).declared devUse (runInput (rootRun false []).declared devUse []) :=
  (own_tags_iff (rootRun false []).declared (Or.inr ⟨_,rfl⟩) devUse (rootRun false []).used []).mpr
    fun p hp q hq _ => by
      have hone : users (rootRun false []).declared.res devUse = [(.root,devRoot false)] := by decide
      rw [hone] at hp hq
      rw [List.mem_singleton.mp hp, List.mem_singleton.mp hq]

end Versions

end BuildFiji.Replay
