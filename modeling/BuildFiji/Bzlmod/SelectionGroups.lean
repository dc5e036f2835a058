import BuildFiji.Bzlmod.Selection
import Mathlib.Data.List.Induction
import Mathlib.Data.List.Nodup
import Mathlib.Order.MinMax

/-!
# What the groups select

The target of a module is the least of the allowed versions, and the empty one,
that are not below its own; a group keeps the greatest version of its members;
an edge goes to the least version kept by a group that may take it.
-/

set_option autoImplicit false
set_option linter.all false

namespace BuildFiji.Bzlmod

/-- The versions a `multiple_version_override` allows. -/
def ModuleOverride.allowed : ModuleOverride → List Version
  | .multipleVersion mvo => mvo.versions
  | _ => []

def allowedVersions (overrides : Overrides) (name : String) : List Version :=
  (overrides[name]?.map ModuleOverride.allowed).getD []

structure AllowedOk (depGraph : DepGraph) (sets : AllowedVersionSets) (name : String)
    (versions : List Version) : Prop where
  absent : versions = [] → sets[name]? = none
  present : versions ≠ [] → ∃ s, sets[name]? = some s ∧ ∀ v, v ∈ s ↔ v = .empty ∨ v ∈ versions
  discovered : ∀ v ∈ versions, ⟨name,v⟩ ∈ depGraph

theorem mem_insert_empty (v : Version) :
    v ∈ (∅ : VersionSet).insert .empty ↔ v = .empty := by
  rw [Std.ExtTreeSet.mem_insert, Std.LawfulEqOrd.compare_eq_iff_eq]
  simp [eq_comm]

theorem sets_insert (sets : AllowedVersionSets) (name n : String) (s : VersionSet) :
    (sets.insert name s)[n]? = if n = name then some s else sets[n]? := by
  rw [Std.ExtTreeMap.getElem?_insert]
  exact if_congr (Std.LawfulEqOrd.compare_eq_iff_eq.trans eq_comm) rfl rfl

theorem allowVersions_ok {depGraph : DepGraph} {name : String} (vs : List Version)
    {sets sets' : AllowedVersionSets} (h : allowVersions depGraph name sets vs = .ok sets') :
    (∀ v ∈ vs, ⟨name,v⟩ ∈ depGraph) ∧ (∀ n, n ≠ name → sets'[n]? = sets[n]?) ∧
    (vs = [] → sets' = sets) ∧ (vs ≠ [] → ∃ s, sets'[name]? = some s ∧ ∀ v, v ∈ s ↔
      v ∈ sets[name]?.getD ((∅ : VersionSet).insert .empty) ∨ v ∈ vs) := by
  induction vs generalizing sets with
  | nil =>
    cases h
    simp
  | cons v vs ih =>
    rw [allowVersions] at h
    split at h
    · cases h
    · next hv =>
      obtain ⟨h1,h2,h3,h4⟩ := ih h
      refine ⟨fun w hw => ?_,fun n hn => ?_,by simp,fun _ => ?_⟩
      · rcases List.mem_cons.mp hw with rfl | hw
        · exact not_not.mp hv
        · exact h1 w hw
      · rw [h2 n hn, sets_insert, if_neg hn]
      · by_cases hvs : vs = []
        · refine ⟨_,by rw [h3 hvs, sets_insert, if_pos rfl],fun w => ?_⟩
          rw [Std.ExtTreeSet.mem_insert, Std.LawfulEqOrd.compare_eq_iff_eq, hvs,
            List.mem_singleton, or_comm, eq_comm]
        · obtain ⟨s,hs,hmem⟩ := h4 hvs
          refine ⟨s,hs,fun w => ?_⟩
          rw [hmem, sets_insert, if_pos rfl, Option.getD_some, Std.ExtTreeSet.mem_insert,
            Std.LawfulEqOrd.compare_eq_iff_eq, List.mem_cons]
          grind

theorem allowOverride_ok {depGraph : DepGraph} {e : String × ModuleOverride}
    {sets sets' : AllowedVersionSets} (hnone : sets[e.1]? = none)
    (h : allowOverride depGraph sets e = .ok sets') :
    AllowedOk depGraph sets' e.1 e.2.allowed ∧ ∀ n, n ≠ e.1 → sets'[n]? = sets[n]? := by
  obtain ⟨name,o⟩ := e
  cases o with
  | multipleVersion mvo =>
    obtain ⟨h1,h2,h3,h4⟩ := allowVersions_ok mvo.versions h
    refine ⟨⟨fun hnil => by rw [h3 hnil, hnone],fun hne => ?_,h1⟩,h2⟩
    obtain ⟨s,hs,hmem⟩ := h4 hne
    refine ⟨s,hs,fun v => ?_⟩
    rw [hmem, hnone, Option.getD_none, mem_insert_empty]
    rfl
  | singleVersion svo =>
    cases h
    exact ⟨⟨fun _ => hnone,fun hne => absurd rfl hne,by simp [ModuleOverride.allowed]⟩,
      fun _ _ => rfl⟩
  | nonRegistry o =>
    cases h
    exact ⟨⟨fun _ => hnone,fun hne => absurd rfl hne,by simp [ModuleOverride.allowed]⟩,
      fun _ _ => rfl⟩

theorem AllowedOk.congr {depGraph : DepGraph} {sets sets' : AllowedVersionSets} {name : String}
    {vs : List Version} (h : AllowedOk depGraph sets name vs) (he : sets'[name]? = sets[name]?) :
    AllowedOk depGraph sets' name vs :=
  ⟨fun hn => he.trans (h.absent hn),fun hn => by rw [he]; exact h.present hn,h.discovered⟩

theorem foldlM_allowed {depGraph : DepGraph} (entries : List (String × ModuleOverride))
    (hnd : (entries.map Prod.fst).Nodup) {sets sets' : AllowedVersionSets}
    (hnone : ∀ e ∈ entries, sets[e.1]? = none)
    (h : entries.foldlM (allowOverride depGraph) sets = .ok sets') :
    (∀ e ∈ entries, AllowedOk depGraph sets' e.1 e.2.allowed) ∧ ∀ n, n ∉ entries.map Prod.fst → sets'[n]? = sets[n]? := by
  induction entries generalizing sets with
  | nil =>
    cases h
    simp
  | cons e entries ih =>
    rw [List.foldlM_cons, Fallible.bind_ok] at h
    obtain ⟨sets1,h1,h2⟩ := h
    rw [List.map_cons, List.nodup_cons] at hnd
    obtain ⟨hok,hsame⟩ := allowOverride_ok (hnone e List.mem_cons_self) h1
    have hne : ∀ e' ∈ entries, e'.1 ≠ e.1 := fun e' he' heq =>
      hnd.1 (heq ▸ List.mem_map_of_mem he')
    obtain ⟨hrest,hkeep⟩ := ih hnd.2 (fun e' he' => by
      rw [hsame _ (hne e' he')]
      exact hnone e' (List.mem_cons_of_mem _ he')) h2
    refine ⟨fun e' he' => ?_,fun n hn => ?_⟩
    · rcases List.mem_cons.mp he' with rfl | he'
      · exact hok.congr (hkeep _ hnd.1)
      · exact hrest e' he'
    · rw [List.map_cons, List.mem_cons, not_or] at hn
      rw [hkeep n hn.2, hsame n hn.1]

theorem computeAllowedVersionSets_ok {overrides : Overrides} {depGraph : DepGraph}
    {sets : AllowedVersionSets} (h : computeAllowedVersionSets overrides depGraph = .ok sets)
    (name : String) : AllowedOk depGraph sets name (allowedVersions overrides name) := by
  have hnd : (overrides.toList.map Prod.fst).Nodup := by
    rw [Std.ExtTreeMap.map_fst_toList_eq_keys]
    exact Std.ExtTreeMap.nodup_keys
  obtain ⟨hin,hout⟩ := foldlM_allowed overrides.toList hnd (fun _ _ => by simp) h
  by_cases hmem : name ∈ overrides.toList.map Prod.fst
  · obtain ⟨⟨n,o⟩,he,rfl⟩ := List.mem_map.mp hmem
    have ho := Std.ExtTreeMap.mem_toList_iff_getElem?_eq_some.mp he
    rw [allowedVersions, ho]
    exact hin _ he
  · have hno : overrides[name]? = none := by
      cases ho : overrides[name]? with
      | none => rfl
      | some o =>
        exact absurd (List.mem_map_of_mem
          (Std.ExtTreeMap.mem_toList_iff_getElem?_eq_some.mpr ho)) hmem
    have hnone := hout name hmem
    rw [allowedVersions, hno]
    exact ⟨fun _ => by simpa using hnone,fun hne => absurd rfl hne,by simp⟩

section Target
variable {overrides : Overrides} {depGraph : DepGraph} {sets : AllowedVersionSets}

theorem find?_isLeast {α : Type*} [LinearOrder α] {l : List α} (hl : l.Pairwise (· < ·))
    {p : α → Bool} {v : α} (h : l.find? p = some v) : IsLeast {w | w ∈ l ∧ p w = true} v := by
  obtain ⟨hp,pre,post,rfl,hpre⟩ := List.find?_eq_some_iff_append.mp h
  refine ⟨⟨by simp,hp⟩,?_⟩
  rintro w ⟨hw,hpw⟩
  rcases List.mem_append.mp hw with hw | hw
  · have := hpre w hw
    simp [hpw] at this
  · rcases List.mem_cons.mp hw with rfl | hw
    · exact le_rfl
    · exact ((List.pairwise_cons.mp (List.pairwise_append.mp hl).2.1).1 w hw).le

/-- What a module may snap up to. -/
def targets (overrides : Overrides) (key : ModuleKey) : Set Version :=
  {v | (v = .empty ∨ v ∈ allowedVersions overrides key.name) ∧ key.version ≤ v}

theorem target_isLeast (h : computeAllowedVersionSets overrides depGraph = .ok sets)
    (key : ModuleKey) :
    IsLeast (targets overrides key) (computeSelectionGroup sets key).targetAllowedVersion := by
  obtain ⟨habs,hpres,-⟩ := computeAllowedVersionSets_ok h key.name
  by_cases hnil : allowedVersions overrides key.name = []
  · simp only [targets, computeSelectionGroup, habs hnil, hnil, List.not_mem_nil, or_false]
    refine ⟨⟨rfl,Version.le_empty _⟩,?_⟩
    rintro v ⟨rfl,-⟩
    exact le_rfl
  · obtain ⟨s,hs,hmem⟩ := hpres hnil
    simp only [targets, computeSelectionGroup, hs, ← hmem]
    have hsorted : s.toList.Pairwise (· < ·) := Std.ExtTreeSet.ordered_toList.imp Std.compare_eq_lt.mp
    cases hf : s.toList.find? fun v => key.version ≤ v with
    | none =>
      have hno := List.find?_eq_none.mp hf .empty
        (Std.ExtTreeSet.mem_toList.mpr ((hmem _).mpr (.inl rfl)))
      exact absurd (Version.le_empty _) (by simpa using hno)
    | some v => simpa [Std.ExtTreeSet.mem_toList] using find?_isLeast hsorted hf

theorem group_of_not_overridden (h : computeAllowedVersionSets overrides depGraph = .ok sets)
    {key : ModuleKey} (hnil : allowedVersions overrides key.name = []) :
    computeSelectionGroup sets key = ⟨key.name,.empty⟩ := by
  have ht := (target_isLeast h key).1.1
  rw [hnil] at ht
  have ht : (computeSelectionGroup sets key).targetAllowedVersion = .empty := by simpa using ht
  rw [← ht]
  rfl

theorem group_of_allowed (h : computeAllowedVersionSets overrides depGraph = .ok sets)
    {key : ModuleKey} (hv : key.version ∈ allowedVersions overrides key.name) :
    computeSelectionGroup sets key = ⟨key.name,key.version⟩ := by
  have ht := target_isLeast h key
  have heq := le_antisymm (ht.2 ⟨.inr hv,le_rfl⟩) ht.1.2
  rw [← heq]
  rfl

end Target

section Selected

/-- Each group has the greatest of the versions of its members. -/
structure Kept (entries : List (ModuleKey × SelectionGroup)) (selected : SelectedVersions) :
    Prop where
  kept : ∀ e ∈ entries, ∃ v, selected[e.2]? = some v
  greatest : ∀ g v, selected[g]? = some v →
    IsGreatest {w | ∃ e ∈ entries, e.2 = g ∧ e.1.version = w} v

theorem selected_insert (selected : SelectedVersions) (g g' : SelectionGroup) (v : Version) :
    (selected.insert g v)[g']? = if g = g' then some v else selected[g']? := by
  rw [Std.ExtTreeMap.getElem?_insert]
  exact if_congr Std.LawfulEqOrd.compare_eq_iff_eq rfl rfl

theorem select_getElem? (selected : SelectedVersions) (e : ModuleKey × SelectionGroup)
    (g : SelectionGroup) :
    (select selected e)[g]? = if e.2 = g then
      some ((selected[g]?.map fun v => max v e.1.version).getD e.1.version) else selected[g]? := by
  unfold select
  split
  · next hnone =>
    rw [selected_insert]
    split
    · next heq => rw [← heq, hnone, Option.map_none, Option.getD_none]
    · rfl
  · next v hsome =>
    split
    · next hlt =>
      rw [selected_insert]
      split
      · next heq =>
        rw [← heq, hsome]
        exact congrArg some (max_eq_right hlt.le).symm
      · rfl
    · next hle =>
      split
      · next heq =>
        rw [← heq, hsome]
        exact congrArg some (max_eq_left (le_of_not_gt hle)).symm
      · rfl

theorem Kept.select {entries : List (ModuleKey × SelectionGroup)} {selected : SelectedVersions}
    (h : Kept entries selected) (e : ModuleKey × SelectionGroup) :
    Kept (entries ++ [e]) (select selected e) := by
  constructor
  · intro e' he'
    rw [select_getElem?]
    split
    · exact ⟨_,rfl⟩
    · next hne =>
      rcases List.mem_append.mp he' with he' | he'
      · exact h.kept e' he'
      · exact absurd (by rw [List.mem_singleton.mp he']) hne
  · intro g v hv
    rw [select_getElem?] at hv
    split at hv
    · next heq =>
      subst heq
      cases hs : selected[e.2]? with
      | none =>
        rw [hs] at hv
        cases hv
        refine ⟨⟨e,by simp,rfl,rfl⟩,?_⟩
        rintro w ⟨e',he',hg,rfl⟩
        rcases List.mem_append.mp he' with he' | he'
        · obtain ⟨v,hv⟩ := h.kept e' he'
          rw [hg, hs] at hv
          cases hv
        · rw [List.mem_singleton.mp he']
          exact le_rfl
      | some u =>
        rw [hs] at hv
        cases hv
        obtain ⟨⟨e0,he0,hg0,hu⟩,hle⟩ := h.greatest _ _ hs
        constructor
        · rcases max_choice u e.1.version with hm | hm
          · exact ⟨e0,List.mem_append_left _ he0,hg0,hu.trans hm.symm⟩
          · exact ⟨e,by simp,rfl,hm.symm⟩
        · rintro w ⟨e',he',hg,rfl⟩
          rcases List.mem_append.mp he' with he' | he'
          · exact le_max_of_le_left (hle ⟨e',he',hg,rfl⟩)
          · rw [List.mem_singleton.mp he']
            exact le_max_right _ _
    · next hne =>
      obtain ⟨⟨e0,he0,hg0,hu⟩,hle⟩ := h.greatest _ _ hv
      refine ⟨⟨e0,List.mem_append_left _ he0,hg0,hu⟩,?_⟩
      rintro w ⟨e',he',hg,rfl⟩
      rcases List.mem_append.mp he' with he' | he'
      · exact hle ⟨e',he',hg,rfl⟩
      · rw [List.mem_singleton.mp he'] at hg
        exact absurd hg hne

theorem foldl_kept (entries : List (ModuleKey × SelectionGroup)) :
    Kept entries (entries.foldl select ∅) := by
  induction entries using List.reverseRecOn with
  | nil => exact ⟨by simp,by simp⟩
  | append_singleton entries e ih =>
    rw [List.foldl_append]
    exact ih.select e

end Selected

section Resolve
variable {overrides : Overrides} {depGraph : DepGraph} {sets : AllowedVersionSets}

/-- The versions of the members of a group. -/
def members (sets : AllowedVersionSets) (depGraph : DepGraph) (g : SelectionGroup) : Set Version :=
  {v | ∃ k ∈ depGraph, computeSelectionGroup sets k = g ∧ k.version = v}

theorem selectionGroups_getElem? {k : ModuleKey} {m : Module} (h : depGraph[k]? = some m) :
    (selectionGroups sets depGraph)[k]? = some (computeSelectionGroup sets k) := by
  rw [selectionGroups, Std.ExtTreeMap.getElem?_map, h]
  rfl

theorem mem_selectionGroups {e : ModuleKey × SelectionGroup} :
    e ∈ (selectionGroups sets depGraph).toList ↔
      e.1 ∈ depGraph ∧ computeSelectionGroup sets e.1 = e.2 := by
  obtain ⟨k,g⟩ := e
  rw [Std.ExtTreeMap.mem_toList_iff_getElem?_eq_some]
  constructor
  · intro h
    rw [selectionGroups, Std.ExtTreeMap.getElem?_map, Option.map_eq_some_iff] at h
    obtain ⟨m,hm,rfl⟩ := h
    exact ⟨Std.ExtTreeMap.mem_iff_isSome_getElem?.mpr (by simp [hm]),rfl⟩
  · rintro ⟨hk,hg⟩
    obtain ⟨m,hm⟩ := Option.isSome_iff_exists.mp (Std.ExtTreeMap.mem_iff_isSome_getElem?.mp hk)
    exact (selectionGroups_getElem? hm).trans (congrArg some hg)

theorem selected_of_mem {k : ModuleKey} (hk : k ∈ depGraph) :
    ∃ v, (selectedVersions (selectionGroups sets depGraph))[computeSelectionGroup sets k]? =
      some v :=
  (foldl_kept _).kept (k,computeSelectionGroup sets k) (mem_selectionGroups.mpr ⟨hk,rfl⟩)

theorem selected_isGreatest {g : SelectionGroup} {v : Version}
    (h : (selectedVersions (selectionGroups sets depGraph))[g]? = some v) :
    IsGreatest (members sets depGraph g) v := by
  have hset : members sets depGraph g =
      {w | ∃ e ∈ (selectionGroups sets depGraph).toList, e.2 = g ∧ e.1.version = w} := by
    ext w
    constructor
    · rintro ⟨k,hk,rfl,rfl⟩
      exact ⟨(k,computeSelectionGroup sets k),mem_selectionGroups.mpr ⟨hk,rfl⟩,rfl,rfl⟩
    · rintro ⟨e,he,rfl,rfl⟩
      obtain ⟨hk,hg⟩ := mem_selectionGroups.mp he
      exact ⟨e.1,hk,hg,rfl⟩
  rw [hset]
  exact (foldl_kept _).greatest g v h

/-- What a group keeps is the version of a member. -/
theorem selected_member {g : SelectionGroup} {v : Version}
    (h : (selectedVersions (selectionGroups sets depGraph))[g]? = some v) :
    ⟨g.moduleName,v⟩ ∈ depGraph ∧ computeSelectionGroup sets ⟨g.moduleName,v⟩ = g := by
  obtain ⟨⟨k,hk,rfl,rfl⟩,-⟩ := selected_isGreatest h
  exact ⟨hk,rfl⟩

/-- The versions an edge may be rewritten to. -/
def candidates (selected : SelectedVersions) (d : DepSpec) : Set Version :=
  {v | ∃ g : SelectionGroup, selected[g]? = some v ∧ g.moduleName = d.name ∧
    d.version ≤ g.targetAllowedVersion}

theorem mem_candidates {selected : SelectedVersions} {d : DepSpec} (v : Version) :
    v ∈ (selected.toList.filter fun entry => entry.1.moduleName = d.name ∧
      d.version ≤ entry.1.targetAllowedVersion).map Prod.snd ↔ v ∈ candidates selected d := by
  simp only [List.mem_map, List.mem_filter, decide_eq_true_eq]
  constructor
  · rintro ⟨⟨g,v⟩,⟨hs,hg⟩,rfl⟩
    exact ⟨g,Std.ExtTreeMap.mem_toList_iff_getElem?_eq_some.mp hs,hg⟩
  · rintro ⟨g,hs,hg⟩
    exact ⟨(g,v),⟨Std.ExtTreeMap.mem_toList_iff_getElem?_eq_some.mpr hs,hg⟩,rfl⟩

theorem resolve_isLeast {selected : SelectedVersions} {d : DepSpec} {v : Version}
    (hv : v ∈ candidates selected d) :
    IsLeast (candidates selected d) (resolve selected d).version := by
  obtain ⟨w,hw⟩ := Option.isSome_iff_exists.mp
    (List.isSome_min?_of_mem ((mem_candidates v).mpr hv))
  have hleast := List.min?_eq_some_iff.mp hw
  simp only [mem_candidates] at hleast
  have heq : (resolve selected d).version = w := by
    rw [resolve, resolveDep, hw]
    rfl
  rw [heq]
  exact hleast

section Edge
variable (h : computeAllowedVersionSets overrides depGraph = .ok sets)
include h

theorem selected_not_overridden {g : SelectionGroup}
    (hnil : allowedVersions overrides g.moduleName = []) {v : Version}
    (hv : (selectedVersions (selectionGroups sets depGraph))[g]? = some v) :
    IsGreatest {w | ⟨g.moduleName,w⟩ ∈ depGraph} v := by
  obtain ⟨hmem,hg⟩ := selected_member hv
  refine ⟨hmem,fun w hw => (selected_isGreatest hv).2 ⟨_,hw,?_,rfl⟩⟩
  rw [group_of_not_overridden h hnil, ← hg, group_of_not_overridden h hnil]

theorem selected_allowed {key : ModuleKey} (hv : key.version ∈ allowedVersions overrides key.name) :
    (selectedVersions (selectionGroups sets depGraph))[(⟨key.name,key.version⟩ : SelectionGroup)]? =
      some key.version := by
  have hk : key ∈ depGraph := (computeAllowedVersionSets_ok h key.name).discovered _ hv
  obtain ⟨w,hw⟩ := @selected_of_mem depGraph sets key hk
  rw [group_of_allowed h hv] at hw
  have hge : key.version ≤ w := (selected_isGreatest hw).2 ⟨key,hk,group_of_allowed h hv,rfl⟩
  have hle : w ≤ (computeSelectionGroup sets ⟨key.name,w⟩).targetAllowedVersion :=
    (target_isLeast h ⟨key.name,w⟩).1.2
  rw [(selected_member hw).2] at hle
  rw [hw, le_antisymm hle hge]

/-- An edge of the graph is rewritten to a module of the graph. -/
theorem resolve_mem {d : DepSpec} (hd : d.toModuleKey ∈ depGraph) :
    IsLeast (candidates (selectedVersions (selectionGroups sets depGraph)) d)
      (resolve (selectedVersions (selectionGroups sets depGraph)) d).version ∧
    (resolve (selectedVersions (selectionGroups sets depGraph)) d).toModuleKey ∈ depGraph := by
  obtain ⟨v,hv⟩ := @selected_of_mem depGraph sets d.toModuleKey hd
  have hleast := resolve_isLeast ⟨_,hv,rfl,(target_isLeast h d.toModuleKey).1.2⟩
  obtain ⟨g,hg,hname,-⟩ := hleast.1
  have hmem := (selected_member hg).1
  rw [hname] at hmem
  exact ⟨hleast,hmem⟩

theorem resolve_not_overridden {d : DepSpec} (hd : d.toModuleKey ∈ depGraph)
    (hnil : allowedVersions overrides d.name = []) :
    IsGreatest {w | ⟨d.name,w⟩ ∈ depGraph}
      (resolve (selectedVersions (selectionGroups sets depGraph)) d).version := by
  obtain ⟨g,hg,hname,-⟩ := (resolve_mem h hd).1.1
  rw [← hname] at hnil ⊢
  exact selected_not_overridden h hnil hg

/-- Under an override that allows the version it goes to, an edge goes to the
lowest allowed version that is not below the one it asks for. -/
theorem resolve_overridden {d : DepSpec} (hd : d.toModuleKey ∈ depGraph)
    (ht : (computeSelectionGroup sets (resolve (selectedVersions
      (selectionGroups sets depGraph)) d).toModuleKey).targetAllowedVersion ≠ .empty) :
    IsLeast {v | v ∈ allowedVersions overrides d.name ∧ d.version ≤ v}
      (resolve (selectedVersions (selectionGroups sets depGraph)) d).version := by
  obtain ⟨⟨⟨g,hg,hname,hle⟩,hmin⟩,-⟩ := resolve_mem h hd
  obtain ⟨hmem,hgroup⟩ := selected_member hg
  have hkey : (resolve (selectedVersions (selectionGroups sets depGraph)) d).toModuleKey =
      ⟨g.moduleName,(resolve (selectedVersions (selectionGroups sets depGraph)) d).version⟩ := by
    rw [hname]
    rfl
  rw [hkey, hgroup] at ht
  have htarget := (target_isLeast h ⟨g.moduleName,
    (resolve (selectedVersions (selectionGroups sets depGraph)) d).version⟩).1
  rw [targets, hgroup] at htarget
  have hallowed : g.targetAllowedVersion ∈ allowedVersions overrides g.moduleName :=
    htarget.1.resolve_left ht
  -- The allowed version is a member of its own group, and its greatest.
  have hself := @selected_allowed _ _ _ h ⟨g.moduleName,g.targetAllowedVersion⟩ hallowed
  have heq := Option.some.inj (hg.symm.trans hself)
  rw [hname] at hallowed
  refine ⟨⟨heq ▸ hallowed,heq ▸ hle⟩,?_⟩
  rintro u ⟨hu,hdu⟩
  exact hmin ⟨⟨d.name,u⟩,@selected_allowed _ _ _ h ⟨d.name,u⟩ hu,rfl,hdu⟩

end Edge

end Resolve

end BuildFiji.Bzlmod
