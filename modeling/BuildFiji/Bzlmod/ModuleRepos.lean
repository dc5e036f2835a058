import BuildFiji.Bzlmod.Extensions
import BuildFiji.Bzlmod.SelectionWalk

/-!
# Repositories of the selected modules

The canonical repo name of a selected module has its version only where several
versions of the module are kept. The table from names to modules has no version in
any name.
-/

set_option autoImplicit false
set_option linter.all false

namespace BuildFiji.Bzlmod

def Selection.keys (sel : Selection) : List ModuleKey := sel.resolved.map Prod.fst

namespace Resolution
variable (res : Resolution)

/-- Of two modules of one name the later stays. -/
def canonicalRepoNames : Std.ExtTreeMap String ModuleKey :=
  .ofList (res.selection.keys.map fun key => (key.canonicalRepoName,key))

structure NamesInverse : Prop where
  injective : ∀ k ∈ res.selection.keys, ∀ l ∈ res.selection.keys,
    res.canonicalNameOf k = res.canonicalNameOf l → k = l
  entries : res.canonicalRepoNames.size = res.selection.keys.length
  inverse : ∀ k ∈ res.selection.keys, res.canonicalRepoNames[res.canonicalNameOf k]? = some k

/-- More than one version of the module is kept. -/
def Several (key : ModuleKey) : Prop :=
  res.selection.resolved.countP (fun p => p.1.name == key.name) > 1

instance (key : ModuleKey) : Decidable (res.Several key) := inferInstanceAs (Decidable (_ > 1))

theorem canonicalNameOf_eq (key : ModuleKey) : res.canonicalNameOf key =
    if res.Several key then key.canonicalRepoNameWithVersion.getD key.canonicalRepoName
    else key.canonicalRepoName := by
  rw [canonicalNameOf]
  by_cases hmany : res.Several key
  · have hcount : res.selection.resolved.countP (fun p => p.1.name == key.name) > 1 := hmany
    rw [if_pos hmany, if_pos hcount]
    cases key.canonicalRepoNameWithVersion <;> rfl
  · have hcount : ¬res.selection.resolved.countP (fun p => p.1.name == key.name) > 1 := hmany
    rw [if_neg hmany, if_neg hcount]

end Resolution

section Names

variable {k l : ModuleKey} {name : String}

theorem key_ext (hname : k.name = l.name) (hversion : k.version = l.version) : k = l := by
  obtain ⟨name,version⟩ := k
  obtain ⟨name',version'⟩ := l
  cases hname
  cases hversion
  rfl

theorem wellKnownRepoName_some (h : k.wellKnownRepoName = some name) :
    name = k.name ∧ k.name ∈ ModuleKey.wellKnownModules := by
  have hname : name = k.name := by simpa using List.find?_some h
  exact ⟨hname,hname ▸ List.mem_of_find?_eq_some h⟩

theorem wellKnownRepoName_none (h : k.wellKnownRepoName = none) :
    k.name ∉ ModuleKey.wellKnownModules := fun hmem => by
  simpa using List.find?_eq_none.mp h k.name hmem

def told (k : ModuleKey) (versioned : Bool) : String := if versioned then k.version.normalized else ""

/-- One form for the names with a version and those without. -/
def nameForm (k : ModuleKey) (versioned : Bool) : String :=
  if k.name ∈ ModuleKey.wellKnownModules ∨ k.isRoot then k.name
  else k.name ++ "+" ++ told k versioned

theorem canonicalRepoName_form (k : ModuleKey) : k.canonicalRepoName = nameForm k false := by
  rw [ModuleKey.canonicalRepoName, nameForm]
  cases hw : k.wellKnownRepoName with
  | some name =>
    obtain ⟨rfl,hmem⟩ := wellKnownRepoName_some hw
    simp [hmem]
  | none =>
    have hno := wellKnownRepoName_none hw
    cases hr : k.isRoot with
    | true =>
      obtain rfl := ModuleKey.isRoot_iff.mp hr
      rfl
    | false => simp [hno, told]

theorem canonicalNameOf_form (res : Resolution) (k : ModuleKey) :
    res.canonicalNameOf k = nameForm k (decide (res.Several k)) := by
  rw [res.canonicalNameOf_eq, canonicalRepoName_form]
  by_cases hmany : res.Several k
  · rw [if_pos hmany, decide_eq_true hmany, ModuleKey.canonicalRepoNameWithVersion, nameForm, nameForm]
    cases hw : k.wellKnownRepoName with
    | some name =>
      obtain ⟨rfl,hmem⟩ := wellKnownRepoName_some hw
      simp [hmem]
    | none =>
      have hno := wellKnownRepoName_none hw
      cases hv : k.version.isEmpty with
      | true =>
        have hnormal : k.version.normalized = "" := beq_iff_eq.mp hv
        simp [told, hnormal]
      | false =>
        have hroot : k.isRoot = false := by simp [ModuleKey.isRoot, hv]
        simp [hno, hroot, told]
  · rw [if_neg hmany, decide_eq_false hmany]

theorem nameForm_cases (k : ModuleKey) (versioned : Bool) :
    nameForm k versioned = k.name ∧ '+' ∉ k.name.toList ∧
        (k.name ∈ ModuleKey.wellKnownModules ∨ k = .root) ∨
      nameForm k versioned = k.name ++ "+" ++ told k versioned ∧
        k.name ∉ ModuleKey.wellKnownModules ∧ '+' ∉ (told k versioned).toList := by
  rw [nameForm]
  split
  · next h =>
    refine .inl ⟨rfl,?_,h.imp_right ModuleKey.isRoot_iff.mp⟩
    rcases h with h | h
    · have hall : ∀ name ∈ ModuleKey.wellKnownModules, '+' ∉ name.toList := by decide
      exact hall _ h
    · rw [ModuleKey.isRoot_iff.mp h]
      exact List.not_mem_nil
  · next h =>
    refine .inr ⟨rfl,fun hmem => h (.inl hmem),?_⟩
    rw [told]
    split
    · exact version_plus k.version
    · exact List.not_mem_nil

/-- The name of a module tells its own name, and all that stands after it. -/
theorem nameForm_eq {b c : Bool} (h : nameForm k b = nameForm l c) :
    k.name = l.name ∧ (k.name ∈ ModuleKey.wellKnownModules ∨ k = .root ∧ l = .root ∨
      told k b = told l c) := by
  rcases nameForm_cases k b with ⟨hk,hplus,hkind⟩ | ⟨hk,hno,htold⟩ <;>
    rcases nameForm_cases l c with ⟨hl,hplus',hkind'⟩ | ⟨hl,hno',htold'⟩ <;> rw [hk, hl] at h
  · refine ⟨h,?_⟩
    rcases hkind with hwell | rfl
    · exact .inl hwell
    · rcases hkind' with hwell | rfl
      · exact .inl (h ▸ hwell)
      · exact .inr (.inl ⟨rfl,rfl⟩)
  · exact absurd (h ▸ hplus) (by simp)
  · exact absurd (h ▸ hplus') (by simp)
  · have h := congrArg String.toList h
    simp only [String.toList_append, List.append_assoc] at h
    obtain ⟨hname,hend⟩ := Text.append_last_inj htold htold' h
    exact ⟨String.toList_injective hname,.inr (.inr (String.toList_injective hend))⟩

end Names

section Selected

variable {res : Resolution} {k l : ModuleKey}

theorem several_iff (hnodup : res.selection.keys.Nodup) (hk : k ∈ res.selection.keys) :
    res.Several k ↔ ∃ l ∈ res.selection.keys, l.name = k.name ∧ l ≠ k := by
  have hcount : res.selection.resolved.countP (fun p => p.1.name == k.name) =
      (res.selection.keys.filter fun l => l.name == k.name).length := by
    rw [← List.countP_eq_length_filter, Selection.keys, List.countP_map]
    rfl
  rw [Resolution.Several, hcount]
  constructor
  · intro hmany
    by_contra hno
    have hsub : (res.selection.keys.filter fun l => l.name == k.name) ⊆ [k] := by
      intro l hl
      obtain ⟨hl,hname⟩ := List.mem_filter.mp hl
      rw [List.mem_singleton]
      by_contra hne
      exact hno ⟨l,hl,beq_iff_eq.mp hname,hne⟩
    have hle := (List.subperm_of_subset (hnodup.filter _) hsub).length_le
    rw [List.length_singleton] at hle
    omega
  · rintro ⟨l,hl,hname,hne⟩
    have hsub : [l,k] ⊆ res.selection.keys.filter fun l => l.name == k.name := by
      intro m hm
      rcases List.mem_pair.mp hm with rfl | rfl
      · exact List.mem_filter.mpr ⟨hl,beq_iff_eq.mpr hname⟩
      · exact List.mem_filter.mpr ⟨hk,beq_iff_eq.mpr rfl⟩
    have hle := (List.subperm_of_subset (by simpa using hne) hsub).length_le
    rw [List.length_cons, List.length_singleton] at hle
    omega

theorem not_several (hnodup : res.selection.keys.Nodup)
    (hnames : (res.selection.keys.map ModuleKey.name).Nodup) (hk : k ∈ res.selection.keys) :
    ¬res.Several k := by
  rw [several_iff hnodup hk]
  rintro ⟨l,hl,hname,hne⟩
  exact hne ((List.nodup_map_iff_inj_on hnodup).mp hnames l hl k hk hname)

/-- The names of two versions of a module differ, unless its repo has a name of its own. -/
theorem canonicalNameOf_injective_iff (hnodup : res.selection.keys.Nodup) :
    (∀ k ∈ res.selection.keys, ∀ l ∈ res.selection.keys,
        res.canonicalNameOf k = res.canonicalNameOf l → k = l) ↔
      ∀ k ∈ res.selection.keys, ∀ l ∈ res.selection.keys, k.name = l.name →
        k.name ∈ ModuleKey.wellKnownModules → k = l := by
  constructor
  · intro h k hk l hl hname hwell
    apply h k hk l hl
    rw [canonicalNameOf_form, canonicalNameOf_form, nameForm, nameForm, if_pos (.inl hwell),
      if_pos (.inl (hname ▸ hwell)), hname]
  · intro h k hk l hl heq
    rw [canonicalNameOf_form, canonicalNameOf_form] at heq
    obtain ⟨hname,hwell | ⟨rfl,rfl⟩ | htold⟩ := nameForm_eq heq
    · exact h k hk l hl hname hwell
    · rfl
    · by_contra hne
      have hmany := (several_iff hnodup hk).mpr ⟨l,hl,hname.symm,Ne.symm hne⟩
      have hmany' := (several_iff hnodup hl).mpr ⟨k,hk,hname,hne⟩
      rw [decide_eq_true hmany, decide_eq_true hmany', told, told, if_pos rfl, if_pos rfl] at htold
      exact hne (key_ext hname (Version.ext_normalized htold))

/-- A name with a version is in no row. -/
theorem canonicalRepoNames_versioned (hmany : res.Several k) (hversion : k.version ≠ .empty)
    (hwell : k.name ∉ ModuleKey.wellKnownModules) :
    res.canonicalRepoNames[res.canonicalNameOf k]? = none := by
  have hno : ∀ l : ModuleKey, l.canonicalRepoName ≠ res.canonicalNameOf k := by
    intro l heq
    rw [canonicalRepoName_form, canonicalNameOf_form, decide_eq_true hmany] at heq
    obtain ⟨hname,hl | ⟨-,rfl⟩ | htold⟩ := nameForm_eq heq
    · exact hwell (hname ▸ hl)
    · exact hversion rfl
    · exact hversion (Version.isEmpty_iff.mp (beq_iff_eq.mpr htold.symm))
  apply Std.ExtTreeMap.getElem?_ofList_of_contains_eq_false
  simp [hno]

theorem canonicalRepoNames_distinct (hnodup : res.selection.keys.Nodup)
    (hnames : (res.selection.keys.map ModuleKey.name).Nodup) :
    (res.selection.keys.map fun key => (key.canonicalRepoName,key)).Pairwise
      fun a b => ¬compare a.1 b.1 = .eq := by
  rw [List.pairwise_map]
  refine hnodup.imp_of_mem fun {k l} hk hl hne heq => hne ?_
  have heq := Std.LawfulEqOrd.eq_of_compare heq
  rw [canonicalRepoName_form, canonicalRepoName_form] at heq
  exact (List.nodup_map_iff_inj_on hnodup).mp hnames k hk l hl (nameForm_eq heq).1

/-- The table is right just if no two versions of a module are kept. -/
theorem namesInverse_iff (hnodup : res.selection.keys.Nodup) :
    res.NamesInverse ↔ (res.selection.keys.map ModuleKey.name).Nodup := by
  constructor
  · intro h
    rw [List.nodup_map_iff_inj_on hnodup]
    intro k hk l hl hname
    by_contra hne
    have hmany := (several_iff hnodup hk).mpr ⟨l,hl,hname.symm,Ne.symm hne⟩
    have hmany' := (several_iff hnodup hl).mpr ⟨k,hk,hname,hne⟩
    have hwell : k.name ∉ ModuleKey.wellKnownModules := fun hwell =>
      hne ((canonicalNameOf_injective_iff hnodup).mp h.injective k hk l hl hname hwell)
    by_cases hversion : k.version = .empty
    · have hversion' : l.version ≠ .empty := fun he => hne (key_ext hname (hversion.trans he.symm))
      have hrow := h.inverse l hl
      rw [canonicalRepoNames_versioned hmany' hversion' (hname ▸ hwell)] at hrow
      cases hrow
    · have hrow := h.inverse k hk
      rw [canonicalRepoNames_versioned hmany hversion hwell] at hrow
      cases hrow
  · intro hnames
    have hplain : ∀ k ∈ res.selection.keys, res.canonicalNameOf k = k.canonicalRepoName :=
      fun k hk => by rw [res.canonicalNameOf_eq, if_neg (not_several hnodup hnames hk)]
    have hdistinct := canonicalRepoNames_distinct hnodup hnames
    refine ⟨fun k hk l hl heq => ?_,?_,fun k hk => ?_⟩
    · rw [canonicalNameOf_form, canonicalNameOf_form] at heq
      exact (List.nodup_map_iff_inj_on hnodup).mp hnames k hk l hl (nameForm_eq heq).1
    · rw [Resolution.canonicalRepoNames, Std.ExtTreeMap.size_ofList hdistinct, List.length_map]
    · exact Std.ExtTreeMap.getElem?_ofList_of_mem
        (Std.LawfulEqOrd.compare_eq_iff_eq.mpr (hplain k hk).symm) hdistinct
        (List.mem_map_of_mem (f := fun key => (key.canonicalRepoName,key)) hk)

end Selected

section Run

variable {graph : DepGraph} {overrides : Overrides} {fuel : ℕ}

theorem run_keys_nodup {sel : Selection} (h : run fuel graph overrides = some (.ok sel)) :
    sel.keys.Nodup := by
  unfold run at h
  split at h
  · cases h
  · dsimp only at h
    split at h
    · cases h
    · cases h
    · split at h
      · cases h
      · cases h
      · next resolved hresolved =>
        cases h
        exact (walk_result hresolved).nodup

theorem repo_names_inverse_iff (res : Resolution)
    (h : run fuel graph overrides = some (.ok res.selection)) :
    res.NamesInverse ↔ (res.selection.keys.map ModuleKey.name).Nodup :=
  namesInverse_iff (run_keys_nodup h)

end Run

/-- Both versions of `a` are kept. -/
def keptVersions : Overrides :=
  (∅ : Overrides).insert "a" (.multipleVersion ⟨[appVersion,raisedVersion],none⟩)

theorem repo_names_inverse_raised :
    ∃ graph sel, discover raisedStarlark raisedRoot ∅ raisedSource 6 = some (.ok graph) ∧
      run 7 graph ∅ = some (.ok sel) ∧ (Resolution.mk raisedRoot.module ∅ sel []).NamesInverse := by
  have hfound : ((discover raisedStarlark raisedRoot ∅ raisedSource 6).bind Except.toOption).any
      (fun graph => ((run 7 graph ∅).bind Except.toOption).any
        fun sel => decide (sel.keys.map ModuleKey.name).Nodup) = true := by decide
  obtain ⟨graph,hd,hg⟩ := Fallible.any_ok hfound
  obtain ⟨sel,hs,hnames⟩ := Fallible.any_ok hg
  exact ⟨graph,sel,hd,hs,(repo_names_inverse_iff ⟨raisedRoot.module,∅,sel,[]⟩ hs).mpr
    (of_decide_eq_true hnames)⟩

theorem kept_version_in_no_row :
    ∃ graph sel, discover raisedStarlark raisedRoot keptVersions raisedSource 6 = some (.ok graph) ∧
      run 7 graph keptVersions = some (.ok sel) ∧
      let res : Resolution := ⟨raisedRoot.module,keptVersions,sel,[]⟩
      ⟨"a",raisedVersion⟩ ∈ sel.keys ∧ res.canonicalNameOf ⟨"a",raisedVersion⟩ = "a+2.0" ∧
        res.canonicalRepoNames["a+2.0"]? = none ∧ ¬res.NamesInverse := by
  have hfound : ((discover raisedStarlark raisedRoot keptVersions raisedSource 6).bind
      Except.toOption).any (fun graph => ((run 7 graph keptVersions).bind Except.toOption).any
        fun sel => decide (⟨"a",raisedVersion⟩ ∈ sel.keys ∧
          (Resolution.mk raisedRoot.module keptVersions sel []).canonicalNameOf
            ⟨"a",raisedVersion⟩ = "a+2.0" ∧
          (Resolution.mk raisedRoot.module keptVersions sel []).canonicalRepoNames["a+2.0"]? =
            none)) = true := by decide
  obtain ⟨graph,hd,hg⟩ := Fallible.any_ok hfound
  obtain ⟨sel,hs,hrow⟩ := Fallible.any_ok hg
  obtain ⟨hmem,hname,hnone⟩ := of_decide_eq_true hrow
  refine ⟨graph,sel,hd,hs,hmem,hname,hnone,fun h => ?_⟩
  have hsome := h.inverse _ hmem
  rw [hname, hnone] at hsome
  cases hsome

end BuildFiji.Bzlmod
