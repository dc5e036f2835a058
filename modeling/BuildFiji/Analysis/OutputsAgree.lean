import BuildFiji.Analysis.RuleOutputs
import Mathlib

/-!
# Where loading and analysis agree on outputs

Analysis keeps one output of a key, and knows it by its path with the directory
of the package taken off, which for another repository than the main one does not
begin it. So a generated file is found in the main repository, if it is the last
output under some key that the class or the rule declares for it.
-/

set_option autoImplicit false
set_option linter.all false

namespace BuildFiji.Outputs

open BuildFiji.Graph BuildFiji.Starlark.Actions SortedAssoc

section Paths

theorem join_injective (dir : String) {m n : String} (h : join dir m = join dir n) : m = n := by
  by_cases hd : dir = ""
  · rwa [join, join, if_pos hd, if_pos hd] at h
  · rw [join, join, if_neg hd, if_neg hd] at h
    have hlong : ∀ name : String, dir ++ "/" ++ name ≠ dir := by
      intro name heq
      have hl := congrArg String.length heq
      simp only [String.length_append] at hl
      have h1 : "/".length = 1 := by decide
      omega
    by_cases hm : m = ""
    · by_cases hn : n = ""
      · rw [hm, hn]
      · rw [if_pos hm, if_neg hn] at h
        exact absurd h.symm (hlong n)
    · by_cases hn : n = ""
      · rw [if_neg hm, if_pos hn] at h
        exact absurd h (hlong m)
      · rw [if_neg hm, if_neg hn] at h
        exact (String.append_right_inj _).mp h

theorem derived_injective {binDir repo package m n : String}
    (h : Artifact.derived binDir repo package m = Artifact.derived binDir repo package n) : m = n := by
  apply join_injective package
  have hpath := congrArg Artifact.path h
  simp only [Artifact.derived] at hpath
  split at hpath
  · exact hpath
  · exact (String.append_right_inj _).mp hpath

theorem ctx_derived_injective {ctx : CtxState} {m n : String} (h : ctx.derived m = ctx.derived n) :
    m = n := by
  rw [CtxState.derived, CtxState.derived] at h
  exact derived_injective h

theorem join_length (package name : String) :
    name.length ≤ (join package name).length ∧
      (package = "" ∨ package.length ≤ (join package name).length) ∧
      (package = "" ∨ name = "" ∨ (join package name).length = package.length+1+name.length) := by
  unfold join
  split
  · next h => exact ⟨le_rfl,.inl h,.inl h⟩
  · split
    · next h => exact ⟨by rw [h]; exact Nat.zero_le _,.inr le_rfl,.inr (.inl h)⟩
    · have h1 : "/".length = 1 := by decide
      simp only [String.length_append, h1]
      exact ⟨by omega,.inr (by omega),.inr (.inr trivial)⟩

theorem stripDir_length (dir path : List Char) : path.length ≤ (stripDir dir path).length+dir.length := by
  rw [stripDir]
  split
  · rw [List.length_drop]
    omega
  · omega

/-- In another repository the path keeps more than the name. -/
theorem shown_external {binDir repo package name : String} (hrepo : repo ≠ "") :
    shown package (Artifact.derived binDir repo package name) ≠ name := by
  intro h
  have hl := congrArg String.length h
  have hs := stripDir_length (package ++ "/").toList (Artifact.derived binDir repo package name).path.toList
  obtain ⟨h1,h2,h3⟩ := join_length package name
  have hpath : (Artifact.derived binDir repo package name).path.length =
      9+repo.length+1+(join package name).length := by
    simp only [Artifact.derived, if_neg hrepo, String.length_append]
    have he : "external/".length = 9 := by decide
    have hslash : "/".length = 1 := by decide
    omega
  rw [shown, String.length_ofList] at hl
  rw [String.length_toList, String.length_toList, String.length_append, hpath, hl] at hs
  have hslash : "/".length = 1 := by decide
  by_cases hp : package = ""
  · have hz : package.length = 0 := by rw [hp]; rfl
    omega
  · rcases h3 with h3 | h3 | h3
    · exact hp h3
    · have hn : name.length = 0 := by rw [h3]; rfl
      have h2' := h2.resolve_left hp
      omega
    · omega

/-- A name that a file may have in a package. -/
structure Valid (name : String) : Prop where
  nonempty : name ≠ ""
  relative : name.toList.head? ≠ some '/'

theorem valid_of_validate {name : String} {u : Unit} (h : validateTargetName name.toList = .ok u) :
    Valid name := by
  have hne : name.toList ≠ [] := by
    intro hnil
    rw [hnil] at h
    cases h
  refine ⟨fun hz => hne (by rw [hz]; rfl),fun hhead => ?_⟩
  cases hl : name.toList with
  | nil => exact hne hl
  | cons c rest =>
    rw [hl] at hhead h
    cases Option.some.inj hhead
    cases h

theorem shown_main {binDir package name : String} (h : Valid name) :
    shown package (Artifact.derived binDir "" package name) = name := by
  have hpath : (Artifact.derived binDir "" package name).path = join package name := by
    show (if ("" : String) = "" then join package name else "external/" ++ "" ++ "/" ++ join package name) = _
    rw [if_pos rfl]
  rw [shown, hpath]
  by_cases hp : package = ""
  · rw [hp, join, if_pos rfl, stripDir, if_neg]
    · exact String.ofList_toList
    · intro hpre
      obtain ⟨rest,hrest⟩ := List.isPrefixOf_iff_prefix.mp hpre
      apply h.relative
      rw [← hrest]
      rfl
  · have hsplit : (package ++ "/" ++ name).toList = (package ++ "/").toList ++ name.toList :=
      String.toList_append
    rw [join, if_neg hp, if_neg h.nonempty, hsplit, stripDir,
      if_pos (List.isPrefixOf_iff_prefix.mpr (List.prefix_append _ _)), List.drop_left]
    exact String.ofList_toList

end Paths

section Load

variable {call : RuleCall}

/-- What loading adds for the rule. -/
def Added (call : RuleCall) (t : Target) : Prop := Valid t.name ∧ t.kind = .generatedFile call.label.name

theorem addGeneratedFile_ok {targets targets' : List Target} {name : String}
    (h : addGeneratedFile call targets name = .ok targets') :
    ∃ added, targets' = targets ++ added ∧ ∀ t ∈ added, Added call t := by
  unfold addGeneratedFile at h
  rw [Fallible.bind_ok] at h
  obtain ⟨u,hu,h⟩ := h
  have hvalid : Valid name := by
    cases hv : validateTargetName name.toList with
    | error e =>
      rw [hv] at hu
      cases hu
    | ok v => exact valid_of_validate hv
  have hsame : targets = targets ++ [] := (List.append_nil _).symm
  split at h
  · cases h
    exact ⟨[],hsame,nofun⟩
  · split at h
    · split at h <;> cases h
    · cases h
    · cases h
      refine ⟨_,rfl,?_⟩
      intro t ht
      cases List.mem_singleton.mp ht
      exact ⟨hvalid,rfl⟩

theorem addMade_ok {s s' : Loading} {name : String} (h : addMade call s name = .ok s') :
    ∃ added, s'.targets = s.targets ++ added ∧ ∀ t ∈ added, Added call t := by
  unfold addMade at h
  split at h
  · next targets ht =>
    cases h
    exact addGeneratedFile_ok ht
  · cases h
    exact ⟨[],(List.append_nil _).symm,nofun⟩
  · cases h

theorem foldlM_addMade {names : List String} {s s' : Loading} (h : names.foldlM (addMade call) s = .ok s') :
    ∃ added, s'.targets = s.targets ++ added ∧ ∀ t ∈ added, Added call t := by
  induction names generalizing s with
  | nil =>
    cases h
    exact ⟨[],(List.append_nil _).symm,nofun⟩
  | cons name names ih =>
    rw [List.foldlM_cons, Fallible.bind_ok] at h
    obtain ⟨t,ht,hrest⟩ := h
    obtain ⟨first,hf,hfirst⟩ := addMade_ok ht
    obtain ⟨rest,hr,hadded⟩ := ih hrest
    refine ⟨first ++ rest,?_,?_⟩
    · rw [hr, hf, List.append_assoc]
    · exact List.forall_mem_append.mpr ⟨hfirst,hadded⟩

/-- The generated files that loading the rule adds to a package. -/
def generatedFiles (targets : List Target) (loading : Loading) : List String :=
  (loading.targets.drop targets.length).map Target.name

theorem generatedFiles_valid {targets : List Target} {loading : Loading}
    (h : instantiate call targets = .ok loading) : ∀ n ∈ generatedFiles targets loading, Valid n := by
  have hmade : ∃ added, loading.targets = targets ++ added ∧ ∀ t ∈ added, Added call t := by
    unfold instantiate at h
    split at h
    · cases h
    · exact foldlM_addMade h
  obtain ⟨added,hadded,hvalid⟩ := hmade
  intro n hn
  rw [generatedFiles, hadded, List.drop_left] at hn
  obtain ⟨t,ht,rfl⟩ := List.mem_map.mp hn
  exact (hvalid t ht).1

end Load

section Analyse

variable {ε : Type} {env : Env ε} {call : RuleCall} {target : ConfiguredTarget}

def keyed (env : Env ε) (call : RuleCall) (set : Attrs) : List (String × Artifact) :=
  (declaredOutputs call.schema set call.label.name).map fun e => (e.1,(env.ctxFor call.label).derived e.2)

theorem analyse_ok (h : analyse env call = .ok target) :
    ∃ declared, resolve env.choose env.differentBranches call.attrs = .ok declared ∧
      ((env.unsatisfied declared = true ∧ target.outputs = []) ∨
        env.unsatisfied declared = false ∧ ∃ set, analysedAttrs env call = .ok set ∧
          target.outputs = collect ((collect (keyed env call set)).map fun e =>
            (shown call.label.package e.2,e.2))) := by
  unfold analyse at h
  rw [Fallible.bind_ok] at h
  obtain ⟨declared,hd,h⟩ := h
  refine ⟨declared,hd,?_⟩
  split at h
  · next hu =>
    cases h
    exact .inl ⟨hu,rfl⟩
  · next hu =>
    simp only [Fallible.bind_ok, Fallible.pure_ok] at h
    obtain ⟨set,hset,actions,-,rfl⟩ := h
    exact .inr ⟨Bool.eq_false_of_not_eq_true hu,set,hset,rfl⟩

/-- The file is the last output of a key, and no output of a later key is known
by its name. -/
def Kept (env : Env ε) (call : RuleCall) (set : Attrs) (n : String) : Prop :=
  StaysUnder (fun m => shown call.label.package ((env.ctxFor call.label).derived m))
    (declaredOutputs call.schema set call.label.name) n n

theorem found_iff {set : Attrs} {n : String} :
    find n (collect ((collect (keyed env call set)).map fun e => (shown call.label.package e.2,e.2))) =
        some ((env.ctxFor call.label).derived n) ↔
      shown call.label.package ((env.ctxFor call.label).derived n) = n ∧ Kept env call set n := by
  have hinj : Function.Injective (env.ctxFor call.label).derived := fun _ _ => ctx_derived_injective
  exact find_renamed hinj (shown call.label.package) _

/-- Each of the files is analysed to the derived artifact of its own name, and
no two to the same. -/
structure Agrees (env : Env ε) (call : RuleCall) (target : ConfiguredTarget) (files : List String) :
    Prop where
  analysed : ∀ n ∈ files,
    analyseGenerated call.label.name target n = .ok ((env.ctxFor call.label).derived n)
  distinct : ∀ m ∈ files, ∀ n ∈ files, ∀ a, analyseGenerated call.label.name target m = .ok a →
    analyseGenerated call.label.name target n = .ok a → m = n

/-- The platform has what the target asks for, the package is in the main
repository, and the file stays under its key. -/
def Covered (env : Env ε) (call : RuleCall) (n : String) : Prop :=
  ∃ declared set, resolve env.choose env.differentBranches call.attrs = .ok declared ∧
    env.unsatisfied declared = false ∧ analysedAttrs env call = .ok set ∧
    call.label.repo = "" ∧ Kept env call set n

theorem analyseGenerated_ok {rule n : String} {a : Artifact} :
    analyseGenerated rule target n = .ok a ↔ find n target.outputs = some a := by
  rw [analyseGenerated]
  cases find n target.outputs with
  | none => exact iff_of_false nofun nofun
  | some b =>
    rw [Except.ok.injEq, Option.some.injEq]

theorem covered_iff {n : String} (hn : Valid n) (h : analyse env call = .ok target) :
    analyseGenerated call.label.name target n = .ok ((env.ctxFor call.label).derived n) ↔
      Covered env call n := by
  obtain ⟨declared,hd,hcase⟩ := analyse_ok h
  rw [analyseGenerated_ok]
  rcases hcase with ⟨hu,hout⟩ | ⟨hu,set,hset,hout⟩
  · rw [hout]
    refine iff_of_false nofun ?_
    rintro ⟨declared',set,hd',hu',-⟩
    rw [hd] at hd'
    cases hd'
    rw [hu] at hu'
    cases hu'
  · rw [hout, found_iff]
    constructor
    · rintro ⟨hshown,hkept⟩
      refine ⟨declared,set,hd,hu,hset,?_,hkept⟩
      by_contra hrepo
      exact shown_external hrepo hshown
    · rintro ⟨declared',set',-,-,hset',hrepo,hkept⟩
      rw [hset] at hset'
      cases hset'
      refine ⟨?_,hkept⟩
      show shown call.label.package (Artifact.derived _ call.label.repo _ _) = n
      rw [hrepo]
      exact shown_main hn

/-- A rule `//pkg:x` of a class with that attribute. -/
def outputCall (attr : SchemaAttr) (value : AttrValue) : RuleCall where
  label := ⟨"","pkg","x"⟩
  location := "pkg/BUILD:1:1"
  schema := ⟨[attr],[],false⟩
  attrs := [(attr.name,.plain value)]
  outputsFunction := none

/-- Its code writes those of its outputs. -/
def writing (names : List String) : Env String where
  choose := fun _ _ => .ok none
  differentBranches := id
  unsatisfied := fun _ => false
  computedDefaults := fun _ => .ok []
  ctx := ⟨⟨"","pkg","x"⟩,"k8-fastbuild",some [],.empty,fun _ => none⟩
  calls := names.map fun name => .write (.output name) (.text "") false none
  failed := ActionError.message

def outAttr : SchemaAttr := ⟨"out",.output,none,false,false,.target⟩

def outsAttr : SchemaAttr := ⟨"outs",.outputList,none,false,false,.target⟩

def oneOutput : RuleCall := outputCall outAttr (.label ⟨"","pkg","a.txt"⟩)

def twoOutputs : RuleCall := outputCall outsAttr (.labelList [⟨"","pkg","a.txt"⟩,⟨"","pkg","b.txt"⟩])

theorem loads {call : RuleCall} {files : List String}
    (h : (instantiate call []).toOption.map (fun l => (l.events,generatedFiles [] l)) = some ([],files)) :
    ∃ loading, instantiate call [] = .ok loading ∧ loading.events = [] ∧
      generatedFiles [] loading = files := by
  cases hl : instantiate call [] with
  | error e =>
    rw [hl] at h
    cases h
  | ok loading =>
    rw [hl] at h
    simp only [Except.toOption, Option.map_some, Option.some.injEq, Prod.mk.injEq] at h
    exact ⟨loading,rfl,h.1,h.2⟩

theorem analyses (h : (analyse env call).isOk = true) : ∃ target, analyse env call = .ok target := by
  cases ht : analyse env call with
  | error e =>
    rw [ht] at h
    cases h
  | ok target => exact ⟨target,rfl⟩

end Analyse

end BuildFiji.Outputs
