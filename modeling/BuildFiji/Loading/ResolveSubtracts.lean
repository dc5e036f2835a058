import BuildFiji.Loading.Resolve

/-!
# Resolution is set subtraction

What a pattern selects is said of the package source alone: which labels the pattern finds
in the packages that load, and which in those that ended with errors. The loop over the
patterns keeps the first occurrence of each and takes away what a negative one finds.
-/

set_option autoImplicit false
set_option linter.all false

namespace BuildFiji.Loading

open BuildFiji.Graph BuildFiji.Cached BuildFiji.FirstOccurrence

section Finds

variable (includeManual : Bool) (source : PackageSource)

/-- The package as it is after its BUILD file ran without an error. -/
def wholly (repo package : String) : Option Package := (source.package repo package).toOption

/-- What a package defined before it ended with errors. -/
def partly (repo package : String) : Option Package :=
  match source.package repo package with
  | .ok _ => none
  | .error message => if containsErrors message then source.partialPackage repo package else none

def IsDeclared (package : Package) (lookup : PackageLookup) (l : Label) : Prop :=
  (∃ t ∈ package.targets, t.name = l.name) ∨ l.name ∈ package.inputFiles ∨
    ∃ build, lookup.buildFile l.package = .ok build ∧ build.fileName = l.name

/-- A rule, or for `:*` also any other target, the BUILD file or a file that a rule names; a
target that is tagged `manual` only when those are wanted. -/
def Wild (package : Package) (repo name : String) (rulesOnly : Bool) (l : Label) : Prop :=
  l.repo = repo ∧ l.package = name ∧
    ((rulesOnly = true ∧ ∃ t ∈ package.targets, t.name = l.name ∧ t.kind.isRule = true ∧
        (includeManual = true ∨ isManual t = false)) ∨
      (rulesOnly = false ∧ ∃ lookup, source.lookup repo = .ok lookup ∧
        ((∃ t ∈ package.targets, t.name = l.name ∧ (includeManual = true ∨ isManual t = false)) ∨
          (∃ build, lookup.buildFile name = .ok build ∧ build.fileName = l.name) ∨
          l.name ∈ package.inputFiles)))

/-- The labels of a pattern in the packages that `read` gives. -/
inductive Finds (read : String → String → Option Package) : Pattern → Label → Prop
  | ofTarget {l : Label} {lookup : PackageLookup} {package : Package}
      (hl : source.lookup l.repo = .ok lookup) (hr : read l.repo l.package = some package)
      (h : IsDeclared package lookup l) : Finds read (.target l) l
  | ofPath {repo path : String} {l : Label} (he : enclosing source repo path = .ok l)
      (h : Finds read (.target l) l) : Finds read (.path repo path) l
  | ofPackage {repo name : String} {rulesOnly : Bool} {package : Package} {l : Label}
      (hr : read repo name = some package) (h : Wild includeManual source package repo name rulesOnly l) :
      Finds read (.inPackage repo name rulesOnly) l
  | ofTree {repo directory name : String} {rulesOnly : Bool} {lookup : PackageLookup}
      {packages : List String} {l : Label} (hl : source.lookup repo = .ok lookup)
      (hu : lookup.packagesUnder directory = .ok packages) (hn : name ∈ packages)
      (h : Finds read (.inPackage repo name rulesOnly) l) : Finds read (.below repo directory rulesOnly) l

abbrev Selects : Pattern → Label → Prop := Finds includeManual source (wholly source)

abbrev InError : Pattern → Label → Prop := Finds includeManual source (partly source)

end Finds

section Outcome

def got : Except Failed (List Label) → List Label
  | .ok labels => labels
  | .error _ => []

def half : Except Failed (List Label) → List Label
  | .ok _ => []
  | .error failed => failed.partialLabels

variable (s : Selected) (o : Except Failed (List Label))

theorem fail_targets (f : Failed) : (s.fail f).targets = s.targets := by
  unfold Selected.fail
  dsimp only
  split <;> rfl

theorem fail_inError (f : Failed) : (s.fail f).inError = s.inError ++ f.partialLabels := by
  unfold Selected.fail
  dsimp only
  split <;> rfl

theorem take_targets : (s.take o).targets = s.targets ++ got o := by
  cases o with
  | ok labels => rfl
  | error f =>
    show (s.fail f).targets = s.targets ++ []
    rw [fail_targets, List.append_nil]

theorem take_inError : (s.take o).inError = s.inError ++ half o := by
  cases o with
  | ok labels => exact (List.append_nil _).symm
  | error f => exact fail_inError s f

theorem takes_targets {α : Type} (f : α → Except Failed (List Label)) (l : List α) (s : Selected) :
    (l.foldl (fun s a => s.take (f a)) s).targets = s.targets ++ l.flatMap fun a => got (f a) := by
  induction l generalizing s with
  | nil => simp
  | cons a l ih =>
    rw [List.foldl_cons, ih, take_targets, List.flatMap_cons, List.append_assoc]

theorem takes_inError {α : Type} (f : α → Except Failed (List Label)) (l : List α) (s : Selected) :
    (l.foldl (fun s a => s.take (f a)) s).inError = s.inError ++ l.flatMap fun a => half (f a) := by
  induction l generalizing s with
  | nil => simp
  | cons a l ih =>
    rw [List.foldl_cons, ih, take_inError, List.flatMap_cons, List.append_assoc]

end Outcome

section Choose

variable (includeManual : Bool) (lowercase : String → String) (source : PackageSource)

/-- Every package is read from its source. -/
def direct (repo package : String) (_ : Purpose) : Id Loaded := source.package repo package

/-- What a pattern selects, with no cache between it and the source. -/
def choose (pattern : Pattern) : Selected :=
  select (m := Id) includeManual lowercase source (direct source) pattern

theorem load_yields (repo package : String) (purpose : Purpose) :
    Yields (load source repo package purpose) (direct source repo package purpose) :=
  read_yields (f := fun key : String × String => source.package key.1 key.2) _ _ _

theorem wildcard_yields (repo package : String) (rulesOnly : Bool) (purpose : Purpose) :
    Yields (wildcard includeManual source (load source) repo package rulesOnly purpose)
      (wildcard (m := Id) includeManual source (direct source) repo package rulesOnly purpose) := by
  unfold wildcard
  apply (load_yields source repo package purpose).bind
  unfold direct
  cases source.package repo package with
  | ok loaded => exact yields_pure _
  | error message => exact yields_pure _

theorem target_yields (label : Label) :
    Yields (target lowercase source (load source) label)
      (target (m := Id) lowercase source (direct source) label) := by
  unfold target
  cases source.lookup label.repo with
  | error message => exact yields_pure _
  | ok lookup =>
    apply (load_yields source label.repo label.package .target).bind
    unfold direct
    cases source.package label.repo label.package with
    | ok loaded => exact yields_pure _
    | error message => exact yields_pure _

theorem selectTarget_yields (label : Label) :
    Yields (selectTarget lowercase source (load source) label)
      (selectTarget (m := Id) lowercase source (direct source) label) :=
  (target_yields lowercase source label).bind (yields_pure _)

theorem select_yields (pattern : Pattern) :
    Yields (select includeManual lowercase source (load source) pattern)
      (choose includeManual lowercase source pattern) := by
  unfold choose
  cases pattern with
  | target label => exact selectTarget_yields lowercase source label
  | path repo path =>
    dsimp only [select]
    cases enclosing source repo path with
    | ok label => exact selectTarget_yields lowercase source label
    | error message => exact yields_pure _
  | inPackage repo package rulesOnly =>
    exact (wildcard_yields includeManual source repo package rulesOnly .package).bind (yields_pure _)
  | below repo directory rulesOnly =>
    dsimp only [select]
    cases source.lookup repo with
    | error message => exact yields_pure _
    | ok lookup =>
      dsimp only
      cases lookup.packagesUnder directory with
      | error message => exact yields_pure _
      | ok packages =>
        dsimp only
        split
        · exact yields_pure _
        · refine Yields.foldlM (fun s package => ?_) packages Selected.empty
          exact (wildcard_yields includeManual source repo package rulesOnly .tree).bind (yields_pure _)

def wildcardOutcome (repo package : String) (rulesOnly : Bool) : Except Failed (List Label) :=
  wildcard (m := Id) includeManual source (direct source) repo package rulesOnly .package

def targetOutcome (label : Label) : Except Failed (List Label) :=
  (target (m := Id) lowercase source (direct source) label).map fun l => [l]

theorem choose_target (label : Label) : choose includeManual lowercase source (.target label) =
    Selected.empty.take (targetOutcome lowercase source label) := rfl

theorem choose_path {repo path : String} {label : Label} (h : enclosing source repo path = .ok label) :
    choose includeManual lowercase source (.path repo path) =
      choose includeManual lowercase source (.target label) := by
  unfold choose
  dsimp only [select]
  rw [h]

theorem choose_inPackage (repo package : String) (rulesOnly : Bool) :
    choose includeManual lowercase source (.inPackage repo package rulesOnly) =
      Selected.empty.take (wildcardOutcome includeManual source repo package rulesOnly) := rfl

theorem choose_below {repo directory : String} {rulesOnly : Bool} {lookup : PackageLookup}
    {packages : List String} (hl : source.lookup repo = .ok lookup)
    (hu : lookup.packagesUnder directory = .ok packages) (hne : packages ≠ []) :
    choose includeManual lowercase source (.below repo directory rulesOnly) =
      packages.foldl (fun s package =>
        s.take (wildcardOutcome includeManual source repo package rulesOnly)) Selected.empty := by
  rw [List.foldl_eq_foldlM]
  unfold choose
  dsimp only [select]
  rw [hl]
  dsimp only
  rw [hu]
  dsimp only
  rw [if_neg hne]
  rfl

end Choose

section Mem

variable {includeManual : Bool} {lowercase : String → String} {source : PackageSource} {l : Label}

theorem isDeclared_iff {package : Package} {lookup : PackageLookup} :
    IsDeclared package lookup l ↔ declaredTarget lowercase package lookup l = .ok () := by
  have htarget : (package.target l.name).isSome = true ↔ ∃ t ∈ package.targets, t.name = l.name := by
    unfold Package.target
    rw [List.find?_isSome]
    simp
  unfold IsDeclared declaredTarget
  rw [← htarget]
  by_cases h : (package.target l.name).isSome = true ∨ l.name ∈ package.inputFiles
  · simp [h, ← or_assoc]
  · rw [if_neg h, ← or_assoc]
    cases hb : lookup.buildFile l.package with
    | error e => simp [h, bind, Except.bind]
    | ok build =>
      by_cases hname : build.fileName = l.name <;> simp [h, hname, bind, Except.bind]

theorem mem_labels {repo name : String} {names : List String} :
    l ∈ names.map (fun n => (⟨repo,name,n⟩ : Label)) ↔ l.repo = repo ∧ l.package = name ∧ l.name ∈ names := by
  rw [List.mem_map]
  constructor
  · rintro ⟨n,hn,rfl⟩
    exact ⟨rfl,rfl,hn⟩
  · rintro ⟨rfl,rfl,hn⟩
    exact ⟨l.name,hn,rfl⟩

theorem mem_kept {package : Package} {rulesOnly : Bool} {n : String} :
    n ∈ (package.targets.filter fun t =>
      ¬ (rulesOnly ∧ ¬ t.kind.isRule) ∧ ¬ (¬ includeManual ∧ isManual t)).map Target.name ↔
      ∃ t ∈ package.targets, t.name = n ∧ (rulesOnly = true → t.kind.isRule = true) ∧
        (includeManual = true ∨ isManual t = false) := by
  simp only [List.mem_map, List.mem_filter, decide_eq_true_eq]
  constructor
  · rintro ⟨t,⟨ht,hrule,hmanual⟩,rfl⟩
    refine ⟨t,ht,rfl,?_,?_⟩
    · simpa using hrule
    · simpa [or_iff_not_imp_left] using hmanual
  · rintro ⟨t,ht,rfl,hrule,hmanual⟩
    refine ⟨t,⟨ht,?_,?_⟩,rfl⟩
    · simpa using hrule
    · simpa [or_iff_not_imp_left] using hmanual

theorem wild_iff {package : Package} {repo name : String} {rulesOnly : Bool} :
    Wild includeManual source package repo name rulesOnly l ↔
      l ∈ got (wildcardOf includeManual source package repo name rulesOnly) := by
  have hmap : ∀ p : Target → Bool, (package.targets.filter p).map (fun t => (⟨repo,name,t.name⟩ : Label)) =
      ((package.targets.filter p).map Target.name).map fun n => ⟨repo,name,n⟩ := by
    intro p
    rw [List.map_map]
    rfl
  unfold Wild wildcardOf
  dsimp only
  rw [hmap]
  cases rulesOnly with
  | true =>
    show _ ↔ l ∈ List.map _ _
    rw [mem_labels, mem_kept]
    simp
  | false =>
    cases hl : source.lookup repo with
    | error message => simp [got, bind, Except.bind, Except.mapError]
    | ok lookup =>
      have hbuild : l.name ∈ (lookup.buildFile name).toOption.toList.map BuildFile.fileName ↔
          ∃ build, lookup.buildFile name = .ok build ∧ build.fileName = l.name := by
        cases lookup.buildFile name with
        | error e => simp [Except.toOption]
        | ok build => simp [Except.toOption, eq_comm]
      show _ ↔ l ∈ List.map _ _ ++ List.map _ _
      rw [List.mem_append, mem_labels, mem_labels, mem_kept, List.mem_append, hbuild]
      simp only [Bool.false_eq_true, false_and, false_or, true_and, false_implies, Except.ok.injEq,
        exists_eq_left', ← and_or_left]

variable (includeManual source) in
theorem wildcardOutcome_eq (repo name : String) (rulesOnly : Bool) :
    wildcardOutcome includeManual source repo name rulesOnly = match source.package repo name with
      | .ok loaded => wildcardOf includeManual source loaded repo name rulesOnly
      | .error message => .error (failed source repo name message fun p =>
          wildcardOf includeManual source p repo name rulesOnly) := by
  unfold wildcardOutcome wildcard direct
  cases source.package repo name <;> rfl

theorem wholly_iff {repo name : String} {package : Package} :
    wholly source repo name = some package ↔ source.package repo name = .ok package := by
  unfold wholly
  cases source.package repo name <;> simp [Except.toOption]

theorem partly_iff {repo name : String} {package : Package} :
    partly source repo name = some package ↔ ∃ message, source.package repo name = .error message ∧
      containsErrors message = true ∧ source.partialPackage repo name = some package := by
  unfold partly
  cases source.package repo name <;> simp

theorem finds_package {read : String → String → Option Package} {repo name : String} {rulesOnly : Bool} :
    Finds includeManual source read (.inPackage repo name rulesOnly) l ↔
      ∃ package, read repo name = some package ∧ Wild includeManual source package repo name rulesOnly l := by
  constructor
  · rintro ⟨⟩
    next package hr hwild => exact ⟨package,hr,hwild⟩
  · rintro ⟨package,hr,hwild⟩
    exact .ofPackage hr hwild

theorem mem_wildcard {repo name : String} {rulesOnly : Bool} :
    l ∈ got (wildcardOutcome includeManual source repo name rulesOnly) ↔
      Selects includeManual source (.inPackage repo name rulesOnly) l := by
  unfold Selects
  rw [wildcardOutcome_eq, finds_package]
  simp only [wholly_iff, wild_iff]
  cases source.package repo name with
  | ok loaded => simp
  | error message => simp [got]

theorem half_wildcardOf (package : Package) (repo name : String) (rulesOnly : Bool) :
    half (wildcardOf includeManual source package repo name rulesOnly) = [] := by
  unfold wildcardOf
  cases rulesOnly with
  | true => rfl
  | false => cases source.lookup repo <;> rfl

theorem mem_defined {o : Option Package} {f : Package → Except Failed (List Label)} :
    l ∈ (o.bind fun p => (f p).toOption).getD [] ↔ ∃ p, o = some p ∧ l ∈ got (f p) := by
  cases o with
  | none => simp
  | some p =>
    cases h : f p with
    | ok labels => simp [h, Except.toOption, got]
    | error e => simp [h, Except.toOption, got]

theorem half_wildcard {repo name : String} {rulesOnly : Bool} :
    l ∈ half (wildcardOutcome includeManual source repo name rulesOnly) ↔
      InError includeManual source (.inPackage repo name rulesOnly) l := by
  unfold InError
  rw [wildcardOutcome_eq, finds_package]
  simp only [partly_iff, wild_iff]
  cases source.package repo name with
  | ok loaded => simp [half_wildcardOf]
  | error message =>
    show l ∈ (failed source repo name message _).partialLabels ↔ _
    rw [failed, mem_defined]
    by_cases h : containsErrors message = true <;> simp [h]

variable (lowercase source) in
theorem targetOutcome_eq (label : Label) : targetOutcome lowercase source label =
    match source.lookup label.repo with
    | .error message => .error (.plain message)
    | .ok lookup => match source.package label.repo label.package with
      | .ok loaded => ((declaredTarget lowercase loaded lookup label).mapError .plain).map fun _ => [label]
      | .error message => .error (targetFailed lowercase source lookup label message) := by
  unfold targetOutcome target direct
  cases source.lookup label.repo with
  | error message => rfl
  | ok lookup =>
    cases source.package label.repo label.package with
    | error message => rfl
    | ok loaded =>
      show Except.map _ (Except.map _ (Except.mapError _ (declaredTarget lowercase loaded lookup label))) = _
      dsimp only
      cases declaredTarget lowercase loaded lookup label <;> rfl

variable (lowercase) in
theorem finds_target {read : String → String → Option Package} {label : Label} :
    Finds includeManual source read (.target label) l ↔ l = label ∧ ∃ lookup package,
      source.lookup label.repo = .ok lookup ∧ read label.repo label.package = some package ∧
        declaredTarget lowercase package lookup label = .ok () := by
  constructor
  · rintro ⟨⟩
    next lookup package hl hr h => exact ⟨rfl,lookup,package,hl,hr,isDeclared_iff.mp h⟩
  · rintro ⟨rfl,lookup,package,hl,hr,h⟩
    exact .ofTarget hl hr (isDeclared_iff.mpr h)

theorem mem_target {label : Label} : l ∈ got (targetOutcome lowercase source label) ↔
    Selects includeManual source (.target label) l := by
  unfold Selects
  rw [targetOutcome_eq, finds_target lowercase]
  simp only [wholly_iff]
  cases source.lookup label.repo with
  | error message => simp [got]
  | ok lookup =>
    cases source.package label.repo label.package with
    | error message => simp [got]
    | ok loaded =>
      dsimp only
      cases h : declaredTarget lowercase loaded lookup label with
      | error message => simp [h, got, Except.mapError, Except.map]
      | ok u => simp [h, got, Except.mapError, Except.map]

theorem mem_targetFailed {lookup : PackageLookup} {label : Label} {message : String} :
    l ∈ (targetFailed lowercase source lookup label message).partialLabels ↔ l = label ∧
      containsErrors message = true ∧ ∃ package, source.partialPackage label.repo label.package = some package ∧
        declaredTarget lowercase package lookup label = .ok () := by
  have hok : ∀ package, (declaredTarget lowercase package lookup label).isOk = true ↔
      declaredTarget lowercase package lookup label = .ok () := by
    intro package
    cases declaredTarget lowercase package lookup label <;> simp [Except.isOk, Except.toBool]
  unfold targetFailed
  by_cases hc : containsErrors message = true
  · rw [if_pos hc]
    dsimp only
    split
    · next h =>
      rw [Option.any_eq_true] at h
      obtain ⟨package,hp,hd⟩ := h
      have hp' : source.partialPackage label.repo label.package = some package := by simpa using hp
      simp [hc, hp', (hok package).mp hd]
    · next h =>
      have hnot : ¬ ∃ package, source.partialPackage label.repo label.package = some package ∧
          declaredTarget lowercase package lookup label = .ok () := by
        rintro ⟨package,hp,hd⟩
        apply h
        rw [hp]
        exact (hok package).mpr hd
      cases lookup.buildFile label.package <;> simp [Failed.plain, hnot]
  · simp [hc, Failed.plain]

theorem half_target {label : Label} : l ∈ half (targetOutcome lowercase source label) ↔
    InError includeManual source (.target label) l := by
  unfold InError
  rw [targetOutcome_eq, finds_target lowercase]
  simp only [partly_iff]
  cases source.lookup label.repo with
  | error message => simp [half, Failed.plain]
  | ok lookup =>
    cases source.package label.repo label.package with
    | ok loaded =>
      dsimp only
      cases h : declaredTarget lowercase loaded lookup label with
      | error message => simp [half, Except.mapError, Except.map, Failed.plain]
      | ok u => simp [half, Except.mapError, Except.map]
    | error message =>
      show l ∈ (targetFailed lowercase source lookup label message).partialLabels ↔ _
      rw [mem_targetFailed]
      simp [and_assoc]

theorem finds_path {read : String → String → Option Package} {repo path : String} :
    Finds includeManual source read (.path repo path) l ↔ ∃ label,
      enclosing source repo path = .ok label ∧ Finds includeManual source read (.target label) l := by
  constructor
  · intro h
    cases h with
    | ofPath he ht => exact ⟨l,he,ht⟩
  · rintro ⟨label,he,ht⟩
    have hl : l = label := ((finds_target id).mp ht).1
    subst hl
    exact .ofPath he ht

theorem finds_below {read : String → String → Option Package} {repo directory : String} {rulesOnly : Bool} :
    Finds includeManual source read (.below repo directory rulesOnly) l ↔ ∃ lookup packages,
      source.lookup repo = .ok lookup ∧ lookup.packagesUnder directory = .ok packages ∧
        ∃ name ∈ packages, Finds includeManual source read (.inPackage repo name rulesOnly) l := by
  constructor
  · intro h
    cases h with
    | ofTree hl hu hn hp => exact ⟨_,_,hl,hu,_,hn,hp⟩
  · rintro ⟨lookup,packages,hl,hu,name,hn,hp⟩
    exact .ofTree hl hu hn hp

theorem not_mem_fail (message : String) : l ∉ (Selected.empty.fail (.plain message)).targets ∧
    l ∉ (Selected.empty.fail (.plain message)).inError := by
  rw [fail_targets, fail_inError]
  exact ⟨List.not_mem_nil,List.not_mem_nil⟩

theorem mem_choose_target (label : Label) :
    (l ∈ (choose includeManual lowercase source (.target label)).targets ↔
      Selects includeManual source (.target label) l) ∧
    (l ∈ (choose includeManual lowercase source (.target label)).inError ↔
      InError includeManual source (.target label) l) := by
  rw [choose_target, take_targets, take_inError]
  exact ⟨mem_target,half_target⟩

theorem mem_choose_path (repo path : String) :
    (l ∈ (choose includeManual lowercase source (.path repo path)).targets ↔
      Selects includeManual source (.path repo path) l) ∧
    (l ∈ (choose includeManual lowercase source (.path repo path)).inError ↔
      InError includeManual source (.path repo path) l) := by
  unfold Selects InError
  rw [finds_path, finds_path]
  cases h : enclosing source repo path with
  | ok label =>
    rw [choose_path includeManual lowercase source h]
    simpa using mem_choose_target label
  | error message =>
    have hchoose : choose includeManual lowercase source (.path repo path) =
        Selected.empty.fail (.plain message) := by
      unfold choose
      dsimp only [select]
      rw [h]
      rfl
    rw [hchoose]
    simpa using not_mem_fail message

theorem mem_choose_below (repo directory : String) (rulesOnly : Bool) :
    (l ∈ (choose includeManual lowercase source (.below repo directory rulesOnly)).targets ↔
      Selects includeManual source (.below repo directory rulesOnly) l) ∧
    (l ∈ (choose includeManual lowercase source (.below repo directory rulesOnly)).inError ↔
      InError includeManual source (.below repo directory rulesOnly) l) := by
  unfold Selects InError
  rw [finds_below, finds_below]
  have hfails : ∀ {message}, choose includeManual lowercase source (.below repo directory rulesOnly) =
      Selected.empty.fail (.plain message) →
      l ∉ (choose includeManual lowercase source (.below repo directory rulesOnly)).targets ∧
      l ∉ (choose includeManual lowercase source (.below repo directory rulesOnly)).inError := by
    intro message h
    rw [h]
    exact not_mem_fail message
  cases hl : source.lookup repo with
  | error message =>
    have hchoose : choose includeManual lowercase source (.below repo directory rulesOnly) =
        Selected.empty.fail (.plain message) := by
      unfold choose
      dsimp only [select]
      rw [hl]
      rfl
    simpa using hfails hchoose
  | ok lookup =>
    cases hu : lookup.packagesUnder directory with
    | error message =>
      have hchoose : choose includeManual lowercase source (.below repo directory rulesOnly) =
          Selected.empty.fail (.plain message) := by
        unfold choose
        dsimp only [select]
        rw [hl]
        dsimp only
        rw [hu]
        rfl
      simpa [hu] using hfails hchoose
    | ok packages =>
      by_cases hne : packages = []
      · have hchoose : choose includeManual lowercase source (.below repo directory rulesOnly) =
            Selected.empty.fail (.plain ("no targets found beneath '" ++ directory ++ "'")) := by
          unfold choose
          dsimp only [select]
          rw [hl]
          dsimp only
          rw [hu]
          dsimp only
          rw [if_pos hne]
          rfl
        simpa [hu, hne] using hfails hchoose
      · rw [choose_below includeManual lowercase source hl hu hne, takes_targets, takes_inError]
        show (l ∈ packages.flatMap _ ↔ _) ∧ (l ∈ packages.flatMap _ ↔ _)
        simp [hu, mem_wildcard, half_wildcard]

variable (includeManual lowercase) in
/-- What a pattern selects and what it finds in error, label by label. -/
theorem mem_choose (pattern : Pattern) (l : Label) :
    (l ∈ (choose includeManual lowercase source pattern).targets ↔
      Selects includeManual source pattern l) ∧
    (l ∈ (choose includeManual lowercase source pattern).inError ↔
      InError includeManual source pattern l) := by
  cases pattern with
  | target label => exact mem_choose_target label
  | path repo path => exact mem_choose_path repo path
  | inPackage repo package rulesOnly =>
    rw [choose_inPackage, take_targets, take_inError]
    exact ⟨mem_wildcard,half_wildcard⟩
  | below repo directory rulesOnly => exact mem_choose_below repo directory rulesOnly

end Mem

namespace Gathered

variable (g : Gathered) (pattern : TargetPattern) (chosen : Selected)

theorem gather_selected : (g.gather pattern chosen).selected =
    if pattern.negative then g.selected else addAll g.selected chosen.targets := by
  unfold gather
  cases pattern.negative <;> cases chosen.failure <;> rfl

theorem gather_inError : (g.gather pattern chosen).inError =
    if pattern.negative then g.inError else addAll g.inError chosen.inError := by
  unfold gather
  cases pattern.negative <;> cases chosen.failure <;> rfl

theorem gather_removed : (g.gather pattern chosen).removed =
    if pattern.negative then g.removed ∪ chosen.targets.toFinset ∪ chosen.inError.toFinset
    else g.removed := by
  unfold gather
  cases pattern.negative <;> cases chosen.failure <;> rfl

theorem gather_explicit : (g.gather pattern chosen).explicit =
    if pattern.negative = false ∧ single pattern.pattern = true then g.explicit ∪ chosen.targets.toFinset
    else g.explicit := by
  unfold gather
  cases pattern.negative <;> cases chosen.failure <;> simp

end Gathered

section Loop

variable (includeManual : Bool) (lowercase : String → String) (source : PackageSource)

def gatherAll (patterns : List TargetPattern) (g : Gathered) : Gathered :=
  patterns.foldl (fun g p => g.gather p (choose includeManual lowercase source p.pattern)) g

theorem resolveWith_eq (patterns : List TargetPattern) :
    resolveWith includeManual lowercase source patterns =
      (gatherAll includeManual lowercase source patterns .empty).settle := by
  have hstep : ∀ (g : Gathered) (p : TargetPattern), Yields (do
      return g.gather p (← select includeManual lowercase source (load source) p.pattern))
      (pure (g.gather p (choose includeManual lowercase source p.pattern)) : Id Gathered) :=
    fun g p => (select_yields includeManual lowercase source p.pattern).bind (yields_pure _)
  unfold resolveWith gatherAll
  rw [List.foldl_eq_foldlM]
  exact congrArg Gathered.settle (Yields.foldlM hstep patterns .empty (.none _))

/-- The positive patterns, which decide what is selected and in what order. -/
def positives (patterns : List TargetPattern) : List TargetPattern := patterns.filter fun p => !p.negative

variable (patterns : List TargetPattern) (g : Gathered)

theorem gatherAll_selected : (gatherAll includeManual lowercase source patterns g).selected =
    addAll g.selected ((positives patterns).flatMap fun p =>
      (choose includeManual lowercase source p.pattern).targets) := by
  induction patterns generalizing g with
  | nil => rfl
  | cons p patterns ih =>
    show (gatherAll includeManual lowercase source patterns (g.gather p _)).selected = _
    rw [ih, Gathered.gather_selected]
    cases h : p.negative with
    | true => simp [positives, h]
    | false => simp [positives, h, addAll_append]

theorem gatherAll_inError : (gatherAll includeManual lowercase source patterns g).inError =
    addAll g.inError ((positives patterns).flatMap fun p =>
      (choose includeManual lowercase source p.pattern).inError) := by
  induction patterns generalizing g with
  | nil => rfl
  | cons p patterns ih =>
    show (gatherAll includeManual lowercase source patterns (g.gather p _)).inError = _
    rw [ih, Gathered.gather_inError]
    cases h : p.negative with
    | true => simp [positives, h]
    | false => simp [positives, h, addAll_append]

/-- A negative pattern selects it or finds it in a package with errors. -/
def Removed (patterns : List TargetPattern) (l : Label) : Prop :=
  ∃ p ∈ patterns, p.negative = true ∧
    (Selects includeManual source p.pattern l ∨ InError includeManual source p.pattern l)

theorem gatherAll_removed (l : Label) :
    l ∈ (gatherAll includeManual lowercase source patterns g).removed ↔
      l ∈ g.removed ∨ Removed includeManual source patterns l := by
  induction patterns generalizing g with
  | nil => simp [gatherAll, Removed]
  | cons p patterns ih =>
    show l ∈ (gatherAll includeManual lowercase source patterns (g.gather p _)).removed ↔ _
    rw [ih, Gathered.gather_removed]
    cases h : p.negative with
    | true => simp [Removed, h, mem_choose, or_assoc]
    | false => simp [Removed, h]

theorem gatherAll_explicit (l : Label) :
    l ∈ (gatherAll includeManual lowercase source patterns g).explicit ↔
      l ∈ g.explicit ∨ ∃ p ∈ positives patterns, single p.pattern = true ∧
        Selects includeManual source p.pattern l := by
  induction patterns generalizing g with
  | nil => simp [gatherAll, positives]
  | cons p patterns ih =>
    show l ∈ (gatherAll includeManual lowercase source patterns (g.gather p _)).explicit ↔ _
    rw [ih, Gathered.gather_explicit]
    cases h : p.negative with
    | true => simp [positives, h]
    | false =>
      cases hs : single p.pattern with
      | true => simp [positives, h, hs, mem_choose, or_assoc]
      | false => simp [positives, h, hs]

end Loop

section Resolved

variable (includeManual : Bool) (lowercase : String → String) (source : PackageSource)
  (patterns : List TargetPattern)

/-- Everything the positive patterns select, as often as they do. -/
def offered : List Label :=
  (positives patterns).flatMap fun p => (choose includeManual lowercase source p.pattern).targets

def offeredInError : List Label :=
  (positives patterns).flatMap fun p => (choose includeManual lowercase source p.pattern).inError

theorem mem_offered (l : Label) : l ∈ offered includeManual lowercase source patterns ↔
    ∃ p ∈ positives patterns, Selects includeManual source p.pattern l := by
  unfold offered
  simp [mem_choose]

theorem mem_offeredInError (l : Label) : l ∈ offeredInError includeManual lowercase source patterns ↔
    ∃ p ∈ positives patterns, InError includeManual source p.pattern l := by
  unfold offeredInError
  simp [mem_choose]

section Settled

theorem resolveWith_targets : (resolveWith includeManual lowercase source patterns).targets =
    (offered includeManual lowercase source patterns).eraseDups.filter fun l =>
      l ∉ (gatherAll includeManual lowercase source patterns .empty).removed := by
  rw [resolveWith_eq]
  show List.filter _ (gatherAll includeManual lowercase source patterns .empty).selected = _
  rw [gatherAll_selected]
  exact congrArg _ (addAll_nil _)

theorem resolveWith_inError : (resolveWith includeManual lowercase source patterns).inError =
    (offeredInError includeManual lowercase source patterns).eraseDups.filter fun l =>
      l ∉ (gatherAll includeManual lowercase source patterns .empty).removed := by
  rw [resolveWith_eq]
  show List.filter _ (gatherAll includeManual lowercase source patterns .empty).inError = _
  rw [gatherAll_inError]
  exact congrArg _ (addAll_nil _)

theorem mem_removed (l : Label) :
    l ∈ (gatherAll includeManual lowercase source patterns .empty).removed ↔
      Removed includeManual source patterns l := by
  rw [gatherAll_removed]
  simp [Gathered.empty]

theorem mem_targets (l : Label) : l ∈ (resolveWith includeManual lowercase source patterns).targets ↔
    (∃ p ∈ positives patterns, Selects includeManual source p.pattern l) ∧
      ¬ Removed includeManual source patterns l := by
  rw [resolveWith_targets, List.mem_filter, List.mem_eraseDups, mem_offered, decide_eq_true_eq, mem_removed]

theorem mem_inError (l : Label) : l ∈ (resolveWith includeManual lowercase source patterns).inError ↔
    (∃ p ∈ positives patterns, InError includeManual source p.pattern l) ∧
      ¬ Removed includeManual source patterns l := by
  rw [resolveWith_inError, List.mem_filter, List.mem_eraseDups, mem_offeredInError, decide_eq_true_eq,
    mem_removed]

/-- What a pattern names and a negative one takes away is in error neither. -/
theorem mem_explicit (l : Label) : l ∈ (resolveWith includeManual lowercase source patterns).explicit ↔
    (∃ p ∈ positives patterns, single p.pattern = true ∧ Selects includeManual source p.pattern l) ∧
      l ∈ (resolveWith includeManual lowercase source patterns).targets := by
  have hexplicit : l ∈ (resolveWith includeManual lowercase source patterns).explicit ↔
      (∃ p ∈ positives patterns, single p.pattern = true ∧ Selects includeManual source p.pattern l) ∧
        (l ∈ (resolveWith includeManual lowercase source patterns).targets ∨
          l ∈ (resolveWith includeManual lowercase source patterns).inError) := by
    rw [resolveWith_eq]
    show l ∈ Finset.filter _ (gatherAll includeManual lowercase source patterns .empty).explicit ↔ _
    rw [Finset.mem_filter, gatherAll_explicit]
    simp only [Gathered.empty, Finset.notMem_empty, false_or]
    exact Iff.rfl
  rw [hexplicit]
  refine and_congr_right ?_
  rintro ⟨p,hp,-,hl⟩
  rw [mem_targets, mem_inError]
  constructor
  · rintro (h | ⟨-,hnot⟩)
    · exact h
    · exact ⟨⟨p,hp,hl⟩,hnot⟩
  · exact .inl

theorem removed_congr {others : List TargetPattern}
    (h : ∀ p : TargetPattern, p.negative = true → (p ∈ others ↔ p ∈ patterns)) (l : Label) :
    Removed includeManual source others l ↔ Removed includeManual source patterns l := by
  unfold Removed
  constructor
  · rintro ⟨p,hp,hn,hl⟩
    exact ⟨p,(h p hn).mp hp,hn,hl⟩
  · rintro ⟨p,hp,hn,hl⟩
    exact ⟨p,(h p hn).mpr hp,hn,hl⟩

theorem resolveWith_moved {others : List TargetPattern} (hpos : positives others = positives patterns)
    (hneg : ∀ p : TargetPattern, p.negative = true → (p ∈ others ↔ p ∈ patterns)) :
    (resolveWith includeManual lowercase source others).targets =
        (resolveWith includeManual lowercase source patterns).targets ∧
      (resolveWith includeManual lowercase source others).inError =
        (resolveWith includeManual lowercase source patterns).inError := by
  have hremoved : ∀ l, l ∈ (gatherAll includeManual lowercase source others .empty).removed ↔
      l ∈ (gatherAll includeManual lowercase source patterns .empty).removed := by
    intro l
    rw [mem_removed, mem_removed]
    exact removed_congr includeManual source patterns hneg l
  rw [resolveWith_targets, resolveWith_targets, resolveWith_inError, resolveWith_inError]
  simp only [offered, offeredInError, hpos, hremoved, and_self]

theorem finds_read {read : String → String → Option Package} {pattern : Pattern} {l : Label}
    (h : Finds includeManual source read pattern l) : (read l.repo l.package).isSome = true := by
  induction h with
  | ofTarget _ hr _ => rw [hr]; rfl
  | ofPath _ _ ih => exact ih
  | ofPackage hr hw => rw [hw.1, hw.2.1, hr]; rfl
  | ofTree _ _ _ _ ih => exact ih

/-- What one pattern finds in error no pattern selects. -/
theorem not_selects_of_inError {pattern other : Pattern} {l : Label}
    (h : InError includeManual source pattern l) : ¬ Selects includeManual source other l := by
  intro hs
  obtain ⟨whole,hwhole⟩ := Option.isSome_iff_exists.mp (finds_read includeManual source hs)
  obtain ⟨part,hpart⟩ := Option.isSome_iff_exists.mp (finds_read includeManual source h)
  rw [wholly_iff] at hwhole
  obtain ⟨message,hm,-⟩ := partly_iff.mp hpart
  rw [hwhole] at hm
  cases hm

theorem choose_below_targets {repo directory : String} {rulesOnly : Bool} {lookup : PackageLookup}
    {packages : List String} (hl : source.lookup repo = .ok lookup)
    (hu : lookup.packagesUnder directory = .ok packages) :
    (choose includeManual lowercase source (.below repo directory rulesOnly)).targets =
      packages.flatMap fun package =>
        (choose includeManual lowercase source (.inPackage repo package rulesOnly)).targets := by
  have hone : ∀ package, (choose includeManual lowercase source (.inPackage repo package rulesOnly)).targets =
      got (wildcardOutcome includeManual source repo package rulesOnly) := by
    intro package
    rw [choose_inPackage, take_targets]
    rfl
  simp only [hone]
  by_cases hne : packages = []
  · subst hne
    apply List.eq_nil_iff_forall_not_mem.mpr
    intro l hmem
    rw [(mem_choose includeManual lowercase _ l).1] at hmem
    unfold Selects at hmem
    rw [finds_below] at hmem
    obtain ⟨lookup',packages,hl',hu',name,hn,-⟩ := hmem
    rw [hl] at hl'
    cases hl'
    rw [hu] at hu'
    cases hu'
    exact absurd hn List.not_mem_nil
  · rw [choose_below includeManual lowercase source hl hu hne, takes_targets]
    rfl

end Settled

/-- The positive patterns decide what is offered and in what order, and the negative ones what of
it is taken away, wherever they stand; a package that fails takes nothing from another. -/
theorem resolveWith_subtracts :
    (resolveWith includeManual lowercase source patterns).targets.Nodup ∧
    let r := resolveWith includeManual lowercase source patterns
    (∀ l, l ∈ r.targets ↔ (∃ p ∈ patterns, p.negative = false ∧ Selects includeManual source p.pattern l) ∧
      ∀ p ∈ patterns, p.negative = true →
        ¬ Selects includeManual source p.pattern l ∧ ¬ InError includeManual source p.pattern l) ∧
    r.targets.Sublist ((patterns.filter fun p => !p.negative).flatMap fun p =>
      (choose includeManual lowercase source p.pattern).targets).eraseDups ∧
    (∀ l, l ∈ r.explicit ↔ (∃ p ∈ patterns, p.negative = false ∧ single p.pattern = true ∧
      Selects includeManual source p.pattern l) ∧ l ∈ r.targets) ∧
    (∀ repo directory rulesOnly lookup packages, source.lookup repo = .ok lookup →
      lookup.packagesUnder directory = .ok packages →
      (choose includeManual lowercase source (.below repo directory rulesOnly)).targets =
        packages.flatMap (fun package =>
          (choose includeManual lowercase source (.inPackage repo package rulesOnly)).targets) ∧
      ∀ l other, InError includeManual source (.below repo directory rulesOnly) l →
        ¬ Selects includeManual source other l) ∧
    ∀ others : List TargetPattern,
      (others.filter fun p => !p.negative) = (patterns.filter fun p => !p.negative) →
      (∀ p : TargetPattern, p.negative = true → (p ∈ others ↔ p ∈ patterns)) →
      let s := resolveWith includeManual lowercase source others
      s.targets = r.targets ∧ s.explicit = r.explicit ∧ s.inError = r.inError := by
  have hpositive : ∀ (q : TargetPattern → Prop), (∃ p ∈ positives patterns, q p) ↔
      ∃ p ∈ patterns, p.negative = false ∧ q p := by
    intro q
    simp only [positives, List.mem_filter, Bool.not_eq_true', and_assoc]
  refine ⟨?_,fun l => ?_,?_,fun l => ?_,fun repo directory rulesOnly lookup packages hl hu => ?_,
    fun others hpos hneg => ?_⟩
  · rw [resolveWith_targets]
    exact (nodup_eraseDups _).filter _
  · rw [mem_targets, hpositive]
    simp only [Removed, not_exists, not_and, not_or]
  · rw [resolveWith_targets]
    exact List.filter_sublist
  · rw [mem_explicit, hpositive]
  · exact ⟨choose_below_targets includeManual lowercase source hl hu,
      fun l other => not_selects_of_inError includeManual source⟩
  · obtain ⟨htargets,hinError⟩ :=
      resolveWith_moved includeManual lowercase source patterns hpos hneg
    refine ⟨htargets,?_,hinError⟩
    ext l
    rw [mem_explicit, mem_explicit, htargets]
    show (∃ p ∈ others.filter _, _) ∧ _ ↔ _
    rw [hpos]
    rfl

end Resolved

/-- One package that loads and one that ends with errors. -/
def pairSource : PackageSource where
  lookup _ := .ok ⟨fun package => .ok ⟨"BUILD",package ++ "/BUILD"⟩,fun _ => .ok ["a","b"],
    fun _ _ => false,fun _ _ => false⟩
  package repo name :=
    if name = "a" then
      .ok ⟨repo,"a",[⟨"x",.rule "genrule" []⟩,⟨"y",.rule "genrule" []⟩],by simp⟩
    else .error "error loading package 'b': Package 'b' contains errors"
  packageFor repo name _ :=
    if name = "a" then
      .ok ⟨repo,"a",[⟨"x",.rule "genrule" []⟩,⟨"y",.rule "genrule" []⟩],by simp⟩
    else .error "error loading package 'b': Package 'b' contains errors"
  partialPackage repo name :=
    if name = "b" then some ⟨repo,"b",[⟨"z",.rule "genrule" []⟩],by simp⟩ else none
  same _ _ _ := rfl

def treeLess : List TargetPattern :=
  [⟨"//...",false,none,.below "" "" true⟩,⟨"-//a:y",true,none,.target ⟨"","a","y"⟩⟩]

theorem resolveWith_subtracts_treeLess :
    ((choose false id pairSource (.below "" "" true)).targets = ["a","b"].flatMap fun package =>
      (choose false id pairSource (.inPackage "" package true)).targets) ∧
    (resolveWith false id pairSource treeLess.reverse).targets =
      (resolveWith false id pairSource treeLess).targets :=
  ⟨((resolveWith_subtracts false id pairSource treeLess).2.2.2.2.1 "" "" true _ _ rfl rfl).1,
    ((resolveWith_subtracts false id pairSource treeLess).2.2.2.2.2 treeLess.reverse (by decide)
      (fun _ _ => List.mem_reverse)).1⟩

example : (resolveWith false id pairSource treeLess).targets = [⟨"","a","x"⟩] ∧
    (resolveWith false id pairSource treeLess).inError = [⟨"","b","z"⟩] := by decide

end BuildFiji.Loading
