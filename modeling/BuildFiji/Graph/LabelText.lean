import BuildFiji.Graph.Paths
import BuildFiji.Lib.Text

/-!
# Labels by their text

What the validators let through, in terms of the segments between slashes, and how a
label is read back from its text.
-/

set_option autoImplicit false
set_option linter.all false

namespace BuildFiji.Graph

section Split

theorem splitAtSlashes_append {r : List Char} (h : '/' ∉ r) (rest : List Char) :
    splitAtSlashes (r ++ '/' :: '/' :: rest) = some (r,'/' :: '/' :: rest) := by
  induction r with
  | nil => simp [splitAtSlashes, List.isPrefixOf]
  | cons c r ih =>
    have hc : '/' ≠ c := fun he => h (he ▸ List.mem_cons_self)
    rw [List.cons_append, splitAtSlashes, ih fun hm => h (List.mem_cons_of_mem _ hm), if_neg]
    · rfl
    · simp [List.isPrefixOf, hc]

theorem splitOnce_append {sep : Char} {a : List Char} (h : sep ∉ a) (b : List Char) :
    splitOnce sep (a ++ sep::b) = some (a,b) := by
  induction a with
  | nil => rw [List.nil_append, splitOnce, if_pos rfl]
  | cons c a ih =>
    have hc : c ≠ sep := fun he => h (he ▸ List.mem_cons_self)
    rw [List.cons_append, splitOnce, if_neg hc, ih fun hm => h (List.mem_cons_of_mem _ hm)]
    rfl

theorem intercalate_splitOn (sep : Char) (a : List Char) : [sep].intercalate (splitOn sep a) = a := by
  induction a with
  | nil => rfl
  | cons c a ih =>
    have hne := splitOn_ne_nil sep a
    rw [splitOn]
    cases hs : splitOn sep a with
    | nil => exact absurd hs hne
    | cons part parts =>
      rw [hs] at ih
      dsimp only
      split
      · next hc =>
        rw [List.intercalate_cons_of_ne_nil (by simp), ih, hc]
        rfl
      · cases parts with
        | nil =>
          rw [List.intercalate_singleton] at ih ⊢
          rw [ih]
        | cons next parts =>
          rw [List.intercalate_cons_of_ne_nil (by simp)] at ih ⊢
          rw [List.cons_append, List.cons_append, ih]

/-- Where a part stands: between separators, or at an end. -/
theorem splitOn_around {sep : Char} {a part : List Char} (h : part ∈ splitOn sep a) :
    ∃ front back, a = front ++ part ++ back ∧ (front = [] ∨ ∃ f, front = f ++ [sep]) ∧
      (back = [] ∨ ∃ b, back = sep::b) := by
  obtain ⟨before,after,hs⟩ := List.append_of_mem h
  have ha := intercalate_splitOn sep a
  rw [hs] at ha
  have hend : ∃ back, [sep].intercalate (part::after) = part ++ back ∧
      (back = [] ∨ ∃ b, back = sep::b) := by
    cases after with
    | nil => exact ⟨[],by rw [List.intercalate_singleton, List.append_nil],.inl rfl⟩
    | cons next after =>
      exact ⟨sep::[sep].intercalate (next::after),by
        rw [List.intercalate_cons_of_ne_nil (by simp), List.append_assoc, List.singleton_append],
        .inr ⟨_,rfl⟩⟩
  obtain ⟨back,hback,hb⟩ := hend
  cases before with
  | nil => exact ⟨[],back,by rw [← ha, List.nil_append, hback, List.nil_append],.inl rfl,hb⟩
  | cons first before =>
    refine ⟨[sep].intercalate (first::before) ++ [sep],back,?_,.inr ⟨_,rfl⟩,hb⟩
    rw [← ha, Text.intercalate_append _ (by simp) (by simp), hback, List.append_assoc _ part]

end Split

section Package

theorem validateRepoName_char {repo : List Char} (h : validateRepoName repo = .ok ()) {c : Char}
    (hc : c ∈ repo) : (c.isAlphanum || ['_','-','.','+'].contains c) = true := by
  unfold validateRepoName at h
  split at h
  · next hall => exact List.all_eq_true.mp hall c hc
  · cases h

theorem validatePackageName_char {package : List Char} (h : validatePackageName package = .ok ())
    {c : Char} (hc : c ∈ package) : (c.isAlphanum || packagePunctuation.contains c) = true := by
  unfold validatePackageName at h
  split at h
  · next hnil =>
    rw [hnil] at hc
    cases hc
  · split at h
    · cases h
    · split at h
      · cases h
      · next hall => exact List.all_eq_true.mp (not_not.mp hall) c hc

/-- A name of a directory. -/
def Plain (segment : List Char) : Prop := segment ≠ [] ∧ segment ≠ ['.'] ∧ segment ≠ ['.','.']

theorem validatePackageSegments_ok {segments : List (List Char)}
    (h : validatePackageSegments segments = .ok ()) :
    ∀ segment ∈ segments, segment ≠ [] ∧ segment.all (· == '.') = false := by
  induction segments with
  | nil => exact nofun
  | cons segment segments ih =>
    rw [validatePackageSegments] at h
    split at h
    · cases h
    · next hne =>
      split at h
      · cases h
      · next hdots => exact List.forall_mem_cons.mpr ⟨⟨hne,Bool.eq_false_iff.mpr hdots⟩,ih h⟩

/-- The root package has no segments. -/
def segments (package : List Char) : List (List Char) := if package = [] then [] else splitOn '/' package

theorem validatePackageName_ok {package : List Char} (h : validatePackageName package = .ok ()) :
    ∀ segment ∈ segments package, segment ≠ [] ∧ segment.all (· == '.') = false := by
  unfold validatePackageName at h
  rw [segments]
  split at h
  · next hnil =>
    rw [if_pos hnil]
    exact nofun
  · next hne =>
    rw [if_neg hne]
    split at h
    · cases h
    · split at h
      · cases h
      · split at h
        · cases h
        · exact validatePackageSegments_ok h

theorem package_plain {package : List Char} (h : validatePackageName package = .ok ()) :
    ∀ segment ∈ segments package, Plain segment := by
  intro segment hs
  obtain ⟨hne,hdots⟩ := validatePackageName_ok h segment hs
  refine ⟨hne,?_,?_⟩
  · rintro rfl
    exact absurd hdots (by decide)
  · rintro rfl
    exact absurd hdots (by decide)

theorem not_wildcard {package : List Char} (h : validatePackageName package = .ok ()) :
    isWildcard package = false := by
  rw [Bool.eq_false_iff]
  intro hw
  have hmem : "...".toList ∈ segments package := by
    rw [isWildcard, Bool.or_eq_true, beq_iff_eq, List.isSuffixOf_iff_suffix] at hw
    rcases hw with rfl | ⟨front,rfl⟩
    · decide
    · rw [segments, if_neg (by simp)]
      show "...".toList ∈ splitOn '/' (front ++ '/'::"...".toList)
      rw [splitOn_append]
      exact List.mem_append_right _ (by decide)
  exact absurd (validatePackageName_ok h _ hmem).2 (by decide)

end Package

section Target

variable {target : List Char}

theorem containsText_iff {text : List Char} : containsText text target = true ↔ text <:+: target := by
  rw [containsText, List.any_eq_true]
  constructor
  · rintro ⟨rest,hrest,hpre⟩
    exact ((List.isPrefixOf_iff_prefix.mp hpre).isInfix).trans ((List.mem_tails _ _).mp hrest).isInfix
  · rintro ⟨front,back,rfl⟩
    refine ⟨text ++ back,(List.mem_tails _ _).mpr ⟨front,by rw [List.append_assoc]⟩,?_⟩
    exact List.isPrefixOf_iff_prefix.mpr (List.prefix_append _ _)

/-- A character that may stand in a target name. -/
def TargetChar (c : Char) : Prop := c = '.' ∨ c = '/' ∨ isAlwaysAllowedTargetChar c = true

theorem doubled_cons {previous : Option Char} {c : Char} {cs : List Char} :
    "//".toList <:+: previous.toList ++ c::cs ↔
      (c = '/' ∧ previous = some '/') ∨ "//".toList <:+: c::cs := by
  cases previous with
  | none => simp
  | some p =>
    show ['/','/'] <:+: p::c::cs ↔ _
    rw [List.infix_cons_iff, List.cons_prefix_cons, List.cons_prefix_cons]
    simp [eq_comm, and_comm]

theorem validateTargetChars_ok {previous : Option Char} {cs : List Char} :
    validateTargetChars previous cs = .ok () ↔
      (∀ c ∈ cs, TargetChar c) ∧ ¬"//".toList <:+: previous.toList ++ cs := by
  induction cs generalizing previous with
  | nil =>
    rw [validateTargetChars]
    refine ⟨fun _ => ⟨nofun,fun hinfix => ?_⟩,fun _ => rfl⟩
    have hle := hinfix.length_le
    cases previous <;> simp at hle
  | cons c cs ih =>
    have hnext : ¬"//".toList <:+: (some c).toList ++ cs ↔ ¬"//".toList <:+: c::cs := Iff.rfl
    rw [validateTargetChars, Fallible.ite_error_ok, List.forall_mem_cons, doubled_cons, not_or]
    split
    · next hc =>
      have hchar : TargetChar c := hc.imp_right .inl
      rw [ih, hnext]
      tauto
    · next hc =>
      split
      · next hallowed =>
        have hchar : TargetChar c := .inr (.inr hallowed)
        rw [ih, hnext]
        tauto
      · next hallowed =>
        have hchar : ¬TargetChar c := fun h => h.elim (fun h => hc (.inl h)) fun h =>
          h.elim (fun h => hc (.inr h)) hallowed
        split <;> simp [hchar]

/-- What the checks of a target name come to, `.` apart. -/
structure TargetShape (target : List Char) : Prop where
  nonempty : target ≠ []
  relative : target.head? ≠ some '/'
  up : target ≠ "..".toList ∧ ¬"../".toList <+: target
  here : ¬"./".toList <+: target
  chars : ∀ c ∈ target, TargetChar c
  single : ¬"//".toList <:+: target
  upSegment : ¬"/../".toList <:+: target ∧ ¬"/..".toList <:+ target
  dotSegment : ¬"/./".toList <:+: target
  slash : "/.".toList <:+ target ∨ target.getLast? ≠ some '/'

theorem validateTargetName_iff : validateTargetName target = .ok () ↔
    target ≠ [] ∧ (target = ['.'] ∨ target.head? ≠ some '/' ∧
      ¬(target = "..".toList ∨ "../".toList.isPrefixOf target) ∧
      ¬"./".toList.isPrefixOf target ∧ target.getLast? ≠ some '\r' ∧
      validateTargetChars none target = .ok () ∧
      ¬(containsText "/../".toList target ∨ "/..".toList.isSuffixOf target) ∧
      ¬containsText "/./".toList target ∧
      ("/.".toList.isSuffixOf target ∨ target.getLast? ≠ some '/')) := by
  unfold validateTargetName
  cases hchars : validateTargetChars none target <;>
    simp only [pure, Except.pure, bind, Except.bind, throw, throwThe, MonadExceptOf.throw,
      Fallible.ite_error_ok, Fallible.ite_ok_ok, ne_eq, reduceCtorEq, and_true, and_false, false_and,
      true_and]

theorem validateTargetName_ok :
    validateTargetName target = .ok () ↔ target = ['.'] ∨ TargetShape target := by
  rw [validateTargetName_iff]
  simp only [validateTargetChars_ok, containsText_iff, List.isPrefixOf_iff_prefix,
    List.isSuffixOf_iff_suffix, not_or, Option.toList_none, List.nil_append]
  constructor
  · rintro ⟨hne,rfl | ⟨h1,h2,h3,-,⟨h4,h5⟩,h6,h7,h8⟩⟩
    · exact .inl rfl
    · exact .inr ⟨hne,h1,h2,h3,h4,h5,h6,h7,h8⟩
  · rintro (rfl | h)
    · exact ⟨by simp,.inl rfl⟩
    · refine ⟨h.nonempty,.inr ⟨h.relative,h.up,h.here,fun hlast => ?_,⟨h.chars,h.single⟩,h.upSegment,
        h.dotSegment,h.slash⟩⟩
      have hno : ¬TargetChar '\r' := by
        unfold TargetChar
        decide
      exact hno (h.chars _ (List.mem_of_getLast? hlast))

/-- A name with its last `.` dropped has no such segment left. -/
theorem TargetShape.dropped (h : TargetShape target) :
    TargetShape (dropDotSegment target) ∧ ¬"/.".toList <:+ dropDotSegment target := by
  rw [dropDotSegment]
  split
  · next hs =>
    obtain ⟨name,rfl⟩ := List.isSuffixOf_iff_suffix.mp hs
    have hdrop : (name ++ "/.".toList).dropLast.dropLast = name := by
      rw [List.dropLast_append_of_ne_nil (by decide), List.dropLast_append_of_ne_nil (by decide)]
      exact List.append_nil name
    have hpre : name <+: name ++ "/.".toList := List.prefix_append _ _
    have hne : name ≠ [] := by
      rintro rfl
      exact h.relative rfl
    rw [hdrop]
    refine ⟨⟨hne,?_,⟨?_,fun hp => h.up.2 (hp.trans hpre)⟩,fun hp => h.here (hp.trans hpre),
      fun c hc => h.chars c (List.mem_append_left _ hc),
      fun hi => h.single (hi.trans hpre.isInfix),
      ⟨fun hi => h.upSegment.1 (hi.trans hpre.isInfix),?_⟩,
      fun hi => h.dotSegment (hi.trans hpre.isInfix),.inr ?_⟩,?_⟩
    · rw [← List.head?_append_of_ne_nil name hne]
      exact h.relative
    · rintro rfl
      exact h.up.2 ⟨['.'],rfl⟩
    · rintro ⟨front,rfl⟩
      exact h.upSegment.1 ⟨front,['.'],by simp⟩
    · intro hlast
      obtain ⟨front,rfl⟩ := List.getLast?_eq_some_iff.mp hlast
      exact h.single ⟨front,['.'],by simp⟩
    · rintro ⟨front,rfl⟩
      exact h.dotSegment ⟨front,['.'],by simp⟩
  · next hs => exact ⟨h,fun hsuffix => hs (List.isSuffixOf_iff_suffix.mpr hsuffix)⟩

theorem TargetShape.plain (h : TargetShape target) (hdot : ¬"/.".toList <:+ target)
    (hname : target ≠ ['.']) : ∀ segment ∈ splitOn '/' target, Plain segment := by
  intro segment hs
  obtain ⟨front,back,rfl,hf,hb⟩ := splitOn_around hs
  refine ⟨?_,?_,?_⟩ <;> rintro rfl <;> rcases hf with rfl | ⟨f,rfl⟩ <;> rcases hb with rfl | ⟨b,rfl⟩
  · exact h.nonempty rfl
  · exact h.relative rfl
  · rcases h.slash with hsuffix | hlast
    · exact hdot hsuffix
    · exact hlast (by simp)
  · exact h.single ⟨f,b,by simp⟩
  · exact hname rfl
  · exact h.here ⟨b,rfl⟩
  · exact hdot ⟨f,by simp⟩
  · exact h.dotSegment ⟨f,b,by simp⟩
  · exact h.up.1 rfl
  · exact h.up.2 ⟨b,rfl⟩
  · exact h.upSegment.2 ⟨f,by simp⟩
  · exact h.upSegment.1 ⟨f,b,by simp⟩

end Target

section Parse

variable {input : String} {ctx : LabelContext} {mapRepo : String → String} {l : Label}

theorem checks_ok {wildcard notAbsolute : Bool} {package name : Except LabelError Unit}
    {e e' : LabelParseError} {f g : LabelError → LabelParseError} {l' : Label} :
    (do
      if wildcard then throw e
      package.mapError f
      name.mapError g
      if notAbsolute then throw e'
      return l' : Except LabelParseError Label) = .ok l ↔
      wildcard = false ∧ package = .ok () ∧ name = .ok () ∧ notAbsolute = false ∧ l = l' := by
  cases wildcard <;> cases package <;> cases name <;> cases notAbsolute <;>
    simp [throw, throwThe, MonadExceptOf.throw, bind, Except.bind, Except.mapError, pure, Except.pure,
      eq_comm]

theorem parseMapped_ok : Label.parseMapped input ctx mapRepo = .ok l ↔
    let split := splitRepo input.toList
    let written := split.repo.getD ctx.repo.toList
    let parts := labelParts ctx split written
    (∀ repo, split.repo = some repo → validateRepoName repo = .ok ()) ∧
      isWildcard parts.wildcard = false ∧ validatePackageName parts.package = .ok () ∧
      validateTargetName parts.name = .ok () ∧ parts.notAbsolute = false ∧
      l = ⟨if split.apparent then mapRepo (.ofList written) else .ofList written,
        .ofList parts.package,.ofList (dropDotSegment parts.name)⟩ := by
  unfold Label.parseMapped
  generalize splitRepo input.toList = split
  obtain ⟨repo,apparent,rest,repoOnly⟩ := split
  cases repo with
  | none => exact checks_ok.trans (by simp)
  | some repo =>
    dsimp only
    rw [Fallible.bind_ok]
    simp only [Fallible.mapError_ok, Option.some.injEq, forall_eq']
    constructor
    · rintro ⟨u,hrepo,h⟩
      exact ⟨hrepo,checks_ok.mp h⟩
    · rintro ⟨hrepo,h⟩
      exact ⟨(),hrepo,checks_ok.mpr h⟩

theorem labelParts_colon {split : RepoSplit} {written package name : List Char}
    (honly : split.repoOnly = false) (hrest : split.rest = '/' :: '/' :: (package ++ ':'::name))
    (hcolon : ':' ∉ package) :
    labelParts ctx split written = ⟨package,name,package,none,false⟩ := by
  rw [labelParts, honly, hrest]
  simp [List.isPrefixOf, splitOnce_append hcolon]

theorem splitRepo_at (after : List Char) : ∃ repo, (splitRepo ('@'::after)).repo = some repo := by
  simp only [splitRepo]
  generalize splitAtSlashes _ = found
  cases found <;> exact ⟨_,rfl⟩

theorem splitRepo_none {text : List Char} (h : (splitRepo text).repo = none) :
    splitRepo text = ⟨none,false,text,false⟩ := by
  cases text with
  | nil => rfl
  | cons c after =>
    by_cases hc : c = '@'
    · subst hc
      obtain ⟨repo,hrepo⟩ := splitRepo_at after
      cases h.symm.trans hrepo
    · unfold splitRepo
      split
      · next heq => exact absurd (List.cons.inj heq).1 hc
      · rfl

theorem labelText_toList (l : Label) : (labelText l).toList =
    (if l.repo = "" then [] else '@' :: '@' :: l.repo.toList) ++
      '/' :: '/' :: (l.package.toList ++ ':'::l.name.toList) := by
  rw [labelText]
  split <;> simp

/-- What the text of a label is split into. -/
theorem splitRepo_labelText (hrepo : '/' ∉ l.repo.toList) : ∃ repo, splitRepo (labelText l).toList =
    ⟨repo,false,'/' :: '/' :: (l.package.toList ++ ':'::l.name.toList),false⟩ ∧
      (∀ r, repo = some r → r = l.repo.toList) ∧ String.ofList (repo.getD []) = l.repo := by
  rw [labelText_toList]
  by_cases hz : l.repo = ""
  · rw [if_pos hz]
    exact ⟨none,rfl,nofun,hz.symm⟩
  · refine ⟨some l.repo.toList,?_,fun r hr => (Option.some.inj hr).symm,String.ofList_toList⟩
    rw [if_neg hz, List.cons_append, List.cons_append, splitRepo]
    simp only [splitAtSlashes_append hrepo]

/-- A label whose parts are what they have to be is read back from its text. -/
theorem parse_labelText (hrepo : validateRepoName l.repo.toList = .ok ())
    (hpackage : validatePackageName l.package.toList = .ok ())
    (hname : validateTargetName l.name.toList = .ok ())
    (hdot : ¬"/.".toList <:+ l.name.toList) (p : String) :
    Label.parse (labelText l) ⟨"",p⟩ = .ok l := by
  have hslash : '/' ∉ l.repo.toList := fun h => absurd (validateRepoName_char hrepo h) (by decide)
  have hcolon : ':' ∉ l.package.toList := fun h =>
    absurd (validatePackageName_char hpackage h) (by decide)
  have hlast : dropDotSegment l.name.toList = l.name.toList := by
    rw [dropDotSegment, if_neg]
    rwa [List.isSuffixOf_iff_suffix]
  obtain ⟨repo,hsplit,hsome,hwritten⟩ := splitRepo_labelText hslash
  have hparts : ∀ written, labelParts ⟨"",p⟩
      ⟨repo,false,'/' :: '/' :: (l.package.toList ++ ':'::l.name.toList),false⟩ written =
      ⟨l.package.toList,l.name.toList,l.package.toList,none,false⟩ := fun _ =>
    labelParts_colon rfl rfl hcolon
  apply parseMapped_ok.mpr
  simp only [hsplit, hparts]
  refine ⟨fun r hr => hsome r hr ▸ hrepo,not_wildcard hpackage,hpackage,hname,trivial,?_⟩
  simp [hlast, hwritten]

theorem repo_of_read_back (h : Label.parse (labelText l) ⟨"",""⟩ = .ok l) :
    validateRepoName l.repo.toList = .ok () := by
  by_cases hz : l.repo = ""
  · rw [hz]
    rfl
  · obtain ⟨hvalid,-,-,-,-,hl⟩ := parseMapped_ok.mp h
    have hsome : ∃ repo, (splitRepo (labelText l).toList).repo = some repo ∧
        (splitRepo (labelText l).toList).apparent = false := by
      rw [labelText_toList, if_neg hz, List.cons_append, List.cons_append, splitRepo]
      cases splitAtSlashes (l.repo.toList ++ '/' :: '/' :: (l.package.toList ++ ':'::l.name.toList)) with
      | none => exact ⟨_,rfl,rfl⟩
      | some parts => exact ⟨_,rfl,rfl⟩
    obtain ⟨repo,hrepo,happarent⟩ := hsome
    have hown := congrArg (String.toList ∘ Label.repo) hl
    simp only [hrepo, happarent, Function.comp_apply, Option.getD_some, Bool.false_eq_true, if_false,
      String.toList_ofList] at hown
    rw [hown]
    exact hvalid repo hrepo

/-- What every label that is read is. -/
structure WellFormed (l : Label) : Prop where
  package : validatePackageName l.package.toList = .ok ()
  name : validateTargetName l.name.toList = .ok ()
  notWildcard : isWildcard l.package.toList = false
  packagePlain : ∀ segment ∈ segments l.package.toList, Plain segment
  namePlain : l.name = "." ∨ ∀ segment ∈ splitOn '/' l.name.toList, Plain segment
  under : Lexical.Under (place l.package) (place (join l.package l.name))

theorem component_plain {segment : List Char} (h : Plain segment) :
    component segment = some (.down segment) := by
  unfold component
  split
  · exact absurd rfl h.1
  · exact absurd rfl h.2.1
  · exact absurd rfl h.2.2
  · rfl

theorem components_plain {path : List Char} (h : ∀ segment ∈ splitOn '/' path, Plain segment) :
    components path = (splitOn '/' path).map .down := by
  rw [components, ← List.filterMap_eq_map]
  exact List.filterMap_congr fun segment hs => component_plain (h segment hs)

theorem wellFormed_of_valid (hpackage : validatePackageName l.package.toList = .ok ())
    (hname : validateTargetName l.name.toList = .ok ()) (hdot : ¬"/.".toList <:+ l.name.toList) :
    WellFormed l := by
  have hplain : l.name = "." ∨ ∀ segment ∈ splitOn '/' l.name.toList, Plain segment := by
    by_cases hz : l.name = "."
    · exact .inl hz
    · have hne : l.name.toList ≠ ['.'] := fun h => hz (String.toList_injective h)
      exact .inr (((validateTargetName_ok.mp hname).resolve_left hne).plain hdot hne)
  refine ⟨hpackage,hname,not_wildcard hpackage,package_plain hpackage,hplain,?_⟩
  rw [place, place, components_join, Lexical.Place.walk_append]
  rcases hplain with hz | hplain
  · rw [hz]
    exact Lexical.Under.refl _
  · rw [components_plain hplain, Lexical.Place.walk_downs]
    exact ⟨rfl,List.prefix_append _ _⟩

/-- A target name as written, with its last dot segment dropped. -/
theorem validateTargetName_dropped {name : List Char} (h : validateTargetName name = .ok ()) :
    validateTargetName (dropDotSegment name) = .ok () ∧ ¬"/.".toList <:+ dropDotSegment name := by
  rcases validateTargetName_ok.mp h with rfl | hshape
  · exact ⟨rfl,by decide⟩
  · exact hshape.dropped.imp_left fun hdropped => validateTargetName_ok.mpr (.inr hdropped)

/-- A label is read back just if its repo has a name, which the input or where it stands
has to give. -/
theorem label_read_back (input : String) (ctx : LabelContext) (mapRepo : String → String)
    (hmap : ∀ r, validateRepoName (mapRepo r).toList = .ok ()) (l : Label)
    (h : Label.parseMapped input ctx mapRepo = .ok l) :
    WellFormed l ∧ ((∀ p, Label.parse (labelText l) ⟨"",p⟩ = .ok l) ↔
      ((splitRepo input.toList).repo = none → validateRepoName ctx.repo.toList = .ok ())) := by
  obtain ⟨hvalid,-,hpackage,hname,-,rfl⟩ := parseMapped_ok.mp h
  obtain ⟨hdropped,hdot⟩ := validateTargetName_dropped hname
  refine ⟨wellFormed_of_valid (by simpa using hpackage) (by simpa using hdropped) (by simpa using hdot),
    fun hback hnone => ?_,fun hctx p => ?_⟩
  · have hrepo := repo_of_read_back (hback "")
    simpa [splitRepo_none hnone] using hrepo
  · apply parse_labelText _ (by simpa using hpackage) (by simpa using hdropped) (by simpa using hdot)
    dsimp only
    split
    · exact hmap _
    · rw [String.toList_ofList]
      cases hrepo : (splitRepo input.toList).repo with
      | none => exact hctx hrepo
      | some repo => exact hvalid repo hrepo

theorem label_read_back_dropped :
    Label.parseMapped "@r//a:b/." ⟨"","p"⟩ (fun _ => "r+") = .ok ⟨"r+","a","b"⟩ ∧
      labelText ⟨"r+","a","b"⟩ = "@@r+//a:b" ∧ WellFormed ⟨"r+","a","b"⟩ ∧
      ∀ p, Label.parse "@@r+//a:b" ⟨"",p⟩ = .ok ⟨"r+","a","b"⟩ := by
  have h : Label.parseMapped "@r//a:b/." ⟨"","p"⟩ (fun _ => "r+") = .ok ⟨"r+","a","b"⟩ := by decide
  obtain ⟨hformed,hback⟩ := label_read_back "@r//a:b/." ⟨"","p"⟩ (fun _ => "r+") (fun _ => rfl) _ h
  exact ⟨h,by decide,hformed,hback.mpr nofun⟩

theorem label_in_unnamed_repo : validateRepoName "r".toList = .ok () ∧
    Label.parseMapped ":n" ⟨"a b",""⟩ (fun _ => "r") = .ok ⟨"a b","","n"⟩ ∧
    Label.parse (labelText ⟨"a b","","n"⟩) ⟨"",""⟩ = .error (.repo "a b" (.repoInvalidChar "a b")) := by
  decide

end Parse

end BuildFiji.Graph
