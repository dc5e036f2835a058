import BuildFiji.Graph.LabelText
import Mathlib

/-!
# Target patterns

A pattern of the command line is read by a reader of its own, which leaves to the
reader of labels what only a label can be. What has no `//`, no `:` and no repo may be a
package or a file, and stays a path.
-/

set_option autoImplicit false
set_option linter.all false

namespace BuildFiji.Graph

structure PatternContext where
  repo : String
  offset : String

inductive PatternError where
  | label (source : LabelParseError)
  | wildcardTarget (text : String)
deriving DecidableEq

def PatternError.message : PatternError → String
  | label source => source.message
  | wildcardTarget text => "Invalid target pattern " ++ text ++
      ": '...' can only be used with wildcard targets"

inductive Pattern where
  | target (label : Label)
  | inPackage (repo package : String) (rulesOnly : Bool)
  | below (repo directory : String) (rulesOnly : Bool)
  | path (repo path : String)
deriving DecidableEq

structure TargetPattern where
  text : String
  negative : Bool
  repoWritten : Option String
  pattern : Pattern
deriving DecidableEq

def targetWords : List (List Char) := ["all".toList,"*".toList,"all-targets".toList]

def wildcardTargets : List (List Char) := [] :: targetWords

/-- What stands before the first `:` and what after it, if there is one. -/
structure PatternParts where
  absolute : Bool
  package : List Char
  target : Option (List Char)
deriving DecidableEq

def patternParts (rest : List Char) : PatternParts :=
  let absolute := "//".toList.isPrefixOf rest
  let body := if absolute then rest.drop 2 else rest
  match splitOnce ':' body with
  | some (package,target) => ⟨absolute,package,some target⟩
  | none => ⟨absolute,body,none⟩

/-- The directory before the `...`. -/
def wildcardDir (package : List Char) : List Char :=
  let dir := package.take (package.length-3)
  if dir.getLast? = some '/' then dir.dropLast else dir

section Read

variable (text : String) (ctx : PatternContext) (mapRepo : String → String)

def checkPackage (package : List Char) : Except PatternError Unit :=
  (validatePackageName package).mapError fun source => .label (.package (.ofList package) source none)

def checkTarget (name : List Char) : Except PatternError Unit :=
  (validateTargetName name).mapError fun source => .label (.target (.ofList name) source)

def labelPattern : Except PatternError Pattern :=
  ((Label.parseMapped text ⟨ctx.repo,ctx.offset⟩ mapRepo).mapError .label).map .target

def belowPattern (repo offset : String) (parts : PatternParts) : Except PatternError Pattern :=
  let dir := wildcardDir parts.package
  let wildcard := parts.target.getD []
  if wildcard ∉ wildcardTargets then .error (.wildcardTarget text)
  else do
    checkPackage dir
    return .below repo (join offset (.ofList dir)) (wildcard = [] ∨ wildcard = "all".toList)

def patternRepo (split : RepoSplit) : Except PatternError String :=
  match split.repo with
  | none => .ok ctx.repo
  | some repo => do
    (validateRepoName repo).mapError fun source => PatternError.label (.repo (.ofList repo) source)
    return if split.apparent then mapRepo (.ofList repo) else .ofList repo

def partsPattern (repo : String) (parts : PatternParts) : Except PatternError Pattern :=
  let offset := if parts.absolute then "" else ctx.offset
  if isWildcard parts.package then belowPattern text repo offset parts
  else match parts.target with
    | some name =>
      if name ∈ targetWords then do
        checkPackage parts.package
        return .inPackage repo (join offset (.ofList parts.package)) (name = "all".toList)
      else if parts.absolute then labelPattern text ctx mapRepo
      else do
        checkPackage parts.package
        checkTarget name
        return .target ⟨repo,join offset (.ofList parts.package),.ofList (dropDotSegment name)⟩
    | none =>
      if parts.absolute then labelPattern text ctx mapRepo
      else do
        checkTarget text.toList
        let path := if text.toList = ['.'] then [] else dropDotSegment text.toList
        return .path repo (join offset (.ofList path))

def readPattern : Except PatternError Pattern :=
  let split := splitRepo text.toList
  if split.repoOnly then labelPattern text ctx mapRepo
  else do
    let repo ← patternRepo ctx mapRepo split
    partsPattern text ctx mapRepo repo (patternParts split.rest)

/-- A pattern that starts with `-` takes its targets away. -/
def TargetPattern.parse (input : String) : Except PatternError TargetPattern :=
  let negative := input.toList.head? == some '-'
  let text := if negative then input.toList.tail else input.toList
  let split := splitRepo text
  let repoWritten := split.repo.map fun _ => String.ofList (text.take (text.length-split.rest.length))
  (readPattern (.ofList text) ctx mapRepo).map fun pattern => ⟨input,negative,repoWritten,pattern⟩

end Read

example : TargetPattern.parse ⟨"","d"⟩ id "-p/...:*" =
    .ok ⟨"-p/...:*",true,none,.below "" "d/p" false⟩ := by decide

example : TargetPattern.parse ⟨"","d"⟩ id "x/." = .ok ⟨"x/.",false,none,.path "" "d/x"⟩ := by decide

/-- The target part is one of the words for many targets, or the package part ends in
`...`. -/
def Wild (text : String) : Prop :=
  (splitRepo text.toList).repoOnly = false ∧
    let parts := patternParts (splitRepo text.toList).rest
    (isWildcard parts.package = true ∨ ∃ name ∈ targetWords, parts.target = some name)

/-- The text starts as no path does. -/
def Marked (text : String) : Prop :=
  "//".toList <+: text.toList ∨ text.toList.head? = some '@' ∨ text.toList.head? = some ':'

/-- What a text can be as a pattern and as a label. -/
inductive Readings (text : String) (ctx : PatternContext) : Option Pattern → Option Label → Prop
  | neither : Readings text ctx none none
  | same (l : Label) (h : ¬Wild text) : Readings text ctx (some (.target l)) (some l)
  | below (repo directory : String) (rulesOnly : Bool) (h : Wild text) :
    Readings text ctx (some (.below repo directory rulesOnly)) none
  | inPackage (repo package : String) (rulesOnly : Bool) (h : ¬Marked text) :
    Readings text ctx (some (.inPackage repo package rulesOnly)) none
  | word (repo package : String) (name : List Char) (hname : name ∈ targetWords) (h : Wild text) :
    Readings text ctx (some (.inPackage repo package (name = "all".toList)))
      (some ⟨repo,package,.ofList name⟩)
  | relative (l : Label) (h : ¬Marked text) : Readings text ctx (some (.target l)) none
  | path (name : String) (h : ¬Marked text) :
    Readings text ctx (some (.path ctx.repo (join ctx.offset (if name = "." then "" else name))))
      (some ⟨ctx.repo,ctx.offset,name⟩)

section Shapes

variable {text : String} {ctx : PatternContext} {mapRepo : String → String} {lctx : LabelContext}
  {split : RepoSplit} {written : List Char}

theorem splitOnce_some {sep : Char} {a p q : List Char} (h : splitOnce sep a = some (p,q)) :
    a = p ++ sep::q ∧ sep ∉ p := by
  induction a generalizing p with
  | nil => cases h
  | cons c a ih =>
    rw [splitOnce] at h
    split at h
    · next hc =>
      cases h
      exact ⟨by rw [hc]; rfl,List.not_mem_nil⟩
    · next hc =>
      obtain ⟨⟨p',q'⟩,hp,heq⟩ := Option.map_eq_some_iff.mp h
      cases heq
      obtain ⟨rfl,hno⟩ := ih hp
      refine ⟨rfl,fun hm => ?_⟩
      rcases List.mem_cons.mp hm with rfl | hm
      · exact hc rfl
      · exact hno hm

theorem splitOnce_none {sep : Char} {a : List Char} (h : splitOnce sep a = none) : sep ∉ a := by
  induction a with
  | nil => exact List.not_mem_nil
  | cons c a ih =>
    rw [splitOnce] at h
    split at h
    · cases h
    · next hc =>
      intro hm
      rcases List.mem_cons.mp hm with rfl | hm
      · exact hc rfl
      · exact ih (Option.map_eq_none_iff.mp h) hm

theorem patternParts_absolute (rest : List Char) :
    (patternParts rest).absolute = "//".toList.isPrefixOf rest := by
  unfold patternParts
  dsimp only
  split <;> rfl

/-- The parts of a label with `//`. -/
theorem labelParts_absolute (honly : split.repoOnly = false)
    (habs : (patternParts split.rest).absolute = true) : ∃ name colonless,
      labelParts lctx split written = ⟨(patternParts split.rest).package,name,
        (patternParts split.rest).package,colonless,false⟩ ∧
      ∀ n, (patternParts split.rest).target = some n → name = n := by
  rw [patternParts_absolute] at habs
  rw [labelParts, if_neg (by simp [honly]), if_pos habs, patternParts]
  simp only [habs, if_true]
  cases hs : splitOnce ':' (split.rest.drop 2) with
  | none => exact ⟨_,_,rfl,fun _ h => by cases h⟩
  | some parts => exact ⟨_,_,rfl,fun n hn => Option.some.inj hn⟩

/-- The parts of a text with no `//` in front, as each reader takes them. -/
theorem relative_parts (honly : split.repoOnly = false)
    (habs : (patternParts split.rest).absolute = false) :
    (∃ name, split.rest = ':'::name ∧ patternParts split.rest = ⟨false,[],some name⟩ ∧
        labelParts lctx split written =
          ⟨lctx.package.toList,name,lctx.package.toList,none,false⟩) ∨
      (∃ package name, split.rest.head? ≠ some ':' ∧
        patternParts split.rest = ⟨false,package,some name⟩ ∧
        labelParts lctx split written = ⟨package,name,package,none,true⟩) ∨
      split.rest.head? ≠ some ':' ∧ patternParts split.rest = ⟨false,split.rest,none⟩ ∧
        labelParts lctx split written = ⟨lctx.package.toList,split.rest,split.rest,none,false⟩ := by
  rw [patternParts_absolute] at habs
  have hno : ¬"//".toList.isPrefixOf split.rest = true := by rw [habs]; decide
  rw [labelParts, if_neg (by simp [honly]), if_neg hno, patternParts]
  simp only [habs, Bool.false_eq_true, if_false]
  by_cases hcolon : split.rest.head? = some ':'
  · obtain ⟨name,hrest⟩ := List.head?_eq_some_iff.mp hcolon
    refine .inl ⟨name,hrest,?_,?_⟩
    · rw [hrest, splitOnce, if_pos rfl]
    · rw [if_pos hcolon, hrest, List.tail_cons]
  · simp only [if_neg hcolon]
    cases hs : splitOnce ':' split.rest with
    | none => exact .inr (.inr ⟨hcolon,rfl,rfl⟩)
    | some parts => exact .inr (.inl ⟨parts.1,parts.2,hcolon,rfl,rfl⟩)

/-- The repo that both readers come to. -/
theorem patternRepo_ok {repo : String} (hsplit : splitRepo text.toList = split) :
    patternRepo ctx mapRepo split = .ok repo ↔
      (∀ r, split.repo = some r → validateRepoName r = .ok ()) ∧
        repo = if split.apparent then mapRepo (.ofList (split.repo.getD ctx.repo.toList))
          else .ofList (split.repo.getD ctx.repo.toList) := by
  rw [patternRepo]
  cases hrepo : split.repo with
  | none =>
    have happarent : split.apparent = false := by
      rw [← hsplit, splitRepo_none (hsplit ▸ hrepo)]
    simp [happarent, eq_comm]
  | some r =>
    simp only [Fallible.bind_ok, Fallible.mapError_ok, pure, Except.pure, Option.some.injEq,
      forall_eq', Option.getD_some, Except.ok.injEq]
    constructor
    · rintro ⟨u,hr,rfl⟩
      exact ⟨hr,rfl⟩
    · rintro ⟨hr,rfl⟩
      exact ⟨(),hr,rfl⟩

/-- The label once the repo is known. -/
theorem parseMapped_parts {repo : String} {parts : LabelParts}
    (hrepo : patternRepo ctx mapRepo (splitRepo text.toList) = .ok repo)
    (hparts : labelParts ⟨ctx.repo,ctx.offset⟩ (splitRepo text.toList)
      ((splitRepo text.toList).repo.getD ctx.repo.toList) = parts) (l : Label) :
    Label.parseMapped text ⟨ctx.repo,ctx.offset⟩ mapRepo = .ok l ↔
      isWildcard parts.wildcard = false ∧ validatePackageName parts.package = .ok () ∧
        validateTargetName parts.name = .ok () ∧ parts.notAbsolute = false ∧
        l = ⟨repo,.ofList parts.package,.ofList (dropDotSegment parts.name)⟩ := by
  obtain ⟨hvalid,hrepo⟩ := (patternRepo_ok rfl).mp hrepo
  rw [parseMapped_ok]
  simp only [hparts, ← hrepo]
  exact and_iff_right hvalid

theorem parseMapped_no_repo
    (hrepo : ∀ repo, patternRepo ctx mapRepo (splitRepo text.toList) ≠ .ok repo) (l : Label) :
    Label.parseMapped text ⟨ctx.repo,ctx.offset⟩ mapRepo ≠ .ok l := by
  intro hl
  exact hrepo _ ((patternRepo_ok rfl).mpr ⟨(parseMapped_ok.mp hl).1,rfl⟩)

end Shapes

section Readings

variable {text : String} {ctx : PatternContext} {mapRepo : String → String}

theorem labelPattern_readings (h : ¬Wild text) :
    Readings text ctx (labelPattern text ctx mapRepo).toOption
      (Label.parseMapped text ⟨ctx.repo,ctx.offset⟩ mapRepo).toOption := by
  rw [labelPattern]
  cases Label.parseMapped text ⟨ctx.repo,ctx.offset⟩ mapRepo with
  | error e => exact .neither
  | ok l => exact .same l h

theorem checkPackage_ok {package : List Char} {u : Unit} :
    checkPackage package = .ok u ↔ validatePackageName package = .ok () := Fallible.mapError_ok

theorem checkTarget_ok {name : List Char} {u : Unit} :
    checkTarget name = .ok u ↔ validateTargetName name = .ok () := Fallible.mapError_ok

theorem belowPattern_some {repo offset : String} {parts : PatternParts} (p : Pattern)
    (h : (belowPattern text repo offset parts).toOption = some p) :
    ∃ directory rulesOnly, p = .below repo directory rulesOnly := by
  rw [Fallible.toOption_eq_some, belowPattern, Fallible.ite_error_ok] at h
  obtain ⟨u,-,h⟩ := Fallible.bind_ok.mp h.2
  exact ⟨_,_,(Fallible.pure_ok.mp h).symm⟩

/-- With `...` at the end of its package no text is a label. -/
theorem below_readings (h : Wild text) {repo offset : String} {parts : PatternParts}
    (hno : ∀ l, Label.parseMapped text ⟨ctx.repo,ctx.offset⟩ mapRepo ≠ .ok l) :
    Readings text ctx (belowPattern text repo offset parts).toOption
      (Label.parseMapped text ⟨ctx.repo,ctx.offset⟩ mapRepo).toOption := by
  rw [Fallible.toOption_eq_none.mpr hno]
  cases hp : (belowPattern text repo offset parts).toOption with
  | none => exact .neither
  | some p =>
    obtain ⟨directory,rulesOnly,rfl⟩ := belowPattern_some p hp
    exact .below repo directory rulesOnly h

theorem word_valid {name : List Char} (h : name ∈ targetWords) :
    validateTargetName name = .ok () ∧ dropDotSegment name = name := by
  have hall : ∀ name ∈ targetWords, validateTargetName name = .ok () ∧ dropDotSegment name = name := by
    decide
  exact hall name h

theorem wild_iff {parts : PatternParts} (honly : (splitRepo text.toList).repoOnly = false)
    (hparts : patternParts (splitRepo text.toList).rest = parts) :
    Wild text ↔ isWildcard parts.package = true ∨ ∃ name ∈ targetWords, parts.target = some name := by
  simp only [Wild, honly, hparts, true_and]

section Parts

variable {repo : String} {absolute : Bool} {package name : List Char} {target : Option (List Char)}

/-- The package of a word for many targets, under the directory the pattern stands in. -/
theorem partsPattern_word (hwild : isWildcard package = false) (hname : name ∈ targetWords)
    (p : Pattern) : partsPattern text ctx mapRepo repo ⟨absolute,package,some name⟩ = .ok p ↔
      validatePackageName package = .ok () ∧
        p = .inPackage repo (join (if absolute then "" else ctx.offset) (.ofList package))
          (name = "all".toList) := by
  simp only [partsPattern, hwild, Bool.false_eq_true, if_false, if_pos hname, Fallible.bind_ok,
    Fallible.pure_ok]
  simp only [checkPackage_ok, exists_const, @eq_comm _ p]

theorem partsPattern_label (hwild : isWildcard package = false)
    (hname : ∀ name ∈ targetWords, target ≠ some name) :
    partsPattern text ctx mapRepo repo ⟨true,package,target⟩ = labelPattern text ctx mapRepo := by
  cases target with
  | none => simp [partsPattern, hwild]
  | some name =>
    have hno : name ∉ targetWords := fun hmem => hname name hmem rfl
    simp [partsPattern, hwild, hno]

theorem partsPattern_target (hwild : isWildcard package = false) (hname : name ∉ targetWords)
    (p : Pattern) : partsPattern text ctx mapRepo repo ⟨false,package,some name⟩ = .ok p ↔
      validatePackageName package = .ok () ∧ validateTargetName name = .ok () ∧
        p = .target ⟨repo,join ctx.offset (.ofList package),.ofList (dropDotSegment name)⟩ := by
  simp only [partsPattern, hwild, Bool.false_eq_true, if_false, if_neg hname, Fallible.bind_ok,
    Fallible.pure_ok]
  simp only [checkPackage_ok, checkTarget_ok, exists_const, @eq_comm _ p]

theorem partsPattern_path (hwild : isWildcard package = false) (p : Pattern) :
    partsPattern text ctx mapRepo repo ⟨false,package,none⟩ = .ok p ↔
      validateTargetName text.toList = .ok () ∧ p = .path repo (join ctx.offset
        (.ofList (if text.toList = ['.'] then [] else dropDotSegment text.toList))) := by
  simp only [partsPattern, hwild, Bool.false_eq_true, if_false, Fallible.bind_ok, Fallible.pure_ok]
  simp only [checkTarget_ok, exists_const, @eq_comm _ p]

end Parts

section Cases

variable {repo : String} {package name : List Char} {target : Option (List Char)}
  {colonless : Option (List Char)}

/-- A word for many targets is a name of its own to the reader of labels. -/
theorem word_readings {pattern : Except PatternError Pattern} {own : List Char} (h : Wild text)
    (hname : name ∈ targetWords)
    (hpattern : ∀ p, pattern = .ok p ↔ validatePackageName own = .ok () ∧
      p = .inPackage repo (.ofList own) (name = "all".toList))
    (hlabel : ∀ l, Label.parseMapped text ⟨ctx.repo,ctx.offset⟩ mapRepo = .ok l ↔
      validatePackageName own = .ok () ∧ l = ⟨repo,.ofList own,.ofList name⟩) :
    Readings text ctx pattern.toOption
      (Label.parseMapped text ⟨ctx.repo,ctx.offset⟩ mapRepo).toOption := by
  by_cases hown : validatePackageName own = .ok ()
  · rw [Fallible.toOption_eq_some.mpr ((hpattern _).mpr ⟨hown,rfl⟩),
      Fallible.toOption_eq_some.mpr ((hlabel _).mpr ⟨hown,rfl⟩)]
    exact .word repo (.ofList own) name hname h
  · rw [Fallible.toOption_eq_none.mpr fun p hp => hown ((hpattern p).mp hp).1,
      Fallible.toOption_eq_none.mpr fun l hl => hown ((hlabel l).mp hl).1]
    exact .neither

theorem absolute_readings (honly : (splitRepo text.toList).repoOnly = false)
    (hrepo : patternRepo ctx mapRepo (splitRepo text.toList) = .ok repo)
    (hparts : patternParts (splitRepo text.toList).rest = ⟨true,package,target⟩) :
    Readings text ctx (partsPattern text ctx mapRepo repo ⟨true,package,target⟩).toOption
      (Label.parseMapped text ⟨ctx.repo,ctx.offset⟩ mapRepo).toOption := by
  obtain ⟨name,colonless,hl,hname⟩ := @labelParts_absolute ⟨ctx.repo,ctx.offset⟩ _
    ((splitRepo text.toList).repo.getD ctx.repo.toList) honly (by rw [hparts])
  rw [hparts] at hl hname
  have hlabel := parseMapped_parts hrepo hl
  have hwildIff := wild_iff honly hparts
  cases hwild : isWildcard package with
  | true =>
    rw [partsPattern, if_pos hwild]
    exact below_readings (hwildIff.mpr (.inl hwild)) fun l hl =>
      absurd (hwild.symm.trans ((hlabel l).mp hl).1) (by decide)
  | false =>
    by_cases hword : ∃ word ∈ targetWords, target = some word
    · have hw := hwildIff.mpr (.inr hword)
      obtain ⟨word,hmem,rfl⟩ := hword
      obtain rfl := hname word rfl
      obtain ⟨hvalid,hdrop⟩ := word_valid hmem
      refine @word_readings _ _ _ repo _ _ package hw hmem ?_ ?_
      · intro p
        rw [partsPattern_word hwild hmem]
        rfl
      · intro l
        rw [hlabel]
        simp [hwild, hvalid, hdrop]
    · have hno : ∀ word ∈ targetWords, target ≠ some word := fun word hmem heq =>
        hword ⟨word,hmem,heq⟩
      rw [partsPattern_label hwild hno]
      refine labelPattern_readings fun hw => ?_
      rcases hwildIff.mp hw with hw | hw
      · exact absurd (hwild.symm.trans hw) (by decide)
      · exact hword hw

theorem splitAtSlashes_rest {a p q : List Char} (h : splitAtSlashes a = some (p,q)) :
    "//".toList.isPrefixOf q = true := by
  induction a generalizing p with
  | nil => cases h
  | cons c a ih =>
    rw [splitAtSlashes] at h
    split at h
    · next hpre =>
      cases h
      exact hpre
    · obtain ⟨parts,hparts,heq⟩ := Option.map_eq_some_iff.mp h
      cases heq
      exact ih hparts

/-- With a repo written the rest is absolute. -/
theorem splitRepo_relative {text : List Char} (honly : (splitRepo text).repoOnly = false)
    (habs : (patternParts (splitRepo text).rest).absolute = false) :
    splitRepo text = ⟨none,false,text,false⟩ := by
  apply splitRepo_none
  rw [patternParts_absolute] at habs
  cases text with
  | nil => rfl
  | cons c after =>
    by_cases hc : c = '@'
    · exfalso
      subst hc
      simp only [splitRepo] at honly habs
      generalize hs : splitAtSlashes _ = found at honly habs
      cases found with
      | none => cases honly
      | some parts =>
        have hrest := splitAtSlashes_rest hs
        rw [habs] at hrest
        cases hrest
    · unfold splitRepo
      split
      · next heq => exact absurd (List.cons.inj heq).1 hc
      · rfl

theorem join_empty (dir : String) : join dir "" = dir := by
  rw [join]
  split
  · next h => exact h.symm
  · rfl

theorem dropDotSegment_dot {name : List Char} (h : validateTargetName name = .ok ()) :
    dropDotSegment name = ['.'] ↔ name = ['.'] := by
  constructor
  · intro hdrop
    rcases validateTargetName_ok.mp h with rfl | hshape
    · rfl
    · rw [dropDotSegment] at hdrop
      split at hdrop
      · next hs =>
        obtain ⟨front,rfl⟩ := List.isSuffixOf_iff_suffix.mp hs
        have hfront : (front ++ "/.".toList).dropLast.dropLast = front := by
          rw [List.dropLast_append_of_ne_nil (by decide), List.dropLast_append_of_ne_nil (by decide)]
          exact List.append_nil front
        rw [hfront] at hdrop
        subst hdrop
        exact absurd ⟨['.'],rfl⟩ hshape.here
      · exact hdrop
  · rintro rfl
    rfl

theorem colon_readings (hoffset : validatePackageName ctx.offset.toList = .ok ())
    (honly : (splitRepo text.toList).repoOnly = false)
    (hparts : patternParts (splitRepo text.toList).rest = ⟨false,[],some name⟩)
    (hlabel : ∀ l, Label.parseMapped text ⟨ctx.repo,ctx.offset⟩ mapRepo = .ok l ↔
      validateTargetName name = .ok () ∧ l = ⟨repo,ctx.offset,.ofList (dropDotSegment name)⟩) :
    Readings text ctx (partsPattern text ctx mapRepo repo ⟨false,[],some name⟩).toOption
      (Label.parseMapped text ⟨ctx.repo,ctx.offset⟩ mapRepo).toOption := by
  have hjoin : join ctx.offset (.ofList []) = ctx.offset := join_empty ctx.offset
  have hwildIff := wild_iff honly hparts
  by_cases hmem : name ∈ targetWords
  · obtain ⟨hvalid,hdrop⟩ := word_valid hmem
    refine @word_readings _ _ _ repo _ _ ctx.offset.toList (hwildIff.mpr (.inr ⟨name,hmem,rfl⟩)) hmem
      ?_ ?_
    · intro p
      rw [partsPattern_word rfl hmem, String.ofList_toList]
      simp only [Bool.false_eq_true, if_false, hjoin, hoffset]
      exact and_congr_left fun _ => ⟨fun _ => trivial,fun _ => rfl⟩
    · intro l
      rw [hlabel, hdrop, String.ofList_toList]
      simp only [hvalid, hoffset]
  · have hpattern := @partsPattern_target text ctx mapRepo repo [] name rfl hmem
    rw [hjoin] at hpattern
    by_cases hvalid : validateTargetName name = .ok ()
    · rw [Fallible.toOption_eq_some.mpr ((hpattern _).mpr ⟨rfl,hvalid,rfl⟩),
        Fallible.toOption_eq_some.mpr ((hlabel _).mpr ⟨hvalid,rfl⟩)]
      refine .same _ fun hw => ?_
      rcases hwildIff.mp hw with hw | ⟨word,hword,heq⟩
      · have hroot : isWildcard [] = true := hw
        exact absurd hroot (by decide)
      · exact hmem (Option.some.inj heq ▸ hword)
    · rw [Fallible.toOption_eq_none.mpr fun p hp => hvalid ((hpattern p).mp hp).2.1,
        Fallible.toOption_eq_none.mpr fun l hl => hvalid ((hlabel l).mp hl).1]
      exact .neither

theorem named_readings (hmarked : ¬Marked text)
    (honly : (splitRepo text.toList).repoOnly = false)
    (hparts : patternParts (splitRepo text.toList).rest = ⟨false,package,some name⟩)
    (hlabel : ∀ l, Label.parseMapped text ⟨ctx.repo,ctx.offset⟩ mapRepo ≠ .ok l) :
    Readings text ctx (partsPattern text ctx mapRepo repo ⟨false,package,some name⟩).toOption
      (Label.parseMapped text ⟨ctx.repo,ctx.offset⟩ mapRepo).toOption := by
  cases hwild : isWildcard package with
  | true =>
    rw [partsPattern, if_pos hwild]
    exact below_readings ((wild_iff honly hparts).mpr (.inl hwild)) hlabel
  | false =>
    rw [Fallible.toOption_eq_none.mpr hlabel]
    cases hp : (partsPattern text ctx mapRepo repo ⟨false,package,some name⟩).toOption with
    | none => exact .neither
    | some p =>
      rw [Fallible.toOption_eq_some] at hp
      by_cases hmem : name ∈ targetWords
      · obtain ⟨-,rfl⟩ := (partsPattern_word hwild hmem p).mp hp
        exact .inPackage repo _ _ hmarked
      · obtain ⟨-,-,rfl⟩ := (partsPattern_target hwild hmem p).mp hp
        exact .relative _ hmarked

theorem path_readings (hmarked : ¬Marked text)
    (honly : (splitRepo text.toList).repoOnly = false)
    (hparts : patternParts (splitRepo text.toList).rest = ⟨false,text.toList,none⟩)
    (hlabel : ∀ l, Label.parseMapped text ⟨ctx.repo,ctx.offset⟩ mapRepo = .ok l ↔
      isWildcard text.toList = false ∧ validateTargetName text.toList = .ok () ∧
        l = ⟨ctx.repo,ctx.offset,.ofList (dropDotSegment text.toList)⟩) :
    Readings text ctx (partsPattern text ctx mapRepo ctx.repo ⟨false,text.toList,none⟩).toOption
      (Label.parseMapped text ⟨ctx.repo,ctx.offset⟩ mapRepo).toOption := by
  cases hwild : isWildcard text.toList with
  | true =>
    rw [partsPattern, if_pos hwild]
    exact below_readings ((wild_iff honly hparts).mpr (.inl hwild)) fun l hl =>
      absurd (hwild.symm.trans ((hlabel l).mp hl).1) (by decide)
  | false =>
    have hpattern := @partsPattern_path text ctx mapRepo ctx.repo text.toList hwild
    by_cases hvalid : validateTargetName text.toList = .ok ()
    · rw [Fallible.toOption_eq_some.mpr ((hpattern _).mpr ⟨hvalid,rfl⟩),
        Fallible.toOption_eq_some.mpr ((hlabel _).mpr ⟨hwild,hvalid,rfl⟩)]
      have hname : String.ofList (if text.toList = ['.'] then [] else dropDotSegment text.toList) =
          if String.ofList (dropDotSegment text.toList) = "." then ""
          else .ofList (dropDotSegment text.toList) := by
        have hdot : String.ofList (dropDotSegment text.toList) = "." ↔ text.toList = ['.'] := by
          rw [← dropDotSegment_dot hvalid]
          exact ⟨fun h => by simpa using congrArg String.toList h,fun h => by rw [h]⟩
        by_cases h : text.toList = ['.']
        · rw [if_pos h, if_pos (hdot.mpr h)]
        · rw [if_neg h, if_neg (mt hdot.mp h)]
      rw [hname]
      exact .path _ hmarked
    · rw [Fallible.toOption_eq_none.mpr fun p hp => hvalid ((hpattern p).mp hp).1,
        Fallible.toOption_eq_none.mpr fun l hl => hvalid ((hlabel l).mp hl).2.1]
      exact .neither

end Cases

theorem relative_readings {repo : String} (hoffset : validatePackageName ctx.offset.toList = .ok ())
    (honly : (splitRepo text.toList).repoOnly = false)
    (hrepo : patternRepo ctx mapRepo (splitRepo text.toList) = .ok repo)
    (habs : (patternParts (splitRepo text.toList).rest).absolute = false) :
    Readings text ctx
      (partsPattern text ctx mapRepo repo (patternParts (splitRepo text.toList).rest)).toOption
      (Label.parseMapped text ⟨ctx.repo,ctx.offset⟩ mapRepo).toOption := by
  have hsplit := splitRepo_relative honly habs
  obtain rfl : repo = ctx.repo := by
    have h := ((patternRepo_ok rfl).mp hrepo).2
    rw [hsplit] at h
    simpa using h
  have hno := not_wildcard hoffset
  have hmarked : (splitRepo text.toList).rest.head? ≠ some ':' → ¬Marked text := by
    rw [hsplit]
    rintro hcolon (hpre | hat | hhead)
    · rw [patternParts_absolute, hsplit, List.isPrefixOf_iff_prefix.mpr hpre] at habs
      cases habs
    · obtain ⟨after,hafter⟩ := List.head?_eq_some_iff.mp hat
      obtain ⟨r,hr⟩ := splitRepo_at after
      rw [← hafter, hsplit] at hr
      cases hr
    · exact hcolon hhead
  rcases @relative_parts ⟨ctx.repo,ctx.offset⟩ _ ((splitRepo text.toList).repo.getD ctx.repo.toList)
    honly habs with ⟨name,-,hp,hl⟩ | ⟨package,name,hcolon,hp,hl⟩ | ⟨hcolon,hp,hl⟩
  · rw [hp]
    apply colon_readings hoffset honly hp
    intro l
    rw [parseMapped_parts hrepo hl]
    simp [hno, hoffset]
  · rw [hp]
    apply named_readings (hmarked hcolon) honly hp
    intro l h
    have hlabel : true = false := ((parseMapped_parts hrepo hl l).mp h).2.2.2.1
    cases hlabel
  · have hrest : (splitRepo text.toList).rest = text.toList := by rw [hsplit]
    rw [hp, hrest]
    apply path_readings (hmarked hcolon) honly (hp.trans (by rw [hrest]))
    intro l
    rw [parseMapped_parts hrepo hl, hrest]
    simp [hoffset]

theorem readings (hoffset : validatePackageName ctx.offset.toList = .ok ()) :
    Readings text ctx (readPattern text ctx mapRepo).toOption
      (Label.parseMapped text ⟨ctx.repo,ctx.offset⟩ mapRepo).toOption := by
  rw [readPattern]
  cases honly : (splitRepo text.toList).repoOnly with
  | true =>
    rw [if_pos rfl]
    exact labelPattern_readings fun hw => absurd (honly.symm.trans hw.1) (by decide)
  | false =>
    rw [if_neg (by decide)]
    cases hrepo : patternRepo ctx mapRepo (splitRepo text.toList) with
    | error e =>
      have hno := parseMapped_no_repo (fun repo h => by cases hrepo.symm.trans h)
      rw [Fallible.toOption_eq_none.mpr hno]
      exact .neither
    | ok repo =>
      show Readings text ctx (partsPattern text ctx mapRepo repo _).toOption _
      cases habs : (patternParts (splitRepo text.toList).rest).absolute with
      | false => exact relative_readings hoffset honly hrepo habs
      | true =>
        cases hparts : patternParts (splitRepo text.toList).rest with
        | mk absolute package target =>
          obtain rfl : absolute = true := by rw [hparts] at habs; exact habs
          exact absolute_readings honly hrepo hparts

end Readings

/-- What a text with no `-` in front is as a pattern. -/
def patternOf (text : String) (ctx : PatternContext) (mapRepo : String → String) : Option Pattern :=
  (TargetPattern.parse ctx mapRepo text).toOption.map TargetPattern.pattern

theorem patternOf_eq {text : String} (hdash : text.toList.head? ≠ some '-') (ctx : PatternContext)
    (mapRepo : String → String) : patternOf text ctx mapRepo = (readPattern text ctx mapRepo).toOption := by
  have hno : (text.toList.head? == some '-') = false := by simpa using hdash
  rw [patternOf, TargetPattern.parse, Fallible.toOption_map, Option.map_map]
  simp only [hno, Bool.false_eq_true, if_false, String.ofList_toList]
  cases (readPattern text ctx mapRepo).toOption <;> rfl

/-- A text that starts as no path does is one target just where it is a label, no word
for many and no `...`. Other texts are nothing to both, or what the label reader does not
know or takes for a name. -/
theorem pattern_and_label (text : String) (hdash : text.toList.head? ≠ some '-')
    (ctx : PatternContext) (hoffset : validatePackageName ctx.offset.toList = .ok ())
    (mapRepo : String → String) :
    (Marked text → ∀ l, patternOf text ctx mapRepo = some (.target l) ↔
        Label.parseMapped text ⟨ctx.repo,ctx.offset⟩ mapRepo = .ok l ∧ ¬Wild text) ∧
      Readings text ctx (patternOf text ctx mapRepo)
        (Label.parseMapped text ⟨ctx.repo,ctx.offset⟩ mapRepo).toOption := by
  have h := @readings text ctx mapRepo hoffset
  rw [← patternOf_eq hdash] at h
  refine ⟨fun hmarked l => ?_,h⟩
  rw [← Fallible.toOption_eq_some]
  generalize patternOf text ctx mapRepo = pattern at h
  generalize (Label.parseMapped text ⟨ctx.repo,ctx.offset⟩ mapRepo).toOption = label at h
  cases h with
  | neither => simp
  | same l' hno => simp [hno]
  | below repo directory rulesOnly hwild => simp
  | inPackage repo package rulesOnly hno => exact absurd hmarked hno
  | word repo package name hname hwild => simp [hwild]
  | relative l' hno => exact absurd hmarked hno
  | path name hno => exact absurd hmarked hno

theorem pattern_and_label_dropped :
    patternOf "@r//a:b/." ⟨"","d"⟩ id = some (.target ⟨"r","a","b"⟩) ∧
      Label.parseMapped "@r//a:b/." ⟨"","d"⟩ id = .ok ⟨"r","a","b"⟩ ∧ ¬Wild "@r//a:b/." := by
  have h := (pattern_and_label "@r//a:b/." (by decide) ⟨"","d"⟩ rfl id).1 (.inr (.inl rfl))
    ⟨"r","a","b"⟩
  have hread : patternOf "@r//a:b/." ⟨"","d"⟩ id = some (.target ⟨"r","a","b"⟩) := by decide
  exact ⟨hread,h.mp hread⟩

/-- Both readers take a label with `//`, and one the word in it for a name. -/
theorem read_by_both : patternOf "//a:b" ⟨"",""⟩ id = some (.target ⟨"","a","b"⟩) ∧
    Label.parseMapped "//a:b" ⟨"",""⟩ id = .ok ⟨"","a","b"⟩ ∧
    patternOf "//a:all" ⟨"",""⟩ id = some (.inPackage "" "a" true) ∧
    Label.parseMapped "//a:all" ⟨"",""⟩ id = .ok ⟨"","a","all"⟩ := by
  decide

end BuildFiji.Graph
