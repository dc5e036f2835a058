import BuildFiji.Lib.Fallible
import Mathlib.Data.List.Infix
import Mathlib.Order.Std
import Std.Data.ExtTreeSet

/-!
# Labels

A label is a repo, a package and a target name. It is read relative to the
package it is written in, and every part is checked by the rules of its own: a
package name is ASCII, a target name may hold any character beyond it.
-/

set_option autoImplicit false
set_option linter.all false

namespace BuildFiji.Graph

structure Label where
  repo : String
  package : String
  name : String
deriving DecidableEq

namespace Label

def cmp (a b : Label) : Ordering :=
  (compare a.repo b.repo).then ((compare a.package b.package).then (compare a.name b.name))

instance : Ord Label := ⟨cmp⟩

instance : Std.TransCmp cmp := inferInstanceAs (Std.TransCmp
  (compareLex (compareOn repo) (compareLex (compareOn package) (compareOn name))))

instance : Std.LawfulEqCmp cmp where
  eq_of_compare {a b} h := by
    simp only [cmp, Ordering.then_eq_eq, Std.LawfulEqOrd.compare_eq_iff_eq] at h
    cases a
    cases b
    simp_all

instance : Std.TransOrd Label := inferInstanceAs (Std.TransCmp cmp)

instance : Std.LawfulEqOrd Label := inferInstanceAs (Std.LawfulEqCmp cmp)

end Label

/-- `//p:n` for the main repository, `@@repo//p:n` for another. -/
def labelText (label : Label) : String :=
  if label.repo = "" then "//" ++ label.package ++ ":" ++ label.name
  else "@@" ++ label.repo ++ "//" ++ label.package ++ ":" ++ label.name

inductive LabelError where
  | packageStartsWithSlash
  | packageEndsWithSlash
  | packageDoubleSlash
  | packageInvalidChar
  | packageDotOnlyComponent
  | targetEmpty
  | targetStartsWithSlash
  | targetEndsWithSlash
  | targetUpLevelReference
  | targetDotSegment
  | targetDoubleSlash
  | targetTrailingCr
  | targetNonPrintable (byte : ℕ)
  | targetInvalidChar (c : Char)
  | repoInvalidChar (repo : String)
deriving DecidableEq

namespace LabelError

def upperHex (n : ℕ) : Char := (Nat.digitChar n).toUpper

def message : LabelError → String
  | packageStartsWithSlash => "package names may not start with '/'"
  | packageEndsWithSlash => "package names may not end with '/'"
  | packageDoubleSlash => "package names may not contain '//' path separators"
  | packageInvalidChar => "package names may contain A-Z, a-z, 0-9, or any of " ++
      "' !\"#$%&'()*+,-./;<=>?[]^_`\x7b|\x7d~' (any ASCII character except 0-31, 127, ':', or '\\')"
  | packageDotOnlyComponent => "package name component contains only '.' characters"
  | targetEmpty => "empty target name"
  | targetStartsWithSlash => "target names may not start with '/'"
  | targetEndsWithSlash => "target names may not end with '/'"
  | targetUpLevelReference => "target names may not contain up-level references '..'"
  | targetDotSegment => "target names may not contain '.' as a path segment"
  | targetDoubleSlash => "target names may not contain '//' path separators"
  | targetTrailingCr => "target names may not end with carriage returns (perhaps the input " ++
      "source is CRLF-terminated)"
  | targetNonPrintable byte => "target names may not contain non-printable characters: '\\x" ++
      .ofList [upperHex (byte/16),upperHex (byte%16)] ++ "'"
  | targetInvalidChar c => "target names may not contain '" ++ .singleton c ++ "'"
  | repoInvalidChar _ => "repo names may contain only A-Z, a-z, 0-9, '-', '_', '.' and '+'"

end LabelError

section Validate

def packagePunctuation : List Char := " !\"#$%&'()*+,-./;<=>?@[]^_`\x7b|\x7d~".toList

def targetPunctuation : List Char := " \"#$&'()*+,;<=>?[]\x7b|\x7d~!%-@^_`".toList

/-- The parts between separators, of which there is at least one. -/
def splitOn (sep : Char) : List Char → List (List Char)
  | [] => [[]]
  | c::cs =>
    match splitOn sep cs with
    | [] => [[c]]
    | part::parts => if c = sep then []::part::parts else (c::part)::parts

/-- The first of the segments that may not be in a package name. -/
def validatePackageSegments : List (List Char) → Except LabelError Unit
  | [] => .ok ()
  | segment::segments =>
    if segment = [] then .error .packageDoubleSlash
    else if segment.all (· == '.') then .error .packageDotOnlyComponent
    else validatePackageSegments segments

def validatePackageName (package : List Char) : Except LabelError Unit :=
  if package = [] then .ok ()
  else if package.head? = some '/' then .error .packageStartsWithSlash
  else if ¬package.all (fun c => c.isAlphanum || packagePunctuation.contains c) then
    .error .packageInvalidChar
  else if package.getLast? = some '/' then .error .packageEndsWithSlash
  else validatePackageSegments (splitOn '/' package)

def isAscii (c : Char) : Bool := c.toNat < 0x80

/-- Beyond ASCII everything is allowed, letter or not. -/
def isAlwaysAllowedTargetChar (c : Char) : Bool :=
  c.isAlphanum || (isAscii c && targetPunctuation.contains c) || !isAscii c

/-- The characters from left to right, so that the first that is wrong is
reported. -/
def validateTargetChars : Option Char → List Char → Except LabelError Unit
  | _, [] => .ok ()
  | previous, c::cs =>
    if c = '/' ∧ previous = some '/' then .error .targetDoubleSlash
    else if c = '.' ∨ c = '/' then validateTargetChars (some c) cs
    else if isAlwaysAllowedTargetChar c then validateTargetChars (some c) cs
    else if c.toNat ≤ 0x1f ∨ c.toNat = 0x7f then .error (.targetNonPrintable c.toNat)
    else .error (.targetInvalidChar c)

/-- `target.contains(text)`. -/
def containsText (text target : List Char) : Bool := target.tails.any text.isPrefixOf

def validateTargetName (target : List Char) : Except LabelError Unit := do
  if target = [] then throw .targetEmpty
  if target = ['.'] then return ()
  if target.head? = some '/' then throw .targetStartsWithSlash
  if target = "..".toList ∨ "../".toList.isPrefixOf target then throw .targetUpLevelReference
  if "./".toList.isPrefixOf target then throw .targetDotSegment
  if target.getLast? = some '\r' then throw .targetTrailingCr
  validateTargetChars none target
  if containsText "/../".toList target ∨ "/..".toList.isSuffixOf target then
    throw .targetUpLevelReference
  if containsText "/./".toList target then throw .targetDotSegment
  if "/.".toList.isSuffixOf target then return ()
  if target.getLast? = some '/' then throw .targetEndsWithSlash

def validateRepoName (repo : List Char) : Except LabelError Unit :=
  if repo.all fun c => c.isAlphanum || ['_','-','.','+'].contains c then .ok ()
  else .error (.repoInvalidChar (.ofList repo))

end Validate

/-- The package a label is written in. -/
structure LabelContext where
  repo : String
  package : String

inductive LabelParseError where
  | notAbsolute (input : String)
  | packageWildcard (input : String)
  | package (package : String) (source : LabelError) (suggestion : Option String)
  | target (name : String) (source : LabelError)
  | repo (repo : String) (source : LabelError)
deriving DecidableEq

namespace LabelParseError

/-- A name as it is quoted in an error. -/
def shown (name : String) : String :=
  .ofList <| name.toList.flatMap fun c =>
    if c = '\r' then "\\r".toList
    else if c.toNat < 0x20 ∨ c.toNat = 0x7f then "<?>".toList
    else [c]

def packageHint : Option String → String
  | some last => " (perhaps you meant \":" ++ last ++ "\"?)"
  | none => ""

def message : LabelParseError → String
  | notAbsolute input => "invalid label '" ++ input ++ "': absolute label must begin with '@' or '//'"
  | packageWildcard input => "invalid label '" ++ input ++ "': package name cannot contain '...'"
  | .package name source suggestion => "invalid package name '" ++ shown name ++ "': " ++
      source.message ++ packageHint suggestion
  | .target name source => "invalid target name '" ++ shown name ++ "': " ++ source.message
  | .repo name source => "invalid repository name '" ++ name ++ "': " ++ source.message

end LabelParseError

section Parse

/-- What stands before the first `//`, and the rest from there. -/
def splitAtSlashes : List Char → Option (List Char × List Char)
  | [] => none
  | c::cs =>
    if "//".toList.isPrefixOf (c::cs) then some ([],c::cs)
    else (splitAtSlashes cs).map fun parts => (c::parts.1,parts.2)

def splitOnce (sep : Char) : List Char → Option (List Char × List Char)
  | [] => none
  | c::cs => if c = sep then some ([],cs) else (splitOnce sep cs).map fun parts => (c::parts.1,parts.2)

structure RepoSplit where
  repo : Option (List Char)
  apparent : Bool
  rest : List Char
  repoOnly : Bool
deriving DecidableEq

def splitRepo (input : List Char) : RepoSplit :=
  match input with
  | '@'::after =>
    let (after,apparent) := match after with
      | '@'::canonical => (canonical,false)
      | _ => (after,true)
    match splitAtSlashes after with
    | some (repo,rest) => ⟨some repo,apparent,rest,false⟩
    | none => ⟨some after,apparent,[],true⟩
  | _ => ⟨none,false,input,false⟩

/-- The package and the name as written, what is a package wildcard if it ends
in `...`, the suggestion for a label with no `:`, and whether the label has a
`:` without being absolute. -/
structure LabelParts where
  package : List Char
  name : List Char
  wildcard : List Char
  colonless : Option (List Char)
  notAbsolute : Bool

def labelParts (ctx : LabelContext) (split : RepoSplit) (written : List Char) : LabelParts :=
  if split.repoOnly then ⟨[],written,[],none,false⟩
  else if "//".toList.isPrefixOf split.rest then
    let absolute := split.rest.drop 2
    match splitOnce ':' absolute with
    | some (package,name) => ⟨package,name,package,none,false⟩
    | none =>
      let last := ((splitOn '/' absolute).getLast?).getD []
      ⟨absolute,last,absolute,some last,false⟩
  else if split.rest.head? = some ':' then
    ⟨ctx.package.toList,split.rest.tail,ctx.package.toList,none,false⟩
  else
    match splitOnce ':' split.rest with
    | some (package,name) => ⟨package,name,package,none,true⟩
    | none => ⟨ctx.package.toList,split.rest,split.rest,none,false⟩

def isWildcard (text : List Char) : Bool :=
  text == "...".toList || "/...".toList.isSuffixOf text

/-- `b/.` is `b`. -/
def dropDotSegment (name : List Char) : List Char :=
  if "/.".toList.isSuffixOf name then name.dropLast.dropLast else name

def Label.parseMapped (input : String) (ctx : LabelContext) (mapRepo : String → String) :
    Except LabelParseError Label := do
  let split := splitRepo input.toList
  if let some repo := split.repo then
    (validateRepoName repo).mapError fun source => LabelParseError.repo (.ofList repo) source
  let written := split.repo.getD ctx.repo.toList
  let repo := if split.apparent then mapRepo (.ofList written) else .ofList written
  let parts := labelParts ctx split written
  if isWildcard parts.wildcard then throw (.packageWildcard input)
  (validatePackageName parts.package).mapError fun source =>
    LabelParseError.package (.ofList parts.package) source (parts.colonless.map .ofList)
  (validateTargetName parts.name).mapError fun source =>
    LabelParseError.target (.ofList parts.name) source
  if parts.notAbsolute then throw (.notAbsolute input)
  return ⟨repo,.ofList parts.package,.ofList (dropDotSegment parts.name)⟩

def Label.parse (input : String) (ctx : LabelContext) : Except LabelParseError Label :=
  Label.parseMapped input ctx id

example : Label.parse "//a/b" ⟨"r","p"⟩ = .ok ⟨"r","a/b","b"⟩ := by decide

example : Label.parse "@r" ⟨"",""⟩ = .ok ⟨"r","","r"⟩ := by decide

example : Label.parse "a:b" ⟨"",""⟩ = .error (.notAbsolute "a:b") := by decide

end Parse

end BuildFiji.Graph
