import BuildFiji.Graph.Pattern
import BuildFiji.Graph.Rule
import BuildFiji.Lib.Stateful
import BuildFiji.Lib.FirstOccurrence
import BuildFiji.Lib.SortDedup
import Mathlib.Data.Finset.Basic

/-!
# From target patterns to targets

A negative pattern removes what it selects, wherever it is written, and a package that ends
with errors keeps the targets it got to: they are selected to fail. Packages are loaded once
for all patterns, whatever they are loaded for.
-/

set_option autoImplicit false
set_option linter.all false

namespace BuildFiji.Loading

open BuildFiji.Graph BuildFiji.Cached BuildFiji.FirstOccurrence BuildFiji.SortDedup

inductive TargetKind where
  | rule (ruleClass : String) (attrs : Attrs)
  | sourceFile
  | packageGroup
  | environmentGroup
  | generatedFile (rule : String)
deriving DecidableEq

def TargetKind.isRule : TargetKind → Bool
  | rule _ _ => true
  | _ => false

structure Target where
  name : String
  kind : TargetKind
deriving DecidableEq

structure Package where
  repo : String
  name : String
  targets : List Target
  distinct : (targets.map Target.name).Nodup

namespace Package

def target (package : Package) (name : String) : Option Target :=
  package.targets.find? fun t => t.name = name

/-- What the rules of the package name in it that is no target of its own. -/
def inputFiles (package : Package) : List String :=
  let labels := package.targets.flatMap fun t => match t.kind with
    | .rule _ attrs => attrs.flatMap fun e => e.2.labels
    | _ => []
  sortDedup ((labels.filter fun l => l.repo = package.repo ∧ l.package = package.name ∧
    package.target l.name = none).map Label.name)

end Package

structure BuildFile where
  fileName : String
  path : String

/-- The packages of one repository on disk. -/
structure PackageLookup where
  buildFile : String → Except String BuildFile
  packagesUnder : String → Except String (List String)
  isDir : (package name : String) → Bool
  isFile : (package name : String) → Bool

def PackageLookup.isPackage (lookup : PackageLookup) (package : String) : Bool :=
  (lookup.buildFile package).isOk

inductive Purpose where
  | package
  | target
  | tree
deriving DecidableEq

abbrev Loaded := Except String Package

/-- Where packages come from. The purpose decides what a failure says besides the error of
the package, which is the same for all of them. -/
structure PackageSource where
  lookup : String → Except String PackageLookup
  package : String → String → Loaded
  packageFor : String → String → Purpose → Loaded
  partialPackage : String → String → Option Package
  same : ∀ repo name purpose, packageFor repo name purpose = package repo name

def manualByDefault : List String :=
  ["config_feature_flag","config_setting","constraint_setting","constraint_value","environment",
    "platform","toolchain"]

def isManual (target : Target) : Bool :=
  match target.kind with
  | .rule ruleClass attrs =>
    match valueOf attrs "tags" with
    | some (.stringList tags) => "manual" ∈ tags
    | some _ => false
    | none => ruleClass ∈ manualByDefault
  | _ => false

section Suggest

/-- What follows in a row, to the right of `left` and of `diagonal` above it. -/
def cells (a : Char) : ℕ → ℕ → List Char → List ℕ → List ℕ
  | diagonal, left, b::bs, above::row =>
    let cell := if a = b then diagonal else 1 + min (min diagonal above) left
    cell::cells a above cell bs row
  | _, _, _, _ => []

def editDistance (a b : List Char) : ℕ :=
  let row := a.zipIdx.foldl (fun row c => match row with
    | [] => []
    | diagonal::row => (c.2+1)::cells c.1 diagonal (c.2+1) b row) (List.range (b.length+1))
  row.getLastD 0

/-- The nearest of the candidates, the first of several as near. -/
def suggest (given : String) (candidates : List String) : Option String :=
  let limit := (given.length+1)/3
  let near := (candidates.map fun c => (editDistance given.toList c.toList,c)).filter fun e => e.1 ≤ limit
  (near.foldl (fun best e => match best with
    | none => some e
    | some b => if e.1 < b.1 then some e else some b) none).map Prod.snd

end Suggest

/-- Why one package could not be selected from, and what it did define. -/
structure Failed where
  message : String
  partialLabels : List Label
  defined : Bool
deriving DecidableEq

def Failed.plain (message : String) : Failed := ⟨message,[],false⟩

def containsErrors (message : String) : Bool := "' contains errors".toList.isSuffixOf message.toList

/-- What one pattern selected: its targets, those of packages with errors, and the first
thing that went wrong. -/
structure Selected where
  targets : List Label
  inError : List Label
  failure : Option String
  defined : Bool
deriving DecidableEq

namespace Selected

def empty : Selected := ⟨[],[],none,false⟩

def fail (s : Selected) (failed : Failed) : Selected :=
  let s := { s with inError := s.inError ++ failed.partialLabels }
  if s.failure = none then { s with failure := some failed.message, defined := failed.defined } else s

def take (s : Selected) : Except Failed (List Label) → Selected
  | .ok labels => { s with targets := s.targets ++ labels }
  | .error failed => s.fail failed

end Selected

section Declared

variable (lowercase : String → String) (package : Package) (lookup : PackageLookup) (label : Label)

def hint (build : BuildFile) : String :=
  let buildRel := if label.package = "" then build.fileName
    else label.package ++ "/" ++ build.fileName
  if lookup.isDir label.package label.name then
    "; however, a source directory of this name exists.  (Perhaps add 'exports_files([\"" ++
      label.name ++ "\"])' to " ++ buildRel ++ ", or define a filegroup?)"
  else if lookup.isFile label.package label.name then
    "; however, a source file of this name exists.  (Perhaps add 'exports_files([\"" ++
      label.name ++ "\"])' to " ++ buildRel ++ "?)"
  else
    let names := package.targets.map Target.name
    match suggest (lowercase label.name) (names.map lowercase) with
    | some found =>
      " (did you mean " ++ (names.find? fun n => lowercase n = found).getD found ++ "?)"
    | none => ""

def notDeclared (build : BuildFile) (hint : String) : String :=
  "no such target '" ++ labelText label ++ "': target '" ++ label.name ++
    "' not declared in package '" ++ label.package ++ "' defined by " ++ build.path ++ hint

/-- Whether the label names a target of its package: a declared one, a file that a rule names,
or the BUILD file. -/
def declaredTarget : Except String Unit :=
  if (package.target label.name).isSome ∨ label.name ∈ package.inputFiles then .ok ()
  else do
    let build ← lookup.buildFile label.package
    if build.fileName = label.name then .ok ()
    else .error (notDeclared label build (hint lowercase package lookup label build))

end Declared

section Select

variable (includeManual : Bool) (lowercase : String → String) (source : PackageSource)

/-- The targets of the package that a wildcard selects. -/
def wildcardOf (loaded : Package) (repo package : String) (rulesOnly : Bool) :
    Except Failed (List Label) := do
  let targets := loaded.targets.filter fun t =>
    ¬ (rulesOnly ∧ ¬ t.kind.isRule) ∧ ¬ (¬ includeManual ∧ isManual t)
  let out := targets.map fun t => (⟨repo,package,t.name⟩ : Label)
  if rulesOnly then return out
  else
    let lookup ← (source.lookup repo).mapError .plain
    let build := (lookup.buildFile package).toOption.toList.map BuildFile.fileName
    return out ++ (build ++ loaded.inputFiles).map fun n => ⟨repo,package,n⟩

/-- A package failed to load with `message`, after it defined what `defines` reads from. -/
def failed (repo package message : String) (defines : Package → Except Failed (List Label)) :
    Failed :=
  let defined := if containsErrors message then source.partialPackage repo package else none
  ⟨message,(defined.bind fun p => (defines p).toOption).getD [],defined.isSome⟩

variable {m : Type → Type} [Monad m] (load : String → String → Purpose → m Loaded)

def wildcard (repo package : String) (rulesOnly : Bool) (purpose : Purpose) :
    m (Except Failed (List Label)) := do
  match ← load repo package purpose with
  | .ok loaded => return wildcardOf includeManual source loaded repo package rulesOnly
  | .error message => return .error (failed source repo package message fun p =>
      wildcardOf includeManual source p repo package rulesOnly)

/-- What a package that did not load says of a label in it. -/
def targetFailed (lookup : PackageLookup) (label : Label) (message : String) : Failed :=
  if containsErrors message then
    let declares := (source.partialPackage label.repo label.package).any fun p =>
      (declaredTarget lowercase p lookup label).isOk
    if declares then ⟨message,[label],true⟩
    else match lookup.buildFile label.package with
      | .ok build => .plain (notDeclared label build "")
      | .error e => .plain e
  else .plain message

def target (label : Label) : m (Except Failed Label) := do
  match source.lookup label.repo with
  | .error message => return .error (.plain message)
  | .ok lookup =>
    match ← load label.repo label.package .target with
    | .ok loaded => return ((declaredTarget lowercase loaded lookup label).mapError .plain).map fun _ => label
    | .error message => return .error (targetFailed lowercase source lookup label message)

/-- The nearest package above, read from the end of the path. -/
def nearestAbove (isPackage : String → Bool) : List Char → List Char
  | [] => []
  | c::above => if c = '/' ∧ isPackage (.ofList above.reverse) then above.reverse
    else nearestAbove isPackage above

/-- The package that holds the path: the path itself if it is one, else the nearest directory
above it that is, with the rest as the target's name. -/
def enclosing (repo path : String) : Except String Label := do
  let lookup ← source.lookup repo
  if path ≠ "" ∧ lookup.isPackage path then
    return ⟨repo,path,.ofList (path.toList.reverse.takeWhile (· ≠ '/')).reverse⟩
  else
    let package := nearestAbove lookup.isPackage path.toList.reverse
    let _ ← lookup.buildFile (.ofList package)
    return ⟨repo,.ofList package,.ofList ((path.toList.drop package.length).dropWhile (· = '/'))⟩

def selectTarget (label : Label) : m Selected := do
  return Selected.empty.take ((← target lowercase source load label).map fun label => [label])

def select : Pattern → m Selected
  | .target label => selectTarget lowercase source load label
  | .path repo path => match enclosing source repo path with
    | .ok label => selectTarget lowercase source load label
    | .error message => return Selected.empty.fail (.plain message)
  | .inPackage repo package rulesOnly => do
    return Selected.empty.take (← wildcard includeManual source load repo package rulesOnly .package)
  | .below repo directory rulesOnly =>
    match source.lookup repo with
    | .error message => return Selected.empty.fail (.plain message)
    | .ok lookup => match lookup.packagesUnder directory with
      | .error message => return Selected.empty.fail (.plain message)
      | .ok packages =>
        if packages = [] then
          return Selected.empty.fail (.plain ("no targets found beneath '" ++ directory ++ "'"))
        else packages.foldlM (fun s package => do
          return s.take (← wildcard includeManual source load repo package rulesOnly .tree))
          Selected.empty

end Select

/-- A pattern that selected nothing, and why. -/
structure Failure where
  pattern : String
  message : String
  packageError : Option String
  tree : Bool
  defined : Bool
deriving DecidableEq

/-- What is said of a pattern whose package did not load. -/
def inPattern (pattern : TargetPattern) (message : String) : String :=
  if ¬ "error loading package '".toList.isPrefixOf message.toList then message
  else if containsErrors message then "Error evaluating '" ++ pattern.text ++ "': " ++ message
  else match pattern.pattern with
    | .target _ => message
    | .path _ _ => message
    | .inPackage _ _ _ => "while parsing '" ++ pattern.text ++ "': " ++ message
    | .below _ directory _ =>
      "error loading package under directory '" ++ directory ++ "': " ++ message

/-- Whether the pattern names one target or path. -/
def single : Pattern → Bool
  | .target _ => true
  | .path _ _ => true
  | _ => false

def isTree : Pattern → Bool
  | .below _ _ _ => true
  | _ => false

/-- What the patterns read so far ask for. -/
structure Gathered where
  selected : List Label
  removed : Finset Label
  explicit : Finset Label
  failures : List Failure
  inError : List Label

namespace Gathered

def empty : Gathered := ⟨[],∅,∅,[],[]⟩

def gather (g : Gathered) (pattern : TargetPattern) (chosen : Selected) : Gathered :=
  let g := if pattern.negative then
      { g with removed := g.removed ∪ chosen.targets.toFinset ∪ chosen.inError.toFinset }
    else { g with
      explicit := if single pattern.pattern then g.explicit ∪ chosen.targets.toFinset else g.explicit
      selected := addAll g.selected chosen.targets
      inError := addAll g.inError chosen.inError }
  match chosen.failure with
  | none => g
  | some message => { g with failures := g.failures ++
      [⟨pattern.text,inPattern pattern message,
        if containsErrors message then some message else none,isTree pattern.pattern,chosen.defined⟩] }

end Gathered

structure Resolved where
  targets : List Label
  explicit : Finset Label
  failures : List Failure
  inError : List Label

def Gathered.settle (g : Gathered) : Resolved :=
  let selected := g.selected.filter fun l => l ∉ g.removed
  let inError := g.inError.filter fun l => l ∉ g.removed
  ⟨selected,g.explicit.filter fun l => l ∈ selected ∨ l ∈ inError,g.failures,inError⟩

section Resolve

variable (includeManual : Bool) (lowercase : String → String) (source : PackageSource)

abbrev Packages := Kept fun key : String × String => source.package key.1 key.2

def load (repo package : String) (purpose : Purpose) : StateM (Packages source) Loaded :=
  read (repo,package) (source.packageFor repo package purpose) (source.same repo package purpose)

def resolveWith (patterns : List TargetPattern) : Resolved :=
  let gathered := patterns.foldlM (fun g pattern => do
    return Gathered.gather g pattern
      (← select includeManual lowercase source (load source) pattern.pattern)) Gathered.empty
  (gathered (.none _)).1.settle

def resolve (patterns : List TargetPattern) : Resolved := resolveWith false lowercase source patterns

end Resolve

end BuildFiji.Loading
