import BuildFiji.Graph.Configuration
import BuildFiji.Query.Ast

/-!
# Evaluation of query expressions

The graph a query runs over loads a node when it is asked for it. An evaluator
walks it along the edges its options keep; over a universe it sees no target
outside. The loops over the graph are given fuel, since the targets that loading
can reach need not be finitely many.
-/

set_option autoImplicit false
set_option linter.all false

namespace BuildFiji.Query

open BuildFiji.Graph

/-- A set of targets, in the order of their labels. -/
abbrev Targets := Std.ExtTreeSet Label

inductive NodeKind where
  | rule (ruleClass : String) (test executable : Bool)
  | sourceFile
  | generatedFile
  | packageGroup
  | environmentGroup
deriving DecidableEq

def NodeKind.description : NodeKind → String
  | rule ruleClass _ _ => ruleClass ++ " rule"
  | sourceFile => "source file"
  | generatedFile => "generated file"
  | packageGroup => "package group"
  | environmentGroup => "environment group"

abbrev Packages := Std.ExtTreeSet (String × String)
  (compareLex (compareOn Prod.fst) (compareOn Prod.snd))

structure NodeAttr where
  name : String
  text : String
  labels : List Label
  unset : Bool

structure Edge where
  target : Label
  implicit : Bool
  tool : Bool
  nodep : Bool
  aspect : Bool
deriving DecidableEq

structure Node where
  kind : NodeKind
  location : String
  attrs : List NodeAttr
  edges : List Edge

/-- What a pattern selected, and what went wrong with the part it did not. -/
structure Lenient where
  labels : List Label
  error : Option String
  said : Bool

structure TargetGraph where
  pattern : String → Except String (List Label)
  patternLenient : String → Lenient
  node : Label → Except String Node
  siblings : Label → Except String (List Label)
  buildFiles : Label → Except String (List Label)
  loadFiles : Label → Except String (List Label)
  visible : Label → Label → Except String Bool
  isConfiguration : String → Bool
  inConfiguration : Label → String → Bool
  display : Label → String

structure Options where
  implicitDeps : Bool
  toolDeps : Bool
  nodepDeps : Bool
  keepGoing : Bool
deriving DecidableEq

structure Evaluator where
  graph : TargetGraph
  options : Options
  universeTargets : Option Targets
  universePackages : Packages
  scopeTrees : List String

/-- The result of the graph's own work. -/
def said {α : Type} (x : Except String α) : Result α := x.mapError .error

def depthAllows (depth : Option ℕ) (level : ℕ) : Bool := depth.all (level < ·)

namespace Evaluator

def new (graph : TargetGraph) (options : Options) : Evaluator := ⟨graph,options,none,∅,[]⟩

def keeps (options : Options) (edge : Edge) : Bool :=
  (options.implicitDeps || !edge.implicit) && (options.toolDeps || !edge.tool) &&
    (options.nodepDeps || !edge.nodep)

/-- The first of each target and aspect. -/
def withoutRepeats : List (Label × Bool) → List Edge → List Edge
  | _, [] => []
  | seen, edge::edges =>
    if (edge.target,edge.aspect) ∈ seen then withoutRepeats seen edges
    else edge::withoutRepeats ((edge.target,edge.aspect)::seen) edges

/-- The edges of a node the options keep. -/
def edges (e : Evaluator) (node : Node) : List Edge :=
  withoutRepeats [] (node.edges.filter (keeps e.options))

section Walks
variable (e : Evaluator) (fuel : ℕ)

structure DepsWalk where
  seen : Targets
  namedBy : Std.ExtTreeMap Label Label
  next : List Label

def DepsWalk.see (label : Label) (walk : DepsWalk) (edge : Edge) : DepsWalk :=
  if edge.target ∈ walk.seen then walk
  else ⟨walk.seen.insert edge.target,walk.namedBy.insert edge.target label,walk.next ++ [edge.target]⟩

/-- What comes of a dependency that cannot be loaded: the error is said at the
place of the rule that names it, and with `keep_going` it is left out. -/
def depsFailure (text : Option String) (walk : DepsWalk) (label : Label) (error : String) :
    Result DepsWalk :=
  match text, walk.namedBy[label]? with
  | some text, some namer => do
    let namerNode ← said (e.graph.node namer)
    let place := namerNode.location
    let cause := if error.startsWith "no such target " then
        error ++ " and referenced by '" ++ e.graph.display namer ++ "'"
      else error
    if e.options.keepGoing then return { walk with seen := walk.seen.erase label }
    else throw (.error (place ++ ": " ++ cause ++ "\nERROR: Evaluation of query \"" ++ text ++
      "\" failed: preloading transitive closure failed: " ++ error))
  | _, _ => throw (.error error)

def depsVisit (text : Option String) (walk : DepsWalk) (label : Label) : Result DepsWalk :=
  match e.graph.node label with
  | .error error => depsFailure e text walk label error
  | .ok node => return (e.edges node).foldl (DepsWalk.see label) walk

/-- One level after the other, until nothing new is seen or the depth is reached. -/
def levelsLoop {σ : Type} (frontier : σ → List Label) (visit : σ → Result σ) (depth : Option ℕ) :
    ℕ → ℕ → σ → Result σ
  | 0, _, _ => .error .outOfFuel
  | fuel+1, level, walk =>
    if frontier walk = [] ∨ ¬ depthAllows depth level then .ok walk
    else do levelsLoop frontier visit depth fuel (level+1) (← visit walk)

def depsLevel (text : Option String) (walk : DepsWalk) : Result DepsWalk :=
  walk.next.foldlM (depsVisit e text) { walk with next := [] }

/-- The roots and what they depend on, within a depth if one is given; the text
is that of the call a failure is reported against. -/
def depsIn (roots : Targets) (depth : Option ℕ) (text : Option String) : Result Targets := do
  let walk ← levelsLoop DepsWalk.next (depsLevel e text) depth fuel 0 ⟨roots,∅,roots.toList⟩
  return walk.seen

def deps (roots : Targets) (depth : Option ℕ) : Result Targets := depsIn e fuel roots depth none

abbrev Reverse := Std.ExtTreeMap Label (List Label)

def Reverse.add (label : Label) (reverse : Reverse) (edge : Edge) : Reverse :=
  reverse.insert edge.target (reverse.getD edge.target [] ++ [label])

def reverseVisit (reverse : Reverse) (label : Label) : Result Reverse := do
  let node ← said (e.graph.node label)
  return (e.edges node).foldl (Reverse.add label) reverse

def reverseSee (found : Targets × List Label) (parent : Label) : Targets × List Label :=
  if parent ∈ found.1 then found else (found.1.insert parent,found.2 ++ [parent])

def reverseLevel (reverse : Reverse) (found : Targets × List Label) : Result (Targets × List Label) :=
  return found.2.foldl (fun found label => (reverse.getD label []).foldl reverseSee found)
    (found.1,[])

/-- The targets of the closure that depend on the targets, within a depth if one
is given. -/
def reverseClosure (closure targets : Targets) (depth : Option ℕ) : Result Targets := do
  let reverse ← closure.toList.foldlM (reverseVisit e) (∅ : Reverse)
  let seen := targets.filter (closure.contains ·)
  let found ← levelsLoop Prod.snd (reverseLevel reverse) depth fuel 0 (seen,seen.toList)
  return found.1

def rdeps (within targets : Targets) (depth : Option ℕ) : Result Targets := do
  let closure ← deps e fuel within none
  reverseClosure e fuel closure targets depth

abbrev Parents := Std.ExtTreeMap Label (Option Label)

def pathSee (label : Label) (found : Parents × List Label) (edge : Edge) : Parents × List Label :=
  if edge.target ∈ found.1 then found
  else (found.1.insert edge.target (some label),found.2 ++ [edge.target])

/-- The way back from a target to the start it was found from. -/
def pathBack (parents : Parents) : ℕ → Option Label → Targets → Result Targets
  | _, none, path => .ok path
  | 0, some _, _ => .error .outOfFuel
  | fuel+1, some label, path => pathBack parents fuel parents[label]?.join (path.insert label)

def pathLoop (goal : Targets) : ℕ → Parents → List Label → Result Targets
  | 0, _, _ => .error .outOfFuel
  | _+1, _, [] => .ok ∅
  | steps+1, parents, label::queue =>
    if label ∈ goal then pathBack parents fuel (some label) ∅
    else do
      let node ← said (e.graph.node label)
      let found := (e.edges node).foldl (pathSee label) (parents,queue)
      pathLoop goal steps found.1 found.2

/-- A shortest path from one of the first targets to one of the second. -/
def somePath (start goal : Targets) : Result Targets :=
  pathLoop e fuel goal fuel (start.toList.foldl (fun parents l => parents.insert l none) ∅)
    start.toList

end Walks

section Universe
variable (e : Evaluator)

/-- The targets in the universe and those that are not. -/
def withinUniverse (targets : Targets) : Targets × Targets :=
  match e.universeTargets with
  | none => (targets,∅)
  | some u => (targets.filter (u.contains ·),targets.filter fun l => !u.contains l)

def bothWithinUniverse (start goal : Targets) : Targets × Targets :=
  (start.filter fun l => e.universeTargets.all (·.contains l),
    goal.filter fun l => e.universeTargets.all (·.contains l))

def trimEndSlashes (text : List Char) : List Char := (text.reverse.dropWhile (· = '/')).reverse

/-- The directory that a pattern of the main repository that ends in `...` is
below. -/
def treeOf (pattern : String) : Option String :=
  let text := pattern.toList
  if "//".toList.isPrefixOf text then
    let rest := text.drop 2
    if "...".toList.isSuffixOf rest then
      some (.ofList (trimEndSlashes (rest.take (rest.length-3))))
    else none
  else none

def isBelow (dir tree : String) : Bool :=
  tree = "" || dir = tree || (tree ++ "/").toList.isPrefixOf dir.toList

/-- The text of the error for a pattern none of whose targets is in the universe. -/
def outsideError (word : String) (labels : List Label) : String :=
  if "/...".toList.isSuffixOf word.toList then
    let dir := word.toList.take (word.length-4)
    "no targets found beneath '" ++ .ofList ((dir.dropWhile (· = '/')).dropWhile (· = '@')) ++ "'"
  else "no such package '" ++ (labels.head?.map Label.package).getD "" ++
    "': BUILD file not found on package path"

/-- The targets a word names, in a universe only those of its packages. -/
def pattern (word : String) : Except String Targets := do
  if let (some _,some dir) := (e.universeTargets,treeOf word) then
    if ¬ e.scopeTrees.any (isBelow dir) then throw ("no targets found beneath '" ++ dir ++ "'")
  let labels ← if e.options.keepGoing then
      let found := e.graph.patternLenient word
      match found.error with
      | some error => if found.labels = [] ∧ ¬ found.said then throw error else pure found.labels
      | none => pure found.labels
    else e.graph.pattern word
  if e.universeTargets.isNone ∨ labels = [] then return .ofList labels
  let inside := labels.filter fun l => e.universePackages.contains (l.repo,l.package)
  if inside ≠ [] then return .ofList inside
  throw (outsideError word labels)

/-- Over the closure of the patterns rather than over everything; a pattern that
does not load is left out of it. -/
def withUniverse (fuel : ℕ) (patterns : List String) : Result Evaluator := do
  let roots := patterns.foldl
    (fun roots p => roots.insertMany ((e.graph.pattern p).toOption.getD [])) ∅
  let closure ← deps e fuel roots none
  return { e with
    universeTargets := some closure
    universePackages := .ofList (closure.toList.map fun l => (l.repo,l.package)) _
    scopeTrees := patterns.filterMap treeOf }

end Universe

section Calls
variable (e : Evaluator) (chars : CharClass) (fuel : ℕ)
  (regex : String → Except String (String → Bool)) (suiteTests : Label → Option (List Label))

/-- The arguments of a call as they were evaluated, `none` where one is no
expression. -/
abbrev Values := List (Option (Result Targets))

def exprArg (function : Function) (values : Values) (i : ℕ) : Result Targets :=
  match values[i]? with
  | some (some value) => value
  | _ => .error (.error (function.name ++ ": argument " ++ toString i ++ " is not an expression"))

def wordArg (args : List Arg) (i : ℕ) : String :=
  match args[i]? with
  | some (.word w) => w
  | _ => ""

/-- A 64-bit integer as a count. -/
def asUsize (n : ℤ) : ℕ := (n % 2^64).toNat

def depthArg (args : List Arg) (i : ℕ) : Option ℕ :=
  match args[i]? with
  | some (.int n) => some (asUsize n)
  | _ => none

def compile (function pattern : String) : Result (String → Bool) :=
  said ((regex pattern).mapError fun line =>
    "illegal '" ++ function ++ "' pattern regexp '" ++ pattern ++ "': " ++ line)

def union (a b : Targets) : Targets := a ∪ b

/-- What each target of a set gives, together. -/
def collect (f : Label → Result (List Label)) (input : Targets) : Result Targets :=
  input.toList.foldlM (fun out label => return out.insertMany (← f label)) ∅

def keepIf (p : Label → Result Bool) (input : Targets) : Result Targets :=
  collect (fun label => return if ← p label then [label] else []) input

def loadNode (label : Label) : Result Node := said (e.graph.node label)

def testsOf (label : Label) : Result (List Label) := do
  let node ← loadNode e label
  match node.kind with
  | .rule ruleClass test _ =>
    if ruleClass = "test_suite" then return (suiteTests label).getD []
    else return if test then [label] else []
  | _ => return []

def pathOf (label : Label) : String :=
  if label.package = "" then label.name else label.package ++ "/" ++ label.name

/-- The first label of each package. -/
def packagesOf (labels : List Label) : List Label :=
  (labels.foldl (fun firsts label =>
    if firsts.any fun l => l.repo = label.repo ∧ l.package = label.package then firsts
    else firsts ++ [label]) [])

/-- The BUILD files of the universe that read one of the paths. -/
def rbuildfiles (paths : List String) : Result Targets :=
  (packagesOf ((e.universeTargets.getD ∅).toList)).foldlM (fun out label => do
    let files ← said (e.graph.buildFiles label)
    if files.any fun f => paths.contains (pathOf f) then
      return out.insertMany (files.filter fun f =>
        f.repo = label.repo ∧ f.package = label.package ∧ f.name.startsWith "BUILD")
    else return out) ∅

def actionFilterError (function : Function) (args : List Arg) : String :=
  "Evaluation of query \"" ++ function.name ++ "('" ++ wordArg args 0 ++ "')\" failed: aquery " ++
    "filter functions (inputs, outputs, mnemonics) must have exactly 2 arguments,except when " ++
    "--skyframe_state is used."

def unknownConfiguration (name : String) : String :=
  "Evaluation failed: Unknown configuration ID '" ++ name ++ "'.\nconfig()'s second argument must " ++
    "identify a unique configuration.\n\nValid values:\n 'target' for the default configuration\n " ++
    "'null' for source files (which have no configuration)\n an arbitrary configuration's full or " ++
    "short ID\n\nA short ID is any prefix of a full ID. cquery shows short IDs. 'bazel config' " ++
    "shows full IDs.\n\nFor more help, see https://bazel.build/docs/cquery."

def noTargetIn (args : List Arg) (name : String) : String :=
  let written := match args.head? with
    | some (.expr written) => written.canonical chars
    | _ => ""
  let place := if name = "target" ∨ name = "null" then "the '" ++ name ++ "' configuration"
    else "the configuration with checksum '" ++ name ++ "'"
  "Evaluation failed: No target (in) " ++ written ++ " could be found in " ++ place

def configured (args : List Arg) (values : Values) : Result Targets := do
  let name := wordArg args 1
  if name = "host" then throw (.error ("Evaluation failed: 'host' configuration no longer exists. " ++
    "Use a specific configuration hash instead"))
  if ¬ e.graph.isConfiguration name then throw (.error (unknownConfiguration name))
  let input ← exprArg .config values 0
  let out := input.filter fun l => e.graph.inConfiguration l name
  if out.isEmpty then throw (.error (noTargetIn chars args name))
  return out

/-- An attribute that `attr` may match: one that is set and has a public name. -/
def attrMatches (name : String) (matched : String → Bool) (attr : NodeAttr) : Bool :=
  attr.name = name && !attr.unset && !attr.name.startsWith "_" && !attr.name.startsWith "$" &&
    matched attr.text

def call (function : Function) (args : List Arg) (values : Values) : Result Targets :=
  match function with
  | .deps => do
    let roots ← exprArg .deps values 0
    let parts := e.withinUniverse roots
    let out ← depsIn e fuel parts.1 (depthArg args 1) (some ((Expr.call .deps args).display chars))
    return union out parts.2
  | .rDeps => do
    let within ← exprArg .rDeps values 0
    let targets ← exprArg .rDeps values 1
    rdeps e fuel (e.withinUniverse within).1 targets (depthArg args 2)
  | .allRDeps => do
    let targets ← exprArg .allRDeps values 0
    let parts := e.withinUniverse targets
    let out ← reverseClosure e fuel (e.universeTargets.getD ∅) parts.1 (depthArg args 1)
    return union out parts.2
  | .rBuildFiles => rbuildfiles e ((List.range args.length).map (wordArg args))
  | .somePath => do
    let start ← exprArg .somePath values 0
    let goal ← exprArg .somePath values 1
    let both := e.bothWithinUniverse start goal
    somePath e fuel both.1 both.2
  | .allPaths => do
    let start ← exprArg .allPaths values 0
    let goal ← exprArg .allPaths values 1
    let both := e.bothWithinUniverse start goal
    let reach ← deps e fuel both.1 none
    let back ← rdeps e fuel reach both.2 none
    return reach.filter (back.contains ·)
  | .inputs | .mnemonic | .outputs =>
    if args.length ≠ 2 then .error (.error (actionFilterError function args))
    else exprArg function values 1
  | .config => configured e chars args values
  | .kind => do
    let matched ← compile regex "kind" (wordArg args 0)
    keepIf (fun label => return matched (← loadNode e label).kind.description)
      (← exprArg .kind values 1)
  | .filter => do
    let matched ← compile regex "filter" (wordArg args 0)
    return (← exprArg .filter values 1).filter fun l => matched (e.graph.display l)
  | .attr => do
    let matched ← compile regex "attr" (wordArg args 1)
    keepIf (fun label => do
      let node ← loadNode e label
      match node.kind with
      | .rule .. => return node.attrs.any (attrMatches (wordArg args 0) matched)
      | _ => return false) (← exprArg .attr values 2)
  | .labels => do
    collect (fun label => do
      let node ← loadNode e label
      return ((node.attrs.find? fun a => a.name = wordArg args 0).map NodeAttr.labels).getD [])
      (← exprArg .labels values 1)
  | .tests => do collect (testsOf e suiteTests) (← exprArg .tests values 0)
  | .some => do
    let input ← exprArg .some values 0
    match input.toList with
    | first::_ => return ({} : Targets).insert first
    | [] => throw (.error "argument set is empty")
  | .siblings => do
    collect (fun label => said (e.graph.siblings label)) (← exprArg .siblings values 0)
  | .samePkgDirectRDeps => do
    collect (fun label => do
      (← said (e.graph.siblings label)).filterM fun sibling => do
        return (e.edges (← loadNode e sibling)).any fun edge => edge.target = label)
      (← exprArg .samePkgDirectRDeps values 0)
  | .buildFiles => do
    collect (fun label => said (e.graph.buildFiles label)) (← exprArg .buildFiles values 0)
  | .loadFiles => do
    collect (fun label => said (e.graph.loadFiles label)) (← exprArg .loadFiles values 0)
  | .executables => do
    keepIf (fun label => do
      match (← loadNode e label).kind with
      | .rule _ _ executable => return executable
      | _ => return false) (← exprArg .executables values 0)
  | .visible => do
    let preds ← exprArg .visible values 0
    let input ← exprArg .visible values 1
    keepIf (fun label => preds.toList.allM fun pred => said (e.graph.visible pred label)) input

abbrev Env := List (String × Targets)

def subqueryFailed (text error : String) : String :=
  "Evaluation of subquery \"" ++ text ++ "\" failed (did you want to use --keep_going?): " ++ error

def evalWord (word : String) : Result Targets :=
  match e.pattern word with
  | .ok labels => .ok labels
  | .error error =>
    if e.options.keepGoing then .ok ∅
    else if e.universeTargets.isSome then .error (.error (subqueryFailed word error))
    else .error (.error error)

def evalSet (words : List String) : Result Targets :=
  words.foldlM (fun out word => return union out (← said ((e.pattern word).mapError fun error =>
    if e.universeTargets.isSome then subqueryFailed word error else error))) ∅

def evalOp (left right : Targets) : Op → Targets
  | .union => union left right
  | .intersect => left.filter (right.contains ·)
  | .except => left.filter fun l => !right.contains l

mutual

/-- Both sides of an operator are evaluated, and when both fail it is the right
one that is reported. -/
def evalIn (env : Env) : Expr → Result Targets
  | .word w => evalWord e w
  | .variable name =>
    match env.find? fun entry => entry.1 = name with
    | some entry => .ok entry.2
    | none => .error (.error (subqueryFailed ("$" ++ name) ("undefined variable '" ++ name ++ "'")))
  | .set words => evalSet e words
  | .binary op l r => do
    let right ← evalIn env r
    let left ← evalIn env l
    return evalOp left right op
  | .letIn name value body => do
    let bound ← evalIn env value
    evalIn ((name,bound)::env) body
  | .call function args => call e chars fuel regex suiteTests function args (argValues env args)

def argValues (env : Env) : List Arg → Values
  | [] => []
  | .expr arg::args => some (evalIn env arg)::argValues env args
  | _::args => none::argValues env args

end

/-- A universe query that is one pattern fails on the query, not on a subquery of
it. -/
def eval (written : Expr) : Result Targets :=
  match written, evalIn e chars fuel regex suiteTests [] written with
  | .word word, .error (.error text) =>
    let subquery := (subqueryFailed word "").toList
    if e.universeTargets.isSome ∧ subquery.isPrefixOf text.toList then
      .error (.error ("Evaluation of query \"" ++ word ++ "\" failed: " ++
        .ofList (text.toList.drop subquery.length)))
    else .error (.error text)
  | _, out => out

end Calls

end Evaluator

end BuildFiji.Query
