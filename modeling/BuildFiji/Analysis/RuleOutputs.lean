import BuildFiji.Graph.Rule
import BuildFiji.Lib.SortedAssoc
import BuildFiji.Starlark.Actions

/-!
# The outputs of a rule, loaded and analysed

Loading adds a generated file for every output that a rule sets, for every file
that the templates of its class expand to and for every one that its function
names. Analysis makes a list of outputs of its own, keeps one for each key, and
names them again by their paths; a generated file is looked up there.
-/

set_option autoImplicit false
set_option linter.all false

namespace BuildFiji.Outputs

open BuildFiji.Graph BuildFiji.Starlark.Actions

/-- A call of a rule in a BUILD file. What the function of `rule(outputs = f)`
gave is an event or the files it names. -/
structure RuleCall where
  label : Label
  location : String
  schema : RuleSchema
  attrs : List (String × Written)
  outputsFunction : Option (Except String (List String))

/-- `to_string()` -/
def display (label : Label) : String :=
  if label.repo = "" then "//" ++ label.package ++ ":" ++ label.name
  else "@" ++ label.repo ++ "//" ++ label.package ++ ":" ++ label.name

section Template

inductive TemplateError where
  | placeholder
  | type (attr ty : String)
  deriving DecidableEq

inductive Piece where
  | text (c : Char)
  | placeholder (key : List Char)
  deriving DecidableEq

/-- From left to right, inside a placeholder with what was read of its key. -/
def pieces : Option (List Char) → List Char → List Piece
  | none, [] => []
  | none, '%':: '\x7b'::rest => pieces (some []) rest
  | none, c::rest => .text c :: pieces none rest
  | some key, [] => ('%':: '\x7b'::key).map .text
  | some key, '\x7d'::rest => .placeholder key :: pieces none rest
  | some key, c::rest => pieces (some (key ++ [c])) rest

/-- `&name[..]` up to the last dot of the base name, if that does not begin it. -/
def withoutExtension (name : List Char) : List Char :=
  let base := lastPart name
  let extension := base.reverse.takeWhile (· ≠ '.')
  if extension.length+1 < base.length then name.take (name.length-(extension.length+1)) else name

variable (call : RuleCall)

def RuleCall.valueOf (attr : SchemaAttr) : Option Written :=
  Graph.valueOf call.attrs attr.name <|> attr.defaultValue.map .plain

def placeholderValues (attr : SchemaAttr) : Except TemplateError (List (List Char)) :=
  if attr.name = "visibility" then throw (.type attr.name attr.ty.name)
  else
    match call.valueOf attr,attr.ty with
    | some (.plain (.string s)),_ => return [s.toList]
    | none,.string => return [[]]
    | some (.plain (.label l)),_ => return [withoutExtension l.name.toList]
    | some (.plain (.stringList items)),_ => return items.map String.toList
    | some (.plain (.labelList items)),_ => return items.map fun l => withoutExtension l.name.toList
    | _,ty => throw (.type attr.name (if ty = .bool then "boolean" else ty.name))

def pieceValues : Piece → Except TemplateError (List (List Char))
  | .text c => return [[c]]
  | .placeholder key =>
    if key = "name".toList then return [call.label.name.toList]
    else
      match call.schema.attr (.ofList key) with
      | some attr => if key = [] then throw .placeholder else placeholderValues call attr
      | none => throw .placeholder

def pushPieces (outs values : List (List Char)) : List (List Char) :=
  outs.flatMap fun out => values.map fun value => out ++ value

def pushPiece (outs : List (List Char)) (piece : Piece) : Except TemplateError (List (List Char)) := do
  return pushPieces outs (← pieceValues call piece)

def expandTemplate (template : String) : Except TemplateError (List String) := do
  let outs ← (pieces none template.toList).foldlM (pushPiece call) [[]]
  return outs.map String.ofList

end Template

section Load

inductive TargetKind where
  | rule (name : String)
  | sourceFile
  | packageGroup
  | environmentGroup
  | generatedFile (maker : String)

structure Target where
  name : String
  kind : TargetKind
  location : String

def TargetKind.describe : TargetKind → String
  | rule name => name ++ " rule"
  | sourceFile => "source file"
  | packageGroup => "package group"
  | environmentGroup => "environment group"
  | generatedFile maker => "generated file from rule '" ++ maker ++ "'"

inductive OutputError where
  | illegalOutputName (name rule : String) (source : LabelError)
  | duplicateOutput (rule name : String)
  | conflict (name rule existing location : String)

def OutputError.message : OutputError → String
  | illegalOutputName name rule source => "illegal output file name '" ++ name ++ "' in rule " ++
      rule ++ " due to: invalid target name '" ++ name ++ "': " ++ source.message
  | duplicateOutput rule name => "rule '" ++ rule ++ "' has more than one generated file named '" ++
      name ++ "'"
  | conflict name rule existing location => "generated file '" ++ name ++ "' in rule '" ++ rule ++
      "' conflicts with existing " ++ existing ++ ", defined at " ++ location

/-- The targets of the package, and the generated file with them: none for one
that has the name of its rule. -/
def addGeneratedFile (call : RuleCall) (targets : List Target) (name : String) :
    Except OutputError (List Target) := do
  (validateTargetName name.toList).mapError
    (OutputError.illegalOutputName name (display call.label))
  if name = call.label.name then return targets
  match targets.reverse.find? fun t => t.name == name with
  | some ⟨_,.generatedFile rule,location⟩ =>
    if rule = call.label.name then throw (.duplicateOutput rule name)
    else throw (.conflict name call.label.name (TargetKind.generatedFile rule).describe location)
  | some existing => throw (.conflict name call.label.name existing.kind.describe existing.location)
  | none => return targets ++ [⟨name,.generatedFile call.label.name,call.location⟩]

/-- What a package in which something is wrong goes on with, or does not. -/
structure Loading where
  targets : List Target
  events : List String

def addMade (call : RuleCall) (s : Loading) (name : String) : Except OutputError Loading :=
  match addGeneratedFile call s.targets name with
  | .ok targets => return { s with targets := targets }
  | .error (.illegalOutputName name rule source) =>
    return { s with events := s.events ++ [(OutputError.illegalOutputName name rule source).message] }
  | .error e => throw e

def madeByAttr (call : RuleCall) (attr : SchemaAttr) : List String :=
  match attr.ty,Graph.valueOf call.attrs attr.name with
  | .output,some (.plain (.label l)) => [l.name]
  | .outputList,some (.plain (.labelList ls)) => ls.map Label.name
  | _,_ => []

def templateEvent (call : RuleCall) (key : String) : TemplateError → String
  | .placeholder => "In rule " ++ display call.label ++ ": For attribute '" ++ key ++
      "' in outputs: Invalid placeholder(s) in template"
  | .type attr ty => "In rule " ++ display call.label ++ ": For attribute '" ++ attr ++
      "' in outputs: Attributes of type " ++ ty ++ " cannot be used in an outputs substitution template"

/-- The files and the events of one of the ways to make them. -/
def outcome {ε : Type} (event : ε → String) : Except ε (List String) → List String × List String
  | .ok files => (files,[])
  | .error e => ([],[event e])

def madeByTemplates (call : RuleCall) : List (List String × List String) :=
  call.schema.outputs.map fun e => outcome (templateEvent call e.1) (expandTemplate call e.2)

def madeByFunction (call : RuleCall) : List (List String × List String) :=
  call.outputsFunction.toList.map (outcome id)

def made (call : RuleCall) : List String :=
  call.schema.attrs.flatMap (madeByAttr call) ++
    (madeByTemplates call ++ madeByFunction call).flatMap (·.1)

def firstRepeat : List String → List String → Option String
  | _, [] => none
  | before, file::rest => if file ∈ before then some file else firstRepeat (before ++ [file]) rest

/-- The files that the rule creates, in a package of these targets. -/
def instantiate (call : RuleCall) (targets : List Target) : Except OutputError Loading := do
  if let some file := firstRepeat [] (made call) then
    throw (.duplicateOutput call.label.name file)
  (made call).foldlM (addMade call)
    ⟨targets,(madeByTemplates call ++ madeByFunction call).flatMap (·.2)⟩

end Load

section Analyse

/-- `template.replace("%{name}", name)` -/
def replaceName (name : List Char) : List Char → List Char
  | '%':: '\x7b':: 'n':: 'a':: 'm':: 'e':: '\x7d'::rest => name ++ replaceName name rest
  | c::rest => c :: replaceName name rest
  | [] => []

def outputsOfAttr (schema : RuleSchema) (e : String × AttrValue) : List (String × String) :=
  match (schema.attr e.1).map SchemaAttr.ty,e.2 with
  | some .output,.label out => [(e.1,out.name)]
  | some .outputList,.labelList outs => outs.map fun out => (e.1,out.name)
  | _,_ => []

/-- The outputs the class declares, by key. -/
def declaredOutputs (schema : RuleSchema) (set : Attrs) (name : String) : List (String × String) :=
  (schema.outputs.map fun e => (e.1,.ofList (replaceName name.toList e.2.toList))) ++
    (resolvedAttrs schema set).flatMap (outputsOfAttr schema)

/-- `path.strip_prefix(dir).unwrap_or(path)` -/
def stripDir (dir path : List Char) : List Char :=
  if dir.isPrefixOf path then path.drop dir.length else path

/-- The name in the package that the file has from its path. -/
def shown (package : String) (file : Artifact) : String :=
  .ofList (stripDir (package ++ "/").toList file.path.toList)

structure ConfiguredTarget where
  outputs : List (String × Artifact)
  incompatible : Bool
  actions : List Action

/-- What the analysis of a target needs beside the target: the branches that the
configuration chooses, whether its platform lacks what the target asks for, the
defaults that are computed, and what the code of the rule does. -/
structure Env (ε : Type) where
  choose : String → Selector → Except ε (Option AttrValue)
  differentBranches : String → ε
  unsatisfied : Attrs → Bool
  computedDefaults : Attrs → Except ε Attrs
  ctx : CtxState
  calls : List Call
  failed : ActionError → ε

def Env.ctxFor {ε : Type} (env : Env ε) (label : Label) : CtxState := { env.ctx with label := label }

def withComputed (set computed : Attrs) : Attrs :=
  computed.foldl (fun set e => if set.any fun o => o.1 == e.1 then set else set ++ [e]) set

variable {ε : Type} (env : Env ε) (call : RuleCall)

/-- The attributes the analysis of the target sees. -/
def analysedAttrs : Except ε Attrs := do
  let set ← resolve env.choose env.differentBranches call.attrs
  return withComputed set (← env.computedDefaults set)

def analyse : Except ε ConfiguredTarget := do
  let declared ← resolve env.choose env.differentBranches call.attrs
  if env.unsatisfied declared then return ⟨[],true,[]⟩
  let set ← analysedAttrs env call
  let outputs := declaredOutputs call.schema set call.label.name
  let ctx := env.ctxFor call.label
  let actions ← (execute ctx (outputs.map (·.2)) env.calls).mapError env.failed
  let files := SortedAssoc.collect (outputs.map fun e => (e.1,ctx.derived e.2))
  return ⟨SortedAssoc.collect (files.map fun e => (shown call.label.package e.2,e.2)),false,actions⟩

/-- A generated file of the rule in the same configuration. -/
def analyseGenerated (rule : String) (target : ConfiguredTarget) (name : String) :
    Except String Artifact :=
  match SortedAssoc.find name target.outputs with
  | some artifact => .ok artifact
  | none => .error ("rule '" ++ rule ++ "' does not create '" ++ name ++ "'")

end Analyse

end BuildFiji.Outputs
