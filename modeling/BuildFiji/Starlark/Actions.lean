import BuildFiji.Graph.Configuration
import BuildFiji.Graph.Paths
import BuildFiji.Lib.FirstOccurrence
import BuildFiji.Lib.SortDedup
import BuildFiji.Lib.Text
import BuildFiji.Starlark.Args
import Mathlib

/-!
# What a rule's code registers

The calls of `ctx.actions` that declare files and register actions. A file is
one that the rule was given, a predeclared output of it, or one that it declared,
on its own or next to another. When the code has run, every file it declared has
an action that makes it.
-/

set_option autoImplicit false
set_option linter.all false

namespace BuildFiji.Starlark.Actions

open BuildFiji.Graph Lexical
open Graph.Configuration (utf8)

structure CtxState where
  label : Label
  /-- Of the configuration. -/
  mnemonic : String
  /-- The groups of the rule, none for what an aspect registers. -/
  execGroups : Option (List String)
  defaultShellEnv : StringMap
  executableRunfiles : Artifact → Option Artifact

def StringMap.put (m : StringMap) (e : String × String) : StringMap :=
  ⟨SortedAssoc.put e.1 e.2 m.entries,m.sorted.put e.1 e.2⟩

def StringMap.extend (m : StringMap) (entries : List (String × String)) : StringMap :=
  entries.foldl StringMap.put m

inductive ActionError where
  | notUnderPackage (filename package target : String)
  | outputsEmpty
  | noExecGroup (name : String)
  | symlinkTarget
  | noGeneratingAction (paths : List String)
deriving DecidableEq

def ActionError.message : ActionError → String
  | notUnderPackage filename package target => "the output artifact '" ++ filename ++
      "' is not under package directory '" ++ package ++ "' for target '" ++ target ++ "'"
  | outputsEmpty => "param 'outputs' may not be empty"
  | noExecGroup name => "Action declared for non-existent exec group '" ++ name ++ "'."
  | symlinkTarget => "Exactly one of \"target_file\" or \"target_path\" is required"
  | noGeneratingAction paths => "The following files have no generating action:\n" ++
      "\n".intercalate paths

section Declare

def foldPart (parts : List (List Char)) (part : List Char) : List (List Char) :=
  if part = [] ∨ part = ['.'] then parts
  else if part = ['.','.'] ∧ parts.getLast? ≠ none ∧ parts.getLast? ≠ some ['.','.'] then
    parts.dropLast
  else parts ++ [part]

/-- With its `.` and `a/..` parts folded away. -/
def normalized (path : String) : String :=
  .ofList (['/'].intercalate ((splitOn '/' path.toList).foldl foldPart []))

inductive Declare where
  | file
  | symlink
  | directory
  deriving DecidableEq

/-- A directory's name is taken as it is. -/
def Declare.name : Declare → String → String
  | .directory,filename => filename
  | _,filename => normalized filename

def Declare.mark (function : Declare) (a : Artifact) : Artifact :=
  { a with tree := function == .directory, symlink := function == .symlink }

namespace CtxState

variable (ctx : CtxState)

def binDir : String := "bazel-out/" ++ ctx.mnemonic ++ "/bin"

/-- `path.strip_prefix(bin).unwrap_or(path)` -/
def inBinDir (path : String) : String :=
  if (ctx.binDir ++ "/").toList.isPrefixOf path.toList then
    .ofList (path.toList.drop (ctx.binDir.length+1))
  else path

def derived (name : String) : Artifact :=
  .derived ctx.binDir ctx.label.repo ctx.label.package name

end CtxState

def derivedNextTo (sibling : Artifact) (name : String) : Artifact :=
  ⟨sibling.root,.ofList (nextTo sibling.path.toList name.toList),false,false⟩

/-- A file of the rule, by where it has it from. -/
inductive Held where
  | given (file : Artifact) (rooted : Rooted file.root)
  | output (name : String)
  | declared (function : Declare) (filename : String)
  | nextTo (function : Declare) (filename : String) (sibling : Held)

def Held.artifact (ctx : CtxState) : Held → Artifact
  | .given file _ => file
  | .output name => ctx.derived name
  | .declared function filename => function.mark (ctx.derived (function.name filename))
  | .nextTo function filename sibling =>
    function.mark (derivedNextTo (sibling.artifact ctx) filename)

end Declare

inductive Content where
  | text (content : String)
  | args (args : ArgsState)

inductive Argument where
  | text (word : String)
  | file (file : Artifact)
  | args (args : ArgsState)

/-- What `run_shell` or `run` runs. -/
inductive Executable where
  | command (command : String)
  | file (file : Artifact)
  | filesToRun (executable : Artifact) (rest : List Artifact)
  | path (path : String)

structure Spawn where
  outputs : List Held
  inputs : List Artifact
  tools : List Artifact
  arguments : List Argument
  mnemonic : Option String
  useDefaultShellEnv : Bool
  env : StringMap
  executionRequirements : StringMap
  execGroup : Option String
  executable : Executable

inductive Call where
  | declare (function : Declare) (filename : String) (sibling : Option Held)
  | write (output : Held) (content : Content) (isExecutable : Bool) (mnemonic : Option String)
  | run (spawn : Spawn)
  | symlink (output : Held) (targetFile : Option Artifact) (targetPath : Option String)
      (isExecutable : Bool)
  | expandTemplate (template : Artifact) (output : Held) (substitutions : StringMap)
      (computed : List (String × String)) (isExecutable : Bool)

structure Analysis where
  declared : List String
  actions : List Action

namespace Analysis

def register (s : Analysis) (mnemonic : String) (kind : ActionKind) (inputs outputs : List Artifact) :
    Analysis :=
  { s with actions := s.actions ++ [⟨mnemonic,kind,inputs,outputs⟩] }

def declare (ctx : CtxState) (s : Analysis) (function : Declare) (filename : String)
    (sibling : Option Held) : Except ActionError Analysis :=
  match sibling with
  | some sibling =>
    .ok { s with declared := s.declared ++ [((Held.nextTo function filename sibling).artifact ctx).execPath] }
  | none =>
    if function ≠ .directory ∧ filename.toList.head? = some '/' then
      .error (.notUnderPackage filename ctx.label.package (labelText ctx.label))
    else
      .ok { s with declared := s.declared ++ [((Held.declared function filename).artifact ctx).execPath] }

end Analysis

section Write

def Content.kind (isExecutable : Bool) : Content → ActionKind
  | .text content => .writeFile (utf8 content) isExecutable
  | .args a => a.fileKind (a.format.getD .shell) isExecutable

def Content.inputs : Content → List Artifact
  | .text _ => []
  | .args a => a.trees

end Write

section Spawn

def shell : String := "/bin/bash"

def paramFileLimit : ℕ := 31744

def wordSize (word : String) : ℕ := word.utf8ByteSize+1

def Argument.size : Argument → ℕ
  | .text word => wordSize word
  | .file input => wordSize input.execPath
  | .args a => (a.words.1.map wordSize).sum

def Executable.size : Executable → ℕ
  | .command script => wordSize shell+wordSize "-c"+wordSize script+1
  | .file tool => wordSize tool.execPath
  | .filesToRun tool _ => wordSize tool.execPath
  | .path tool => wordSize tool

def Spawn.tooLong (c : Spawn) : Bool :=
  paramFileLimit < c.executable.size+(c.arguments.map Argument.size).sum

/-- The parameter file of that number next to the first output. -/
def paramFile (first : Artifact) (n : ℕ) : Artifact :=
  derivedNextTo first
    (.ofList (lastPart first.path.toList ++ '-'::(Nat.toDigits 10 n ++ ".params".toList)))

/-- `pattern.replacen("%s", path, 1)` -/
def paramArgument (pattern path : String) : String :=
  match Text.splitOnce ['%','s'] pattern.toList with
  | some parts => .ofList (parts.1 ++ path.toList ++ parts.2)
  | none => pattern

structure Spawning where
  arguments : List String
  lazy : List LazyArg
  paramFiles : ℕ
  inputs : List Artifact
  actions : List Action

def Spawning.inlined (s : Spawning) (a : ArgsState) : Spawning :=
  { s with
    arguments := s.arguments ++ a.words.1
    lazy := s.lazy ++ a.words.2.map fun call => { call with «at» := call.at+s.arguments.length } }

def Spawning.written (s : Spawning) (first : Artifact) (param : ParamFile) (a : ArgsState) : Spawning :=
  let file := paramFile first s.paramFiles
  { s with
    arguments := s.arguments ++ [paramArgument param.pattern file.execPath]
    paramFiles := s.paramFiles+1
    inputs := s.inputs ++ [file]
    actions := s.actions ++
      [⟨"ParameterFileWrite",a.fileKind param.format false,a.trees,[file]⟩] }

def Spawning.add (first : Artifact) (tooLong : Bool) (s : Spawning) : Argument → Spawning
  | .text word => { s with arguments := s.arguments ++ [word] }
  | .file file => { s with arguments := s.arguments ++ [file.execPath] }
  | .args a =>
    match a.paramFile with
    | some param => if param.useAlways || tooLong then s.written first param a else s.inlined a
    | none => s.inlined a

def shifted (n : ℕ) (lazy : List LazyArg) : List LazyArg :=
  lazy.map fun call => { call with «at» := call.at+n }

def Executable.argv (executable : Executable) (arguments : List String) : List String :=
  match executable with
  | .command script =>
    [shell,"-c",script] ++ if arguments = [] then [] else "" :: arguments
  | .file tool => tool.execPath :: arguments
  | .filesToRun tool _ => tool.execPath :: arguments
  | .path tool => tool :: arguments

def Executable.lazy (executable : Executable) (arguments : List String) (lazy : List LazyArg) :
    List LazyArg :=
  match executable with
  | .command _ => if arguments = [] then lazy else shifted 4 lazy
  | _ => shifted 1 lazy

def Executable.tool (ctx : CtxState) : Executable → List Artifact
  | .command _ => []
  | .file tool => tool :: (ctx.executableRunfiles tool).toList
  | .filesToRun tool rest => tool :: rest
  | .path _ => []

def Spawn.made (c : Spawn) (first : Artifact) : Spawning :=
  c.arguments.foldl (Spawning.add first c.tooLong) ⟨[],[],0,c.inputs ++ c.tools,[]⟩

def Spawn.action (ctx : CtxState) (c : Spawn) (s : Spawning) : Action where
  mnemonic := c.mnemonic.getD "Action"
  kind := .spawn (c.executable.argv s.arguments)
    (StringMap.extend (if c.useDefaultShellEnv then ctx.defaultShellEnv else .empty) c.env.entries)
    c.executionRequirements (c.executable.lazy s.arguments s.lazy)
  inputs := s.inputs ++ c.executable.tool ctx
  outputs := c.outputs.map (Held.artifact ctx)

def spawn (ctx : CtxState) (s : Analysis) (c : Spawn) : Except ActionError Analysis :=
  match c.execGroup.filter fun name => ctx.execGroups.any fun groups => ¬groups.contains name with
  | some name => .error (.noExecGroup name)
  | none =>
    match c.outputs with
    | [] => .error .outputsEmpty
    | first::_ =>
      let made := c.made (first.artifact ctx)
      .ok { s with actions := s.actions ++ (made.actions ++ [c.action ctx made]) }

end Spawn

namespace Analysis

def call (ctx : CtxState) (s : Analysis) : Call → Except ActionError Analysis
  | .declare function filename sibling => s.declare ctx function filename sibling
  | .write output content isExecutable mnemonic =>
    .ok (s.register (mnemonic.getD "FileWrite") (content.kind isExecutable) content.inputs
      [output.artifact ctx])
  | .run c => spawn ctx s c
  | .symlink output (some target) none isExecutable =>
    .ok (s.register (if isExecutable then "ExecutableSymlink" else "Symlink")
      (.symlink target.execPath) [target] [output.artifact ctx])
  | .symlink output none (some path) _ =>
    .ok (s.register "UnresolvedSymlink" (.unresolvedSymlink path) [] [output.artifact ctx])
  | .symlink .. => .error .symlinkTarget
  | .expandTemplate template output substitutions computed isExecutable =>
    .ok (s.register "TemplateExpand"
      (.template template.execPath (StringMap.extend substitutions computed).entries isExecutable)
      [template] [output.artifact ctx])

end Analysis

/-- The actions without the repeats. -/
def distinctActions (actions : List Action) : List Action := FirstOccurrence.addAll [] actions

/-- The code of a rule with these predeclared outputs, as the calls it makes. -/
def execute (ctx : CtxState) (outputs : List String) (calls : List Call) :
    Except ActionError (List Action) := do
  let s ← calls.foldlM (Analysis.call ctx) ⟨outputs.map fun name => (ctx.derived name).execPath,[]⟩
  let made := s.actions.flatMap fun a => a.outputs.map Artifact.execPath
  let missing := s.declared.filter fun path => ¬made.contains path
  if missing = [] then return distinctActions s.actions
  else throw (.noGeneratingAction
    (((SortDedup.sortDedup missing).map ctx.inBinDir).insertionSort (· ≤ ·)))

end BuildFiji.Starlark.Actions
