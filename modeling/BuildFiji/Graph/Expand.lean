import BuildFiji.Graph.Action
import BuildFiji.Graph.Label
import BuildFiji.Graph.Paths

/-!
# Make variables and locations

A command may refer to a variable as `$(NAME)` and to the files of a prerequisite as
`$(location label)`. There are two readers of such a text: that of a rule's attribute,
which knows the rule, and that of `ctx.expand_make_variables`, which is given a lookup.
-/

set_option autoImplicit false
set_option linter.all false

namespace BuildFiji.Graph

open BuildFiji.Text (isWhitespace)

/-- `split_once(char::is_whitespace)` -/
def splitWhitespace : List Char → Option (List Char × List Char)
  | [] => none
  | c::cs =>
    if isWhitespace c then some ([],cs)
    else (splitWhitespace cs).map fun parts => (c::parts.1,parts.2)

theorem splitOnce_length {sep : Char} {text first rest : List Char}
    (h : splitOnce sep text = some (first,rest)) : rest.length < text.length := by
  induction text generalizing first with
  | nil => cases h
  | cons c cs ih =>
    rw [splitOnce] at h
    split at h
    · cases h
      exact Nat.lt_succ_self _
    · obtain ⟨parts,hparts,heq⟩ := Option.map_eq_some_iff.mp h
      cases heq
      exact (ih hparts).trans (Nat.lt_succ_self _)

/-- What a reader put out before goes in front of what it puts out later. -/
def emit {ε : Type} (out : List Char) (rest : Except ε (List Char)) : Except ε (List Char) :=
  rest.map (out ++ ·)

section MakeVariables

def notSupported (written name : List Char) : String :=
  "'$" ++ .ofList written ++ "' syntax is not supported; use '$(" ++ .ofList name ++
    ")' instead for \"Make\" variables, or escape the '$' as '$$' if you intended this for the shell"

def notDefined (name : List Char) : String := "$(" ++ .ofList name ++ ") not defined"

variable (lookup : String → Option String)

def expandMakeFrom : List Char → Except String (List Char)
  | [] => .ok []
  | c::rest =>
    if c ≠ '$' then emit [c] (expandMakeFrom rest)
    else
      match rest with
      | [] => .error "unterminated $"
      | next::rest =>
        if next = '$' then emit ['$'] (expandMakeFrom rest)
        else if next = '(' ∨ next = '\x7b' then
          match _h : splitOnce (if next = '(' then ')' else '\x7d') rest with
          | none => .error "unterminated variable reference"
          | some (name,after) =>
            if next = '\x7b' then .error (notSupported ('\x7b' :: (name ++ ['\x7d'])) name)
            else
              match splitWhitespace name with
              | some (function,_) => .error (notDefined function)
              | none =>
                match lookup (.ofList name) with
                | some value => emit value.toList (expandMakeFrom after)
                | none => .error (notDefined name)
        else if ['@','<','^'].contains next then
          match lookup (.ofList [next]) with
          | some value => emit value.toList (expandMakeFrom rest)
          | none => .error (notDefined [next])
        else
          let name := next::rest.takeWhile fun w => w.isAlphanum || w == '_'
          .error (notSupported name name)
termination_by text => text.length
decreasing_by
  all_goals simp only [List.length_cons]
  · omega
  · omega
  · have := splitOnce_length ‹_›
    omega
  · omega

/-- `ctx.expand_make_variables` -/
def expandMakeVariables (text : String) : Except String String :=
  (expandMakeFrom lookup text.toList).map .ofList

end MakeVariables

structure Prerequisite where
  label : Label
  files : List Artifact

structure ExpandError where
  «attribute» : String
  ruleClass : String
  label : String
  reason : String
  deriving DecidableEq

def ExpandError.message (e : ExpandError) : String :=
  "in " ++ e.attribute ++ " attribute of " ++ e.ruleClass ++ " rule " ++ e.label ++ ": " ++ e.reason

/-- What a command may refer to. -/
structure Expander where
  ruleClass : String
  «attribute» : String
  label : Label
  srcs : List Artifact
  outs : List Artifact
  prerequisites : List Prerequisite
  binDir : String
  targetCpu : String
  compilationMode : String
  defines : StringMap
  /-- In the order the attribute lists them: the first to name one wins. -/
  toolchainVariables : List (List (String × String))
  mainRepoName : String
  context : LabelContext

def locationFunctions : List String :=
  ["location","locations","execpath","execpaths","rootpath","rootpaths","rlocationpath",
    "rlocationpaths"]

def withDotSlash (path : String) : String := if path.toList.contains '/' then path else "./" ++ path

def dirname (path : String) : String := .ofList (['/'].intercalate (directory path.toList))

def Artifact.isSource (a : Artifact) : Bool := a.root.source

def withoutPrefix (start text : List Char) : Option (List Char) :=
  if start.isPrefixOf text then some (text.drop start.length) else none

namespace Expander

variable (e : Expander)

def error (reason : String) : ExpandError := ⟨e.attribute,e.ruleClass,labelText e.label,reason⟩

def ruleDir : String :=
  let repo := if e.label.repo = "" then "" else "external/" ++ e.label.repo
  "/".intercalate ([e.binDir,repo,e.label.package].filter (· ≠ ""))

def joined (files : List Artifact) : String := " ".intercalate (files.map Artifact.execPath)

def «variable» (name : String) : Except ExpandError String :=
  match name with
  | "SRCS" => .ok (joined e.srcs)
  | "OUTS" => .ok (joined e.outs)
  | "<" =>
    match e.srcs with
    | [one] => .ok one.execPath
    | [] => .error (e.error "variable '$<' : no input file")
    | _ => .error (e.error "variable '$<' : more than one input file")
  | "@" =>
    match e.outs with
    | [one] => .ok one.execPath
    | _ => .error (e.error "variable '$@' : more than one output file")
  | "@D" =>
    match e.outs with
    | [one] => .ok (dirname one.execPath)
    | _ => .ok e.ruleDir
  | "RULEDIR" => .ok e.ruleDir
  | other =>
    -- A `--define` is read before a toolchain's variable, and that before the
    -- configuration's own.
    match e.defines.entries.lookup other with
    | some value => .ok value
    | none =>
      match e.toolchainVariables.findSome? fun toolchain => toolchain.reverse.lookup other with
      | some value => .ok value
      | none =>
        if other = "GENDIR" ∨ other = "BINDIR" then .ok e.binDir
        else if other = "TARGET_CPU" then .ok e.targetCpu
        else if other = "COMPILATION_MODE" then .ok e.compilationMode
        else .error (e.error (notDefined other.toList))

/-- The external repository a file belongs to, if it does. -/
def repoOf (file : Artifact) : Option (List Char) :=
  let path := if file.isSource then file.root.rootPrefix else file.path
  (withoutPrefix "external/".toList path.toList).map fun rest => (splitOn '/' rest).headD []

/-- The path under the repository's root. -/
def packagePath (file : Artifact) (repo : List Char) : String :=
  if repo = [] then file.path
  else
    match withoutPrefix ("external/".toList ++ repo ++ ['/']) file.path.toList with
    | some path => .ofList path
    | none => file.path

/-- Relative to the runfiles root of the main repository. -/
def rootPath (file : Artifact) : String :=
  match repoOf file with
  | some repo => "../" ++ .ofList repo ++ "/" ++ packagePath file repo
  | none => packagePath file []

def rlocationPath (file : Artifact) : String :=
  match repoOf file with
  | some repo => .ofList repo ++ "/" ++ packagePath file repo
  | none => e.mainRepoName ++ "/" ++ packagePath file []

def pathOf (kind : List Char) (file : Artifact) : String :=
  if kind = "location".toList ∨ kind = "execpath".toList then withDotSlash file.execPath
  else if kind = "rootpath".toList then withDotSlash (rootPath file)
  else e.rlocationPath file

def location (function written : List Char) : Except ExpandError String :=
  match Label.parse (.ofList written) e.context with
  | .error reason =>
    .error (e.error ("invalid label in " ++ .ofList function ++ " expression: " ++ reason.message))
  | .ok label =>
    match e.prerequisites.find? fun p => p.label = label with
    | none =>
      .error (e.error ("label '" ++ labelText label ++ "' in $(" ++ .ofList function ++
        ") expression is not a declared prerequisite of this rule"))
    | some found =>
      if function.getLast? ≠ some 's' ∧ found.files.length ≠ 1 then
        .error (e.error ("label '" ++ labelText label ++ "' in $(" ++ .ofList function ++
          ") expression expands to " ++ toString found.files.length ++
          " files, which is not one; use $(" ++ .ofList function ++ "s) if you want all of them"))
      else
        let kind := (function.reverse.dropWhile (· == 's')).reverse
        .ok (" ".intercalate (found.files.map (e.pathOf kind)))

/-- The function and the label of a call of the location family. -/
def callOf (inner : List Char) : Option (List Char × List Char) :=
  match splitWhitespace inner with
  | some (word,rest) =>
    if locationFunctions.contains (.ofList word) then some (word,rest.dropWhile isWhitespace)
    else none
  | none => none

/-- What is inside `$( )`: a location function or a variable. -/
def reference (inner : List Char) : Except ExpandError String :=
  match callOf inner with
  | some (word,label) => e.location word label
  | none => e.variable (.ofList inner)

def expandFrom : List Char → Except ExpandError (List Char)
  | [] => .ok []
  | c::rest =>
    if c ≠ '$' then emit [c] (expandFrom rest)
    else
      match rest with
      | [] => .error (e.error "unterminated variable reference")
      | next::rest =>
        if next = '$' then emit ['$'] (expandFrom rest)
        else if next = '(' then
          match _h : splitOnce ')' rest with
          | none => .error (e.error "unterminated variable reference")
          | some (inner,after) =>
            match e.reference inner with
            | .ok value => emit value.toList (expandFrom after)
            | .error reason => .error reason
        else
          match e.variable (.ofList [next]) with
          | .ok value => emit value.toList (expandFrom rest)
          | .error reason => .error reason
termination_by text => text.length
decreasing_by
  all_goals simp only [List.length_cons]
  · omega
  · omega
  · have := splitOnce_length ‹_›
    omega
  · omega

def expand (text : String) : Except ExpandError String := (e.expandFrom text.toList).map .ofList

end Expander

end BuildFiji.Graph
