import BuildFiji.Graph.Action
import BuildFiji.Graph.Configuration
import BuildFiji.Graph.LazyWords

/-!
# What the calls of an `Args` put on a command line

The words as they are shown, and the calls among them that wait for a tree. A
parameter file holds the words a line each, quoted as a shell needs them, or a
line for each call.
-/

set_option autoImplicit false
set_option linter.all false

namespace BuildFiji.Starlark

open BuildFiji.Graph
open Graph.Configuration (utf8)

structure ParamFile where
  pattern : String
  useAlways : Bool
  format : ParamFormat

inductive ArgItem where
  | text (word : String)
  | lazy (words : List String) (call : LazyCall) (trees : List Artifact)

structure ArgsState where
  items : List ArgItem
  calls : List ℕ
  paramFile : Option ParamFile
  format : Option ParamFormat

namespace ArgsState

def addItem (made : List String × List LazyArg) : ArgItem → List String × List LazyArg
  | .text word => (made.1 ++ [word],made.2)
  | .lazy words call _ => (made.1 ++ words,made.2 ++ [⟨made.1.length,words.length,call⟩])

def words (a : ArgsState) : List String × List LazyArg := a.items.foldl addItem ([],[])

def trees (a : ArgsState) : List Artifact :=
  a.items.flatMap fun item =>
    match item with
    | .text _ => []
    | .lazy _ _ trees => trees

/-- The items of each call, from where it began to where the next one did. -/
def callItems (items : List ArgItem) : List ℕ → List (List ArgItem)
  | [] => []
  | start::rest => (items.take (rest.headD items.length)).drop start :: callItems items rest

def flagLine : List String → List String
  | [] => []
  | flag::rest =>
    if "--".toList.isPrefixOf flag.toList then
      [if rest = [] then flag else flag ++ "=" ++ " ".intercalate rest]
    else []

def known : ArgItem → Option String
  | .text word => some word
  | .lazy .. => none

/-- None when a call waits for a tree. -/
def flagLines (a : ArgsState) : Option (List String) :=
  ((callItems a.items a.calls).mapM (List.mapM known)).map fun calls => calls.flatMap flagLine

/-- The words of a parameter file of that format, and the calls that wait. -/
def fileWords (a : ArgsState) (format : ParamFormat) : List String × List LazyArg :=
  match format,a.flagLines with
  | .flagPerLine,some lines => (lines,a.words.2)
  | _,_ => a.words

end ArgsState

def shellPlain (c : Char) : Bool :=
  (c.isAlphanum && c.toNat < 0x80) || "-_./:,+@%".toList.contains c

def shellQuote (arg : String) : String :=
  if arg ≠ "" ∧ arg.toList.all shellPlain then arg
  else "'" ++ .ofList (arg.toList.flatMap fun c => if c = '\'' then "'\\''".toList else [c]) ++ "'"

def paramFileContents (items : List String) (format : ParamFormat) : String :=
  .join <| items.map fun item =>
    match format with
    | .shell => shellQuote item ++ "\n"
    | .multiline | .flagPerLine => item ++ "\n"

/-- What writes the words of an `Args`, a file of a known text unless one waits
for a tree. -/
def ArgsState.fileKind (a : ArgsState) (format : ParamFormat) (isExecutable : Bool) : ActionKind :=
  let made := a.fileWords format
  if made.2 = [] then .writeFile (utf8 (paramFileContents made.1 format)) isExecutable
  else .paramFile made.1 made.2 format

example : paramFileContents ["a b","-c"] .shell = "'a b'\n-c\n" := by decide

end BuildFiji.Starlark

/-!
## The calls of an `Args`

What `add`, `add_all` and `add_joined` without a `map_each` put on a command
line. A tree among the values of a call is one word until the action runs.
-/

namespace BuildFiji.Starlark

open BuildFiji.Graph

/-- A tree is declared under an output root, which has a name. -/
structure ArgFile where
  artifact : Artifact
  placed : artifact.tree = true → artifact.execPath ≠ ""

inductive ArgValue where
  | str (text : String)
  | file (file : ArgFile)
  | int (n : ℤ)
  | label (text : String)
  | bool (b : Bool)
  /-- Any other value, with what it lists when it is a sequence or a depset. -/
  | other (type text : String) (items : Option (List ArgValue))

namespace ArgValue

def type : ArgValue → String
  | str _ => "string"
  | file _ => "File"
  | int _ => "int"
  | label _ => "Label"
  | bool _ => "bool"
  | other type _ _ => type

def textOf : ArgValue → Option String
  | str text => some text
  | file f => some f.artifact.execPath
  | int n => some (toString n)
  | label text => some text
  | bool _ => none
  | other .. => none

/-- The `str()` of what has no text of its own, but for a bool. -/
def otherText : ArgValue → String
  | bool b => if b then "true" else "false"
  | other _ text _ => text
  | _ => ""

def argText (v : ArgValue) : String := v.textOf.getD v.otherText

def treeOf : ArgValue → Option Artifact
  | file f => if f.artifact.tree then some f.artifact else none
  | _ => none

def items : ArgValue → Option (List ArgValue)
  | other _ _ items => items
  | _ => none

end ArgValue

def checkFormat (name : String) : Option String → Except String Unit
  | none => .ok ()
  | some pattern =>
    if holes pattern.toList = 1 then .ok ()
    else .error ("Invalid value for parameter \"" ++ name ++ "\": Expected string with a single \"%s\"")

def argName : ArgValue → Except String String
  | .str text => .ok text
  | v => .error ("expected value of type 'string' for arg name, got '" ++ v.type ++ "'")

structure Expanded where
  word : String
  tree : Option Artifact

/-- `Call`: what a call was given and what to do with it. -/
structure ArgCall where
  function : String
  values : ArgValue
  named : Bool
  formatEach : Option String
  uniquify : Bool
  expandDirectories : Bool

namespace ArgCall

/-- A tree waits for the action to run. -/
def expanded (c : ArgCall) (item : ArgValue) : Expanded :=
  match if c.expandDirectories then item.treeOf else none with
  | some dir => ⟨formatted c.formatEach dir.execPath,some dir⟩
  | none => ⟨formatted c.formatEach item.argText,none⟩

def push (c : ArgCall) (out : List Expanded) (item : ArgValue) : List Expanded :=
  let e := c.expanded item
  if !c.uniquify || !out.any fun earlier => earlier.word = e.word then out ++ [e] else out

def expand (c : ArgCall) : Except String (List Expanded) :=
  match c.values.items with
  | some items => .ok (items.foldl c.push [])
  | none => .error <|
    if c.named then
      "in call to " ++ c.function ++ "(), parameter 'values' got value of type '" ++ c.values.type ++
        "', want 'sequence or depset'"
    else
      "expected value of type 'sequence or depset' for values, got '" ++ c.values.type ++ "'"

end ArgCall

/-- The values of a call as the lazy call has them, if one of them is a tree. -/
def lazyItems (items : List Expanded) (formatEach : Option String) : Option (List LazyItem) :=
  if items.any fun e => e.tree.isSome then
    some <| items.map fun e =>
      match e.tree with
      | some dir => .tree dir.execPath formatEach
      | none => .text e.word
  else none

structure Add where
  argNameOrValue : ArgValue
  value : Option ArgValue
  format : Option String

structure AddAll where
  argNameOrValues : ArgValue
  values : Option ArgValue
  formatEach : Option String
  beforeEach : Option String
  omitIfEmpty : Bool := true
  uniquify : Bool := false
  expandDirectories : Bool := true
  terminateWith : Option String

structure AddJoined where
  argNameOrValues : ArgValue
  values : Option ArgValue
  joinWith : String
  formatEach : Option String
  formatJoined : Option String
  omitIfEmpty : Bool := true
  uniquify : Bool := false
  expandDirectories : Bool := true

inductive ArgsCall where
  | add (c : Add)
  | addAll (c : AddAll)
  | addJoined (c : AddJoined)

/-- One value, which is not a collection. -/
def single (value : ArgValue) : Except String String :=
  if value.treeOf.isSome then
    .error "Cannot add directories to Args#add since they may expand to multiple values. Either use Args#add_all (if you want expansion) or args.add(directory.path) (if you do not)."
  else
    match value.textOf with
    | some text => .ok text
    | none =>
      if value.items.isSome then
        .error "Args.add() doesn't accept vectorized arguments. Please use Args.add_all() or Args.add_joined() instead."
      else .ok value.otherText

/-- The name of a call and its values, of the two that may stand first. -/
def named (first : ArgValue) : Option ArgValue → Except String (Option String × ArgValue)
  | some values => (argName first).map fun name => (some name,values)
  | none => .ok (none,first)

namespace ArgsState

def beginCall (a : ArgsState) : ArgsState := { a with calls := a.calls ++ [a.items.length] }

def pushText (a : ArgsState) (text : String) : ArgsState := { a with items := a.items ++ [.text text] }

def add (a : ArgsState) (c : Add) : Except String ArgsState := do
  checkFormat "format" c.format
  let a := a.beginCall
  match c.value with
  | none =>
    let text ← single c.argNameOrValue
    return a.pushText (formatted c.format text)
  | some value =>
    let name ← argName c.argNameOrValue
    let a := a.pushText name
    let text ← single value
    return a.pushText (formatted c.format text)

/-- The words of a call, which wait when one of its values is a tree. -/
def putCall (a : ArgsState) (words : List String) (items : List Expanded) (call : Option LazyCall) :
    ArgsState :=
  let a := a.beginCall
  match call with
  | some call => { a with items := a.items ++ [.lazy words call (items.filterMap Expanded.tree)] }
  | none => { a with items := a.items ++ words.map .text }

def addAll (a : ArgsState) (c : AddAll) : Except String ArgsState := do
  let (name,values) ← named c.argNameOrValues c.values
  checkFormat "format_each" c.formatEach
  let items ← ArgCall.expand ⟨"add_all",values,name.isSome,c.formatEach,c.uniquify,c.expandDirectories⟩
  if items.isEmpty && c.omitIfEmpty then return a
  return a.putCall (allWords name c.beforeEach c.terminateWith (items.map Expanded.word)) items <|
    (lazyItems items c.formatEach).map fun lazy =>
      .addAll name lazy c.beforeEach c.omitIfEmpty c.uniquify c.terminateWith

def addJoined (a : ArgsState) (c : AddJoined) : Except String ArgsState := do
  let (name,values) ← named c.argNameOrValues c.values
  checkFormat "format_each" c.formatEach
  checkFormat "format_joined" c.formatJoined
  let items ← ArgCall.expand ⟨"add_joined",values,name.isSome,c.formatEach,c.uniquify,c.expandDirectories⟩
  if items.isEmpty && c.omitIfEmpty then return a
  return a.putCall (joinedWords name c.joinWith c.formatJoined (items.map Expanded.word)) items <|
    (lazyItems items c.formatEach).map fun lazy =>
      .addJoined name lazy c.joinWith c.formatJoined c.omitIfEmpty c.uniquify

def call (a : ArgsState) : ArgsCall → Except String ArgsState
  | .add c => a.add c
  | .addAll c => a.addAll c
  | .addJoined c => a.addJoined c

def run (calls : List ArgsCall) : Except String ArgsState := calls.foldlM call ⟨[],[],none,none⟩

end ArgsState

end BuildFiji.Starlark
