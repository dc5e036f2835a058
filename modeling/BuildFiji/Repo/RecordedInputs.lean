import BuildFiji.Graph.Paths
import BuildFiji.Lib.Framing
import BuildFiji.Lib.Text

/-!
# What a run read, as text

What a repository rule or an extension reads is noted once for each thing read, and
written a line each: a variable with its value, a file with the digest of what it
holds, a directory with that of its names, and what a repository name led to. Later
a line is read back and compared with how things are.
-/

set_option autoImplicit false
set_option linter.all false

namespace BuildFiji.Recorded

open BuildFiji.Graph BuildFiji.Framing

abbrev Text := List Char

abbrev Bytes := List UInt8

/-- The names on the way to a file. -/
abbrev Names := List Text

/-- `RepoMapping`'s canonical name is `\0` where the apparent one names nothing. -/
inductive RecordedInput where
  | env (name : Text) (value : Option Text)
  | file (path : Names) (sha256 : Text)
  | dirents (path : Names) (sha256 : Text)
  | repoMapping (repo apparent canonical : Text)
  deriving DecidableEq

def RecordedInput.sameInput : RecordedInput → RecordedInput → Bool
  | .env a _, .env b _ => a == b
  | .file a _, .file b _ => a == b
  | .dirents a _, .dirents b _ => a == b
  | .repoMapping a x _, .repoMapping b y _ => a == b && x == y
  | _, _ => false

/-- The first reading counts. -/
def push (inputs : List RecordedInput) (input : RecordedInput) : List RecordedInput :=
  if inputs.any fun i => i.sameInput input then inputs else inputs ++ [input]

/-- Where the roots are, and where they are with their links resolved. -/
structure Layout where
  workspaceRoot : Names
  external : Names
  resolvedRoot : Option Names
  resolvedExternal : Option Names

section Written

def replace (c : Char) (into : Text) (text : Text) : Text :=
  text.flatMap fun x => if x = c then into else [x]

def escape (value : Text) : Text :=
  replace '\n' ['\\','n'] (replace ' ' ['\\','s'] (replace '\\' ['\\','\\'] value))

/-- Every place where the two stand together, from the left. -/
def replacePair (a b : Char) (into : Text) : Text → Text
  | x::y::rest =>
    if x = a ∧ y = b then into ++ replacePair a b into rest else x::replacePair a b into (y::rest)
  | text => text

def unescape (text : Text) : Text :=
  replacePair '\\' '\\' ['\\'] (replacePair '\\' 'n' ['\n'] (replacePair '\\' 's' [' '] text))

def display (names : Names) : Text := ['/'].intercalate names

def under (path root : Names) (resolved : Option Names) : Option Names :=
  path.dropPrefix? root <|> resolved.bind path.dropPrefix?

variable (layout : Layout)

def repoPath (path : Names) : Option Text :=
  match under path layout.workspaceRoot layout.resolvedRoot with
  | some rest => some ("@@//".toList ++ display rest)
  | none =>
    match under path layout.external layout.resolvedExternal with
    | some (repo::rest) => some ("@@".toList ++ repo ++ "//".toList ++ display rest)
    | _ => none

def envLine (name : Text) (value : Option Text) : Text :=
  "ENV:".toList ++ name ++ ' '::
    match value with
    | none => "\\0".toList
    | some v => escape v

def recordedText : RecordedInput → Option Text
  | .repoMapping repo apparent canonical =>
    some ("REPO_MAPPING:".toList ++ repo ++ ','::apparent ++ ' '::canonical)
  | .env name value => some (envLine name value)
  | .file path sha256 => (repoPath layout path).map fun p => "FILE:".toList ++ p ++ ' '::sha256
  | .dirents path sha256 => (repoPath layout path).map fun p => "DIRENTS:".toList ++ p ++ ' '::sha256

end Written

section Read

def rsplitOnce (c : Char) (text : Text) : Option (Text × Text) :=
  (Text.splitOnce [c] text.reverse).map fun parts => (parts.2.reverse,parts.1.reverse)

def namesOf (text : Text) : Names := (splitOn '/' text).filter fun n => !n.isEmpty && n != ['.']

def filePath (layout : Layout) (written : Text) : Option Names := do
  let rest ← written.dropPrefix? "@@".toList
  let (repo,path) ← Text.splitOnce "//".toList rest
  if repo.isEmpty then some (layout.workspaceRoot ++ namesOf path)
  else some (layout.external ++ repo::namesOf path)

def readEnv (rest : Text) : Option (Text × Option Text) := do
  let (name,value) ← Text.splitOnce [' '] rest
  return (name,if value = "\\0".toList then none else some (unescape value))

/-- How things are: variables, files, what repository names lead to, and the digest
of what files hold. -/
structure World where
  environ : Text → Option Text
  files : Names → Option Bytes
  mapping : Text → Text → Option Text

def mappingIsCurrent (world : World) (rest : Text) : Bool :=
  match Text.splitOnce [' '] rest with
  | none => false
  | some (head,canonical) =>
    match Text.splitOnce [','] head with
    | none => false
    | some (repo,apparent) => (world.mapping repo apparent).getD "\\0".toList == canonical

def envIsCurrent (world : World) (rest : Text) : Bool :=
  match readEnv rest with
  | none => false
  | some (name,recorded) => world.environ name == recorded

variable (layout : Layout) (sha256 : Bytes → Bytes) (world : World)

def fileIsCurrent (rest : Text) : Bool :=
  match rsplitOnce ' ' rest with
  | none => false
  | some (written,hash) =>
    match filePath layout written with
    | none => false
    | some path =>
      match world.files path with
      | some bytes => hex (sha256 bytes) == hash
      | none => false

/-- Anything else, as a directory's names, is not checked: run again. -/
def inputIsCurrent (text : Text) : Bool :=
  match text.dropPrefix? "REPO_MAPPING:".toList with
  | some rest => mappingIsCurrent world rest
  | none =>
    match text.dropPrefix? "ENV:".toList with
    | some rest => envIsCurrent world rest
    | none =>
      match text.dropPrefix? "FILE:".toList with
      | some rest => fileIsCurrent layout sha256 world rest
      | none => false

end Read

section Marker

/-- Without the carriage return that may stand before the end of the line. -/
def chomp (line : Text) : Text := if line.getLast? = some '\r' then line.dropLast else line

/-- `str::lines`: what follows the last newline is a line if it is not empty. -/
def linesFrom : Text → Text → List Text
  | [], line => if line.isEmpty then [] else [line]
  | c::cs, line => if c = '\n' then chomp line::linesFrom cs [] else linesFrom cs (line ++ [c])

def lines (text : Text) : List Text := linesFrom text []

def heading : Text := "fjfj-marker 1".toList

/-- Nothing is written if an input cannot be checked again. -/
def markerLines (layout : Layout) : List RecordedInput → Option Text
  | [] => some []
  | input::inputs => do
    let line ← recordedText layout input
    if line.contains '\n' || "DIRENTS:".toList.isPrefixOf line then none
    else return line ++ '\n'::(← markerLines layout inputs)

def writeMarker (layout : Layout) (key : Text) (inputs : List RecordedInput) : Option Text :=
  (markerLines layout inputs).map fun text => heading ++ '\n'::key ++ '\n'::text

def markerIsCurrent (layout : Layout) (sha256 : Bytes → Bytes) (world : World) (marker key : Text) :
    Bool :=
  match lines marker with
  | first::second::inputs =>
    first == heading && second == key && inputs.all fun t => inputIsCurrent layout sha256 world t
  | _ => false

end Marker

end BuildFiji.Recorded
