import BuildFiji.Graph.Label
import BuildFiji.Lib.Substitution

/-!
# The options of a command

The lines of every rc file, in the order they are read, give a command its options:
those of the sections it takes, with each config expanded in place. What is announced
says from which file they are. A config that is read may name others; none stands for
a run whose fuel is spent.
-/

set_option autoImplicit false
set_option linter.all false

namespace BuildFiji.Rc

open Graph (splitOn)
open Substitution (Run)

structure ResolvedLine where
  source : String
  command : String
  config : Option String
  flags : List String
  deriving DecidableEq

inductive ResolveError where
  | configCycle (chain : List String) (repeated : String)
  | undefinedConfig (name : String)
  deriving DecidableEq

def ResolveError.text : ResolveError → String
  | configCycle chain repeated => "--config cycle: " ++ " -> ".intercalate chain ++ " -> " ++ repeated
  | undefinedConfig name => "Config value '" ++ name ++ "' is not defined in any .rc file"

def inherits (command : String) : List String :=
  if command ∈ ["test","run","cquery","aquery","mobile-install","print_action","info"] then ["build"]
  else if command = "coverage" then ["build","test"]
  else []

/-- The sections a command takes its options from, in the order they are read. -/
def commandChain (command : String) : List String :=
  "common"::(inherits command ++ if command = "common" then [] else [command])

/-- `strip_prefix("--config=")` -/
def stripConfig (flag : String) : Option String :=
  let start := "--config=".toList
  if start.isPrefixOf flag.toList then some (.ofList (flag.toList.drop start.length)) else none

section Expansion

variable (lines : List ResolvedLine) (command : String)

/-- The lines of a config, or those of none, section by section. -/
def configLines (config : Option String) : List ResolvedLine :=
  (commandChain command).flatMap fun applicable =>
    lines.filter fun l => l.config = config ∧ l.command = applicable

/-- A `--config` that no word follows is kept. -/
def appendExpanding (expand : String → Run ResolveError String) :
    List String → Run ResolveError String
  | [] => some (.ok [])
  | flag::rest =>
    match stripConfig flag,rest with
    | some name,rest => Run.append (expand name) (appendExpanding expand rest)
    | none,[] => some (.ok [flag])
    | none,name::rest =>
      if flag = "--config" then Run.append (expand name) (appendExpanding expand rest)
      else Run.append (some (.ok [flag])) (appendExpanding expand (name::rest))

def appendLines (expand : String → Run ResolveError String) (ls : List ResolvedLine) :
    Run ResolveError String :=
  Run.all (ls.map fun l => appendExpanding expand l.flags)

def expandConfig : ℕ → List String → String → Bool → Run ResolveError String
  | 0,_,_,_ => none
  | fuel+1,active,name,required =>
    if name ∈ active then some (.error (.configCycle active name))
    else
      let matching := configLines lines command (some name)
      let out := appendLines (expandConfig fuel (active ++ [name]) · true) matching
      if required ∧ matching = [] then out.append (some (.error (.undefinedConfig name))) else out

/-- Whether a flag turns the host's config on or off. -/
def platformConfig (flag : String) : Option Bool :=
  if flag = "--enable_platform_specific_config" ∨ flag = "--enable_platform_specific_config=true" then
    some true
  else if flag = "--noenable_platform_specific_config" ∨
      flag = "--enable_platform_specific_config=false" then
    some false
  else none

def retained (out : List String) : List String := out.filter fun flag => platformConfig flag = none

def enabled (out : List String) : Bool :=
  out.foldl (fun enabled flag => (platformConfig flag).getD enabled) false

variable (fuel : ℕ) (os : String)

def resolveCommand : Run ResolveError String :=
  match appendLines (expandConfig lines command fuel [] · true) (configLines lines command none) with
  | some (.ok out) =>
    if enabled out then
      Run.append (some (.ok (retained out))) (expandConfig lines command fuel [] os false)
    else some (.ok (retained out))
  | failed => failed

def beforeMarker (args : List String) : List String := args.takeWhile (· ≠ "--")

def fromMarker (args : List String) : List String := args.dropWhile (· ≠ "--")

def expandCommandLine (args : List String) : Run ResolveError String :=
  Run.append (appendExpanding (expandConfig lines command fuel [] · true) (beforeMarker args))
    (some (.ok (fromMarker args)))

end Expansion

section Announcement

/-- A path as it is compared: whether it is absolute, and its components. -/
def pathComponents (path : String) : Bool × List (List Char) :=
  match splitOn '/' path.toList with
  | [] => (false,[])
  | first::rest =>
    (first = [] ∧ rest ≠ [],(if first = [] then [] else [first]) ++
      rest.filter fun c => c ≠ [] ∧ c ≠ ['.'])

def samePath (a b : String) : Bool := pathComponents a = pathComponents b

def stretchesFrom (source : String) (current : ℕ) : List ResolvedLine → List ℕ
  | [] => []
  | l::ls =>
    let next := if samePath source l.source then current else current+1
    next::stretchesFrom l.source next ls

/-- The number of the stretch of one file each line is in. -/
def stretches : List ResolvedLine → List ℕ
  | [] => []
  | l::ls => 0::stretchesFrom l.source 0 ls

def distinct (stretches : List ℕ) : List ℕ :=
  stretches.foldl (fun seen s => if s ∈ seen then seen else seen ++ [s]) []

def configNames : List String → List String
  | [] => []
  | flag::rest =>
    match stripConfig flag,rest with
    | some name,rest => name::configNames rest
    | none,[] => []
    | none,name::rest =>
      if flag = "--config" then name::configNames rest else configNames (name::rest)

inductive Message where
  | startup (file : String) (flags : List String)
  | client (options : String)
  | reading (command file applicable : String) (flags : List String)
  | found (applicable name : String) (stretch : ℕ) (file : String) (flags : List String)
  deriving DecidableEq

def Message.text : Message → String
  | startup file flags => "Reading 'startup' options from " ++ file ++ ": " ++ " ".intercalate flags
  | client options =>
    "Options provided by the client:\n  Inherited 'common' options: " ++ options
  | reading command file applicable flags =>
    let label :=
      if applicable = command then "'" ++ applicable ++ "'" else "Inherited '" ++ applicable ++ "'"
    "Reading rc options for '" ++ command ++ "' from " ++ file ++ ":\n  " ++ label ++ " options: " ++
      " ".intercalate flags
  | found applicable name _ file flags =>
    "Found applicable config definition " ++ applicable ++ ":" ++ name ++ " in file " ++ file ++ ": " ++
      " ".intercalate flags

variable (lines : List ResolvedLine) (command : String)

def startupLines : List ResolvedLine := lines.filter fun l => l.command = "startup"

def startupFiles : List String :=
  (startupLines lines).foldl (fun files l =>
    if files.any (samePath · l.source) then files else files ++ [l.source]) []

def startupMessages : List Message :=
  (startupFiles lines).map fun file =>
    .startup file (((startupLines lines).filter fun l => samePath l.source file).flatMap
      ResolvedLine.flags)

def inStretch (config : Option String) (applicable : String) (stretch : ℕ) : List ResolvedLine :=
  ((lines.zip (stretches lines)).filter fun p =>
    p.2 = stretch ∧ p.1.config = config ∧ p.1.command = applicable).map Prod.fst

/-- The sections of the command, each with every stretch. -/
def places : List (String × ℕ) :=
  (commandChain command).flatMap fun applicable =>
    (distinct (stretches lines)).map fun stretch => (applicable,stretch)

def stretchFlags (config : Option String) (place : String × ℕ) : List String :=
  (inStretch lines config place.1 place.2).flatMap ResolvedLine.flags

def readingMessages : List Message :=
  (places lines command).flatMap fun place =>
    match inStretch lines none place.1 place.2 with
    | [] => []
    | first::_ => [.reading command first.source place.1 (stretchFlags lines none place)]

def announceConfig : ℕ → String → Run Empty Message
  | 0,_ => none
  | fuel+1,name =>
    Run.all ((places lines command).map fun place =>
      match inStretch lines (some name) place.1 place.2 with
      | [] => some (.ok [])
      | first::_ =>
        let flags := stretchFlags lines (some name) place
        Run.append (some (.ok [.found place.1 name place.2 first.source flags]))
          (Run.all ((configNames flags).map (announceConfig fuel))))

variable (fuel : ℕ) (args : List String) (clientOptions : String)

/-- The configs the rc files and the command line name, in that order. -/
def seeds : List String :=
  ((places lines command).flatMap fun place => configNames (stretchFlags lines none place)) ++
    configNames (beforeMarker args)

def announced : Run Empty Message :=
  Run.append
    (some (.ok (startupMessages lines ++ .client clientOptions::readingMessages lines command)))
    (Run.all ((seeds lines command args).map (announceConfig lines command fuel)))

def announce : Option (List String) :=
  match announced lines command fuel args clientOptions with
  | some (.ok messages) => some (messages.map Message.text)
  | _ => none

end Announcement

end BuildFiji.Rc
