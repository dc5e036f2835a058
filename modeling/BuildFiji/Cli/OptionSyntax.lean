import BuildFiji.Cli.FlagTable
import BuildFiji.Lib.WordScan
import Mathlib

/-!
# The shape of options

Before a command reads its options, a boolean that is written with a value becomes the flag
or its negation, a value that is no number is refused, and the names that `--flag_alias`
gave to labels are replaced.
-/

set_option autoImplicit false
set_option linter.all false

namespace BuildFiji.Flags

open BuildFiji.Scan

open BuildFiji.Graph (splitOnce)

section Numbers

def lower (text : Word) : Word := text.map Char.toLower

/-- One or more digits. -/
def decimal (text : Word) : Option ℕ :=
  if text.isEmpty || !text.all Char.isDigit then none
  else some (text.foldl (fun n c => n*10+(c.toNat-48)) 0)

/-- `str::parse` of a signed integer of so many bits. -/
def parseInt (bits : ℕ) (text : Word) : Option ℤ :=
  let number : Option ℤ :=
    match text with
    | '-'::digits => (decimal digits).map fun n => -(n : ℤ)
    | '+'::digits => (decimal digits).map fun n => (n : ℤ)
    | digits => (decimal digits).map fun n => (n : ℤ)
  number.filter fun n => -2^(bits-1) ≤ n ∧ n < 2^(bits-1)

/-- `str::parse` of a `u64`. -/
def parseU64 (text : Word) : Option ℕ :=
  let number :=
    match text with
    | '+'::digits => decimal digits
    | digits => decimal digits
  number.filter fun n => n < 2^64

def unsigned : Word → Word
  | '-'::text => text
  | '+'::text => text
  | text => text

/-- What follows the digits at the front, and if there are any. -/
def skipDigits (text : Word) : Bool × Word := (text.head?.any Char.isDigit,text.dropWhile Char.isDigit)

def isExponent : Word → Bool
  | [] => true
  | e::text => (e = 'e' || e = 'E') && (decimal (unsigned text)).isSome

/-- Whether `str::parse` reads an `f64`. -/
def isFloat (text : Word) : Bool :=
  let text := unsigned text
  if ["inf".toList,"infinity".toList,"nan".toList].contains (lower text) then true
  else
    match skipDigits text with
    | (whole,'.'::rest) =>
      let (fraction,rest) := skipDigits rest
      (whole || fraction) && isExponent rest
    | (whole,rest) => whole && isExponent rest

end Numbers

section Normalize

/-- The value of a boolean option, if it is one. -/
def boolean (value : Word) : Option Bool :=
  if ["true".toList,"yes".toList,"1".toList].contains (lower value) then some true
  else if ["false".toList,"no".toList,"0".toList].contains (lower value) then some false
  else none

def quote (value : Word) : String := "'" ++ .ofList value ++ "'"

def envVarsText : String := "Variable definitions must be in the form of a 'name=value', 'name', or '=name' assignment"

def isAssignment (value : Word) : Bool :=
  match splitOnce '=' value with
  | some (k,v) => !k.isEmpty && !v.isEmpty && !v.contains '='
  | none => false

/-- What is wrong with a value, for the option's converter. -/
def wrongValue (converter : String) (name value : Word) : Option String :=
  match converter with
  | "Integer" => if (parseInt 32 value).isNone then some (quote value ++ " is not an int") else none
  | "Long" => if (parseInt 64 value).isNone then some (quote value ++ " is not a long") else none
  | "Double" => if isFloat value then none else some (quote value ++ " is not a double")
  | "Percentage" =>
    match parseInt 32 value with
    | none => some (quote value ++ " is not an int")
    | some n =>
      if n < 0 then some (quote value ++ " should be >= 0")
      else if n > 100 then some (quote value ++ " should be <= 100")
      else none
  | "Assignment" =>
    if name = "define".toList ∧ isAssignment value = false then
      some "Variable definitions must be in the form of a 'name=value' assignment"
    else none
  | "EnvVars" => if value.isEmpty ∨ value = ['='] then some envVarsText else none
  | _ => none

variable (t : FlagTable) (command : String)

def known (name : Word) : Option FlagInfo :=
  (t.registry.byName name).filter fun flag => flag.commands.contains command

/-- What follows the `--` of an option. -/
def optionBody : Word → Option Word
  | '-':: '-'::body => if body.head? = some '/' then none else some body
  | _ => none

def isSwitch (flag : FlagInfo) : Bool :=
  flag.typeConverter = some "Boolean" ∨ flag.typeConverter = some "TriState"

def parsing (arg : Word) (why : String) : Stop :=
  .commandLine ("While parsing option " ++ .ofList arg ++ ": " ++ why)

/-- A boolean with a value, as the flag or its negation. -/
def switchWords (flag : FlagInfo) (arg name : Word) : Option Word → Except Stop (List Word)
  | none => .ok [arg]
  | some v =>
    match boolean v with
    | some on =>
      if flag.hasNegativeFlag then .ok [if on then '-':: '-'::name else '-':: '-':: 'n':: 'o'::name]
      else .ok [arg]
    | none =>
      if flag.typeConverter = some "TriState" ∧ lower v = "auto".toList then .ok []
      else .error (parsing arg (quote v ++ " is not a boolean"))

/-- A flag of a few values, which may be given none. -/
def enumWord (arg name : Word) : Option Word → Except Stop Word
  | none => .ok arg
  | some v =>
    if name = "subcommands".toList then
      if lower v = "true".toList then .ok "--subcommands".toList
      else if lower v = "false".toList then .ok "--nosubcommands".toList
      else if lower v = "pretty_print".toList then .ok "--subcommands=pretty_print".toList
      else .error (parsing arg ("Not a valid subcommand option: " ++ quote v ++
        " (should be true, pretty_print or false)"))
    else .ok arg

def checkValue (flag : FlagInfo) (name shown value : Word) : Except Stop Unit :=
  match wrongValue (flag.typeConverter.getD "") name value with
  | some why => .error (parsing shown why)
  | none => .ok ()

/-- `--no` before what is no boolean, and a value after `--no`. -/
def checkNegation (arg name : Word) (value : Option Word) : Except Stop Unit :=
  match (stripNo name).bind (known t command) with
  | none => .ok ()
  | some flag =>
    if isSwitch flag = false ∧ flag.requiresValue = true then
      .error (.commandLine (.ofList arg ++ " :: Illegal use of 'no' prefix on non-boolean option: " ++
        .ofList arg))
    else if value.isSome ∧ flag.hasNegativeFlag = true then
      .error (.commandLine (.ofList arg ++ " :: Unexpected value after boolean option: " ++ .ofList arg))
    else .ok ()

def normalize : List Word → Except Stop (List Word)
  | [] => .ok []
  | arg::args =>
    if arg = ['-','-'] then .ok (arg::args)
    else
      match optionBody arg with
      | none => (normalize args).map (arg::·)
      | some body =>
        let (name,value) := splitValue body
        match known t command name with
        | none => do
          checkNegation t command arg name value
          (normalize args).map (arg::·)
        | some flag =>
          if isSwitch flag then do
            let written ← switchWords flag arg name value
            (normalize args).map (written ++ ·)
          else if flag.requiresValue = false ∧ flag.enumValues ≠ [] then do
            let written ← enumWord arg name value
            (normalize args).map (written::·)
          else if flag.requiresValue then
            match value with
            | some v => do
              checkValue flag name arg v
              (normalize args).map (arg::·)
            | none =>
              match args with
              | [] => .ok [arg]
              | next::args => do
                checkValue flag name ('-':: '-'::(name ++ ' '::next)) next
                (normalize args).map (arg::next::·)
          else (normalize args).map (arg::·)

end Normalize

section Read
variable {σ : Type} (t : FlagTable) (command : String)

/-- What every extractor does at a word before it knows the flag. -/
def readWith (take : Word → FlagMatch → Reading σ Word Stop) (arg : Word) : Reading σ Word Stop :=
  if arg.head? ≠ some '-' then .keep
  else
    match resolve t.registry arg command with
    | .error e => .fail e
    | .ok none => .keep
    | .ok (some m) => take arg m

end Read

section Alias
variable (t : FlagTable)

/-- The labels by their names, the last that was given first. -/
abbrev AliasTable := List (Word × Word)

def setAlias (value : Word) : Except Stop (Option (AliasTable → AliasTable)) :=
  match splitOnce '=' value with
  | some (name,label) => .ok (some fun aliases => (name,label)::aliases)
  | none => .error (.malformedAlias value)

def takeAlias (arg : Word) (m : FlagMatch) : Reading AliasTable Word Stop :=
  if m.flag.name ≠ "flag_alias" then .keep
  else
    match m.value with
    | some value => .attached value setAlias
    | none => .next (.error (.malformedAlias arg)) setAlias

/-- `flag_alias::extract`. -/
def extractAliases (args : List Word) : Except Stop (AliasTable × List Word) :=
  scan (readWith t "build" takeAlias) [] args

/-- `flag_alias::apply`, at a word. -/
def applyAlias (aliases : AliasTable) (arg : Word) : Word :=
  match arg with
  | '-':: '-'::rest =>
    let (name,value) := splitValue rest
    match aliases.lookup name with
    | some label =>
      match value with
      | some v => '-':: '-'::(label ++ '='::v)
      | none => '-':: '-'::label
    | none => arg
  | _ => arg

end Alias

end BuildFiji.Flags
