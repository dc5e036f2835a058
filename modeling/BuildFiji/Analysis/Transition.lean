import BuildFiji.Graph.Configuration
import Mathlib

/-!
# Transitions

A transition reads the settings it names and says what to change. Settings are
command-line options and build settings; one at its default is absent from the
configuration.
-/

set_option autoImplicit false
set_option linter.all false

namespace BuildFiji.Analysis

open BuildFiji.Graph

inductive SettingKind where
  | bool
  | int
  | string
  | stringList
  | stringSet
deriving DecidableEq

/-- The values of attributes, as far as a build setting or an alias has them. -/
inductive AttrValue where
  | bool (b : Bool)
  | int (i : ℤ)
  | string (s : String)
  | stringList (items : List String)
  | label (l : Label)
  | other
deriving DecidableEq

inductive TargetKind where
  | rule (ruleClass : String) (definedIn : Option Label) (attrs : List (String × AttrValue))
  | other
deriving DecidableEq

/-- What the engine is asked for: the target of a label, the build setting a rule
class of a `.bzl` is, and the constraint values of a platform. -/
structure Ctx where
  target : Label → Except String (Option TargetKind)
  buildSetting : Label → String → Except String (Option SettingKind)
  platformConstraints : Label → Except String Labels

def nativeDefault (name : String) : Option SettingValue :=
  if name ∈ ["extra_toolchains","copt","cxxopt","conlyopt","linkopt","host_copt","host_cxxopt",
      "host_conlyopt","host_linkopt"] then some (.list [])
  else if name ∈ ["stamp","legacy_external_runfiles","incompatible_default_to_explicit_init_py"] then
    some (.bool false)
  else if name ∈ ["build_runfile_links","enable_runfiles"] then some (.bool true)
  else none

def settingLabel (text repo : String) : Except String Label :=
  (Label.parse text ⟨repo,""⟩).mapError fun e => "build setting '" ++ text ++ "': " ++ e.message

/-- The `actual` of an alias. -/
def aliasActual : TargetKind → Option Label
  | .rule "alias" none attrs => attrs.findSome? fun attr =>
      match attr with
      | ("actual",.label l) => some l
      | _ => none
  | _ => none

def followAliasesFrom (ctx : Ctx) : ℕ → Label → Except String Label
  | 0, label => .ok label
  | n+1, label => do
    match (← ctx.target label).bind aliasActual with
    | some actual => followAliasesFrom ctx n actual
    | none => pure label

def followAliases (ctx : Ctx) (label : Label) : Except String Label := followAliasesFrom ctx 16 label

def defaultValue : Option AttrValue → Option SettingValue
  | some (.bool b) => some (.bool b)
  | some (.int i) => some (.int i)
  | some (.string s) => some (.str s)
  | some (.stringList items) => some (.list items)
  | some (.label l) => some (.str (labelText l))
  | _ => none

def defaultOf (ctx : Ctx) (label : Label) : Except String (Option (SettingKind × SettingValue)) := do
  match ← ctx.target label with
  | some (.rule ruleClass definedIn attrs) =>
    let default := (attrs.find? fun attr => attr.1 == "build_setting_default").map Prod.snd
    let kind ← match definedIn with
      | none => pure (some SettingKind.string)
      | some bzl => ctx.buildSetting bzl ruleClass
    return kind.bind fun kind => (defaultValue default).map fun value => (kind,value)
  | _ => return none

def userDefault (ctx : Ctx) (label : Label) : Except String (SettingKind × SettingValue) := do
  match ← defaultOf ctx label with
  | some default => return default
  | none => throw (labelText label ++ " is not a build setting")

def parseI64 (text : String) : Option ℤ :=
  let (negative,digits) := match text.toList with
    | '-'::digits => (true,digits)
    | '+'::digits => (false,digits)
    | digits => (false,digits)
  if digits = [] ∨ ¬digits.all Char.isDigit then none
  else
    let n : ℤ := digits.foldl (fun n c => 10*n+(c.toNat - '0'.toNat)) (0 : ℕ)
    let i := if negative then -n else n
    if -2^63 ≤ i ∧ i < 2^63 then some i else none

/-- A value from the command line, which is text, as the setting's type holds it. -/
def typed (kind : SettingKind) (value : SettingValue) (name : String) :
    Except String SettingValue :=
  match value with
  | .str text =>
    let bad (want : String) := "While parsing option --" ++ name ++ "=" ++ text ++ ": '" ++ text ++
      "' is not a " ++ want
    match kind with
    | .string => .ok value
    | .bool =>
      if text.toLower ∈ ["true","1","yes","t","y"] then .ok (.bool true)
      else if text.toLower ∈ ["false","0","no","f","n"] then .ok (.bool false)
      else .error (bad "boolean")
    | .int =>
      match parseI64 text with
      | some i => .ok (.int i)
      | none => .error (bad "integer")
    | .stringList => .ok (.list ((splitOn ',' text.toList).map .ofList))
    | .stringSet => .ok (.list ((splitOn ',' text.toList).map .ofList))
  | _ => .ok value

def settingIn (ctx : Ctx) (c : Configuration) (label : Label) : Except String SettingValue := do
  let label ← followAliases ctx label
  let (kind,default) ← userDefault ctx label
  match c.settings[labelText label]? with
  | some set => typed kind set (labelText label)
  | none => return default

/-- What follows the prefix of a command-line option. -/
def optionName (name : String) : Option String :=
  if commandLineOption.toList.isPrefixOf name.toList then
    some (.ofList (name.toList.drop commandLineOption.toList.length))
  else none

def unsupportedOption (option : String) : String :=
  "transitions on --" ++ option ++ " are not supported yet (buildfiji-136.6)"

def readOption (c : Configuration) (name option : String) : Except String SettingValue :=
  if option = "compilation_mode" then .ok (.str c.compilationMode.name)
  else if option = "cpu" then .ok (.str c.cpu)
  else if option = "platforms" then
    .ok (c.settings[name]?.getD (.list ["@@bazel_tools//tools:host_platform"]))
  else if option = "define" then
    .error ("Starlark transition on --define not supported - try using build settings " ++
      "(https://bazel.build/rules/config#user-defined-build-settings).")
  else
    match c.settings[name]?.or (nativeDefault option) with
    | some value => .ok value
    | none => .error (unsupportedOption option)

def read (ctx : Ctx) (c : Configuration) (name repo : String) : Except String SettingValue :=
  match optionName name with
  | some option => readOption c name option
  | none => do settingIn ctx c (← settingLabel name repo)

/-- A setting is among those a transition changed until it is set back to what it
was before the first of them did. -/
def note (c : Configuration) (name : String) (original value : SettingValue) : Configuration :=
  { c with affected :=
      if value = original then c.affected.erase name else c.affected.insert name original }

def setSetting (c : Configuration) (name : String) (default value : SettingValue) :
    Configuration :=
  { c with settings :=
      if value = default then c.settings.erase name else c.settings.insert name value }

def writePlatforms (ctx : Ctx) (c : Configuration) (name : String) (value original : SettingValue) :
    Except String Configuration :=
  match value with
  | .list [text] => do
    let label ← settingLabel text ""
    let constraints ← ctx.platformConstraints label
    return note { c with
      constraints := constraints
      platform := some label
      settings := c.settings.insert name value } name original value
  | .list _ => .error "Multiple platforms are not supported: --platforms takes exactly one"
  | _ => .error "--platforms takes a list of labels"

def writeListed (ctx : Ctx) (c : Configuration) (name option : String)
    (value original : SettingValue) : Except String Configuration :=
  if option = "platforms" then writePlatforms ctx c name value original
  else
    match nativeDefault option with
    | none => .error (unsupportedOption option)
    | some default => .ok (note (setSetting c name default value) name original value)

def writeOption (ctx : Ctx) (c : Configuration) (name option : String)
    (value original : SettingValue) : Except String Configuration :=
  match value with
  | .str text =>
    if option = "compilation_mode" then
      match CompilationMode.parse text with
      | some mode => .ok { c with compilationMode := mode }
      | none => .error ("Invalid value for --compilation_mode: '" ++ text ++
          "' (should be one of fastbuild, dbg, opt)")
    else if option = "cpu" then .ok { c with cpu := text }
    else writeListed ctx c name option value original
  | _ => writeListed ctx c name option value original

def write (ctx : Ctx) (c : Configuration) (name : String) (value : SettingValue) (repo : String) :
    Except String Configuration := do
  let before ← read ctx c name repo
  if before = value then return c
  else
    let original := c.affected[name]?.getD before
    match optionName name with
    | some option => writeOption ctx c name option value original
    | none =>
      let (_,default) ← userDefault ctx (← settingLabel name repo)
      return note (setSetting c name default value) name original value

end BuildFiji.Analysis
