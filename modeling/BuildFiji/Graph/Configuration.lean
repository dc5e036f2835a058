import BuildFiji.Graph.Label
import BuildFiji.Lib.Framing
import Std.Data.ExtTreeMap

/-!
# Configurations

The configuration a target is built in, and the directory of `bazel-out` that
its outputs are in.
-/

set_option autoImplicit false
set_option linter.all false

namespace BuildFiji.Graph

/-- The value of a build setting, or of an option that a transition reads or
writes. -/
inductive SettingValue where
  | bool (b : Bool)
  | int (i : ℤ)
  | str (s : String)
  | list (items : List String)
  | label (l : String)
  | none
deriving DecidableEq

/-- How Java prints it. -/
def SettingValue.java : SettingValue → String
  | .bool b => if b then "true" else "false"
  | .int i => toString i
  | .str s => s
  | .list items => "[" ++ ", ".intercalate items ++ "]"
  | .label l => l
  | .none => "null"

def commandLineOption : String := "//command_line_option:"

inductive CompilationMode where
  | fastbuild
  | dbg
  | opt
deriving DecidableEq

namespace CompilationMode

def name : CompilationMode → String
  | fastbuild => "fastbuild"
  | dbg => "dbg"
  | opt => "opt"

def parse (name : String) : Option CompilationMode :=
  if name = "fastbuild" then some fastbuild
  else if name = "dbg" then some dbg
  else if name = "opt" then some opt
  else none

end CompilationMode

abbrev Texts := Std.ExtTreeMap String String

abbrev Settings := Std.ExtTreeMap String SettingValue

abbrev Labels := Std.ExtTreeSet Label

structure Configuration where
  cpu : String
  compilationMode : CompilationMode
  defines : Texts
  constraints : Labels
  platform : Option Label
  platformInOutputDir : Bool
  platformNames : Texts
  options : Texts
  testEnv : Texts
  testEnvInherited : Std.ExtTreeSet String
  actionEnv : Texts
  testArgs : List String
  exec : Bool
  settings : Settings
  affected : Settings

/-- The machine the program runs on. -/
structure Host where
  os : String
  arch : String

def hostCpu (host : Host) : String :=
  if host.os = "linux" ∧ host.arch = "x86_64" then "k8"
  else if host.os = "linux" ∧ host.arch = "aarch64" then "aarch64"
  else if host.os = "macos" ∧ host.arch = "aarch64" then "darwin_arm64"
  else if host.os = "macos" ∧ host.arch = "x86_64" then "darwin_x86_64"
  else if host.os = "windows" then "x64_windows"
  else if host.arch = "x86_64" then "k8"
  else host.arch

namespace Configuration

def default (host : Host) : Configuration where
  cpu := hostCpu host
  compilationMode := .fastbuild
  defines := ∅
  constraints := ∅
  platform := none
  platformInOutputDir := false
  platformNames := ∅
  options := ∅
  testEnv := ∅
  testEnvInherited := ∅
  actionEnv := ∅
  testArgs := []
  exec := false
  settings := ∅
  affected := ∅

section Exec
variable (host : Host) (c : Configuration)

def excludesStarlark : Bool :=
  c.settings["//command_line_option:incompatible_exclude_starlark_flags_from_exec_config"]? ==
    some (.bool true) ||
  c.options["incompatible_exclude_starlark_flags_from_exec_config"]?.any (· == "true")

def isCommandLineOption (name : String) : Bool :=
  commandLineOption.toList.isPrefixOf name.toList

/-- The configuration a tool is built in: the flags of the target are dropped but
for its build settings. -/
def toExec : Configuration :=
  { default host with
    settings := if c.excludesStarlark then ∅
      else c.settings.filter fun name _ => !isCommandLineOption name
    cpu := c.cpu
    compilationMode := .opt
    constraints := c.constraints
    actionEnv := c.actionEnv
    options := (∅ : Texts).insert "strip" "always"
    exec := true }

theorem toExec_setting (h : c.excludesStarlark = false) (name : String) :
    (c.toExec host).settings[name]? =
      c.settings[name]?.filter fun _ => !isCommandLineOption name := by
  simp only [toExec, h, Bool.false_eq_true, if_false]
  exact Std.ExtTreeMap.getElem?_filter'

/-- The platform of the tool is the one that it runs on. -/
def toExecOn (platform : Label) (constraints : Labels) : Configuration :=
  { c.toExec host with
    cpu := if platform.repo = "platforms" ∧ platform.package = "host" then hostCpu host
      else platform.name
    constraints := constraints }

end Exec

section Directory
variable (sha256 : List UInt8 → Vector UInt8 32) (c : Configuration)

/-- What leads the name of the output directory. -/
def platformDirName : String :=
  match c.platform with
  | some platform =>
    if c.platformInOutputDir then (c.platformNames[labelText platform]?).getD platform.name
    else c.cpu
  | none => c.cpu

/-- `setting=value` for each setting a transition changed that is set. -/
def changed : List String :=
  c.affected.keys.filterMap fun name =>
    c.settings[name]?.map fun value => name ++ "=" ++ value.java

def utf8 (s : String) : List UInt8 := s.toByteArray.data.toList

/-- The bytes that are hashed. -/
def changedBytes : List UInt8 := c.changed.flatMap fun entry => Framing.frame (utf8 entry)

def hashDigits (bytes : List UInt8) : List Char := (Framing.hex (sha256 bytes).toList).take 12

def transitionHash : Option String :=
  if c.changed = [] then none else some (.ofList (hashDigits sha256 c.changedBytes))

def mnemonic : String :=
  let name := c.platformDirName ++ "-" ++ c.compilationMode.name
  let name := if c.exec then name ++ "-exec" else name
  match c.transitionHash sha256 with
  | some hash => name ++ "-ST-" ++ hash
  | none => name

def binDir : String := "bazel-out/" ++ c.mnemonic sha256 ++ "/bin"

end Directory

section Name
variable {sha256 : List UInt8 → Vector UInt8 32} {c c' : Configuration}

/-- What follows the leading name. -/
def modeText (mode : CompilationMode) (exec : Bool) : List Char :=
  '-'::mode.name.toList ++ if exec then "-exec".toList else []

theorem modeText_inj {dir dir' : List Char} {mode mode' : CompilationMode} {exec exec' : Bool}
    (h : dir ++ modeText mode exec = dir' ++ modeText mode' exec') :
    dir = dir' ∧ mode = mode' ∧ exec = exec' := by
  have hrev := congrArg List.reverse h
  cases mode <;> cases mode' <;> cases exec <;> cases exec' <;>
    simp [modeText, CompilationMode.name] at hrev ⊢
  all_goals exact hrev

/-- The end of a name without a hash is not hexadecimal. -/
theorem modeText_not_hex (dir : List Char) (mode : CompilationMode) (exec : Bool) :
    ((dir ++ modeText mode exec).reverse.take 3).all Framing.isHexDigit = false := by
  rw [List.reverse_append]
  cases mode <;> cases exec <;> simp [modeText, CompilationMode.name] <;> decide

theorem hashDigits_length (bytes : List UInt8) : (hashDigits sha256 bytes).length = 12 := by
  rw [hashDigits, List.length_take, Framing.hex_length, Vector.length_toList]
  rfl

theorem hashDigits_hex (bytes : List UInt8) (pre : List Char) :
    ((pre ++ hashDigits sha256 bytes).reverse.take 3).all Framing.isHexDigit = true := by
  rw [List.reverse_append, List.take_append_of_le_length
    (by rw [List.length_reverse, hashDigits_length]; decide), List.all_eq_true]
  intro x hx
  have hx := List.mem_reverse.mp (List.mem_of_mem_take hx)
  exact Framing.hex_digits _ x (List.mem_of_mem_take hx)

theorem modeText_ne_hash (dir pre : List Char) (mode : CompilationMode) (exec : Bool)
    (bytes : List UInt8) : dir ++ modeText mode exec ≠ pre ++ hashDigits sha256 bytes := by
  intro h
  have hex := @hashDigits_hex sha256 bytes pre
  rw [← h, modeText_not_hex] at hex
  cases hex

theorem mnemonic_toList : (c.mnemonic sha256).toList =
    c.platformDirName.toList ++ modeText c.compilationMode c.exec ++
      if c.changed = [] then [] else "-ST-".toList ++ hashDigits sha256 c.changedBytes := by
  by_cases h : c.changed = []
  · cases he : c.exec <;> simp [mnemonic, transitionHash, modeText, h, he]
  · cases he : c.exec <;> simp [mnemonic, transitionHash, modeText, h, he]

theorem utf8_injective : Function.Injective utf8 := by
  intro s t h
  apply String.toByteArray_inj.mp
  apply ByteArray.ext
  exact Array.toList_inj.mp h

theorem changedBytes_inj (h : c.changedBytes = c'.changedBytes) : c.changed = c'.changed := by
  have hframes : (c.changed.map utf8).flatMap Framing.frame =
      (c'.changed.map utf8).flatMap Framing.frame := by
    rw [List.flatMap_map, List.flatMap_map]
    exact h
  exact utf8_injective.list_map (Framing.frames_inj hframes)

/-- The digits tell what is hashed for the one configuration from what is hashed
for the other. -/
def Separates (sha256 : List UInt8 → Vector UInt8 32) (c c' : Configuration) : Prop :=
  hashDigits sha256 c.changedBytes = hashDigits sha256 c'.changedBytes →
    c.changedBytes = c'.changedBytes

/-- What the name of the output directory says. -/
theorem mnemonic_eq_iff (hs : Separates sha256 c c') :
    c.mnemonic sha256 = c'.mnemonic sha256 ↔ c.platformDirName = c'.platformDirName ∧
      c.compilationMode = c'.compilationMode ∧ c.exec = c'.exec ∧ c.changed = c'.changed := by
  rw [← String.toList_inj, mnemonic_toList, mnemonic_toList, ← String.toList_inj]
  constructor
  · intro h
    by_cases hc : c.changed = [] <;> by_cases hc' : c'.changed = []
    · rw [if_pos hc, if_pos hc', List.append_nil, List.append_nil] at h
      obtain ⟨hd,hm,he⟩ := modeText_inj h
      exact ⟨hd,hm,he,hc.trans hc'.symm⟩
    · rw [if_pos hc, if_neg hc', List.append_nil, ← List.append_assoc] at h
      exact absurd h (modeText_ne_hash _ _ _ _ _)
    · rw [if_neg hc, if_pos hc', List.append_nil, ← List.append_assoc] at h
      exact absurd h.symm (modeText_ne_hash _ _ _ _ _)
    · rw [if_neg hc, if_neg hc', ← List.append_assoc, ← List.append_assoc] at h
      obtain ⟨hpre,hhash⟩ := List.append_inj' h (by rw [hashDigits_length, hashDigits_length])
      obtain ⟨hd,hm,he⟩ := modeText_inj (List.append_cancel_right hpre)
      exact ⟨hd,hm,he,changedBytes_inj (hs hhash)⟩
  · rintro ⟨hd,hm,he,hc⟩
    rw [hd, hm, he, changedBytes, changedBytes, hc]

end Name

end Configuration

end BuildFiji.Graph
