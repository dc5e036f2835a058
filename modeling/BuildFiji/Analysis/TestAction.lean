import BuildFiji.Analysis.RuleDeps
import BuildFiji.Graph.Expand
import BuildFiji.Graph.ShellWords
import BuildFiji.Starlark.Actions
import Mathlib

/-!
# The action that runs a test

A test runs below the script that sets it up, with an environment that says where
its files go: all of them stand in a directory of the configuration that is named
by the package and the name of the target.
-/

set_option autoImplicit false
set_option linter.all false

namespace BuildFiji.TestAction

open BuildFiji.Graph BuildFiji.RuleDeps
open Graph.Configuration (utf8)
open Starlark.Actions (StringMap.extend)

/-- `size` to the seconds a test may take, and `timeout` to the same. -/
def seconds (size timeout : String) : ℕ :=
  match timeout with
  | "short" => 60
  | "moderate" => 300
  | "long" => 900
  | "eternal" => 3600
  | _ =>
    match size with
    | "small" => 60
    | "large" => 900
    | "enormous" => 3600
    | _ => 300

def stringAttr (attrs : Attrs) (name : String) : Option String :=
  attrs.findSome? fun e =>
    match e.2 with
    | .string s => if e.1 = name then some s else none
    | _ => none

def attrOf (attrs : Attrs) (name : String) : Option AttrValue := attrs.lookup name

def size (attrs : Attrs) : String := ((stringAttr attrs "size").filter (· ≠ "")).getD "medium"

def timeout (attrs : Attrs) : String := (stringAttr attrs "timeout").getD ""

/-- The test as the runfiles tree names it. -/
def short (exe : Artifact) : String :=
  match withoutPrefix "external/".toList exe.path.toList with
  | some rest =>
    match splitOnce '/' rest with
    | some (_,rest) => .ofList rest
    | none => .ofList rest
  | none => exe.path

/-- What analysing another target gives. -/
structure Env where
  sha256 : List UInt8 → Vector UInt8 32
  files : ConfiguredTargetKey Configuration → Except String (List Artifact)
  mainRepoName : String

/-- What is known of a target before its test is registered. -/
structure Target where
  executable : Option Artifact
  ruleClass : Option String
  extraOutputs : List Artifact

structure TestRegistration where
  action : Action
  log : Artifact
  xml : Artifact
  size : String
  timeoutSeconds : ℕ
  tools : List (ConfiguredTargetKey Configuration)

def testlogsDir (sha256 : List UInt8 → Vector UInt8 32) (c : Configuration) : String :=
  "bazel-out/" ++ c.mnemonic sha256 ++ "/testlogs"

section Args

variable (env : Env) (key : ConfiguredTargetKey Configuration) (attrs : Attrs) (target : Target)

/-- `arg.replace("$(location", "$(rootpath")` -/
def inRunfiles : List Char → List Char
  | '$' :: '(' :: 'l' :: 'o' :: 'c' :: 'a' :: 't' :: 'i' :: 'o' :: 'n' :: rest =>
    "$(rootpath".toList ++ inRunfiles rest
  | c :: rest => c :: inRunfiles rest
  | [] => []

/-- The targets that `args` can name. -/
def namedByArgs : List Label :=
  ["data","srcs","deps"].flatMap fun name => ((attrOf attrs name).map AttrValue.labels).getD []

def expander (prerequisites : List Prerequisite) : Expander where
  ruleClass := target.ruleClass.getD "test"
  «attribute» := "args"
  label := key.label
  srcs := []
  outs := []
  prerequisites := prerequisites
  binDir := key.configuration.binDir env.sha256
  targetCpu := key.configuration.cpu
  compilationMode := key.configuration.compilationMode.name
  defines := StringMap.extend .empty key.configuration.defines.toList
  toolchainVariables := []
  mainRepoName := env.mainRepoName
  context := ⟨key.label.repo,key.label.package⟩

def argWords (prerequisites : List Prerequisite) (arg : String) : Except String (List String) := do
  let text ← ((expander env key target prerequisites).expand (.ofList (inRunfiles arg.toList))).mapError
    ExpandError.message
  (tokenize text).mapError fun e => key.label.name ++ ": in args: " ++ e.message

def allArgs : Except String (List String) :=
  match attrOf attrs "args" with
  | some (.stringList (arg::args)) => do
    let prerequisites ← (namedByArgs attrs).mapM fun l => do
      return (⟨l,← env.files ⟨l,key.configuration⟩⟩ : Prerequisite)
    let words ← (arg::args).mapM (argWords env key target prerequisites)
    return words.flatten
  | _ => .ok []

end Args

section Files

variable (env : Env) (key : ConfiguredTargetKey Configuration)

/-- The repository of the test is no part of it. -/
def dir : String :=
  let testlogs := testlogsDir env.sha256 key.configuration
  if key.label.package = "" then testlogs ++ "/" ++ key.label.name
  else testlogs ++ "/" ++ key.label.package ++ "/" ++ key.label.name

def file (name : String) : Artifact := ⟨.derived "",dir env key ++ "/" ++ name,false,false⟩

def log : Artifact := file env key "test.log"

def xml : Artifact := file env key "test.xml"

def tmp : String :=
  "_tmp/" ++ .ofList ((Framing.hex (env.sha256 (utf8 (labelText key.label))).toList).take 32)

end Files

section Register

variable (env : Env) (key : ConfiguredTargetKey Configuration) (attrs : Attrs) (target : Target)

def environment (exe : Artifact) : StringMap :=
  let below := dir env key
  let fixed := [("PATH","/bin:/usr/bin:/usr/local/bin"),("TZ","UTC"),("TEST_BINARY",short exe),
    ("TEST_INFRASTRUCTURE_FAILURE_FILE",below ++ "/test.infrastructure_failure"),
    ("TEST_LOGSPLITTER_OUTPUT_FILE",below ++ "/test.raw_splitlogs/test.splitlogs"),
    ("TEST_PREMATURE_EXIT_FILE",below ++ "/test.exited_prematurely"),("TEST_SIZE",size attrs),
    ("TEST_SRCDIR",((target.extraOutputs.head?).map Artifact.execPath).getD ""),
    ("TEST_TARGET",labelText key.label),
    ("TEST_TIMEOUT",toString (seconds (size attrs) (timeout attrs))),("TEST_TMPDIR",tmp env key),
    ("TEST_UNDECLARED_OUTPUTS_ANNOTATIONS_DIR",below ++ "/test.outputs_manifest"),
    ("TEST_UNDECLARED_OUTPUTS_DIR",below ++ "/test.outputs"),
    ("TEST_UNUSED_RUNFILES_LOG_FILE",below ++ "/test.unused_runfiles_log"),
    ("TEST_WARNINGS_OUTPUT_FILE",below ++ "/test.warnings"),("TEST_WORKSPACE","_main"),
    ("XML_OUTPUT_FILE",(xml env key).execPath)]
  StringMap.extend (StringMap.extend .empty fixed) key.configuration.testEnv.toList

/-- The tags that keep a test out of the sandbox. -/
def requirements : StringMap :=
  let tags :=
    match attrOf attrs "tags" with
    | some (.stringList tags) => tags.filter (["local","no-sandbox","exclusive"].contains ·)
    | _ => []
  StringMap.extend .empty
    (("timeout",toString (seconds (size attrs) (timeout attrs))) :: tags.map fun tag => (tag,""))

def tool (name : String) : ConfiguredTargetKey Configuration :=
  ⟨⟨"bazel_tools","tools/test",name⟩,key.configuration⟩

/-- How to run a test with an executable. -/
def register : Except String TestRegistration := do
  let some exe := target.executable
    | throw (labelText key.label ++ ": a test rule must give an executable")
  let setup ← env.files (tool key "test-setup.sh")
  let generateXml ← env.files (tool key "generate-xml.sh")
  let some script := setup.head? | throw "@bazel_tools has no test-setup.sh"
  let args ← allArgs env key attrs target
  let argv := script.execPath :: short exe :: (args ++ key.configuration.testArgs)
  return {
    action := {
      mnemonic := "TestRunner"
      kind := .spawn argv (environment env key attrs target exe) (requirements attrs) []
      inputs := setup ++ generateXml ++ target.extraOutputs.take 1
      outputs := [log env key,xml env key] }
    log := log env key
    xml := xml env key
    size := size attrs
    timeoutSeconds := seconds (size attrs) (timeout attrs)
    tools := [tool key "test-setup.sh",tool key "generate-xml.sh"] }

end Register

section Registers

variable {env : Env} {key : ConfiguredTargetKey Configuration} {attrs : Attrs} {target : Target}
variable {r : TestRegistration}

/-- What is registered is a command that leaves the log and the report of this test. -/
theorem register_ok (h : register env key attrs target = .ok r) : r.log = log env key ∧ r.xml = xml env key ∧
    r.action.mnemonic = "TestRunner" ∧ r.action.outputs = [log env key,xml env key] ∧
    ∃ argv vars requirements lazy, r.action.kind = .spawn argv vars requirements lazy := by
  unfold register at h
  cases hexe : target.executable with
  | none => rw [hexe] at h; cases h
  | some exe =>
    rw [hexe] at h
    cases hsetup : env.files (tool key "test-setup.sh") with
    | error e => rw [hsetup] at h; cases h
    | ok setup =>
      cases hxml : env.files (tool key "generate-xml.sh") with
      | error e => rw [hsetup, hxml] at h; cases h
      | ok generateXml =>
        rw [hsetup, hxml] at h
        cases setup with
        | nil => cases h
        | cons script rest =>
          cases hargs : allArgs env key attrs target with
          | error e => rw [hargs] at h; cases h
          | ok args =>
            rw [hargs] at h
            cases h
            exact ⟨rfl,rfl,rfl,rfl,_,_,_,_,rfl⟩

end Registers

end BuildFiji.TestAction
