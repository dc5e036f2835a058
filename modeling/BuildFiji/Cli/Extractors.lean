import BuildFiji.Cli.OptionSyntax

/-!
# The extractors

Each takes the flags that it knows out of the words and leaves the others, in their order,
to the next one. A flag whose value it cannot read is put back without the value, if that
was a word of its own.
-/

set_option autoImplicit false
set_option linter.all false

namespace BuildFiji.Flags

open BuildFiji.Scan

open BuildFiji.Graph (splitOnce)

/-- What an extractor does with each flag: those that stand alone, and those with a value. -/
structure Extractor (σ : Type) where
  start : σ
  switches : List (String × (FlagMatch → σ → σ))
  values : List (String × (Word → Except Stop (Option (σ → σ))))

namespace Extractor
variable {σ : Type} (x : Extractor σ)

def take (_arg : Word) (m : FlagMatch) : Reading σ Word Stop :=
  match x.switches.lookup m.flag.name with
  | some set => .drop (set m)
  | none =>
    match x.values.lookup m.flag.name with
    | some set =>
      match m.value with
      | some value => .attached value set
      | none => .next (.ok none) set
    | none => .keep

end Extractor

section Set
variable {σ : Type}

/-- Any value will do. -/
def always (set : Word → σ → σ) (value : Word) : Except Stop (Option (σ → σ)) := .ok (some (set value))

/-- The flag is put back if the value cannot be read. -/
def ifRead {β : Type} (read : Word → Option β) (set : β → σ → σ) (value : Word) :
    Except Stop (Option (σ → σ)) := .ok ((read value).map set)

def commaSeparated (value : Word) : List Word := (value.splitOn ',').filter fun part => !part.isEmpty

end Set

section Build

structure BuildFlags where
  compilationMode : Option Word
  cpu : Option Word
  defines : List (Word × Word)
  jobs : Option Word
  spawnStrategy : Option Word
  symlinkPrefix : Option Word
  platforms : Option Word
  extraToolchains : List Word
  extraExecutionPlatforms : List Word
  hostPlatform : Option Word
  toolchainResolutionDebug : Option Word
  actionEnv : List Word
  aspects : List Word
  outputGroups : List Word
  showResult : Option Word
  build : Option Bool
  skipIncompatibleExplicitTargets : Bool
  platformInOutputDir : Bool
  platformNameOverrides : List Word
  switches : List (String × Bool)
  convenienceSymlinks : Option Word
  expandTestSuites : Option Bool
  strip : Option Word
  fission : Option Word
  options : List (String × Word)
  starlarkFlags : List (Word × Word)

def BuildFlags.default : BuildFlags :=
  ⟨none,none,[],none,none,none,none,[],[],none,none,[],[],[],none,none,false,false,[],[],none,none,none,
    none,[],[]⟩

def switchNames : List String :=
  ["stamp","collect_code_coverage","force_pic","save_temps","enable_runfiles","build_runfile_links",
    "legacy_external_runfiles"]

def listOptions : List String :=
  ["copt","cxxopt","conlyopt","linkopt","host_copt","javacopt","host_javacopt"]

def stringOptions : List String :=
  ["java_runtime_version","tool_java_runtime_version","java_language_version",
    "tool_java_language_version","experimental_strict_java_deps"]

def labelOptions : List String :=
  ["custom_malloc","proto_compiler","proto_toolchain_for_cc","proto_toolchain_for_java","java_launcher",
    "fdo_profile","cs_fdo_profile","xbinary_fdo","memprof_profile","propeller_optimize",
    "fdo_prefetch_hints","grte_top","fdo_optimize"]

namespace BuildFlags

def setSwitch (name : String) (m : FlagMatch) (s : BuildFlags) : BuildFlags :=
  { s with switches := (s.switches.filter fun p => p.1 ≠ name) ++ [(name,!m.negated)] }

/-- The last one wins. -/
def setOption (name : String) (value : Word) (s : BuildFlags) : BuildFlags :=
  { s with options := (s.options.filter fun p => p.1 ≠ name) ++ [(name,value)] }

def addOption (name : String) (value : Word) (s : BuildFlags) : BuildFlags :=
  { s with options := s.options ++ [(name,value)] }

def define (p : Word × Word) (s : BuildFlags) : BuildFlags :=
  { s with defines := (s.defines.filter fun q => q.1 ≠ p.1) ++ [p] }

def addStrategy (value : Word) (s : BuildFlags) : BuildFlags :=
  { s with spawnStrategy := some (match s.spawnStrategy with
      | some earlier => earlier ++ ','::value
      | none => value) }

def addStarlark (p : Word × Word) (s : BuildFlags) : BuildFlags :=
  { s with starlarkFlags := s.starlarkFlags ++ [p] }

end BuildFlags

/-- `build_flags`. -/
def buildFlags : Extractor BuildFlags where
  start := .default
  switches :=
    [("build",fun m s => { s with build := some !m.negated }),
      ("skip_incompatible_explicit_targets",fun m s =>
        { s with skipIncompatibleExplicitTargets := !m.negated }),
      ("expand_test_suites",fun m s => { s with expandTestSuites := some !m.negated }),
      ("experimental_platform_in_output_dir",fun m s => { s with platformInOutputDir := !m.negated })] ++
    switchNames.map fun name => (name,BuildFlags.setSwitch name)
  values :=
    [("compilation_mode",always fun v s => { s with compilationMode := some v }),
      ("cpu",always fun v s => { s with cpu := some v }),
      ("platforms",always fun v s => { s with platforms := some v }),
      ("aspects",always fun v s => { s with aspects := s.aspects ++ commaSeparated v }),
      ("output_groups",always fun v s => { s with outputGroups := s.outputGroups ++ commaSeparated v }),
      ("extra_execution_platforms",always fun v s =>
        { s with extraExecutionPlatforms := s.extraExecutionPlatforms ++ commaSeparated v }),
      ("host_platform",always fun v s => { s with hostPlatform := some v }),
      ("strip",always fun v s => { s with strip := some v }),
      ("experimental_convenience_symlinks",always fun v s => { s with convenienceSymlinks := some v }),
      ("fission",always fun v s => { s with fission := some v }),
      ("experimental_override_platform_cpu_name",always fun v s =>
        { s with platformNameOverrides := s.platformNameOverrides ++ [v] }),
      ("toolchain_resolution_debug",always fun v s => { s with toolchainResolutionDebug := some v }),
      ("action_env",always fun v s => { s with actionEnv := s.actionEnv ++ [v] }),
      ("extra_toolchains",always fun v s =>
        { s with extraToolchains := s.extraToolchains ++ commaSeparated v }),
      ("define",ifRead (splitOnce '=') BuildFlags.define),
      ("jobs",always fun v s => { s with jobs := some v }),
      ("spawn_strategy",always BuildFlags.addStrategy),
      ("symlink_prefix",always fun v s => { s with symlinkPrefix := some v }),
      ("show_result",always fun v s => { s with showResult := some v })] ++
    (labelOptions ++ stringOptions).map (fun name => (name,always (BuildFlags.setOption name))) ++
    listOptions.map fun name => (name,always (BuildFlags.addOption name))

/-- A label after `--` or `--no`. -/
def startsLabel (body : Word) : Bool := "//".toList.isPrefixOf body || "@".toList.isPrefixOf body

/-- A Starlark flag, and what it is set to. -/
def starlarkFlag (arg : Word) : Option (Word × Word) :=
  match arg with
  | '-':: '-'::rest =>
    match (stripNo rest).filter startsLabel with
    | some body => some (body,"false".toList)
    | none =>
      if startsLabel rest then
        let (name,value) := splitValue rest
        some (name,value.getD "true".toList)
      else none
  | _ => none

def readBuild (t : FlagTable) (command : String) (arg : Word) : Reading BuildFlags Word Stop :=
  match starlarkFlag arg with
  | some flag => .drop (BuildFlags.addStarlark flag)
  | none => readWith t command buildFlags.take arg

end Build

section Test

inductive TestOutput where
  | summary
  | errors
  | all
  | streamed
deriving DecidableEq

structure TestFlags where
  output : TestOutput
  env : List Word
  args : List Word
  cacheResults : Option Bool

def setTestOutput (value : Word) : Except Stop (Option (TestFlags → TestFlags)) :=
  let set (output : TestOutput) := Except.ok (some fun s : TestFlags => { s with output := output })
  if value = "summary".toList then set .summary
  else if value = "errors".toList then set .errors
  else if value = "all".toList then set .all
  else if value = "streamed".toList then set .streamed
  else .error (parsing ("--test_output=".toList ++ value) ("Not a valid test output: " ++ .ofList value))

/-- `test_flags`. -/
def testFlags : Extractor TestFlags where
  start := ⟨.summary,[],[],none⟩
  switches := [("cache_test_results",fun m s => { s with cacheResults := some !m.negated })]
  values :=
    [("test_output",setTestOutput),
      ("test_env",always fun v s => { s with env := s.env ++ [v] }),
      ("test_arg",always fun v s => { s with args := s.args ++ [v] })]

end Test

section Run

inductive RunUnder where
  | command (text : Word)
  | target (label : Word) (options : List Word)
deriving DecidableEq

structure RunFlags where
  runUnder : Option RunUnder
  scriptPath : Option Word

/-- The words that are over, and the one that is being read. -/
structure ReadWords where
  words : List Word
  word : Word
  inWord : Bool

namespace ReadWords

def push (s : ReadWords) (c : Char) : ReadWords := { s with word := s.word ++ [c], inWord := true }

def close (s : ReadWords) : ReadWords :=
  if s.inWord then ⟨s.words ++ [s.word],[],false⟩ else s

end ReadWords

def tokenize : Option Char → ReadWords → Word → Except String (List Word)
  | none, s, [] => .ok s.close.words
  | some _, _, [] => .error "unterminated quotation"
  | some q, s, c::cs =>
    if c = q then tokenize none s cs
    else if q = '"' ∧ c = '\\' then
      match cs with
      | [] => .error "unterminated quotation"
      | n::cs => tokenize (some q) (if n = '"' ∨ n = '\\' then s.push n else (s.push '\\').push n) cs
    else tokenize (some q) (s.push c) cs
  | none, s, c::cs =>
    if c = '\x27' ∨ c = '"' then tokenize (some c) { s with inWord := true } cs
    else if c = '\\' then
      match cs with
      | [] => .error "backslash at end of string"
      | n::cs => tokenize none (s.push n) cs
    else if Text.isWhitespace c then tokenize none s.close cs
    else tokenize none (s.push c) cs

def parseRunUnder (value : Word) : Except String RunUnder :=
  match tokenize none ⟨[],[],false⟩ value with
  | .error e => .error ("Not a valid command prefix " ++ e)
  | .ok [] => .error "Empty command"
  | .ok (first::rest) =>
    if startsLabel first then .ok (.target first rest) else .ok (.command value)

def setRunUnder (value : Word) : Except Stop (Option (RunFlags → RunFlags)) :=
  match parseRunUnder value with
  | .ok under => .ok (some fun s => { s with runUnder := some under })
  | .error e => .error (parsing ("--run_under=".toList ++ value) e)

/-- `run_flags`, for `run`. -/
def runFlags : Extractor RunFlags where
  start := ⟨none,none⟩
  switches := []
  values := [("run_under",setRunUnder),("script_path",always fun v s => { s with scriptPath := some v })]

def readRun (t : FlagTable) (command : String) (arg : Word) : Reading RunFlags Word Stop :=
  if command ≠ "run" then .keep else readWith t command runFlags.take arg

end Run

section Diagnostics

structure DiagnosticsFlags where
  keepGoing : Bool
  verboseFailures : Bool
  subcommands : Bool
  prettySubcommands : Bool
  explain : Option Word

/-- `diagnostics_flags`. -/
def diagnosticsFlags : Extractor DiagnosticsFlags where
  start := ⟨false,false,false,false,none⟩
  switches :=
    [("keep_going",fun m s => { s with keepGoing := !m.negated }),
      ("verbose_failures",fun m s => { s with verboseFailures := !m.negated }),
      ("subcommands",fun m s => { s with
        subcommands := !m.negated
        prettySubcommands := !m.negated && m.value == some "pretty_print".toList }),
      ("verbose_explanations",fun _ s => s)]
  values := [("explain",always fun v s => { s with explain := some v })]

end Diagnostics

section Status

structure WorkspaceStatusFlags where
  workspaceStatusCommand : Option Word
  stamp : Bool
  embedLabel : Word

/-- `workspace_status_flags`. -/
def workspaceStatusFlags : Extractor WorkspaceStatusFlags where
  start := ⟨none,false,[]⟩
  switches := [("stamp",fun m s => { s with stamp := !m.negated })]
  values :=
    [("workspace_status_command",always fun v s => { s with workspaceStatusCommand := some v }),
      ("embed_label",always fun v s => { s with embedLabel := v })]

end Status

section Misc

structure MiscFlags where
  checkVisibility : Bool
  memoryProfile : Option Word
  enableBzlmod : Bool
  strictActionEnv : Bool
  slimProfile : Bool
  profileIncludeTargetLabel : Bool
  profileIncludePrimaryOutput : Bool
  announceRc : Bool

/-- `misc_flags`. -/
def miscFlags : Extractor MiscFlags where
  start := ⟨true,none,true,false,true,false,false,false⟩
  switches :=
    [("check_visibility",fun m s => { s with checkVisibility := !m.negated }),
      ("enable_bzlmod",fun m s => { s with enableBzlmod := !m.negated }),
      ("incompatible_strict_action_env",fun m s => { s with strictActionEnv := !m.negated }),
      ("slim_profile",fun m s => { s with slimProfile := !m.negated }),
      ("experimental_profile_include_target_label",fun m s =>
        { s with profileIncludeTargetLabel := !m.negated }),
      ("announce_rc",fun m s => { s with announceRc := !m.negated }),
      ("experimental_profile_include_primary_output",fun m s =>
        { s with profileIncludePrimaryOutput := !m.negated })]
  values := [("memory_profile",always fun v s => { s with memoryProfile := some v })]

end Misc

section Output

inductive AutoOutputFilter where
  | none
  | all
  | packages
  | subpackages
deriving DecidableEq

structure OutputFilterFlags where
  outputFilter : Option Word
  autoOutputFilter : AutoOutputFilter

def AutoOutputFilter.parse (value : Word) : Option AutoOutputFilter :=
  let upper := value.map Char.toUpper
  if upper = "NONE".toList then some .none
  else if upper = "ALL".toList then some .all
  else if upper = "PACKAGES".toList then some .packages
  else if upper = "SUBPACKAGES".toList then some .subpackages
  else .none

/-- `output_filter`. -/
def outputFilterFlags : Extractor OutputFilterFlags where
  start := ⟨none,.none⟩
  switches := []
  values :=
    [("output_filter",always fun v s => { s with outputFilter := some v }),
      ("auto_output_filter",ifRead AutoOutputFilter.parse fun f s => { s with autoOutputFilter := f })]

structure ExecutionLogFlags where
  executionLogCompactFile : Option Word

def nonEmpty (value : Word) : Option Word := if value.isEmpty then none else some value

/-- `execution_log_flags`. -/
def executionLogFlags : Extractor ExecutionLogFlags where
  start := ⟨none⟩
  switches := []
  values := [("execution_log_compact_file",always fun v _ => ⟨nonEmpty v⟩)]

end Output

section Remote

structure RemoteFlags where
  remoteGrpcLog : Option Word
  remoteCacheCompression : Bool
  remoteCacheCompressionThreshold : ℤ

/-- `remote_flags`. -/
def remoteFlags : Extractor RemoteFlags where
  start := ⟨none,false,100⟩
  switches := [("remote_cache_compression",fun m s => { s with remoteCacheCompression := !m.negated })]
  values :=
    [("remote_grpc_log",always fun v s => { s with remoteGrpcLog := nonEmpty v }),
      ("experimental_remote_cache_compression_threshold",ifRead (parseInt 64) fun n s =>
        { s with remoteCacheCompressionThreshold := n })]

/-- In nanoseconds. -/
abbrev Duration := ℕ

def seconds (n : ℕ) : Duration := n*1000000000

/-- `saturating_mul`, of `u64`. -/
def saturatingMul (n factor : ℕ) : ℕ := min (n*factor) (2^64-1)

/-- The digits at the front, as a `u64`, and the unit after them. -/
def numberAndUnit (text : Word) : Option (ℕ × Word) :=
  let unit := text.dropWhile Char.isDigit
  if unit.isEmpty then none else (parseU64 (text.takeWhile Char.isDigit)).map fun n => (n,unit)

/-- `bes_flags::parse_duration`. -/
def parseBesDuration (text : Word) : Option Duration :=
  if text = ['0'] then some 0
  else
    match numberAndUnit text with
    | none => none
    | some (n,unit) =>
      if unit = "ns".toList then some n
      else if unit = "ms".toList then some (n*1000000)
      else if unit = ['s'] then some (seconds n)
      else if unit = ['m'] then some (seconds (saturatingMul n 60))
      else if unit = ['h'] then some (seconds (saturatingMul n 3600))
      else if unit = ['d'] then some (seconds (saturatingMul n 86400))
      else none

structure BesFlags where
  publishAllActions : Bool
  resultsUrl : Word
  timeout : Duration

/-- `bes_flags`. -/
def besFlags : Extractor BesFlags where
  start := ⟨false,[],0⟩
  switches := [("build_event_publish_all_actions",fun m s => { s with publishAllActions := !m.negated })]
  values :=
    [("bes_results_url",always fun v s => { s with resultsUrl := v }),
      ("bes_timeout",ifRead parseBesDuration fun d s => { s with timeout := d })]

end Remote

section Bzlmod

structure BzlmodFlags where
  registry : List Word
  allowYankedVersions : Option Word
  ignoreDevDependency : Bool
  overrideModule : List (Word × Word)
  lockfileMode : Option Word

/-- `bzlmod_flags`. -/
def bzlmodFlags : Extractor BzlmodFlags where
  start := ⟨[],none,false,[],none⟩
  switches := [("ignore_dev_dependency",fun m s => { s with ignoreDevDependency := !m.negated })]
  values :=
    [("registry",always fun v s => { s with registry := s.registry ++ [v] }),
      ("allow_yanked_versions",always fun v s => { s with allowYankedVersions := some v }),
      ("lockfile_mode",always fun v s => { s with lockfileMode := some v }),
      ("override_module",ifRead (splitOnce '=') fun p s =>
        { s with overrideModule := s.overrideModule ++ [p] })]

end Bzlmod

section Fetch

structure CredentialHelper where
  scope : Option Word
  program : Word
deriving DecidableEq

structure FetchFlags where
  repos : List Word
  all : Bool
  outputBase : Option Word
  repositoryCache : Option (Option Word)
  distdirs : List Word
  repoOverrides : List (Word × Word)
  credentialHelpers : List CredentialHelper
  credentialHelperTimeout : Option Duration
  isolatedExtensionUsages : Bool
  repoEnv : List Word

def isDomain (text : Word) : Bool :=
  !text.isEmpty && (text.splitOn '.').all fun label =>
    !label.isEmpty && label.head? ≠ some '-' && label.getLast? ≠ some '-' &&
      label.all fun c => c.isAlphanum || c = '-'

def withoutWildcard : Word → Word
  | '*':: '.'::host => host
  | host => host

def CredentialHelper.parse (value : Word) : Except String CredentialHelper :=
  match splitOnce '=' value with
  | none =>
    if value.isEmpty then .error "Credential helper path must not be empty" else .ok ⟨none,value⟩
  | some (scope,program) =>
    if scope.isEmpty then .error "Credential helper scope must not be empty"
    else if isDomain (withoutWildcard scope) = false then
      .error ("Credential helper scope '" ++ .ofList scope ++
        "' must be a valid domain name with an optional leading '*.' wildcard")
    else if program.isEmpty then .error "Credential helper path must not be empty"
    else .ok ⟨some scope,program⟩

/-- `fetch_command::parse_duration`. A product wraps. -/
def parseFetchDuration (text : Word) : Option Duration :=
  match numberAndUnit text with
  | none => none
  | some (n,unit) =>
    if unit = "ms".toList then some (n*1000000)
    else if unit = ['s'] then some (seconds n)
    else if unit = ['m'] then some (seconds (n*60%2^64))
    else if unit = ['h'] then some (seconds (n*3600%2^64))
    else none

def bad (flag : String) (value : Word) (why : String) : Stop :=
  parsing (("--" ++ flag ++ "=").toList ++ value) why

def orBad {β : Type} (flag : String) (read : Word → Except String β) (set : β → FetchFlags → FetchFlags)
    (value : Word) : Except Stop (Option (FetchFlags → FetchFlags)) :=
  match read value with
  | .ok b => .ok (some (set b))
  | .error why => .error (bad flag value why)

def FetchFlags.default : FetchFlags := ⟨[],false,none,none,[],[],[],none,false,[]⟩

/-- The flags of `fetch_command`. They have one name each. -/
def fetchSwitches : List (String × (FetchFlags → FetchFlags)) :=
  [("all",fun s => { s with all := true }),
    ("noall",fun s => { s with all := false }),
    ("experimental_isolated_extension_usages",fun s => { s with isolatedExtensionUsages := true }),
    ("noexperimental_isolated_extension_usages",fun s => { s with isolatedExtensionUsages := false })]

def fetchValues : List (String × (Word → Except Stop (Option (FetchFlags → FetchFlags)))) :=
  [("repo",always fun v s => { s with repos := s.repos ++ [v] }),
    ("output_base",always fun v s => { s with outputBase := some v }),
    ("repository_cache",always fun v s => { s with repositoryCache := some (nonEmpty v) }),
    ("distdir",always fun v s => { s with distdirs := s.distdirs ++ [v] }),
    ("override_repository",orBad "override_repository"
      (fun v => (splitOnce '=' v).elim
        (.error "Repository overrides must be of the form 'repository-name=path'") .ok)
      fun p s => { s with repoOverrides := s.repoOverrides ++ [p] }),
    ("credential_helper",orBad "credential_helper" CredentialHelper.parse fun h s =>
      { s with credentialHelpers := s.credentialHelpers ++ [h] }),
    ("credential_helper_timeout",orBad "credential_helper_timeout"
      (fun v => (parseFetchDuration v).elim (.error "expected a duration such as 10s, 500ms or 2m") .ok)
      fun d s => { s with credentialHelperTimeout := some d }),
    ("repo_env",always fun v s => { s with repoEnv := s.repoEnv ++ [v] })]

/-- The word is not looked up in the table, and a value that is missing is empty. -/
def readFetch (arg : Word) : Reading FetchFlags Word Stop :=
  match arg with
  | '-':: '-'::body =>
    let (name,inline) := splitValue body
    match fetchSwitches.lookup (.ofList name) with
    | some set => .drop set
    | none =>
      match fetchValues.lookup (.ofList name) with
      | some set =>
        match inline with
        | some value => .attached value set
        | none => .next (.ok (some [])) set
      | none => .keep
  | _ => .keep

end Fetch

section Console

inductive TriState where
  | yes
  | no
  | auto
deriving DecidableEq

def TriState.parse (value : Word) : Option TriState :=
  if lower value = "yes".toList then some .yes
  else if lower value = "no".toList then some .no
  else if lower value = "auto".toList then some .auto
  else none

structure ConsoleFlags where
  color : TriState
  curses : TriState
  showProgress : Bool
  uiEventFilters : List Word

/-- `console_flags`. -/
def consoleFlags : Extractor ConsoleFlags where
  start := ⟨.auto,.auto,true,[]⟩
  switches := [("show_progress",fun m s => { s with showProgress := !m.negated })]
  values :=
    [("color",ifRead TriState.parse fun state s => { s with color := state }),
      ("curses",ifRead TriState.parse fun state s => { s with curses := state }),
      ("ui_event_filters",always fun v s => { s with uiEventFilters := s.uiEventFilters ++ [v] })]

end Console

end BuildFiji.Flags
