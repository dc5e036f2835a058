import BuildFiji.Cli.Extractors
import BuildFiji.Cli.OptionGate
import BuildFiji.Lib.Fallible

/-!
# The options of `build`, `test` and `run`

The words before the marker go through the gate and then through all the extractors. What
is left should be patterns. The gate knows which flags need a value; which value it may be,
and by which of its names a flag is found, each extractor decides for itself.
-/

set_option autoImplicit false
set_option linter.all false

namespace BuildFiji.Flags

open BuildFiji.Scan BuildFiji.Fallible

open BuildFiji.Graph (splitOnce PatternContext TargetPattern)

section Implemented

def aliasImplemented : List String :=
  ["flag_alias"]

def buildImplemented : List String :=
  ["compilation_mode","platforms","extra_toolchains","extra_execution_platforms","host_platform",
    "toolchain_resolution_debug","action_env","aspects","output_groups","cpu","define","jobs",
    "spawn_strategy","symlink_prefix","show_result","build","skip_incompatible_explicit_targets",
    "experimental_platform_in_output_dir","experimental_override_platform_cpu_name",
    "experimental_convenience_symlinks","expand_test_suites","enable_runfiles",
    "build_runfile_links","legacy_external_runfiles","strip","stamp","collect_code_coverage",
    "force_pic","save_temps","fission","host_javacopt","java_runtime_version",
    "tool_java_runtime_version","java_language_version","tool_java_language_version",
    "experimental_strict_java_deps","copt","cxxopt","conlyopt","linkopt","host_copt","javacopt",
    "custom_malloc","proto_compiler","proto_toolchain_for_cc","proto_toolchain_for_java",
    "java_launcher","fdo_profile","cs_fdo_profile","xbinary_fdo","memprof_profile",
    "propeller_optimize","fdo_prefetch_hints","grte_top","fdo_optimize"]

def testImplemented : List String :=
  ["test_output","test_env","test_arg","cache_test_results"]

def runImplemented : List String :=
  ["run_under","script_path"]

def diagnosticsImplemented : List String :=
  ["keep_going","verbose_failures","subcommands","explain","verbose_explanations"]

def workspaceStatusImplemented : List String :=
  ["workspace_status_command","stamp","embed_label"]

def miscImplemented : List String :=
  ["check_visibility","memory_profile","enable_bzlmod","incompatible_strict_action_env",
    "slim_profile","experimental_profile_include_target_label",
    "experimental_profile_include_primary_output","announce_rc"]

def outputFilterImplemented : List String :=
  ["output_filter","auto_output_filter"]

def executionLogImplemented : List String :=
  ["execution_log_compact_file"]

def remoteImplemented : List String :=
  ["remote_grpc_log","remote_cache_compression","experimental_remote_cache_compression_threshold"]

def besImplemented : List String :=
  ["build_event_publish_all_actions","bes_results_url","bes_timeout"]

def bzlmodImplemented : List String :=
  ["registry","allow_yanked_versions","ignore_dev_dependency","override_module","lockfile_mode"]

def consoleImplemented : List String :=
  ["color","curses","show_progress","ui_event_filters"]

def fetchImplemented : List String :=
  ["repository_cache","distdir","override_repository","credential_helper",
    "credential_helper_timeout","experimental_isolated_extension_usages","repo_env"]

/-- `build_family_implemented`, and what `run` adds. -/
def implemented (command : String) : List String :=
  aliasImplemented ++ buildImplemented ++ testImplemented ++ diagnosticsImplemented ++
    workspaceStatusImplemented ++ miscImplemented ++ outputFilterImplemented ++ executionLogImplemented ++
    remoteImplemented ++ besImplemented ++ bzlmodImplemented ++ consoleImplemented ++ fetchImplemented ++
    if command = "run" then runImplemented else []

end Implemented

section Main

/-- What `build_main` has read when the patterns are parsed. -/
structure BuildRequest where
  aliases : AliasTable
  build : BuildFlags
  test : TestFlags
  run : RunFlags
  diagnostics : DiagnosticsFlags
  workspaceStatus : WorkspaceStatusFlags
  misc : MiscFlags
  outputFilter : OutputFilterFlags
  executionLog : ExecutionLogFlags
  remote : RemoteFlags
  bes : BesFlags
  bzlmod : BzlmodFlags
  repo : FetchFlags
  console : ConsoleFlags
  rest : List Word
  patterns : List TargetPattern

variable (t : FlagTable) (command : String)

def negativeText (arg : Word) : String :=
  "Invalid options syntax: " ++ .ofList arg ++ "\nNote: Negative target patterns can only appear after " ++
    "the end of options marker ('--'). Flags corresponding to Starlark-defined build settings always " ++
    "start with '--', not '-'."

def checkNegative (args : List Word) : Except Stop Unit :=
  match args.find? looksLikeNegativePattern with
  | some negative => .error (.commandLine (negativeText negative))
  | none => .ok ()

/-- The words that come to the gate. -/
def optionWords (args : List Word) : Except Stop (AliasTable × List Word) := do
  checkNegative args
  let args ← normalize t command args
  let (aliases,rest) ← extractAliases t args
  return (aliases,rest.map (applyAlias aliases))

/-- `build_main`, as far as the patterns. `offset` is where in the workspace it runs. -/
def buildMain (offset : Except Stop String) (before after : List Word) : Except Stop BuildRequest := do
  let (aliases,rest) ← optionWords t command before
  validate t.flags command (implemented command) rest
  let (build,rest) ← scan (readBuild t command) buildFlags.start rest
  let (test,rest) ← scan (readWith t command testFlags.take) testFlags.start rest
  let (run,rest) ← scan (readRun t command) runFlags.start rest
  let (diagnostics,rest) ← scan (readWith t command diagnosticsFlags.take) diagnosticsFlags.start rest
  let (workspaceStatus,rest) ←
    scan (readWith t command workspaceStatusFlags.take) workspaceStatusFlags.start rest
  let (misc,rest) ← scan (readWith t command miscFlags.take) miscFlags.start rest
  let (outputFilter,rest) ← scan (readWith t command outputFilterFlags.take) outputFilterFlags.start rest
  let (executionLog,rest) ← scan (readWith t command executionLogFlags.take) executionLogFlags.start rest
  let (remote,rest) ← scan (readWith t command remoteFlags.take) remoteFlags.start rest
  let (bes,rest) ← scan (readWith t command besFlags.take) besFlags.start rest
  let (bzlmod,rest) ← scan (readWith t command bzlmodFlags.take) bzlmodFlags.start rest
  let (repo,rest) ← scan readFetch .default rest
  let (console,rest) ← scan (readWith t command consoleFlags.take) consoleFlags.start rest
  let offset ← offset
  let patterns ← (rest ++ after).mapM fun p =>
    (TargetPattern.parse ⟨"",offset⟩ id (.ofList p)).mapError .pattern
  return ⟨aliases,build,test,run,diagnostics,workspaceStatus,misc,outputFilter,executionLog,remote,bes,
    bzlmod,repo,console,rest,patterns⟩

end Main

section Stages

/-- An extractor among the others, with the names of the flags that it reads. -/
structure Named where
  switches : List String
  values : List String
  stage : Stage Word Stop

def Extractor.named {σ : Type} (x : Extractor σ) (read : Word → Reading σ Word Stop) : Named :=
  ⟨x.switches.map Prod.fst,x.values.map Prod.fst,⟨σ,x.start,read⟩⟩

variable (t : FlagTable) (command : String)

def named : List Named :=
  [buildFlags.named (readBuild t command),testFlags.named (readWith t command testFlags.take),
    ⟨[],if command = "run" then runFlags.values.map Prod.fst else [],⟨RunFlags,runFlags.start,readRun t command⟩⟩,
    diagnosticsFlags.named (readWith t command diagnosticsFlags.take),
    workspaceStatusFlags.named (readWith t command workspaceStatusFlags.take),
    miscFlags.named (readWith t command miscFlags.take),
    outputFilterFlags.named (readWith t command outputFilterFlags.take),
    executionLogFlags.named (readWith t command executionLogFlags.take),
    remoteFlags.named (readWith t command remoteFlags.take),
    besFlags.named (readWith t command besFlags.take),
    bzlmodFlags.named (readWith t command bzlmodFlags.take),
    ⟨["experimental_isolated_extension_usages"],["repository_cache","distdir","override_repository",
      "credential_helper","credential_helper_timeout","repo_env"],⟨FetchFlags,.default,readFetch⟩⟩,
    consoleFlags.named (readWith t command consoleFlags.take)]

def stages : List (Stage Word Stop) := (named t command).map Named.stage

end Stages

section Through
variable {t : FlagTable} {command : String}

theorem through_cons {st : Stage Word Stop} {sts : List (Stage Word Stop)} {ws rest left : List Word}
    {s : st.State} (h : scan st.read st.start ws = .ok (s,rest)) (hrest : through sts rest = .ok left) :
    through (st::sts) ws = .ok left := by
  rw [through, List.foldlM_cons, Stage.leave, h]
  exact hrest

/-- What is left for the patterns is what the extractors leave, one after another. -/
theorem buildMain_through {offset : Except Stop String} {before after : List Word} {req : BuildRequest}
    (h : buildMain t command offset before after = .ok req) :
    ∃ ws, optionWords t command before = .ok (req.aliases,ws) ∧
      validate t.flags command (implemented command) ws = .ok () ∧
      through (stages t command) ws = .ok req.rest := by
  rw [buildMain] at h
  obtain ⟨⟨aliases,ws⟩,hwords,h⟩ := bind_ok.mp h
  obtain ⟨⟨⟩,hvalid,h⟩ := bind_ok.mp h
  obtain ⟨⟨build,ws1⟩,h1,h⟩ := bind_ok.mp h
  obtain ⟨⟨test,ws2⟩,h2,h⟩ := bind_ok.mp h
  obtain ⟨⟨run,ws3⟩,h3,h⟩ := bind_ok.mp h
  obtain ⟨⟨diagnostics,ws4⟩,h4,h⟩ := bind_ok.mp h
  obtain ⟨⟨workspaceStatus,ws5⟩,h5,h⟩ := bind_ok.mp h
  obtain ⟨⟨misc,ws6⟩,h6,h⟩ := bind_ok.mp h
  obtain ⟨⟨outputFilter,ws7⟩,h7,h⟩ := bind_ok.mp h
  obtain ⟨⟨executionLog,ws8⟩,h8,h⟩ := bind_ok.mp h
  obtain ⟨⟨remote,ws9⟩,h9,h⟩ := bind_ok.mp h
  obtain ⟨⟨bes,ws10⟩,h10,h⟩ := bind_ok.mp h
  obtain ⟨⟨bzlmod,ws11⟩,h11,h⟩ := bind_ok.mp h
  obtain ⟨⟨repo,ws12⟩,h12,h⟩ := bind_ok.mp h
  obtain ⟨⟨console,rest⟩,h13,h⟩ := bind_ok.mp h
  obtain ⟨place,hplace,h⟩ := bind_ok.mp h
  obtain ⟨patterns,hpatterns,h⟩ := bind_ok.mp h
  obtain rfl := pure_ok.mp h
  refine ⟨ws,hwords,hvalid,?_⟩
  exact through_cons h1 (through_cons h2 (through_cons h3 (through_cons h4 (through_cons h5
    (through_cons h6 (through_cons h7 (through_cons h8 (through_cons h9 (through_cons h10
      (through_cons h11 (through_cons h12 (through_cons h13 rfl))))))))))))

end Through

end BuildFiji.Flags
