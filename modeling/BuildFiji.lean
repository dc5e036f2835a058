import BuildFiji.Engine.MemoRun
import BuildFiji.Engine.TaskEnds
import BuildFiji.Repo.LockedInput
import BuildFiji.Cli.LeftOptions
import BuildFiji.Engine.TaskGets
import BuildFiji.Analysis.OutputDirs
import BuildFiji.Bzlmod.LockfileText
import BuildFiji.Bzlmod.Extensions
import BuildFiji.Bzlmod.SemVer
import BuildFiji.Bzlmod.ModuleRepos
import BuildFiji.Remote.MerkleOrder
import BuildFiji.Starlark.DepsetBuild
import BuildFiji.Query.Reach
import BuildFiji.Query.RoundTrip
import BuildFiji.Query.Fuelled
import BuildFiji.Starlark.LoaderCycles
import BuildFiji.Exec.ActionKey
import BuildFiji.Exec.SchedulerReports
import BuildFiji.Graph.Paths
import BuildFiji.Starlark.ActionOutputs
import BuildFiji.Analysis.OutputsAgree
import BuildFiji.Repo.DownloadChecked
import BuildFiji.Analysis.RuleDepsShown
import BuildFiji.Analysis.AspectSees
import BuildFiji.Cli.BuiltTargets
import BuildFiji.Cli.TestResults
import BuildFiji.Repo.KeptUpToDate
import BuildFiji.Repo.ExtensionReplay
import BuildFiji.Repo.MakingBounds
import BuildFiji.Graph.ExpandAgrees
import BuildFiji.Graph.Pattern
import BuildFiji.Graph.ShellWords
import BuildFiji.Graph.Visibility
import BuildFiji.Graph.Suite
import BuildFiji.Graph.Conflicts
import BuildFiji.Analysis.Select
import BuildFiji.Loading.ResolveSubtracts
import BuildFiji.Query.Ordered
import BuildFiji.Analysis.TransitionReads
import BuildFiji.Archive.UnifiedApplied
import BuildFiji.Remote.MerkleInputs
import BuildFiji.Exec.Slots
import BuildFiji.Query.Factored
import BuildFiji.Starlark.JsonIndent
import BuildFiji.Starlark.ArgsExpanded
import BuildFiji.Query.ProtoJson
import BuildFiji.Rc.Printed
import BuildFiji.Rc.Announced
import BuildFiji.Repo.RecordedExactly
import BuildFiji.Repo.HelperAsked
import BuildFiji.Repo.OwnTags
import BuildFiji.Analysis.RepoMapping
import BuildFiji.Cli.ProgramArgs
import BuildFiji.Cli.RunFlags
import BuildFiji.Graph.ConflictsDropped
import BuildFiji.Exec.Execroot
import BuildFiji.Cli.TestLogs
import BuildFiji.Analysis.ToolchainChosen
import BuildFiji.Loading.Wildcard
import BuildFiji.Exec.CriticalPath
import BuildFiji.Exec.RunfilesManifest
import BuildFiji.Starlark.CcFeatures
import BuildFiji.Starlark.CcVariables
import BuildFiji.Loading.Glob
import BuildFiji.Loading.GlobWalk
import BuildFiji.Loading.GlobFound
import BuildFiji.Loading.GlobResult
import BuildFiji.Loading.Globs
import BuildFiji.Loading.Packages
