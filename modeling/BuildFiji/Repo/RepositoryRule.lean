import BuildFiji.Graph.Configuration
import BuildFiji.Lib.Machine
import BuildFiji.Repo.MarkerText

/-!
# Repositories that are made or kept

A repository rule asks for variables, for what repository names mean and for files
outside its own directory, and what it makes depends on the answers. What it read is
noted with the repository, which is kept for as long as that is as it was. Variables
and files that are read are noted; names of repositories in labels, templates, patches
and archives are not.
-/

set_option autoImplicit false
set_option linter.all false

namespace BuildFiji.Recorded

open BuildFiji.Framing

open BuildFiji.Graph.Configuration (utf8)

structure Path where
  names : Names
  proper : Proper names

inductive FileOp where
  | read
  | template
  | extract
  | patch
  deriving DecidableEq

inductive Ask where
  | getenv (name : Text)
  | label (repo apparent : Text)
  | file (op : FileOp) (path : Path)

/-- A rule ends with what its repository holds or fails, and until then goes on with
what it is told. -/
inductive Program (γ : Type) where
  | done (contents : γ)
  | fail
  | getenv (name : Text) (next : Option Text → Program γ)
  | label (repo apparent : Text) (next : Option Text → Program γ)
  | file (op : FileOp) (path : Path) (next : Bytes → Program γ)

namespace Program

variable {γ : Type} (sha256 : Bytes → Bytes) (world : World)

/-- A file that is not there fails the rule. -/
def result : Program γ → Option γ
  | done contents => some contents
  | fail => none
  | getenv name next => result (next (world.environ name))
  | label repo apparent next => result (next (world.mapping repo apparent))
  | file _ path next =>
    match world.files path.names with
    | none => none
    | some bytes => result (next bytes)

def asks : Program γ → List Ask
  | done _ => []
  | fail => []
  | getenv name next => .getenv name::asks (next (world.environ name))
  | label repo apparent next => .label repo apparent::asks (next (world.mapping repo apparent))
  | file op path next => .file op path::
      match world.files path.names with
      | none => []
      | some bytes => asks (next bytes)

def recorded : Program γ → List RecordedInput → List RecordedInput
  | done _, inputs => inputs
  | fail, inputs => inputs
  | getenv name next, inputs =>
    recorded (next (world.environ name)) (push inputs (.env name (world.environ name)))
  | label repo apparent next, inputs => recorded (next (world.mapping repo apparent)) inputs
  | file op path next, inputs =>
    match world.files path.names with
    | none => inputs
    | some bytes => recorded (next bytes)
        (if op = .read then push inputs (.file path.names (hex (sha256 bytes))) else inputs)

end Program

/-- What a rule is: the file that defines it with all it loads, as its digest, says what
it does with attributes, whose `Debug` text tells them apart. -/
structure Rules (γ α : Type) where
  code : Bytes → Bytes → Vector UInt8 32 → α → Program γ
  debug : α → Bytes
  debug_injective : Function.Injective debug

/-- One run: the rule and its attributes, how things are, and what is left of the
repository if the run fails. -/
structure Setup (γ α : Type) (layout : Layout) (rules : Rules γ α) where
  ruleId : Bytes
  repoName : Bytes
  digest : Option (Vector UInt8 32)
  attrs : α
  isLocal : Bool
  program : Program γ
  leftover : Option γ
  world : World
  ruleId_nul : 0 ∉ ruleId
  repoName_nul : 0 ∉ repoName
  coded : ∀ d, digest = some d → program = rules.code ruleId repoName d attrs
  linked : Linked layout world

/-- A repository, its marker, and the run that made it, which nothing looks at. -/
structure State (γ α : Type) (layout : Layout) (rules : Rules γ α) where
  repo : Option γ
  marker : Option Text
  made : Option (Setup γ α layout rules)

section Make

variable {γ α : Type} {layout : Layout} {rules : Rules γ α} (sha256 : Bytes → Bytes)

def markerBytes (setup : Setup γ α layout rules) (digest : Vector UInt8 32) : Bytes :=
  utf8 "fjfj-marker-1" ++ 0::setup.ruleId ++ 0::setup.repoName ++ 0::digest.toList ++
    rules.debug setup.attrs

def markerKey (setup : Setup γ α layout rules) : Option Text :=
  setup.digest.map fun d => hex (sha256 (markerBytes setup d))

def kept (s : State γ α layout rules) (setup : Setup γ α layout rules) : Bool :=
  !setup.isLocal && s.repo.isSome && (markerKey sha256 setup).any fun key =>
    s.marker.any fun marker => markerIsCurrent layout sha256 setup.world marker key

def makeUnguarded (s : State γ α layout rules) (setup : Setup γ α layout rules) :
    State γ α layout rules :=
  if kept sha256 s setup then s
  else
    match setup.program.result setup.world with
    | none => ⟨setup.leftover,none,none⟩
    | some contents => {
        repo := some contents
        marker :=
          if setup.isLocal then none
          else (markerKey sha256 setup).bind fun key =>
            writeMarker layout key (setup.program.recorded sha256 setup.world [])
        made := some setup }

def next (s : State γ α layout rules) (setup : Setup γ α layout rules) :
    Option (State γ α layout rules) := some (makeUnguarded sha256 s setup)

def nothing : State γ α layout rules := ⟨none,none,none⟩

/-- What is kept is what running the rule now would make. -/
def UpToDate (s : State γ α layout rules) (setup : Setup γ α layout rules) : Prop :=
  kept sha256 s setup = true →
    ∃ contents, s.repo = some contents ∧ setup.program.result setup.world = some contents

/-- Of what the run that made the repository asked for, what is not noted, or noted in
a way that does not read back, is as it was, and no two different things compared have
one digest. -/
structure Watched (made now : Setup γ α layout rules) : Prop where
  labels : ∀ repo apparent, .label repo apparent ∈ made.program.asks made.world →
    now.world.mapping repo apparent = made.world.mapping repo apparent
  files : ∀ op path, .file op path ∈ made.program.asks made.world → op ≠ .read →
    now.world.files path.names = made.world.files path.names
  environ : ∀ name, .getenv name ∈ made.program.asks made.world →
    ReadsBack name (made.world.environ name) ∨ now.world.environ name = made.world.environ name
  keys : ∀ d d', made.digest = some d → now.digest = some d' →
    sha256 (markerBytes now d') = sha256 (markerBytes made d) →
    markerBytes now d' = markerBytes made d
  contents : ∀ path old new, .file .read path ∈ made.program.asks made.world →
    made.world.files path.names = some old → now.world.files path.names = some new →
    sha256 new = sha256 old → new = old

def AllWatched (s : State γ α layout rules) (now : Setup γ α layout rules) : Prop :=
  kept sha256 s now = true → ∀ made, s.made = some made → Watched sha256 made now

end Make

section Copies

def copyLayout : Layout := ⟨[['w']],[['o'],['e']],none,none⟩

def copied : Path := ⟨[['w'],['t']],by unfold Proper; decide⟩

/-- What it makes is what the file holds, however that is read. -/
def copyRules (op : FileOp) : Rules Bytes Unit where
  code := fun _ _ _ _ => .file op copied .done
  debug := fun _ => []
  debug_injective := fun _ _ _ => rfl

def copyRun (op : FileOp) (bytes : Bytes) : Setup Bytes Unit copyLayout (copyRules op) where
  ruleId := utf8 "@@//:copy.bzl%copy"
  repoName := utf8 "copy"
  digest := some (Vector.replicate 32 0)
  attrs := ()
  isLocal := false
  program := .file op copied .done
  leftover := none
  world := ⟨fun _ => none,fun path => if path = copied.names then some bytes else none,fun _ _ => none⟩
  ruleId_nul := by decide
  repoName_nul := by decide
  coded := fun _ _ => rfl
  linked := ⟨nofun,nofun⟩

end Copies

end BuildFiji.Recorded
