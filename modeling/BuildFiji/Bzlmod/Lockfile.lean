import BuildFiji.Bzlmod.Module
import BuildFiji.Lib.Framing

/-!
# The lockfile

One run's dealings with `MODULE.bazel.lock`: what it said before, and what the
run has read, which is what gets written. Registry files are checked against the
hashes of the previous lockfile, and a file whose hash is known is taken from the
repository cache before the network is asked. Local files and `metadata.json`
pass through untouched.
-/

set_option autoImplicit false
set_option linter.all false

namespace BuildFiji.Bzlmod

inductive LockfileMode where
  | off
  | update
  | refresh
  | error
deriving DecidableEq

def LockfileMode.writes : LockfileMode → Bool
  | .update => true
  | .refresh => true
  | _ => false

inductive FileHash where
  | sha256 (hex : String)
  | notFound
deriving DecidableEq

/-- JSON with its object keys in the order they were read. -/
inductive Json where
  | null
  | bool (b : Bool)
  | number (text : String)
  | string (s : String)
  | array (items : List Json)
  | object (entries : List (String × Json))

def Json.entries : Json → List (String × Json)
  | .object entries => entries
  | _ => []

inductive Unusable where
  | malformed
  | version (version : ℕ)
deriving DecidableEq

structure Lockfile where
  registryFileHashes : Std.ExtTreeMap String FileHash
  selectedYankedVersions : List (String × String)
  moduleExtensions : Json
  facts : Json
  factsVersions : Json

def Lockfile.default : Lockfile := ⟨∅,[],.object [],.object [],.object []⟩

structure LockSession where
  mode : LockfileMode
  previous : Option Lockfile
  unusable : Option Unusable
  extensions : Option (Json × List String)
  facts : List (String × Json)
  repositoryCache : Option String

namespace LockSession

/-- A run that starts from what the text of the lockfile was read as. -/
def new (mode : LockfileMode) (existing : Option (Except Unusable Lockfile)) :
    Except BzlmodError LockSession :=
  let (previous,unusable) := match existing with
    | some (.ok lockfile) => (some lockfile,none)
    | some (.error why) => (none,some why)
    | none => (none,none)
  if mode = .error ∧ unusable.isSome then
    .error (.lockfile ("The version of MODULE.bazel.lock is not supported by this version of " ++
      "Bazel. Please run `bazel mod deps --lockfile_mode=update` to update your lockfile."))
  else .ok ⟨mode,previous,unusable,none,[],none⟩

variable (session : LockSession)

def previousHash (url : String) : Option FileHash :=
  session.previous.bind fun previous => previous.registryFileHashes[url]?

/-- `PathBuf::join`. -/
def joinPath (base part : String) : String :=
  if part.toList.head? = some '/' then part
  else if base = "" ∨ base.toList.getLast? = some '/' then base ++ part
  else base ++ "/" ++ part

def cacheFile (hex : String) : Option String :=
  session.repositoryCache.map fun dir =>
    joinPath (joinPath (joinPath (joinPath dir "content_addressable") "sha256") hex) "file"

def recordedMissing (url : String) : Bool :=
  session.mode != .refresh && session.previousHash url == some .notFound

def stripPrefix (start text : List Char) : Option (List Char) :=
  if start.isPrefixOf text then some (text.drop start.length) else none

/-- What the lockfile has of a module's yanked versions stands in for reading
`metadata.json`. -/
def lockedYanked (module : String) : Option (List (String × String)) :=
  if session.mode = .refresh then none
  else
    session.previous.bind fun previous =>
      let found := previous.selectedYankedVersions.filterMap fun entry =>
        (stripPrefix (module ++ "@").toList entry.1.toList).map fun version =>
          (String.ofList version,entry.2)
      if found = [] then none else some found

/-- The previous facts of what the graph still uses, with what this run kept. -/
def mergedFacts (previous : Json) : Json :=
  let used := session.extensions.map Prod.snd
  if session.facts = [] ∧ used.isNone then previous
  else
    let stay := previous.entries.filter fun entry => used.all fun used => used.contains entry.1
    .object ((stay ++ session.facts).foldl (fun merged entry => merged.insert entry.1 entry.2)
      (∅ : Std.ExtTreeMap String Json)).toList

/-- The previous results of what the graph still uses, with what this run
evaluated, by id and factors. -/
def mergedModuleExtensions (previous : Json) : Json :=
  match session.extensions with
  | none => previous
  | some (evaluated,used) =>
    let stay := previous.entries.filter fun entry => used.contains entry.1
    let merged := (stay ++ evaluated.entries).foldl (fun merged entry =>
      merged.insert entry.1 (entry.2.entries.foldl (fun factors factor =>
        factors.insert factor.1 factor.2) (merged[entry.1]?.getD ∅)))
      (∅ : Std.ExtTreeMap String (Std.ExtTreeMap String Json))
    .object (merged.toList.map fun entry => (entry.1,.object entry.2.toList))

/-- The lockfile a run ends up with. -/
def finish (touched : Std.ExtTreeMap String FileHash) (selectedYanked : List (ModuleKey × String)) :
    Lockfile :=
  let previous := session.previous.getD .default
  { registryFileHashes := touched
    selectedYankedVersions := selectedYanked.map fun entry => (entry.1.toString,entry.2)
    moduleExtensions := session.mergedModuleExtensions previous.moduleExtensions
    facts := session.mergedFacts previous.facts
    factsVersions := previous.factsVersions }

end LockSession

abbrev Bytes := List UInt8

/-- The file system, as the repository cache uses it. A write may fail, or leave
only part of the file. -/
structure Disk (σ : Type) where
  read : σ → String → Option Bytes
  exists' : σ → String → Bool
  write : σ → String → Bytes → σ

/-- What is the same for the whole of a run. -/
structure LockedRun (σ : Type) where
  session : LockSession
  sha256 : Bytes → Vector UInt8 32
  disk : Disk σ
  inner : String → Except BzlmodError (Option Bytes)
  registry : ℕ → String

/-- What changes: the hashes recorded, the cache, what the network was asked for,
and what each fetcher has already fetched. -/
structure FetchState (σ : Type) where
  touched : Std.ExtTreeMap String FileHash
  disk : σ
  asked : List String
  bodies : ℕ → Std.ExtTreeMap String (Option Bytes)

abbrev Fetched := Except BzlmodError (Option Bytes)

namespace LockedRun

section Fetch
variable {σ : Type} (run : LockedRun σ)

def sha256Hex (bytes : Bytes) : String := .ofList (Framing.hex (run.sha256 bytes).toList)

def passesThrough (url : String) : Bool :=
  "file://".toList.isPrefixOf url.toList || url.toList.head? == some '/' ||
    "/metadata.json".toList.isSuffixOf url.toList

def askInner (url : String) (s : FetchState σ) : Fetched × FetchState σ :=
  (run.inner url,{ s with asked := s.asked ++ [url] })

def record (url : String) (hash : FileHash) (s : FetchState σ) : FetchState σ :=
  { s with touched := s.touched.insert url hash }

/-- Keep bytes in the cache under their hash, unless it has them. -/
def cachePut (hex : String) (bytes : Option Bytes) (s : FetchState σ) : FetchState σ :=
  match run.session.cacheFile hex, bytes with
  | some file, some bytes =>
    if run.disk.exists' s.disk file then s
    else { s with disk := run.disk.write s.disk file bytes }
  | _, _ => s

def hashOf : Option Bytes → FileHash
  | some bytes => .sha256 (run.sha256Hex bytes)
  | none => .notFound

def checksumError (registry url wanted : String) (actual : Option String) : BzlmodError :=
  .registry registry ("Failed to fetch registry file " ++ url ++ ": Checksum was " ++
    actual.getD "not found" ++ " but wanted " ++ wanted)

/-- The cache has it, or the network does. -/
def fetchCached (url wanted : String) (s : FetchState σ) : Fetched × FetchState σ :=
  match (run.session.cacheFile wanted).bind (run.disk.read s.disk) with
  | some bytes => (.ok (some bytes),s)
  | none => run.askInner url s

def fetchWanted (registry url wanted : String) (s : FetchState σ) : Fetched × FetchState σ :=
  match run.fetchCached url wanted s with
  | (.error e,s) => (.error e,s)
  | (.ok fetched,s) =>
    let actual := fetched.map run.sha256Hex
    if actual ≠ some wanted then (.error (checksumError registry url wanted actual),s)
    else (.ok fetched,run.cachePut wanted fetched (record url (.sha256 wanted) s))

def fetchUnknown (url : String) (s : FetchState σ) : Fetched × FetchState σ :=
  if run.session.mode = .error then
    (.error (.lockfile ("Missing checksum for registry file " ++ url ++
      " not permitted with --lockfile_mode=error. Please run `bazel mod deps " ++
      "--lockfile_mode=update` to update your lockfile.")),s)
  else
    match run.askInner url s with
    | (.error e,s) => (.error e,s)
    | (.ok fetched,s) =>
      let s := record url (run.hashOf fetched) s
      (.ok fetched,match fetched with
        | some bytes => run.cachePut (run.sha256Hex bytes) (some bytes) s
        | none => s)

def fetchOnce (registry url : String) (s : FetchState σ) : Fetched × FetchState σ :=
  if passesThrough url then run.askInner url s
  else
    match run.session.previousHash url with
    | some .notFound =>
      if run.session.mode ≠ .refresh then (.ok none,record url .notFound s)
      else run.fetchUnknown url s
    | some (.sha256 wanted) => run.fetchWanted registry url wanted s
    | none => run.fetchUnknown url s

/-- One of the fetchers of the run, by its number. -/
def fetch (i : ℕ) (url : String) (s : FetchState σ) : Fetched × FetchState σ :=
  match (s.bodies i)[url]? with
  | some done => (.ok done,s)
  | none =>
    match run.fetchOnce (run.registry i) url s with
    | (.error e,s) => (.error e,s)
    | (.ok fetched,s) =>
      (.ok fetched,{ s with bodies := Function.update s.bodies i ((s.bodies i).insert url fetched) })

def fetchAll : List (ℕ × String) → FetchState σ → List (String × Fetched) × FetchState σ
  | [], s => ([],s)
  | (i,url)::rest, s =>
    let (fetched,s) := run.fetch i url s
    let (outcomes,s) := fetchAll rest s
    ((url,fetched)::outcomes,s)

def start (disk : σ) : FetchState σ := ⟨∅,disk,[],fun _ => ∅⟩

end Fetch

end LockedRun

end BuildFiji.Bzlmod
