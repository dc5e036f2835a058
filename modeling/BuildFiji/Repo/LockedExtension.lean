import BuildFiji.Repo.AttrsReadBack
import BuildFiji.Repo.RecordedInputs

/-!
# Module extensions that ran before

An extension that ran leaves an entry in the lockfile: the digests of its files and of
what the modules that use it said, what it read, and the repositories it made. A later
run takes the repositories from the entry if all of it is as it was, and otherwise runs
the implementation again. Either way what the modules import has to be there.
-/

set_option autoImplicit false
set_option linter.all false

namespace BuildFiji.Replay

open BuildFiji.Bzlmod (Json)

open BuildFiji.Recorded (RecordedInput Layout World Bytes inputIsCurrent recordedText)

structure GeneratedRepo where
  name : String
  rule : String
  attrs : List (String × RepoAttr)
  location : String

inductive MetaDeps where
  | unset
  | all
  | list (names : List String)
  deriving DecidableEq

structure MetadataOut where
  direct : MetaDeps
  dev : MetaDeps
  facts : List (String × Json)
  reproducible : Bool

/-- What running an extension made. No name is generated twice. -/
structure ExtensionOutput where
  repos : List GeneratedRepo
  recorded : List RecordedInput
  metadata : Option MetadataOut
  reproducible : Bool
  osDependent : Bool
  archDependent : Bool
  names_nodup : (repos.map GeneratedRepo.name).Nodup

/-- One `use_extension`: what it imports as what, and what the root module put in the
place of the extension's own repositories. -/
structure Usage where
  isRoot : Bool
  devDependency : Bool
  imports : List (String × String)
  repoOverrides : List String
  location : String

/-- What the resolution says of an extension. -/
structure Extension where
  extensionId : String
  lockId : Option String
  name : String
  bzlFile : String
  prefixName : String
  usages : List Usage
  usagesDigest : String
  repoMapping : List String → List (String × String)
  location : String

structure LockedExtension where
  id : String
  factors : String
  entry : Json

structure Generated where
  repo : GeneratedRepo
  extensionId : String

structure State where
  previous : List LockedExtension
  locked : List LockedExtension
  mappings : String → Option (List (String × String))
  generated : String → Option Generated

/-- What a run meets: files and variables, the `.bzl` file with its digest and the names
it looked up as it loaded, and what the implementation does. -/
structure Session where
  layout : Layout
  sha256 : Bytes → Bytes
  world : World
  os : String
  arch : String
  bzlDigest : Option String
  lookups : List (String × String × String)
  loaded : Except String Bool
  implementation : Except String ExtensionOutput

def Extension.repoName (e : Extension) (name : String) : String := e.prefixName ++ "+" ++ name

section Locked

def metadataJson (said : MetadataOut) : Option Json :=
  if said.direct = .unset ∧ said.dev = .unset ∧ said.facts.isEmpty then none
  else
    let names : String → MetaDeps → List (String × Json) := fun field deps =>
      match deps with
      | .list names => [(field,.array (names.map .string))]
      | _ => []
    let useAll := if said.direct = .all then "REGULAR" else if said.dev = .all then "DEV" else "NO"
    some (.object (
      (if useAll = "NO" then
        names "explicitRootModuleDirectDeps" said.direct ++
          names "explicitRootModuleDirectDevDeps" said.dev
      else []) ++ [("useAllRepos",.string useAll),("reproducible",.bool said.reproducible)]))

variable (e : Extension) (session : Session)

def factorsOf (made : ExtensionOutput) : String :=
  match made.osDependent, made.archDependent with
  | false, false => "general"
  | true, false => "os:" ++ session.os
  | false, true => "arch:" ++ session.arch
  | true, true => "os:" ++ session.os ++ ",arch:" ++ session.arch

/-- Each text once, where it first comes. -/
def recordedTexts (made : ExtensionOutput) : List String :=
  let mapped := session.lookups.map fun (repo,apparent,canonical) =>
    "REPO_MAPPING:" ++ repo ++ "," ++ apparent ++ " " ++ canonical
  let read := made.recorded.filterMap fun input =>
    (recordedText session.layout input).map String.ofList
  (mapped ++ read).foldl (fun all text => if all.contains text then all else all ++ [text]) []

def repoSpec (repo : GeneratedRepo) : Json :=
  .object [("repoRuleId",.string repo.rule),
    ("attributes",.object (repo.attrs.filterMap fun a => (repoAttrJson a.2).map fun json => (a.1,json)))]

/-- Nothing for an extension that is reproducible. -/
def lockedEntry (made : ExtensionOutput) : Option LockedExtension :=
  if made.reproducible then none
  else e.lockId.map fun id => {
    id := id
    factors := factorsOf session made
    entry := .object ([
      ("bzlTransitiveDigest",.string (session.bzlDigest.getD "")),
      ("usagesDigest",.string e.usagesDigest),
      ("recordedInputs",.array ((recordedTexts session made).map .string)),
      ("generatedRepoSpecs",.object (made.repos.map fun repo => (repo.name,repoSpec repo)))] ++
      ((made.metadata.bind metadataJson).map fun json => ("moduleExtensionMetadata",json)).toList) }

def fieldOf (fields : List (String × Json)) (name : String) : Option Json :=
  (fields.find? fun f => f.1 == name).map Prod.snd

def isText (json : Option Json) (text : String) : Bool := (json.bind stringOf).any (· == text)

def inputsAreCurrent : Option Json → Bool
  | some (.array inputs) => inputs.all fun input =>
    (stringOf input).any fun t => inputIsCurrent session.layout session.sha256 session.world t.toList
  | _ => false

def isCurrent (digest : String) (candidate : LockedExtension) : Bool :=
  match candidate.entry with
  | .object fields => isText (fieldOf fields "bzlTransitiveDigest") digest &&
      isText (fieldOf fields "usagesDigest") e.usagesDigest &&
      inputsAreCurrent session (fieldOf fields "recordedInputs")
  | _ => false

def isHere (factors : String) : Bool :=
  factors == "general" || factors == "os:" ++ session.os || factors == "arch:" ++ session.arch ||
    factors == "os:" ++ session.os ++ ",arch:" ++ session.arch

def lockedHit (previous : List LockedExtension) : Option LockedExtension := do
  let id ← e.lockId
  let candidates := previous.filter fun p => p.id == id && isHere session p.factors
  let digest ← session.bzlDigest
  candidates.find? (isCurrent e session digest)

def lockedRepo (name : String) : Json → Option GeneratedRepo
  | .object spec =>
    match fieldOf spec "repoRuleId" with
    | some (.string rule) => some {
        name := name
        rule := rule
        attrs :=
          match fieldOf spec "attributes" with
          | some (.object attrs) => attrs.filterMap fun a =>
              (repoAttrFromJson a.2).map fun attr => (a.1,attr)
          | _ => []
        location := "" }
    | _ => none
  | _ => none

/-- The repositories that an entry names. -/
def lockedRepos (hit : LockedExtension) : List GeneratedRepo :=
  match hit.entry with
  | .object fields =>
    match fieldOf fields "generatedRepoSpecs" with
    | some (.object specs) => specs.filterMap fun s => lockedRepo s.1 s.2
    | _ => []
  | _ => []

end Locked

section Run

variable (e : Extension) (session : Session)

def notGenerated (usage : Usage) (missing : String × String) : String :=
  "module extension " ++ e.extensionId ++ " does not generate repository \"" ++ missing.2 ++
    "\", yet it is imported as \"" ++ missing.1 ++ "\" in the usage at " ++ usage.location

/-- The first import of what is not there is reported. -/
def checkImports (there : String → Bool) : Except String Unit :=
  match e.usages.findSome? fun u => (u.imports.find? fun i => !there i.2).map fun i => (u,i) with
  | some (usage,missing) => .error (notGenerated e usage missing)
  | none => .ok ()

/-- What the root module put in the place of repositories of the extension. -/
def replaced : List String := (e.usages.filter Usage.isRoot).flatMap Usage.repoOverrides

def namedDeps (generated : List String) : MetaDeps → List String
  | .unset => []
  | .all => generated
  | .list names => names

def checkListed (what : String) (generated : List String) : MetaDeps → Except String Unit
  | .list names =>
    match names.filter fun n => !generated.contains n with
    | [] => .ok ()
    | missing => .error (what ++ " contained the following repositories not generated by the " ++
        "extension: " ++ ", ".intercalate missing)
  | _ => .ok ()

def checkMetadata (made : ExtensionOutput) : Except String Unit :=
  match made.metadata with
  | none => .ok ()
  | some said => do
    let roots := e.usages.filter Usage.isRoot
    if roots.isEmpty then return ()
    let generated := made.repos.map GeneratedRepo.name
    if !(namedDeps generated said.direct).isEmpty && !(roots.any fun u => !u.devDependency) then
      throw ("root_module_direct_deps must be empty if the root module contains no usages with " ++
        "dev_dependency = False")
    if !(namedDeps generated said.dev).isEmpty && !(roots.any fun u => u.devDependency) then
      throw ("root_module_direct_dev_deps must be empty if the root module contains no usages " ++
        "with dev_dependency = True")
    checkListed "root_module_direct_deps" generated said.direct
    checkListed "root_module_direct_dev_deps" generated said.dev

def insertRepo (rows : List (String × String)) (s : State) (repo : GeneratedRepo) : State :=
  { s with
    mappings := Function.update s.mappings (e.repoName repo.name) (some rows)
    generated := Function.update s.generated (e.repoName repo.name) (some ⟨repo,e.extensionId⟩) }

/-- The repositories are known by their names, and each sees the others. -/
def insertRepos (s : State) (repos : List GeneratedRepo) : State :=
  repos.foldl (insertRepo e (e.repoMapping (repos.map GeneratedRepo.name))) s

def replay (s : State) (hit : LockedExtension) : Except String State := do
  let repos := lockedRepos hit
  checkImports e fun exported => (repos.map GeneratedRepo.name).contains exported
  return insertRepos e { s with locked := s.locked ++ [hit] } repos

def runImplementation (s : State) : Except String State := do
  let made ← session.implementation
  checkImports e fun exported =>
    (made.repos.any fun r => r.name == exported) || (replaced e).contains exported
  checkMetadata e made
  return insertRepos e { s with locked := s.locked ++ (lockedEntry e session made).toList } made.repos

def runExtension (s : State) : Except String State := do
  let found ← session.loaded.mapError fun message => "Error loading '" ++ e.bzlFile ++
    "' for module extensions, requested by " ++ e.location ++ ": " ++ message ++ ": " ++ message
  if !found then
    throw (e.bzlFile ++ " does not export a module extension called " ++ e.name ++
      ", yet its use is requested at " ++ e.location)
  match lockedHit e session s.previous with
  | some hit => replay e s hit
  | none => runImplementation e session s

end Run

end BuildFiji.Replay
