import BuildFiji.Bzlmod.Discovery
import BuildFiji.Bzlmod.Lockfile

/-!
# Registries

A registry is a plain index of files under a base URL. Module files come from
the first registry that has them, unless an override names one, and the yanked
versions of a module from the lockfile, if it has any for the name, or from the
first `metadata.json` that there is.
-/

set_option autoImplicit false
set_option linter.all false

namespace BuildFiji.Bzlmod

abbrev YankedVersions := Std.ExtTreeMap Version String

def joinUrl (base : String) (segments : List String) : String :=
  segments.foldl (fun url segment =>
    if url.toList.getLast? ≠ some '/' ∧ segment.toList.head? ≠ some '/' then url ++ "/" ++ segment
    else url ++ segment) base

/-- What the JSON reader makes of a `metadata.json`, or its complaint. -/
structure MetadataJson where
  versions : Option (List String)
  yankedVersions : Option (Std.ExtTreeMap String String)

structure Metadata where
  versions : List String
  yankedVersions : YankedVersions

/-- A registry: its fetcher, its `source.json` reader, and its lockfile run. -/
structure Registry where
  url : String
  fetch : String → Except BzlmodError (Option Bytes)
  repoSpec : ModuleKey → Except BzlmodError Unit
  lock : Option LockSession

namespace Registry
variable (r : Registry)

def moduleFileUrl (key : ModuleKey) : String :=
  joinUrl r.url ["modules",key.name,key.version.normalized,"MODULE.bazel"]

def notFoundNote (key : ModuleKey) : String :=
  if r.lock.any fun lock => lock.recordedMissing (r.moduleFileUrl key) then
    r.moduleFileUrl key ++ ": previously not found (as recorded in MODULE.bazel.lock, refresh with " ++
      "--lockfile_mode=refresh)"
  else r.moduleFileUrl key ++ ": not found"

def moduleFile (key : ModuleKey) : Except BzlmodError (Option String) := do
  match ← r.fetch (r.moduleFileUrl key) with
  | none => return none
  | some bytes =>
    match String.fromUTF8? ⟨bytes.toArray⟩ with
    | some text => return some text
    | none => throw (.registry r.url (r.moduleFileUrl key ++ " is not valid UTF-8"))

def metadataUrl (name : String) : String := joinUrl r.url ["modules",name,"metadata.json"]

/-- The yanked versions by what they are, not by how they are written. -/
def parseYanked (name : String) (yanked : YankedVersions) :
    List (String × String) → Except BzlmodError YankedVersions
  | [] => .ok yanked
  | (version,reason)::rest =>
    match Version.parse version with
    | .ok version => parseYanked name (yanked.insert version reason) rest
    | .error e => .error (.registry r.url
        ("bad yanked version in " ++ r.metadataUrl name ++ ": " ++ e.message))

def metadata (readJson : Bytes → Except String MetadataJson) (name : String) :
    Except BzlmodError (Option Metadata) := do
  match ← r.fetch (r.metadataUrl name) with
  | none => return none
  | some bytes =>
    match readJson bytes with
    | .error e => throw (.registry r.url ("unable to parse json at url " ++ r.metadataUrl name ++ ": " ++ e))
    | .ok json =>
      let yanked ← r.parseYanked name ∅ (json.yankedVersions.getD ∅).toList
      return some ⟨json.versions.getD [],yanked⟩

/-- The yanked versions of a module the lockfile already holds, if it can read
them all. -/
def lockedYanked (name : String) : Option YankedVersions := do
  let found ← (← r.lock).lockedYanked name
  let parsed ← found.mapM fun entry => (Version.parse entry.1).toOption.map fun v => (v,entry.2)
  return parsed.foldl (fun yanked entry => yanked.insert entry.1 entry.2) ∅

end Registry

/-- Registries tried in order, with a module's own override able to replace them. -/
structure RegistrySource where
  registries : List Registry
  overridden : Std.ExtTreeMap String Registry
  builtin : Std.ExtTreeMap String String
  readLocal : String → Except String String
  readJson : Bytes → Except String MetadataJson
  isolatedExtensionUsages : Bool

namespace RegistrySource
variable (source : RegistrySource)

def localRepositoryPath (o : NonRegistryOverride) : Option String :=
  if o.rule = .localRepository then o.path else none

def overrideKind : RepoRule → String
  | .httpArchive => "archive"
  | .gitRepository => "git"
  | .localRepository => "local path"

/-- The first registry that has the module file. -/
def firstModuleFile (key : ModuleKey) : List Registry → List String →
    Except BzlmodError (String × Option String)
  | [], tried => .error (.moduleNotFound key.toString ("\n* ".intercalate tried))
  | r::rest, tried => do
    match ← r.moduleFile key with
    | some text => return (text,some r.url)
    | none => firstModuleFile key rest (tried ++ [r.notFoundNote key])

def moduleFile (key : ModuleKey) (moduleOverride : Option ModuleOverride) :
    Except BzlmodError (String × Option String) :=
  match source.builtin[key.name]? with
  | some text => .ok (text,none)
  | none =>
    match moduleOverride with
    | some (.nonRegistry o) =>
      match localRepositoryPath o with
      | some path =>
        let file := LockSession.joinPath path "MODULE.bazel"
        match source.readLocal file with
        | .ok text => .ok (text,none)
        | .error e => .error (.badModule key.toString (file ++ ": " ++ e))
      | none => .error (.fetchRequired key.toString (overrideKind o.rule))
    | _ =>
      if key.version.isEmpty then .error (.missingVersion key.name)
      else firstModuleFile key (match moduleOverride.bind ModuleOverride.registry with
        | some url => source.overridden[url]?.toList
        | none => source.registries) []

/-- Every registry, in the order they are asked for what is not a module file. -/
def all : List Registry := source.registries ++ source.overridden.values

/-- Of the first registry that has any. -/
def firstYanked (name : String) : List Registry → Except BzlmodError YankedVersions
  | [] => .ok ∅
  | r::rest =>
    match r.lockedYanked name with
    | some locked => .ok locked
    | none => do
      match ← r.metadata source.readJson name with
      | some metadata => return metadata.yankedVersions
      | none => firstYanked name rest

def metadataYanked (name : String) : Except BzlmodError YankedVersions :=
  source.firstYanked name source.all

def readSource (key : ModuleKey) (registry : String) : Except BzlmodError Unit :=
  match source.all.find? fun r => r.url == registry with
  | some r => r.repoSpec key
  | none => .ok ()

def toModuleFileSource : ModuleFileSource := ⟨source.moduleFile,source.isolatedExtensionUsages⟩

end RegistrySource

end BuildFiji.Bzlmod
