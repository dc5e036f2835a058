import BuildFiji.Lib.Extremes
import BuildFiji.Repo.RecordedInputs

/-!
# Credential helpers

A helper is for one host, for a domain and all under it, or for every host. Its program
is an absolute path, one under the workspace, or a bare name that is looked up. Which
helper is asked goes by the host that is cut out of the URL.
-/

set_option autoImplicit false
set_option linter.all false

namespace BuildFiji.Credentials

open BuildFiji.Graph (splitOn)

open BuildFiji.Recorded (Text rsplitOnce)

open BuildFiji.Extremes

section Flags

/-- Without a scope it is for every host. -/
structure CredentialHelper where
  scope : Option Text
  program : Text
deriving DecidableEq

def isDomain (text : Text) : Bool :=
  !text.isEmpty && (splitOn '.' text).all fun label =>
    !label.isEmpty && label.head? != some '-' && label.getLast? != some '-' &&
      label.all fun c => c.isAlphanum || c == '-'

def wildcard : Text := "*.".toList

def checkScope : Option Text → Except String Unit
  | none => .ok ()
  | some scope =>
    if scope.isEmpty then .error "Credential helper scope must not be empty"
    else if !isDomain ((scope.dropPrefix? wildcard).getD scope) then
      .error ("Credential helper scope '" ++ .ofList scope ++ "' must be a valid domain name with an " ++
        "optional leading '*.' wildcard")
    else .ok ()

def checkProgram (program : Text) : Except String Unit :=
  if program.isEmpty then .error "Credential helper path must not be empty" else .ok ()

def parseParts (scope : Option Text) (program : Text) : Except String CredentialHelper := do
  checkScope scope
  checkProgram program
  return ⟨scope,program⟩

def parse (value : Text) : Except String CredentialHelper :=
  match Text.splitOnce ['='] value with
  | some (scope,program) => parseParts (some scope) program
  | none => parseParts none value

/-- `Path::join`: an absolute path takes the place of what it is joined to. -/
def join (dir path : Text) : Text :=
  if path.head? = some '/' || dir.isEmpty then path
  else if dir.getLast? = some '/' then dir ++ path
  else dir ++ '/'::path

variable (isFile : Text → Bool) (workspace pathEnv : Text)

def resolve (helper : CredentialHelper) : Except String Text :=
  match helper.program.dropPrefix? "%workspace%/".toList with
  | some rest => .ok (join workspace rest)
  | none =>
    if helper.program.head? = some '/' then .ok helper.program
    else if helper.program.contains '/' then
      .error ("Path '" ++ .ofList helper.program ++
        "' must either be absolute or not contain any path separators")
    else
      match ((splitOn ':' pathEnv).map fun dir => join dir helper.program).find? isFile with
      | some candidate => .ok candidate
      | none => .error ("Could not find file with name '" ++ .ofList helper.program ++ "' on PATH '" ++
          .ofList pathEnv ++ "'")

/-- Scopes and programs in the order of the flags. -/
def new (helpers : List CredentialHelper) : Except String (List (Option Text × Text)) :=
  helpers.mapM fun h => do return (h.scope,← resolve isFile workspace pathEnv h)

end Flags

def endsAuthority (c : Char) : Bool := c == '/' || c == '?' || c == '#'

def withoutUser (authority : Text) : Text :=
  match rsplitOnce '@' authority with
  | some (_,host) => host
  | none => authority

/-- What follows the last colon is a port if it is digits. -/
def withoutPort (host : Text) : Text :=
  match rsplitOnce ':' host with
  | some (h,port) => if port.all Char.isDigit then h else host
  | none => host

def hostOf (url : Text) : Text :=
  let rest := match Text.splitOnce "://".toList url with
    | some (_,rest) => rest
    | none => url
  withoutPort (withoutUser (rest.takeWhile fun c => !endsAuthority c))

section Choice

variable {π : Type}

/-- The length of the domain of a wildcard that is for the host. -/
def wildcardFor (host : Text) (helper : Option Text × π) : Option (ℕ × π) := do
  let domain ← (← helper.1).dropPrefix? wildcard
  if host == domain || ('.'::domain).isSuffixOf host then some (domain.length,helper.2) else none

def programFor (helpers : List (Option Text × π)) (host : Text) : Option π :=
  match helpers.reverse.find? fun h => h.1 == some host with
  | some own => some own.2
  | none =>
    match maxByKey Prod.fst (helpers.reverse.filterMap (wildcardFor host)) with
    | some widest => some widest.2
    | none => (helpers.reverse.find? fun h => h.1.isNone).map Prod.snd

end Choice

end BuildFiji.Credentials
