import BuildFiji.Lib.Framing
import BuildFiji.Lib.Text
import Mathlib.Logic.Function.Basic

/-!
# Downloads of a repository rule

The bytes of a request come from the repository cache, from a distdir or from
one of its URLs. The hash functions and base64 are of other crates; what the
distdirs, files and servers hold is given with each fetch, and so is what a write
to the cache leaves.
-/

set_option autoImplicit false
set_option linter.all false

namespace BuildFiji.Repo
open Framing

abbrev Bytes := List UInt8

structure Crates where
  sha256 : Bytes → Vector UInt8 32
  sha384 : Bytes → Bytes
  sha512 : Bytes → Bytes
  encode64 : Bytes → String
  decode64 : String → Option Bytes
  /-- Only what `encode64` writes is read. -/
  canonical : ∀ text bytes, decode64 text = some bytes → encode64 bytes = text

structure HttpRequest where
  url : String
  headers : List (String × List String)
  auth : List (String × String)

structure RepoEnv where
  name : String
  hasCache : Bool
  distdirs : List (String → Option Bytes)
  readFile : ℕ → String → Except String Bytes
  downloader : Option (ℕ → HttpRequest → Except String Bytes)

structure Request where
  urls : List String
  headers : List (String × List String)
  auth : List (String × List (String × String))
  sha256 : String
  integrity : String
  canonicalId : String

/-- How much of a file a write leaves. -/
inductive Written where
  | nothing
  | cut (length : ℕ)
  | whole
  deriving DecidableEq

structure Landing where
  dirMade : Bool
  written : Written
  marked : Bool

structure Cache where
  file : List Char → Option Bytes
  marker : List Char → List Char → Bool

def Cache.empty : Cache := ⟨fun _ => none,fun _ _ => false⟩

inductive Failure where
  | io (message : String)
  | fatal (message : String)
  deriving DecidableEq

inductive Expected where
  | hex (text : String)
  | sri (algo value : String)
  deriving DecidableEq

structure Info where
  sha256 : List Char
  integrity : String
  deriving DecidableEq

section Checksums

variable (crates : Crates)

def hexDigest (bytes : Bytes) : List Char := hex (crates.sha256 bytes).toList

def idMarker (id : String) : List Char :=
  "id-".toList ++ hexDigest crates id.toByteArray.data.toList

def digest (algo : String) (bytes : Bytes) : Option Bytes :=
  if algo = "sha256" then some (crates.sha256 bytes).toList
  else if algo = "sha384" then some (crates.sha384 bytes)
  else if algo = "sha512" then some (crates.sha512 bytes)
  else none

def isAsciiHexdigit (c : Char) : Bool := c.isDigit || 'a' ≤ c && c ≤ 'f' || 'A' ≤ c && c ≤ 'F'

def isHex64 (text : String) : Bool := text.toList.length = 64 && text.toList.all isAsciiHexdigit

def lowercase (text : List Char) : List Char := text.map Char.toLower

/-- What is wrong with the bytes, if something is; an error if the expectation is
no checksum. -/
def Expected.check (repo : String) (bytes : Bytes) : Expected → Except String (Option String)
  | .hex text =>
    if !isHex64 text then
      .error ("Checksum error in repository @@" ++ repo ++ ": Invalid SHA-256 checksum '" ++ text ++ "'")
    else
      let actual := hexDigest crates bytes
      .ok (if lowercase actual = lowercase text.toList then none
        else some ("Checksum was " ++ .ofList actual ++ " but wanted " ++ text))
  | .sri algo value =>
    match digest crates algo bytes with
    | none => .error ("Checksum error in repository @@" ++ repo ++
        ": Unsupported checksum algorithm: '" ++ algo ++
        "' (expected SHA-1, SHA-256, SHA-384, or SHA-512)")
    | some actual =>
      let actual := algo ++ "-" ++ crates.encode64 actual
      let wanted := algo ++ "-" ++ value
      .ok (if actual = wanted then none else some ("Checksum was " ++ actual ++ " but wanted " ++ wanted))

def Expected.cacheKey : Expected → Option (List Char)
  | .hex text => if isHex64 text then some (lowercase text.toList) else none
  | .sri algo value =>
    if algo = "sha256" then
      (crates.decode64 value).bind fun bytes => if bytes.length = 32 then some (Framing.hex bytes) else none
    else none

def expectedOf (sha256 integrity : String) : Except String (Option Expected) :=
  if sha256 ≠ "" then
    if integrity ≠ "" then .error "Expected either 'sha256' or 'integrity', but not both"
    else .ok (some (.hex sha256))
  else if integrity ≠ "" then
    match Text.splitOnce ['-'] integrity.toList with
    | some (algo,value) => .ok (some (.sri (.ofList algo) (.ofList value)))
    | none => .ok (some (.sri integrity ""))
  else .ok none

def infoOf (bytes : Bytes) : Info :=
  ⟨hexDigest crates bytes,"sha256-" ++ crates.encode64 (crates.sha256 bytes).toList⟩

end Checksums

section Fetch

variable (crates : Crates) (env : RepoEnv)

def cacheGet (cache : Cache) (key : List Char) (ids : List String) : Option Bytes :=
  if env.hasCache && ids.any fun id => cache.marker key (idMarker crates id) then cache.file key
  else none

def putFile (cache : Cache) (key : List Char) (bytes : Bytes) (written : Written) : Cache :=
  if (cache.file key).isSome then cache
  else
    match written with
    | .nothing => cache
    | .cut n => { cache with file := Function.update cache.file key (some (bytes.take n)) }
    | .whole => { cache with file := Function.update cache.file key (some bytes) }

def cachePut (cache : Cache) (landing : Landing) (key : List Char) (bytes : Bytes) (id : String) :
    Cache :=
  if env.hasCache && landing.dirMade then
    let cache := putFile cache key bytes landing.written
    if landing.marked then
      { cache with marker := fun k m => cache.marker k m || (k = key && m = idMarker crates id) }
    else cache
  else cache

def lastSegment (url : String) : String :=
  .ofList (url.toList.reverse.takeWhile fun c => c ≠ '/').reverse

def distdirGet (url : String) : Option Bytes :=
  if lastSegment url = "" then none else env.distdirs.findSome? fun dir => dir (lastSegment url)

/-- The URLs that may be asked. -/
def usableUrls (hasChecksum : Bool) : List String → Except Failure (List String)
  | [] => .ok []
  | url::urls =>
    match Text.splitOnce "://".toList url.toList with
    | none => .error (.io ("java.io.IOException: Bad URL: " ++ url))
    | some (scheme,_) =>
      if String.ofList scheme ∉ ["http","https","file"] then
        .error (.io ("java.io.IOException: Unsupported protocol: " ++ .ofList scheme))
      else
        (usableUrls hasChecksum urls).map fun usable =>
          if String.ofList scheme ≠ "http" || hasChecksum then url::usable else usable

def listed (urls : List String) : String := "[" ++ ", ".intercalate urls ++ "]"

def download (request : Request) (attempt : ℕ) (url : String) : Except String Bytes :=
  if "file://".toList.isPrefixOf url.toList then
    let path := String.ofList (url.toList.drop "file://".toList.length)
    (env.readFile attempt path).mapError fun why => path ++ " (" ++ why ++ ")"
  else
    match env.downloader with
    | some get => get attempt ⟨url,request.headers,(request.auth.lookup url).getD []⟩
    | none => .error "no downloader is available"

def ioError (request : Request) (target why : String) : Failure :=
  .io ("java.io.IOException: Error downloading " ++ listed request.urls ++ " to " ++ target ++ ": " ++ why)

/-- The first URL that gives bytes. -/
def tryUrls (cache : Cache) (landing : Landing) (request : Request) (target : String)
    (expected : Option Expected) : ℕ → String → List String → Except Failure (Bytes × Info) × Cache
  | _, last, [] => (.error (ioError request target last),cache)
  | attempt, _, url::urls =>
    match download env request attempt url with
    | .error why => tryUrls cache landing request target expected (attempt+1) why urls
    | .ok bytes =>
      match (expected.map fun expected => expected.check crates env.name bytes).getD (.ok none) with
      | .error why => (.error (.fatal why),cache)
      | .ok (some mismatch) => (.error (ioError request target mismatch),cache)
      | .ok none =>
        let id := if request.canonicalId = "" then url else request.canonicalId
        (.ok (bytes,infoOf crates bytes),
          cachePut crates env cache landing (infoOf crates bytes).sha256 bytes id)

/-- What a distdir has that the check does not object to. -/
def fromDistdirs (expected : Expected) (usable : List String) : Option Bytes :=
  usable.findSome? fun url => (distdirGet env url).bind fun bytes =>
    if (expected.check crates env.name bytes).toOption.join.isNone then some bytes else none

def fetchFrom (cache : Cache) (landing : Landing) (request : Request) (target : String)
    (expected : Option Expected) (usable : List String) : Except Failure (Bytes × Info) × Cache :=
  let ids := if request.canonicalId = "" then usable else [request.canonicalId]
  match (expected.bind (Expected.cacheKey crates)).bind fun key => cacheGet crates env cache key ids with
  | some bytes => (.ok (bytes,infoOf crates bytes),cache)
  | none =>
    match expected.bind fun expected => fromDistdirs crates env expected usable with
    | some bytes => (.ok (bytes,infoOf crates bytes),cache)
    | none => tryUrls crates env cache landing request target expected 0 "" usable

def fetch (cache : Cache) (landing : Landing) (request : Request) (target : String) :
    Except Failure (Bytes × Info) × Cache :=
  match expectedOf request.sha256 request.integrity with
  | .error message => (.error (.fatal message),cache)
  | .ok expected =>
    if request.urls = [] then (.error (.io "java.io.IOException: urls not set"),cache)
    else
      match usableUrls expected.isSome request.urls with
      | .error failure => (.error failure,cache)
      | .ok [] =>
        (.error (.io ("java.io.IOException: No URLs left after removing plain http URLs due to missing " ++
          "checksum. Please provide either a checksum or an https download location.")),cache)
      | .ok usable => fetchFrom crates env cache landing request target expected usable

end Fetch

/-- A fetch, with all that comes from outside. -/
structure Fetching where
  env : RepoEnv
  request : Request
  target : String
  landing : Landing

def cacheAfter (crates : Crates) (cache : Cache) (fetches : List Fetching) : Cache :=
  fetches.foldl (fun cache f => (fetch crates f.env cache f.landing f.request f.target).2) cache

end BuildFiji.Repo
