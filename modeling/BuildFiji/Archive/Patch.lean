import BuildFiji.Graph.Label
import BuildFiji.Lib.Text
import Mathlib

/-!
# Patches

A unified diff, plain or from `git diff`, is read line by line into the files it is of, and
applied to them one after the other. What is done to the disk is noted as it is done, so that
it is known of a patch that fails too.
-/

set_option autoImplicit false
set_option linter.all false

namespace BuildFiji.Archive

open BuildFiji.Graph (splitOn splitOnce)
open BuildFiji.Text (isWhitespace)

abbrev Line := List Char

structure Hunk where
  oldStart : ℕ
  old : List Line
  new : List Line
deriving DecidableEq

structure FilePatch where
  /-- The line of the first header, 1-based. -/
  line : ℕ
  oldHeader : Line
  old : Option Line
  new : Option Line
  fromGit : Bool
  renameFrom : Option Line
  renameTo : Option Line
  newMode : Option ℕ
  hunks : List Hunk
deriving DecidableEq

def FilePatch.startedAt (line : ℕ) : FilePatch := ⟨line,[],none,none,false,none,none,none,[]⟩

section Text

def trimEnd (text : Line) : Line := (text.reverse.dropWhile isWhitespace).reverse

def trim (text : Line) : Line := trimEnd (text.dropWhile isWhitespace)

def splitWhitespace (text : Line) : List Line := (text.splitOnP isWhitespace).filter (· ≠ [])

def stripPrefix (lead : String) (text : Line) : Option Line :=
  if lead.toList.isPrefixOf text then some (text.drop lead.toList.length) else none

def stripCr (line : Line) : Line := if line.getLast? = some '\r' then line.dropLast else line

/-- The lines of a text; what ends in no newline is a line as it is. -/
def linesText (text : Line) : List Line :=
  let pieces := splitOn '\n' text
  let last := pieces.getLastD []
  pieces.dropLast.map stripCr ++ if last = [] then [] else [last]

def linesOf (text : Line) : List Line := (splitOn '\n' text).map stripCr

def joinLines (lines : List Line) : Line :=
  if lines = [] then [] else ['\n'].intercalate lines ++ ['\n']

/-- The digits after a plus sign, if there is one. -/
def unsigned : Line → Line
  | '+'::digits => digits
  | digits => digits

/-- A number of at most that many values, in digits of the radix, which is ten or less. -/
def parseRadix (radix limit : ℕ) (text : Line) : Option ℕ :=
  let digits := unsigned text
  if digits = [] ∨ ¬ digits.all (fun c => c.isDigit && c.toNat - 48 < radix) then none
  else
    let n := Nat.ofDigitChars radix digits 0
    if n < limit then some n else none

def parseUsize (text : Line) : Option ℕ := parseRadix 10 (2^64) text

end Text

section Parse

def headerName (text : Line) : Line := trimEnd (text.takeWhile (· ≠ '\t'))

def parseRange (text : Line) : Option (ℕ × ℕ) :=
  let text := text.dropWhile fun c => c = '-' || c = '+'
  match splitOnce ',' text with
  | some (s,c) => do return (← parseUsize s,← parseUsize c)
  | none => do return (← parseUsize text,1)

/-- A hunk that is being read, and how many lines of each side it lacks. -/
structure Body where
  hunk : Hunk
  oldLeft : ℕ
  newLeft : ℕ
deriving DecidableEq

def Body.keep (b : Body) (text : Line) : Option Body :=
  if 0 < b.oldLeft ∧ 0 < b.newLeft then
    some ⟨{ b.hunk with old := b.hunk.old ++ [text], new := b.hunk.new ++ [text] },b.oldLeft-1,b.newLeft-1⟩
  else none

def Body.remove (b : Body) (text : Line) : Option Body :=
  if 0 < b.oldLeft then some ⟨{ b.hunk with old := b.hunk.old ++ [text] },b.oldLeft-1,b.newLeft⟩
  else none

def Body.add (b : Body) (text : Line) : Option Body :=
  if 0 < b.newLeft then some ⟨{ b.hunk with new := b.hunk.new ++ [text] },b.oldLeft,b.newLeft-1⟩
  else none

def Body.take (b : Body) : Line → Option Body
  | [] => b.keep []
  | ' '::text => b.keep text
  | '-'::text => b.remove text
  | '+'::text => b.add text
  | _ => none

/-- The files that were begun, the last one first, and the hunk that is being read. -/
structure Reading where
  files : List FilePatch
  body : Option Body
deriving DecidableEq

/-- To the last file that was begun. -/
def toLast (f : FilePatch → FilePatch) : List FilePatch → List FilePatch
  | [] => []
  | file::files => f file::files

def Reading.of (files : List FilePatch) (b : Body) : Reading :=
  if b.oldLeft = 0 ∧ b.newLeft = 0 then
    ⟨toLast (fun file => { file with hunks := file.hunks ++ [b.hunk] }) files,none⟩
  else ⟨files,some b⟩

def gitHeader (i : ℕ) (rest : Line) : FilePatch :=
  let names := splitOnce ' ' rest
  { FilePatch.startedAt (i+1) with
    fromGit := true
    old := names.map Prod.fst
    new := names.map Prod.snd }

/-- The file that the names of `---` and `+++` are of: the one a `git diff` header began, or a new
one, in place of the last if that was not begun by such a header. -/
def fileHeader (i : ℕ) (line old new : Line) (files : List FilePatch) : List FilePatch :=
  let inGit := files.head?.any fun f => f.hunks = [] ∧ f.oldHeader = [] ∧ f.old.isSome
  let files :=
    if inGit then files
    else FilePatch.startedAt (i+1)::
      if files.head?.any fun f => ¬ f.fromGit then files.tail else files
  toLast (fun file => { file with
    oldHeader := line
    old := some (headerName old)
    new := some (headerName new) }) files

def hunkHeader (line : Line) : Option Body :=
  match splitWhitespace line with
  | _::old::new::_ => do
    let (oldStart,oldCount) ← parseRange old
    let (_,newCount) ← parseRange new
    return ⟨⟨oldStart,[],[]⟩,oldCount,newCount⟩
  | _ => none

/-- What a line outside a hunk says; `next` is the line after it. -/
def header (i : ℕ) (line : Line) (next : Option Line) (files : List FilePatch) : Reading :=
  if let some rest := stripPrefix "diff --git " line then ⟨gitHeader i rest::files,none⟩
  else if let some name := stripPrefix "rename from " line then
    ⟨toLast (fun file => { file with renameFrom := some name }) files,none⟩
  else if let some name := stripPrefix "rename to " line then
    ⟨toLast (fun file => { file with renameTo := some name }) files,none⟩
  else if let some mode := (stripPrefix "new file mode " line).or (stripPrefix "new mode " line) then
    ⟨toLast (fun file => { file with newMode := parseRadix 8 (2^32) (trim mode) }) files,none⟩
  else if let some old := stripPrefix "--- " line then
    match next.bind (stripPrefix "+++ ") with
    | some new => ⟨fileHeader i line old new files,none⟩
    | none => ⟨files,none⟩
  else if (stripPrefix "@@ " line).isSome ∧ files ≠ [] then
    match hunkHeader line with
    | some body => .of files body
    | none => ⟨files,none⟩
  else ⟨files,none⟩

def expecting (i : ℕ) : String := "Expecting more chunk line at line " ++ toString (i+1)

/-- A `+++` line, which is read with the one before it, says nothing by itself. -/
def parseFrom : ℕ → List Line → Reading → Except String (List FilePatch)
  | _, [], ⟨files,none⟩ => .ok files.reverse
  | i, [], ⟨_,some _⟩ => .error (expecting i)
  | i, line::rest, ⟨files,none⟩ => parseFrom (i+1) rest (header i line rest.head? files)
  | i, line::rest, ⟨files,some body⟩ =>
    match body.take line with
    | some body => parseFrom (i+1) rest (.of files body)
    | none => .error (expecting i)

def parse (patch : Line) : Except String (List FilePatch) := parseFrom 0 (linesText patch) ⟨[],none⟩

end Parse

section Hunks

/-- A count as a signed number of as many bits. -/
def asIsize (n : ℕ) : ℤ := if n < 2^63 then n else n-2^64

def fits (lines : List Line) (hunk : Hunk) (place : ℕ) : Bool :=
  place + hunk.old.length ≤ lines.length ∧ (lines.drop place).take hunk.old.length = hunk.old

/-- The places to try, from the expected one outwards. -/
def places (expected length : ℕ) : List ℕ :=
  (List.range (length+1)).flatMap fun d => (expected+d)::(if d ≤ expected then [expected-d] else [])

def applyHunk (lines : List Line) (drift : ℤ) (hunk : Hunk) : Except String (List Line × ℤ) :=
  let expected := (max (asIsize (hunk.oldStart-1) + drift) 0).toNat
  match (places expected lines.length).find? (fits lines hunk) with
  | some found => .ok (lines.take found ++ hunk.new ++ lines.drop (found + hunk.old.length),
      drift + ((found:ℤ)-expected) + hunk.new.length - hunk.old.length)
  | none => .error ("Cannot apply the hunk at line " ++ toString hunk.oldStart ++
      ": its context does not match the file")

def applyHunksFrom (lines : List Line) (drift : ℤ) : List Hunk → Except String (List Line)
  | [] => .ok lines
  | hunk::hunks => do
    let (lines,drift) ← applyHunk lines drift hunk
    applyHunksFrom lines drift hunks

def applyHunks (lines : List Line) (hunks : List Hunk) : Except String (List Line) :=
  applyHunksFrom lines 0 hunks

end Hunks

section Paths

/-- The components of an absolute path. -/
abbrev Path := List Line

def up : Line := ['.','.']

def components (text : Line) : Path := (splitOn '/' text).filter fun c => c ≠ [] ∧ c ≠ ['.']

/-- The path from the root, or as it is if it is absolute. -/
def joined (root : Path) (relative : Line) : Path :=
  if relative.head? = some '/' then components relative else root ++ components relative

def lexicalStep (out : Path) (c : Line) : Path :=
  if c = up then if out = [] then [up] else out.dropLast
  else out ++ [c]

/-- With `..` resolved by the text alone; above the top it is kept. -/
def lexical (path : Path) : Path := path.foldl lexicalStep []

def display (path : Path) : Line := '/'::['/'].intercalate path

def devNull : Line := "/dev/null".toList

/-- Without that many leading components, if there are more. -/
def stripped (name : Line) (strip : ℕ) : Option Line :=
  if name = devNull then some name
  else
    let parts := (splitOn '/' name).filter (· ≠ [])
    if strip < parts.length then some (['/'].intercalate (parts.drop strip)) else none

end Paths

/-- What is done to the disk. -/
inductive Touch where
  | mkdir (path : Path)
  | rename (source target : Path)
  | write (path : Path)
  | remove (path : Path)
  | setMode (path : Path)
deriving DecidableEq

inductive MkdirError where
  | notFound (text : String)
  | other (text : String)
deriving DecidableEq

def MkdirError.text : MkdirError → String
  | notFound text => text
  | other text => text

/-- A file system. A directory that is there can not be missing when it or one in it is made, and
stays unless something is done to it or above it. -/
structure Disk (σ : Type) where
  isFile : σ → Path → Bool
  isDir : σ → Path → Bool
  readToString : σ → Path → Except String Line
  mkdir : σ → Path → Except MkdirError Unit × σ
  rename : σ → Path → Path → Except String Unit × σ
  write : σ → Path → Line → Except String Unit × σ
  remove : σ → Path → Except String Unit × σ
  setMode : σ → Path → Bool → Except String Unit × σ
  There : σ → Path → Prop
  mkdir_there : ∀ s p e, There s p → (mkdir s p).1 ≠ .error (.notFound e)
  mkdir_inside : ∀ s p c e, There s p → (mkdir s (p ++ [c])).1 ≠ .error (.notFound e)
  mkdir_keeps : ∀ s p q, There s q → There (mkdir s p).2 q
  rename_keeps : ∀ s p p' q, There s q → ¬ p <+: q → ¬ p' <+: q → There (rename s p p').2 q
  write_keeps : ∀ s p t q, There s q → ¬ p <+: q → There (write s p t).2 q
  remove_keeps : ∀ s p q, There s q → ¬ p <+: q → There (remove s p).2 q
  setMode_keeps : ∀ s p x q, There s q → ¬ p <+: q → There (setMode s p x).2 q

/-- The disk and what was done to it, the last first. -/
structure World (σ : Type) where
  disk : σ
  touched : List Touch

abbrev Patching (σ : Type) := ExceptT String (StateM (World σ))

section Apply

variable {σ : Type} (disk : Disk σ)

def touch (what : Touch) (act : σ → Except String Unit × σ) : Patching σ Unit := fun w =>
  ((act w.disk).1,⟨(act w.disk).2,what::w.touched⟩)

def mkdir (path : Path) : Patching σ (Except MkdirError Unit) := fun w =>
  (.ok (disk.mkdir w.disk path).1,⟨(disk.mkdir w.disk path).2,.mkdir path::w.touched⟩)

def ask {α : Type} (question : σ → α) : Patching σ α := fun w => (.ok (question w.disk),w)

/-- The path is given from its end. -/
def createDirAllFrom : Path → Patching σ Unit
  | [] => do
    match ← mkdir disk [] with
    | .ok _ => return ()
    | .error (.notFound _) => throw "failed to create whole tree"
    | .error (.other text) => if ← ask fun s => disk.isDir s [] then return () else throw text
  | c::above => do
    let path := (c::above).reverse
    match ← mkdir disk path with
    | .ok _ => return ()
    | .error (.notFound _) => do
      createDirAllFrom above
      match ← mkdir disk path with
      | .ok _ => return ()
      | .error e => if ← ask fun s => disk.isDir s path then return () else throw e.text
    | .error (.other text) => if ← ask fun s => disk.isDir s path then return () else throw text

/-- The directory the path is in, with what is above it. -/
def createParent (path : Path) : Patching σ Unit :=
  if path = [] then return () else createDirAllFrom disk path.dropLast.reverse

variable (strip : ℕ) (root : Path) (file : FilePatch)

def noName (name : Line) : String :=
  "Cannot determine file name with strip = " ++ toString strip ++ " at line " ++ toString file.line ++
    ":\n" ++ .ofList (if file.oldHeader = [] then name else file.oldHeader)

def strippedName : Option Line → Patching σ (Option Line)
  | none => return none
  | some name => match stripped name strip with
    | some name => return some name
    | none => throw (noName strip file name)

def inside (relative : Line) : Patching σ Path :=
  let path := lexical (joined root relative)
  if root.isPrefixOf path then return path
  else throw ("Cannot patch file outside of external repository (" ++ .ofList (display root) ++
    "), file path = \"" ++ .ofList relative ++ "\" at line " ++ toString file.line)

def isExecutable (mode : ℕ) : Bool := mode &&& 0o111 ≠ 0

def setMode (path : Path) (executable : Bool) : Patching σ Unit :=
  touch (.setMode path) fun s => disk.setMode s path executable

def write (path : Path) (text : Line) : Patching σ Unit :=
  touch (.write path) fun s => disk.write s path text

def renameFile (source target : Line) : Patching σ Unit := do
  let source ← inside root file source
  let target ← inside root file target
  createParent disk target
  touch (.rename source target) fun s => disk.rename s source target

def added : Line := joinLines (file.hunks.flatMap Hunk.new)

def createFile (new : Line) : Patching σ Unit := do
  let target ← inside root file new
  createParent disk target
  write disk target (added file)
  setMode disk target (file.newMode.any isExecutable)

def deleteFile (old : Line) : Patching σ Unit := do
  let target ← inside root file old
  touch (.remove target) fun s => disk.remove s target

def changeMode (new : Option Line) : Patching σ Unit :=
  match file.newMode, new with
  | some mode, some name => do setMode disk (← inside root file name) (isExecutable mode)
  | _, _ => return ()

def rewrite (target : Path) : Patching σ Unit := do
  match ← ask fun s => disk.readToString s target with
  | .error e => throw e
  | .ok text =>
    let lines := linesOf text
    let lines := if text.getLast? = some '\n' then lines.dropLast else lines
    match applyHunks lines file.hunks with
    | .error e => throw e
    | .ok lines => write disk target (joinLines lines)

/-- A plain diff that only adds lines makes the file, named by its `+++` line. -/
def addFile (new : Line) : Patching σ Unit := do
  let target ← inside root file new
  createParent disk target
  write disk target (added file)

def noFile (old new : Line) : String :=
  "Cannot find file to patch (near line " ++ toString file.line ++ "), old file name (" ++ .ofList old ++
    ") doesn't exist, new file name (" ++ .ofList new ++ ") doesn't exist."

def patchFile (old new : Line) : Patching σ Unit := do
  if file.renameTo.isSome ∨ (← ask fun s => disk.isFile s (joined root new)) then
    rewrite disk file (← inside root file new)
  else if ← ask fun s => disk.isFile s (joined root old) then
    rewrite disk file (← inside root file old)
  else if file.hunks.all fun h => h.old = [] then addFile disk root file new
  else do
    let _ ← inside (σ := σ) root file new
    throw (noFile file old new)

def afterRename (old new : Option Line) : Patching σ Unit :=
  if old = some devNull then createFile disk root file (new.getD [])
  else if new = some devNull then deleteFile disk root file (old.getD [])
  else if file.hunks = [] then changeMode disk root file new
  else patchFile disk root file (old.getD []) (new.getD [])

def applyFile : Patching σ Unit := do
  let old ← strippedName strip file file.old
  let new ← strippedName strip file file.new
  match file.renameFrom, file.renameTo with
  | some source, some target => do
    renameFile disk root file source target
    if file.hunks = [] then return () else afterRename disk root file old new
  | _, _ => afterRename disk root file old new

def applyPatch (patch : Line) : Patching σ Unit :=
  match parse patch with
  | .error e => throw e
  | .ok files => files.forM (applyFile disk strip root)

end Apply

end BuildFiji.Archive
