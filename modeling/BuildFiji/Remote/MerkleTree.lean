import BuildFiji.Lib.Fallible
import BuildFiji.Lib.Framing
import BuildFiji.Lib.SortedAssoc

/-!
# The input tree

The Merkle tree of the inputs of an action: each input is put into a tree of
directories by the components of its path, and the directories are written out
bottom-up, each with the digests of those below it.
-/

set_option autoImplicit false
set_option linter.all false

namespace BuildFiji.Remote

open SortedAssoc

structure Digest where
  hash : String
  sizeBytes : ℕ
deriving DecidableEq

inductive InputKind where
  | file (digest : Digest) (executable : Bool)
  | symlink (target : String)
deriving DecidableEq

structure Input where
  path : String
  kind : InputKind
deriving DecidableEq

structure FileNode where
  name : String
  digest : Digest
  isExecutable : Bool
deriving DecidableEq

structure SymlinkNode where
  name : String
  target : String
deriving DecidableEq

structure DirectoryNode where
  name : String
  digest : Digest
deriving DecidableEq

structure Directory where
  files : List FileNode
  directories : List DirectoryNode
  symlinks : List SymlinkNode
deriving DecidableEq

inductive Tree where
  | node (files : List (String × FileNode)) (symlinks : List (String × SymlinkNode))
      (dirs : List (String × Tree))

inductive TreeError where
  | invalidComponent (path : String)
  | fileAndDirectory (path : String)
  | duplicateInput (path : String)
deriving DecidableEq

def TreeError.message (debug : String → String) : TreeError → String
  | .invalidComponent path => "invalid path component in " ++ debug path
  | .fileAndDirectory path => debug path ++ " is both a file and a directory"
  | .duplicateInput path => "duplicate input " ++ debug path

/-- A single path component: not empty, not `.` or `..`, and with no `/`. -/
def validComponent (c : String) : Bool :=
  c ≠ "" && c ≠ "." && c ≠ ".." && !c.toList.contains '/'

def components (path : String) : List String := (path.toList.splitOn '/').map String.ofList

namespace Tree

def empty : Tree := .node [] [] []

def addLeaf (head : String) (kind : InputKind) : Tree → Except TreeError Tree
  | .node files symlinks dirs =>
    if (find head dirs).isSome then .error (.fileAndDirectory head)
    else
      match kind with
      | .file digest executable =>
        if (find head files).isSome then .error (.duplicateInput head)
        else .ok (.node (put head ⟨head,digest,executable⟩ files) symlinks dirs)
      | .symlink target =>
        if (find head symlinks).isSome then .error (.duplicateInput head)
        else .ok (.node files (put head ⟨head,target⟩ symlinks) dirs)

/-- `insert`, along the components that splitting the path off one by one gives.
What is left of the path is what an error names. -/
def insertAt (kind : InputKind) : List String → Tree → Except TreeError Tree
  | [], _ => .error (.invalidComponent "")
  | [head], tree =>
    if validComponent head = false then .error (.invalidComponent head) else addLeaf head kind tree
  | head::next::rest, .node files symlinks dirs =>
    if validComponent head = false then
      .error (.invalidComponent ("/".intercalate (head::next::rest)))
    else
      match insertAt kind (next::rest) ((find head dirs).getD empty) with
      | .error e => .error e
      | .ok sub => .ok (.node files symlinks (put head sub dirs))

def insert (tree : Tree) (input : Input) : Except TreeError Tree :=
  insertAt input.kind (components input.path) tree

section Finish
variable (digestOfMessage : Directory → Digest)

mutual

/-- Bottom-up: the digest, and the directories with those of the tree after them. -/
def finish : Tree → List Directory → Digest × List Directory
  | .node files symlinks dirs, out =>
    let below := finishDirs dirs out
    let dir : Directory := ⟨files.map Prod.snd,below.1,symlinks.map Prod.snd⟩
    (digestOfMessage dir,below.2 ++ [dir])

def finishDirs : List (String × Tree) → List Directory → List DirectoryNode × List Directory
  | [], out => ([],out)
  | (name,sub)::rest, out =>
    let first := finish sub out
    let after := finishDirs rest first.2
    (⟨name,first.1⟩::after.1,after.2)

end

end Finish

end Tree

section Merkle
variable (encode : Directory → List UInt8) (sha256 : List UInt8 → List UInt8)

def digestOf (bytes : List UInt8) : Digest := ⟨.ofList (Framing.hex (sha256 bytes)),bytes.length⟩

def digestOfMessage (dir : Directory) : Digest := digestOf sha256 (encode dir)

def merkleTree (inputs : List Input) : Except TreeError (Digest × List Directory) :=
  match inputs.foldlM Tree.insert Tree.empty with
  | .error e => .error e
  | .ok root => .ok (root.finish (digestOfMessage encode sha256) [])

end Merkle

end BuildFiji.Remote
