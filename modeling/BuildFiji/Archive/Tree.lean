import BuildFiji.Archive.Patch

/-!
# A tree of files

A file system without links: everything that is there is in a directory that is there.
-/

set_option autoImplicit false
set_option linter.all false

namespace BuildFiji.Archive

inductive Node where
  | dir
  | file (text : Line) (executable : Bool)
deriving DecidableEq

structure Tree where
  node : Path → Option Node
  top : node [] = some .dir
  closed : ∀ path c, node (path ++ [c]) ≠ none → node path = some .dir

namespace Tree

def missing : String := "No such file or directory (os error 2)"

def isDirectory : String := "Is a directory (os error 21)"

variable (t : Tree)

/-- Where a path leads, `..` leading up. -/
def walk (path : Path) : Option Path :=
  path.foldlM (fun at_ c => if t.node at_ ≠ some .dir then none
    else if c = up then some at_.dropLast else some (at_ ++ [c])) []

def find (path : Path) : Option Node := (t.walk path).bind t.node

def isFile (path : Path) : Bool :=
  match t.find path with
  | some (.file _ _) => true
  | _ => false

def isDir (path : Path) : Bool := t.find path = some .dir

def readToString (path : Path) : Except String Line :=
  match t.find path with
  | some (.file text _) => .ok text
  | some .dir => .error isDirectory
  | none => .error missing

/-- The directory the path is in is there. -/
def HasParent (path : Path) : Prop := path ≠ [] ∧ t.node path.dropLast = some .dir

instance (path : Path) : Decidable (t.HasParent path) := by
  unfold HasParent
  infer_instance

variable {t}

/-- A file, or a directory where nothing was, in a directory that is there. -/
def put (path : Path) (node : Node) (hp : t.HasParent path) (hn : t.node path = some .dir → node = .dir) :
    Tree where
  node q := if q = path then some node else t.node q
  top := by
    rw [if_neg hp.1.symm]
    exact t.top
  closed := by
    intro q c h
    by_cases hq : q ++ [c] = path
    · have hq' : q = path.dropLast := by rw [← hq, List.dropLast_concat]
      have hne : q ≠ path := by
        intro heq
        have := congrArg List.length (hq.trans heq.symm)
        simp at this
      rw [if_neg hne, hq']
      exact hp.2
    · rw [if_neg hq] at h
      have hdir := t.closed q c h
      by_cases heq : q = path
      · subst heq
        rw [if_pos rfl, hn hdir]
      · rw [if_neg heq]
        exact hdir

def removeFile (path : Path) (h : t.node path ≠ some .dir) : Tree where
  node q := if q = path then none else t.node q
  top := by
    rw [if_neg]
    · exact t.top
    · rintro rfl
      exact h t.top
  closed := by
    intro q c hne
    by_cases hq : q ++ [c] = path
    · rw [if_pos hq] at hne
      exact absurd rfl hne
    · rw [if_neg hq] at hne
      have hdir := t.closed q c hne
      rw [if_neg]
      · exact hdir
      · rintro rfl
        exact h hdir

/-- What is at the first path and below it is at the second. -/
def move (source target : Path) (hp : t.HasParent target) (hsource : ¬ source <+: target) : Tree where
  node q := if target <+: q then t.node (source ++ q.drop target.length)
    else if source <+: q then none else t.node q
  top := by
    rw [if_neg fun h => hp.1 (List.prefix_nil.mp h),
      if_neg fun h => hsource (h.trans List.nil_prefix)]
    exact t.top
  closed := by
    intro q c hne
    by_cases hq : target <+: q ++ [c]
    · rw [if_pos hq] at hne
      by_cases heq : q ++ [c] = target
      · have hq' : q = target.dropLast := by rw [← heq, List.dropLast_concat]
        rw [if_neg, if_neg]
        · rw [hq']
          exact hp.2
        · intro hs
          exact hsource (hs.trans (hq' ▸ List.dropLast_prefix target))
        · intro ht
          have hlength := ht.length_le
          rw [← heq, List.length_append, List.length_singleton] at hlength
          omega
      · have ht : target <+: q := by
          rcases List.prefix_concat_iff.mp hq with h | h
          · exact absurd h.symm heq
          · exact h
        rw [if_pos ht]
        rw [List.drop_append_of_le_length ht.length_le, ← List.append_assoc] at hne
        exact t.closed _ c hne
    · rw [if_neg hq] at hne
      have hsq : ¬ source <+: q ++ [c] := by
        intro hs
        rw [if_pos hs] at hne
        exact hne rfl
      rw [if_neg hsq] at hne
      rw [if_neg fun ht => hq (ht.trans (List.prefix_append _ _)),
        if_neg fun hs => hsq (hs.trans (List.prefix_append _ _))]
      exact t.closed q c hne

variable (t)

def mkdir (path : Path) : Except MkdirError Unit × Tree :=
  if h : t.node path = none then
    if hp : t.HasParent path then (.ok (),t.put path .dir hp fun _ => rfl)
    else (.error (.notFound missing),t)
  else (.error (.other "File exists (os error 17)"),t)

/-- Of a directory only to where nothing is. -/
def rename (source target : Path) : Except String Unit × Tree :=
  match t.node source with
  | none => (.error missing,t)
  | some node =>
    if source = target then (.ok (),t)
    else if hp : t.HasParent target then
      if hs : source <+: target then (.error "Invalid argument (os error 22)",t)
      else match node, t.node target with
        | .dir, some .dir => (.error "Directory not empty (os error 39)",t)
        | .dir, some (.file _ _) => (.error "Not a directory (os error 20)",t)
        | .file _ _, some .dir => (.error isDirectory,t)
        | _, _ => (.ok (),t.move source target hp hs)
    else (.error missing,t)

def write (path : Path) (text : Line) : Except String Unit × Tree :=
  if hd : t.node path = some .dir then (.error isDirectory,t)
  else if hp : t.HasParent path then
    let executable := match t.node path with
      | some (.file _ executable) => executable
      | _ => false
    (.ok (),t.put path (.file text executable) hp fun h => absurd h hd)
  else (.error missing,t)

def remove (path : Path) : Except String Unit × Tree :=
  if hd : t.node path = some .dir then (.error isDirectory,t)
  else if t.node path = none then (.error missing,t)
  else (.ok (),t.removeFile path hd)

def setMode (path : Path) (executable : Bool) : Except String Unit × Tree :=
  match h : t.node path with
  | none => (.error missing,t)
  | some .dir => (.ok (),t)
  | some (.file text _) =>
    if hp : t.HasParent path then
      (.ok (),t.put path (.file text executable) hp fun hd => nomatch h.symm.trans hd)
    else (.error missing,t)

end Tree

def treeDisk : Disk Tree where
  isFile := Tree.isFile
  isDir := Tree.isDir
  readToString := Tree.readToString
  mkdir := Tree.mkdir
  rename := Tree.rename
  write := Tree.write
  remove := Tree.remove
  setMode := Tree.setMode
  There t path := t.node path = some .dir
  mkdir_there := by
    intro t p e h
    unfold Tree.mkdir
    rw [dif_neg (by rw [h]; simp)]
    simp
  mkdir_inside := by
    intro t p c e h
    unfold Tree.mkdir
    split
    · rw [dif_pos ⟨by simp,by rw [List.dropLast_concat]; exact h⟩]
      simp
    · simp
  mkdir_keeps := by
    intro t p q h
    unfold Tree.mkdir
    split
    · split
      · show (if q = p then some Node.dir else t.node q) = some .dir
        split
        · rfl
        · exact h
      · exact h
    · exact h
  rename_keeps := by
    intro t p p' q h hp hp'
    unfold Tree.rename
    split
    · exact h
    · split
      · exact h
      · split
        · split
          · exact h
          · split
            · exact h
            · exact h
            · exact h
            · show (if p' <+: q then _ else if p <+: q then none else t.node q) = some .dir
              rw [if_neg hp', if_neg hp]
              exact h
        · exact h
  write_keeps := by
    intro t p text q h hp
    unfold Tree.write
    split
    · exact h
    · split
      · show (if q = p then _ else t.node q) = some .dir
        rw [if_neg]
        · exact h
        · rintro rfl
          exact hp List.prefix_rfl
      · exact h
  remove_keeps := by
    intro t p q h hp
    unfold Tree.remove
    split
    · exact h
    · split
      · exact h
      · show (if q = p then _ else t.node q) = some .dir
        rw [if_neg]
        · exact h
        · rintro rfl
          exact hp List.prefix_rfl
  setMode_keeps := by
    intro t p x q h hp
    unfold Tree.setMode
    split
    · exact h
    · exact h
    · split
      · show (if q = p then _ else t.node q) = some .dir
        rw [if_neg]
        · exact h
        · rintro rfl
          exact hp List.prefix_rfl
      · exact h

end BuildFiji.Archive
