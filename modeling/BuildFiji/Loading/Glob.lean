import BuildFiji.Graph.Paths
import BuildFiji.Lib.Text
import BuildFiji.Loading.Wildcard
import Mathlib

/-!
# Patterns of paths

A pattern is a list of segments, of which `**` stands for any number of names and
any other for one. Patterns say what `glob()` includes and excludes and which
directories a repository ignores.
-/

set_option autoImplicit false
set_option linter.all false

namespace BuildFiji.Glob

open Graph Wildcard

/-- A name in a directory. -/
structure FileName where
  text : String
  nonempty : text ≠ ""
  single : '/' ∉ text.toList
deriving DecidableEq

/-- A path below some directory, as the names on the way. -/
abbrev Path := List FileName

def written (path : Path) : String := .ofList (['/'].intercalate (path.map fun n => n.text.toList))

def join (dir name : String) : String := if dir = "" then name else dir ++ "/" ++ name

/-- `text.split('/')` -/
def parts (text : String) : List String := (splitOn '/' text.toList).map String.ofList

inductive Segment where
  | recursive
  | name (pattern : String)
deriving DecidableEq

def checkSegment (segment : String) : Except String Segment :=
  if segment = "" then .error "empty segment not permitted"
  else if segment = "." then .error "segment '.' not permitted"
  else if segment = ".." then .error "segment '..' not permitted"
  else if segment = "**" then .ok .recursive
  else if containsText "**".toList segment.toList then .error "recursive wildcard must be its own segment"
  else .ok (.name segment)

/-- The first thing that is wrong with a pattern is reported. -/
def checkPattern (pattern : String) (forbidQuestion : Bool) : Except String (List Segment) :=
  if pattern = "" then .error "pattern cannot be empty"
  else if pattern.toList.head? = some '/' then .error "pattern cannot be absolute"
  else if forbidQuestion && pattern.toList.contains '?' then .error "wildcard ? forbidden"
  else (parts pattern).mapM checkSegment

def segmentsMatchWith (question : Bool) : List Segment → List String → Bool
  | [], parts => parts.isEmpty
  | .recursive::rest, parts =>
    (List.range (parts.length+1)).any fun skip => segmentsMatchWith question rest (parts.drop skip)
  | .name _::_, [] => false
  | .name pattern::rest, part::tail =>
    wildcardMatchWith question pattern part && segmentsMatchWith question rest tail

def segmentsMatch (segments : List Segment) (parts : List String) : Bool := segmentsMatchWith true segments parts

def wildcardMatch (pattern name : String) : Bool := wildcardMatchWith false pattern name

def hasWildcard (pattern : String) : Bool := pattern.toList.contains '*'

structure IgnorePattern where
  segments : List Segment

namespace IgnorePattern

def segment (segment : String) : Option Segment :=
  if segment = "" ∨ segment = "." ∨ segment = ".." then none
  else if segment = "**" then some .recursive
  else some (.name segment)

/-- `None` for a pattern that can match no directory. -/
def parse (pattern : String) : Option IgnorePattern := ((parts pattern).mapM segment).map .mk

/-- `""` is the root of the repository. -/
def hits (pattern : IgnorePattern) (path : String) : Bool :=
  segmentsMatchWith true pattern.segments (if path = "" then [] else parts path)

end IgnorePattern

inductive GlobError where
  | invalidPattern (pattern reason : String)
  | invalidExclude (pattern reason : String)
  | noMatch (pattern : String)
  | allExcluded
  | noSubpackageMatch (pattern : String)
  | allSubpackagesExcluded
deriving DecidableEq

def GlobError.message : GlobError → String
  | .invalidPattern pattern reason => "invalid glob pattern '" ++ pattern ++ "': " ++ reason
  | .invalidExclude pattern reason => reason ++ " (in glob pattern '" ++ pattern ++ "')"
  | .noMatch pattern =>
    "glob pattern '" ++ pattern ++ "' didn't match anything, but allow_empty is set to False " ++
      "(the default value of allow_empty can be set with --incompatible_disallow_empty_glob)."
  | .allExcluded =>
    "all files in the glob have been excluded, but allow_empty is set to False " ++
      "(the default value of allow_empty can be set with --incompatible_disallow_empty_glob)."
  | .noSubpackageMatch pattern =>
    "subpackages pattern '" ++ pattern ++ "' didn't match anything, but allow_empty is set to False " ++
      "(the default value)"
  | .allSubpackagesExcluded =>
    "all subpackages in subpackages() have been excluded, but allow_empty is set to False "

/-- An `exclude` pattern. -/
inductive Exclude where
  | literal (path : String)
  | pattern (segments : List Segment)

namespace Exclude

def parse (pattern : String) : Except GlobError Exclude :=
  if !pattern.toList.contains '*' && !pattern.toList.contains '?' then .ok (.literal pattern)
  else
    match checkPattern pattern false with
    | .ok segments => .ok (.pattern segments)
    | .error reason => .error (.invalidExclude pattern reason)

def drops : Exclude → String → Bool
  | .literal text, path => text = path
  | .pattern segments, path => segmentsMatch segments (parts path)

end Exclude

section Text

variable {path other : Path}

theorem toList_written (path : Path) : (written path).toList = ['/'].intercalate (path.map fun n => n.text.toList) :=
  String.toList_ofList

theorem FileName.toList_ne_nil (name : FileName) : name.text.toList ≠ [] := by
  simpa using name.nonempty

theorem splitOn_written (h : path ≠ []) : splitOn '/' (written path).toList = path.map fun n => n.text.toList := by
  rw [toList_written, splitOn_intercalate]
  · simpa using h
  · intro part hpart
    obtain ⟨name,-,rfl⟩ := List.mem_map.mp hpart
    exact name.single

theorem parts_written (h : path ≠ []) : parts (written path) = path.map FileName.text := by
  rw [parts, splitOn_written h, List.map_map]
  apply List.map_congr_left
  intro name _
  simp

theorem written_eq_nil : written path = "" ↔ path = [] := by
  constructor
  · intro h
    by_contra hne
    have hsplit := splitOn_written hne
    rw [h] at hsplit
    obtain ⟨name,rest,rfl⟩ := List.exists_cons_of_ne_nil hne
    exact name.toList_ne_nil (List.cons.inj hsplit).1.symm
  · intro h
    subst h
    rfl

theorem FileName.text_injective : Function.Injective FileName.text := by
  intro a b h
  cases a
  cases b
  exact (FileName.mk.injEq _ _ _ _ _ _).mpr h

/-- Two paths are never written alike. -/
theorem written_injective : Function.Injective written := by
  intro path other h
  by_cases hp : path = []
  · rw [hp] at h ⊢
    exact (written_eq_nil.mp h.symm).symm
  · have ho : other ≠ [] := by
      intro ho
      rw [ho] at h
      exact hp (written_eq_nil.mp h)
    have hparts := congrArg parts h
    rw [parts_written hp, parts_written ho] at hparts
    exact List.map_injective_iff.mpr FileName.text_injective hparts

/-- The walk writes the path of an entry behind that of its directory. -/
theorem join_written (dir : Path) (name : FileName) :
    written (dir ++ [name]) = join (written dir) name.text := by
  unfold join
  split
  · next h =>
    rw [written_eq_nil.mp h]
    simp [written]
  · next h =>
    have hne : dir ≠ [] := fun he => h (written_eq_nil.mpr he)
    rw [← String.toList_inj]
    simp only [toList_written, String.toList_append, List.map_append]
    rw [Text.intercalate_append _ (by simpa using hne) (by simp)]
    simp [List.intercalate_singleton]

end Text

end BuildFiji.Glob

/-!
## Packages on disk

A repository is a tree of directories without links. Which of them are packages
is asked of a lookup, which knows what is ignored and what is deleted.
-/

namespace BuildFiji.Glob

open Graph

/-- What a directory holds, in the order in which it is listed. -/
inductive Entries where
  | nil
  | file (name : FileName) (rest : Entries)
  | dir (name : FileName) (inside rest : Entries)

inductive Kind where
  | file
  | dir
deriving DecidableEq

inductive Item where
  | file
  | dir (inside : Entries)

def Item.kind : Item → Kind
  | .file => .file
  | .dir _ => .dir

namespace Entries

def items : Entries → List (FileName × Item)
  | .nil => []
  | .file name rest => (name,.file)::rest.items
  | .dir name inside rest => (name,.dir inside)::rest.items

/-- No directory has two entries of one name. -/
def Distinct : Entries → Prop
  | .nil => True
  | .file name rest => (∀ e ∈ rest.items, e.1 ≠ name) ∧ rest.Distinct
  | .dir name inside rest => (∀ e ∈ rest.items, e.1 ≠ name) ∧ inside.Distinct ∧ rest.Distinct

def find (name : FileName) : Entries → Option Item
  | .nil => none
  | .file other rest => if other = name then some .file else rest.find name
  | .dir other inside rest => if other = name then some (.dir inside) else rest.find name

/-- The directory of a path. -/
def dirAt : Entries → Path → Option Entries
  | entries, [] => some entries
  | entries, name::path =>
    match entries.find name with
    | some (.dir inside) => inside.dirAt path
    | _ => none

/-- What stands at a path. -/
def kindAt : Entries → Path → Option Kind
  | _, [] => some .dir
  | entries, name::path =>
    match entries.find name with
    | some (.dir inside) => inside.kindAt path
    | some .file => if path = [] then some .file else none
    | none => none

end Entries

structure Tree where
  entries : Entries
  distinct : entries.Distinct

inductive LookupError where
  | notFound (package : String)
  | deleted (package : String)
  | invalidName (package : String) (source : LabelError)

def LookupError.message : LookupError → String
  | .notFound package =>
    "no such package '" ++ package ++ "': BUILD file not found in any of the following " ++
      "directories. Add a BUILD file to a directory to mark it as a package.\n - " ++ package
  | .deleted package =>
    "no such package '" ++ package ++ "': Package is considered deleted due to --deleted_packages"
  | .invalidName package source => "invalid package name '" ++ package ++ "': " ++ source.message

/-- Which directories of one repository are packages. -/
structure PackageLookup where
  root : Tree
  ignored : List String
  ignorePatterns : List IgnorePattern
  deleted : List String
  skippedAtRoot : List String

def buildBazel : FileName := ⟨"BUILD.bazel",by decide,by decide⟩
def build : FileName := ⟨"BUILD",by decide,by decide⟩

namespace PackageLookup

variable (lookup : PackageLookup)

/-- Whether one path is ignored itself. -/
def names (path : String) : Bool :=
  lookup.ignored.contains path || lookup.ignorePatterns.any fun pattern => pattern.hits path

def ignoredFrom (above : String) : List String → Bool
  | [] => false
  | component::rest =>
    let path := if above ≠ "" then above ++ "/" ++ component else component
    if lookup.names path then true else ignoredFrom path rest

/-- Is `package` at or below an ignored directory? -/
def isIgnored (package : String) : Bool :=
  if lookup.ignored.isEmpty && lookup.ignorePatterns.isEmpty then false
  else if !lookup.ignorePatterns.isEmpty && lookup.names "" then true
  else lookup.ignoredFrom "" ((parts package).filter (· ≠ ""))

def isRemoved (package : String) : Bool := lookup.deleted.contains package || lookup.isIgnored package

def packageDir (package : Path) : Option Entries := lookup.root.entries.dirAt package

/-- `metadata` says that it is a file. -/
def isFile (path : Path) : Bool := lookup.root.entries.kindAt path = some .file

/-- The BUILD file that makes `package` a package. -/
def buildFile (package : Path) : Except LookupError Path :=
  match validatePackageName (written package).toList with
  | .error source => .error (.invalidName (written package) source)
  | .ok () =>
    if lookup.isRemoved (written package) then .error (.deleted (written package))
    else
      match [buildBazel,build].find? fun name => lookup.isFile (package ++ [name]) with
      | some name => .ok (package ++ [name])
      | none => .error (.notFound (written package))

def isPackage (package : Path) : Bool := (lookup.buildFile package).toOption.isSome

end PackageLookup

section Entries

variable {entries : Entries} {name : FileName} {item : Item}

theorem Entries.Distinct.mem_items (h : entries.Distinct) :
    (name,item) ∈ entries.items ↔ entries.find name = some item := by
  induction entries with
  | nil => simp [items, find]
  | file other rest ih =>
    rw [items, find, List.mem_cons, Prod.mk.injEq]
    by_cases hother : other = name
    · have hnot : (name,item) ∉ rest.items := fun hm => h.1 _ hm hother.symm
      rw [if_pos hother, or_iff_left hnot, and_iff_right hother.symm, Option.some.injEq]
      exact eq_comm
    · rw [if_neg hother, ← ih h.2]
      simp [Ne.symm hother]
  | dir other inside rest _ ih =>
    rw [items, find, List.mem_cons, Prod.mk.injEq]
    by_cases hother : other = name
    · have hnot : (name,item) ∉ rest.items := fun hm => h.1 _ hm hother.symm
      rw [if_pos hother, or_iff_left hnot, and_iff_right hother.symm, Option.some.injEq]
      exact eq_comm
    · rw [if_neg hother, ← ih h.2.2]
      simp [Ne.symm hother]

theorem Entries.Distinct.inside {inside : Entries} (h : entries.Distinct)
    (hmem : (name,Item.dir inside) ∈ entries.items) : inside.Distinct := by
  induction entries with
  | nil => simp [items] at hmem
  | file other rest ih =>
    rw [items, List.mem_cons] at hmem
    cases hmem with
    | inl heq => simp at heq
    | inr hmem => exact ih h.2 hmem
  | dir other below rest _ ih =>
    rw [items, List.mem_cons] at hmem
    cases hmem with
    | inl heq =>
      rw [Prod.mk.injEq, Item.dir.injEq] at heq
      exact heq.2 ▸ h.2.1
    | inr hmem => exact ih h.2.2 hmem

theorem Entries.dirAt_append (entries : Entries) (path other : Path) :
    entries.dirAt (path ++ other) = (entries.dirAt path).bind fun e => e.dirAt other := by
  induction path generalizing entries with
  | nil => rfl
  | cons name path ih =>
    rw [List.cons_append, dirAt, dirAt]
    split
    · exact ih _
    · rfl

theorem Entries.kindAt_append (entries : Entries) (path : Path) (other : Path) (hne : other ≠ []) :
    entries.kindAt (path ++ other) = (entries.dirAt path).bind fun e => e.kindAt other := by
  induction path generalizing entries with
  | nil => rfl
  | cons name path ih =>
    rw [List.cons_append, kindAt, dirAt]
    cases entries.find name with
    | none => rfl
    | some item =>
      cases item with
      | file => simp [hne]
      | dir inside => exact ih _

theorem Entries.kindAt_dir (entries : Entries) (path : Path) :
    entries.kindAt path = some .dir ↔ (entries.dirAt path).isSome = true := by
  induction path generalizing entries with
  | nil => simp [kindAt, dirAt]
  | cons name path ih =>
    rw [kindAt, dirAt]
    cases entries.find name with
    | none => simp
    | some item =>
      cases item with
      | file =>
        simp only
        split <;> simp
      | dir inside => exact ih _

end Entries

section Ignored

variable {lookup : PackageLookup}

theorem filter_parts_written (path : Path) :
    (parts (written path)).filter (· ≠ "") = path.map FileName.text := by
  by_cases h : path = []
  · subst h
    decide
  · rw [parts_written h, List.filter_eq_self]
    intro text htext
    obtain ⟨name,-,rfl⟩ := List.mem_map.mp htext
    simpa using name.nonempty

theorem ignoredFrom_iff (above path : Path) : lookup.ignoredFrom (written above) (path.map FileName.text) = true ↔
    ∃ q, q ≠ [] ∧ q <+: path ∧ lookup.names (written (above ++ q)) = true := by
  induction path generalizing above with
  | nil =>
    refine iff_of_false Bool.false_ne_true ?_
    rintro ⟨q,hne,hq,_⟩
    exact hne (List.prefix_nil.mp hq)
  | cons name path ih =>
    have hstep : (if written above ≠ "" then written above ++ "/" ++ name.text else name.text) =
        written (above ++ [name]) := by
      rw [join_written, join, ite_not]
    rw [List.map_cons, PackageLookup.ignoredFrom, hstep, Bool.if_true_left, Bool.or_eq_true, ih, decide_eq_true_iff]
    constructor
    · intro h
      cases h with
      | inl h => exact ⟨[name],by simp,by simp,h⟩
      | inr h =>
        obtain ⟨q,_,hq,hnames⟩ := h
        refine ⟨name::q,by simp,by simpa using hq,?_⟩
        simpa using hnames
    · rintro ⟨q,hne,hq,hnames⟩
      obtain ⟨first,rest,rfl⟩ := List.exists_cons_of_ne_nil hne
      obtain ⟨rfl,hrest⟩ := List.cons_prefix_cons.mp hq
      by_cases hnil : rest = []
      · left
        rwa [hnil] at hnames
      · exact .inr ⟨rest,hnil,hrest,by simpa using hnames⟩

/-- What lies below an ignored directory is ignored. -/
theorem isIgnored_below {path other : Path} (h : lookup.isIgnored (written path) = true)
    (hbelow : path <+: other) : lookup.isIgnored (written other) = true := by
  unfold PackageLookup.isIgnored at h ⊢
  split
  · next hempty => simp [hempty] at h
  · next hempty =>
    rw [if_neg hempty] at h
    split
    · rfl
    · next hroot =>
      rw [if_neg hroot, filter_parts_written] at h
      rw [filter_parts_written]
      obtain ⟨q,hne,hq,hnames⟩ := (ignoredFrom_iff [] path).mp h
      exact (ignoredFrom_iff [] other).mpr ⟨q,hne,hq.trans hbelow,hnames⟩

end Ignored

section Packages

variable {lookup : PackageLookup} {path : Path}

theorem isPackage_iff : lookup.isPackage path = true ↔
    validatePackageName (written path).toList = .ok () ∧ lookup.isRemoved (written path) = false ∧
      (lookup.isFile (path ++ [buildBazel]) = true ∨ lookup.isFile (path ++ [build]) = true) := by
  unfold PackageLookup.isPackage PackageLookup.buildFile
  split
  · next hname => simp [hname, Except.toOption]
  · next hname =>
    rw [and_iff_right hname]
    cases hremoved : lookup.isRemoved (written path)
    · rw [if_neg Bool.false_ne_true, and_iff_right rfl]
      split
      · next name hfind =>
        refine iff_of_true rfl ?_
        have hfile := List.find?_some hfind
        have hmem := List.mem_of_find?_eq_some hfind
        simp only [List.mem_cons, List.not_mem_nil, or_false] at hmem
        cases hmem with
        | inl h => exact .inl (h ▸ hfile)
        | inr h => exact .inr (h ▸ hfile)
      · next hfind =>
        rw [List.find?_eq_none] at hfind
        refine iff_of_false (by simp [Except.toOption]) ?_
        intro h
        cases h with
        | inl h => exact hfind _ (by simp) h
        | inr h => exact hfind _ (by simp) h
    · simp [Except.toOption]

/-- Only a directory is a package. -/
theorem isPackage_dir (h : lookup.isPackage path = true) : lookup.root.entries.kindAt path = some .dir := by
  have hdir : ∀ name, lookup.isFile (path ++ [name]) = true → lookup.root.entries.kindAt path = some .dir := by
    intro name hfile
    rw [PackageLookup.isFile, decide_eq_true_iff, Entries.kindAt_append _ _ _ (by simp)] at hfile
    rw [Entries.kindAt_dir, Option.isSome_iff_exists]
    obtain ⟨e,he,_⟩ := Option.bind_eq_some_iff.mp hfile
    exact ⟨e,he⟩
  obtain ⟨_,_,hfile⟩ := isPackage_iff.mp h
  cases hfile with
  | inl hfile => exact hdir _ hfile
  | inr hfile => exact hdir _ hfile

end Packages

end BuildFiji.Glob
