import BuildFiji.Lib.PrefixCode
import BuildFiji.Lib.Worklist
import BuildFiji.Repo.RepoAttr
import BuildFiji.Repo.RecordedInputs
import Mathlib.Data.List.Dedup
import Mathlib.Data.List.Sort
import Mathlib.Data.String.Basic

/-!
# The files of an extension

A file is evaluated once, after the files it loads. Its transitive digest is that of the
digest of its text and of the transitive digests of what it loads. The repo names in its
load statements and in its calls of `Label` are noted; those in the defaults of attributes
and in `visibility` are looked up without a note.
-/

set_option autoImplicit false
set_option linter.all false

namespace BuildFiji.Replay

open BuildFiji.Graph (Label validateRepoName)

open BuildFiji.Recorded (Text Bytes)

abbrev Digest := Vector UInt8 32

structure BzlFile where
  label : Label
  text : Bytes
  loads : List Label
  noted : List Text
  quiet : List Text

/-- The files that were evaluated, in the order in which that ended. -/
structure Loaded where
  files : List BzlFile
  once : (files.map BzlFile.label).Nodup
  loadsFirst : ∀ done f later, files = done ++ f::later → ∀ l ∈ f.loads, l ∈ done.map BzlFile.label
  named : ∀ f ∈ files, validateRepoName f.label.repo.toList = .ok () ∧
    ∀ name ∈ f.noted, validateRepoName name = .ok ()

section Digests
variable (sha256 : Bytes → Digest)

def digestBytes (digest : Option Digest) : Bytes := (digest.map Vector.toList).getD []

def fileBytes (digests : Label → Option Digest) (f : BzlFile) : Bytes :=
  (sha256 f.text).toList ++ f.loads.flatMap fun l => digestBytes (digests l)

def addDigest (digests : Label → Option Digest) (f : BzlFile) : Label → Option Digest :=
  Function.update digests f.label (some (sha256 (fileBytes sha256 digests f)))

def Loaded.transitiveDigest (l : Loaded) : Label → Option Digest :=
  l.files.foldl (addDigest sha256) fun _ => none

/-- All that is hashed. -/
def Loaded.hashed (l : Loaded) : List Bytes :=
  l.files.flatMap fun f => [f.text,fileBytes sha256 (l.transitiveDigest sha256) f]

end Digests

section Lookups

def Loaded.at (l : Loaded) (name : String) : List BzlFile :=
  l.files.filter fun f => labelText f.label == name

def Loaded.loadsOf (l : Loaded) (name : String) : List String :=
  (((l.at name).flatMap BzlFile.loads).map labelText).dedup.insertionSort (· ≤ ·)

variable (mapping : Text → Text → Option Text)

def lookupRow (repo apparent : Text) : String × String × String :=
  (.ofList repo,.ofList apparent,.ofList ((mapping repo apparent).getD "\\0".toList))

def Loaded.lookupsOf (l : Loaded) (name : String) : List (String × String × String) :=
  (l.at name).flatMap fun f => f.noted.map fun apparent => lookupRow mapping f.label.repo.toList apparent

def rowLe (a b : String × String × String) : Prop :=
  a.1 < b.1 ∨ a.1 = b.1 ∧ (a.2.1 < b.2.1 ∨ a.2.1 = b.2.1 ∧ a.2.2 ≤ b.2.2)

instance (a b : String × String × String) : Decidable (rowLe a b) := inferInstanceAs (Decidable (_ ∨ _))

/-- What a file and all it loads noted. There are as many turns as names that are put on
the stack. -/
def Loaded.lookupsUnder (l : Loaded) (root : Label) : List (String × String × String) :=
  let turns := Worklist.pendingEdges l.loadsOf (l.files.map fun f => labelText f.label) []+2
  let seen := (Worklist.walk l.loadsOf turns [labelText root] []).getD []
  ((seen.flatMap (l.lookupsOf mapping)).dedup).insertionSort rowLe

end Lookups

/-- The file is the root, or is loaded by the root, directly or not. -/
inductive Under (l : Loaded) (root : Label) : BzlFile → Prop where
  | root {f : BzlFile} : f ∈ l.files → f.label = root → Under l root f
  | load {f g : BzlFile} : Under l root f → g ∈ l.files → g.label ∈ f.loads → Under l root g

/-- The two files are at the same place among what two roots load. -/
inductive Corresponds (l l' : Loaded) (root root' : Label) : BzlFile → BzlFile → Prop where
  | root {f f' : BzlFile} : f ∈ l.files → f' ∈ l'.files → f.label = root → f'.label = root' →
      Corresponds l l' root root' f f'
  | load {f f' g g' : BzlFile} {i : ℕ} : Corresponds l l' root root' f f' → g ∈ l.files →
      g' ∈ l'.files → f.loads[i]? = some g.label → f'.loads[i]? = some g'.label →
      Corresponds l l' root root' g g'

section Evaluated
variable {sha256 : Bytes → Digest} {l l' : Loaded} {f f' : BzlFile}

theorem digests_other {digests : Label → Option Digest} {files : List BzlFile} {label : Label}
    (h : label ∉ files.map BzlFile.label) : files.foldl (addDigest sha256) digests label = digests label := by
  induction files generalizing digests with
  | nil => rfl
  | cons f files ih =>
    rw [List.map_cons, List.mem_cons, not_or] at h
    rw [List.foldl_cons, ih h.2, addDigest, Function.update_of_ne h.1]

theorem digests_isSome {digests : Label → Option Digest} {files : List BzlFile} {label : Label}
    (h : label ∈ files.map BzlFile.label) : ((files.foldl (addDigest sha256) digests label).isSome) := by
  induction files generalizing digests with
  | nil => cases h
  | cons f files ih =>
    rw [List.foldl_cons]
    by_cases hmem : label ∈ files.map BzlFile.label
    · exact ih hmem
    · rw [digests_other hmem]
      obtain rfl := (List.mem_cons.mp h).resolve_right hmem
      rw [addDigest, Function.update_self]
      rfl

theorem Loaded.digest_of (hf : f ∈ l.files) :
    l.transitiveDigest sha256 f.label = some (sha256 (fileBytes sha256 (l.transitiveDigest sha256) f)) ∧
      ∀ label ∈ f.loads, (l.transitiveDigest sha256 label).isSome := by
  obtain ⟨done,later,heq⟩ := List.append_of_mem hf
  have honce := l.once
  rw [heq, List.map_append, List.map_cons] at honce
  obtain ⟨-,hlater,hapart⟩ := List.nodup_append.mp honce
  have hdigests : l.transitiveDigest sha256 = later.foldl (addDigest sha256)
      (addDigest sha256 (done.foldl (addDigest sha256) fun _ => none) f) := by
    rw [Loaded.transitiveDigest, heq, List.foldl_append, List.foldl_cons]
  -- What a file loads has its digest before the file, and keeps it.
  have hkept : ∀ label ∈ f.loads,
      l.transitiveDigest sha256 label = done.foldl (addDigest sha256) (fun _ => none) label := by
    intro label hlabel
    have hdone := l.loadsFirst done f later heq label hlabel
    have hne : ∀ x ∈ f.label::later.map BzlFile.label, label ≠ x := fun x hx => hapart label hdone x hx
    rw [hdigests, digests_other fun hmem => hne label (List.mem_cons_of_mem _ hmem) rfl, addDigest,
      Function.update_of_ne (hne _ List.mem_cons_self)]
  have hbytes : fileBytes sha256 (l.transitiveDigest sha256) f =
      fileBytes sha256 (done.foldl (addDigest sha256) fun _ => none) f := by
    rw [fileBytes, fileBytes]
    congr 1
    exact List.flatMap_congr fun label hlabel => by rw [hkept label hlabel]
  refine ⟨?_,fun label hlabel => ?_⟩
  · rw [hbytes, hdigests, digests_other (List.nodup_cons.mp hlater).1, addDigest, Function.update_self]
  · rw [hkept label hlabel]
    exact digests_isSome (l.loadsFirst done f later heq label hlabel)

theorem digests_inj {xs ys : List (Option Digest)} (hx : ∀ x ∈ xs, x.isSome) (hy : ∀ y ∈ ys, y.isSome)
    (h : xs.flatMap digestBytes = ys.flatMap digestBytes) : xs = ys := by
  have hvector : Codes.PrefixCode (Vector.toList : Digest → Bytes) :=
    .of_length (n := 32) (fun _ _ h => Vector.toList_inj.mp h) fun v => v.size_toArray
  have hcode : ∀ zs : List (Option Digest), (∀ z ∈ zs, z.isSome) →
      ∃ ds : List Digest, zs = ds.map some ∧ zs.flatMap digestBytes = ds.flatMap Vector.toList := by
    intro zs hz
    induction zs with
    | nil => exact ⟨[],rfl,rfl⟩
    | cons z zs ih =>
      obtain ⟨ds,rfl,hds⟩ := ih fun y hy => hz y (List.mem_cons_of_mem _ hy)
      obtain ⟨d,rfl⟩ := Option.isSome_iff_exists.mp (hz z List.mem_cons_self)
      exact ⟨d::ds,rfl,by rw [List.flatMap_cons, List.flatMap_cons, hds]; rfl⟩
  obtain ⟨ds,rfl,hds⟩ := hcode xs hx
  obtain ⟨es,rfl,hes⟩ := hcode ys hy
  rw [hds, hes] at h
  rw [hvector.words (fun d hnil => ?_) h]
  have hlen : d.toList.length = 32 := d.size_toArray
  rw [hnil] at hlen
  cases hlen

/-- Files with one digest have one text, and load files with the same digests. -/
theorem same_digest (hno : ∀ x ∈ l.hashed sha256 ++ l'.hashed sha256,
      ∀ y ∈ l.hashed sha256 ++ l'.hashed sha256, sha256 x = sha256 y → x = y)
    (hf : f ∈ l.files) (hf' : f' ∈ l'.files)
    (h : l.transitiveDigest sha256 f.label = l'.transitiveDigest sha256 f'.label) :
    f.text = f'.text ∧ f.loads.map (l.transitiveDigest sha256) =
      f'.loads.map (l'.transitiveDigest sha256) := by
  obtain ⟨hd,hloads⟩ := @Loaded.digest_of sha256 l f hf
  obtain ⟨hd',hloads'⟩ := @Loaded.digest_of sha256 l' f' hf'
  have hmem : ∀ x ∈ [f.text,fileBytes sha256 (l.transitiveDigest sha256) f],
      x ∈ l.hashed sha256 ++ l'.hashed sha256 := fun x hx =>
    List.mem_append_left _ (List.mem_flatMap.mpr ⟨f,hf,hx⟩)
  have hmem' : ∀ x ∈ [f'.text,fileBytes sha256 (l'.transitiveDigest sha256) f'],
      x ∈ l.hashed sha256 ++ l'.hashed sha256 := fun x hx =>
    List.mem_append_right _ (List.mem_flatMap.mpr ⟨f',hf',hx⟩)
  rw [hd, hd', Option.some.injEq] at h
  have hbytes := hno _ (hmem _ (by simp)) _ (hmem' _ (by simp)) h
  obtain ⟨htext,hrest⟩ := List.append_inj hbytes
    ((sha256 f.text).size_toArray.trans (sha256 f'.text).size_toArray.symm)
  refine ⟨hno _ (hmem _ (by simp)) _ (hmem' _ (by simp)) (Vector.toList_inj.mp htext),
    digests_inj ?_ ?_ ?_⟩
  · simpa using hloads
  · simpa using hloads'
  · rw [List.flatMap_map, List.flatMap_map]
    exact hrest

theorem same_files (hno : ∀ x ∈ l.hashed sha256 ++ l'.hashed sha256,
      ∀ y ∈ l.hashed sha256 ++ l'.hashed sha256, sha256 x = sha256 y → x = y) {root root' : Label}
    (h : l.transitiveDigest sha256 root = l'.transitiveDigest sha256 root')
    (hc : Corresponds l l' root root' f f') :
    f ∈ l.files ∧ f' ∈ l'.files ∧
      l.transitiveDigest sha256 f.label = l'.transitiveDigest sha256 f'.label := by
  induction hc with
  | root hf hf' hr hr' => exact ⟨hf,hf',by rw [hr, hr', h]⟩
  | @load f f' g g' i hc hg hg' hi hi' ih =>
    obtain ⟨hf,hf',hd⟩ := ih
    have hmaps := congrArg (fun ds => ds[i]?) (same_digest hno hf hf' hd).2
    simp only [List.getElem?_map, hi, hi', Option.map_some, Option.some.injEq] at hmaps
    exact ⟨hg,hg',hmaps⟩

theorem lookup_under {mapping : Text → Text → Option Text} {root : Label} (h : Under l root f)
    {apparent : Text} (ha : apparent ∈ f.noted) :
    lookupRow mapping f.label.repo.toList apparent ∈ l.lookupsUnder mapping root := by
  have hat : ∀ g ∈ l.files, g ∈ l.at (labelText g.label) := fun g hg =>
    List.mem_filter.mpr ⟨hg,beq_self_eq_true _⟩
  have hnodes : ∀ name, l.loadsOf name ≠ [] → name ∈ l.files.map fun f => labelText f.label := by
    intro name hne
    by_contra hno
    apply hne
    have hempty : l.at name = [] := List.filter_eq_nil_iff.mpr fun g hg heq =>
      hno (List.mem_map.mpr ⟨g,hg,beq_iff_eq.mp heq⟩)
    rw [Loaded.loadsOf, hempty]
    rfl
  obtain ⟨out,hout⟩ := @Worklist.walk_ends _ _ l.loadsOf [] [labelText root] _ hnodes
    (Worklist.pendingEdges l.loadsOf (l.files.map fun f => labelText f.label) []+2)
    (by rw [List.length_singleton]; omega)
  have hreach : f ∈ l.files ∧ Relation.ReflTransGen (Worklist.Step l.loadsOf) (labelText root)
      (labelText f.label) := by
    clear ha
    induction h with
    | root hf hr => exact ⟨hf,hr ▸ .refl⟩
    | @load f g hu hg hload ih =>
      obtain ⟨hf,hr⟩ := ih
      refine ⟨hg,hr.tail ?_⟩
      rw [Worklist.Step, Loaded.loadsOf, List.mem_insertionSort, List.mem_dedup]
      exact List.mem_map_of_mem (List.mem_flatMap.mpr ⟨f,hat f hf,hload⟩)
  have hseen := (Worklist.mem_walk hout _).mpr ⟨_,List.mem_singleton_self _,hreach.2⟩
  rw [Loaded.lookupsUnder, hout, List.mem_insertionSort, List.mem_dedup]
  refine List.mem_flatMap.mpr ⟨_,hseen,List.mem_flatMap.mpr ⟨f,hat f hreach.1,?_⟩⟩
  exact List.mem_map_of_mem ha

end Evaluated

end BuildFiji.Replay
