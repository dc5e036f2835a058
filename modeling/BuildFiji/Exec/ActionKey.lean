import BuildFiji.Graph.ActionDefinition
import BuildFiji.Lib.SortDedup
import Mathlib

/-!
# The key of an action

What an action does and what its inputs hold, each field after its length, as
one SHA-256. What the cache finds of a file is a function of its exec path here.
-/

set_option autoImplicit false
set_option linter.all false

namespace BuildFiji.Exec
open Graph Framing SortDedup
open Graph.Configuration (utf8 utf8_injective)

def volatileStatus : String := "bazel-out/volatile-status.txt"

/-- What is found under the execroot. -/
structure Contents where
  isThere : String → Bool
  digest : String → Option String

/-- The digest that counts for the key. Of the volatile status only that it
exists does. -/
def Contents.inputDigest (files : Contents) (path : String) : Option String :=
  if path = volatileStatus then if files.isThere path then some "volatile" else none
  else files.digest path

def inputPaths (a : Action) : List String :=
  sortDedup (a.inputs.map Artifact.execPath)

def outputPaths (a : Action) : List String := a.outputs.map Artifact.execPath

section Key

variable (printable : Char → Bool) (sha256 : List UInt8 → Vector UInt8 32) (files : Contents)

def fragmentFields (path digest : String) : List (List UInt8) := [utf8 path,utf8 digest]

def hashFields (fields : List (List UInt8)) : Vector UInt8 32 := sha256 (fields.flatMap frame64)

def inputFragment (path : String) : Option (Vector UInt8 32) :=
  (files.inputDigest path).map fun digest => hashFields sha256 (fragmentFields path digest)

def fragments (a : Action) : Option (List (Vector UInt8 32)) :=
  (inputPaths a).mapM (inputFragment sha256 files)

def keyFields (a : Action) (found : List (Vector UInt8 32)) : List (List UInt8) :=
  a.definition printable ++ utf8 "inputs" :: found.flatMap Vector.toList :: utf8 "outputs" ::
    (outputPaths a).map utf8

def key (a : Action) : Option (List Char) :=
  (fragments sha256 files a).map fun found =>
    hex (hashFields sha256 (keyFields printable a found)).toList

/-- All that is hashed for the key. -/
def hashed (a : Action) : List (List (List UInt8)) :=
  ((inputPaths a).filterMap fun path => (files.inputDigest path).map (fragmentFields path)) ++
    (fragments sha256 files a).toList.map (keyFields printable a)

end Key

/-- No field is longer than a length says, and no two of what is hashed collide. -/
structure Apart (sha256 : List UInt8 → Vector UInt8 32) (runs : List (List (List UInt8))) :
    Prop where
  short : ∀ fields ∈ runs, ∀ field ∈ fields, field.length < 2^64
  noCollision : ∀ x ∈ runs, ∀ y ∈ runs, hashFields sha256 x = hashFields sha256 y →
    x.flatMap frame64 = y.flatMap frame64

theorem Apart.eq {sha256 : List UInt8 → Vector UInt8 32} {runs : List (List (List UInt8))}
    (h : Apart sha256 runs) {x y : List (List UInt8)} (hx : x ∈ runs) (hy : y ∈ runs)
    (hxy : hashFields sha256 x = hashFields sha256 y) : x = y :=
  frames64_inj (h.short x hx) (h.short y hy) (h.noCollision x hx y hy hxy)

section Separation

variable {printable : Char → Bool} {sha256 : List UInt8 → Vector UInt8 32} {files files' : Contents}

theorem fragments_eq {a : Action} {found : List (Vector UInt8 32)}
    (h : fragments sha256 files a = some found) :
    (inputPaths a).map (inputFragment sha256 files) = found.map some := by
  rw [fragments] at h
  generalize inputPaths a = paths at h ⊢
  induction paths generalizing found with
  | nil =>
    rw [List.mapM_nil] at h
    rw [← Option.some.inj h]
    rfl
  | cons path paths ih =>
    rw [List.mapM_cons] at h
    cases hpath : inputFragment sha256 files path with
    | none =>
      rw [hpath] at h
      cases h
    | some fragment =>
      cases hrest : paths.mapM (inputFragment sha256 files) with
      | none =>
        rw [hpath, hrest] at h
        cases h
      | some rest =>
        rw [hpath, hrest] at h
        rw [← Option.some.inj h, List.map_cons, List.map_cons, hpath, ih hrest]

/-- Equal fragments of hashed inputs come from equal paths and digests. -/
theorem inputs_eq {runs : List (List (List UInt8))} (hapart : Apart sha256 runs)
    {paths paths' : List String} {found : List (Vector UInt8 32)}
    (hruns : ∀ path ∈ paths, ∀ digest, files.inputDigest path = some digest →
      fragmentFields path digest ∈ runs)
    (hruns' : ∀ path ∈ paths', ∀ digest, files'.inputDigest path = some digest →
      fragmentFields path digest ∈ runs)
    (h : paths.map (inputFragment sha256 files) = found.map some)
    (h' : paths'.map (inputFragment sha256 files') = found.map some) :
    paths.map (fun path => (path,files.inputDigest path)) =
      paths'.map fun path => (path,files'.inputDigest path) := by
  induction found generalizing paths paths' with
  | nil =>
    rw [List.map_eq_nil_iff.mp h, List.map_eq_nil_iff.mp h']
    rfl
  | cons fragment found ih =>
    obtain ⟨path,rest,rfl,hpath,hrest⟩ := List.map_eq_cons_iff.mp h
    obtain ⟨path',rest',rfl,hpath',hrest'⟩ := List.map_eq_cons_iff.mp h'
    obtain ⟨digest,hdigest,hhash⟩ := Option.map_eq_some_iff.mp hpath
    obtain ⟨digest',hdigest',hhash'⟩ := Option.map_eq_some_iff.mp hpath'
    have hfields := hapart.eq (hruns path List.mem_cons_self _ hdigest)
      (hruns' path' List.mem_cons_self _ hdigest') (hhash.trans hhash'.symm)
    simp only [fragmentFields, List.cons.injEq, and_true] at hfields
    rw [List.map_cons, List.map_cons, hdigest, hdigest', utf8_injective hfields.1,
      utf8_injective hfields.2,
      ih (fun p hp => hruns p (List.mem_cons_of_mem _ hp))
        (fun p hp => hruns' p (List.mem_cons_of_mem _ hp)) hrest hrest']

theorem keyFields_inj {a b : Action} {found found' : List (Vector UInt8 32)}
    (ha : "outputs" ∉ outputPaths a) (hb : "outputs" ∉ outputPaths b)
    (h : keyFields printable b found' = keyFields printable a found) :
    b.definition printable = a.definition printable ∧ found' = found ∧
      outputPaths b = outputPaths a := by
  have hlast : ∀ c : Action, "outputs" ∉ outputPaths c →
      utf8 "outputs" ∉ (outputPaths c).map utf8 := by
    intro c hc hmem
    exact hc ((List.mem_map_of_injective utf8_injective).mp hmem)
  have hsplit : ∀ (c : Action) (found : List (Vector UInt8 32)), keyFields printable c found =
      (c.definition printable ++ [utf8 "inputs",found.flatMap Vector.toList]) ++
        utf8 "outputs" :: (outputPaths c).map utf8 := by
    intro c found
    rw [keyFields, List.append_assoc]
    rfl
  rw [hsplit, hsplit] at h
  obtain ⟨hbefore,houtputs⟩ := Text.append_last_inj (hlast b hb) (hlast a ha) h
  obtain ⟨hdef,hfound⟩ := List.append_inj' hbefore rfl
  simp only [List.cons.injEq, and_true, true_and] at hfound
  have hcode : Codes.PrefixCode (Vector.toList : Vector UInt8 32 → List UInt8) :=
    .of_length (fun _ _ => Vector.toList_inj.mp) (fun v => Vector.length_toList)
  have hne : ∀ v : Vector UInt8 32, v.toList ≠ [] := by
    intro v hnil
    have hlen := @Vector.length_toList _ _ v
    rw [hnil] at hlen
    cases hlen
  exact ⟨hdef,hcode.words hne hfound,utf8_injective.list_map houtputs⟩

/-- What one key says of two actions. -/
structure SameKeyed (printable : Char → Bool) (files files' : Contents) (a b : Action) : Prop where
  definition : b.definition printable = a.definition printable
  inputs : (inputPaths b).map (fun path => (path,files'.inputDigest path)) =
    (inputPaths a).map fun path => (path,files.inputDigest path)
  outputs : outputPaths b = outputPaths a

theorem hashed_inputs {runs : List (List (List UInt8))} {a : Action}
    (h : ∀ x ∈ hashed printable sha256 files a, x ∈ runs) :
    ∀ path ∈ inputPaths a, ∀ digest, files.inputDigest path = some digest →
      fragmentFields path digest ∈ runs := by
  intro path hpath digest hdigest
  apply h
  apply List.mem_append_left
  apply List.mem_filterMap.mpr
  exact ⟨path,hpath,by rw [hdigest]; rfl⟩

theorem same_keyed {a b : Action} {k : List Char}
    (hapart : Apart sha256 (hashed printable sha256 files a ++ hashed printable sha256 files' b))
    (ha : "outputs" ∉ outputPaths a) (hb : "outputs" ∉ outputPaths b)
    (hka : key printable sha256 files a = some k) (hkb : key printable sha256 files' b = some k) :
    SameKeyed printable files files' a b := by
  obtain ⟨found,hfound,hhexa⟩ := Option.map_eq_some_iff.mp hka
  obtain ⟨found',hfound',hhexb⟩ := Option.map_eq_some_iff.mp hkb
  have hhash := Vector.toList_inj.mp (hex_injective (hhexb.trans hhexa.symm))
  have hruna : keyFields printable a found ∈
      hashed printable sha256 files a ++ hashed printable sha256 files' b := by
    apply List.mem_append_left
    apply List.mem_append_right
    rw [hfound]
    exact List.mem_singleton.mpr rfl
  have hrunb : keyFields printable b found' ∈
      hashed printable sha256 files a ++ hashed printable sha256 files' b := by
    apply List.mem_append_right
    apply List.mem_append_right
    rw [hfound']
    exact List.mem_singleton.mpr rfl
  obtain ⟨hdef,rfl,houtputs⟩ := keyFields_inj ha hb (hapart.eq hrunb hruna hhash)
  refine ⟨hdef,?_,houtputs⟩
  exact inputs_eq hapart (hashed_inputs fun x hx => List.mem_append_right _ hx)
    (hashed_inputs fun x hx => List.mem_append_left _ hx) (fragments_eq hfound') (fragments_eq hfound)

/-- The definition tells the action from those that do something else, and the
key from those with another definition, other inputs or other outputs. -/
structure KeySeparates (printable : Char → Bool) (a : Action) : Prop where
  definition : ∀ b : Action, b.definition printable = a.definition printable →
    b.mnemonic = a.mnemonic ∧ b.kind.work = a.kind.work
  key : ∀ (sha256 : List UInt8 → Vector UInt8 32) (files files' : Contents) (b : Action)
    (k : List Char),
    Apart sha256 (hashed printable sha256 files a ++ hashed printable sha256 files' b) →
    "outputs" ∉ outputPaths a → "outputs" ∉ outputPaths b →
    key printable sha256 files a = some k → key printable sha256 files' b = some k →
    SameKeyed printable files files' a b ∧ b.mnemonic = a.mnemonic ∧ b.kind.work = a.kind.work

theorem key_separates_iff (printable : Char → Bool) (a : Action) :
    KeySeparates printable a ↔ Unambiguous printable a.kind := by
  constructor
  · intro h
    exact (definition_tells_iff a).mp h.definition
  · intro h
    have htells := (definition_tells_iff a).mpr h
    refine ⟨htells,?_⟩
    intro sha256 files files' b k hapart ha hb hka hkb
    have hsame := same_keyed hapart ha hb hka hkb
    exact ⟨hsame,htells b hsame.definition⟩

end Separation

section Collision

/-- `tool env requirements`, with no environment. -/
def markedWords : Action :=
  ⟨"Genrule",.spawn ["tool","env","requirements"] .empty .empty [],[],[]⟩

/-- `tool`, with the variable `requirements`. -/
def markedVariable : Action :=
  ⟨"Genrule",.spawn ["tool"] ⟨[("requirements","env")],List.pairwise_singleton _ _⟩ .empty [],[],[]⟩

def plainText (c : Char) : Bool := c.toNat < 0x7f && 0x20 ≤ c.toNat

/-- Two commands with one definition, and so with one key whatever the hash. -/
theorem marked_collide :
    markedVariable.definition plainText = markedWords.definition plainText ∧
    (∀ sha256 files, key plainText sha256 files markedVariable = key plainText sha256 files markedWords) ∧
    markedVariable.kind.work ≠ markedWords.kind.work := by
  have hdef : markedVariable.definition plainText = markedWords.definition plainText := rfl
  refine ⟨hdef,?_,?_⟩
  · intro sha256 files
    have hfields : keyFields plainText markedVariable = keyFields plainText markedWords :=
      funext fun found => congrArg (· ++ _) hdef
    rw [key, key, hfields]
    rfl
  · intro hwork
    simp [markedVariable, markedWords, ActionKind.work] at hwork

end Collision

end BuildFiji.Exec
