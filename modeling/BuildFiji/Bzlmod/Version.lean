import BuildFiji.Lib.Fallible
import Mathlib

/-!
# Module versions

A version is `RELEASE[-PRERELEASE][+BUILD]`. The build part is dropped when a
version is parsed, so that the text of a version and its identifiers say the
same, and the order of versions is consistent with their equality. The empty
version is above every other.
-/

set_option autoImplicit false
set_option linter.all false

namespace BuildFiji.Bzlmod

/-- A segment between two dots. -/
inductive Identifier where
  | numeric (value : ℕ) (text : String)
  | text (text : String)
deriving DecidableEq

inductive VersionParseError where
  | malformed (version : String)
  | emptyIdentifier
  | segmentTooLarge (segment : String)
deriving DecidableEq

def VersionParseError.message : VersionParseError → String
  | malformed version => "bad version (does not match regex): " ++ version
  | emptyIdentifier => "identifier is empty"
  | segmentTooLarge segment => "numeric version segment is too large: " ++ segment

namespace Identifier

def cmp : Identifier → Identifier → Ordering
  | numeric a s, numeric b t => (compare a b).then (compare s t)
  | numeric _ _, text _ => .lt
  | text _, numeric _ _ => .gt
  | text s, text t => compare s t

instance : Ord Identifier := ⟨cmp⟩

def string : Identifier → String
  | numeric _ s => s
  | text s => s

theorem cmp_swap (a b : Identifier) : cmp a b = (cmp b a).swap := by
  cases a <;> cases b
  · simp only [cmp]
    rw [Ordering.swap_then, ← Std.OrientedOrd.eq_swap, ← Std.OrientedOrd.eq_swap]
  · rfl
  · rfl
  · exact Std.OrientedOrd.eq_swap

instance : Std.OrientedCmp cmp := ⟨cmp_swap _ _⟩

instance : Std.TransCmp cmp where
  isLE_trans {a b c} hab hbc := by
    cases a <;> cases b <;> cases c <;> try first | rfl | contradiction
    · have pair : Std.TransCmp (compareLex (compareOn Prod.fst)
        (compareOn (Prod.snd : ℕ × String → String))) := inferInstance
      exact pair.isLE_trans (a := (_,_)) (b := (_,_)) (c := (_,_)) hab hbc
    · exact Std.TransOrd.isLE_trans hab hbc

instance : Std.LawfulEqCmp cmp where
  eq_of_compare {a b} h := by
    cases a <;> cases b <;> simp_all [cmp, Ordering.then_eq_eq]
  compare_self {a} := by cases a <;> simp [cmp]

instance : Std.TransOrd Identifier := inferInstanceAs (Std.TransCmp cmp)

instance : Std.LawfulEqOrd Identifier := inferInstanceAs (Std.LawfulEqCmp cmp)

def digits (s : List Char) : ℕ := s.foldl (fun n c => n*10+(c.toNat-48)) 0

def parse (s : List Char) : Except VersionParseError Identifier :=
  if s = [] then .error .emptyIdentifier
  else if s.all Char.isDigit then
    if digits s < 2^64 then .ok (numeric (digits s) (.ofList s))
    else .error (.segmentTooLarge (.ofList s))
  else .ok (text (.ofList s))

theorem parse_string {s : List Char} {i : Identifier} (h : parse s = .ok i) :
    i.string.toList = s ∧ s ≠ [] := by
  unfold parse at h
  split at h
  · cases h
  · next hs =>
    refine ⟨?_,hs⟩
    split at h
    · split at h
      · cases h
        exact String.toList_ofList
      · cases h
    · cases h
      exact String.toList_ofList

/-- The identifiers of a dotted text. -/
def parseAll (s : List Char) : Except VersionParseError (List Identifier) :=
  (s.splitOn '.').mapM parse

theorem mapM_parse_string {ss : List (List Char)} {is : List Identifier}
    (h : ss.mapM parse = .ok is) : is.map (fun i => i.string.toList) = ss := by
  rw [Fallible.mapM_ok] at h
  induction h with
  | nil => rfl
  | cons hs _ ih => rw [List.map_cons, ih, (parse_string hs).1]

/-- A dotted text is determined by its identifiers. -/
theorem parseAll_string {s : List Char} {is : List Identifier} (h : parseAll s = .ok is) :
    ['.'].intercalate (is.map fun i => i.string.toList) = s ∧ is ≠ [] := by
  have hmap := mapM_parse_string h
  refine ⟨hmap ▸ List.intercalate_splitOn '.',?_⟩
  rintro rfl
  exact List.splitOn_ne_nil '.' s hmap.symm

end Identifier

def isReleaseChar (c : Char) : Bool := c.isAlphanum || c == '.'

def isPrereleaseChar (c : Char) : Bool := c.isAlphanum || c == '.' || c == '-'

/-- What may follow the captured groups: nothing, or a build part. -/
def isBuild : List Char → Bool
  | [] => true
  | '+'::build => build ≠ [] && build.all isPrereleaseChar
  | _ => false

/-- The groups of the version regex: the release and the prerelease, empty when
there is none. -/
def captures (version : List Char) : Option (List Char × List Char) :=
  let release := version.takeWhile isReleaseChar
  if release = [] then none
  else
    match version.dropWhile isReleaseChar with
    | '-'::rest =>
      let prerelease := rest.takeWhile isPrereleaseChar
      if prerelease ≠ [] ∧ isBuild (rest.dropWhile isPrereleaseChar) then
        some (release,prerelease)
      else none
    | rest => if isBuild rest then some (release,[]) else none

def normalize (release prerelease : List Char) : List Char :=
  if prerelease = [] then release else release ++ '-'::prerelease

def identifiers (release prerelease : List Char) :
    Except VersionParseError (List Identifier × List Identifier) := do
  let r ← Identifier.parseAll release
  let p ← if prerelease = [] then pure [] else Identifier.parseAll prerelease
  pure (r,p)

def dotted (is : List Identifier) : List Char :=
  ['.'].intercalate (is.map fun i => i.string.toList)

theorem identifiers_dotted {r p : List Char} {release prerelease : List Identifier}
    (h : identifiers r p = .ok (release,prerelease)) :
    dotted release = r ∧ release ≠ [] ∧ dotted prerelease = p := by
  rw [identifiers, Fallible.bind_ok] at h
  obtain ⟨is,hr,h⟩ := h
  obtain ⟨h1,h2⟩ := Identifier.parseAll_string hr
  split at h
  · next hp =>
    cases h
    exact ⟨h1,h2,hp.symm⟩
  · simp only [Fallible.bind_ok, Fallible.pure_ok, Prod.mk.injEq] at h
    obtain ⟨js,hp,rfl,rfl⟩ := h
    exact ⟨h1,h2,(Identifier.parseAll_string hp).1⟩

/-- The identifiers of a version are those of its normalized text. -/
structure Version where
  release : List Identifier
  prerelease : List Identifier
  normalized : String
  parsed : (normalized = "" ∧ release = [] ∧ prerelease = []) ∨
    ∃ r p, captures normalized.toList = some (r,p) ∧ normalized.toList = normalize r p ∧
      identifiers r p = .ok (release,prerelease)

namespace Version

def empty : Version := ⟨[],[],"",.inl ⟨rfl,rfl,rfl⟩⟩

def isEmpty (v : Version) : Bool := v.normalized == ""

def isPrerelease (v : Version) : Bool := v.prerelease ≠ []

theorem ext_normalized {a b : Version} (h : a.normalized = b.normalized) : a = b := by
  obtain ⟨r,p,n,ha⟩ := a
  obtain ⟨r',p',n',hb⟩ := b
  obtain rfl : n = n' := h
  have hempty : captures [] = none := rfl
  rcases ha with ⟨rfl,rfl,rfl⟩ | ⟨x,y,hc,-,hi⟩ <;> rcases hb with ⟨hn,rfl,rfl⟩ | ⟨x',y',hc',-,hi'⟩
  · rfl
  · cases hempty.symm.trans hc'
  · subst hn
    cases hempty.symm.trans hc
  · cases hc.symm.trans hc'
    cases hi.symm.trans hi'
    rfl

instance : DecidableEq Version := fun a b =>
  decidable_of_iff (a.normalized = b.normalized) ⟨ext_normalized,congrArg normalized⟩

def cmp (a b : Version) : Ordering :=
  (compare a.isEmpty b.isEmpty).then <| (compare a.release b.release).then <|
    (compare b.isPrerelease a.isPrerelease).then (compare a.prerelease b.prerelease)

instance : Ord Version := ⟨cmp⟩

/-- A version is determined by its identifiers. -/
theorem ext_identifiers {a b : Version} (hr : a.release = b.release)
    (hp : a.prerelease = b.prerelease) : a = b := by
  refine ext_normalized ?_
  rcases a.parsed with ⟨hn,har,-⟩ | ⟨r,p,-,hn,hi⟩ <;> rcases b.parsed with ⟨hn',hbr,-⟩ | ⟨r',p',-,hn',hi'⟩
  · rw [hn, hn']
  · exact absurd (hr ▸ har) (identifiers_dotted hi').2.1
  · exact absurd (hr ▸ hbr) (identifiers_dotted hi).2.1
  · obtain ⟨h1,-,h2⟩ := identifiers_dotted hi
    obtain ⟨h1',-,h2'⟩ := identifiers_dotted hi'
    apply String.toList_injective
    rw [hn, hn', ← h1, ← h2, ← h1', ← h2', hr, hp]

theorem cmp_eq_lex : cmp = compareLex (compareOn isEmpty) (compareLex (compareOn release)
    (compareLex (fun a b => compareOn isPrerelease b a) (compareOn prerelease))) := rfl

instance : Std.TransCmp cmp := by
  rw [cmp_eq_lex]
  infer_instance

instance : Std.LawfulEqCmp cmp where
  eq_of_compare {a b} h := by
    simp only [cmp, Ordering.then_eq_eq, Std.LawfulEqOrd.compare_eq_iff_eq] at h
    exact ext_identifiers h.2.1 h.2.2.2

instance : Std.TransOrd Version := inferInstanceAs (Std.TransCmp cmp)

instance : Std.LawfulEqOrd Version := inferInstanceAs (Std.LawfulEqCmp cmp)

instance : LinearOrder Version := LinearOrder.ofStd Version

theorem isEmpty_iff {v : Version} : v.isEmpty = true ↔ v = empty := by
  refine ⟨fun h => ext_normalized (beq_iff_eq.mp h),?_⟩
  rintro rfl
  rfl

theorem le_empty (v : Version) : v ≤ empty := by
  refine le_of_not_gt fun h => ?_
  have hlt : cmp empty v = .lt := Std.compare_eq_lt.mpr h
  cases hv : v.isEmpty with
  | true =>
    rw [isEmpty_iff.mp hv] at hlt
    cases hlt
  | false =>
    simp only [cmp, hv] at hlt
    cases hlt

instance : OrderTop Version where
  top := empty
  le_top := le_empty

theorem takeWhile_stop {f : Char → Bool} {s : List Char} (rest : List Char) (hs : ∀ c ∈ s, f c = true)
    (hrest : ∀ c ∈ rest.head?, f c = false) :
    (s ++ rest).takeWhile f = s ∧ (s ++ rest).dropWhile f = rest := by
  rw [List.takeWhile_append_of_pos hs, List.dropWhile_append_of_pos hs]
  cases rest with
  | nil => simp
  | cons c rest => simp [hrest c rfl]

theorem captures_chars {s r p : List Char} (h : captures s = some (r,p)) :
    (∀ c ∈ r, isReleaseChar c = true) ∧ ∀ c ∈ p, isPrereleaseChar c = true := by
  simp only [captures] at h
  split at h
  · cases h
  · split at h
    · split at h
      · cases h
        exact ⟨fun c hc => List.mem_takeWhile_imp hc,fun c hc => List.mem_takeWhile_imp hc⟩
      · cases h
    · split at h
      · cases h
        exact ⟨fun c hc => List.mem_takeWhile_imp hc,nofun⟩
      · cases h

/-- The captured groups have no build part, and are captured again. -/
theorem captures_normalize {s r p : List Char} (h : captures s = some (r,p)) :
    captures (normalize r p) = some (r,p) := by
  have hr : ∀ c ∈ s.takeWhile isReleaseChar, isReleaseChar c = true :=
    fun c hc => List.mem_takeWhile_imp hc
  simp only [captures] at h
  split at h
  · cases h
  · next hne =>
    split at h
    · next rest hrest =>
      split at h
      · next hp =>
        cases h
        have h1 : ∀ c ∈ ('-'::rest.takeWhile isPrereleaseChar).head?, isReleaseChar c = false := by
          intro c hc
          cases hc
          rfl
        obtain ⟨h2,h3⟩ := takeWhile_stop _ hr h1
        have h4 : ∀ c ∈ rest.takeWhile isPrereleaseChar, isPrereleaseChar c = true :=
          fun c hc => List.mem_takeWhile_imp hc
        obtain ⟨h5,h6⟩ := takeWhile_stop [] h4 (by simp)
        rw [List.append_nil] at h5 h6
        simp only [captures, normalize, if_neg hp.1, h2, h3, h5, h6, if_neg hne]
        simp [hp.1, isBuild]
      · cases h
    · split at h
      · cases h
        obtain ⟨h2,h3⟩ := takeWhile_stop [] hr (by simp)
        rw [List.append_nil] at h2 h3
        simp only [captures, normalize, if_true, h2, h3, if_neg hne]
        simp [isBuild]
      · cases h

def parse (version : String) : Except VersionParseError Version :=
  if version = "" then .ok empty
  else
    match h : captures version.toList with
    | none => .error (.malformed version)
    | some (r,p) =>
      match h' : identifiers r p with
      | .error e => .error e
      | .ok (release,prerelease) => .ok ⟨release,prerelease,.ofList (normalize r p),
          .inr ⟨r,p,by rw [String.toList_ofList, captures_normalize h],String.toList_ofList,h'⟩⟩

example : (parse "1.10-rc.1+b2").map normalized = .ok "1.10-rc.1" := by decide

example : (do return compare (← parse "1.9") (← parse "1.10")) = .ok Ordering.lt := by decide

end Version

end BuildFiji.Bzlmod
