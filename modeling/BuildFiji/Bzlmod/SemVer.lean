import BuildFiji.Bzlmod.Version
import Mathlib

/-!
# Versions of SemVer

The versions of SemVer 2.0 are versions of modules, and are in the same order. The build
part is no part of a version, and a version is read again from its own text.
-/

set_option autoImplicit false
set_option linter.all false

namespace BuildFiji.Bzlmod

def isSemVerChar (c : Char) : Bool := c.isAlphanum || c == '-'

/-- Digits without leading zeros. -/
def IsNumeric (s : List Char) : Prop :=
  s ≠ [] ∧ s.all Char.isDigit = true ∧ (s.head? = some '0' → s = ['0'])

/-- A prerelease identifier that is not a number. -/
def IsAlphanumeric (s : List Char) : Prop :=
  s.all isSemVerChar = true ∧ s.all Char.isDigit = false

structure SemVer where
  major : List Char
  minor : List Char
  patch : List Char
  prerelease : List (List Char)
  build : List (List Char)
  core : IsNumeric major ∧ IsNumeric minor ∧ IsNumeric patch
  identifiers : ∀ s ∈ prerelease, IsNumeric s ∨ IsAlphanumeric s
  metadata : ∀ s ∈ build, s ≠ [] ∧ s.all isSemVerChar = true

namespace SemVer

def joined (parts : List (List Char)) : List Char := ['.'].intercalate parts

def release (v : SemVer) : List (List Char) := [v.major,v.minor,v.patch]

def text (v : SemVer) : List Char :=
  joined v.release ++ (if v.prerelease = [] then [] else '-' :: joined v.prerelease) ++
    if v.build = [] then [] else '+' :: joined v.build

/-- Numbers by their value and below what is not a number. -/
def compareIdentifier (s t : List Char) : Ordering :=
  if s.all Char.isDigit then
    if t.all Char.isDigit then compare (Identifier.digits s) (Identifier.digits t) else .lt
  else if t.all Char.isDigit then .gt
  else compare (String.ofList s) (String.ofList t)

def compareIdentifiers : List (List Char) → List (List Char) → Ordering
  | [], [] => .eq
  | [], _::_ => .lt
  | _::_, [] => .gt
  | s::ss, t::ts => (compareIdentifier s t).then (compareIdentifiers ss ts)

/-- The precedence of SemVer: a version without a prerelease is above those with one. -/
def precedence (v w : SemVer) : Ordering :=
  (compare (Identifier.digits v.major) (Identifier.digits w.major)).then <|
    (compare (Identifier.digits v.minor) (Identifier.digits w.minor)).then <|
      (compare (Identifier.digits v.patch) (Identifier.digits w.patch)).then <|
        match v.prerelease, w.prerelease with
        | [], [] => .eq
        | [], _::_ => .gt
        | _::_, [] => .lt
        | p, q => compareIdentifiers p q

/-- Its numbers fit a segment. -/
def Fits (v : SemVer) : Prop :=
  ∀ s ∈ v.release ++ v.prerelease, s.all Char.isDigit = true → Identifier.digits s < 2^64

end SemVer

section Build

theorem takeWhile_append_stop {f : Char → Bool} {c : Char} (hc : f c = false) (s rest : List Char) :
    (s ++ c::rest).takeWhile f = s.takeWhile f ∧
      (s ++ c::rest).dropWhile f = s.dropWhile f ++ c::rest := by
  induction s with
  | nil => simp [hc]
  | cons d s ih =>
    rw [List.cons_append, List.takeWhile_cons, List.dropWhile_cons, List.takeWhile_cons,
      List.dropWhile_cons]
    split
    · exact ⟨congrArg _ ih.1,ih.2⟩
    · exact ⟨rfl,rfl⟩

theorem mem_of_mem_dropWhile {f : Char → Bool} {c : Char} {s : List Char}
    (h : c ∈ s.dropWhile f) : c ∈ s := (List.dropWhile_sublist f).subset h

theorem isBuild_append {s build : List Char} (hs : '+' ∉ s) :
    isBuild (s ++ '+'::build) = if s = [] then isBuild ('+'::build) else false := by
  cases s with
  | nil => rfl
  | cons c s =>
    have hc : c ≠ '+' := fun heq => hs (heq ▸ List.mem_cons_self)
    rw [if_neg (List.cons_ne_nil _ _), List.cons_append]
    unfold isBuild
    split
    · next h => cases h
    · next h =>
      cases h
      exact absurd rfl hc
    · rfl

theorem isBuild_of_not_mem {s : List Char} (hs : '+' ∉ s) : isBuild s = decide (s = []) := by
  cases s with
  | nil => rfl
  | cons c s =>
    unfold isBuild
    split
    · next h => cases h
    · next h =>
      cases h
      exact absurd List.mem_cons_self hs
    · simp

/-- The captures once the release has been read. -/
def capturesRest (release : List Char) : List Char → Option (List Char × List Char)
  | '-'::rest =>
    if rest.takeWhile isPrereleaseChar ≠ [] ∧ isBuild (rest.dropWhile isPrereleaseChar) then
      some (release,rest.takeWhile isPrereleaseChar)
    else none
  | rest => if isBuild rest then some (release,[]) else none

theorem captures_eq (s : List Char) : captures s =
    if s.takeWhile isReleaseChar = [] then none
    else capturesRest (s.takeWhile isReleaseChar) (s.dropWhile isReleaseChar) := by
  unfold captures capturesRest
  rfl

theorem capturesRest_build {release rest build : List Char} (hrest : '+' ∉ rest) :
    capturesRest release (rest ++ '+'::build) =
      if isBuild ('+'::build) then capturesRest release rest else none := by
  by_cases hdash : ∃ pre, rest = '-'::pre
  · obtain ⟨pre,rfl⟩ := hdash
    obtain ⟨htake,hdrop⟩ := takeWhile_append_stop (f := isPrereleaseChar) (c := '+') rfl pre build
    have hpre : '+' ∉ pre.dropWhile isPrereleaseChar :=
      fun h => hrest (List.mem_cons_of_mem _ (mem_of_mem_dropWhile h))
    rw [List.cons_append]
    simp only [capturesRest, htake, hdrop, isBuild_append hpre, isBuild_of_not_mem hpre]
    by_cases hnil : pre.dropWhile isPrereleaseChar = []
    · cases isBuild ('+'::build) <;> simp [hnil]
    · simp [hnil]
  · have hother : ∀ x, (∀ pre, x ≠ '-'::pre) →
        capturesRest release x = if isBuild x then some (release,[]) else none := by
      intro x hx
      unfold capturesRest
      split
      · next pre => exact absurd rfl (hx pre)
      · rfl
    have hrest' : ∀ pre, rest ≠ '-'::pre := fun pre heq => hdash ⟨pre,heq⟩
    have hbuild : ∀ pre, rest ++ '+'::build ≠ '-'::pre := by
      intro pre heq
      cases rest with
      | nil => cases heq
      | cons c rest =>
        cases heq
        exact hrest' rest rfl
    rw [hother _ hrest', hother _ hbuild, isBuild_append hrest, isBuild_of_not_mem hrest]
    by_cases hnil : rest = []
    · cases isBuild ('+'::build) <;> simp [hnil]
    · simp [hnil]

/-- A build part is checked and left out. -/
theorem captures_build {s build : List Char} (hs : '+' ∉ s) :
    captures (s ++ '+'::build) = if isBuild ('+'::build) then captures s else none := by
  obtain ⟨htake,hdrop⟩ := takeWhile_append_stop (f := isReleaseChar) (c := '+') rfl s build
  have hrest : '+' ∉ s.dropWhile isReleaseChar := fun h => hs (mem_of_mem_dropWhile h)
  rw [captures_eq, captures_eq, htake, hdrop, capturesRest_build hrest]
  split
  · split <;> rfl
  · rfl

/-- Groups of the right characters are captured. -/
theorem captures_of_chars {r p : List Char} (hne : r ≠ []) (hr : ∀ c ∈ r, isReleaseChar c = true)
    (hp : ∀ c ∈ p, isPrereleaseChar c = true) : captures (normalize r p) = some (r,p) := by
  rw [captures_eq, normalize]
  split
  · next hnil =>
    obtain ⟨htake,hdrop⟩ := Version.takeWhile_stop [] hr (by simp)
    rw [List.append_nil] at htake hdrop
    rw [htake, hdrop, if_neg hne, hnil]
    rfl
  · next hnil =>
    have hstop : ∀ c ∈ ('-'::p).head?, isReleaseChar c = false := by
      rintro c hc
      cases hc
      rfl
    obtain ⟨htake,hdrop⟩ := Version.takeWhile_stop _ hr hstop
    obtain ⟨htake',hdrop'⟩ := Version.takeWhile_stop [] hp (by simp)
    rw [List.append_nil] at htake' hdrop'
    rw [htake, hdrop, if_neg hne]
    show (if List.takeWhile isPrereleaseChar p ≠ [] ∧ _ then _ else _) = _
    rw [htake', hdrop', if_pos ⟨hnil,rfl⟩]

namespace Version

theorem parse_ok {s : String} {v : Version} : parse s = .ok v ↔ s = "" ∧ v = empty ∨ s ≠ "" ∧
    ∃ r p, captures s.toList = some (r,p) ∧ Bzlmod.identifiers r p = .ok (v.release,v.prerelease) ∧
      v.normalized = .ofList (normalize r p) := by
  unfold parse
  split
  · next hs =>
    constructor
    · intro h
      cases h
      exact .inl ⟨hs,rfl⟩
    · rintro (⟨-,rfl⟩ | ⟨hne,-⟩)
      · rfl
      · exact absurd hs hne
  · next hs =>
    rw [or_iff_right fun h => hs h.1, and_iff_right hs]
    split
    · next hcaptures =>
      refine ⟨nofun,?_⟩
      rintro ⟨r,p,hr,-⟩
      rw [hcaptures] at hr
      cases hr
    · next r p hcaptures =>
      have hother : ∀ r' p', captures s.toList = some (r',p') → r' = r ∧ p' = p := by
        intro r' p' h
        rw [hcaptures] at h
        cases h
        exact ⟨rfl,rfl⟩
      split
      · next e hids =>
        refine ⟨nofun,?_⟩
        rintro ⟨r',p',hr,hok,-⟩
        obtain ⟨rfl,rfl⟩ := hother r' p' hr
        rw [hids] at hok
        cases hok
      · next release prerelease hids =>
        constructor
        · intro h
          cases h
          exact ⟨r,p,hcaptures,hids,rfl⟩
        · rintro ⟨r',p',hr,hok,hnormalized⟩
          obtain ⟨rfl,rfl⟩ := hother r' p' hr
          exact congrArg Except.ok (ext_normalized hnormalized.symm)

theorem parse_normalized (v : Version) : parse v.normalized = .ok v := by
  rw [parse_ok]
  rcases v.parsed with ⟨hempty,-,-⟩ | ⟨r,p,hcaptures,hnormalized,hids⟩
  · exact .inl ⟨hempty,ext_normalized hempty⟩
  · right
    refine ⟨?_,r,p,hcaptures,hids,?_⟩
    · intro hempty
      rw [hempty] at hcaptures
      cases hcaptures
    · rw [← hnormalized, String.ofList_toList]

/-- Texts that differ in their build part are the same version. -/
theorem parse_build {s build : String} (hs : '+' ∉ s.toList) (v : Version) :
    parse (s ++ "+" ++ build) = .ok v ↔
      isBuild ('+' :: build.toList) = true ∧ s ≠ "" ∧ parse s = .ok v := by
  have hlist : (s ++ "+" ++ build).toList = s.toList ++ '+'::build.toList := by
    rw [String.toList_append, String.toList_append, List.append_assoc]
    rfl
  have hempty : captures [] = none := rfl
  rw [parse_ok, parse_ok, hlist, captures_build hs]
  by_cases hbuild : isBuild ('+'::build.toList) = true
  · by_cases hsne : s = ""
    · subst hsne
      simp [hbuild, hempty]
    · simp [hbuild, hsne]
  · simp [hbuild]

end Version

end Build

section Digits

theorem digits_append (s : List Char) (c : Char) :
    Identifier.digits (s ++ [c]) = Identifier.digits s*10+(c.toNat-48) := by
  rw [Identifier.digits, List.foldl_append]
  rfl

theorem digitChar_of_isDigit {c : Char} (hc : c.isDigit = true) :
    c.toNat-48 < 10 ∧ Nat.digitChar (c.toNat-48) = c := by
  simp only [Char.isDigit, Bool.and_eq_true, decide_eq_true_eq, ge_iff_le, UInt32.le_iff_toNat_le] at hc
  have hends : '0'.val.toNat = 48 ∧ '9'.val.toNat = 57 := by decide
  have hrange : 48 ≤ c.toNat ∧ c.toNat ≤ 57 := by
    rw [Char.toNat]
    omega
  have hlt : c.toNat-48 < 10 := by omega
  have hall : ∀ n < 10, Nat.digitChar n = Char.ofNat (48+n) := by decide
  refine ⟨hlt,?_⟩
  rw [hall _ hlt, Nat.add_sub_cancel' hrange.1, Char.ofNat_toNat]

/-- A number without leading zeros is determined by its value. -/
theorem toDigits_digits {s : List Char} (hs : IsNumeric s) :
    Nat.toDigits 10 (Identifier.digits s) = s := by
  induction s using List.reverseRecOn with
  | nil => exact absurd rfl hs.1
  | append_singleton s c ih =>
    obtain ⟨-,hdigits,hzero⟩ := hs
    rw [List.all_append, Bool.and_eq_true] at hdigits
    obtain ⟨hlt,hchar⟩ := digitChar_of_isDigit (List.all_eq_true.mp hdigits.2 c List.mem_cons_self)
    rw [digits_append]
    by_cases hnil : s = []
    · subst hnil
      rw [show Identifier.digits [] = 0 from rfl, Nat.zero_mul, Nat.zero_add,
        Nat.toDigits_of_lt_base hlt, hchar]
      rfl
    · have hhead : s.head? ≠ some '0' := by
        intro h0
        have hone := hzero (by rw [List.head?_append, h0]; rfl)
        have hlength := congrArg List.length hone
        rw [List.length_append, List.length_singleton, List.length_singleton] at hlength
        exact hnil (List.eq_nil_of_length_eq_zero (by omega))
      have hprefix := ih ⟨hnil,hdigits.1,fun h0 => absurd h0 hhead⟩
      have hpos : 0 < Identifier.digits s := by
        rw [Nat.pos_iff_ne_zero]
        intro h0
        rw [h0] at hprefix
        exact hhead (by rw [← hprefix]; rfl)
      rw [Nat.mul_comm, ← Nat.toDigits_append_toDigits (by decide) hpos hlt, hprefix,
        Nat.toDigits_of_lt_base hlt, hchar]

theorem digits_inj {s t : List Char} (hs : IsNumeric s) (ht : IsNumeric t)
    (h : Identifier.digits s = Identifier.digits t) : s = t := by
  rw [← toDigits_digits hs, h, toDigits_digits ht]

end Digits

namespace SemVer

/-- An identifier as a version of a module has it. -/
def identifier (s : List Char) : Identifier :=
  if s.all Char.isDigit then .numeric (Identifier.digits s) (.ofList s) else .text (.ofList s)

theorem identifier_parse {s : List Char} (hne : s ≠ [])
    (hfits : s.all Char.isDigit = true → Identifier.digits s < 2^64) :
    Identifier.parse s = .ok (identifier s) := by
  rw [Identifier.parse, if_neg hne, identifier]
  split
  · next hdigits => rw [if_pos (hfits hdigits)]
  · rfl

def IsIdentifier (s : List Char) : Prop := IsNumeric s ∨ IsAlphanumeric s

theorem cmp_identifier {s t : List Char} (hs : IsIdentifier s) (ht : IsIdentifier t) :
    compare (identifier s) (identifier t) = compareIdentifier s t := by
  have hnumeric : ∀ {u}, IsIdentifier u → u.all Char.isDigit = true → IsNumeric u := by
    rintro u (hu | hu) hdigits
    · exact hu
    · rw [hu.2] at hdigits
      cases hdigits
  show Identifier.cmp _ _ = _
  unfold identifier compareIdentifier
  by_cases hsd : s.all Char.isDigit = true
  · by_cases htd : t.all Char.isDigit = true
    · rw [if_pos hsd, if_pos htd, if_pos hsd, if_pos htd, Identifier.cmp]
      cases hcompare : compare (Identifier.digits s) (Identifier.digits t) with
      | eq =>
        have heq := digits_inj (hnumeric hs hsd) (hnumeric ht htd) (Nat.compare_eq_eq.mp hcompare)
        rw [heq, Ordering.eq_then]
        exact Std.ReflOrd.compare_self
      | _ => rfl
    · rw [if_pos hsd, if_neg htd, if_pos hsd, if_neg htd]
      rfl
  · by_cases htd : t.all Char.isDigit = true
    · rw [if_neg hsd, if_pos htd, if_neg hsd, if_pos htd]
      rfl
    · rw [if_neg hsd, if_neg htd, if_neg hsd, if_neg htd]
      rfl

theorem compare_identifiers {ss ts : List (List Char)} (hss : ∀ s ∈ ss, IsIdentifier s)
    (hts : ∀ t ∈ ts, IsIdentifier t) :
    compare (ss.map identifier) (ts.map identifier) = compareIdentifiers ss ts := by
  induction ss generalizing ts with
  | nil => cases ts <;> rfl
  | cons s ss ih =>
    cases ts with
    | nil => rfl
    | cons t ts =>
      rw [List.map_cons, List.map_cons, List.compare_cons_cons, compareIdentifiers,
        cmp_identifier (hss s List.mem_cons_self) (hts t List.mem_cons_self),
        ih (fun u hu => hss u (List.mem_cons_of_mem _ hu)) fun u hu => hts u (List.mem_cons_of_mem _ hu)]

theorem mem_joined {parts : List (List Char)} {c : Char} (h : c ∈ joined parts) :
    c = '.' ∨ ∃ part ∈ parts, c ∈ part := by
  induction parts with
  | nil => cases h
  | cons part parts ih =>
    cases parts with
    | nil =>
      rw [joined, List.intercalate_singleton] at h
      exact .inr ⟨part,List.mem_cons_self,h⟩
    | cons next parts =>
      rw [joined, List.intercalate_cons_of_ne_nil (List.cons_ne_nil _ _), List.append_assoc] at h
      rcases List.mem_append.mp h with h | h
      · exact .inr ⟨part,List.mem_cons_self,h⟩
      · rcases List.mem_append.mp h with h | h
        · exact .inl (List.mem_singleton.mp h)
        · rcases ih h with h | ⟨other,hother,hc⟩
          · exact .inl h
          · exact .inr ⟨other,List.mem_cons_of_mem _ hother,hc⟩

theorem joined_ne_nil {part : List Char} {parts : List (List Char)} (hpart : part ≠ []) :
    joined (part::parts) ≠ [] := by
  cases parts with
  | nil => rwa [joined, List.intercalate_singleton]
  | cons next parts =>
    rw [joined, List.intercalate_cons_of_ne_nil (List.cons_ne_nil _ _), List.append_assoc]
    exact List.append_ne_nil_of_left_ne_nil hpart _

theorem numeric_chars {s : List Char} (hs : IsNumeric s) {c : Char} (hc : c ∈ s) :
    c.isAlphanum = true := by
  have hdigit := List.all_eq_true.mp hs.2.1 c hc
  rw [Char.isAlphanum, hdigit, Bool.or_true]

theorem IsIdentifier.chars {s : List Char} (hs : IsIdentifier s) {c : Char} (hc : c ∈ s) :
    isSemVerChar c = true := by
  rcases hs with hs | hs
  · rw [isSemVerChar, numeric_chars hs hc, Bool.true_or]
  · exact List.all_eq_true.mp hs.1 c hc

theorem IsIdentifier.ne_nil {s : List Char} (hs : IsIdentifier s) : s ≠ [] := by
  rcases hs with hs | hs
  · exact hs.1
  · rintro rfl
    exact absurd hs.2 (by decide)

theorem isPrereleaseChar_of_isSemVerChar {c : Char} (hc : isSemVerChar c = true) :
    isPrereleaseChar c = true := by
  rw [isSemVerChar] at hc
  rw [isPrereleaseChar]
  simp only [Bool.or_eq_true] at hc ⊢
  tauto

theorem ne_of_isSemVerChar {c d : Char} (hc : isSemVerChar c = true) (hd : isSemVerChar d = false) :
    c ≠ d := by
  rintro rfl
  rw [hc] at hd
  cases hd

theorem parseAll_joined {parts : List (List Char)} (hne : parts ≠ [])
    (hparts : ∀ s ∈ parts, IsIdentifier s)
    (hfits : ∀ s ∈ parts, s.all Char.isDigit = true → Identifier.digits s < 2^64) :
    Identifier.parseAll (joined parts) = .ok (parts.map identifier) := by
  have hdot : ∀ s ∈ parts, '.' ∉ s := by
    intro s hs hmem
    exact ne_of_isSemVerChar ((hparts s hs).chars hmem) (by decide) rfl
  rw [Identifier.parseAll, joined, List.splitOn_intercalate '.' hdot hne, Fallible.mapM_ok,
    List.forall₂_map_right_iff, List.forall₂_same]
  exact fun s hs => identifier_parse (hparts s hs).ne_nil (hfits s hs)

variable (v : SemVer)

theorem release_identifiers : ∀ s ∈ v.release, IsNumeric s := by
  obtain ⟨hmajor,hminor,hpatch⟩ := v.core
  simp [release, hmajor, hminor, hpatch]

theorem captures_text : captures v.text = some (joined v.release,joined v.prerelease) := by
  have hrelease : ∀ c ∈ joined v.release, isReleaseChar c = true := by
    intro c hc
    rcases mem_joined hc with rfl | ⟨part,hpart,hc⟩
    · decide
    · rw [isReleaseChar, numeric_chars (v.release_identifiers part hpart) hc, Bool.true_or]
  have hprerelease : ∀ c ∈ joined v.prerelease, isPrereleaseChar c = true := by
    intro c hc
    rcases mem_joined hc with rfl | ⟨part,hpart,hc⟩
    · decide
    · exact isPrereleaseChar_of_isSemVerChar (IsIdentifier.chars (v.identifiers part hpart) hc)
  have hne : joined v.release ≠ [] := joined_ne_nil v.core.1.1
  have hempty : joined v.prerelease = [] ↔ v.prerelease = [] := by
    constructor
    · intro hnil
      cases hpre : v.prerelease with
      | nil => rfl
      | cons part parts =>
        have hpart : part ∈ v.prerelease := hpre ▸ List.mem_cons_self
        rw [hpre] at hnil
        exact absurd hnil (joined_ne_nil (IsIdentifier.ne_nil (v.identifiers part hpart)))
    · intro hnil
      rw [hnil]
      rfl
  have hcore : joined v.release ++ (if v.prerelease = [] then [] else '-' :: joined v.prerelease) =
      normalize (joined v.release) (joined v.prerelease) := by
    unfold normalize
    simp only [hempty]
    split
    · exact List.append_nil _
    · rfl
  have hplain := captures_of_chars hne hrelease hprerelease
  have hplus : '+' ∉ normalize (joined v.release) (joined v.prerelease) := by
    unfold normalize
    intro hmem
    split at hmem
    · exact absurd (hrelease _ hmem) (by decide)
    · rcases List.mem_append.mp hmem with hmem | hmem
      · exact absurd (hrelease _ hmem) (by decide)
      · rcases List.mem_cons.mp hmem with hmem | hmem
        · exact absurd hmem (by decide)
        · exact absurd (hprerelease _ hmem) (by decide)
  rw [text, hcore]
  split
  · rw [List.append_nil, hplain]
  · next hbuild =>
    rw [captures_build hplus, if_pos, hplain]
    have hchars : ∀ c ∈ joined v.build, isPrereleaseChar c = true := by
      intro c hc
      rcases mem_joined hc with rfl | ⟨part,hpart,hc⟩
      · decide
      · exact isPrereleaseChar_of_isSemVerChar (List.all_eq_true.mp (v.metadata part hpart).2 c hc)
    have hsome : joined v.build ≠ [] := by
      obtain ⟨part,parts,hparts⟩ := List.exists_cons_of_ne_nil hbuild
      have hpart := v.metadata part (hparts ▸ List.mem_cons_self)
      rw [hparts]
      exact joined_ne_nil hpart.1
    rw [isBuild, Bool.and_eq_true, decide_eq_true_eq]
    exact ⟨hsome,List.all_eq_true.mpr hchars⟩

theorem parse_text (hfits : v.Fits) : ∃ w, Version.parse (.ofList v.text) = .ok w ∧
    w.isEmpty = false ∧ w.release = v.release.map identifier ∧
      w.prerelease = v.prerelease.map identifier := by
  have hcaptures := v.captures_text
  have hrelease : Identifier.parseAll (joined v.release) = .ok (v.release.map identifier) := by
    apply parseAll_joined (List.cons_ne_nil _ _)
    · exact fun s hs => .inl (v.release_identifiers s hs)
    · exact fun s hs => hfits s (List.mem_append_left _ hs)
  have hids : Bzlmod.identifiers (joined v.release) (joined v.prerelease) =
      .ok (v.release.map identifier,v.prerelease.map identifier) := by
    rw [Bzlmod.identifiers, hrelease]
    cases hpre : v.prerelease with
    | nil => rfl
    | cons part parts =>
      have hpart : part ≠ [] :=
        IsIdentifier.ne_nil (v.identifiers part (hpre ▸ List.mem_cons_self))
      have hall : Identifier.parseAll (joined (part::parts)) = .ok ((part::parts).map identifier) := by
        apply parseAll_joined (List.cons_ne_nil _ _)
        · exact fun s hs => v.identifiers s (hpre ▸ hs)
        · exact fun s hs => hfits s (List.mem_append_right _ (hpre ▸ hs))
      show Except.bind _ _ = _
      simp only [Except.bind, if_neg (joined_ne_nil hpart), hall]
      rfl
  have hne : joined v.release ≠ [] := joined_ne_nil v.core.1.1
  have hnormalize : normalize (joined v.release) (joined v.prerelease) ≠ [] := by
    unfold normalize
    split
    · exact hne
    · exact List.append_ne_nil_of_left_ne_nil hne _
  have hnonempty : ∀ {l : List Char}, l ≠ [] → String.ofList l ≠ "" := by
    intro l hl heq
    apply hl
    rw [← String.toList_ofList (l := l), heq]
    rfl
  have htext : v.text ≠ [] := by
    intro hnil
    rw [hnil] at hcaptures
    cases hcaptures
  refine ⟨⟨_,_,.ofList (normalize (joined v.release) (joined v.prerelease)),
    .inr ⟨_,_,?_,String.toList_ofList,hids⟩⟩,?_,?_,rfl,rfl⟩
  · rw [String.toList_ofList]
    exact Version.captures_normalize hcaptures
  · rw [Version.parse_ok]
    refine .inr ⟨hnonempty htext,_,_,?_,hids,rfl⟩
    rw [String.toList_ofList, hcaptures]
  · rw [Version.isEmpty, beq_eq_false_iff_ne]
    exact hnonempty hnormalize

theorem cmp_eq_precedence {v w : SemVer} {a b : Version} (ha : a.isEmpty = false)
    (hb : b.isEmpty = false) (har : a.release = v.release.map identifier)
    (hbr : b.release = w.release.map identifier) (hap : a.prerelease = v.prerelease.map identifier)
    (hbp : b.prerelease = w.prerelease.map identifier) : Version.cmp a b = precedence v w := by
  have hcore : compare a.release b.release =
      (compare (Identifier.digits v.major) (Identifier.digits w.major)).then
        ((compare (Identifier.digits v.minor) (Identifier.digits w.minor)).then
          (compare (Identifier.digits v.patch) (Identifier.digits w.patch))) := by
    have hnumbers : ∀ {s t}, IsNumeric s → IsNumeric t →
        compareIdentifier s t = compare (Identifier.digits s) (Identifier.digits t) := by
      intro s t hs ht
      rw [compareIdentifier, if_pos hs.2.1, if_pos ht.2.1]
    obtain ⟨hmajor,hminor,hpatch⟩ := v.core
    obtain ⟨hmajor',hminor',hpatch'⟩ := w.core
    rw [har, hbr, compare_identifiers (fun s hs => .inl (v.release_identifiers s hs))
      fun s hs => .inl (w.release_identifiers s hs)]
    simp only [release, compareIdentifiers, hnumbers hmajor hmajor', hnumbers hminor hminor',
      hnumbers hpatch hpatch', Ordering.then_eq]
  have hpre : (compare b.isPrerelease a.isPrerelease).then (compare a.prerelease b.prerelease) =
      match v.prerelease, w.prerelease with
      | [], [] => .eq
      | [], _::_ => .gt
      | _::_, [] => .lt
      | p, q => compareIdentifiers p q := by
    have hlists := compare_identifiers v.identifiers w.identifiers
    rw [← hap, ← hbp] at hlists
    rw [hlists, Version.isPrerelease, Version.isPrerelease, hap, hbp]
    cases v.prerelease with
    | nil => cases w.prerelease <;> rfl
    | cons p ps =>
      cases w.prerelease with
      | nil => rfl
      | cons q qs => rfl
  rw [Version.cmp, ha, hb, hcore, hpre, precedence, Ordering.then_assoc, Ordering.then_assoc]
  rfl

end SemVer

/-- The order of versions, and that of SemVer within it. -/
theorem version_order :
    (∀ a b c : Version, a.cmp b = (b.cmp a).swap ∧
      ((a.cmp b).isLE → (b.cmp c).isLE → (a.cmp c).isLE)) ∧
    (∀ a b : Version, a.cmp b = .eq ↔ a.normalized = b.normalized) ∧
    (∀ v : Version, v.normalized ≠ "" → v.cmp .empty = .lt) ∧
    (∀ v : Version, Version.parse v.normalized = .ok v) ∧
    (∀ s build : String, '+' ∉ s.toList → ∀ v, Version.parse (s ++ "+" ++ build) = .ok v ↔
      isBuild ('+' :: build.toList) = true ∧ s ≠ "" ∧ Version.parse s = .ok v) ∧
    ∀ v w : SemVer, v.Fits → w.Fits → ∃ a b, Version.parse (.ofList v.text) = .ok a ∧
      Version.parse (.ofList w.text) = .ok b ∧ a.cmp b = v.precedence w := by
  refine ⟨fun a b c => ⟨Std.OrientedCmp.eq_swap,Std.TransCmp.isLE_trans⟩,?_,?_,
    Version.parse_normalized,fun s build hs => Version.parse_build hs,?_⟩
  · intro a b
    constructor
    · intro h
      rw [Std.LawfulEqCmp.eq_of_compare h]
    · intro h
      rw [Version.ext_normalized h]
      exact Std.ReflCmp.compare_self
  · intro v hv
    have hempty : v.isEmpty = false := beq_eq_false_iff_ne.mpr hv
    rw [Version.cmp, hempty]
    rfl
  · intro v w hv hw
    obtain ⟨a,ha,hae,har,hap⟩ := v.parse_text hv
    obtain ⟨b,hb,hbe,hbr,hbp⟩ := w.parse_text hw
    exact ⟨a,b,ha,hb,SemVer.cmp_eq_precedence hae hbe har hbr hap hbp⟩

end BuildFiji.Bzlmod
