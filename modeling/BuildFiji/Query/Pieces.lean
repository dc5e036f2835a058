import BuildFiji.Lib.Fallible
import BuildFiji.Query.Parse

/-!
# Texts that lex piece by piece

A text put together from punctuation, words in quotes and bare words has the
tokens of its pieces, if what follows a bare word ends it.
-/

set_option autoImplicit false
set_option linter.all false

namespace BuildFiji.Query

open BuildFiji.Fallible

inductive Piece where
  | fixed (c : Char)
  | bare (word : String)
  | quoted (word : String)

namespace Piece

def text : Piece → List Char
  | fixed c => [c]
  | bare word => word.toList
  | quoted word => '"'::(word.toList ++ ['"'])

/-- A space has no token. -/
def tokens : Piece → Result (List Token)
  | fixed c => .ok (punctuation c).toList
  | bare word => do return [← wordToken word.toList]
  | quoted word => .ok [.word word]

def splitters : List Char := [' ','(',')',',']

/-- A piece by itself, whatever is next to it. -/
def Sound (chars : CharClass) : Piece → Prop
  | fixed c => c = ' ' ∨ (punctuation c).isSome
  | bare word => word ≠ "" ∧ (∀ c ∈ word.toList, isWordChar chars c) ∧ word.toList.head? ≠ some '-'
  | quoted word => ∀ c ∈ word.toList, c ≠ '"' ∧ c ≠ '\\'

def Ends : List Piece → Prop
  | [] => True
  | fixed c::_ => c ∈ splitters
  | _ => False

def Separated : List Piece → Prop
  | [] => True
  | bare _::rest => Ends rest ∧ Separated rest
  | _::rest => Separated rest

end Piece

def textOf (pieces : List Piece) : List Char := pieces.flatMap Piece.text

def tokensOf : List Piece → Result (List Token)
  | [] => .ok []
  | piece::rest => do
    let tokens ← piece.tokens
    return tokens ++ (← tokensOf rest)

theorem tokensOf_append (ps qs : List Piece) : tokensOf (ps ++ qs) = (do
    let tokens ← tokensOf ps
    return tokens ++ (← tokensOf qs)) := by
  induction ps with
  | nil => cases h : tokensOf qs <;> simp [tokensOf, h, bind, Except.bind, pure, Except.pure]
  | cons p ps ih =>
    rw [List.cons_append, tokensOf, ih, tokensOf]
    cases p.tokens with
    | error _ => rfl
    | ok ts =>
      cases tokensOf ps with
      | error _ => rfl
      | ok us =>
        cases h : tokensOf qs <;> simp [bind, Except.bind, pure, Except.pure]

theorem tokensOf_append_ok {ps qs : List Piece} {ts : List Token} :
    tokensOf (ps ++ qs) = .ok ts ↔
      ∃ us vs, tokensOf ps = .ok us ∧ tokensOf qs = .ok vs ∧ ts = us ++ vs := by
  rw [tokensOf_append, bind_ok]
  simp only [bind_ok, pure_ok]
  constructor
  · rintro ⟨us,hus,vs,hvs,rfl⟩
    exact ⟨us,vs,hus,hvs,rfl⟩
  · rintro ⟨us,vs,hus,hvs,rfl⟩
    exact ⟨us,hus,vs,hvs,rfl⟩

theorem tokensOf_cons_ok {p : Piece} {qs : List Piece} {ts : List Token} :
    tokensOf (p::qs) = .ok ts ↔
      ∃ us vs, p.tokens = .ok us ∧ tokensOf qs = .ok vs ∧ ts = us ++ vs := by
  rw [tokensOf, bind_ok]
  simp only [bind_ok, pure_ok]
  constructor
  · rintro ⟨us,hus,vs,hvs,rfl⟩
    exact ⟨us,vs,hus,hvs,rfl⟩
  · rintro ⟨us,vs,hus,hvs,rfl⟩
    exact ⟨us,hus,vs,hvs,rfl⟩

theorem tokensOf_fixed_ok {c : Char} {qs : List Piece} {ts : List Token} :
    tokensOf (.fixed c::qs) = .ok ts ↔
      ∃ vs, tokensOf qs = .ok vs ∧ ts = (punctuation c).toList ++ vs := by
  simp [tokensOf_cons_ok, Piece.tokens]

/-- A piece that is one token. -/
theorem tokensOf_token_ok {p : Piece} {t : Token} (h : p.tokens = .ok [t]) {qs : List Piece}
    {ts : List Token} : tokensOf (p::qs) = .ok ts ↔ ∃ vs, tokensOf qs = .ok vs ∧ ts = t::vs := by
  simp [tokensOf_cons_ok, h]

theorem separated_append {ps qs : List Piece} {c : Char} (hc : c ∈ Piece.splitters)
    (hp : Piece.Separated ps) (hq : Piece.Separated qs) :
    Piece.Separated (ps ++ .fixed c::qs) := by
  induction ps with
  | nil => exact hq
  | cons p ps ih =>
    cases p with
    | fixed d => exact ih hp
    | quoted w => exact ih hp
    | bare w =>
      refine ⟨?_,ih hp.2⟩
      cases ps with
      | nil => exact hc
      | cons p' ps =>
        cases p' with
        | fixed d => exact hp.1
        | bare v => exact hp.1.elim
        | quoted v => exact hp.1.elim

section Characters
variable {chars : CharClass}

/-- An ASCII character that is no space, and one that is in no word. -/
def noSpace (c : Char) : Bool := c.toNat < 128 && !(c.toNat = 32 || (9 ≤ c.toNat && c.toNat ≤ 13))

def noWord (c : Char) : Bool := c.toNat < 128 && !c.isAlphanum && !wordPunctuation.contains c

theorem noSpace_iff {c : Char} : noSpace c = true ↔
    c.toNat < 128 ∧ (c.toNat = 32 || (9 ≤ c.toNat && c.toNat ≤ 13)) = false := by
  rw [noSpace, Bool.and_eq_true, decide_eq_true_eq, Bool.not_eq_true']

theorem noWord_iff {c : Char} : noWord c = true ↔
    c.toNat < 128 ∧ c.isAlphanum = false ∧ wordPunctuation.contains c = false := by
  rw [noWord, Bool.and_eq_true, Bool.and_eq_true, decide_eq_true_eq, Bool.not_eq_true',
    Bool.not_eq_true', and_assoc]

theorem not_alphanumeric {c : Char} (hc : c.toNat < 128) (h : c.isAlphanum = false) :
    chars.alphanumeric c = false := (chars.alphanumeric_ascii c hc).trans h

theorem not_whitespace {c : Char} (hc : c.toNat < 128)
    (h : (c.toNat = 32 || (9 ≤ c.toNat && c.toNat ≤ 13)) = false) : chars.whitespace c = false :=
  (chars.whitespace_ascii c hc).trans h

theorem punctuation_chars {c : Char} (h : (punctuation c).isSome) :
    c ∈ ['(',')',',','=','+','^','-'] := by
  unfold punctuation at h
  split at h <;> simp at h ⊢

theorem punctuation_not_whitespace {c : Char} (h : (punctuation c).isSome) :
    chars.whitespace c = false := by
  have hmem := punctuation_chars h
  simp only [List.mem_cons, List.not_mem_nil, or_false] at hmem
  rcases hmem with rfl | rfl | rfl | rfl | rfl | rfl | rfl <;>
    exact not_whitespace (by decide) (by decide)

theorem wordChar_not_whitespace {c : Char} (h : isWordChar chars c) : chars.whitespace c = false := by
  rw [isWordChar, Bool.or_eq_true] at h
  rcases h with h | h
  · exact chars.disjoint c h
  · have hmem : c ∈ wordPunctuation := by simpa using h
    have hall : wordPunctuation.all noSpace = true := by decide
    obtain ⟨hc,hspace⟩ := noSpace_iff.mp (List.all_eq_true.mp hall c hmem)
    exact not_whitespace hc hspace

theorem wordChar_not_punctuation {c : Char} (h : isWordChar chars c) (hdash : c ≠ '-') :
    punctuation c = none := by
  rw [← Option.not_isSome_iff_eq_none]
  intro hp
  have hmem := punctuation_chars hp
  have hall : ['(',')',',','=','+','^'].all noWord = true := by decide
  have hmem : c ∈ ['(',')',',','=','+','^'] := by
    simp only [List.mem_cons, List.not_mem_nil, or_false] at hmem ⊢
    tauto
  obtain ⟨hc,halnum,hpunct⟩ := noWord_iff.mp (List.all_eq_true.mp hall c hmem)
  simp only [isWordChar, Bool.or_eq_true, not_alphanumeric hc halnum, hpunct] at h
  simp at h

theorem noWord_not_wordChar {c : Char} (h : noWord c = true) : isWordChar chars c = false := by
  obtain ⟨hc,halnum,hpunct⟩ := noWord_iff.mp h
  rw [isWordChar, not_alphanumeric hc halnum, hpunct]
  rfl

theorem wordChar_ne {c d : Char} (h : isWordChar chars c) (hd : noWord d = true) : c ≠ d := by
  rintro rfl
  rw [noWord_not_wordChar hd] at h
  exact absurd h (by decide)

theorem splitter_not_wordChar {c : Char} (h : c ∈ Piece.splitters) : isWordChar chars c = false := by
  have hall : Piece.splitters.all noWord = true := by decide
  exact noWord_not_wordChar (List.all_eq_true.mp hall c h)

end Characters

section Lexing
variable {chars : CharClass}

theorem lexFrom_skip (chars : CharClass) (cs rest : List Char) :
    lexFrom chars cs.length (cs ++ rest) = lexFrom chars 0 rest := by
  induction cs with
  | nil => rfl
  | cons c cs ih =>
    rw [List.length_cons, List.cons_append, lexFrom]
    exact ih

theorem lexFrom_nil (n : ℕ) : lexFrom chars n [] = .ok [] := by
  cases n <;> rfl

theorem quotation_plain {word : List Char} (h : ∀ c ∈ word, c ≠ '"' ∧ c ≠ '\\') (rest : List Char) :
    quotation '"' (word ++ '"'::rest) = some (word,word.length+1) := by
  induction word with
  | nil =>
    rw [List.nil_append, quotation]
    · simp
    · simp
  | cons c word ih =>
    obtain ⟨⟨hquote,hslash⟩,hrest⟩ := List.forall_mem_cons.mp h
    rw [List.cons_append, quotation]
    · rw [if_neg hquote, ih hrest]
      simp
    · intro d ds heq
      exact absurd heq hslash

/-- A word is taken up to what ends it. -/
theorem takeWord_all {word rest : List Char} (h : ∀ c ∈ word, isWordChar chars c)
    (hrest : ∀ c ∈ rest.head?, c ∈ Piece.splitters) (canonical : Bool) (taken : List Char) :
    takeWord chars canonical taken (word ++ rest) = taken ++ word := by
  induction word generalizing taken with
  | nil =>
    cases rest with
    | nil => simp [takeWord]
    | cons c rest =>
      have hc := hrest c rfl
      have hplus : (c == '+') = false := by
        simp only [Piece.splitters, List.mem_cons, List.not_mem_nil, or_false] at hc
        rcases hc with rfl | rfl | rfl | rfl <;> rfl
      simp [takeWord, splitter_not_wordChar hc, hplus]
  | cons c word ih =>
    obtain ⟨hc,hword⟩ := List.forall_mem_cons.mp h
    rw [List.cons_append, takeWord, hc, Bool.true_or, if_pos rfl, ih hword]
    simp

theorem lexFrom_fixed {c : Char} (h : c = ' ' ∨ (punctuation c).isSome) (rest : List Char) :
    lexFrom chars 0 (c::rest) = (do return (punctuation c).toList ++ (← lexFrom chars 0 rest)) := by
  rw [lexFrom]
  rcases h with rfl | h
  · have hspace : chars.whitespace ' ' = true := chars.whitespace_ascii ' ' (by decide)
    rw [if_pos hspace]
    cases lexFrom chars 0 rest <;> rfl
  · rw [punctuation_not_whitespace h]
    obtain ⟨t,ht⟩ := Option.isSome_iff_exists.mp h
    simp [ht]

theorem lexFrom_quoted {word : String} (h : ∀ c ∈ word.toList, c ≠ '"' ∧ c ≠ '\\')
    (rest : List Char) : lexFrom chars 0 ('"'::(word.toList ++ '"'::rest)) =
      (do return [.word word] ++ (← lexFrom chars 0 rest)) := by
  have hskip := lexFrom_skip chars (word.toList ++ ['"']) rest
  rw [List.append_assoc, List.length_append] at hskip
  rw [lexFrom, not_whitespace (by decide) (by decide), quotation_plain h]
  simp only [punctuation, List.length_singleton, List.singleton_append] at hskip ⊢
  simp [hskip]

theorem lexFrom_bare {word : String} (hne : word ≠ "") (h : ∀ c ∈ word.toList, isWordChar chars c)
    (hdash : word.toList.head? ≠ some '-') {rest : List Char}
    (hrest : ∀ c ∈ rest.head?, c ∈ Piece.splitters) :
    lexFrom chars 0 (word.toList ++ rest) = (do
      let token ← wordToken word.toList
      return [token] ++ (← lexFrom chars 0 rest)) := by
  cases hw : word.toList with
  | nil => exact absurd (String.toList_eq_nil_iff.mp hw) hne
  | cons c cs =>
    rw [hw] at h hdash
    obtain ⟨hc,hcs⟩ := List.forall_mem_cons.mp h
    have hdash : c ≠ '-' := fun heq => hdash (heq ▸ rfl)
    have hquotes : ¬ (c = '\'' ∨ c = '"') := by
      rintro (heq | heq)
      · exact wordChar_ne hc (by decide) heq
      · exact wordChar_ne hc (by decide) heq
    rw [List.cons_append, lexFrom, wordChar_not_whitespace hc, wordChar_not_punctuation hc hdash]
    simp only [Bool.false_eq_true, if_false, if_neg hquotes, hc, if_true,
      takeWord_all hcs hrest, List.singleton_append, List.length_cons, Nat.add_sub_cancel,
      lexFrom_skip]

theorem textOf_ends {rest : List Piece} (h : Piece.Ends rest) :
    ∀ c ∈ (textOf rest).head?, c ∈ Piece.splitters := by
  intro c hc
  cases rest with
  | nil => simp [textOf] at hc
  | cons p rest =>
    cases p with
    | fixed d =>
      obtain rfl : d = c := by simpa [textOf, Piece.text] using hc
      exact h
    | bare w => exact h.elim
    | quoted w => exact h.elim

/-- The tokens of a text are those of its pieces, or the first error among them
is the error. -/
theorem lexFrom_textOf {pieces : List Piece} (hsound : ∀ p ∈ pieces, p.Sound chars)
    (hsep : Piece.Separated pieces) : lexFrom chars 0 (textOf pieces) = tokensOf pieces := by
  induction pieces with
  | nil => rfl
  | cons p rest ih =>
    obtain ⟨hp,hrest⟩ := List.forall_mem_cons.mp hsound
    cases p with
    | fixed c =>
      have htext : textOf (.fixed c::rest) = c::textOf rest := rfl
      rw [htext, lexFrom_fixed hp, ih hrest hsep]
      rfl
    | quoted w =>
      have htext : textOf (.quoted w::rest) = '"'::(w.toList ++ '"'::textOf rest) := by
        simp [textOf, Piece.text]
      rw [htext, lexFrom_quoted hp, ih hrest hsep]
      rfl
    | bare w =>
      have htext : textOf (.bare w::rest) = w.toList ++ textOf rest := rfl
      rw [htext, lexFrom_bare hp.1 hp.2.1 hp.2.2 (textOf_ends hsep.1), ih hrest hsep.2, tokensOf,
        Piece.tokens]
      cases wordToken w.toList <;> rfl

end Lexing

end BuildFiji.Query
