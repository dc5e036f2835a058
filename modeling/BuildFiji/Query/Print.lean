import BuildFiji.Query.Pieces
import Mathlib

/-!
# Writing query expressions

An expression is written with every operand of an operator in parentheses and
each word with or without quotes. What is read back of it is the expression
unless a numeral without quotes is changed by being read as a number.
-/

set_option autoImplicit false
set_option linter.all false

namespace BuildFiji.Query

open BuildFiji.Fallible

structure Spelling where
  word : String
  quoted : Bool

def keywords : List String := ["let","in","set","union","intersect","except"]

def isNumeral (word : String) : Bool := word.toList.all Char.isDigit

namespace Spelling

def piece (s : Spelling) : Piece := if s.quoted then .quoted s.word else .bare s.word

/-- A word may be written as it is if it consists of word characters, is no
keyword and does not start with a dash, and in quotes if it has no quote and no
backslash. -/
def Allowed (chars : CharClass) (s : Spelling) : Prop :=
  s.piece.Sound chars ∧ (s.quoted = false → s.word ∉ keywords)

/-- What is read of a word. -/
def seen (s : Spelling) : String :=
  if s.quoted = false ∧ isNumeral s.word then toString (decimal s.word.toList) else s.word

/-- A numeral is read as the number it is, unless it is in quotes. -/
def Kept (s : Spelling) : Prop :=
  s.quoted = true ∨ isNumeral s.word = false ∨ ∃ n : ℕ, n < 2^63 ∧ s.word = toString n

end Spelling

mutual

/-- An expression with the way each of its words is written. -/
inductive Written where
  | word (s : Spelling)
  | variable (name : String) (quoted : Bool)
  | set (words : List Spelling)
  | binary (op : Op) (left right : Written)
  | letIn (name : Spelling) (value body : Written)
  | call (function : Function) (args : List WrittenArg)

inductive WrittenArg where
  | expr (e : Written)
  | word (s : Spelling)
  | int (n : ℤ)

end

section Definitions
variable (chars : CharClass) (dialect : Dialect)

def Op.char : Op → Char
  | .union => '+'
  | .intersect => '^'
  | .except => '-'

/-- The items with a separator between them. -/
def separate (separator : List Piece) : List (List Piece) → List Piece
  | [] => []
  | [item] => item
  | item::item'::items => item ++ separator ++ separate separator (item'::items)

def intPieces (n : ℤ) : List Piece :=
  if n < 0 then [.fixed '-',.bare (toString n.natAbs)] else [.bare (toString n.natAbs)]

def variableSpelling (name : String) (quoted : Bool) : Spelling := ⟨"$" ++ name,quoted⟩

mutual

def Written.tree : Written → Expr
  | .word s => .word s.word
  | .variable name _ => .variable name
  | .set words => .set (words.map Spelling.word)
  | .binary op l r => .binary op l.tree r.tree
  | .letIn name value body => .letIn name.word value.tree body.tree
  | .call function args => .call function (WrittenArg.trees args)

def WrittenArg.tree : WrittenArg → Arg
  | .expr e => .expr e.tree
  | .word s => .word s.word
  | .int n => .int n

def WrittenArg.trees : List WrittenArg → List Arg
  | [] => []
  | arg::args => arg.tree::WrittenArg.trees args

end

mutual

def Written.pieces : Written → List Piece
  | .word s => [s.piece]
  | .variable name quoted => [(variableSpelling name quoted).piece]
  | .set words => .bare "set"::.fixed '('::(separate [.fixed ' '] (words.map fun s => [s.piece]) ++
      [.fixed ')'])
  | .binary op l r => .fixed '('::(l.pieces ++ .fixed ')'::.fixed ' '::.fixed op.char::.fixed ' '::
      .fixed '('::(r.pieces ++ [.fixed ')']))
  | .letIn name value body => .bare "let"::.fixed ' '::name.piece::.fixed ' '::.fixed '='::
      .fixed ' '::(value.pieces ++ .fixed ' '::.bare "in"::.fixed ' '::body.pieces)
  | .call function args => .bare function.name::.fixed '('::(separate [.fixed ',',.fixed ' ']
      (WrittenArg.allPieces args) ++ [.fixed ')'])

def WrittenArg.pieces : WrittenArg → List Piece
  | .expr e => e.pieces
  | .word s => [s.piece]
  | .int n => intPieces n

def WrittenArg.allPieces : List WrittenArg → List (List Piece)
  | [] => []
  | arg::args => arg.pieces::WrittenArg.allPieces args

end

def Written.text (w : Written) : String := .ofList (textOf w.pieces)

def WrittenArg.kind : WrittenArg → ArgKind
  | .expr _ => .expr
  | .word _ => .word
  | .int _ => .int

/-- The arguments the signature of a function allows. -/
def signatureAllows (function : Function) (args : List WrittenArg) : Prop :=
  function.signature.1.length ≤ args.length ∧ args.map WrittenArg.kind <+: kinds function

mutual

/-- A tree over a dialect, its words written in a way they may be. -/
def Written.Allowed : Written → Prop
  | .word s => s.Allowed chars
  | .variable name quoted => (variableSpelling name quoted).Allowed chars
  | .set words => ∀ s ∈ words, s.Allowed chars
  | .binary _ l r => l.Allowed ∧ r.Allowed
  | .letIn name value body => name.Allowed chars ∧ value.Allowed ∧ body.Allowed
  | .call function args => function.isIn dialect ∧ signatureAllows function args ∧
      WrittenArg.AllAllowed args

def WrittenArg.Allowed : WrittenArg → Prop
  | .expr e => e.Allowed
  | .word s => s.Allowed chars
  | .int _ => True

def WrittenArg.AllAllowed : List WrittenArg → Prop
  | [] => True
  | arg::args => arg.Allowed ∧ WrittenArg.AllAllowed args

end

def spellsVariable (word : String) : Bool := word.toList.head? = some '$' && word ≠ "$"

mutual

/-- No numeral without quotes is changed by being read as a number, and the tree
is one that the syntax has: no word spells a variable, no variable is without a
name, and the integers are literals. -/
def Written.Faithful : Written → Prop
  | .word s => s.Kept ∧ spellsVariable s.word = false
  | .variable name _ => name ≠ ""
  | .set words => ∀ s ∈ words, s.Kept
  | .binary _ l r => l.Faithful ∧ r.Faithful
  | .letIn name value body =>
    (name.quoted = true ∨ isNumeral name.word = false) ∧ value.Faithful ∧ body.Faithful
  | .call _ args => WrittenArg.AllFaithful args

def WrittenArg.Faithful : WrittenArg → Prop
  | .expr e => e.Faithful
  | .word s => s.Kept
  | .int n => 0 ≤ n ∧ n < 2^63

def WrittenArg.AllFaithful : List WrittenArg → Prop
  | [] => True
  | arg::args => arg.Faithful ∧ WrittenArg.AllFaithful args

end

mutual

/-- What the parser makes of a written expression, `none` where it refuses it. -/
def Written.read : Written → Option Expr
  | .word s => some (wordExpr s.seen)
  | .variable name quoted => some (wordExpr (variableSpelling name quoted).seen)
  | .set words => some (.set (words.map Spelling.seen))
  | .binary op l r => do return .binary op (← l.read) (← r.read)
  | .letIn name value body =>
    if name.quoted = false ∧ isNumeral name.word then none
    else do return .letIn name.word (← value.read) (← body.read)
  | .call function args => do return .call function (← WrittenArg.readAll args)

def WrittenArg.read : WrittenArg → Option Arg
  | .expr e => do return .expr (← e.read)
  | .word s => some (.word s.seen)
  | .int n => if n < 0 then none else some (.int n)

def WrittenArg.readAll : List WrittenArg → Option (List Arg)
  | [] => some []
  | arg::args => do return (← arg.read)::(← WrittenArg.readAll args)

end

end Definitions

section Sound
variable {chars : CharClass} {dialect : Dialect}

def asciiWord (c : Char) : Bool := c.toNat < 128 && (c.isAlphanum || wordPunctuation.contains c)

theorem ascii_word_sound {word : String} (hne : word ≠ "") (hdash : word.toList.head? ≠ some '-')
    (h : word.toList.all asciiWord = true) : (Piece.bare word).Sound chars := by
  refine ⟨hne,fun c hc => ?_,hdash⟩
  have hword := List.all_eq_true.mp h c hc
  rw [asciiWord, Bool.and_eq_true, decide_eq_true_eq] at hword
  rw [isWordChar, chars.alphanumeric_ascii c hword.1]
  exact hword.2

theorem name_sound (f : Function) : (Piece.bare f.name).Sound chars :=
  ascii_word_sound (by cases f <;> decide) (by cases f <;> decide) (by cases f <;> decide)

theorem Spelling.Allowed.separated {s : Spelling} (h : s.Allowed chars) :
    (∀ p ∈ [s.piece], p.Sound chars) ∧ Piece.Separated [s.piece] := by
  refine ⟨by simpa using h.1,?_⟩
  rw [Spelling.piece]
  split <;> exact (by simp [Piece.Separated, Piece.Ends])

/-- Lists of pieces that are sound by themselves are so with a splitter between
them. -/
theorem separate_sound {c : Char} (between : List Piece) (hc : c ∈ Piece.splitters)
    (hbetween : ∀ p ∈ Piece.fixed c::between, p.Sound chars)
    (hfixed : ∀ p ∈ between, ∃ d, p = .fixed d) {items : List (List Piece)}
    (h : ∀ item ∈ items, (∀ p ∈ item, p.Sound chars) ∧ Piece.Separated item) :
    (∀ p ∈ separate (.fixed c::between) items, p.Sound chars) ∧
      Piece.Separated (separate (.fixed c::between) items) := by
  have hskip : ∀ (ps : List Piece), Piece.Separated ps → Piece.Separated (between ++ ps) := by
    intro ps hps
    induction between with
    | nil => exact hps
    | cons p between ih =>
      obtain ⟨⟨d,rfl⟩,hrest⟩ := List.forall_mem_cons.mp hfixed
      apply ih _ hrest
      intro q hq
      exact hbetween q (by simp only [List.mem_cons] at hq ⊢; tauto)
  induction items with
  | nil => exact ⟨by simp [separate],trivial⟩
  | cons item items ih =>
    obtain ⟨hitem,hrest⟩ := List.forall_mem_cons.mp h
    cases items with
    | nil => exact hitem
    | cons item' items =>
      obtain ⟨hsound,hsep⟩ := ih hrest
      rw [separate, List.append_assoc, List.cons_append]
      refine ⟨fun p hp => ?_,separated_append hc hitem.2 (hskip _ hsep)⟩
      rcases List.mem_append.mp hp with hp | hp
      · exact hitem.1 p hp
      · rw [← List.cons_append] at hp
        rcases List.mem_append.mp hp with hp | hp
        · exact hbetween p hp
        · exact hsound p hp

theorem ends_fixed {c : Char} (h : c ∈ Piece.splitters) {ps : List Piece} :
    Piece.Ends (.fixed c::ps) := h

theorem op_sound (op : Op) : (Piece.fixed op.char).Sound chars := by
  cases op <;> exact .inr rfl

theorem separated_last {ps : List Piece} (h : Piece.Separated ps) {c : Char}
    (hc : c ∈ Piece.splitters) : Piece.Separated (ps ++ [.fixed c]) := separated_append hc h trivial

section Numerals

theorem toString_toList (n : ℕ) : (toString n).toList = Nat.toDigits 10 n := by
  rw [Nat.toString_eq_repr, Nat.toList_repr]

theorem decimal_toString (n : ℕ) : decimal (toString n).toList = n := by
  rw [toString_toList, decimal, Nat.ofDigitChars_ten_toDigits]

theorem toString_isDigit {n : ℕ} {c : Char} (h : c ∈ (toString n).toList) : c.isDigit = true := by
  rw [toString_toList] at h
  exact Nat.isDigit_of_mem_toDigits (b := 10) (by decide) (le_refl 10) h

theorem isNumeral_toString (n : ℕ) : isNumeral (toString n) = true :=
  List.all_eq_true.mpr fun _ => toString_isDigit

theorem toString_ne_empty (n : ℕ) : toString n ≠ "" := by
  rw [Nat.toString_eq_repr]
  exact Nat.repr_ne_empty

theorem digit_range {c : Char} (h : c.isDigit = true) : 48 ≤ c.toNat ∧ c.toNat ≤ 57 := by
  simpa [Char.isDigit, UInt32.le_iff_toNat_le] using h

theorem numeral_sound (chars : CharClass) (n : ℕ) : (Piece.bare (toString n)).Sound chars := by
  refine ascii_word_sound (toString_ne_empty n) (fun h => ?_) (List.all_eq_true.mpr fun c hc => ?_)
  · have hdash := toString_isDigit (List.mem_of_head? h)
    exact absurd hdash (by decide)
  · have hdigit := toString_isDigit hc
    obtain ⟨-,hle⟩ := digit_range hdigit
    have hlt : c.toNat < 128 := by omega
    rw [asciiWord, Char.isAlphanum, hdigit, Bool.or_true, Bool.true_or, Bool.and_true]
    exact decide_eq_true hlt

end Numerals

theorem intPieces_sound (n : ℤ) :
    (∀ p ∈ intPieces n, p.Sound chars) ∧ Piece.Separated (intPieces n) := by
  have hbare := numeral_sound chars n.natAbs
  rw [intPieces]
  split
  · refine ⟨?_,by simp [Piece.Separated, Piece.Ends]⟩
    simp only [List.mem_cons, List.not_mem_nil, or_false, forall_eq_or_imp, forall_eq]
    exact ⟨.inr rfl,hbare⟩
  · exact ⟨by simpa using hbare,by simp [Piece.Separated, Piece.Ends]⟩

theorem bracketed_sound {word : String} {items : List Piece} (hword : (Piece.bare word).Sound chars)
    (h : (∀ p ∈ items, p.Sound chars) ∧ Piece.Separated items) :
    (∀ p ∈ .bare word::.fixed '('::(items ++ [.fixed ')']), p.Sound chars) ∧
      Piece.Separated (.bare word::.fixed '('::(items ++ [.fixed ')'])) := by
  refine ⟨?_,⟨ends_fixed (by decide),separated_last h.2 (by decide)⟩⟩
  simp only [List.forall_mem_cons, List.forall_mem_append]
  exact ⟨hword,.inr rfl,h.1,.inr rfl,by simp⟩

mutual

theorem Written.sound (w : Written) (h : w.Allowed chars dialect) :
    (∀ p ∈ w.pieces, p.Sound chars) ∧ Piece.Separated w.pieces := by
  match w, h with
  | .word s, h => exact h.separated
  | .variable name quoted, h => exact h.separated
  | .set words, h =>
    refine bracketed_sound (ascii_word_sound (by decide) (by decide) (by decide))
      (separate_sound [] (by decide) (by simp [Piece.Sound]) (by simp) ?_)
    intro item hitem
    obtain ⟨s,hs,rfl⟩ := List.mem_map.mp hitem
    exact (h s hs).separated
  | .binary op l r, h =>
    obtain ⟨hl,hlsep⟩ := Written.sound l h.1
    obtain ⟨hr,hrsep⟩ := Written.sound r h.2
    refine ⟨?_,separated_append (by decide) hlsep (separated_last hrsep (by decide))⟩
    simp only [Written.pieces, List.forall_mem_cons, List.forall_mem_append]
    exact ⟨.inr rfl,hl,.inr rfl,.inl rfl,op_sound op,.inl rfl,.inr rfl,hr,.inr rfl,by simp⟩
  | .letIn name value body, h =>
    obtain ⟨hv,hvsep⟩ := Written.sound value h.2.1
    obtain ⟨hb,hbsep⟩ := Written.sound body h.2.2
    constructor
    · simp only [Written.pieces, List.forall_mem_cons, List.forall_mem_append]
      exact ⟨ascii_word_sound (by decide) (by decide) (by decide),.inl rfl,h.1.1,.inl rfl,.inr rfl,
        .inl rfl,hv,.inl rfl,ascii_word_sound (by decide) (by decide) (by decide),.inl rfl,hb⟩
    · have htail : Piece.Separated (value.pieces ++ .fixed ' '::.bare "in"::.fixed ' '::body.pieces) :=
        separated_append (by decide) hvsep ⟨ends_fixed (by decide),hbsep⟩
      have hname : Piece.Separated (name.piece::.fixed ' '::.fixed '='::.fixed ' '::
          (value.pieces ++ .fixed ' '::.bare "in"::.fixed ' '::body.pieces)) :=
        @separated_append [name.piece] _ ' ' (by decide) h.1.separated.2 htail
      exact ⟨ends_fixed (by decide),hname⟩
  | .call f args, h =>
    exact bracketed_sound (name_sound f) (separate_sound [.fixed ' '] (by decide)
      (by simp [Piece.Sound, punctuation]) (by simp) (WrittenArg.allSound args h.2.2))

theorem WrittenArg.sound (arg : WrittenArg) (h : arg.Allowed chars dialect) :
    (∀ p ∈ arg.pieces, p.Sound chars) ∧ Piece.Separated arg.pieces := by
  match arg, h with
  | .expr e, h => exact Written.sound e h
  | .word s, h => exact h.separated
  | .int n, _ => exact intPieces_sound n

theorem WrittenArg.allSound (args : List WrittenArg) (h : WrittenArg.AllAllowed chars dialect args) :
    ∀ item ∈ WrittenArg.allPieces args, (∀ p ∈ item, p.Sound chars) ∧ Piece.Separated item := by
  match args, h with
  | [], _ => simp [WrittenArg.allPieces]
  | arg::args, h =>
    exact List.forall_mem_cons.mpr ⟨WrittenArg.sound arg h.1,WrittenArg.allSound args h.2⟩

end

/-- The tokens of a written expression. -/
theorem lex_text {w : Written} (h : w.Allowed chars dialect) :
    lex chars w.text = tokensOf w.pieces := by
  rw [lex, Written.text, String.toList_ofList]
  exact lexFrom_textOf (Written.sound w h).1 (Written.sound w h).2

end Sound

section Words
variable {chars : CharClass}

theorem wordToken_of_not_keyword {word : String} (h : word ∉ keywords) : wordToken word.toList =
    if isNumeral word then
      if decimal word.toList < 2^63 then .ok (.int (decimal word.toList))
      else .error (.error ("integer too large: '" ++ word ++ "'"))
    else .ok (.word word) := by
  simp only [keywords, List.mem_cons, List.not_mem_nil, or_false, not_or] at h
  obtain ⟨h1,h2,h3,h4,h5,h6⟩ := h
  rw [wordToken, String.ofList_toList, keyword, if_neg h1, if_neg h2, if_neg h3, if_neg h4,
    if_neg h5, if_neg h6]
  rfl

/-- The one token of a word, which tells what is seen of it. -/
theorem spelling_token {s : Spelling} (h : s.Allowed chars) {ts : List Token}
    (hts : tokensOf [s.piece] = .ok ts) :
    (ts = [.word s.word] ∧ s.seen = s.word ∧ ¬ (s.quoted = false ∧ isNumeral s.word)) ∨
      ∃ n : ℕ, n < 2^63 ∧ ts = [.int n] ∧ s.seen = toString n ∧ s.quoted = false ∧
        isNumeral s.word ∧ n = decimal s.word.toList := by
  obtain ⟨word,quoted⟩ := s
  cases quoted with
  | true =>
    refine .inl ⟨?_,by simp [Spelling.seen],by simp⟩
    simpa [tokensOf, Spelling.piece, Piece.tokens, bind, Except.bind, pure, Except.pure, eq_comm]
      using hts
  | false =>
    have hword := wordToken_of_not_keyword (h.2 rfl)
    simp only [Spelling.piece, Bool.false_eq_true, if_false, tokensOf, Piece.tokens] at hts
    dsimp only at hword
    rw [hword] at hts
    by_cases hnum : isNumeral word
    · rw [if_pos hnum] at hts
      by_cases hlt : decimal word.toList < 2^63
      · rw [if_pos hlt] at hts
        refine .inr ⟨_,hlt,?_,by simp [Spelling.seen, hnum],rfl,hnum,rfl⟩
        simpa [bind, Except.bind, pure, Except.pure, eq_comm] using hts
      · rw [if_neg hlt] at hts
        simp [bind, Except.bind] at hts
    · rw [if_neg hnum] at hts
      refine .inl ⟨?_,by simp [Spelling.seen, hnum],by simp [hnum]⟩
      simpa [bind, Except.bind, pure, Except.pure, eq_comm] using hts

theorem decimal_kept {word : String} (h : isNumeral word) :
    (∃ n : ℕ, n < 2^63 ∧ word = toString n) ↔
      decimal word.toList < 2^63 ∧ toString (decimal word.toList) = word := by
  constructor
  · rintro ⟨n,hn,rfl⟩
    rw [decimal_toString]
    exact ⟨hn,rfl⟩
  · rintro ⟨hlt,heq⟩
    exact ⟨_,hlt,heq.symm⟩

/-- A word is kept if it has a token and is seen as it is. -/
theorem kept_iff {s : Spelling} (h : s.Allowed chars) :
    s.Kept ↔ (∃ ts, tokensOf [s.piece] = .ok ts) ∧ s.seen = s.word := by
  obtain ⟨word,quoted⟩ := s
  cases quoted with
  | true =>
    simp [Spelling.Kept, Spelling.seen, Spelling.piece, tokensOf, Piece.tokens, bind, Except.bind,
      pure, Except.pure]
  | false =>
    have hword := wordToken_of_not_keyword (h.2 rfl)
    dsimp only at hword
    simp only [Spelling.Kept, Spelling.seen, Spelling.piece, Bool.false_eq_true, if_false, tokensOf,
      Piece.tokens, hword]
    by_cases hnum : isNumeral word
    · simp only [hnum, if_true, false_or, Bool.true_eq_false, decimal_kept hnum, true_and]
      refine and_congr_left fun _ => ?_
      by_cases hlt : decimal word.toList < 2^63
      · rw [if_pos hlt]
        exact iff_of_true hlt ⟨_,rfl⟩
      · rw [if_neg hlt]
        refine iff_of_false hlt ?_
        rintro ⟨ts,hts⟩
        simp [bind, Except.bind] at hts
    · simp [hnum, bind, Except.bind, pure, Except.pure]

theorem wordExpr_cases (word : String) :
    (spellsVariable word = false ∧ wordExpr word = .word word) ∨
      ∃ name, name ≠ "" ∧ word = "$" ++ name ∧ wordExpr word = .variable name ∧
        spellsVariable word = true := by
  rw [wordExpr, spellsVariable]
  split
  · next c cs h =>
    have hword : word = "$" ++ .ofList (c::cs) := by
      rw [← String.toList_inj, h]
      simp
    refine .inr ⟨.ofList (c::cs),by simp [← String.toList_inj],hword,rfl,?_⟩
    simp [h, ← String.toList_inj]
  · next h =>
    refine .inl ⟨?_,rfl⟩
    cases hw : word.toList with
    | nil => simp
    | cons c cs =>
      by_cases hc : c = '$'
      · subst hc
        cases cs with
        | nil =>
          have hdollar : word = "$" := by
            rw [← String.toList_inj, hw]
            rfl
          simp [hdollar]
        | cons d ds => exact absurd hw (h d ds)
      · simp [hc]

theorem wordExpr_eq_word {word word' : String} :
    wordExpr word = .word word' ↔ word = word' ∧ spellsVariable word = false := by
  rcases wordExpr_cases word with ⟨hno,heq⟩ | ⟨name,-,-,heq,hyes⟩
  · simp [heq, hno]
  · simp [heq, hyes]

theorem wordExpr_eq_variable {word name : String} :
    wordExpr word = .variable name ↔ word = "$" ++ name ∧ name ≠ "" := by
  rcases wordExpr_cases word with ⟨hno,heq⟩ | ⟨name',hne,hword,heq,-⟩
  · rw [heq]
    simp only [reduceCtorEq, false_iff, not_and, not_not]
    rintro rfl
    by_contra hne
    have hdollar : "$" ++ name ≠ "$" := by
      intro h
      have hnil : name.toList = [] := by simpa using congrArg String.toList h
      exact hne (String.toList_eq_nil_iff.mp hnil)
    simp [spellsVariable, hdollar] at hno
  · rw [heq, hword]
    simp only [Expr.variable.injEq, String.append_right_inj]
    constructor
    · rintro rfl
      exact ⟨rfl,hne⟩
    · exact And.left

theorem wordExpr_numeral (n : ℕ) : wordExpr (toString n) = .word (toString n) := by
  refine wordExpr_eq_word.mpr ⟨rfl,?_⟩
  rcases wordExpr_cases (toString n) with ⟨hno,-⟩ | ⟨name,-,hword,-,-⟩
  · exact hno
  · have hdollar : '$' ∈ (toString n).toList := by simp [hword]
    exact absurd (toString_isDigit hdollar) (by decide)

theorem variableSpelling_seen (name : String) (quoted : Bool) :
    (variableSpelling name quoted).seen = "$" ++ name ∧
      ¬ ((variableSpelling name quoted).quoted = false ∧ isNumeral (variableSpelling name quoted).word) := by
  have hno : isNumeral ("$" ++ name) = false := by
    simp [isNumeral]
  simp [Spelling.seen, variableSpelling, hno]

end Words

end BuildFiji.Query
