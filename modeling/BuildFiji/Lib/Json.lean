import Mathlib.Data.List.Basic
import Mathlib.Data.Char

/-!
# The grammar of JSON

The trees are those of RFC 8259, down to how each number and each character of a string is
written; a text of a tree differs from others of it only in its whitespace.
-/

set_option autoImplicit false
set_option linter.all false

namespace BuildFiji.JsonGrammar

def isSpace (c : Char) : Bool := c = ' ' || c = '\t' || c = '\n' || c = '\r'

def Space (w : List Char) : Prop := ∀ c ∈ w, isSpace c = true

def hexValue (c : Char) : Option ℕ :=
  if c.isDigit then some (c.toNat - '0'.toNat)
  else if 'a' ≤ c ∧ c ≤ 'f' then some (c.toNat - 'a'.toNat+10)
  else if 'A' ≤ c ∧ c ≤ 'F' then some (c.toNat - 'A'.toNat+10)
  else none

structure Digits where
  text : List Char
  nonempty : text ≠ []
  digits : ∀ c ∈ text, c.isDigit = true

structure Exponent where
  letter : Char
  sign : List Char
  digits : Digits
  isLetter : letter = 'e' ∨ letter = 'E'
  isSign : sign = [] ∨ sign = ['+'] ∨ sign = ['-']

def Exponent.text (e : Exponent) : List Char := e.letter::e.sign ++ e.digits.text

structure Number where
  minus : Bool
  int : Digits
  frac : Option Digits
  exp : Option Exponent
  noZero : int.text.head? = some '0' → int.text = ['0']

def fracText (frac : Option Digits) : List Char := frac.elim [] fun d => '.' :: d.text

def expText (exp : Option Exponent) : List Char := exp.elim [] Exponent.text

def Number.text (n : Number) : List Char :=
  (if n.minus then ['-'] else []) ++ n.int.text ++ fracText n.frac ++ expText n.exp

/-- The letters that may follow a backslash, with what they stand for. -/
def escapes : List (Char × Char) :=
  [('"', '"'), ('\\', '\\'), ('/', '/'), ('b', '\x08'), ('f', '\x0c'), ('n', '\n'), ('r', '\r'), ('t', '\t')]

inductive Piece where
  | plain (c : Char) (h : 0x20 ≤ c.toNat ∧ c ≠ '"' ∧ c ≠ '\\')
  | escape (letter c : Char) (h : (letter,c) ∈ escapes)
  | unicode (digits : List Char) (h : digits.length = 4 ∧ ∀ c ∈ digits, (hexValue c).isSome)

def Piece.text : Piece → List Char
  | plain c _ => [c]
  | escape letter _ _ => ['\\', letter]
  | unicode digits _ => '\\' :: 'u' :: digits

/-- A string as it is written, with its quotes. -/
def quoted (pieces : List Piece) : List Char := '"' :: (pieces.flatMap Piece.text ++ ['"'])

inductive Word where
  | null
  | bool (b : Bool)

def Word.text : Word → List Char
  | null => "null".toList
  | bool true => "true".toList
  | bool false => "false".toList

inductive Kind where
  | value
  | items
  | members

inductive Tree : Kind → Type where
  | word (w : Word) : Tree .value
  | num (n : Number) : Tree .value
  | str (pieces : List Piece) : Tree .value
  | emptyArr : Tree .value
  | arr (items : Tree .items) : Tree .value
  | emptyObj : Tree .value
  | obj (members : Tree .members) : Tree .value
  | last (v : Tree .value) : Tree .items
  | item (v : Tree .value) (items : Tree .items) : Tree .items
  | lastMember (key : List Piece) (v : Tree .value) : Tree .members
  | member (key : List Piece) (v : Tree .value) (members : Tree .members) : Tree .members

/-- A text of a tree; that of items or members reaches to the closing bracket. -/
inductive Laid : {k : Kind} → Tree k → List Char → Prop where
  | word (w : Word) : Laid (.word w) w.text
  | num (n : Number) : Laid (.num n) n.text
  | str (pieces : List Piece) : Laid (.str pieces) (quoted pieces)
  | emptyArr {w : List Char} : Space w → Laid .emptyArr ('[' :: (w ++ [']']))
  | arr {items : Tree .items} {s : List Char} : Laid items s → Laid (.arr items) ('[' :: s)
  | emptyObj {w : List Char} : Space w → Laid .emptyObj ('\x7b' :: (w ++ ['\x7d']))
  | obj {members : Tree .members} {s : List Char} : Laid members s → Laid (.obj members) ('\x7b' :: s)
  | last {v : Tree .value} {w s w' : List Char} : Space w → Laid v s → Space w' →
      Laid (.last v) (w ++ (s ++ (w' ++ [']'])))
  | item {v : Tree .value} {items : Tree .items} {w s w' r : List Char} : Space w → Laid v s → Space w' →
      Laid items r → Laid (.item v items) (w ++ (s ++ (w' ++ ',' :: r)))
  | lastMember {key : List Piece} {v : Tree .value} {w w₁ w₂ s w' : List Char} : Space w → Space w₁ → Space w₂ →
      Laid v s → Space w' →
      Laid (.lastMember key v) (w ++ (quoted key ++ (w₁ ++ ':' :: (w₂ ++ (s ++ (w' ++ ['\x7d']))))))
  | member {key : List Piece} {v : Tree .value} {members : Tree .members} {w w₁ w₂ s w' r : List Char} :
      Space w → Space w₁ → Space w₂ → Laid v s → Space w' → Laid members r →
      Laid (.member key v members) (w ++ (quoted key ++ (w₁ ++ ':' :: (w₂ ++ (s ++ (w' ++ ',' :: r))))))

/-- A text is one value with whitespace around it. -/
def IsText (tree : Tree .value) (text : List Char) : Prop :=
  ∃ w s w', Space w ∧ Laid tree s ∧ Space w' ∧ text = w ++ (s ++ w')

/-- How deep values are within values. -/
def Tree.nesting : {k : Kind} → Tree k → ℕ
  | _, .word _ => 1
  | _, .num _ => 1
  | _, .str _ => 1
  | _, .emptyArr => 1
  | _, .arr items => items.nesting+1
  | _, .emptyObj => 1
  | _, .obj members => members.nesting+1
  | _, .last v => v.nesting
  | _, .item v items => max v.nesting items.nesting
  | _, .lastMember _ v => v.nesting
  | _, .member _ v members => max v.nesting members.nesting

/-- What is not whitespace, in order. -/
def Tree.tokens : {k : Kind} → Tree k → List (List Char)
  | _, .word w => [w.text]
  | _, .num n => [n.text]
  | _, .str pieces => [quoted pieces]
  | _, .emptyArr => [['['],[']']]
  | _, .arr items => ['[']::items.tokens
  | _, .emptyObj => [['\x7b'],['\x7d']]
  | _, .obj members => ['\x7b']::members.tokens
  | _, .last v => v.tokens ++ [[']']]
  | _, .item v items => v.tokens ++ [',']::items.tokens
  | _, .lastMember key v => quoted key::[':']::(v.tokens ++ [['\x7d']])
  | _, .member key v members => quoted key::[':']::(v.tokens ++ [',']::members.tokens)

/-- Tokens with whitespace around and between them. -/
inductive Spread : List (List Char) → List Char → Prop where
  | nil {w : List Char} : Space w → Spread [] w
  | cons {w token s : List Char} {tokens : List (List Char)} : Space w → Spread tokens s →
      Spread (token::tokens) (w ++ (token ++ s))

section Spaces

theorem space_nil : Space [] := by simp [Space]

theorem Space.append {a b : List Char} (ha : Space a) (hb : Space b) : Space (a ++ b) := by
  intro c hc
  rcases List.mem_append.mp hc with hc | hc
  · exact ha c hc
  · exact hb c hc

theorem Space.cons {c : Char} {w : List Char} (hc : isSpace c = true) (hw : Space w) : Space (c::w) := by
  intro d hd
  rcases List.mem_cons.mp hd with rfl | hd
  · exact hc
  · exact hw d hd

/-- What the text goes on with is not a space. -/
def Dark (s : List Char) : Prop := ∀ c, s.head? = some c → isSpace c = false

theorem dark_cons {c : Char} {s : List Char} (h : isSpace c = false) : Dark (c::s) := by
  intro d hd
  rw [List.head?_cons, Option.some_inj] at hd
  exact hd ▸ h

theorem Dark.append {s : List Char} (h : Dark s) (hne : s ≠ []) (t : List Char) : Dark (s ++ t) := by
  intro c hc
  rw [List.head?_append_of_ne_nil s hne] at hc
  exact h c hc

theorem takeWhile_space {w s : List Char} (hw : Space w) (hs : Dark s) : (w ++ s).takeWhile isSpace = w := by
  induction w with
  | nil =>
    cases s with
    | nil => rfl
    | cons c s => simp [hs c rfl]
  | cons c w ih =>
    have hc := hw c List.mem_cons_self
    rw [List.cons_append, List.takeWhile_cons_of_pos hc, ih fun d hd => hw d (List.mem_cons_of_mem _ hd)]

theorem dropWhile_space {w s : List Char} (hw : Space w) (hs : Dark s) : (w ++ s).dropWhile isSpace = s := by
  have h := List.takeWhile_append_dropWhile (p := isSpace) (l := w ++ s)
  rw [takeWhile_space hw hs] at h
  exact List.append_cancel_left h

end Spaces

section Texts

theorem Digits.head (d : Digits) : ∃ c s, d.text = c::s ∧ c.isDigit = true := by
  cases h : d.text with
  | nil => exact absurd h d.nonempty
  | cons c s => exact ⟨c,s,rfl,d.digits c (h ▸ List.mem_cons_self)⟩

theorem Number.head (n : Number) : ∃ c s, n.text = c::s ∧ (c = '-' ∨ c.isDigit = true) := by
  unfold Number.text
  cases n.minus with
  | true => exact ⟨'-',_,rfl,.inl rfl⟩
  | false =>
    obtain ⟨c,s,hs,hc⟩ := n.int.head
    exact ⟨c,s ++ fracText n.frac ++ expText n.exp,by simp [hs],.inr hc⟩

/-- A value starts with what is neither a space nor a closing bracket. -/
def Opens (c : Char) : Prop := isSpace c = false ∧ c ≠ ']' ∧ c ≠ '\x7d'

theorem digit_opens {c : Char} (h : c.isDigit = true) : Opens c := by
  have hne : ∀ d : Char, d.isDigit = false → c ≠ d := by
    rintro d hd rfl
    rw [hd] at h
    cases h
  refine ⟨?_,hne _ (by decide),hne _ (by decide)⟩
  unfold isSpace
  simp only [Bool.or_eq_false_iff, decide_eq_false_iff_not]
  exact ⟨⟨⟨hne _ (by decide),hne _ (by decide)⟩,hne _ (by decide)⟩,hne _ (by decide)⟩

theorem Laid.opens {v : Tree .value} {s : List Char} (h : Laid v s) : ∃ c t, s = c::t ∧ Opens c := by
  cases h with
  | word w =>
    cases w with
    | null => exact ⟨'n',_,rfl,by unfold Opens; decide⟩
    | bool b => cases b <;> exact ⟨_,_,rfl,by unfold Opens; decide⟩
  | num n =>
    obtain ⟨c,t,ht,hc⟩ := n.head
    refine ⟨c,t,ht,?_⟩
    rcases hc with rfl | hc
    · unfold Opens
      decide
    · exact digit_opens hc
  | str pieces => exact ⟨_,_,rfl,by unfold Opens; decide⟩
  | emptyArr => exact ⟨_,_,rfl,by unfold Opens; decide⟩
  | arr => exact ⟨_,_,rfl,by unfold Opens; decide⟩
  | emptyObj => exact ⟨_,_,rfl,by unfold Opens; decide⟩
  | obj => exact ⟨_,_,rfl,by unfold Opens; decide⟩

theorem Laid.dark {v : Tree .value} {s : List Char} (h : Laid v s) : s ≠ [] ∧ Dark s := by
  obtain ⟨c,t,rfl,hc⟩ := h.opens
  exact ⟨List.cons_ne_nil _ _,dark_cons hc.1⟩

/-- Items and members start with spaces and with what is not a closing bracket. -/
def Started (s : List Char) : Prop := ∃ w c t, s = w ++ c::t ∧ Space w ∧ Opens c

theorem started_append {w s : List Char} {v : Tree .value} (hw : Space w) (hs : Laid v s) (r : List Char) :
    Started (w ++ (s ++ r)) := by
  obtain ⟨c,t,rfl,hc⟩ := hs.opens
  exact ⟨w,c,t ++ r,rfl,hw,hc⟩

theorem Laid.items_started {items : Tree .items} {s : List Char} (h : Laid items s) : Started s := by
  cases h with
  | last hw hs _ => exact started_append hw hs _
  | item hw hs _ _ => exact started_append hw hs _

theorem Laid.members_started {members : Tree .members} {s : List Char} (h : Laid members s) : Started s := by
  cases h with
  | lastMember hw => exact started_append hw (.str _) _
  | member hw => exact started_append hw (.str _) _

theorem Laid.space_items {items : Tree .items} {s w : List Char} (h : Laid items s) (hw : Space w) :
    Laid items (w ++ s) := by
  cases h with
  | last hw₀ hs hw' =>
    rw [← List.append_assoc]
    exact .last (hw.append hw₀) hs hw'
  | item hw₀ hs hw' hr =>
    rw [← List.append_assoc]
    exact .item (hw.append hw₀) hs hw' hr

theorem Laid.space_members {members : Tree .members} {s w : List Char} (h : Laid members s) (hw : Space w) :
    Laid members (w ++ s) := by
  cases h with
  | lastMember hw₀ hw₁ hw₂ hs hw' =>
    rw [← List.append_assoc]
    exact .lastMember (hw.append hw₀) hw₁ hw₂ hs hw'
  | member hw₀ hw₁ hw₂ hs hw' hr =>
    rw [← List.append_assoc]
    exact .member (hw.append hw₀) hw₁ hw₂ hs hw' hr

end Texts

section Tokens

theorem Spread.space {tokens : List (List Char)} {w s : List Char} (hw : Space w) (h : Spread tokens s) :
    Spread tokens (w ++ s) := by
  cases h with
  | nil hs => exact .nil (hw.append hs)
  | cons hs ht =>
    rw [← List.append_assoc]
    exact .cons (hw.append hs) ht

theorem Spread.append {tokens tokens' : List (List Char)} {s t : List Char} (h : Spread tokens s)
    (k : Spread tokens' t) : Spread (tokens ++ tokens') (s ++ t) := by
  induction h with
  | nil hw => exact k.space hw
  | cons hw _ ih =>
    rw [List.append_assoc, List.append_assoc]
    exact .cons hw ih

theorem spread_single (token : List Char) : Spread [token] token := by
  have h : Spread [token] ([] ++ (token ++ [])) := .cons space_nil (.nil space_nil)
  simpa using h

theorem spread_cons (token : List Char) {s : List Char} {tokens : List (List Char)} (h : Spread tokens s) :
    Spread (token::tokens) (token ++ s) := (spread_single token).append h

/-- A text spreads the tokens of its tree. -/
theorem Laid.spread {k : Kind} {tree : Tree k} {s : List Char} (h : Laid tree s) : Spread tree.tokens s := by
  induction h with
  | word w => exact spread_single _
  | num n => exact spread_single _
  | str pieces => exact spread_single _
  | emptyArr hw => exact spread_cons _ ((spread_single [']']).space hw)
  | arr _ ih => exact spread_cons _ ih
  | emptyObj hw => exact spread_cons _ ((spread_single ['\x7d']).space hw)
  | obj _ ih => exact spread_cons _ ih
  | last hw _ hw' ih => exact (ih.append ((spread_single [']']).space hw')).space hw
  | item hw _ hw' _ ih ihr => exact (ih.append ((spread_cons _ ihr).space hw')).space hw
  | lastMember hw hw₁ hw₂ _ hw' ih =>
    have hvalue := ih.append ((spread_single ['\x7d']).space hw')
    exact (spread_cons _ ((spread_cons [':'] (hvalue.space hw₂)).space hw₁)).space hw
  | member hw hw₁ hw₂ _ hw' _ ih ihr =>
    have hvalue := ih.append ((spread_cons [','] ihr).space hw')
    exact (spread_cons _ ((spread_cons [':'] (hvalue.space hw₂)).space hw₁)).space hw

theorem IsText.spread {tree : Tree .value} {text : List Char} (h : IsText tree text) : Spread tree.tokens text := by
  obtain ⟨w,s,w',hw,hs,hw',rfl⟩ := h
  have hend := hs.spread.append (.nil hw')
  rw [List.append_nil] at hend
  exact hend.space hw

end Tokens

end BuildFiji.JsonGrammar
