import BuildFiji.Starlark.Json
import BuildFiji.Lib.Fallible
import Mathlib

/-!
# Reading JSON's atoms

The decoder is always at the end of a character: each step goes on by the bytes of what it has
looked at. A string is read when what follows is a string's text, and a number when what follows
is a number's and nothing that a number could go on with.
-/

set_option autoImplicit false
set_option linter.all false

namespace BuildFiji.Starlark.Json

open BuildFiji.JsonGrammar

section Offsets

theorem size_nil : size [] = 0 := rfl

theorem size_cons (c : Char) (s : List Char) : size (c::s) = c.utf8Size+size s := by
  simp [size]

theorem size_append (a b : List Char) : size (a ++ b) = size a+size b := by
  simp [size]

theorem splitBytes_append (a b : List Char) : splitBytes (a ++ b) (size a) = some (a,b) := by
  induction a with
  | nil => cases b <;> rfl
  | cons c a ih =>
    have hpos := c.utf8Size_pos
    obtain ⟨n,hn⟩ : ∃ n, size (c::a) = n+1 := Nat.exists_eq_succ_of_ne_zero (by rw [size_cons]; omega)
    have hrest : n+1-c.utf8Size = size a := by
      rw [← hn, size_cons]
      omega
    rw [hn, List.cons_append, splitBytes, if_pos (by rw [← hn, size_cons]; omega), hrest, ih]
    rfl

theorem splitBytes_some {s a b : List Char} {n : ℕ} (h : splitBytes s n = some (a,b)) : s = a ++ b ∧ size a = n := by
  induction s generalizing n a with
  | nil =>
    cases n with
    | zero =>
      rw [splitBytes] at h
      cases h
      exact ⟨rfl,rfl⟩
    | succ n => cases h
  | cons c s ih =>
    cases n with
    | zero =>
      rw [splitBytes] at h
      cases h
      exact ⟨rfl,rfl⟩
    | succ n =>
      rw [splitBytes] at h
      split at h
      · next hle =>
        obtain ⟨cut,hcut,heq⟩ := Option.map_eq_some_iff.mp h
        obtain ⟨rfl,rfl⟩ := Prod.mk.inj heq
        obtain ⟨rfl,hsize⟩ := ih hcut
        exact ⟨rfl,by rw [size_cons]; omega⟩
      · cases h

/-- What the text goes on with from an offset, which is not within a character. -/
def Here (text : List Char) (pos : ℕ) (rest : List Char) : Prop := ∃ a, text = a ++ rest ∧ size a = pos

variable {text s : List Char} {pos : ℕ}

theorem here_start (text : List Char) : Here text 0 text := ⟨[],rfl,rfl⟩

theorem Here.slice (h : Here text pos s) : sliceFrom text pos = .ok s := by
  obtain ⟨a,rfl,rfl⟩ := h
  rw [sliceFrom, splitBytes_append]

theorem Here.advance {a : List Char} (h : Here text pos (a ++ s)) : Here text (pos+size a) s := by
  obtain ⟨b,rfl,rfl⟩ := h
  exact ⟨b ++ a,by rw [List.append_assoc],size_append b a⟩

theorem Here.length_le (h : Here text pos s) : s.length ≤ text.length := by
  obtain ⟨a,rfl,-⟩ := h
  rw [List.length_append]
  omega

theorem Here.peek (h : Here text pos s) : peek text pos = .ok s.head? := by
  rw [Json.peek, h.slice]
  rfl

theorem utf8Size_ascii {c : Char} (h : c.toNat < 0x80) : c.utf8Size = 1 := by
  unfold Char.utf8Size
  rw [if_pos]
  exact UInt32.le_iff_toNat_le.mpr (by simpa using Nat.le_of_lt_succ h)

theorem size_ascii {w : List Char} (h : ∀ c ∈ w, c.toNat < 0x80) : size w = w.length := by
  induction w with
  | nil => rfl
  | cons c w ih =>
    rw [size_cons, utf8Size_ascii (h c List.mem_cons_self), ih fun d hd => h d (List.mem_cons_of_mem _ hd),
      List.length_cons, Nat.add_comm]

theorem isSpace_ascii {c : Char} (h : isSpace c = true) : c.toNat < 0x80 := by
  simp only [isSpace, Bool.or_eq_true, decide_eq_true_eq] at h
  rcases h with ((rfl | rfl) | rfl) | rfl <;> decide

/-- One character of one byte on. -/
theorem Here.next {c : Char} (h : Here text pos (c::s)) (hc : c.toNat < 0x80) : Here text (pos+1) s := by
  have hnext := Here.advance (a := [c]) h
  rwa [size_cons, utf8Size_ascii hc, size_nil] at hnext

theorem Here.skipSpace {w : List Char} (h : Here text pos (w ++ s)) (hw : Space w) (hs : Dark s) :
    skipSpace text pos = .ok (pos+size w) := by
  rw [Json.skipSpace, h.slice, size_ascii fun c hc => isSpace_ascii (hw c hc)]
  simp only [bind, Except.bind, pure, Except.pure, takeWhile_space hw hs]

theorem split_space (s : List Char) : ∃ w s', s = w ++ s' ∧ Space w ∧ Dark s' := by
  refine ⟨s.takeWhile isSpace,s.dropWhile isSpace,List.takeWhile_append_dropWhile.symm,
    fun c hc => List.mem_takeWhile_imp hc,fun c hc => ?_⟩
  have h := List.head?_dropWhile_not isSpace s
  rw [hc] at h
  simpa using h

end Offsets

section Ends

variable {α β : Type}

/-- A walk that does not stop within a character; where it gives something, that holds of it. -/
def Ends (P : α → Prop) : Except Stop α → Prop
  | .ok a => P a
  | .error (.error _) => True
  | .error .stuck => False

theorem ends_fail (P : α → Prop) (pos : ℕ) (what : String) : Ends P (fail pos what) := trivial

theorem Ends.bind {P : α → Prop} {Q : β → Prop} {x : Except Stop α} {f : α → Except Stop β} (h : Ends P x)
    (hf : ∀ a, P a → Ends Q (f a)) : Ends Q (x >>= f) := by
  cases x with
  | ok a => exact hf a h
  | error e =>
    cases e with
    | error => trivial
    | stuck => exact h.elim

theorem Ends.mono {P Q : α → Prop} {x : Except Stop α} (h : Ends P x) (hPQ : ∀ a, P a → Q a) : Ends Q x := by
  cases x with
  | ok a => exact hPQ a h
  | error e =>
    cases e with
    | error => trivial
    | stuck => exact h

theorem Ends.of_ok {P : α → Prop} {x : Except Stop α} {a : α} (h : Ends P x) (hx : x = .ok a) : P a := by
  subst hx
  exact h

end Ends

section Strings

def hexNumber (digits : List Char) : ℕ := digits.foldl (fun n h => n*16+(hexValue h).getD 0) 0

def pieceUnits : Piece → List UInt16
  | .plain c _ => Utf16.units c
  | .escape _ c _ => Utf16.units c
  | .unicode digits _ => [.ofNat (hexNumber digits)]

/-- What a string literal says. -/
def literalText (pieces : List Piece) : String := String.ofList (Utf16.fromUnits (pieces.flatMap pieceUnits))

theorem simpleEscape_iff {letter c : Char} : simpleEscape letter = some c ↔ (letter,c) ∈ escapes := by
  constructor
  · intro h
    unfold simpleEscape at h
    split_ifs at h <;> (subst_vars; cases h; decide)
  · intro h
    simp only [escapes, List.mem_cons, List.not_mem_nil, or_false, Prod.mk.injEq] at h
    rcases h with ⟨rfl,rfl⟩ | ⟨rfl,rfl⟩ | ⟨rfl,rfl⟩ | ⟨rfl,rfl⟩ | ⟨rfl,rfl⟩ | ⟨rfl,rfl⟩ | ⟨rfl,rfl⟩ | ⟨rfl,rfl⟩ <;> rfl

theorem readHex_ok (pos : ℕ) {digits : List Char} (h : ∀ c ∈ digits, (hexValue c).isSome) (n : ℕ) :
    readHex pos digits n = .ok (digits.foldl (fun n h => n*16+(hexValue h).getD 0) n) := by
  induction digits generalizing n with
  | nil => rfl
  | cons c digits ih =>
    obtain ⟨d,hd⟩ := Option.isSome_iff_exists.mp (h c List.mem_cons_self)
    simp only [readHex, hd, List.foldl_cons, Option.getD_some]
    exact ih (fun x hx => h x (List.mem_cons_of_mem _ hx)) _

theorem readHex_ends (pos : ℕ) (digits : List Char) (n : ℕ) :
    Ends (fun m => (∀ c ∈ digits, (hexValue c).isSome) ∧ m = digits.foldl (fun n h => n*16+(hexValue h).getD 0) n)
      (readHex pos digits n) := by
  induction digits generalizing n with
  | nil => exact ⟨fun c hc => absurd hc (by simp),rfl⟩
  | cons c digits ih =>
    rw [readHex]
    split
    · next d hd =>
      refine (ih _).mono fun m hm => ⟨fun x hx => ?_,?_⟩
      · rcases List.mem_cons.mp hx with rfl | hx
        · simp [hd]
        · exact hm.1 x hx
      · rw [List.foldl_cons, hd]
        exact hm.2
    · split
      · trivial
      · trivial

theorem hexValue_ascii {c : Char} (h : (hexValue c).isSome) : c.toNat < 0x80 := by
  unfold hexValue at h
  split_ifs at h with h1 h2 h3
  · simp only [Char.isDigit, Bool.and_eq_true, decide_eq_true_eq] at h1
    exact lt_of_le_of_lt (UInt32.le_iff_toNat_le.mp h1.2) (by decide)
  · exact lt_of_le_of_lt (UInt32.le_iff_toNat_le.mp h2.2) (by decide)
  · exact lt_of_le_of_lt (UInt32.le_iff_toNat_le.mp h3.2) (by decide)
  · cases h

variable {text : List Char}

/-- What is read of a string from behind its first quote. -/
def StringRead (units : List UInt16) (pos : ℕ) (s : List Char) (r : String × ℕ) : Prop :=
  ∃ (pieces : List Piece) (rest : List Char), s = pieces.flatMap Piece.text ++ '"' :: rest ∧
    r.1 = String.ofList (Utf16.fromUnits (units ++ pieces.flatMap pieceUnits)) ∧
    r.2 = pos+size (pieces.flatMap Piece.text)+1

theorem StringRead.piece {units : List UInt16} {pos : ℕ} {s : List Char} {r : String × ℕ} (p : Piece)
    (h : StringRead (units ++ pieceUnits p) (pos+size p.text) s r) : StringRead units pos (p.text ++ s) r := by
  obtain ⟨pieces,rest,rfl,hr,hpos⟩ := h
  refine ⟨p::pieces,rest,by simp,by simpa using hr,?_⟩
  rw [List.flatMap_cons, size_append, hpos]
  omega

theorem stringLoop_ends {fuel pos : ℕ} {s : List Char} {units : List UInt16} (h : Here text pos s)
    (hfuel : s.length < fuel) : Ends (StringRead units pos s) (stringLoop text fuel units pos) := by
  induction fuel generalizing pos s units with
  | zero => omega
  | succ fuel ih =>
    rw [stringLoop, h.peek]
    cases s with
    | nil => trivial
    | cons c s =>
      simp only [List.head?_cons, bind, Except.bind]
      split
      · next hc =>
        subst hc
        exact ⟨[],s,rfl,by simp,by simp [size_nil]⟩
      · next hquote =>
        split
        · next hc =>
          subst hc
          have hnext := h.next (by decide)
          rw [hnext.peek]
          cases s with
          | nil => trivial
          | cons e s =>
            have hafter : Here text (pos+1+e.utf8Size) s := by
              have := Here.advance (a := [e]) hnext
              rwa [size_cons, size_nil] at this
            simp only [List.length_cons] at hfuel
            simp only [List.head?_cons]
            cases hsimple : simpleEscape e with
            | some ch =>
              dsimp only
              have hrec := @ih _ _ (units ++ Utf16.units ch) hafter (by omega)
              refine hrec.mono fun r hr => StringRead.piece (.escape e ch (simpleEscape_iff.mp hsimple)) ?_
              have hsize : size (Piece.escape e ch (simpleEscape_iff.mp hsimple)).text = 1+e.utf8Size := by
                simp only [Piece.text, size_cons, size_nil]
                rfl
              rw [hsize, ← Nat.add_assoc]
              exact hr
            | none =>
              dsimp only
              split
              · next hu =>
                subst hu
                rw [hafter.slice]
                dsimp only
                cases hcut : splitBytes s 4 with
                | none => trivial
                | some cut =>
                  obtain ⟨four,rest⟩ := cut
                  obtain ⟨rfl,hsize⟩ := splitBytes_some hcut
                  dsimp only
                  refine (readHex_ends _ four 0).bind fun unit hunit => ?_
                  have hascii : size four = four.length := size_ascii fun c hc => hexValue_ascii (hunit.1 c hc)
                  have hlen : four.length = 4 := hascii ▸ hsize
                  have hend : Here text (pos+1+Char.utf8Size 'u'+4) rest := hsize ▸ hafter.advance
                  rw [List.length_append] at hfuel
                  have hrec := @ih _ _ (units ++ [.ofNat unit]) hend (by omega)
                  refine hrec.mono fun r hr => StringRead.piece (.unicode four ⟨hlen,hunit.1⟩) ?_
                  have hpiece : size (Piece.unicode four ⟨hlen,hunit.1⟩).text = 1+Char.utf8Size 'u'+4 := by
                    simp only [Piece.text, size_cons, hsize]
                    rfl
                  rw [hpiece, pieceUnits, hexNumber, ← hunit.2, ← Nat.add_assoc, ← Nat.add_assoc]
                  exact hr
              · trivial
        · next hslash =>
          split
          · trivial
          · next hcontrol =>
            have hplain : 0x20 ≤ c.toNat ∧ c ≠ '"' ∧ c ≠ '\\' := ⟨not_lt.mp hcontrol,hquote,hslash⟩
            have hafter : Here text (pos+c.utf8Size) s := by
              have := Here.advance (a := [c]) h
              rwa [size_cons, size_nil] at this
            have hrec := @ih _ _ (units ++ Utf16.units c) hafter (by simp only [List.length_cons] at hfuel; omega)
            refine hrec.mono fun r hr => StringRead.piece (.plain c hplain) ?_
            have hsize : size (Piece.plain c hplain).text = c.utf8Size := by
              simp only [Piece.text, size_cons, size_nil, Nat.add_zero]
            rw [hsize]
            exact hr

theorem string_ends {pos : ℕ} {s : List Char} (h : Here text pos ('"' :: s)) :
    Ends (fun r => ∃ pieces rest, '"' :: s = quoted pieces ++ rest ∧ r.1 = literalText pieces ∧
      r.2 = pos+size (quoted pieces)) (string text pos) := by
  have hin := h.next (by decide)
  refine (@stringLoop_ends text _ _ _ [] hin (Nat.lt_succ_of_le hin.length_le)).mono fun r hr => ?_
  obtain ⟨pieces,rest,rfl,hr,hpos⟩ := hr
  refine ⟨pieces,rest,by simp [quoted],hr,?_⟩
  have hquote : Char.utf8Size '"' = 1 := rfl
  rw [hpos, quoted, size_cons, size_append, size_cons, size_nil, hquote]
  omega

theorem stringLoop_piece {fuel pos : ℕ} {s : List Char} {units : List UInt16} (p : Piece)
    (h : Here text pos (p.text ++ s)) :
    stringLoop text (fuel+1) units pos = stringLoop text fuel (units ++ pieceUnits p) (pos+size p.text) := by
  rw [stringLoop, h.peek]
  cases p with
  | plain c hc =>
    simp only [Piece.text, List.cons_append, List.nil_append, List.head?_cons, bind, Except.bind, size_cons, size_nil,
      if_neg hc.2.1, if_neg hc.2.2, if_neg (not_lt.mpr hc.1), pieceUnits, Nat.add_zero]
  | escape letter c hc =>
    have hnext : Here text (pos+1) (letter::s) := Here.next h (by decide)
    simp only [Piece.text, List.cons_append, List.nil_append, List.head?_cons, bind, Except.bind,
      if_neg (show ¬ '\\' = '"' by decide), if_true, hnext.peek, simpleEscape_iff.mpr hc, pieceUnits, size_cons,
      size_nil, Nat.add_zero, show Char.utf8Size '\\' = 1 from rfl, Nat.add_assoc]
  | unicode digits hd =>
    have hnext : Here text (pos+1) ('u' :: (digits ++ s)) := Here.next h (by decide)
    have hdigits : Here text (pos+1+1) (digits ++ s) := hnext.next (by decide)
    have hsize : size digits = 4 := (size_ascii fun c hc => hexValue_ascii (hd.2 c hc)).trans hd.1
    have hcut : splitBytes (digits ++ s) 4 = some (digits,s) := hsize ▸ splitBytes_append digits s
    simp only [Piece.text, List.cons_append, List.head?_cons, bind, Except.bind,
      if_neg (show ¬ '\\' = '"' by decide), if_true, hnext.peek, show simpleEscape 'u' = none from rfl,
      show Char.utf8Size 'u' = 1 from rfl, hdigits.slice, hcut, readHex_ok _ hd.2, pieceUnits, hexNumber, size_cons,
      show Char.utf8Size '\\' = 1 from rfl, hsize, Nat.add_assoc]

theorem stringLoop_pieces {pieces : List Piece} {fuel pos : ℕ} {s : List Char} {units : List UInt16}
    (h : Here text pos (pieces.flatMap Piece.text ++ '"' :: s)) (hfuel : pieces.length < fuel) :
    stringLoop text fuel units pos = .ok (String.ofList (Utf16.fromUnits (units ++ pieces.flatMap pieceUnits)),
      pos+size (pieces.flatMap Piece.text)+1) := by
  induction pieces generalizing fuel pos units with
  | nil =>
    obtain ⟨fuel,rfl⟩ := Nat.exists_eq_succ_of_ne_zero (by omega : fuel ≠ 0)
    rw [stringLoop, h.peek]
    simp [bind, Except.bind, pure, Except.pure, size_nil]
  | cons p pieces ih =>
    obtain ⟨fuel,rfl⟩ := Nat.exists_eq_succ_of_ne_zero (by omega : fuel ≠ 0)
    rw [List.flatMap_cons, List.append_assoc] at h
    rw [stringLoop_piece p h, ih h.advance (by simp only [List.length_cons] at hfuel; omega)]
    simp [size_append, Nat.add_assoc]

theorem pieces_length (pieces : List Piece) : pieces.length ≤ (pieces.flatMap Piece.text).length := by
  induction pieces with
  | nil => exact Nat.le_refl 0
  | cons p pieces ih =>
    have hp : 1 ≤ p.text.length := by cases p <;> simp [Piece.text]
    rw [List.flatMap_cons, List.length_append, List.length_cons]
    omega

theorem string_quoted {pieces : List Piece} {pos : ℕ} {s : List Char} (h : Here text pos (quoted pieces ++ s)) :
    string text pos = .ok (literalText pieces,pos+size (quoted pieces)) := by
  have hin : Here text (pos+1) (pieces.flatMap Piece.text ++ '"' :: s) := by
    have hnext : Here text (pos+1) ((pieces.flatMap Piece.text ++ ['"']) ++ s) := Here.next h (by decide)
    simpa using hnext
  have hlen := hin.length_le
  have hpieces := pieces_length pieces
  rw [List.length_append] at hlen
  rw [string, stringLoop_pieces hin (by omega), List.nil_append, quoted, size_cons, size_append, size_cons, size_nil,
    show Char.utf8Size '"' = 1 from rfl]
  congr 2
  omega

end Strings

section Numbers

variable {F : Type} (floats : Floats F)

def intValue (n : Number) : ℤ := if n.minus then -(digitsValue n.int.text : ℤ) else digitsValue n.int.text

def isWhole (n : Number) : Bool := n.frac.isNone && n.exp.isNone

/-- A number with a fraction or an exponent is a floating point one. -/
def numberValue (n : Number) : Value F := if isWhole n then .int (intValue n) else .float (floats.nearest n.text)

/-- What the text goes on with is not part of a number. -/
def Follows (s : List Char) : Prop := ∀ c, s.head? = some c → numberChar c = false

theorem follows_cons {c : Char} {s : List Char} (h : numberChar c = false) : Follows (c::s) := by
  intro d hd
  rw [List.head?_cons, Option.some_inj] at hd
  exact hd ▸ h

theorem takeWhile_run {p : Char → Bool} {a s : List Char} (ha : ∀ c ∈ a, p c = true)
    (hs : ∀ c, s.head? = some c → p c = false) : (a ++ s).takeWhile p = a := by
  induction a with
  | nil =>
    cases s with
    | nil => rfl
    | cons c s => simp [hs c rfl]
  | cons c a ih =>
    rw [List.cons_append, List.takeWhile_cons_of_pos (ha c List.mem_cons_self),
      ih fun d hd => ha d (List.mem_cons_of_mem _ hd)]

theorem dropWhile_run {p : Char → Bool} {a s : List Char} (ha : ∀ c ∈ a, p c = true)
    (hs : ∀ c, s.head? = some c → p c = false) : (a ++ s).dropWhile p = s := by
  have h := List.takeWhile_append_dropWhile (p := p) (l := a ++ s)
  rw [takeWhile_run ha hs] at h
  exact List.append_cancel_left h

theorem isDigit_number {c : Char} (h : c.isDigit = true) : numberChar c = true := by
  simp [numberChar, h]

theorem isDigit_ascii {c : Char} (h : c.isDigit = true) : c.toNat < 0x80 := by
  simp only [Char.isDigit, Bool.and_eq_true, decide_eq_true_eq] at h
  exact lt_of_le_of_lt (UInt32.le_iff_toNat_le.mp h.2) (by decide)

theorem numberChar_ascii {c : Char} (h : numberChar c = true) : c.toNat < 0x80 := by
  simp only [numberChar, Bool.or_eq_true, decide_eq_true_eq] at h
  rcases h with ((((h | rfl) | rfl) | rfl) | rfl) | rfl
  · exact isDigit_ascii h
  all_goals decide

theorem expText_head {exp : Option Exponent} {c : Char} (h : (expText exp).head? = some c) : c = 'e' ∨ c = 'E' := by
  cases exp with
  | none => cases h
  | some e =>
    obtain rfl := Option.some.inj h
    exact e.isLetter

theorem tail_head {n : Number} {c : Char} (h : (fracText n.frac ++ expText n.exp).head? = some c) :
    c = '.' ∨ c = 'e' ∨ c = 'E' := by
  cases hfrac : n.frac with
  | none =>
    rw [hfrac] at h
    exact .inr (expText_head h)
  | some d =>
    rw [hfrac] at h
    exact .inl (Option.some.inj h).symm

theorem tail_digit {n : Number} {c : Char} (h : (fracText n.frac ++ expText n.exp).head? = some c) :
    c.isDigit = false := by
  rcases tail_head h with rfl | rfl | rfl <;> decide

theorem exponent_chars {e : Exponent} : ∀ c ∈ e.text, numberChar c = true := by
  intro c hc
  have hsign : ∀ c ∈ e.sign, numberChar c = true := by
    rcases e.isSign with h | h | h <;> rw [h] <;> intro c hc <;> simp at hc <;> subst hc <;> decide
  unfold Exponent.text at hc
  rcases List.mem_cons.mp hc with rfl | hc
  · rcases e.isLetter with h | h <;> rw [h] <;> decide
  · rcases List.mem_append.mp hc with hc | hc
    · exact hsign c hc
    · exact isDigit_number (e.digits.digits c hc)

theorem number_chars (n : Number) : ∀ c ∈ n.text, numberChar c = true := by
  intro c hc
  unfold Number.text at hc
  simp only [List.mem_append] at hc
  rcases hc with ((hc | hc) | hc) | hc
  · split at hc
    · rw [List.mem_singleton.mp hc]
      decide
    · cases hc
  · exact isDigit_number (n.int.digits c hc)
  · cases hfrac : n.frac with
    | none => simp [hfrac, fracText] at hc
    | some d =>
      rw [hfrac] at hc
      rcases List.mem_cons.mp hc with rfl | hc
      · decide
      · exact isDigit_number (d.digits c hc)
  · cases hexp : n.exp with
    | none => simp [hexp, expText] at hc
    | some e =>
      rw [hexp] at hc
      exact exponent_chars c hc

theorem withoutMinus_text (n : Number) : withoutMinus n.text = n.int.text ++ (fracText n.frac ++ expText n.exp) := by
  unfold Number.text
  rw [List.append_assoc, List.append_assoc]
  cases n.minus with
  | true => rfl
  | false =>
    obtain ⟨c,s,hs,hc⟩ := n.int.head
    have hne : c ≠ '-' := by
      rintro rfl
      cases hc
    rw [if_neg (by simp), List.nil_append, hs, List.cons_append]
    unfold withoutMinus
    split
    · next heq => exact absurd (List.cons.inj heq).1 hne
    · rfl

theorem unsigned_text (n : Number) :
    (if n.text.head? = some '+' ∨ n.text.head? = some '-' then n.text.tail else n.text) =
      n.int.text ++ (fracText n.frac ++ expText n.exp) := by
  unfold Number.text
  rw [List.append_assoc, List.append_assoc]
  cases n.minus with
  | true => rfl
  | false =>
    obtain ⟨c,s,hs,hc⟩ := n.int.head
    have hplus : c ≠ '+' := by
      rintro rfl
      cases hc
    have hminus : c ≠ '-' := by
      rintro rfl
      cases hc
    rw [if_neg]
    · rfl
    · simp [hs, hplus, hminus]

theorem isExponent_text (e : Exponent) : isExponent e.text = true := by
  have hletter : (e.letter = 'e' || e.letter = 'E') = true := by
    rcases e.isLetter with h | h <;> rw [h] <;> decide
  have hdigits : (if (e.sign ++ e.digits.text).head? = some '+' ∨ (e.sign ++ e.digits.text).head? = some '-' then
      (e.sign ++ e.digits.text).tail else e.sign ++ e.digits.text) = e.digits.text := by
    obtain ⟨c,s,hs,hc⟩ := e.digits.head
    rcases e.isSign with h | h | h
    · have hplus : c ≠ '+' := by
        rintro rfl
        cases hc
      have hminus : c ≠ '-' := by
        rintro rfl
        cases hc
      rw [h, List.nil_append, if_neg]
      simp [hs, hplus, hminus]
    · rw [h]
      rfl
    · rw [h]
      rfl
  rw [Exponent.text, List.cons_append, isExponent]
  rw [hdigits, hletter]
  simp only [Bool.true_and, Bool.and_eq_true, decide_eq_true_eq, List.all_eq_true]
  exact ⟨e.digits.nonempty,e.digits.digits⟩

theorem isExponent_expText (exp : Option Exponent) : isExponent (expText exp) = true := by
  cases exp with
  | none => rfl
  | some e => exact isExponent_text e

theorem isFloat_text (n : Number) : isFloat n.text = true := by
  unfold isFloat
  dsimp only
  rw [unsigned_text, takeWhile_run n.int.digits fun c hc => tail_digit hc,
    dropWhile_run n.int.digits fun c hc => tail_digit hc]
  cases hfrac : n.frac with
  | none =>
    rw [fracText, Option.elim_none, List.nil_append]
    split
    · next rest heq =>
      rcases expText_head (congrArg List.head? heq) with h | h <;> cases h
    · simp [n.int.nonempty, isExponent_expText]
  | some d =>
    have hd : ∀ c, (expText n.exp).head? = some c → c.isDigit = false := by
      intro c hc
      rcases expText_head hc with rfl | rfl <;> decide
    simp only [fracText, Option.elim_some, List.cons_append]
    rw [dropWhile_run d.digits hd]
    simp [n.int.nonempty, isExponent_expText]

theorem parseInt_text {n : Number} (h : isWhole n = true) : parseInt n.text = some (intValue n) := by
  simp only [isWhole, Bool.and_eq_true, Option.isNone_iff_eq_none] at h
  have htail : fracText n.frac ++ expText n.exp = [] := by rw [h.1, h.2]; rfl
  unfold parseInt
  rw [unsigned_text, htail, List.append_nil, if_pos ⟨n.int.nonempty,List.all_eq_true.mpr n.int.digits⟩]
  unfold intValue Number.text
  rw [List.append_assoc, htail, List.append_nil]
  cases n.minus with
  | true => rfl
  | false =>
    obtain ⟨c,s,hs,hc⟩ := n.int.head
    have hminus : c ≠ '-' := by
      rintro rfl
      cases hc
    simp [hs, hminus]

theorem any_point (n : Number) : (n.text.any fun c => c = '.' || c = 'e' || c = 'E') = !isWhole n := by
  have hdigits : ∀ d : Digits, (d.text.any fun c => c = '.' || c = 'e' || c = 'E') = false := by
    intro d
    rw [List.any_eq_false]
    intro c hc hpoint
    have := d.digits c hc
    simp only [Bool.or_eq_true, decide_eq_true_eq] at hpoint
    rcases hpoint with (rfl | rfl) | rfl <;> cases this
  unfold Number.text isWhole
  rw [List.any_append, List.any_append, List.any_append, hdigits n.int]
  have hminus : ((if n.minus = true then ['-'] else []).any fun c => c = '.' || c = 'e' || c = 'E') = false := by
    cases n.minus <;> rfl
  rw [hminus]
  cases n.frac with
  | none =>
    cases n.exp with
    | none => rfl
    | some e => rcases e.isLetter with h | h <;> simp [fracText, expText, Exponent.text, h]
  | some d => simp [fracText]

variable {text : List Char} {pos : ℕ}

theorem size_number (n : Number) : size n.text = n.text.length :=
  size_ascii fun c hc => numberChar_ascii (number_chars n c hc)

theorem number_text {n : Number} {s : List Char} (h : Here text pos (n.text ++ s)) (hs : Follows s) :
    number text floats pos = .ok (numberValue floats n,pos+size n.text) := by
  have htail := fun c => @tail_digit n c
  have htoken : (n.text ++ s).takeWhile numberChar = n.text := takeWhile_run (number_chars n) hs
  obtain ⟨c,t,ht,hc⟩ := n.int.head
  have hhead : (n.int.text ++ (fracText n.frac ++ expText n.exp)).head? = some c := by rw [ht]; rfl
  have hint : (n.int.text ++ (fracText n.frac ++ expText n.exp)).takeWhile Char.isDigit = n.int.text :=
    takeWhile_run n.int.digits htail
  have hafter : ∀ i, (n.int.text ++ (fracText n.frac ++ expText n.exp))[n.int.text.length+i]? =
      (fracText n.frac ++ expText n.exp)[i]? := by
    intro i
    rw [List.getElem?_append_right (by omega)]
    congr 1
    omega
  -- a leading zero stands alone
  have hzero : ¬ (some c = some '0' ∧ ((n.int.text ++ (fracText n.frac ++ expText n.exp))[1]?).any Char.isDigit) := by
    rintro ⟨hc0,hany⟩
    have hsingle := n.noZero (by rw [ht, List.head?_cons, hc0])
    have h1 := hafter 0
    rw [hsingle] at h1
    simp only [List.length_singleton, Nat.add_zero] at h1
    rw [hsingle, h1, ← List.head?_eq_getElem?] at hany
    cases hhd : (fracText n.frac ++ expText n.exp).head? with
    | none => simp [hhd] at hany
    | some d => simp [hhd, htail d hhd] at hany
  -- a point has a digit behind it
  have hpoint : ¬ ((fracText n.frac ++ expText n.exp)[0]? = some '.' ∧
      ¬ ((fracText n.frac ++ expText n.exp)[1]?).any Char.isDigit) := by
    rintro ⟨h0,h1⟩
    cases hfrac : n.frac with
    | none =>
      rw [hfrac, fracText, Option.elim_none, List.nil_append] at h0
      rw [← List.head?_eq_getElem?] at h0
      rcases expText_head h0 with h | h <;> cases h
    | some d =>
      obtain ⟨c,t,ht,hc⟩ := d.head
      apply h1
      simp [hfrac, fracText, ht, hc]
  rw [number, h.slice]
  simp only [bind, Except.bind, htoken, withoutMinus_text, hhead, hint, any_point]
  rw [if_neg (by simp only [not_or]; exact ⟨by simpa using hc,hzero⟩)]
  rw [if_neg (by rw [← Nat.add_zero n.int.text.length, hafter 0, Nat.add_assoc, hafter 1]; exact hpoint)]
  unfold numberValue
  cases hwhole : isWhole n with
  | true =>
    simp only [Bool.not_true, Bool.false_eq_true, if_false, if_true, parseInt_text hwhole, size_number]
    rfl
  | false =>
    simp only [Bool.not_false, if_true, isFloat_text, Bool.false_eq_true, if_false, size_number]
    rfl

theorem withoutMinus_split (token : List Char) :
    ∃ minus : Bool, token = (if minus then ['-'] else []) ++ withoutMinus token := by
  unfold withoutMinus
  split
  · exact ⟨true,rfl⟩
  · exact ⟨false,rfl⟩

theorem withoutMinus_other {c : Char} (h : c ≠ '-') (rest : List Char) : withoutMinus (c::rest) = c::rest := by
  unfold withoutMinus
  split
  · next heq => exact absurd (List.cons.inj heq).1 h
  · rfl

theorem unsigned_withoutMinus {token : List Char} (h : (withoutMinus token).head?.any Char.isDigit) :
    (if token.head? = some '+' ∨ token.head? = some '-' then token.tail else token) = withoutMinus token := by
  cases token with
  | nil => rfl
  | cons c rest =>
    by_cases hminus : c = '-'
    · subst hminus
      rfl
    · rw [withoutMinus_other hminus] at h ⊢
      have hplus : c ≠ '+' := by
        rintro rfl
        cases h
      simp [hminus, hplus]

/-- A token whose first part is that of a number is one when its rest is. -/
theorem number_of {token : List Char} (hfirst : (withoutMinus token).head?.any Char.isDigit)
    (hzero : ¬ ((withoutMinus token).head? = some '0' ∧ ((withoutMinus token)[1]?).any Char.isDigit))
    {frac : Option Digits} {exp : Option Exponent}
    (hrest : (withoutMinus token).dropWhile Char.isDigit = fracText frac ++ expText exp) :
    ∃ n : Number, n.text = token := by
  obtain ⟨minus,htoken⟩ := withoutMinus_split token
  have hsplit := List.takeWhile_append_dropWhile (p := Char.isDigit) (l := withoutMinus token)
  cases hdigits : withoutMinus token with
  | nil => simp [hdigits] at hfirst
  | cons c t =>
    rw [hdigits] at hfirst hzero hsplit hrest htoken
    have hc : c.isDigit = true := by simpa using hfirst
    have hnonempty : (c::t).takeWhile Char.isDigit ≠ [] := by simp [hc]
    have hall : ∀ d ∈ (c::t).takeWhile Char.isDigit, d.isDigit = true := fun d hd => List.mem_takeWhile_imp hd
    have hsingle : ((c::t).takeWhile Char.isDigit).head? = some '0' → (c::t).takeWhile Char.isDigit = ['0'] := by
      intro hhead
      rw [List.takeWhile_cons_of_pos hc] at hhead ⊢
      obtain rfl := Option.some.inj hhead
      cases t with
      | nil => rfl
      | cons d t =>
        have hd : ¬ d.isDigit = true := fun hd => hzero ⟨rfl,by simp [hd]⟩
        rw [List.takeWhile_cons_of_neg hd]
    have htext : (if minus then ['-'] else []) ++ (c::t).takeWhile Char.isDigit ++ fracText frac ++ expText exp =
        token := by
      rw [List.append_assoc, ← hrest, List.append_assoc, hsplit, ← htoken]
    exact ⟨⟨minus,⟨_,hnonempty,hall⟩,frac,exp,hsingle⟩,htext⟩

theorem exponent_of {l : List Char} (h : isExponent l = true) : ∃ exp : Option Exponent, expText exp = l := by
  cases l with
  | nil => exact ⟨none,rfl⟩
  | cons letter rest =>
    rw [isExponent] at h
    simp only [Bool.and_eq_true, Bool.or_eq_true, decide_eq_true_eq, List.all_eq_true] at h
    obtain ⟨⟨hletter,hne⟩,hall⟩ := h
    have hsign : ∃ sign, (sign = [] ∨ sign = ['+'] ∨ sign = ['-']) ∧
        rest = sign ++ (if rest.head? = some '+' ∨ rest.head? = some '-' then rest.tail else rest) := by
      cases rest with
      | nil => exact ⟨[],.inl rfl,rfl⟩
      | cons c rest =>
        by_cases hplus : c = '+'
        · subst hplus
          exact ⟨['+'],.inr (.inl rfl),rfl⟩
        · by_cases hminus : c = '-'
          · subst hminus
            exact ⟨['-'],.inr (.inr rfl),rfl⟩
          · exact ⟨[],.inl rfl,by simp [hplus, hminus]⟩
    obtain ⟨sign,his,hrest⟩ := hsign
    refine ⟨some ⟨letter,sign,⟨_,hne,hall⟩,hletter,his⟩,?_⟩
    rw [expText, Option.elim_some, Exponent.text, List.cons_append, ← hrest]

theorem point_digit {digits rest : List Char} (hrest : digits.dropWhile Char.isDigit = '.' :: rest)
    (h : ¬ (digits[(digits.takeWhile Char.isDigit).length]? = some '.' ∧
      ¬ (digits[(digits.takeWhile Char.isDigit).length+1]?).any Char.isDigit)) : rest.takeWhile Char.isDigit ≠ [] := by
  have hsplit := List.takeWhile_append_dropWhile (p := Char.isDigit) (l := digits)
  rw [hrest] at hsplit
  generalize digits.takeWhile Char.isDigit = int at hsplit h
  have hat : ∀ i, digits[int.length+i]? = ('.' :: rest)[i]? := by
    intro i
    rw [← hsplit, List.getElem?_append_right (by omega), Nat.add_sub_cancel_left]
  have h0 := hat 0
  rw [Nat.add_zero] at h0
  rw [h0, hat 1] at h
  have hdigit : (rest[0]?).any Char.isDigit = true := by simpa using h
  cases rest with
  | nil => cases hdigit
  | cons c rest =>
    have hc : c.isDigit = true := by simpa using hdigit
    simp [hc]

theorem number_ends {s : List Char} (h : Here text pos s) :
    Ends (fun r => ∃ n rest, s = n.text ++ rest ∧ r.1 = numberValue floats n ∧ r.2 = pos+size n.text)
      (number text floats pos) := by
  have hsplit := List.takeWhile_append_dropWhile (p := numberChar) (l := s)
  have hfollows : Follows (s.dropWhile numberChar) := by
    intro c hc
    have := List.head?_dropWhile_not numberChar s
    rw [hc] at this
    simpa using this
  by_cases hn : ∃ n : Number, n.text = s.takeWhile numberChar
  · obtain ⟨n,hn⟩ := hn
    rw [← hn] at hsplit
    rw [← hsplit] at h
    rw [number_text floats h hfollows]
    exact ⟨n,_,hsplit.symm,rfl,rfl⟩
  · rw [number, h.slice]
    simp only [bind, Except.bind]
    split
    · trivial
    · next hchecks =>
      rw [not_or, not_not] at hchecks
      obtain ⟨hfirst,hzero⟩ := hchecks
      have hunsigned := unsigned_withoutMinus hfirst
      split
      · trivial
      · next hpoint =>
        split
        · split
          · next hfloat =>
            exfalso
            apply hn
            unfold isFloat at hfloat
            dsimp only at hfloat
            rw [hunsigned] at hfloat
            split at hfloat
            · next rest hrest =>
              simp only [Bool.and_eq_true] at hfloat
              obtain ⟨exp,hexp⟩ := exponent_of hfloat.2
              have hdigits : rest.takeWhile Char.isDigit ≠ [] := point_digit hrest hpoint
              refine @number_of _ hfirst hzero (some ⟨_,hdigits,fun d hd => List.mem_takeWhile_imp hd⟩) exp ?_
              rw [hrest, fracText, Option.elim_some, hexp, List.cons_append, List.takeWhile_append_dropWhile]
            · next rest _ =>
              simp only [Bool.and_eq_true] at hfloat
              obtain ⟨exp,hexp⟩ := exponent_of hfloat.2
              exact @number_of _ hfirst hzero none exp hexp.symm
          · trivial
        · split
          · next i hint =>
            exfalso
            apply hn
            unfold parseInt at hint
            rw [hunsigned] at hint
            by_cases hall : withoutMinus (s.takeWhile numberChar) ≠ [] ∧
                (withoutMinus (s.takeWhile numberChar)).all Char.isDigit
            · refine @number_of _ hfirst hzero none none ?_
              exact List.dropWhile_eq_nil_iff.mpr (List.all_eq_true.mp hall.2)
            · rw [if_neg hall] at hint
              cases hint
          · trivial

end Numbers

end BuildFiji.Starlark.Json
