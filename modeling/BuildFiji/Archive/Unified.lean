import BuildFiji.Archive.Patch
import BuildFiji.Graph.Pattern

/-!
# The unified format

A diff of two texts is their lines in order: what stands between the hunks is in both, and of a
hunk's lines some are in both, some in the old text and some in the new. What is written is
read as it was meant.
-/

set_option autoImplicit false
set_option linter.all false

namespace BuildFiji.Archive

open BuildFiji.Graph (splitOn splitOnce splitOn_append splitOn_of_not_mem splitOnce_append splitOnce_some splitOnce_none)
open BuildFiji.Text (isWhitespace)

def unlines (lines : List Line) : Line := lines.flatMap (· ++ ['\n'])

/-- A line of a hunk. An empty one of both texts may be written without its space. -/
inductive Edit where
  | keep (text : Line) (bare : Bool)
  | remove (text : Line)
  | add (text : Line)
deriving DecidableEq

namespace Edit

def olds : Edit → List Line
  | keep text _ => [text]
  | remove text => [text]
  | add _ => []

def news : Edit → List Line
  | keep text _ => [text]
  | remove _ => []
  | add text => [text]

def line : Edit → Line
  | keep text bare => if bare ∧ text = [] then [] else ' '::text
  | remove text => '-'::text
  | add text => '+'::text

end Edit

def decimal (n : ℕ) : Line := Nat.toDigits 10 n

/-- The first of so many lines, counted from one; of none, the line before. -/
def start (before count : ℕ) : ℕ := if count = 0 then before else before+1

/-- A count of one may be left out. -/
def range (before count : ℕ) (brief : Bool) : Line :=
  decimal (start before count) ++ if brief ∧ count = 1 then [] else ','::decimal count

/-- A hunk, and the lines between the one before and it. -/
structure Piece where
  gap : List Line
  edits : List Edit
  /-- What its header ends in. -/
  note : Line
  briefOld : Bool
  briefNew : Bool
deriving DecidableEq

namespace Piece

variable (p : Piece)

def olds : List Line := p.edits.flatMap Edit.olds

def news : List Line := p.edits.flatMap Edit.news

def head (before beforeNew : ℕ) : Line :=
  "@@ -".toList ++ (range before p.olds.length p.briefOld ++
    " +".toList ++ (range beforeNew p.news.length p.briefNew ++ " @@".toList ++ p.note))

def lines (before beforeNew : ℕ) : List Line := p.head before beforeNew::p.edits.map Edit.line

def hunk (before : ℕ) : Hunk := ⟨start before p.olds.length,p.olds,p.news⟩

end Piece

/-- The old lines up to the last hunk's end. -/
def oldsOf (pieces : List Piece) : List Line := pieces.flatMap fun p => p.gap ++ p.olds

def newsOf (pieces : List Piece) : List Line := pieces.flatMap fun p => p.gap ++ p.news

def hunkLines : ℕ → ℕ → List Piece → List Line
  | _, _, [] => []
  | o, n, p::pieces => p.lines (o+p.gap.length) (n+p.gap.length) ++
    hunkLines (o+p.gap.length+p.olds.length) (n+p.gap.length+p.news.length) pieces

def hunksFrom : ℕ → List Piece → List Hunk
  | _, [] => []
  | o, p::pieces => p.hunk (o+p.gap.length)::hunksFrom (o+p.gap.length+p.olds.length) pieces

structure Diff where
  preamble : List Line
  /-- The two names of a `git diff` header, and the lines of it that follow. -/
  git : Option (Line × Line × List Line)
  oldName : Line
  newName : Line
  pieces : List Piece
  /-- The lines after the last hunk, of both texts. -/
  tail : List Line
  trailer : List Line

namespace Diff

variable (d : Diff)

def old : List Line := oldsOf d.pieces ++ d.tail

def new : List Line := newsOf d.pieces ++ d.tail

def gitLines : List Line :=
  match d.git with
  | none => []
  | some (a,b,extended) => ("diff --git ".toList ++ (a ++ ' '::b))::extended

def lines : List Line :=
  d.preamble ++ (d.gitLines ++ ("--- ".toList ++ d.oldName)::("+++ ".toList ++ d.newName)::
    (hunkLines 0 0 d.pieces ++ d.trailer))

def text : Line := unlines d.lines

end Diff

/-- A line that begins no file, no hunk and no rename. -/
def Quiet (line : Line) : Prop :=
  ∀ lead ∈ ["diff --git ","rename from ","rename to ","--- ","@@ "], stripPrefix lead (stripCr line) = none

instance (line : Line) : Decidable (Quiet line) := by
  unfold Quiet
  infer_instance

/-- A text is of less than `2^63` bytes. -/
structure Diff.Valid (d : Diff) : Prop where
  lines : ∀ line ∈ d.lines, '\n' ∉ line
  texts : ∀ line ∈ d.old ++ d.new, '\n' ∉ line ∧ '\r' ∉ line
  quiet : ∀ line ∈ d.preamble ++ (d.gitLines.tail ++ d.trailer), Quiet line
  old_size : (unlines d.old).length < 2^63
  new_size : (unlines d.new).length < 2^63

section Lines

theorem unlines_cons (line : Line) (lines : List Line) :
    unlines (line::lines) = line ++ '\n'::unlines lines := by
  simp [unlines]

theorem unlines_append (a b : List Line) : unlines (a ++ b) = unlines a ++ unlines b :=
  List.flatMap_append

theorem length_le_unlines (lines : List Line) : lines.length ≤ (unlines lines).length := by
  induction lines with
  | nil => exact Nat.le_refl 0
  | cons line lines ih =>
    rw [unlines_cons, List.length_cons, List.length_append, List.length_cons]
    omega

theorem splitOn_unlines {lines : List Line} (h : ∀ line ∈ lines, '\n' ∉ line) :
    splitOn '\n' (unlines lines) = lines ++ [[]] := by
  induction lines with
  | nil => rfl
  | cons line lines ih =>
    rw [unlines_cons, splitOn_append, splitOn_of_not_mem (h line List.mem_cons_self),
      ih fun l hl => h l (List.mem_cons_of_mem _ hl)]
    rfl

theorem unlines_injective {a b : List Line} (ha : ∀ line ∈ a, '\n' ∉ line) (hb : ∀ line ∈ b, '\n' ∉ line)
    (h : unlines a = unlines b) : a = b := by
  have hsplit := splitOn_unlines ha
  rw [h, splitOn_unlines hb] at hsplit
  exact (List.append_cancel_right hsplit).symm

theorem linesText_unlines {lines : List Line} (h : ∀ line ∈ lines, '\n' ∉ line) :
    linesText (unlines lines) = lines.map stripCr := by
  unfold linesText
  rw [splitOn_unlines h]
  simp

theorem joinLines_eq (lines : List Line) : joinLines lines = unlines lines := by
  unfold joinLines
  split
  · next h => rw [h]; rfl
  · next h =>
    induction lines with
    | nil => exact absurd rfl h
    | cons line lines ih =>
      rw [unlines_cons]
      cases lines with
      | nil => rw [List.intercalate_singleton]; rfl
      | cons next lines =>
        rw [List.intercalate_cons_of_ne_nil (by simp), ← ih (by simp)]
        simp

theorem stripCr_of_not_mem {line : Line} (h : '\r' ∉ line) : stripCr line = line := by
  unfold stripCr
  rw [if_neg]
  intro hlast
  exact h (List.mem_of_getLast? hlast)

theorem stripCr_append {lead : Line} (h : lead.getLast? ≠ some '\r') (rest : Line) :
    stripCr (lead ++ rest) = lead ++ stripCr rest := by
  by_cases hrest : rest = []
  · rw [hrest, List.append_nil]
    exact (if_neg h).trans (List.append_nil lead).symm
  · unfold stripCr
    rw [List.getLast?_append_of_ne_nil _ hrest, List.dropLast_append_of_ne_nil hrest]
    split <;> rfl

/-- A name does not end in what a line may end in. -/
theorem headerName_stripCr (name : Line) : headerName (stripCr name) = headerName name := by
  unfold stripCr
  split
  · next h =>
    obtain ⟨front,rfl⟩ := List.getLast?_eq_some_iff.mp h
    rw [List.dropLast_concat]
    unfold headerName
    rw [List.takeWhile_append]
    split
    · next hall =>
      rw [(List.takeWhile_prefix _).eq_of_length hall]
      unfold trimEnd
      rw [List.takeWhile_cons_of_pos (by decide), List.reverse_append]
      rfl
    · rfl
  · rfl

end Lines

section Numbers

theorem decimal_digit (n : ℕ) : ∀ c ∈ decimal n, c.isDigit = true :=
  fun _ hc => Nat.isDigit_of_mem_toDigits (by decide) (by decide) hc

theorem decimal_ne_nil (n : ℕ) : decimal n ≠ [] := Nat.toDigits_ne_nil

theorem digit_bounds {c : Char} (h : c.isDigit = true) : 48 ≤ c.toNat ∧ c.toNat ≤ 57 := by
  rw [Char.isDigit_iff_toNat] at h
  exact h

theorem digit_ne {c d : Char} (h : c.isDigit = true) (hd : d.isDigit = false) : c ≠ d := by
  rintro rfl
  rw [h] at hd
  exact absurd hd (by decide)

theorem parseUsize_decimal {n : ℕ} (h : n < 2^64) : parseUsize (decimal n) = some n := by
  have hplus : unsigned (decimal n) = decimal n := by
    unfold unsigned
    split
    · next digits heq =>
      exact absurd rfl (digit_ne (decimal_digit n '+' (heq ▸ List.mem_cons_self)) (by decide))
    · rfl
  have hdigits : (decimal n).all (fun c => c.isDigit && c.toNat - 48 < 10) = true := by
    rw [List.all_eq_true]
    intro c hc
    have hd := decimal_digit n c hc
    have := digit_bounds hd
    rw [hd, Bool.true_and, decide_eq_true_eq]
    omega
  unfold parseUsize parseRadix
  dsimp only
  rw [hplus, if_neg (by rw [hdigits]; simp [decimal_ne_nil])]
  unfold decimal
  rw [Nat.ofDigitChars_ten_toDigits, if_pos h]

theorem range_word (before count : ℕ) (brief : Bool) :
    ∀ c ∈ range before count brief, isWhitespace c = false := by
  have hdigit : ∀ c : Char, c.isDigit = true → isWhitespace c = false := by
    intro c hc
    have := digit_bounds hc
    unfold isWhitespace
    simp only [Bool.or_eq_false_iff, Bool.and_eq_false_iff, decide_eq_false_iff_not]
    omega
  intro c hc
  unfold range at hc
  rcases List.mem_append.mp hc with hc | hc
  · exact hdigit c (decimal_digit _ c hc)
  · split at hc
    · exact absurd hc List.not_mem_nil
    · rcases List.mem_cons.mp hc with rfl | hc
      · decide
      · exact hdigit c (decimal_digit _ c hc)

theorem splitOnce_absent {sep : Char} {a : Line} (h : sep ∉ a) : splitOnce sep a = none := by
  cases hs : splitOnce sep a with
  | none => rfl
  | some parts =>
    rw [(splitOnce_some hs).1] at h
    simp at h

theorem parseRange_range {lead : Char} (hlead : lead = '-' ∨ lead = '+') {before count : ℕ} (brief : Bool)
    (hstart : start before count < 2^64) (hcount : count < 2^64) :
    parseRange (lead::range before count brief) = some (start before count,count) := by
  obtain ⟨c,digits,hc⟩ := List.exists_cons_of_ne_nil (decimal_ne_nil (start before count))
  have hcd := decimal_digit (start before count) c (hc ▸ List.mem_cons_self)
  have hdrop : (lead::range before count brief).dropWhile (fun c => c = '-' || c = '+') =
      range before count brief := by
    unfold range
    rw [hc, List.dropWhile_cons_of_pos (by simpa using hlead), List.cons_append,
      List.dropWhile_cons_of_neg]
    simp [digit_ne hcd (show Char.isDigit '-' = false by decide),
      digit_ne hcd (show Char.isDigit '+' = false by decide)]
  have hcomma : ',' ∉ decimal (start before count) :=
    fun h => digit_ne (decimal_digit _ _ h) (by decide) rfl
  unfold parseRange
  dsimp only
  rw [hdrop]
  unfold range
  by_cases hbrief : brief ∧ count = 1
  · rw [if_pos hbrief, List.append_nil, splitOnce_absent hcomma, parseUsize_decimal hstart, hbrief.2]
    rfl
  · rw [if_neg hbrief, splitOnce_append hcomma]
    dsimp only
    rw [parseUsize_decimal hstart, parseUsize_decimal hcount]
    rfl

theorem start_le (before count : ℕ) : start before count ≤ before+1 := by
  unfold start
  split <;> omega

end Numbers

end BuildFiji.Archive
