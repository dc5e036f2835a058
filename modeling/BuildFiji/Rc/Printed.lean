import BuildFiji.Rc.Parse
import Mathlib.Data.List.TakeWhile

/-!
# The rc parser inverts a quoting printer

Rows are printed with every word in quotes, and the parser reads the directives
back with the physical lines they start on. A comment whose line ends in a
backslash takes the next row with it.
-/

set_option autoImplicit false
set_option linter.all false

namespace BuildFiji.Rc

open Text (isWhitespace)

inductive Quote where
  | single
  | double
  deriving DecidableEq

def printWord : Quote → List Char → List Char
  | .single, w => '\'' :: (w.flatMap (fun c => if c = '\'' then ['\'', '\\', '\'', '\''] else [c]) ++ ['\''])
  | .double, w => '"' :: (w.flatMap (fun c => if c = '\\' ∨ c = '"' then ['\\',c] else [c]) ++ ['"'])

/-- What may stand between words. -/
inductive Gap where
  | space
  | tab
  | continuation
  deriving DecidableEq

/-- A character of a row, none for a backslash at the end of a physical line. -/
abbrev Mark := Option Char

def Gap.mark : Gap → Mark
  | space => some ' '
  | tab => some '\t'
  | continuation => none

def blankMark (tab : Bool) : Mark := some (if tab then '\t' else ' ')

/-- How a directive is printed: blanks before it, the quotes of each word, what stands
before each word after the first, and what follows. -/
structure Style where
  lead : List Bool
  quote : ℕ → Quote
  gap : ℕ → Gap × List Gap
  trail : List Gap
  comment : Option (List Char)

inductive Row where
  | blank (blanks : List Bool)
  | comment (blanks : List Bool) (text : List Char)
  | directive (d : Directive) (style : Style)

/-- A word that the printer may write, and the words of a directive. -/
def Directive.words : Directive → List Char × List (List Char)
  | «import» path => ("import".toList,[path.toList])
  | tryImport path => ("try-import".toList,[path.toList])
  | commandFlags command config flags =>
    (command.toList ++ (config.elim [] fun config => ':' :: config.toList),flags.map String.toList)

def Style.moreMarks (s : Style) : ℕ → List (List Char) → List Mark
  | _, [] => []
  | i, w::ws => ((s.gap i).1::(s.gap i).2).map Gap.mark ++ (printWord (s.quote i) w).map some ++ s.moreMarks (i+1) ws

def commentText (comment : Option (List Char)) : List Char := comment.elim [] fun text => '#' :: text

def Row.marks : Row → List Mark
  | blank blanks => blanks.map blankMark
  | comment blanks text => blanks.map blankMark ++ ('#' :: text).map some
  | directive d s =>
    s.lead.map blankMark ++ ((printWord (s.quote 0) d.words.1).map some ++ s.moreMarks 1 d.words.2 ++
      (s.trail.map Gap.mark ++ (commentText s.comment).map some))

def write (marks : List Mark) : List Char :=
  marks.flatMap fun m => m.elim ['\\', '\n'] fun c => [c]

def printRows (rows : List Row) : List Char := rows.flatMap fun r => write r.marks ++ ['\n']

/-- The physical lines of a row. -/
def Row.height (r : Row) : ℕ := r.marks.count none+1

/-- The directives of rows with the physical line each starts on. -/
def startLines : ℕ → List Row → List (Directive × ℕ)
  | _, [] => []
  | n, .directive d s::rows => (d,n)::startLines (n+(Row.directive d s).height) rows
  | n, r::rows => startLines (n+r.height) rows

/-- A comment of one line whose end joins no other. -/
def Quiet (text : List Char) : Prop :=
  '\n' ∉ text ∧ text.getLast? ≠ some '\\' ∧ ¬ ∃ before, text = before ++ ['\\', '\r']

/-- The command holds no colon, and is no other directive's word. -/
def Directive.Sound : Directive → Prop
  | «import» path => '\n' ∉ path.toList
  | tryImport path => '\n' ∉ path.toList
  | commandFlags command config flags =>
    (':' ∉ command.toList ∧ command ≠ "import" ∧ command ≠ "try-import") ∧
    '\n' ∉ command.toList ∧ (∀ c, config = some c → '\n' ∉ c.toList) ∧ ∀ f ∈ flags, '\n' ∉ f.toList

def Row.Sound : Row → Prop
  | blank _ => True
  | comment _ text => Quiet text
  | directive d s => d.Sound ∧ ∀ text, s.comment = some text → Quiet text

section Words

/-- No word goes on here. -/
def Stops (s : List Char) : Prop := ∀ c, s.head? = some c → isBlank c = true ∨ c = '#'

theorem stops_delim {c : Char} (h : isBlank c = true ∨ c = '#') :
    isDelim c = true ∧ c ≠ '\'' ∧ c ≠ '"' ∧ c ≠ '\\' := by
  unfold isBlank at h
  rw [Bool.or_eq_true, decide_eq_true_eq, decide_eq_true_eq] at h
  rcases h with (rfl | rfl) | rfl <;> decide

theorem segment_stops {s : List Char} (h : Stops s) : segment s = none := by
  cases s with
  | nil => rfl
  | cons c s =>
    obtain ⟨hdelim,hsingle,hdouble,hslash⟩ := stops_delim (h c rfl)
    have h1 : singleQuoted (c::s) = none := by
      unfold singleQuoted
      split
      · next heq => exact absurd (List.cons.inj heq).1 hsingle
      · rfl
    have h2 : doubleQuoted (c::s) = none := by
      unfold doubleQuoted
      split
      · next heq => exact absurd (List.cons.inj heq).1 hdouble
      · rfl
    have h3 : unquotedChars (c::s) = ([],c::s) := by
      unfold unquotedChars
      split
      · next heq => cases heq
      · next heq => exact absurd (List.cons.inj heq).1 hslash
      · next heq =>
        cases heq
        rw [if_pos (by rw [hdelim]; rfl)]
    rw [segment, h1, h2, unquoted, h3]
    rfl

theorem segments_stops {s : List Char} (h : Stops s) (room : ℕ) : segments room s = ([],s) := by
  cases room with
  | zero => rfl
  | succ room => rw [segments, segment_stops h]

theorem word_stops {s : List Char} (h : Stops s) : word s = none := by
  rw [word, segments_stops h]

theorem doubleQuotedChars_escaped (w rest : List Char) :
    doubleQuotedChars (w.flatMap (fun c => if c = '\\' ∨ c = '"' then ['\\',c] else [c]) ++ '"' :: rest) =
      (w,'"' :: rest) := by
  induction w with
  | nil =>
    rw [List.flatMap_nil, List.nil_append]
    rfl
  | cons c w ih =>
    rw [List.flatMap_cons, List.append_assoc]
    by_cases hc : c = '\\' ∨ c = '"'
    · rw [if_pos hc]
      rcases hc with rfl | rfl
      · rw [List.cons_append, List.singleton_append, doubleQuotedChars, ih]
      · rw [List.cons_append, List.singleton_append, doubleQuotedChars, ih]
    · push Not at hc
      rw [if_neg (by push Not; exact hc), List.singleton_append, doubleQuotedChars, if_neg hc.2, ih]
      · intro s hs
        exact absurd hs hc.1
      · intro s hs
        exact absurd hs hc.1

theorem segment_double (w rest : List Char) : segment (printWord .double w ++ rest) = some (w,rest) := by
  have hdouble : doubleQuoted (printWord .double w ++ rest) = some (w,rest) := by
    rw [printWord, List.cons_append, List.append_assoc, List.singleton_append]
    unfold doubleQuoted
    simp only [doubleQuotedChars_escaped]
  have hsingle : singleQuoted (printWord .double w ++ rest) = none := by
    rw [printWord, List.cons_append]
    unfold singleQuoted
    split
    · next heq => exact absurd (List.cons.inj heq).1 (by decide)
    · rfl
  rw [segment, hsingle, hdouble]
  rfl

theorem segment_single {u : List Char} (hu : '\'' ∉ u) (rest : List Char) :
    segment ('\'' :: (u ++ '\'' :: rest)) = some (u,rest) := by
  have hpos : ∀ c ∈ u, decide (c ≠ '\'') = true := by
    intro c hc
    rw [decide_eq_true_eq]
    rintro rfl
    exact hu hc
  have htake : (u ++ '\'' :: rest).takeWhile (fun c => decide (c ≠ '\'')) = u := by
    rw [List.takeWhile_append_of_pos hpos, List.takeWhile_cons_of_neg (by decide), List.append_nil]
  have hdrop : (u ++ '\'' :: rest).dropWhile (fun c => decide (c ≠ '\'')) = '\'' :: rest := by
    rw [List.dropWhile_append_of_pos hpos, List.dropWhile_cons_of_neg (by decide)]
  have hsingle : singleQuoted ('\'' :: (u ++ '\'' :: rest)) = some (u,rest) := by
    unfold singleQuoted
    simp only [htake, hdrop]
  rw [segment, hsingle]
  rfl

theorem segment_quote (rest : List Char) :
    segment ('\\' :: '\'' :: '\'' :: rest) = some (['\''],'\'' :: rest) := by
  rfl

/-- A single quote ends the quotes, stands after a backslash and opens them again. -/
theorem segments_single {rest : List Char} (hrest : Stops rest) (w : List Char) (room : ℕ)
    (hroom : (printWord .single w ++ rest).length ≤ room) :
    ∃ segs, segs ≠ [] ∧ segs.flatten = w ∧ segments room (printWord .single w ++ rest) = (segs,rest) := by
  obtain ⟨u,v,hw,hu,hv⟩ : ∃ u v, w = u ++ v ∧ '\'' ∉ u ∧ (v = [] ∨ ∃ w', v = '\'' :: w') := by
    refine ⟨w.takeWhile (· ≠ '\''),w.dropWhile (· ≠ '\''),(List.takeWhile_append_dropWhile).symm,?_,?_⟩
    · intro hmem
      have := List.mem_takeWhile_imp hmem
      simp at this
    · cases hdrop : w.dropWhile (· ≠ '\'') with
      | nil => exact .inl rfl
      | cons c w' =>
        have hhead := List.head?_dropWhile_not (fun c : Char => decide (c ≠ '\'')) w
        rw [hdrop] at hhead
        have hc : c = '\'' := by simpa using hhead
        exact .inr ⟨w',by rw [hc]⟩
  have hplain : u.flatMap (fun c => if c = '\'' then ['\'', '\\', '\'', '\''] else [c]) = u := by
    have hid : ∀ c ∈ u, (if c = '\'' then ['\'', '\\', '\'', '\''] else [c]) = [c] := by
      intro c hc
      rw [if_neg (by rintro rfl; exact hu hc)]
    rw [List.flatMap_congr hid, List.flatMap_singleton']
  rcases hv with rfl | ⟨w',rfl⟩
  · rw [List.append_nil] at hw
    subst hw
    have htext : printWord .single w ++ rest = '\'' :: (w ++ '\'' :: rest) := by
      rw [printWord, hplain, List.cons_append, List.append_assoc, List.singleton_append]
    rw [htext] at hroom ⊢
    obtain ⟨room,rfl⟩ : ∃ k, room = k+1 := ⟨room-1,by rw [List.length_cons] at hroom; omega⟩
    refine ⟨[w],List.cons_ne_nil _ _,List.append_nil w,?_⟩
    rw [segments, segment_single hu]
    simp only [segments_stops hrest]
  · have htext : printWord .single w ++ rest =
        '\'' :: (u ++ '\'' :: '\\' :: '\'' :: (printWord .single w' ++ rest)) := by
      rw [hw, printWord, printWord, List.flatMap_append, hplain, List.flatMap_cons, if_pos rfl]
      simp only [List.cons_append, List.append_assoc, List.nil_append]
    rw [htext] at hroom ⊢
    simp only [List.length_cons, List.length_append] at hroom
    obtain ⟨room,rfl⟩ : ∃ k, room = k+2 := ⟨room-2,by omega⟩
    have hshort : w'.length < w.length := by
      rw [hw, List.length_append, List.length_cons]
      omega
    obtain ⟨segs,-,hflat,hsegs⟩ := segments_single hrest w' room (by rw [List.length_append]; omega)
    refine ⟨u::['\'']::segs,List.cons_ne_nil _ _,?_,?_⟩
    · rw [List.flatten_cons, List.flatten_cons, hflat, hw]
      rfl
    · have hquote : segment ('\\' :: '\'' :: (printWord .single w' ++ rest)) =
          some (['\''],printWord .single w' ++ rest) := segment_quote _
      rw [segments, segment_single hu]
      simp only [segments, hquote, hsegs]
termination_by w.length

theorem word_printed (q : Quote) (w : List Char) {rest : List Char} (hrest : Stops rest) :
    word (printWord q w ++ rest) = some (w,rest) := by
  cases q with
  | single =>
    obtain ⟨segs,hne,hflat,hsegs⟩ := segments_single hrest w _ (Nat.le_refl _)
    obtain ⟨seg,more,rfl⟩ := List.exists_cons_of_ne_nil hne
    rw [word, hsegs]
    simp only [hflat]
  | double =>
    obtain ⟨room,hroom⟩ : ∃ k, (printWord .double w ++ rest).length = k+1 := ⟨_,rfl⟩
    rw [word, hroom, segments, segment_double]
    simp only [segments_stops hrest, List.flatten_cons, List.flatten_nil, List.append_nil]

end Words

section Lines

def Gap.char : Gap → Char
  | space => ' '
  | tab => '\t'
  | continuation => ' '

def blankChar (tab : Bool) : Char := if tab then '\t' else ' '

/-- The words after the first, each after its gap. -/
def Style.moreText (s : Style) : ℕ → List (List Char) → List Char
  | _, [] => []
  | i, w::ws => ((s.gap i).1::(s.gap i).2).map Gap.char ++ (printWord (s.quote i) w ++ s.moreText (i+1) ws)

theorem gaps_blank (gaps : List Gap) : ∀ c ∈ gaps.map Gap.char, isBlank c = true := by
  intro c hc
  obtain ⟨g,-,rfl⟩ := List.mem_map.mp hc
  cases g <;> decide

theorem blanks_blank (blanks : List Bool) : ∀ c ∈ blanks.map blankChar, isBlank c = true := by
  intro c hc
  obtain ⟨b,-,rfl⟩ := List.mem_map.mp hc
  cases b <;> decide

/-- Nothing, or a comment. -/
def Remark (s : List Char) : Prop := ∀ c, s.head? = some c → c = '#'

theorem Remark.stops {s : List Char} (h : Remark s) : Stops s := fun c hc => .inr (h c hc)

theorem printWord_head (q : Quote) (w rest : List Char) :
    ∃ c cs, printWord q w ++ rest = c::cs ∧ isBlank c = false ∧ isWhitespace c = false ∧ c ≠ '#' := by
  cases q with
  | single => exact ⟨'\'',_,rfl,by decide,by decide,by decide⟩
  | double => exact ⟨'"',_,rfl,by decide,by decide,by decide⟩

theorem printWord_unblank (q : Quote) (w rest : List Char) :
    ∀ c, (printWord q w ++ rest).head? = some c → isBlank c = false := by
  obtain ⟨c,cs,hhead,hblank,-⟩ := printWord_head q w rest
  intro d hd
  rw [hhead] at hd
  exact Option.some.inj hd ▸ hblank

theorem split_blanks {blanks s : List Char} (hblanks : ∀ c ∈ blanks, isBlank c = true)
    (hs : ∀ c, s.head? = some c → isBlank c = false) :
    (blanks ++ s).takeWhile isBlank = blanks ∧ (blanks ++ s).dropWhile isBlank = s := by
  rw [List.takeWhile_append_of_pos hblanks, List.dropWhile_append_of_pos hblanks]
  cases s with
  | nil => exact ⟨List.append_nil _,rfl⟩
  | cons c s =>
    have hc : ¬ isBlank c = true := by rw [hs c rfl]; decide
    rw [List.takeWhile_cons_of_neg hc, List.dropWhile_cons_of_neg hc, List.append_nil]
    exact ⟨rfl,rfl⟩

theorem Remark.unblank {s : List Char} (h : Remark s) : ∀ c, s.head? = some c → isBlank c = false := by
  intro c hc
  rw [h c hc]
  decide

theorem moreText_stops {s : Style} {i : ℕ} {ws : List (List Char)} {trail : List Gap} {remark : List Char}
    (hremark : Remark remark) : Stops (s.moreText i ws ++ (trail.map Gap.char ++ remark)) := by
  intro c hc
  cases ws with
  | nil =>
    cases trail with
    | nil => exact hremark.stops c hc
    | cons g trail =>
      cases hc
      exact .inl (gaps_blank [g] _ List.mem_cons_self)
  | cons w ws =>
    cases hc
    exact .inl (gaps_blank [(s.gap i).1] _ List.mem_cons_self)

theorem moreWords_text {s : Style} {trail : List Gap} {remark : List Char} (hremark : Remark remark) (i : ℕ)
    (ws : List (List Char)) (room : ℕ)
    (hroom : (s.moreText i ws ++ (trail.map Gap.char ++ remark)).length ≤ room) :
    moreWords room (s.moreText i ws ++ (trail.map Gap.char ++ remark)) = (ws,remark) := by
  induction ws generalizing i room with
  | nil =>
    rw [Style.moreText, List.nil_append] at hroom ⊢
    obtain ⟨htake,hdrop⟩ := split_blanks (gaps_blank trail) hremark.unblank
    cases room with
    | zero =>
      have hnil := List.eq_nil_of_length_eq_zero (Nat.le_zero.mp hroom)
      rw [moreWords, (List.append_eq_nil_iff.mp hnil).2, (List.append_eq_nil_iff.mp hnil).1]
      rfl
    | succ room =>
      rw [moreWords, htake, hdrop]
      split
      · next hnone => rw [hnone, List.nil_append]
      · rw [word_stops hremark.stops]
  | cons w ws ih =>
    rw [Style.moreText, List.append_assoc, List.append_assoc] at hroom ⊢
    obtain ⟨htake,hdrop⟩ := split_blanks (gaps_blank ((s.gap i).1::(s.gap i).2))
      (printWord_unblank (s.quote i) w (s.moreText (i+1) ws ++ (trail.map Gap.char ++ remark)))
    rw [List.length_append, List.length_append, List.map_cons, List.length_cons] at hroom
    obtain ⟨room,rfl⟩ : ∃ k, room = k+1 := ⟨room-1,by omega⟩
    have hgap : ((s.gap i).1::(s.gap i).2).map Gap.char ≠ [] := List.cons_ne_nil _ _
    rw [moreWords, htake, hdrop, if_neg hgap, word_printed _ _ (moreText_stops hremark)]
    simp only
    rw [ih (i+1) room (by omega)]

theorem lineWords_text {s : Style} {remark : List Char} (hremark : Remark remark) (w : List Char)
    (ws : List (List Char)) :
    lineWords (s.lead.map blankChar ++ (printWord (s.quote 0) w ++ (s.moreText 1 ws ++
      (s.trail.map Gap.char ++ remark)))) = some (w::ws) := by
  obtain ⟨-,hdrop⟩ := split_blanks (blanks_blank s.lead)
    (printWord_unblank (s.quote 0) w (s.moreText 1 ws ++ (s.trail.map Gap.char ++ remark)))
  rw [lineWords, hdrop, word_printed _ _ (moreText_stops hremark)]
  simp only [moreWords_text hremark 1 ws _ (Nat.le_refl _)]
  cases remark with
  | nil => rfl
  | cons d remark =>
    rw [hremark d rfl]
    rfl

end Lines

section Splicing

/-- A carriage return at the end of a line is of the line's end. -/
def dropReturn (s : List Char) : List Char := (stripSuffix '\r' s).getD s

theorem stripSuffix_concat (c : Char) (s : List Char) : stripSuffix c (s ++ [c]) = some s := by
  rw [stripSuffix, List.getLast?_concat, if_pos rfl, List.dropLast_concat]

theorem stripSuffix_none {c : Char} {s : List Char} (h : s.getLast? ≠ some c) : stripSuffix c s = none :=
  if_neg h

theorem dropReturn_id {s : List Char} (h : s.getLast? ≠ some '\r') : dropReturn s = s := by
  rw [dropReturn, stripSuffix_none h]
  rfl

theorem dropReturn_cons (c : Char) (s : List Char) (h : s ≠ [] ∨ c ≠ '\r') :
    dropReturn (c::s) = c::dropReturn s := by
  cases s with
  | nil =>
    have hc : c ≠ '\r' := h.resolve_left fun hne => hne rfl
    rw [dropReturn_id (by simpa using hc)]
    rfl
  | cons d s =>
    unfold dropReturn stripSuffix
    rw [List.getLast?_cons_cons]
    split
    · rw [List.dropLast_cons_cons]
      rfl
    · rfl

theorem dropReturn_append (a b : List Char) (h : b ≠ [] ∨ a.getLast? ≠ some '\r') :
    dropReturn (a ++ b) = a ++ dropReturn b := by
  induction a with
  | nil => rfl
  | cons c a ih =>
    have hrest : b ≠ [] ∨ a.getLast? ≠ some '\r' := by
      refine h.imp_right fun hlast heq => hlast ?_
      rw [List.getLast?_cons, heq]
      rfl
    have hcons : a ++ b ≠ [] ∨ c ≠ '\r' := by
      cases a with
      | nil => exact h.imp_right fun hlast hc => hlast (by rw [hc]; rfl)
      | cons d a => exact .inl (List.cons_ne_nil _ _)
    rw [List.cons_append, dropReturn_cons _ _ hcons, ih hrest]
    rfl

theorem splitFrom_line {p : List Char} (hp : '\n' ∉ p) (line rest : List Char) :
    splitFrom line (p ++ '\n' :: rest) = (line ++ p ++ ['\n'])::splitFrom [] rest := by
  induction p generalizing line with
  | nil => rw [List.nil_append, splitFrom, if_pos rfl, List.append_nil]
  | cons c p ih =>
    have hc : c ≠ '\n' := fun h => hp (h ▸ List.mem_cons_self)
    rw [List.cons_append, splitFrom, if_neg hc, ih fun h => hp (List.mem_cons_of_mem _ h)]
    rw [List.append_assoc line [c] p]
    rfl

/-- What joining puts before the next physical line. -/
def Splice.carried (s : Splice) : List Char := if s.inContinuation then s.curText ++ [' '] else []

def Splice.startLine (s : Splice) : ℕ := if s.inContinuation then s.curStartLine else s.physicalLineNo+1

theorem spliceLine_more (s : Splice) (p : List Char) :
    ∃ s', spliceLine s (p ++ ['\\', '\n']) = s' ∧ s'.out = s.out ∧ s'.physicalLineNo = s.physicalLineNo+1 ∧
      s'.curText = s.carried ++ p ∧ s'.curStartLine = s.startLine ∧ s'.inContinuation = true := by
  have hline : p ++ ['\\', '\n'] = p ++ ['\\'] ++ ['\n'] := by rw [List.append_assoc]; rfl
  have hreturn : stripSuffix '\r' (p ++ ['\\']) = none :=
    stripSuffix_none (by rw [List.getLast?_concat]; decide)
  refine ⟨_,rfl,?_⟩
  rw [spliceLine, hline, stripSuffix_concat, Option.getD_some, hreturn, Option.getD_none, stripSuffix_concat]
  exact ⟨rfl,rfl,rfl,rfl,rfl⟩

theorem spliceLine_last (s : Splice) {p : List Char} (h : (dropReturn p).getLast? ≠ some '\\') :
    ∃ s' span, spliceLine s (p ++ ['\n']) = s' ∧
      s'.out = s.out ++ [⟨s.carried ++ dropReturn p,s.startLine,span⟩] ∧
      s'.physicalLineNo = s.physicalLineNo+1 ∧ s'.inContinuation = false := by
  refine ⟨_,(if s.inContinuation then s.curStartOffset else s.offset,s.offset+size (p ++ ['\n'])),rfl,?_⟩
  have hnone : stripSuffix '\\' (dropReturn p) = none := stripSuffix_none h
  rw [dropReturn] at hnone
  rw [spliceLine, stripSuffix_concat, Option.getD_some, hnone]
  exact ⟨rfl,rfl,rfl⟩

def joined (marks : List Mark) : List Char := marks.map fun m => m.getD ' '

/-- No line of the row is joined to what follows the row. -/
def Ends (marks : List Mark) : Prop := ∀ p : List Char, p.map some <:+ marks → (dropReturn p).getLast? ≠ some '\\'

theorem marks_split (marks : List Mark) :
    (∃ p : List Char, marks = p.map some) ∨
      ∃ (p : List Char) (marks' : List Mark), marks = p.map some ++ none::marks' := by
  induction marks with
  | nil => exact .inl ⟨[],rfl⟩
  | cons m marks ih =>
    cases m with
    | none => exact .inr ⟨[],marks,rfl⟩
    | some c =>
      rcases ih with ⟨p,rfl⟩ | ⟨p,marks',rfl⟩
      · exact .inl ⟨c::p,rfl⟩
      · exact .inr ⟨c::p,marks',rfl⟩

theorem write_chars (p : List Char) : write (p.map some) = p := by
  induction p with
  | nil => rfl
  | cons c p ih => rw [List.map_cons, write, List.flatMap_cons]; exact congrArg (c::·) ih

theorem joined_chars (p : List Char) : joined (p.map some) = p := by
  induction p with
  | nil => rfl
  | cons c p ih => exact congrArg (c::·) ih

/-- The physical lines of a row come to one logical line. -/
theorem splice_row (marks : List Mark) (hmarks : some '\n' ∉ marks) (hends : Ends marks) (rest : List Char)
    (s : Splice) :
    ∃ s' span, (splitFrom [] (write marks ++ '\n' :: rest)).foldl spliceLine s =
        (splitFrom [] rest).foldl spliceLine s' ∧
      s'.out = s.out ++ [⟨s.carried ++ dropReturn (joined marks),s.startLine,span⟩] ∧
      s'.physicalLineNo = s.physicalLineNo+(marks.count none+1) ∧ s'.inContinuation = false := by
  have hplain : ∀ {p : List Char}, (∀ c ∈ p, some c ∈ marks) → '\n' ∉ p := fun hp h => hmarks (hp _ h)
  rcases marks_split marks with ⟨p,rfl⟩ | ⟨p,marks',rfl⟩
  · obtain ⟨s',span,hstep,hout,hno,hcont⟩ := spliceLine_last s (hends p List.suffix_rfl)
    refine ⟨s',span,?_,?_,?_,hcont⟩
    · rw [write_chars, splitFrom_line (hplain fun c hc => List.mem_map_of_mem hc), List.foldl_cons,
        List.nil_append, hstep]
    · rw [hout, joined_chars]
    · have hcount : (p.map some : List Mark).count none = 0 := by
        rw [List.count_eq_zero]
        simp
      rw [hno, hcount]
  · obtain ⟨s₁,hstep,hout₁,hno₁,htext₁,hstart₁,hcont₁⟩ := spliceLine_more s p
    have hsub : some '\n' ∉ marks' := fun h => hmarks (List.mem_append_right _ (List.mem_cons_of_mem _ h))
    have hends' : Ends marks' := fun q hq => hends q (hq.trans ⟨p.map some ++ [none],by simp⟩)
    obtain ⟨s',span,hfold,hout,hno,hcont⟩ := splice_row marks' hsub hends' rest s₁
    refine ⟨s',span,?_,?_,?_,hcont⟩
    · have hwrite : write (p.map some ++ none::marks') ++ '\n' :: rest =
          (p ++ ['\\']) ++ '\n' :: (write marks' ++ '\n' :: rest) := by
        rw [write, List.flatMap_append, List.flatMap_cons]
        change write (p.map some) ++ _ ++ _ = _
        rw [write_chars]
        simp [write]
      have hslash : '\n' ∉ p ++ ['\\'] := by
        rw [List.mem_append, List.mem_singleton]
        rintro (h | h)
        · exact hplain (fun c hc => List.mem_append_left _ (List.mem_map_of_mem hc)) h
        · exact absurd h (by decide)
      rw [hwrite, splitFrom_line hslash, List.foldl_cons, List.nil_append, List.append_assoc,
        show ['\\'] ++ ['\n'] = ['\\', '\n'] from rfl, hstep, hfold]
    · have hcarried : s₁.carried = s.carried ++ p ++ [' '] := by rw [Splice.carried, if_pos hcont₁, htext₁]
      have hstart : s₁.startLine = s.startLine := by rw [Splice.startLine, if_pos hcont₁, hstart₁]
      have hjoined : dropReturn (joined (p.map some ++ none::marks')) = p ++ ' ' :: dropReturn (joined marks') := by
        have heq : joined (p.map some ++ none::marks') = p ++ ' ' :: joined marks' := by
          rw [joined, List.map_append, List.map_cons]
          change joined (p.map some) ++ _ = _
          rw [joined_chars]
          rfl
        rw [heq, dropReturn_append _ _ (.inl (List.cons_ne_nil _ _)), dropReturn_cons _ _ (.inr (by decide))]
      rw [hout, hout₁, hcarried, hstart, hjoined]
      simp only [List.append_assoc, List.singleton_append]
    · rw [hno, hno₁, List.count_append, List.count_cons_self]
      have hcount : (p.map some : List Mark).count none = 0 := by
        rw [List.count_eq_zero]
        simp
      rw [hcount]
      omega
termination_by marks.length

end Splicing

section Marks

/-- The row's last character is no backslash and no carriage return. -/
def Calm (marks : List Mark) : Prop := ∀ m, marks.getLast? = some m → m ≠ some '\\' ∧ m ≠ some '\r'

theorem Calm.append {a b : List Mark} (ha : Calm a) (hb : Calm b) : Calm (a ++ b) := by
  intro m hm
  rw [List.getLast?_append] at hm
  cases hlast : b.getLast? with
  | none =>
    rw [hlast, Option.none_or] at hm
    exact ha m hm
  | some m' =>
    rw [hlast, Option.some_or] at hm
    exact Option.some.inj hm ▸ hb m' hlast

theorem calm_nil : Calm [] := by
  intro m hm
  cases hm

theorem calm_of_mem {marks : List Mark} (h : ∀ m ∈ marks, m ≠ some '\\' ∧ m ≠ some '\r') : Calm marks :=
  fun m hm => h m (List.mem_of_getLast? hm)

theorem calm_blanks (blanks : List Bool) : Calm (blanks.map blankMark) := by
  apply calm_of_mem
  intro m hm
  obtain ⟨b,-,rfl⟩ := List.mem_map.mp hm
  cases b <;> decide

theorem calm_gaps (gaps : List Gap) : Calm (gaps.map Gap.mark) := by
  apply calm_of_mem
  intro m hm
  obtain ⟨g,-,rfl⟩ := List.mem_map.mp hm
  cases g <;> decide

theorem calm_word (q : Quote) (w : List Char) : Calm ((printWord q w).map some) := by
  intro m hm
  cases q with
  | single =>
    rw [printWord, ← List.cons_append, List.map_append, List.map_singleton, List.getLast?_concat] at hm
    cases hm
    decide
  | double =>
    rw [printWord, ← List.cons_append, List.map_append, List.map_singleton, List.getLast?_concat] at hm
    cases hm
    decide

theorem calm_more (s : Style) (i : ℕ) (ws : List (List Char)) : Calm (s.moreMarks i ws) := by
  induction ws generalizing i with
  | nil => exact calm_nil
  | cons w ws ih => exact ((calm_gaps _).append (calm_word _ _)).append (ih (i+1))

theorem map_some_suffix {p : List Char} {marks : List Mark} (h : p.map some <:+ marks) (hne : p ≠ []) :
    marks.getLast? = p.getLast?.map some := by
  obtain ⟨before,rfl⟩ := h
  rw [List.getLast?_append_of_ne_nil _ (by simpa using hne), List.getLast?_map]

theorem ends_of {marks : List Mark} (hlast : marks.getLast? ≠ some (some '\\'))
    (hreturn : ¬ ∃ before, marks = before ++ [some '\\',some '\r']) : Ends marks := by
  intro p hp hslash
  by_cases hcr : p.getLast? = some '\r'
  · have hdrop : dropReturn p = p.dropLast := by
      rw [dropReturn, stripSuffix, if_pos hcr]
      rfl
    rw [hdrop] at hslash
    obtain ⟨q,hq⟩ := List.getLast?_eq_some_iff.mp hslash
    obtain ⟨q',hq'⟩ := List.getLast?_eq_some_iff.mp hcr
    have hpq : p = q ++ ['\\', '\r'] := by
      rw [hq', List.dropLast_concat] at hq
      rw [hq', hq, List.append_assoc]
      rfl
    obtain ⟨before,rfl⟩ := hp
    exact hreturn ⟨before ++ q.map some,by rw [hpq, List.map_append, List.append_assoc]; rfl⟩
  · rw [dropReturn_id hcr] at hslash
    have hne : p ≠ [] := by
      rintro rfl
      cases hslash
    exact hlast (by rw [map_some_suffix hp hne, hslash]; rfl)

theorem Calm.ends {marks : List Mark} (h : Calm marks) : Ends marks := by
  apply ends_of
  · intro hlast
    exact (h _ hlast).1 rfl
  · rintro ⟨before,rfl⟩
    refine (h (some '\r') ?_).2 rfl
    rw [List.getLast?_append_of_ne_nil _ (List.cons_ne_nil _ _)]
    rfl

theorem ends_comment (front : List Mark) {text : List Char} (h : Quiet text) :
    Ends (front ++ ('#' :: text).map some) := by
  obtain ⟨-,hslash,hreturn⟩ := h
  apply ends_of
  · rw [List.getLast?_append_of_ne_nil _ (by simp), List.getLast?_map, List.getLast?_cons]
    cases hlast : text.getLast? with
    | none => exact fun h => absurd h (by decide)
    | some c =>
      intro heq
      have hc : c = '\\' := by simpa using heq
      exact hslash (hc ▸ hlast)
  · rintro ⟨before,heq⟩
    have hsplit : front ++ ('#' :: text).map some = front ++ [some '#'] ++ text.map some := by simp
    rw [hsplit] at heq
    rcases List.eq_nil_or_concat text with rfl | ⟨text',c,rfl⟩
    · have h := congrArg List.getLast? heq
      simp at h
    · rw [List.concat_eq_append, List.map_append, ← List.append_assoc, List.map_singleton,
        show before ++ [some '\\',some '\r'] = before ++ [some '\\'] ++ [some '\r'] by simp] at heq
      obtain ⟨heq,hc⟩ := List.append_inj' heq rfl
      rcases List.eq_nil_or_concat text' with rfl | ⟨text'',d,rfl⟩
      · have h := congrArg List.getLast? heq
        simp at h
      · rw [List.concat_eq_append, List.map_append, ← List.append_assoc, List.map_singleton] at heq
        obtain ⟨-,hd⟩ := List.append_inj' heq rfl
        refine hreturn ⟨text'',?_⟩
        simp only [List.cons.injEq, Option.some.injEq, and_true] at hc hd
        simp [hc, hd]

/-- Quoting adds quotes and backslashes only. -/
theorem printWord_mem {q : Quote} {w : List Char} {d : Char} (h : d ∈ printWord q w) :
    d ∈ w ∨ d = '\'' ∨ d = '"' ∨ d = '\\' := by
  cases q with
  | single =>
    rw [printWord, List.mem_cons, List.mem_append, List.mem_flatMap] at h
    rcases h with rfl | ⟨c,hc,hd⟩ | hd
    · exact .inr (.inl rfl)
    · split at hd
      · simp only [List.mem_cons, List.not_mem_nil, or_false] at hd
        rcases hd with rfl | rfl | rfl | rfl <;> simp
      · exact .inl (List.mem_singleton.mp hd ▸ hc)
    · exact .inr (.inl (List.mem_singleton.mp hd))
  | double =>
    rw [printWord, List.mem_cons, List.mem_append, List.mem_flatMap] at h
    rcases h with rfl | ⟨c,hc,hd⟩ | hd
    · exact .inr (.inr (.inl rfl))
    · split at hd
      · rcases List.mem_pair.mp hd with rfl | rfl
        · exact .inr (.inr (.inr rfl))
        · exact .inl hc
      · exact .inl (List.mem_singleton.mp hd ▸ hc)
    · exact .inr (.inr (.inl (List.mem_singleton.mp hd)))

theorem newline_word {q : Quote} {w : List Char} (h : '\n' ∉ w) : '\n' ∉ printWord q w := by
  intro hmem
  rcases printWord_mem hmem with hw | heq | heq | heq
  · exact h hw
  all_goals exact absurd heq (by decide)

theorem newline_blanks (blanks : List Bool) : some '\n' ∉ blanks.map blankMark := by
  intro h
  obtain ⟨b,-,heq⟩ := List.mem_map.mp h
  cases b <;> exact absurd heq (by decide)

theorem newline_gaps (gaps : List Gap) : some '\n' ∉ gaps.map Gap.mark := by
  intro h
  obtain ⟨g,-,heq⟩ := List.mem_map.mp h
  cases g <;> exact absurd heq (by decide)

theorem newline_chars {p : List Char} (h : '\n' ∉ p) : some '\n' ∉ (p.map some : List Mark) := by
  intro hmem
  obtain ⟨c,hc,heq⟩ := List.mem_map.mp hmem
  exact h (Option.some.inj heq ▸ hc)

theorem newline_more {s : Style} (i : ℕ) {ws : List (List Char)} (h : ∀ w ∈ ws, '\n' ∉ w) :
    some '\n' ∉ s.moreMarks i ws := by
  induction ws generalizing i with
  | nil => exact List.not_mem_nil
  | cons w ws ih =>
    rw [Style.moreMarks, List.mem_append, List.mem_append]
    rintro ((hmem | hmem) | hmem)
    · exact newline_gaps _ hmem
    · exact newline_chars (newline_word (h w List.mem_cons_self)) hmem
    · exact ih (i+1) (fun w' hw' => h w' (List.mem_cons_of_mem _ hw')) hmem

theorem newline_directive : '\n' ∉ "import".toList ∧ '\n' ∉ "try-import".toList := by decide

theorem newline_only {w path : List Char} (h : '\n' ∉ path) (hw : w ∈ [path]) : '\n' ∉ w :=
  List.mem_singleton.mp hw ▸ h

theorem words_plain {d : Directive} (h : d.Sound) : '\n' ∉ d.words.1 ∧ ∀ w ∈ d.words.2, '\n' ∉ w := by
  cases d with
  | «import» path =>
    have hpath : '\n' ∉ path.toList := h
    exact ⟨newline_directive.1,fun w hw => newline_only hpath hw⟩
  | tryImport path =>
    have hpath : '\n' ∉ path.toList := h
    exact ⟨newline_directive.2,fun w hw => newline_only hpath hw⟩
  | commandFlags command config flags =>
    have hcommand : '\n' ∉ command.toList := h.2.1
    have hconfig : ∀ c, config = some c → '\n' ∉ c.toList := h.2.2.1
    have hflags : ∀ f ∈ flags, '\n' ∉ f.toList := h.2.2.2
    refine ⟨fun hmem => ?_,fun w hw => ?_⟩
    · rcases List.mem_append.mp hmem with hmem | hmem
      · exact hcommand hmem
      · cases hc : config with
        | none =>
          rw [hc] at hmem
          exact absurd hmem List.not_mem_nil
        | some c =>
          rw [hc] at hmem
          rcases List.mem_cons.mp hmem with heq | hmem
          · exact absurd heq (by decide)
          · exact hconfig c hc hmem
    · obtain ⟨f,hf,rfl⟩ := List.mem_map.mp hw
      exact hflags f hf

theorem row_marks {r : Row} (h : r.Sound) : some '\n' ∉ r.marks ∧ Ends r.marks := by
  cases r with
  | blank blanks => exact ⟨newline_blanks blanks,(calm_blanks blanks).ends⟩
  | comment blanks text =>
    have hquiet : Quiet text := h
    refine ⟨?_,ends_comment _ hquiet⟩
    rw [Row.marks, List.mem_append]
    rintro (hmem | hmem)
    · exact newline_blanks blanks hmem
    · refine newline_chars (fun hn => ?_) hmem
      rcases List.mem_cons.mp hn with heq | hn
      · exact absurd heq (by decide)
      · exact hquiet.1 hn
  | directive d s =>
    obtain ⟨hd,hcomment⟩ := h
    obtain ⟨hfirst,hmore⟩ := words_plain hd
    constructor
    · rw [Row.marks]
      simp only [List.mem_append]
      rintro (hmem | (hmem | hmem) | hmem | hmem)
      · exact newline_blanks _ hmem
      · exact newline_chars (newline_word hfirst) hmem
      · exact newline_more 1 hmore hmem
      · exact newline_gaps _ hmem
      · refine newline_chars (fun hn => ?_) hmem
        cases hc : s.comment with
        | none =>
          rw [hc] at hn
          exact absurd hn List.not_mem_nil
        | some text =>
          rw [hc] at hn
          rcases List.mem_cons.mp hn with heq | hn
          · exact absurd heq (by decide)
          · exact (hcomment text hc).1 hn
    · have hfront : Calm (s.lead.map blankMark ++ ((printWord (s.quote 0) d.words.1).map some ++
          s.moreMarks 1 d.words.2)) := (calm_blanks _).append ((calm_word _ _).append (calm_more _ _ _))
      cases hc : s.comment with
      | none =>
        rw [Row.marks, hc]
        exact ((calm_blanks _).append (((calm_word _ _).append (calm_more _ _ _)).append
          ((calm_gaps _).append calm_nil))).ends
      | some text =>
        rw [Row.marks, hc, ← List.append_assoc, ← List.append_assoc]
        exact ends_comment _ (hcomment text hc)

end Marks

section Reading

theorem joined_append (a b : List Mark) : joined (a ++ b) = joined a ++ joined b := List.map_append

theorem joined_blanks (blanks : List Bool) : joined (blanks.map blankMark) = blanks.map blankChar := by
  rw [joined, List.map_map]
  rfl

theorem joined_gaps (gaps : List Gap) : joined (gaps.map Gap.mark) = gaps.map Gap.char := by
  rw [joined, List.map_map]
  apply List.map_congr_left
  intro g _
  cases g <;> rfl

theorem joined_more (s : Style) (i : ℕ) (ws : List (List Char)) : joined (s.moreMarks i ws) = s.moreText i ws := by
  induction ws generalizing i with
  | nil => rfl
  | cons w ws ih =>
    rw [Style.moreMarks, joined_append, joined_append, joined_gaps, joined_chars, ih, Style.moreText,
      List.append_assoc]

theorem Calm.joined_last {marks : List Mark} (h : Calm marks) : (joined marks).getLast? ≠ some '\r' := by
  rw [joined, List.getLast?_map]
  cases hlast : marks.getLast? with
  | none => exact fun heq => by cases heq
  | some m =>
    have hm := (h m hlast).2
    cases m with
    | none => exact fun heq => absurd (Option.some.inj heq) (by decide)
    | some c => exact fun heq => hm (congrArg some (Option.some.inj heq))

theorem remark_comment (comment : Option (List Char)) : Remark (dropReturn (commentText comment)) := by
  intro c hc
  cases comment with
  | none => cases hc
  | some text =>
    change (dropReturn ('#' :: text)).head? = some c at hc
    rw [dropReturn_cons _ _ (.inr (by decide))] at hc
    exact (Option.some.inj hc).symm

/-- The logical line of a directive, whose words the parser finds. -/
theorem directive_text (d : Directive) (s : Style) :
    dropReturn (joined (Row.directive d s).marks) =
      s.lead.map blankChar ++ (printWord (s.quote 0) d.words.1 ++ (s.moreText 1 d.words.2 ++
        (s.trail.map Gap.char ++ dropReturn (commentText s.comment)))) := by
  have hfront : Calm (s.lead.map blankMark ++ ((printWord (s.quote 0) d.words.1).map some ++
      s.moreMarks 1 d.words.2) ++ s.trail.map Gap.mark) :=
    ((calm_blanks _).append ((calm_word _ _).append (calm_more _ _ _))).append (calm_gaps _)
  have hmarks : (Row.directive d s).marks = (s.lead.map blankMark ++ ((printWord (s.quote 0) d.words.1).map some ++
      s.moreMarks 1 d.words.2) ++ s.trail.map Gap.mark) ++ (commentText s.comment).map some := by
    rw [Row.marks]
    simp only [List.append_assoc]
  rw [hmarks, joined_append, dropReturn_append _ _ (.inr hfront.joined_last)]
  simp only [joined_append, joined_blanks, joined_chars, joined_more, joined_gaps, List.append_assoc]

theorem blank_white {c : Char} (h : isBlank c = true) : isWhitespace c = true := by
  unfold isBlank at h
  rw [Bool.or_eq_true, decide_eq_true_eq, decide_eq_true_eq] at h
  rcases h with rfl | rfl <;> decide

theorem drop_blanks (blanks : List Bool) (s : List Char) :
    (blanks.map blankChar ++ s).dropWhile isWhitespace = s.dropWhile isWhitespace :=
  List.dropWhile_append_of_pos fun c hc => blank_white (blanks_blank blanks c hc)

theorem texts_back (l : List String) : (l.map String.toList).map String.ofList = l := by
  rw [List.map_map]
  conv_rhs => rw [← List.map_id l]
  exact List.map_congr_left fun s _ => String.ofList_toList

theorem colon_directive : ':' ∉ "import".toList ∧ ':' ∉ "try-import".toList := by decide

theorem interpret_words {d : Directive} (h : d.Sound) :
    interpret d.words.1 (d.words.2.map String.ofList) = .ok d := by
  cases d with
  | «import» path =>
    change interpret "import".toList [String.ofList path.toList] = _
    rw [String.ofList_toList]
    rfl
  | tryImport path =>
    change interpret "try-import".toList [String.ofList path.toList] = _
    rw [String.ofList_toList]
    rfl
  | commandFlags command config flags =>
    have hcolon : ':' ∉ command.toList := h.1.1
    have himport : ¬ (command = "import" ∨ command = "try-import") :=
      fun heq => heq.elim h.1.2.1 h.1.2.2
    cases config with
    | none =>
      have hname : String.ofList (command.toList ++ []) = command := by
        rw [List.append_nil, String.ofList_toList]
      have hsplit : splitColon (command.toList ++ []) = none := by
        rw [List.append_nil]
        exact Text.splitOnce_absent hcolon
      change interpret (command.toList ++ []) ((flags.map String.toList).map String.ofList) = _
      rw [texts_back]
      unfold interpret
      simp only [hname, if_neg himport, hsplit]
    | some config =>
      have hother : ∀ text : String, ':' ∉ text.toList →
          String.ofList (command.toList ++ ':' :: config.toList) ≠ text := by
        intro text hno heq
        rw [← heq, String.toList_ofList] at hno
        exact hno (List.mem_append_right _ List.mem_cons_self)
      have hname : ¬ (String.ofList (command.toList ++ ':' :: config.toList) = "import" ∨
          String.ofList (command.toList ++ ':' :: config.toList) = "try-import") := by
        rintro (heq | heq)
        · exact hother _ colon_directive.1 heq
        · exact hother _ colon_directive.2 heq
      change interpret (command.toList ++ ':' :: config.toList) ((flags.map String.toList).map String.ofList) = _
      rw [texts_back]
      unfold interpret
      simp only [if_neg hname, splitColon, Text.splitOnce_char _ hcolon, String.ofList_toList]

/-- What is read of a row. -/
def Row.directive? : Row → Option Directive
  | directive d _ => some d
  | _ => none

variable (rich : List Char → List ((ℕ × ℕ) × String))

theorem parseLine_row {r : Row} (h : r.Sound) (n : ℕ) (span : ℕ × ℕ) :
    parseLine rich ⟨dropReturn (joined r.marks),n,span⟩ =
      (r.directive?.toList.map fun d => ⟨d,n,span⟩,[]) := by
  cases r with
  | blank blanks =>
    have htext : dropReturn (joined (Row.blank blanks).marks) = blanks.map blankChar := by
      rw [Row.marks, dropReturn_id (calm_blanks blanks).joined_last, joined_blanks]
    have htrim : (blanks.map blankChar).dropWhile isWhitespace = [] := by
      have hdrop := drop_blanks blanks []
      rwa [List.append_nil] at hdrop
    rw [htext, parseLine]
    simp only [htrim, true_or, if_true]
    rfl
  | comment blanks text =>
    have htext : dropReturn (joined (Row.comment blanks text).marks) =
        blanks.map blankChar ++ '#' :: dropReturn text := by
      rw [Row.marks, joined_append, joined_blanks, joined_chars,
        dropReturn_append _ _ (.inl (List.cons_ne_nil _ _)), dropReturn_cons _ _ (.inr (by decide))]
    have htrim : (blanks.map blankChar ++ '#' :: dropReturn text).dropWhile isWhitespace = '#' :: dropReturn text := by
      rw [drop_blanks, List.dropWhile_cons_of_neg (by decide)]
    rw [htext, parseLine]
    simp only [htrim, List.head?_cons, or_true, if_true]
    rfl
  | directive d s =>
    obtain ⟨c,cs,hhead,-,hwhite,hremark⟩ := printWord_head (s.quote 0) d.words.1
      (s.moreText 1 d.words.2 ++ (s.trail.map Gap.char ++ dropReturn (commentText s.comment)))
    have htrim : (dropReturn (joined (Row.directive d s).marks)).dropWhile isWhitespace = c::cs := by
      rw [directive_text, drop_blanks, hhead, List.dropWhile_cons_of_neg (by rw [hwhite]; decide)]
    have hwords : lineWords (dropReturn (joined (Row.directive d s).marks)) = some (d.words.1::d.words.2) := by
      rw [directive_text]
      exact lineWords_text (remark_comment s.comment) _ _
    have hdark : ¬ (c::cs = [] ∨ (c::cs).head? = some '#') := by
      rintro (heq | heq)
      · cases heq
      · exact hremark (Option.some.inj heq)
    rw [parseLine]
    simp only [htrim, if_neg hdark, hwords, interpret_words h.1]
    rfl

theorem startLines_cons (n : ℕ) (r : Row) (rows : List Row) :
    startLines n (r::rows) = r.directive?.toList.map (·,n) ++ startLines (n+r.height) rows := by
  cases r with
  | blank => rfl
  | comment => rfl
  | directive => rfl

/-- The rows after what was spliced so far. -/
theorem rows_read {rows : List Row} (h : ∀ r ∈ rows, r.Sound) (s : Splice) (hcont : s.inContinuation = false) :
    ∃ s' more, (splitFrom [] (printRows rows)).foldl spliceLine s = s' ∧ s'.inContinuation = false ∧
      s'.out = s.out ++ more ∧ (more.map (parseLine rich)).flatMap Prod.snd = [] ∧
      ((more.map (parseLine rich)).flatMap Prod.fst).map (fun l => (l.directive,l.lineNo)) =
        startLines (s.physicalLineNo+1) rows := by
  induction rows generalizing s with
  | nil => exact ⟨s,[],rfl,hcont,(List.append_nil _).symm,rfl,rfl⟩
  | cons r rows ih =>
    have hr := h r List.mem_cons_self
    obtain ⟨hmarks,hends⟩ := row_marks hr
    obtain ⟨s₁,span,hfold,hout,hno,hcont₁⟩ := splice_row r.marks hmarks hends (printRows rows) s
    obtain ⟨s',more,hrest,hcont',hout',herrors,hlines⟩ :=
      ih (fun r' hr' => h r' (List.mem_cons_of_mem _ hr')) s₁ hcont₁
    have hcarried : s.carried = [] := if_neg (by rw [hcont]; decide)
    have hstart : s.startLine = s.physicalLineNo+1 := if_neg (by rw [hcont]; decide)
    rw [hcarried, hstart, List.nil_append] at hout
    have hline := parseLine_row rich hr (s.physicalLineNo+1) span
    refine ⟨s',⟨_,_,span⟩::more,?_,hcont',by rw [hout', hout, List.append_assoc]; rfl,?_,?_⟩
    · rw [printRows, List.flatMap_cons, List.append_assoc, List.singleton_append]
      exact hfold.trans hrest
    · rw [List.map_cons, List.flatMap_cons, hline, herrors]
      rfl
    · rw [List.map_cons, List.flatMap_cons, hline, List.map_append, hlines, startLines_cons, hno]
      simp only [List.map_map]
      rw [Row.height, Nat.add_right_comm]
      rfl

theorem printed_rows_parse {rows : List Row} (h : ∀ r ∈ rows, r.Sound) :
    (parseRcFile rich (printRows rows)).2 = [] ∧
      (parseRcFile rich (printRows rows)).1.map (fun l => (l.directive,l.lineNo)) = startLines 1 rows := by
  obtain ⟨s',more,hfold,hcont,hout,herrors,hlines⟩ := rows_read rich h ⟨[],0,0,[],1,0,false⟩ rfl
  have hsplice : spliceContinuations (printRows rows) = more := by
    rw [spliceContinuations, hfold, hcont]
    exact hout
  rw [parseRcFile, hsplice]
  exact ⟨herrors,hlines⟩

end Reading

section Examples

/-- Words in quotes over two physical lines. -/
def printedRows (comment : List Char) : List Row :=
  [.blank [],.comment [true] comment,.directive (.commandFlags "build" (some "a:b") ["it's","\\\""])
    ⟨[],fun i => if i = 1 then .single else .double,fun _ => (.space,[.continuation]),[.tab],some " x".toList⟩]

theorem printed_rows_parse_example :
    (parseRcFile (fun _ => []) (printRows (printedRows " c".toList))).1.map (fun l => (l.directive,l.lineNo)) =
      [(.commandFlags "build" (some "a:b") ["it's","\\\""],3)] := by
  refine (printed_rows_parse (fun _ => []) ?_).2
  have hquiet : ∀ text, text = " c".toList ∨ text = " x".toList → Quiet text := by
    rintro text (rfl | rfl)
    · exact ⟨by decide,by decide,fun ⟨before,heq⟩ => absurd (congrArg List.getLast? heq) (by simp)⟩
    · exact ⟨by decide,by decide,fun ⟨before,heq⟩ => absurd (congrArg List.getLast? heq) (by simp)⟩
  intro r hr
  rcases List.mem_cons.mp hr with rfl | hr
  · trivial
  rcases List.mem_pair.mp hr with rfl | rfl
  · exact hquiet _ (.inl rfl)
  · refine ⟨⟨by decide,by decide,fun c hc => ?_,by decide⟩,
      fun text heq => hquiet _ (.inr (Option.some.inj heq).symm)⟩
    rw [← Option.some.inj hc]
    decide

theorem comment_takes_next :
    parseRcFile (fun _ => []) (printRows (printedRows " c\\".toList)) = ([],[]) ∧
      startLines 1 (printedRows " c\\".toList) = [(.commandFlags "build" (some "a:b") ["it's","\\\""],3)] := by
  decide

end Examples

end BuildFiji.Rc
