import BuildFiji.Bzlmod.Lockfile
import Mathlib

/-!
# The text of a JSON value

The writer puts every entry on a line of its own, two spaces further in for each
level, and nothing between the brackets of what is empty. What is written is
then gone over once more, for two line separators that the writer leaves as they
are. The reader takes any JSON text; only how it takes a number is left open.
-/

set_option autoImplicit false
set_option linter.all false

namespace BuildFiji.Bzlmod

def numberChar (c : Char) : Bool := c.isDigit || "-+.eE".toList.contains c

/-- How the number of a token is kept, by the text it is written as. -/
structure Numbers where
  read : String → Option String
  token : ∀ s t, read s = some t → t.toList ≠ [] ∧ t.toList.all numberChar = true
  again : ∀ s t, read s = some t → read t = some t
  whole : ∀ n < 2^64, read (toString n) = some (toString n)

section Write

/-- `CharEscape`: what a character of a string is written as. -/
def escape (c : Char) : List Char :=
  if c = '"' then ['\\','"']
  else if c = '\\' then ['\\','\\']
  else if c = '\x08' then ['\\','b']
  else if c = '\x0c' then ['\\','f']
  else if c = '\n' then ['\\','n']
  else if c = '\r' then ['\\','r']
  else if c = '\t' then ['\\','t']
  else if c.toNat < 0x20 then
    ['\\','u','0','0',Nat.digitChar (c.toNat/16),Nat.digitChar (c.toNat%16)]
  else [c]

def quoted (s : String) : List Char := '"'::(s.toList.flatMap escape ++ ['"'])

def newline (depth : ℕ) : List Char := '\n'::List.replicate (2*depth) ' '

mutual

/-- `to_string_pretty`. -/
def Json.pretty (depth : ℕ) : Json → List Char
  | .null => "null".toList
  | .bool true => "true".toList
  | .bool false => "false".toList
  | .number text => text.toList
  | .string s => quoted s
  | .array [] => ['[',']']
  | .array (item::items) => '['::(newline (depth+1) ++ item.pretty (depth+1) ++
      prettyItems (depth+1) items ++ newline depth ++ [']'])
  | .object [] => ['{','}']
  | .object ((key,value)::entries) => '{'::(newline (depth+1) ++ quoted key ++ [':',' '] ++
      value.pretty (depth+1) ++ prettyEntries (depth+1) entries ++ newline depth ++ ['}'])

def prettyItems (depth : ℕ) : List Json → List Char
  | [] => []
  | item::items => ','::(newline depth ++ item.pretty depth ++ prettyItems depth items)

def prettyEntries (depth : ℕ) : List (String × Json) → List Char
  | [] => []
  | (key,value)::entries => ','::(newline depth ++ quoted key ++ [':',' '] ++ value.pretty depth ++
      prettyEntries depth entries)

end

/-- The two separators that the writer leaves as they are. -/
def escapeSeparator (c : Char) : List Char :=
  if c = '\u2028' then "\\u2028".toList
  else if c = '\u2029' then "\\u2029".toList
  else [c]

def escapeSeparators (text : List Char) : List Char := text.flatMap escapeSeparator

end Write

section Read
variable (numbers : Numbers)

def isSpace (c : Char) : Bool := c = ' ' || c = '\n' || c = '\t' || c = '\r'

def skip (text : List Char) : List Char := text.dropWhile isSpace

def hexValue (c : Char) : Option ℕ :=
  if c.isDigit then some (c.toNat-48)
  else if 'a' ≤ c ∧ c ≤ 'f' then some (c.toNat-87)
  else if 'A' ≤ c ∧ c ≤ 'F' then some (c.toNat-55)
  else none

/-- Four digits. -/
def readHex : List Char → Option (ℕ × List Char)
  | a::b::c::d::rest => do
    let a ← hexValue a
    let b ← hexValue b
    let c ← hexValue c
    let d ← hexValue d
    some (4096*a+256*b+16*c+d,rest)
  | _ => none

/-- A code unit, or two that stand for one character. -/
def readUnit (text : List Char) : Option (Char × List Char) := do
  let (n,rest) ← readHex text
  if 0xDC00 ≤ n ∧ n ≤ 0xDFFF then none
  else if 0xD800 ≤ n ∧ n ≤ 0xDBFF then
    match rest with
    | '\\' :: 'u' :: rest => do
      let (m,rest) ← readHex rest
      if 0xDC00 ≤ m ∧ m ≤ 0xDFFF then
        some (Char.ofNat (0x10000+0x400*(n-0xD800)+(m-0xDC00)),rest)
      else none
    | _ => none
  else some (Char.ofNat n,rest)

def readEscape : List Char → Option (Char × List Char)
  | '"'::rest => some ('"',rest)
  | '\\'::rest => some ('\\',rest)
  | '/'::rest => some ('/',rest)
  | 'b'::rest => some ('\x08',rest)
  | 'f'::rest => some ('\x0c',rest)
  | 'n'::rest => some ('\n',rest)
  | 'r'::rest => some ('\r',rest)
  | 't'::rest => some ('\t',rest)
  | 'u'::rest => readUnit rest
  | _ => none

def readChar : List Char → Option (Char × List Char)
  | [] => none
  | c::rest =>
    if c = '\\' then readEscape rest
    else if c.toNat < 0x20 then none
    else some (c,rest)

/-- The rest of a string, after its opening quote. -/
def readString : ℕ → List Char → Option (List Char × List Char)
  | 0, _ => none
  | fuel+1, text =>
    if text.head? = some '"' then some ([],text.tail)
    else do
      let (c,rest) ← readChar text
      let (cs,rest) ← readString fuel rest
      some (c::cs,rest)

def readKey (text : List Char) : Option (String × List Char) :=
  match skip text with
  | '"'::rest => do
    let (key,rest) ← readString (rest.length+1) rest
    match skip rest with
    | ':'::rest => some (String.ofList key,rest)
    | _ => none
  | _ => none

/-- A word or a number. -/
def readAtom : List Char → Option (Json × List Char)
  | 'n' :: 'u' :: 'l' :: 'l' :: rest => some (.null,rest)
  | 't' :: 'r' :: 'u' :: 'e' :: rest => some (.bool true,rest)
  | 'f' :: 'a' :: 'l' :: 's' :: 'e' :: rest => some (.bool false,rest)
  | text => (numbers.read (String.ofList (text.takeWhile numberChar))).map fun number =>
      (.number number,text.dropWhile numberChar)

mutual

def readValue : ℕ → List Char → Option (Json × List Char)
  | 0, _ => none
  | fuel+1, text =>
    match skip text with
    | '"'::rest => do
      let (s,rest) ← readString (rest.length+1) rest
      some (.string (String.ofList s),rest)
    | '['::rest =>
      if (skip rest).head? = some ']' then some (.array [],(skip rest).tail)
      else do
        let (item,rest) ← readValue fuel rest
        let (items,rest) ← readItems fuel rest
        some (.array (item::items),rest)
    | '{'::rest =>
      if (skip rest).head? = some '}' then some (.object [],(skip rest).tail)
      else do
        let (key,rest) ← readKey rest
        let (value,rest) ← readValue fuel rest
        let (entries,rest) ← readEntries fuel rest
        some (.object ((key,value)::entries),rest)
    | text => readAtom numbers text

def readItems : ℕ → List Char → Option (List Json × List Char)
  | 0, _ => none
  | fuel+1, text =>
    match skip text with
    | ']'::rest => some ([],rest)
    | ','::rest => do
      let (item,rest) ← readValue fuel rest
      let (items,rest) ← readItems fuel rest
      some (item::items,rest)
    | _ => none

def readEntries : ℕ → List Char → Option (List (String × Json) × List Char)
  | 0, _ => none
  | fuel+1, text =>
    match skip text with
    | '}'::rest => some ([],rest)
    | ','::rest => do
      let (key,rest) ← readKey rest
      let (value,rest) ← readValue fuel rest
      let (entries,rest) ← readEntries fuel rest
      some ((key,value)::entries,rest)
    | _ => none

end

/-- `from_str`: one value, with nothing but space around it. -/
def Json.read (text : String) : Option Json :=
  match readValue numbers (text.toList.length+1) text.toList with
  | some (value,rest) => if skip rest = [] then some value else none
  | none => none

end Read

section Strings

theorem separators_append (a b : List Char) :
    escapeSeparators (a ++ b) = escapeSeparators a ++ escapeSeparators b := List.flatMap_append

theorem separators_plain {text : List Char}
    (h : text.all (fun c => c != '\u2028' && c != '\u2029') = true) :
    escapeSeparators text = text := by
  induction text with
  | nil => rfl
  | cons c text ih =>
    rw [List.all_cons, Bool.and_eq_true, Bool.and_eq_true, bne_iff_ne, bne_iff_ne] at h
    rw [escapeSeparators, List.flatMap_cons, ← escapeSeparators, ih h.2, escapeSeparator,
      if_neg h.1.1, if_neg h.1.2]
    rfl

theorem separators_cons {c : Char} (h : (c != '\u2028' && c != '\u2029') = true)
    (text : List Char) : escapeSeparators (c::text) = c::escapeSeparators text := by
  have hc : escapeSeparators [c] = [c] := separators_plain (by rw [List.all_cons, h]; rfl)
  calc escapeSeparators (c::text) = escapeSeparators [c] ++ escapeSeparators text :=
        separators_append [c] text
    _ = c::escapeSeparators text := by rw [hc]; rfl

theorem hexValue_digitChar {n : ℕ} (h : n < 16) : hexValue (Nat.digitChar n) = some n := by
  revert n
  decide

theorem control_plain {n : ℕ} (h : n < 16) :
    (Nat.digitChar n != '\u2028' && Nat.digitChar n != '\u2029') = true := by
  revert n
  decide

/-- A character that is written as an escape of its own. -/
theorem readChar_control {n : ℕ} (h : n < 0x20) (rest : List Char) :
    readChar ('\\' :: 'u' :: '0' :: '0' :: Nat.digitChar (n/16)::Nat.digitChar (n%16)::rest) =
      some (Char.ofNat n,rest) := by
  have hhigh := @hexValue_digitChar (n/16) (by omega)
  have hlow := @hexValue_digitChar (n%16) (by omega)
  have hzero : hexValue '0' = some 0 := by decide
  have hn : 16*(n/16)+n%16 = n := by omega
  simp only [readChar, if_pos, readEscape, readUnit, readHex, hhigh, hlow, hzero,
    Option.bind_eq_bind, Option.bind_some, Nat.mul_zero, Nat.zero_add, hn]
  rw [if_neg (by omega), if_neg (by omega)]

/-- What is written for a character is read as that character, and does not end
the string. -/
theorem readChar_escape (c : Char) (rest : List Char) :
    readChar (escapeSeparators (escape c) ++ rest) = some (c,rest) ∧
      (escapeSeparators (escape c) ++ rest).head? ≠ some '"' := by
  have hescaped : some '\\' ≠ some '"' := by decide
  unfold escape
  by_cases hquote : c = '"'
  · subst hquote
    exact ⟨rfl,hescaped⟩
  rw [if_neg hquote]
  by_cases hback : c = '\\'
  · subst hback
    exact ⟨rfl,hescaped⟩
  rw [if_neg hback]
  by_cases hb : c = '\x08'
  · subst hb
    exact ⟨rfl,hescaped⟩
  rw [if_neg hb]
  by_cases hf : c = '\x0c'
  · subst hf
    exact ⟨rfl,hescaped⟩
  rw [if_neg hf]
  by_cases hn : c = '\n'
  · subst hn
    exact ⟨rfl,hescaped⟩
  rw [if_neg hn]
  by_cases hr : c = '\r'
  · subst hr
    exact ⟨rfl,hescaped⟩
  rw [if_neg hr]
  by_cases ht : c = '\t'
  · subst ht
    exact ⟨rfl,hescaped⟩
  rw [if_neg ht]
  by_cases hcontrol : c.toNat < 0x20
  · rw [if_pos hcontrol, separators_plain]
    · constructor
      · have h := readChar_control hcontrol rest
        rwa [Char.ofNat_toNat] at h
      · simp
    · have hhigh := @control_plain (c.toNat/16) (by omega)
      have hlow := @control_plain (c.toNat%16) (by omega)
      rw [List.all_cons, List.all_cons, List.all_cons, List.all_cons, List.all_cons, List.all_cons,
        hhigh, hlow]
      rfl
  rw [if_neg hcontrol, escapeSeparators, List.flatMap_singleton, escapeSeparator]
  by_cases hline : c = '\u2028'
  · subst hline
    exact ⟨rfl,hescaped⟩
  rw [if_neg hline]
  by_cases hparagraph : c = '\u2029'
  · subst hparagraph
    exact ⟨rfl,hescaped⟩
  rw [if_neg hparagraph]
  constructor
  · simp only [List.singleton_append, readChar]
    rw [if_neg hback, if_neg hcontrol]
  · simpa using hquote

theorem readString_written (cs : List Char) (rest : List Char) (fuel : ℕ) (h : cs.length < fuel) :
    readString fuel (escapeSeparators (cs.flatMap escape) ++ '"'::rest) = some (cs,rest) := by
  induction cs generalizing fuel with
  | nil =>
    obtain ⟨fuel,rfl⟩ := Nat.exists_eq_succ_of_ne_zero (by omega : fuel ≠ 0)
    rfl
  | cons c cs ih =>
    obtain ⟨fuel,rfl⟩ := Nat.exists_eq_succ_of_ne_zero (by omega : fuel ≠ 0)
    obtain ⟨hread,hhead⟩ := readChar_escape c (escapeSeparators (cs.flatMap escape) ++ '"'::rest)
    rw [List.flatMap_cons, separators_append, List.append_assoc, Nat.succ_eq_add_one, readString,
      if_neg hhead, hread]
    have hrest := ih fuel (by rw [List.length_cons] at h; omega)
    simp only [Option.bind_eq_bind, Option.bind_some, hrest]

theorem escape_ne_nil (c : Char) : 1 ≤ (escapeSeparators (escape c)).length := by
  have h := (readChar_escape c []).1
  cases he : escapeSeparators (escape c) with
  | nil =>
    rw [he] at h
    cases h
  | cons d ds => simp

theorem written_length (cs : List Char) :
    cs.length ≤ (escapeSeparators (cs.flatMap escape)).length := by
  induction cs with
  | nil => simp
  | cons c cs ih =>
    have hc := escape_ne_nil c
    rw [List.flatMap_cons, separators_append, List.length_append, List.length_cons]
    omega

/-- Reading a string back, with as much fuel as there is text. -/
theorem readString_back (s : String) (rest : List Char) (text : List Char)
    (h : text = escapeSeparators (s.toList.flatMap escape) ++ '"'::rest) :
    readString (text.length+1) text = some (s.toList,rest) := by
  subst h
  apply readString_written
  have hlen := written_length s.toList
  rw [List.length_append]
  omega

theorem separators_quoted (s : String) :
    escapeSeparators (quoted s) = '"'::(escapeSeparators (s.toList.flatMap escape) ++ ['"']) := by
  rw [quoted, separators_cons (by decide), separators_append]
  rfl

end Strings

section Values
variable (numbers : Numbers)

mutual

/-- A value whose numbers are kept as they are written. -/
def Json.Kept : Json → Prop
  | .number text => numbers.read text = some text
  | .array items => KeptItems items
  | .object entries => KeptEntries entries
  | _ => True

def KeptItems : List Json → Prop
  | [] => True
  | item::items => item.Kept ∧ KeptItems items

def KeptEntries : List (String × Json) → Prop
  | [] => True
  | (_,value)::entries => value.Kept ∧ KeptEntries entries

end

mutual

def Json.size : Json → ℕ
  | .array items => 1+itemsSize items
  | .object entries => 1+entriesSize entries
  | _ => 1

def itemsSize : List Json → ℕ
  | [] => 1
  | item::items => 1+item.size+itemsSize items

def entriesSize : List (String × Json) → ℕ
  | [] => 1
  | (_,value)::entries => 1+value.size+entriesSize entries

end

theorem keptEntries_iff (entries : List (String × Json)) :
    KeptEntries numbers entries ↔ ∀ e ∈ entries, e.2.Kept numbers := by
  induction entries with
  | nil => simp [KeptEntries]
  | cons e entries ih =>
    rw [KeptEntries, ih, List.forall_mem_cons]

theorem separators_newline (depth : ℕ) : escapeSeparators (newline depth) = newline depth := by
  apply separators_plain
  rw [newline, List.all_cons, List.all_replicate]
  split
  · rfl
  · rfl

theorem separators_one {c : Char} (h : (c != '\u2028' && c != '\u2029') = true) :
    escapeSeparators [c] = [c] := separators_cons h []

theorem skip_newline (depth : ℕ) (text : List Char) : skip (newline depth ++ text) = skip text := by
  have hspaces : ∀ n : ℕ, skip (List.replicate n ' ' ++ text) = skip text := by
    intro n
    induction n with
    | zero => rfl
    | succ n ih =>
      rw [List.replicate_succ, List.cons_append, skip, List.dropWhile_cons_of_pos (by decide)]
      exact ih
  rw [newline, List.cons_append, skip, List.dropWhile_cons_of_pos (by decide)]
  exact hspaces _

theorem skip_cons {c : Char} (h : isSpace c = false) (text : List Char) :
    skip (c::text) = c::text := List.dropWhile_cons_of_neg (Bool.eq_false_iff.mp h)

theorem numberChar_cases {c : Char} (h : numberChar c = true) :
    isSpace c = false ∧ c ∉ ['"','[',']','{','}','n','t','f'] ∧
      (c != '\u2028' && c != '\u2029') = true := by
  have hdigit : c.isDigit = true ∨ c ∈ ['-','+','.','e','E'] := by
    simpa [numberChar] using h
  rcases hdigit with hd | hp
  · have hn : 48 ≤ c.toNat ∧ c.toNat ≤ 57 := by
      simp only [Char.isDigit, ge_iff_le, Bool.and_eq_true, decide_eq_true_eq] at hd
      exact hd
    have hne : ∀ d : Char, (d.toNat < 48 ∨ 57 < d.toNat) → c ≠ d := by
      rintro d hd rfl
      omega
    refine ⟨?_,?_,?_⟩
    · simp [isSpace, hne ' ' (by decide), hne '\n' (by decide), hne '\t' (by decide),
        hne '\r' (by decide)]
    · simp [hne '"' (by decide), hne '[' (by decide), hne ']' (by decide), hne '\x7b' (by decide),
        hne '\x7d' (by decide), hne 'n' (by decide), hne 't' (by decide), hne 'f' (by decide)]
    · simp [hne '\u2028' (by decide), hne '\u2029' (by decide)]
  · simp only [List.mem_cons, List.not_mem_nil, or_false] at hp
    rcases hp with rfl | rfl | rfl | rfl | rfl
    all_goals exact ⟨by decide,by decide,by decide⟩

/-- What follows a number is no part of it. -/
def EndsNumber (rest : List Char) : Prop := ∀ c, rest.head? = some c → numberChar c = false

theorem EndsNumber.cons {c : Char} (h : numberChar c = false) (rest : List Char) : EndsNumber (c::rest) := by
  intro d hd
  cases hd
  exact h

theorem takeWhile_number {text rest : List Char} (h : text.all numberChar = true)
    (hrest : EndsNumber rest) : (text ++ rest).takeWhile numberChar = text ∧
      (text ++ rest).dropWhile numberChar = rest := by
  have hall : ∀ c ∈ text, numberChar c = true := List.all_eq_true.mp h
  rw [List.takeWhile_append_of_pos hall, List.dropWhile_append_of_pos hall]
  cases rest with
  | nil => simp
  | cons c rest =>
    have hc := Bool.eq_false_iff.mp (hrest c rfl)
    rw [List.takeWhile_cons_of_neg hc, List.dropWhile_cons_of_neg hc, List.append_nil]
    exact ⟨rfl,rfl⟩

theorem readAtom_number {text rest : List Char} (hne : text ≠ [])
    (h : text.all numberChar = true) (hrest : EndsNumber rest)
    (hread : numbers.read (String.ofList text) = some (String.ofList text)) :
    readAtom numbers (text ++ rest) = some (.number (String.ofList text),rest) := by
  obtain ⟨htake,hdrop⟩ := takeWhile_number h hrest
  obtain ⟨c,cs,rfl⟩ := List.exists_cons_of_ne_nil hne
  rw [List.all_cons, Bool.and_eq_true] at h
  have hc := (numberChar_cases h.1).2.1
  simp only [List.mem_cons, not_or] at hc
  unfold readAtom
  split
  · next heq => exact absurd (List.cons.inj heq).1 hc.2.2.2.2.2.1
  · next heq => exact absurd (List.cons.inj heq).1 hc.2.2.2.2.2.2.1
  · next heq => exact absurd (List.cons.inj heq).1 hc.2.2.2.2.2.2.2.1
  · rw [htake, hdrop, hread]
    rfl

attribute [local simp] readAtom readValue readItems readEntries in
theorem readValue_atom {c : Char} {text : List Char} (fuel : ℕ) (hspace : isSpace c = false)
    (hc : c ∉ ['"','[','{']) : readValue numbers (fuel+1) (c::text) =
      readAtom numbers (c::text) := by
  simp only [List.mem_cons, not_or] at hc
  rw [readValue, skip_cons hspace]
  split
  · next heq => exact absurd (List.cons.inj heq).1 hc.1
  · next heq => exact absurd (List.cons.inj heq).1 hc.2.1
  · next heq => exact absurd (List.cons.inj heq).1 hc.2.2.1
  · rfl

theorem readValue_newline (fuel depth : ℕ) (text : List Char) :
    readValue numbers fuel (newline depth ++ text) = readValue numbers fuel text := by
  cases fuel with
  | zero => rw [readValue, readValue]
  | succ fuel => rw [readValue, skip_newline, readValue]

attribute [local simp] Json.pretty in
/-- No value begins with a space or a closing bracket. -/
theorem pretty_head (depth : ℕ) (v : Json) (h : v.Kept numbers) :
    ∃ c text, escapeSeparators (v.pretty depth) = c::text ∧ isSpace c = false ∧ c ≠ ']' := by
  cases v with
  | null => exact ⟨'n',"ull".toList,by rw [Json.pretty]; decide,by decide,by decide⟩
  | bool b =>
    cases b with
    | true => exact ⟨'t',"rue".toList,by rw [Json.pretty]; decide,by decide,by decide⟩
    | false => exact ⟨'f',"alse".toList,by rw [Json.pretty]; decide,by decide,by decide⟩
  | number t =>
    obtain ⟨hne,hall⟩ := numbers.token t t h
    obtain ⟨c,cs,hcs⟩ := List.exists_cons_of_ne_nil hne
    rw [hcs, List.all_cons, Bool.and_eq_true] at hall
    obtain ⟨hspace,hmem,hplain⟩ := numberChar_cases hall.1
    refine ⟨c,escapeSeparators cs,?_,hspace,?_⟩
    · rw [Json.pretty, hcs, separators_cons hplain]
    · rintro rfl
      exact hmem (by decide)
  | string s => exact ⟨'"',_,by rw [Json.pretty, separators_quoted],by decide,by decide⟩
  | array items =>
    cases items with
    | nil => exact ⟨'[',[']'],by rw [Json.pretty]; decide,by decide,by decide⟩
    | cons item items =>
      exact ⟨'[',_,by rw [Json.pretty, separators_cons (by decide)],by decide,by decide⟩
  | object entries =>
    cases entries with
    | nil => exact ⟨'\x7b',['\x7d'],by rw [Json.pretty]; decide,by decide,by decide⟩
    | cons e entries =>
      exact ⟨'\x7b',_,by rw [Json.pretty, separators_cons (by decide)],by decide,by decide⟩

theorem readKey_written (key : String) (rest : List Char) :
    readKey ('"'::(escapeSeparators (key.toList.flatMap escape) ++ '"' :: ':' :: rest)) =
      some (key,rest) := by
  simp only [readKey, skip_cons (show isSpace '"' = false by decide),
    readString_back key (':'::rest) _ rfl, Option.bind_eq_bind, Option.bind_some,
    skip_cons (show isSpace ':' = false by decide), String.ofList_toList]

theorem readKey_newline (depth : ℕ) (text : List Char) :
    readKey (newline depth ++ text) = readKey text := by
  rw [readKey, skip_newline, readKey]

theorem readValue_bracket (fuel : ℕ) (rest : List Char) :
    readValue numbers (fuel+1) ('['::rest) =
      if (skip rest).head? = some ']' then some (.array [],(skip rest).tail)
      else (do
        let (item,rest) ← readValue numbers fuel rest
        let (items,rest) ← readItems numbers fuel rest
        some (.array (item::items),rest)) := by
  rw [readValue, skip_cons (by decide)]
  rfl

theorem readValue_brace (fuel : ℕ) (rest : List Char) :
    readValue numbers (fuel+1) ('\x7b'::rest) =
      if (skip rest).head? = some '\x7d' then some (.object [],(skip rest).tail)
      else (do
        let (key,rest) ← readKey rest
        let (value,rest) ← readValue numbers fuel rest
        let (entries,rest) ← readEntries numbers fuel rest
        some (.object ((key,value)::entries),rest)) := by
  rw [readValue, skip_cons (by decide)]
  rfl

/-- One field, from its quoted name to what follows its value. -/
theorem field_text (depth : ℕ) (key : String) (value : Json) (rest : List Char) :
    escapeSeparators (quoted key ++ [':',' '] ++ value.pretty depth) ++ rest =
      '"'::(escapeSeparators (key.toList.flatMap escape) ++ '"' :: ':' ::
        (' '::(escapeSeparators (value.pretty depth) ++ rest))) := by
  have hcolon : escapeSeparators [':',' '] = [':',' '] := separators_plain (by decide)
  rw [separators_append, separators_append, separators_quoted, hcolon]
  simp

theorem readValue_space (fuel : ℕ) (text : List Char) :
    readValue numbers fuel (' '::text) = readValue numbers fuel text := by
  have hskip : skip (' '::text) = skip text := List.dropWhile_cons_of_pos (by decide)
  cases fuel with
  | zero => rw [readValue, readValue]
  | succ fuel => rw [readValue, hskip, readValue]

theorem items_stop (depth outer : ℕ) (items : List Json) (c : Char) (rest : List Char) :
    EndsNumber (escapeSeparators (prettyItems depth items) ++ (newline outer ++ c::rest)) := by
  cases items with
  | nil => exact EndsNumber.cons (by decide) _
  | cons item items =>
    rw [prettyItems, separators_cons (by decide)]
    exact EndsNumber.cons (by decide) _

theorem entries_stop (depth outer : ℕ) (entries : List (String × Json)) (c : Char)
    (rest : List Char) :
    EndsNumber (escapeSeparators (prettyEntries depth entries) ++ (newline outer ++ c::rest)) := by
  cases entries with
  | nil => exact EndsNumber.cons (by decide) _
  | cons entry entries =>
    rw [prettyEntries, separators_cons (by decide)]
    exact EndsNumber.cons (by decide) _

/-- What is written, at any depth and before anything, is read back with as much
fuel as it has parts. -/
structure ReadsBack (fuel : ℕ) : Prop where
  value : ∀ (v : Json) (depth : ℕ) (rest : List Char), v.Kept numbers → v.size ≤ fuel →
    EndsNumber rest → readValue numbers fuel (escapeSeparators (v.pretty depth) ++ rest) = some (v,rest)
  items : ∀ (items : List Json) (depth outer : ℕ) (rest : List Char), KeptItems numbers items →
    itemsSize items ≤ fuel → readItems numbers fuel
      (escapeSeparators (prettyItems depth items) ++ (newline outer ++ ']'::rest)) =
        some (items,rest)
  entries : ∀ (entries : List (String × Json)) (depth outer : ℕ) (rest : List Char),
    KeptEntries numbers entries → entriesSize entries ≤ fuel → readEntries numbers fuel
      (escapeSeparators (prettyEntries depth entries) ++ (newline outer ++ '\x7d'::rest)) =
        some (entries,rest)

variable {numbers} {fuel : ℕ}

theorem ReadsBack.array (h : ReadsBack numbers fuel) (items : List Json) (depth : ℕ)
    (rest : List Char) (hkept : KeptItems numbers items) (hsize : itemsSize items ≤ fuel) :
    readValue numbers (fuel+1) (escapeSeparators (Json.pretty depth (.array items)) ++ rest) =
      some (.array items,rest) := by
  cases items with
  | nil =>
    rw [Json.pretty, readValue]
    rfl
  | cons item items =>
    rw [itemsSize] at hsize
    have htext : escapeSeparators (Json.pretty depth (.array (item::items))) ++ rest =
        '['::(newline (depth+1) ++ (escapeSeparators (item.pretty (depth+1)) ++
          (escapeSeparators (prettyItems (depth+1) items) ++ (newline depth ++ ']'::rest)))) := by
      rw [Json.pretty, separators_cons (by decide)]
      simp only [separators_append, separators_newline, separators_one (show
        (']' != '\u2028' && ']' != '\u2029') = true by decide), List.append_assoc, List.cons_append,
        List.nil_append]
    obtain ⟨c,text,hhead,hspace,hne⟩ := pretty_head numbers (depth+1) item hkept.1
    have hopen : (skip (newline (depth+1) ++ (escapeSeparators (item.pretty (depth+1)) ++
        (escapeSeparators (prettyItems (depth+1) items) ++ (newline depth ++ ']'::rest))))).head? ≠
          some ']' := by
      rw [skip_newline, hhead, List.cons_append, skip_cons hspace]
      intro heq
      exact hne (Option.some.inj heq)
    rw [htext, readValue_bracket, if_neg hopen, readValue_newline, h.value item (depth+1) _ hkept.1 (by omega)
      (items_stop _ _ _ _ _)]
    simp only [Option.bind_eq_bind, Option.bind_some]
    rw [h.items items (depth+1) depth rest hkept.2 (by omega)]
    rfl

theorem ReadsBack.object (h : ReadsBack numbers fuel) (entries : List (String × Json)) (depth : ℕ)
    (rest : List Char) (hkept : KeptEntries numbers entries) (hsize : entriesSize entries ≤ fuel) :
    readValue numbers (fuel+1) (escapeSeparators (Json.pretty depth (.object entries)) ++ rest) =
      some (.object entries,rest) := by
  cases entries with
  | nil =>
    rw [Json.pretty, readValue]
    rfl
  | cons entry entries =>
    obtain ⟨key,value⟩ := entry
    rw [entriesSize] at hsize
    have htext : escapeSeparators (Json.pretty depth (.object ((key,value)::entries))) ++ rest =
        '\x7b'::(newline (depth+1) ++ (escapeSeparators (quoted key ++ [':',' '] ++
          value.pretty (depth+1)) ++ (escapeSeparators (prettyEntries (depth+1) entries) ++
            (newline depth ++ '\x7d'::rest)))) := by
      rw [Json.pretty, separators_cons (by decide)]
      simp only [separators_append, separators_newline, separators_one (show
        ('\x7d' != '\u2028' && '\x7d' != '\u2029') = true by decide)]
      simp only [List.append_assoc, List.cons_append, List.nil_append]
    rw [htext, readValue_brace, field_text, skip_newline, skip_cons (by decide), if_neg (by simp),
      readKey_newline, readKey_written]
    simp only [Option.bind_eq_bind, Option.bind_some]
    rw [readValue_space, h.value value (depth+1) _ hkept.1 (by omega) (entries_stop _ _ _ _ _)]
    simp only [Option.bind_some]
    rw [h.entries entries (depth+1) depth rest hkept.2 (by omega)]
    rfl

theorem readValue_string (s : String) (fuel depth : ℕ) (rest : List Char) :
    readValue numbers (fuel+1) (escapeSeparators (Json.pretty depth (.string s)) ++ rest) =
      some (.string s,rest) := by
  rw [Json.pretty, separators_quoted, List.cons_append, List.append_assoc, List.singleton_append,
    readValue, skip_cons (by decide)]
  simp only [readString_back s rest _ rfl, Option.bind_eq_bind, Option.bind_some,
    String.ofList_toList]

theorem readValue_number (t : String) (fuel depth : ℕ) (rest : List Char)
    (hkept : numbers.read t = some t) (hrest : EndsNumber rest) :
    readValue numbers (fuel+1) (escapeSeparators (Json.pretty depth (.number t)) ++ rest) =
      some (.number t,rest) := by
  obtain ⟨hne,hall⟩ := numbers.token t t hkept
  have hplain : escapeSeparators t.toList = t.toList := by
    apply separators_plain
    rw [List.all_eq_true] at hall ⊢
    exact fun c hc => (numberChar_cases (hall c hc)).2.2
  have hatom := readAtom_number numbers hne hall hrest (by rwa [String.ofList_toList])
  rw [Json.pretty, hplain]
  obtain ⟨c,cs,hcs⟩ := List.exists_cons_of_ne_nil hne
  rw [String.ofList_toList] at hatom
  rw [hcs] at hatom hall ⊢
  rw [List.all_cons, Bool.and_eq_true] at hall
  obtain ⟨hspace,hmem,-⟩ := numberChar_cases hall.1
  rw [List.cons_append, readValue_atom numbers fuel hspace fun h => hmem (by
    simp only [List.mem_cons, List.not_mem_nil, or_false] at h ⊢
    tauto)]
  exact hatom

theorem ReadsBack.step (h : ReadsBack numbers fuel) : ReadsBack numbers (fuel+1) where
  value v depth rest hkept hsize hrest := by
    cases v with
    | null =>
      rw [Json.pretty, readValue]
      rfl
    | bool b =>
      cases b with
      | true =>
        rw [Json.pretty, readValue]
        rfl
      | false =>
        rw [Json.pretty, readValue]
        rfl
    | number t => exact readValue_number t fuel depth rest hkept hrest
    | string s => exact readValue_string s fuel depth rest
    | array items => exact h.array items depth rest hkept (by rw [Json.size] at hsize; omega)
    | object entries => exact h.object entries depth rest hkept (by rw [Json.size] at hsize; omega)
  items items depth outer rest hkept hsize := by
    cases items with
    | nil =>
      rw [readItems, prettyItems, escapeSeparators, List.flatMap_nil, List.nil_append, skip_newline]
      rfl
    | cons item items =>
      rw [itemsSize] at hsize
      have htext : escapeSeparators (prettyItems depth (item::items)) ++
          (newline outer ++ ']'::rest) = ','::(newline depth ++
            (escapeSeparators (item.pretty depth) ++
              (escapeSeparators (prettyItems depth items) ++ (newline outer ++ ']'::rest)))) := by
        rw [prettyItems, separators_cons (by decide)]
        simp only [separators_append, separators_newline, List.append_assoc, List.cons_append]
      rw [htext, readItems, skip_cons (by decide)]
      simp only [readValue_newline,
        h.value item depth _ hkept.1 (by omega) (items_stop depth outer items ']' rest),
        Option.bind_eq_bind, Option.bind_some, h.items items depth outer rest hkept.2 (by omega)]
  entries entries depth outer rest hkept hsize := by
    cases entries with
    | nil =>
      rw [readEntries, prettyEntries, escapeSeparators, List.flatMap_nil, List.nil_append,
        skip_newline]
      rfl
    | cons entry entries =>
      obtain ⟨key,value⟩ := entry
      rw [entriesSize] at hsize
      have htext : escapeSeparators (prettyEntries depth ((key,value)::entries)) ++
          (newline outer ++ '\x7d'::rest) = ','::(newline depth ++
            (escapeSeparators (quoted key ++ [':',' '] ++ value.pretty depth) ++
              (escapeSeparators (prettyEntries depth entries) ++
                (newline outer ++ '\x7d'::rest)))) := by
        rw [prettyEntries, separators_cons (by decide)]
        simp only [separators_append, separators_newline]
        simp only [List.append_assoc, List.cons_append]
      rw [htext, field_text, readEntries, skip_cons (by decide)]
      simp only [readKey_newline, readKey_written, readValue_space,
        h.value value depth _ hkept.1 (by omega) (entries_stop depth outer entries '\x7d' rest),
        Option.bind_eq_bind, Option.bind_some, h.entries entries depth outer rest hkept.2 (by omega)]

/-- Nothing has no parts. -/
theorem reads_back : ∀ fuel, ReadsBack numbers fuel
  | 0 =>
    { value := fun v depth rest _ hsize => by cases v <;> simp [Json.size] at hsize
      items := fun items depth outer rest _ hsize => by cases items <;> simp [itemsSize] at hsize
      entries := fun entries depth outer rest _ hsize => by
        cases entries <;> simp [entriesSize] at hsize }
  | fuel+1 => (reads_back fuel).step

theorem separators_length (text : List Char) :
    text.length ≤ (escapeSeparators text).length := by
  induction text with
  | nil => simp
  | cons c text ih =>
    have hc : 1 ≤ (escapeSeparator c).length := by
      unfold escapeSeparator
      split
      · decide
      · split
        · decide
        · simp
    rw [escapeSeparators, List.flatMap_cons, ← escapeSeparators, List.length_append,
      List.length_cons]
    omega

theorem newline_length (depth : ℕ) : (newline depth).length = 2*depth+1 := by
  rw [newline, List.length_cons, List.length_replicate]

mutual

theorem pretty_length (depth : ℕ) : ∀ v : Json, v.Kept numbers → v.size ≤ (v.pretty depth).length
  | .null, _ => by simp [Json.size, Json.pretty]
  | .bool true, _ => by simp [Json.size, Json.pretty]
  | .bool false, _ => by simp [Json.size, Json.pretty]
  | .number t, h => by
    have hne := List.length_pos_iff.mpr (numbers.token t t h).1
    simp only [Json.size, Json.pretty]
    omega
  | .string s, _ => by simp [Json.size, Json.pretty, quoted]
  | .array [], _ => by simp [Json.size, itemsSize, Json.pretty]
  | .array (item::items), h => by
    have hitem := pretty_length (depth+1) item h.1
    have hitems := prettyItems_length (depth+1) items h.2
    simp only [Json.size, itemsSize, Json.pretty, List.length_cons, List.length_append,
      newline_length]
    omega
  | .object [], _ => by simp [Json.size, entriesSize, Json.pretty]
  | .object ((key,value)::entries), h => by
    have hvalue := pretty_length (depth+1) value h.1
    have hentries := prettyEntries_length (depth+1) entries h.2
    simp only [Json.size, entriesSize, Json.pretty, List.length_cons, List.length_append,
      newline_length]
    omega

theorem prettyItems_length (depth : ℕ) : ∀ items : List Json, KeptItems numbers items →
    itemsSize items ≤ (prettyItems depth items).length+1
  | [], _ => by simp [itemsSize]
  | item::items, h => by
    have hitem := pretty_length depth item h.1
    have hitems := prettyItems_length depth items h.2
    simp only [itemsSize, prettyItems, List.length_cons, List.length_append]
    omega

theorem prettyEntries_length (depth : ℕ) : ∀ entries : List (String × Json),
    KeptEntries numbers entries → entriesSize entries ≤ (prettyEntries depth entries).length+1
  | [], _ => by simp [entriesSize]
  | (key,value)::entries, h => by
    have hvalue := pretty_length depth value h.1
    have hentries := prettyEntries_length depth entries h.2
    simp only [entriesSize, prettyEntries, List.length_cons, List.length_append]
    omega

end

/-- The text of a value, with its separators escaped and its newline at the end,
is read as that value. -/
theorem read_pretty (v : Json) (h : v.Kept numbers) :
    Json.read numbers (String.ofList (escapeSeparators (v.pretty 0) ++ ['\n'])) = some v := by
  have hfuel : v.size ≤ (escapeSeparators (v.pretty 0) ++ ['\n']).length+1 := by
    have hpretty := pretty_length 0 v h
    have hseparators := separators_length (v.pretty 0)
    rw [List.length_append]
    omega
  have hread := (reads_back ((escapeSeparators (v.pretty 0) ++ ['\n']).length+1)).value v 0 ['\n'] h
    hfuel (EndsNumber.cons (by decide) _)
  rw [Json.read, String.toList_ofList, hread]
  rfl

end Values

section Reading
variable {numbers : Numbers}

/-- Whatever is read has its numbers as they are written. -/
structure ReadsKept (numbers : Numbers) (fuel : ℕ) : Prop where
  value : ∀ text v rest, readValue numbers fuel text = some (v,rest) → v.Kept numbers
  items : ∀ text items rest, readItems numbers fuel text = some (items,rest) →
    KeptItems numbers items
  entries : ∀ text entries rest, readEntries numbers fuel text = some (entries,rest) →
    KeptEntries numbers entries

theorem readAtom_kept {text : List Char} {v : Json} {rest : List Char}
    (h : readAtom numbers text = some (v,rest)) : v.Kept numbers := by
  unfold readAtom at h
  split at h
  · cases h
    trivial
  · cases h
    trivial
  · cases h
    trivial
  · obtain ⟨t,ht,heq⟩ := Option.map_eq_some_iff.mp h
    cases heq
    exact numbers.again _ _ ht

theorem ReadsKept.step {fuel : ℕ} (h : ReadsKept numbers fuel) : ReadsKept numbers (fuel+1) where
  value text v rest hread := by
    rw [readValue] at hread
    split at hread
    · obtain ⟨s,-,heq⟩ := Option.bind_eq_some_iff.mp hread
      cases heq
      trivial
    · split at hread
      · cases hread
        trivial
      · obtain ⟨item,hitem,hread⟩ := Option.bind_eq_some_iff.mp hread
        obtain ⟨items,hitems,heq⟩ := Option.bind_eq_some_iff.mp hread
        cases heq
        exact ⟨h.value _ _ _ hitem,h.items _ _ _ hitems⟩
    · split at hread
      · cases hread
        trivial
      · obtain ⟨key,-,hread⟩ := Option.bind_eq_some_iff.mp hread
        obtain ⟨value,hvalue,hread⟩ := Option.bind_eq_some_iff.mp hread
        obtain ⟨entries,hentries,heq⟩ := Option.bind_eq_some_iff.mp hread
        cases heq
        exact ⟨h.value _ _ _ hvalue,h.entries _ _ _ hentries⟩
    · exact readAtom_kept hread
  items text items rest hread := by
    rw [readItems] at hread
    split at hread
    · cases hread
      trivial
    · obtain ⟨item,hitem,hread⟩ := Option.bind_eq_some_iff.mp hread
      obtain ⟨items,hitems,heq⟩ := Option.bind_eq_some_iff.mp hread
      cases heq
      exact ⟨h.value _ _ _ hitem,h.items _ _ _ hitems⟩
    · cases hread
  entries text entries rest hread := by
    rw [readEntries] at hread
    split at hread
    · cases hread
      trivial
    · obtain ⟨key,-,hread⟩ := Option.bind_eq_some_iff.mp hread
      obtain ⟨value,hvalue,hread⟩ := Option.bind_eq_some_iff.mp hread
      obtain ⟨entries,hentries,heq⟩ := Option.bind_eq_some_iff.mp hread
      cases heq
      exact ⟨h.value _ _ _ hvalue,h.entries _ _ _ hentries⟩
    · cases hread

theorem reads_kept : ∀ fuel, ReadsKept numbers fuel
  | 0 => ⟨nofun,nofun,nofun⟩
  | fuel+1 => (reads_kept fuel).step

theorem read_kept {text : String} {v : Json} (h : Json.read numbers text = some v) :
    v.Kept numbers := by
  unfold Json.read at h
  split at h
  · next value rest hread =>
    split at h
    · cases h
      exact (reads_kept _).value _ _ _ hread
    · cases h
  · cases h

end Reading

/-- Whole numbers below 2^64, as the only ones. -/
def wholeNumbers : Numbers where
  read s :=
    let n := Nat.ofDigitChars 10 s.toList 0
    if n < 2^64 ∧ toString n = s then some s else none
  token s t h := by
    dsimp only at h
    split at h
    · next hs =>
      cases h
      have hlist : s.toList = Nat.toDigits 10 (Nat.ofDigitChars 10 s.toList 0) := by
        conv_lhs => rw [← hs.2]
        exact Nat.toList_repr
      rw [hlist]
      refine ⟨Nat.toDigits_ne_nil,List.all_eq_true.mpr fun c hc => ?_⟩
      have hdigit : c.isDigit = true := Nat.isDigit_of_mem_toDigits (by decide) (by decide) hc
      rw [numberChar, hdigit, Bool.true_or]
    · cases h
  again s t h := by
    dsimp only at h ⊢
    split at h
    · next hs =>
      cases h
      rw [if_pos hs]
    · cases h
  whole n hn := by
    have hlist : (toString n).toList = Nat.toDigits 10 n := Nat.toList_repr
    dsimp only
    rw [hlist, Nat.ofDigitChars_ten_toDigits, if_pos ⟨hn,rfl⟩]

end BuildFiji.Bzlmod
