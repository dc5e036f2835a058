import BuildFiji.Graph.CommandLine

/-!
# Words as a shell reads them

A parameter file lists the words of a command line, each quoted as a shell would need.
The reader goes over a text once: whitespace separates, single quotes keep everything,
and a backslash escapes the next character outside quotes and between double ones.
-/

set_option autoImplicit false
set_option linter.all false

namespace BuildFiji.Graph

open BuildFiji.Text

inductive TokenizeError where
  | unterminatedQuotation
  | backslashAtEnd
  deriving DecidableEq

def TokenizeError.message : TokenizeError → String
  | unterminatedQuotation => "unterminated quotation"
  | backslashAtEnd => "backslash at end of string"

/-- Which loop of the reader is at the next character. -/
inductive Quoting where
  | bare
  | escaped
  | single
  | double
  | doubleEscaped
  deriving DecidableEq

structure Tokenizing where
  words : List String
  current : List Char
  inWord : Bool
  quoting : Quoting

namespace Tokenizing

def start : Tokenizing := ⟨[],[],false,.bare⟩

def push (s : Tokenizing) (c : Char) : Tokenizing := { s with current := s.current ++ [c] }

/-- The word that is being read is over. -/
def take (s : Tokenizing) : Tokenizing :=
  { s with words := s.words ++ [.ofList s.current], current := [], inWord := false }

def next (s : Tokenizing) (c : Char) : Tokenizing :=
  match s.quoting with
  | .bare =>
    if isWhitespace c then if s.inWord then s.take else s
    else if c = '\x27' then { s with inWord := true, quoting := .single }
    else if c = '"' then { s with inWord := true, quoting := .double }
    else if c = '\\' then { s with inWord := true, quoting := .escaped }
    else { s.push c with inWord := true }
  | .escaped => { s.push c with quoting := .bare }
  | .single => if c = '\x27' then { s with quoting := .bare } else s.push c
  | .double =>
    if c = '"' then { s with quoting := .bare }
    else if c = '\\' then { s with quoting := .doubleEscaped }
    else s.push c
  | .doubleEscaped => { s.push c with quoting := .double }

def finish (s : Tokenizing) : Except TokenizeError (List String) :=
  match s.quoting with
  | .bare => .ok (if s.inWord then s.take.words else s.words)
  | .escaped => .error .backslashAtEnd
  | _ => .error .unterminatedQuotation

end Tokenizing

def tokenize (text : String) : Except TokenizeError (List String) :=
  (text.toList.foldl Tokenizing.next .start).finish

def isPlain (c : Char) : Bool := c.isAlphanum || "-_./:,+@%".toList.contains c

/-- `arg` as a shell would need it written. -/
def shellQuote (arg : String) : String :=
  if arg ≠ "" ∧ arg.toList.all isPlain then arg
  else .ofList ('\x27' :: (arg.toList.flatMap fun c => if c = '\x27' then "'\\''".toList else [c]) ++ ['\x27'])

def paramFileContents (items : List String) (format : ParamFormat) : String :=
  items.foldl (fun out item =>
    match format with
    | .shell => out ++ shellQuote item ++ "\n"
    -- The lines are made a call at a time, before this.
    | .multiline | .flagPerLine => out ++ item ++ "\n") ""

theorem isPlain_range {c : Char} (hc : isPlain c = true) : 37 ≤ c.toNat ∧ c.toNat ≤ 122 := by
  rw [isPlain, Bool.or_eq_true] at hc
  rcases hc with hc | hc
  · simp only [Char.isAlphanum, Char.isAlpha, Char.isUpper, Char.isLower, Char.isDigit,
      Bool.or_eq_true, Bool.and_eq_true, decide_eq_true_eq, ge_iff_le, UInt32.le_iff_toNat_le] at hc
    have hdigit : 'A'.val.toNat = 65 ∧ 'Z'.val.toNat = 90 ∧ 'a'.val.toNat = 97 ∧
        'z'.val.toNat = 122 ∧ '0'.val.toNat = 48 ∧ '9'.val.toNat = 57 := ⟨rfl,rfl,rfl,rfl,rfl,rfl⟩
    rw [Char.toNat]
    omega
  · have hall : ∀ d ∈ "-_./:,+@%".toList, 37 ≤ d.toNat ∧ d.toNat ≤ 122 := by simp
    exact hall c (List.contains_iff_mem.mp hc)

namespace Tokenizing

variable {words : List String} {current word : List Char} {inWord : Bool}

/-- A character that needs no quotes is none that the reader takes for something else. -/
theorem next_plain {c : Char} (hc : isPlain c = true) :
    next ⟨words,current,inWord,.bare⟩ c = ⟨words,current ++ [c],true,.bare⟩ := by
  obtain ⟨hlow,hhigh⟩ := isPlain_range hc
  have hspace : isWhitespace c = false := by
    simp only [isWhitespace, Bool.or_eq_false_iff, Bool.and_eq_false_iff, decide_eq_false_iff_not]
    omega
  have hne : ∀ d, isPlain d = false → c ≠ d := by
    rintro d hd rfl
    rw [hc] at hd
    cases hd
  rw [next]
  simp only [hspace, Bool.false_eq_true, if_false, hne '\x27' (by decide), hne '"' (by decide),
    hne '\\' (by decide)]
  rfl

theorem foldl_plain (hword : ∀ c ∈ word, isPlain c = true) :
    word.foldl next ⟨words,current,true,.bare⟩ = ⟨words,current ++ word,true,.bare⟩ := by
  induction word generalizing current with
  | nil => simp
  | cons c word ih =>
    rw [List.foldl_cons, next_plain (hword c List.mem_cons_self),
      ih fun d hd => hword d (List.mem_cons_of_mem _ hd)]
    simp

/-- Between the single quotes a quote is written so that they are left and entered again. -/
theorem foldl_single :
    (word.flatMap fun c => if c = '\x27' then "'\\''".toList else [c]).foldl next
      ⟨words,current,true,.single⟩ = ⟨words,current ++ word,true,.single⟩ := by
  induction word generalizing current with
  | nil => simp
  | cons c word ih =>
    rw [List.flatMap_cons, List.foldl_append]
    have hread : (if c = '\x27' then "'\\''".toList else [c]).foldl next
        ⟨words,current,true,.single⟩ = ⟨words,current ++ [c],true,.single⟩ := by
      by_cases hc : c = '\x27'
      · rw [if_pos hc, hc]
        rfl
      · rw [if_neg hc, List.foldl_cons, List.foldl_nil, next]
        exact if_neg hc
    rw [hread, ih]
    simp

theorem foldl_shellQuote (arg : String) :
    (shellQuote arg).toList.foldl next ⟨words,[],false,.bare⟩ = ⟨words,arg.toList,true,.bare⟩ := by
  unfold shellQuote
  split
  · next h =>
    obtain ⟨c,word,hword⟩ := List.exists_cons_of_ne_nil fun hnil => h.1 (String.toList_eq_nil_iff.mp hnil)
    have hplain : ∀ d ∈ c::word, isPlain d = true := by
      rw [← hword]
      exact List.all_eq_true.mp h.2
    rw [hword, List.foldl_cons, next_plain (hplain c List.mem_cons_self),
      foldl_plain fun d hd => hplain d (List.mem_cons_of_mem _ hd)]
    rfl
  · rw [String.toList_ofList, List.cons_append, List.foldl_cons, List.foldl_append]
    have hopen : next ⟨words,[],false,.bare⟩ '\x27' = ⟨words,[],true,.single⟩ := rfl
    rw [hopen, foldl_single]
    rfl

/-- A line of the file is read as its word. -/
theorem foldl_line (arg : String) :
    (shellQuote arg ++ "\n").toList.foldl next ⟨words,[],false,.bare⟩ =
      ⟨words ++ [arg],[],false,.bare⟩ := by
  rw [String.toList_append, List.foldl_append, foldl_shellQuote]
  show take ⟨words,arg.toList,true,.bare⟩ = _
  rw [take, String.ofList_toList]

end Tokenizing

theorem tokenize_paramFileContents (items : List String) :
    tokenize (paramFileContents items .shell) = .ok items ∧
      ∀ arg, tokenize (shellQuote arg) = .ok [arg] := by
  constructor
  · have hread : ∀ (out : String) (words : List String),
        out.toList.foldl Tokenizing.next .start = ⟨words,[],false,.bare⟩ →
        (items.foldl (fun out item => out ++ shellQuote item ++ "\n") out).toList.foldl
          Tokenizing.next .start = ⟨words ++ items,[],false,.bare⟩ := by
      induction items with
      | nil =>
        intro out words hout
        rw [List.foldl_nil, hout, List.append_nil]
      | cons item items ih =>
        intro out words hout
        rw [List.foldl_cons, ih _ (words ++ [item])]
        · rw [List.append_assoc, List.singleton_append]
        · rw [String.append_assoc, String.toList_append, List.foldl_append, hout,
            Tokenizing.foldl_line]
    have hall := hread "" [] rfl
    show Tokenizing.finish ((items.foldl (fun out item => out ++ shellQuote item ++ "\n") "").toList.foldl
      Tokenizing.next .start) = _
    rw [hall]
    rfl
  · intro arg
    rw [tokenize, Tokenizing.start, Tokenizing.foldl_shellQuote]
    show Except.ok (Tokenizing.take ⟨[],arg.toList,true,.bare⟩).words = _
    rw [Tokenizing.take, String.ofList_toList]
    rfl

example : tokenize "a 'b  c'\"d\\\"e\" \\ f" = .ok ["a","b  cd\"e"," f"] := by decide

example : tokenize "a 'b" = .error .unterminatedQuotation := by decide

end BuildFiji.Graph
