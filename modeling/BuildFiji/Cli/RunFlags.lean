import BuildFiji.Graph.ShellWords
import BuildFiji.Lib.Shell
import Mathlib

/-!
# The flags of `run`

A value of `--run_under` is a target with its options or a command line. Words that are
given to a shell are escaped: left as they are if every character is safe, and in single
quotes otherwise.
-/

set_option autoImplicit false
set_option linter.all false

namespace BuildFiji.RunFlags

open BuildFiji.Text (isWhitespace)

/-- From a character on, with the words that were read, the word that is being read and the
quote that is open. -/
def tokenizeFrom : List String → List Char → Bool → Option Char → List Char →
    Except String (List String)
  | words, word, inWord, none, [] => .ok (if inWord then words ++ [.ofList word] else words)
  | _, _, _, some _, [] => .error "unterminated quotation"
  | words, word, inWord, some q, c::rest =>
    if c = q then tokenizeFrom words word inWord none rest
    else if q = '"' ∧ c = '\\' then
      match rest with
      | n::rest =>
        if n = '"' ∨ n = '\\' then tokenizeFrom words (word ++ [n]) inWord (some q) rest
        else tokenizeFrom words (word ++ ['\\',n]) inWord (some q) rest
      | [] => .error "unterminated quotation"
    else tokenizeFrom words (word ++ [c]) inWord (some q) rest
  | words, word, inWord, none, c::rest =>
    if c = '\x27' ∨ c = '"' then tokenizeFrom words word true (some c) rest
    else if c = '\\' then
      match rest with
      | n::rest => tokenizeFrom words (word ++ [n]) true none rest
      | [] => .error "backslash at end of string"
    else if isWhitespace c then
      if inWord then tokenizeFrom (words ++ [.ofList word]) [] false none rest
      else tokenizeFrom words word inWord none rest
    else tokenizeFrom words (word ++ [c]) true none rest

def tokenize (text : String) : Except String (List String) :=
  tokenizeFrom [] [] false none text.toList

def isSafe (c : Char) : Bool := c.isAlphanum || "_@%+=:,./-".toList.contains c

/-- A word as the shell reads it back. -/
def shellEscape (word : String) : String :=
  if word ≠ "" ∧ word.toList.all isSafe then word
  else .ofList ('\x27' :: (word.toList.flatMap fun c => if c = '\x27' then "'\\''".toList else [c]) ++ ['\x27'])

inductive RunUnder where
  | command (line : String)
  | target (label : String) (options : List String)
deriving DecidableEq

def parseRunUnder (value : String) : Except String RunUnder :=
  match tokenize value with
  | .error e => .error ("Not a valid command prefix " ++ e)
  | .ok [] => .error "Empty command"
  | .ok (first::options) =>
    if "//".toList.isPrefixOf first.toList ∨ first.toList.head? = some '@' then .ok (.target first options)
    else .ok (.command value)

end BuildFiji.RunFlags

/-!
## What `run` runs

The program of the target is run as words, or after a command on a line that a shell is given,
or after the words of another target. A script that does the same is written instead if one is
asked for.
-/

namespace BuildFiji.RunCommand

open BuildFiji.RunFlags

/-- What the build has given, with the program that stands for the target of `--run_under`. -/
structure Built where
  program : String
  cwd : String
  programArgs : List String
  runUnder : Option RunUnder
  underProgram : String
  execroot : String
  buildId : String
  workingDirectory : String
  workspace : String

/-- What the program does not inherit. -/
def unset : List String :=
  ["JAVA_RUNFILES","RUNFILES_DIR","RUNFILES_MANIFEST_FILE","RUNFILES_MANIFEST_ONLY","TEST_SRCDIR"]

namespace Built

variable (b : Built)

def escaped (words : List String) : String := " ".intercalate (words.map shellEscape)

def argv : List String :=
  match b.runUnder with
  | none => [b.program]
  | some (.command command) => ["/bin/bash","-c",command ++ " " ++ escaped (b.program::b.programArgs)]
  | some (.target _ options) => b.underProgram::options ++ [b.program]

def isCommand : Bool :=
  match b.runUnder with
  | some (.command _) => true
  | _ => false

/-- The words that are run when no script is asked for. -/
def executed : List String := if b.isCommand then b.argv else b.argv ++ b.programArgs

def env : List (String × String) :=
  [("BUILD_EXECROOT",b.execroot),("BUILD_ID",b.buildId),("BUILD_WORKING_DIRECTORY",b.workingDirectory),
    ("BUILD_WORKSPACE_DIRECTORY",b.workspace)]

/-- A variable as the program has it when no script is asked for. -/
def value (inherited : String → Option String) (name : String) : Option String :=
  match b.env.find? fun e => e.1 = name with
  | some e => some e.2
  | none => if name ∈ unset then none else if name = "PWD" then some b.cwd else inherited name

def line (words : List String) : String := escaped (words ++ b.programArgs)

def command : String :=
  match b.runUnder with
  | none => b.line b.argv
  | some (.command _) => escaped b.argv
  | some (.target _ _) => "/bin/bash -c " ++ shellEscape (b.line b.argv)

def script : String :=
  "#!/bin/bash\ncd " ++ shellEscape b.cwd ++ " && \\\n  exec env \\\n" ++
    String.join (unset.map fun name => "    -u " ++ name ++ " \\\n") ++
    String.join (b.env.map fun e => "    " ++ e.1 ++ "=" ++ shellEscape e.2 ++ " \\\n") ++
    ("  " ++ b.command ++ " \"$@\"")

end Built

end BuildFiji.RunCommand

/-!
## Two readers of shell words

Both readers split a text at the same places. They differ in one character only: a
backslash between double quotes that escapes neither a quote nor a backslash is kept by
the one and dropped by the other.
-/

namespace BuildFiji.RunFlags

open BuildFiji.Graph
open BuildFiji.Text (isWhitespace)

section Reading

/-- Which part of a text the character after this one is in. -/
def quotingStep : Quoting → Char → Quoting
  | .bare, c => if c = '\x27' then .single else if c = '"' then .double else if c = '\\' then .escaped else .bare
  | .escaped, _ => .bare
  | .single, c => if c = '\x27' then .bare else .single
  | .double, c => if c = '"' then .bare else if c = '\\' then .doubleEscaped else .double
  | .doubleEscaped, _ => .double

/-- A backslash between double quotes that escapes neither a quote nor a backslash. -/
def keeps (m : Quoting) (c : Char) : Bool := m = .doubleEscaped ∧ c ≠ '"' ∧ c ≠ '\\'

def kept : Quoting → List Char → ℕ
  | _, [] => 0
  | m, c::text => (if keeps m c then 1 else 0) + kept (quotingStep m c) text

def runNext (s : Tokenizing) (c : Char) : Tokenizing :=
  if keeps s.quoting c then { (s.push '\\').push c with quoting := .double } else s.next c

def quotingOf : Option Char → Quoting
  | none => .bare
  | some q => if q = '"' then .double else .single

theorem whitespace_plain {c : Char} (h : isWhitespace c = true) : c ≠ '\x27' ∧ c ≠ '"' ∧ c ≠ '\\' := by
  refine ⟨?_,?_,?_⟩ <;>
  · rintro rfl
    revert h
    decide

theorem next_quoting (s : Tokenizing) (c : Char) : (s.next c).quoting = quotingStep s.quoting c := by
  obtain ⟨words,current,inWord,q⟩ := s
  cases q with
  | bare =>
    simp only [Tokenizing.next, quotingStep]
    by_cases hspace : isWhitespace c = true
    · obtain ⟨hsingle,hdouble,hback⟩ := whitespace_plain hspace
      rw [if_pos hspace, if_neg hsingle, if_neg hdouble, if_neg hback]
      cases inWord <;> rfl
    · rw [if_neg hspace]
      split_ifs <;> rfl
  | escaped => rfl
  | single =>
    simp only [Tokenizing.next, quotingStep]
    split_ifs <;> rfl
  | double =>
    simp only [Tokenizing.next, quotingStep]
    split_ifs <;> rfl
  | doubleEscaped => rfl

theorem runNext_quoting (s : Tokenizing) (c : Char) : (runNext s c).quoting = quotingStep s.quoting c := by
  unfold runNext
  split
  · next h =>
    have hm : s.quoting = .doubleEscaped := (of_decide_eq_true h).1
    rw [hm]
    rfl
  · exact next_quoting s c

theorem fold_quoting {next : Tokenizing → Char → Tokenizing}
    (h : ∀ s c, (next s c).quoting = quotingStep s.quoting c) (text : List Char) (s : Tokenizing) :
    (text.foldl next s).quoting = text.foldl quotingStep s.quoting := by
  induction text generalizing s with
  | nil => rfl
  | cons c text ih => rw [List.foldl_cons, List.foldl_cons, ih, h]

/-- The reader with its look at the next character goes as the one that has a state for it. -/
theorem tokenizeFrom_eq {quote : Option Char} (hquote : ∀ q, quote = some q → q = '\x27' ∨ q = '"')
    (words : List String) (word : List Char) (inWord : Bool) (text : List Char) :
    tokenizeFrom words word inWord quote text =
      (text.foldl runNext ⟨words,word,inWord,quotingOf quote⟩).finish.mapError TokenizeError.message := by
  have hsteps : ∀ (read rest : List Char) {s s' : Tokenizing}, read.foldl runNext s = s' →
      (rest.foldl runNext s').finish.mapError TokenizeError.message =
        ((read ++ rest).foldl runNext s).finish.mapError TokenizeError.message := by
    rintro read rest s s' rfl
    rw [List.foldl_append]
  induction words, word, inWord, quote, text using tokenizeFrom.induct with
  | case1 words word inWord =>
    rw [tokenizeFrom]
    cases inWord <;> rfl
  | case2 words word inWord q =>
    rw [tokenizeFrom]
    rcases hquote q rfl with rfl | rfl <;> rfl
  | case3 words word inWord c rest ih =>
    rw [tokenizeFrom.eq_def]
    dsimp only
    rw [if_pos rfl, ih nofun]
    apply hsteps [c] rest
    rcases hquote c rfl with rfl | rfl <;> rfl
  | case4 words word inWord q c hq hback n rest hn ih =>
    rw [tokenizeFrom.eq_def]
    dsimp only
    rw [if_neg hq, if_pos hback, if_pos hn, ih hquote]
    apply hsteps [c,n] rest
    obtain ⟨rfl,rfl⟩ := hback
    rcases hn with rfl | rfl <;> rfl
  | case5 words word inWord q c hq hback n rest hn ih =>
    rw [tokenizeFrom.eq_def]
    dsimp only
    rw [if_neg hq, if_pos hback, if_neg hn, ih hquote]
    apply hsteps [c,n] rest
    obtain ⟨rfl,rfl⟩ := hback
    push Not at hn
    have hkeeps : keeps .doubleEscaped n = true := by simp [keeps, hn.1, hn.2]
    rw [List.foldl_cons, List.foldl_cons, List.foldl_nil]
    have hstep : runNext ⟨words,word,inWord,quotingOf (some '"')⟩ '\\' = ⟨words,word,inWord,.doubleEscaped⟩ := rfl
    rw [hstep, runNext, if_pos hkeeps]
    simp [Tokenizing.push, quotingOf]
  | case6 words word inWord q c hq hback =>
    rw [tokenizeFrom.eq_def]
    dsimp only
    rw [if_neg hq, if_pos hback]
    obtain ⟨rfl,rfl⟩ := hback
    rfl
  | case7 words word inWord q c rest hq hback ih =>
    rw [tokenizeFrom.eq_def]
    dsimp only
    rw [if_neg hq, if_neg hback, ih hquote]
    apply hsteps [c] rest
    rcases hquote q rfl with rfl | rfl
    · simp [runNext, keeps, quotingOf, Tokenizing.next, hq, Tokenizing.push]
    · have hc : c ≠ '\\' := fun h => hback ⟨rfl,h⟩
      simp [runNext, keeps, quotingOf, Tokenizing.next, hq, hc, Tokenizing.push]
  | case8 words word inWord c rest hc ih =>
    rw [tokenizeFrom.eq_def]
    dsimp only
    rw [if_pos hc, ih fun q hq => by cases hq; exact hc]
    apply hsteps [c] rest
    rcases hc with rfl | rfl <;> rfl
  | case9 words word inWord n rest hc ih =>
    rw [tokenizeFrom.eq_def]
    dsimp only
    rw [if_neg hc, if_pos rfl, ih nofun]
    exact hsteps ['\\',n] rest rfl
  | case10 words word inWord hc => rfl
  | case11 words word c rest hc hback hspace ih =>
    rw [tokenizeFrom.eq_def]
    dsimp only
    rw [if_neg hc, if_neg hback, if_pos hspace, if_pos rfl, ih nofun]
    apply hsteps [c] rest
    simp [runNext, keeps, quotingOf, Tokenizing.next, hspace, Tokenizing.take]
  | case12 words word inWord c rest hc hback hspace hin ih =>
    rw [tokenizeFrom.eq_def]
    dsimp only
    rw [if_neg hc, if_neg hback, if_pos hspace, if_neg hin, ih nofun]
    apply hsteps [c] rest
    simp [runNext, keeps, quotingOf, Tokenizing.next, hspace, hin]
  | case13 words word inWord c rest hc hback hspace ih =>
    rw [tokenizeFrom.eq_def]
    dsimp only
    rw [if_neg hc, if_neg hback, if_neg hspace, ih nofun]
    apply hsteps [c] rest
    push Not at hc
    simp [runNext, keeps, quotingOf, Tokenizing.next, hspace, hc.1, hc.2, hback, Tokenizing.push]

/-- Where no backslash is kept that the other drops, both go through the same states. -/
theorem fold_same {text : List Char} {s : Tokenizing} (h : kept s.quoting text = 0) :
    text.foldl runNext s = text.foldl Tokenizing.next s := by
  induction text generalizing s with
  | nil => rfl
  | cons c text ih =>
    rw [kept] at h
    have hkeeps : ¬keeps s.quoting c = true := by
      intro hk
      rw [if_pos hk] at h
      omega
    have hstep : runNext s c = s.next c := by rw [runNext, if_neg hkeeps]
    rw [List.foldl_cons, List.foldl_cons, hstep]
    apply ih
    rw [next_quoting]
    omega

def total (s : Tokenizing) : ℕ := (s.words.map String.length).sum + s.current.length

/-- Two states at one place of a text, the first with so many characters more. -/
structure Ahead (s s' : Tokenizing) (n : ℕ) : Prop where
  quoting : s.quoting = s'.quoting
  inWord : s.inWord = s'.inWord
  none : s.inWord = false → s.current = []
  none' : s'.inWord = false → s'.current = []
  quoted : s.quoting ≠ .bare → s.inWord = true
  total_eq : total s = total s' + n

theorem total_take (s : Tokenizing) : total s.take = total s := by
  simp [total, Tokenizing.take]

theorem Ahead.next {s s' : Tokenizing} {n : ℕ} (h : Ahead s s' n) (c : Char) :
    Ahead (runNext s c) (s'.next c) (n + if keeps s.quoting c then 1 else 0) := by
  obtain ⟨words,current,inWord,q⟩ := s
  obtain ⟨words',current',inWord',q'⟩ := s'
  obtain ⟨hq,hin,hnone,hnone',hquoted,hsize⟩ := h
  cases hq
  cases hin
  simp only [total] at hsize hnone hnone' hquoted
  by_cases hkeeps : keeps q c = true
  · have hm : q = .doubleEscaped := (of_decide_eq_true hkeeps).1
    subst hm
    have hin := hquoted nofun
    subst hin
    rw [runNext, if_pos hkeeps, if_pos hkeeps]
    refine ⟨rfl,rfl,nofun,nofun,fun _ => rfl,?_⟩
    simp only [total, Tokenizing.push, Tokenizing.next, List.length_append, List.length_singleton]
    omega
  · rw [runNext, if_neg hkeeps, if_neg hkeeps]
    cases q with
    | bare =>
      simp only [Tokenizing.next]
      split_ifs <;> constructor <;> simp_all [total, Tokenizing.push, Tokenizing.take] <;> omega
    | escaped => constructor <;> simp_all [total, Tokenizing.push, Tokenizing.next] <;> omega
    | single =>
      simp only [Tokenizing.next]
      split_ifs <;> constructor <;> simp_all [total, Tokenizing.push] <;> omega
    | double =>
      simp only [Tokenizing.next]
      split_ifs <;> constructor <;> simp_all [total, Tokenizing.push] <;> omega
    | doubleEscaped => constructor <;> simp_all [total, Tokenizing.push, Tokenizing.next] <;> omega

theorem Ahead.fold {s s' : Tokenizing} {n : ℕ} (h : Ahead s s' n) (text : List Char) :
    Ahead (text.foldl runNext s) (text.foldl Tokenizing.next s') (n + kept s.quoting text) := by
  induction text generalizing s s' n with
  | nil => exact h
  | cons c text ih =>
    rw [List.foldl_cons, List.foldl_cons, kept]
    have hrest := ih (h.next c)
    rwa [runNext_quoting, Nat.add_assoc] at hrest

/-- The words of a text that is over. -/
theorem finish_bare {s : Tokenizing} (h : s.quoting = .bare) (hnone : s.inWord = false → s.current = []) :
    ∃ words, s.finish = .ok words ∧ (words.map String.length).sum = total s := by
  rw [Tokenizing.finish, h]
  cases hin : s.inWord with
  | false => exact ⟨s.words,rfl,by rw [total, hnone hin]; rfl⟩
  | true =>
    refine ⟨s.take.words,rfl,?_⟩
    rw [← total_take]
    rfl

theorem finish_open {s s' : Tokenizing} (h : s.quoting ≠ .bare) (hsame : s.quoting = s'.quoting) :
    s.finish = s'.finish := by
  rw [Tokenizing.finish, Tokenizing.finish, ← hsame]
  cases hq : s.quoting with
  | bare => exact absurd hq h
  | _ => rfl

theorem tokenize_fold (text : String) :
    tokenize text = (text.toList.foldl runNext .start).finish.mapError TokenizeError.message :=
  tokenizeFrom_eq (fun q h => by cases h) [] [] false text.toList

theorem ahead_fold (text : String) : Ahead (text.toList.foldl runNext .start)
    (text.toList.foldl Tokenizing.next .start) (kept .bare text.toList) := by
  have hstart : Ahead .start .start 0 :=
    ⟨rfl,rfl,fun _ => rfl,fun _ => rfl,fun h => absurd rfl h,rfl⟩
  have hfold := hstart.fold text.toList
  rwa [Nat.zero_add] at hfold

theorem fold_quoting_start (text : String) :
    (text.toList.foldl runNext .start).quoting = text.toList.foldl quotingStep .bare :=
  fold_quoting runNext_quoting text.toList .start

/-- Both readers read the same words or refuse the text alike when the text ends between quotes
or no backslash is kept by one and dropped by the other. -/
theorem tokenize_same {text : String}
    (hkept : text.toList.foldl quotingStep .bare = .bare → kept .bare text.toList = 0) :
    tokenize text = (Graph.tokenize text).mapError TokenizeError.message := by
  rw [tokenize_fold, Graph.tokenize]
  by_cases hbare : text.toList.foldl quotingStep .bare = .bare
  · rw [fold_same (hkept hbare)]
  · rw [finish_open (by rwa [fold_quoting_start]) (ahead_fold text).quoting]

theorem kept_of_same {text : String} (hsame : ∀ words, tokenize text = .ok words ↔ Graph.tokenize text = .ok words)
    (hbare : text.toList.foldl quotingStep .bare = .bare) : kept .bare text.toList = 0 := by
  have hahead := ahead_fold text
  rw [← fold_quoting_start] at hbare
  obtain ⟨words,hwords,hlong⟩ := finish_bare hbare hahead.none
  obtain ⟨words',hwords',hlong'⟩ := finish_bare (hahead.quoting ▸ hbare) hahead.none'
  have hrun : tokenize text = .ok words := by rw [tokenize_fold, hwords]; rfl
  have heq : words = words' := Except.ok.inj (((hsame words).mp hrun).symm.trans hwords')
  have htotal := hahead.total_eq
  rw [← hlong, ← hlong', heq] at htotal
  omega

end Reading

section Escaping

theorem isSafe_iff (c : Char) : isSafe c = true ↔ isPlain c = true ∨ c = '=' := by
  simp [isSafe, isPlain]
  tauto

variable {words : List String} {current word : List Char} {inWord : Bool}

theorem next_safe {c : Char} (hc : isSafe c = true) :
    Tokenizing.next ⟨words,current,inWord,.bare⟩ c = ⟨words,current ++ [c],true,.bare⟩ := by
  rcases (isSafe_iff c).mp hc with hc | rfl
  · exact Tokenizing.next_plain hc
  · rfl

theorem fold_safe (hword : ∀ c ∈ word, isSafe c = true) :
    word.foldl Tokenizing.next ⟨words,current,true,.bare⟩ = ⟨words,current ++ word,true,.bare⟩ := by
  induction word generalizing current with
  | nil => simp
  | cons c word ih =>
    rw [List.foldl_cons, next_safe (hword c List.mem_cons_self),
      ih fun d hd => hword d (List.mem_cons_of_mem _ hd)]
    simp

theorem fold_shellEscape (arg : String) :
    (shellEscape arg).toList.foldl Tokenizing.next ⟨words,[],false,.bare⟩ = ⟨words,arg.toList,true,.bare⟩ := by
  unfold shellEscape
  split
  · next h =>
    obtain ⟨c,word,hword⟩ := List.exists_cons_of_ne_nil fun hnil => h.1 (String.toList_eq_nil_iff.mp hnil)
    have hsafe : ∀ d ∈ c::word, isSafe d = true := by
      rw [← hword]
      exact List.all_eq_true.mp h.2
    rw [hword, List.foldl_cons, next_safe (hsafe c List.mem_cons_self),
      fold_safe fun d hd => hsafe d (List.mem_cons_of_mem _ hd)]
    rfl
  · rw [String.toList_ofList, List.cons_append, List.foldl_cons, List.foldl_append]
    have hopen : Tokenizing.next ⟨words,[],false,.bare⟩ '\x27' = ⟨words,[],true,.single⟩ := rfl
    rw [hopen, Tokenizing.foldl_single]
    rfl

theorem kept_append (m : Quoting) (a b : List Char) :
    kept m (a ++ b) = kept m a + kept (a.foldl quotingStep m) b := by
  induction a generalizing m with
  | nil => simp [kept]
  | cons c a ih => rw [List.cons_append, kept, kept, ih, List.foldl_cons, Nat.add_assoc]

theorem kept_safe (hword : ∀ c ∈ word, isSafe c = true) :
    word.foldl quotingStep .bare = .bare ∧ kept .bare word = 0 := by
  induction word with
  | nil => exact ⟨rfl,rfl⟩
  | cons c word ih =>
    have hstep : quotingStep .bare c = .bare := by
      have hnext := next_quoting ⟨[],[],false,.bare⟩ c
      rw [next_safe (hword c List.mem_cons_self)] at hnext
      exact hnext.symm
    obtain ⟨hfold,hkept⟩ := ih fun d hd => hword d (List.mem_cons_of_mem _ hd)
    rw [List.foldl_cons, hstep, kept, hstep, hkept]
    exact ⟨hfold,rfl⟩

theorem kept_single (word : List Char) : let text := word.flatMap fun c => if c = '\x27' then "'\\''".toList else [c]
    text.foldl quotingStep .single = .single ∧ kept .single text = 0 := by
  intro text
  induction word with
  | nil => exact ⟨rfl,rfl⟩
  | cons c word ih =>
    have hstep : ∀ piece : List Char, piece = (if c = '\x27' then "'\\''".toList else [c]) →
        piece.foldl quotingStep .single = .single ∧ kept .single piece = 0 := by
      rintro piece rfl
      split
      · exact ⟨rfl,rfl⟩
      · next hc =>
        have hsingle : quotingStep .single c = .single := if_neg hc
        rw [List.foldl_cons, hsingle]
        exact ⟨rfl,rfl⟩
    obtain ⟨hfold,hkept⟩ := hstep _ rfl
    show (List.flatMap _ (c::word)).foldl _ _ = _ ∧ kept _ (List.flatMap _ (c::word)) = 0
    rw [List.flatMap_cons, List.foldl_append, kept_append, hfold, hkept, Nat.zero_add]
    exact ih

/-- An escaped word has nothing between double quotes. -/
theorem kept_shellEscape (arg : String) :
    (shellEscape arg).toList.foldl quotingStep .bare = .bare ∧ kept .bare (shellEscape arg).toList = 0 := by
  unfold shellEscape
  split
  · next h => exact kept_safe (List.all_eq_true.mp h.2)
  · obtain ⟨hfold,hkept⟩ := kept_single arg.toList
    rw [String.toList_ofList, List.cons_append, List.foldl_cons, List.foldl_append, kept, kept_append]
    have hopen : quotingStep .bare '\x27' = .single := rfl
    rw [hopen, hfold, hkept]
    exact ⟨rfl,rfl⟩

/-- Words that are escaped, with spaces between them. -/
def escapedLine (args : List String) : List Char :=
  [' '].intercalate (args.map fun arg => (shellEscape arg).toList)

theorem escapedLine_cons_cons (arg arg' : String) (args : List String) :
    escapedLine (arg::arg'::args) = (shellEscape arg).toList ++ ' ' :: escapedLine (arg'::args) := by
  simp [escapedLine, List.intercalate_cons_cons]

theorem kept_escapedLine (args : List String) : kept .bare (escapedLine args) = 0 := by
  induction args with
  | nil => rfl
  | cons arg args ih =>
    obtain ⟨hfold,hkept⟩ := kept_shellEscape arg
    cases args with
    | nil => simpa [escapedLine] using hkept
    | cons arg' args =>
      rw [escapedLine_cons_cons, kept_append, hfold, hkept, Nat.zero_add, kept]
      exact (Nat.zero_add _).trans ih

theorem fold_escapedLine (args : List String) :
    ((escapedLine args).foldl Tokenizing.next ⟨words,[],false,.bare⟩).finish = .ok (words ++ args) := by
  induction args generalizing words with
  | nil => simp [escapedLine, Tokenizing.finish]
  | cons arg args ih =>
    cases args with
    | nil =>
      have hline : escapedLine [arg] = (shellEscape arg).toList := by simp [escapedLine]
      rw [hline, fold_shellEscape]
      simp [Tokenizing.finish, Tokenizing.take]
    | cons arg' args =>
      rw [escapedLine_cons_cons, List.foldl_append, fold_shellEscape, List.foldl_cons]
      have hspace : Tokenizing.next ⟨words,arg.toList,true,.bare⟩ ' ' = ⟨words ++ [arg],[],false,.bare⟩ := by
        show Tokenizing.take _ = _
        rw [Tokenizing.take, String.ofList_toList]
      rw [hspace, ih, List.append_assoc, List.singleton_append]

theorem mapError_ok {ε ε' α : Type} {f : ε → ε'} {x : Except ε α} {a : α} :
    x.mapError f = .ok a ↔ x = .ok a := by
  cases x with
  | error e => exact ⟨nofun,nofun⟩
  | ok b => exact ⟨fun h => by cases h; rfl,fun h => by cases h; rfl⟩

/-- Which texts both readers read alike, and that each reads escaped words back. -/
theorem tokenizers_agree (text : String) (args : List String) :
    ((∀ words, tokenize text = .ok words ↔ Graph.tokenize text = .ok words) ↔
      (text.toList.foldl quotingStep .bare = .bare → kept .bare text.toList = 0)) ∧
    tokenize (.ofList (escapedLine args)) = .ok args ∧
    Graph.tokenize (.ofList (escapedLine args)) = .ok args := by
  have hgraph : Graph.tokenize (.ofList (escapedLine args)) = .ok args := by
    rw [Graph.tokenize, String.toList_ofList]
    exact fold_escapedLine args
  refine ⟨⟨fun hsame => kept_of_same hsame,fun hkept words => ?_⟩,?_,hgraph⟩
  · rw [tokenize_same hkept, mapError_ok]
  · rw [tokenize_same, hgraph]
    · rfl
    · intro _
      rw [String.toList_ofList]
      exact kept_escapedLine args

/-- A backslash before a letter between double quotes. -/
theorem tokenizers_differ : tokenize "\"a\\b\"" = .ok ["a\\b"] ∧ Graph.tokenize "\"a\\b\"" = .ok ["ab"] := by
  constructor <;> decide

end Escaping

end BuildFiji.RunFlags
