import Mathlib.Data.List.Nodup
import Mathlib.Data.List.SplitOn

/-!
# The words of a shell

A text is read character by character into words and operators, as a shell reads it. Each
character of a word keeps how it was quoted; a word without anything to expand stands for a
text.
-/

set_option autoImplicit false
set_option linter.all false

namespace BuildFiji.Shell

/-- How a character stands in a word: as it is, between double quotes, for itself, or in what is
expanded. -/
inductive Mark where
  | bare
  | double
  | quoted
  | inner
deriving DecidableEq

abbrev Word := List (Char × Mark)

inductive Token where
  | word (w : Word)
  | op (text : List Char)
deriving DecidableEq

/-- What is open around a character: double quotes, `$(`, `${` and backquotes. -/
inductive Ctx where
  | double
  | paren
  | brace
  | back
deriving DecidableEq

/-- After a `$`, after a backslash, between single quotes, or in a comment. -/
inductive Mode where
  | plain
  | dollar
  | escaped
  | single
  | comment
deriving DecidableEq

structure Reader where
  done : List Token
  current : Option Token
  opened : List Ctx
  mode : Mode
deriving DecidableEq

section Read

def newline : Token := .op ['\n']

def operators : List (List Char) :=
  ["&&","||",";;","<<",">>","<&",">&","<>",">|","<<-"].map String.toList

def isOperator (c : Char) : Bool := "|&;<>()".toList.contains c

namespace Reader

variable (s : Reader) (c : Char)

def start : Reader := ⟨[],none,[],.plain⟩

def tokens : List Token := s.done ++ s.current.toList

/-- The token that was read ends. -/
def cut : Reader := { s with done := s.tokens, current := none }

/-- A word is read from here on, if none is. -/
def begin : Reader :=
  match s.current with
  | some (.word _) => s
  | _ => { s.cut with current := some (.word []) }

def add (m : Mark) : Reader :=
  match s.begin.current with
  | some (.word w) => { s.begin with current := some (.word (w ++ [(c,m)])) }
  | _ => s

def operator : Reader :=
  match s.current with
  | some (.op t) =>
    if operators.contains (t ++ [c]) then { s with current := some (.op (t ++ [c])) }
    else { s.cut with current := some (.op [c]) }
  | _ => { s.cut with current := some (.op [c]) }

def mark : Mark :=
  match s.opened with
  | [] => .bare
  | [.double] => .double
  | _ => .inner

def inWord : Bool :=
  match s.current with
  | some (.word _) => true
  | _ => false

def other : Reader :=
  if c = '$' then { s.add c s.mark with mode := .dollar }
  else if c = '\x60' then { s.add c s.mark with opened := .back::s.opened }
  else s.add c s.mark

def top : Reader :=
  if c = ' ' ∨ c = '\t' then s.cut
  else if c = '\n' then { s.cut with done := s.tokens ++ [newline] }
  else if isOperator c then s.operator c
  else if c = '\\' then { s with mode := .escaped }
  else if c = '\x27' then { s.begin with mode := .single }
  else if c = '"' then { s.begin with opened := [.double] }
  else if c = '#' ∧ s.inWord = false then { s.cut with mode := .comment }
  else s.other c

/-- What is expanded is read to its end, with what is quoted and expanded in it. -/
def inside (ctx : Ctx) (rest : List Ctx) : Reader :=
  match ctx with
  | .double =>
    if c = '"' then { (if rest = [] then s else s.add c .inner) with opened := rest }
    else if c = '\\' then { s with mode := .escaped }
    else s.other c
  | .back =>
    if c = '\x60' then { s.add c s.mark with opened := rest }
    else if c = '\\' then { s with mode := .escaped }
    else s.add c s.mark
  | .paren =>
    if c = ')' then { s.add c .inner with opened := rest }
    else if c = '(' then { s.add c .inner with opened := .paren::s.opened }
    else if c = '\\' then { s with mode := .escaped }
    else if c = '\x27' then { s.add c .inner with mode := .single }
    else if c = '"' then { s.add c .inner with opened := .double::s.opened }
    else s.other c
  | .brace =>
    if c = '\x7d' then { s.add c .inner with opened := rest }
    else if c = '\\' then { s with mode := .escaped }
    else if c = '\x27' then { s.add c .inner with mode := .single }
    else if c = '"' then { s.add c .inner with opened := .double::s.opened }
    else s.other c

def plain : Reader :=
  match s.opened with
  | [] => s.top c
  | ctx::rest => s.inside c ctx rest

/-- A backslash before the end of a line is nothing, and between double quotes it stands for
itself before most characters. -/
def unescape : Reader :=
  if c = '\n' then s
  else match s.opened with
    | [] => s.add c .quoted
    | [.double] => if "$\x60\"\\".toList.contains c then s.add c .quoted else (s.add '\\' .double).add c .double
    | _ => (s.add '\\' .inner).add c .inner

def next : Reader :=
  match s.mode with
  | .plain => s.plain c
  | .dollar =>
    if c = '(' then { s.add c .inner with opened := .paren::s.opened, mode := .plain }
    else if c = '\x7b' then { s.add c .inner with opened := .brace::s.opened, mode := .plain }
    else { s with mode := .plain }.plain c
  | .escaped => { s with mode := .plain }.unescape c
  | .single =>
    if c = '\x27' then { (if s.opened = [] then s else s.add c .inner) with mode := .plain }
    else s.add c (if s.opened = [] then .quoted else .inner)
  | .comment => if c = '\n' then { s.cut with done := s.tokens ++ [newline], mode := .plain } else s

/-- Nothing is open, so a blank ends what is read. -/
def Ready : Prop := s.opened = [] ∧ (s.mode = .plain ∨ s.mode = .dollar)

instance : Decidable s.Ready := by
  unfold Ready
  infer_instance

def finish : Option (List Token) := if s.Ready ∨ s.mode = .comment ∧ s.opened = [] then some s.tokens else none

end Reader

def read (text : List Char) : Reader := text.foldl Reader.next .start

def split (text : List Char) : Option (List Token) := (read text).finish

end Read

section Fields

/-- A character that stands for itself. -/
def inert : Char × Mark → Bool
  | (_,.quoted) => true
  | (c,.bare) => !"$\x60*?[~".toList.contains c
  | (c,.double) => !"$\x60".toList.contains c
  | (_,.inner) => false

def literal (w : Word) : Option String := if w.all inert then some (.ofList (w.map Prod.fst)) else none

/-- `"$@"` -/
def allArguments : Word := [('$',.double),('@',.double)]

def fieldsOf (arguments : List String) : Token → Option (List String)
  | .op _ => none
  | .word w => if w = allArguments then some arguments else (literal w).map fun t => [t]

/-- The fields of a simple command. -/
def fields (arguments : List String) : List Token → Option (List String)
  | [] => some []
  | t::ts => (fieldsOf arguments t).bind fun f => (fields arguments ts).map (f ++ ·)

/-- The commands of a list that are run as long as they succeed. -/
def andList : List Token → List (List Token)
  | [] => [[]]
  | t::ts =>
    if t = .op ['&','&'] then []::andList ts
    else match andList ts with
      | [] => [[t]]
      | command::commands => (t::command)::commands

/-- The commands of a text, lines with nothing before them left out. -/
def commands (ts : List Token) : List (List Token) := andList (ts.dropWhile (· = newline))

end Fields

section Commands

def reserved : List String :=
  ["!","\x7b","\x7d","case","do","done","elif","else","esac","fi","for","if","in","then","until","while"]

def isName : List Char → Bool
  | [] => false
  | c::cs => (c.isAlpha ∨ c = '_') ∧ cs.all fun c => c.isAlphanum || c == '_'

/-- `name=value`, the name and the `=` not quoted. -/
def isAssignment (w : Word) : Bool :=
  let before := w.takeWhile fun e => e.1 ≠ '='
  isName (before.map Prod.fst) ∧ before.all (·.2 = .bare) ∧ w[before.length]? = some ('=',.bare)

/-- A word that the name of a command can be. -/
def isCommandName (w : Word) : Bool := !isAssignment w ∧ ¬ (w.all (·.2 = .bare) ∧ .ofList (w.map Prod.fst) ∈ reserved)

/-- The words of a line that is one simple command. -/
def commandLine (line : String) : Option (List String) :=
  match split line.toList with
  | some (.word w::ts) => if isCommandName w then fields [] (.word w::ts) else none
  | _ => none

inductive CdReading where
  | option
  | previous
  | searched (operand : String)
  | directory (path : String)
deriving DecidableEq

/-- The names of a path, `..` taken for the directory above in the text. -/
def straighten (path : List Char) : List (List Char) :=
  (path.splitOn '/').foldl (fun names c =>
    if c = [] ∨ c = ['.'] then names else if c = ['.','.'] then names.dropLast else names ++ [c]) []

/-- Where `cd` goes for an operand. -/
def cdReading (operand : String) : CdReading :=
  if operand = "-" then .previous
  else if operand.toList.head? = some '-' then .option
  else if operand.toList.head? = some '/' then
    .directory (.ofList ('/'::['/'].intercalate (straighten operand.toList)))
  else .searched operand

/-- What `env` is asked for: the names to leave out, the values to set, and what to run. -/
structure EnvCall where
  unset : List String
  set : List String
  argv : List String
deriving DecidableEq

def unsetOptions : List String → List String × List String
  | "-u"::name::rest => ((name::(unsetOptions rest).1),(unsetOptions rest).2)
  | rest => ([],rest)

def hasValue (operand : String) : Bool := operand.toList.contains '='

def envCall (operands : List String) : Option EnvCall :=
  let (unset,rest) := unsetOptions operands
  if (rest.head?.bind fun operand => operand.toList.head?) = some '-' then none
  else some ⟨unset,rest.takeWhile hasValue,rest.dropWhile hasValue⟩

/-- Where a script that ends with `exec env` changes to, and what it asks of `env`. -/
def execEnv (script : String) : Option (CdReading × EnvCall) :=
  match (split script.toList).map commands with
  | some [cd,exec] =>
    match fields [] cd,fields [] exec with
    | some ["cd",dir],some ("exec"::"env"::operands) => (envCall operands).map fun call => (cdReading dir,call)
    | _,_ => none
  | _ => none

/-- A variable after `env`: values win over what is left out, the last value over the others. -/
def EnvCall.value (call : EnvCall) (base : String → Option String) (name : String) : Option String :=
  match call.set.reverse.find? fun operand => operand.toList.takeWhile (· ≠ '=') = name.toList with
  | some operand => some (.ofList ((operand.toList.dropWhile (· ≠ '=')).drop 1))
  | none => if name ∈ call.unset then none else base name

end Commands

section Laws

namespace Reader

variable (d : List Token) (s : Reader) (c : Char)

/-- The same, with more before it. -/
def after : Reader := { s with done := d ++ s.done }

@[simp] theorem after_current : (s.after d).current = s.current := rfl

@[simp] theorem after_opened : (s.after d).opened = s.opened := rfl

@[simp] theorem after_mode : (s.after d).mode = s.mode := rfl

@[simp] theorem after_tokens : (s.after d).tokens = d ++ s.tokens := List.append_assoc _ _ _

@[simp] theorem after_mark : (s.after d).mark = s.mark := rfl

@[simp] theorem after_inWord : (s.after d).inWord = s.inWord := rfl

theorem cut_after : (s.after d).cut = s.cut.after d := by
  rw [cut, after_tokens]
  rfl

theorem begin_after : (s.after d).begin = s.begin.after d := by
  rw [begin, begin, after_current, cut_after]
  split <;> rfl

theorem add_after (m : Mark) : (s.after d).add c m = (s.add c m).after d := by
  rw [add, add, begin_after, after_current]
  split <;> rfl

theorem operator_after : (s.after d).operator c = (s.operator c).after d := by
  rw [operator, operator, after_current, cut_after]
  split
  · split <;> rfl
  · rfl

theorem other_after : (s.after d).other c = (s.other c).after d := by
  rw [other, other, after_mark, add_after]
  split
  · rfl
  · split <;> rfl

theorem top_after : (s.after d).top c = (s.top c).after d := by
  rw [top, top, cut_after, begin_after, operator_after, other_after, after_tokens, after_inWord]
  split
  · rfl
  · split
    · rw [List.append_assoc]
      rfl
    · repeat' split
      all_goals rfl

theorem inside_after (ctx : Ctx) (rest : List Ctx) :
    (s.after d).inside c ctx rest = (s.inside c ctx rest).after d := by
  cases ctx with
  | double =>
    rw [inside, inside, add_after, other_after]
    repeat' split
    all_goals rfl
  | paren =>
    rw [inside, inside, add_after, other_after]
    repeat' split
    all_goals rfl
  | brace =>
    rw [inside, inside, add_after, other_after]
    repeat' split
    all_goals rfl
  | back =>
    rw [inside, inside, after_mark, add_after]
    repeat' split
    all_goals rfl

theorem plain_after : (s.after d).plain c = (s.plain c).after d := by
  rw [plain, plain, after_opened]
  split
  · exact top_after d s c
  · exact inside_after d s c _ _

theorem unescape_after : (s.after d).unescape c = (s.unescape c).after d := by
  rw [unescape, unescape, after_opened]
  simp only [add_after]
  repeat' split
  all_goals rfl

theorem next_after : (s.after d).next c = (s.next c).after d := by
  have hplain : { s.after d with mode := .plain } = { s with mode := .plain }.after d := rfl
  rw [next, next, after_mode]
  cases s.mode with
  | plain => exact plain_after d s c
  | dollar =>
    dsimp only
    rw [hplain, plain_after, add_after]
    repeat' split
    all_goals rfl
  | escaped =>
    dsimp only
    rw [hplain, unescape_after]
  | single =>
    dsimp only
    rw [after_opened, add_after, add_after]
    repeat' split
    all_goals rfl
  | comment =>
    dsimp only
    rw [cut_after, after_tokens, List.append_assoc]
    split <;> rfl

theorem fold_after (text : List Char) : text.foldl next (s.after d) = (text.foldl next s).after d := by
  induction text generalizing s with
  | nil => rfl
  | cons c text ih => rw [List.foldl_cons, List.foldl_cons, next_after, ih]

theorem finish_after : (s.after d).finish = s.finish.map (d ++ ·) := by
  have hends : ((s.after d).Ready ∨ (s.after d).mode = .comment ∧ (s.after d).opened = []) ↔
      (s.Ready ∨ s.mode = .comment ∧ s.opened = []) := Iff.rfl
  unfold finish
  by_cases h : s.Ready ∨ s.mode = .comment ∧ s.opened = []
  · rw [if_pos h, if_pos (hends.mpr h), after_tokens]
    rfl
  · rw [if_neg h, if_neg fun h' => h (hends.mp h')]
    rfl

/-- Between two words. -/
def between : Reader := start.after d

variable {s}

theorem Ready.blank (h : s.Ready) : s.next ' ' = between s.tokens := by
  obtain ⟨done,current,opened,mode⟩ := s
  obtain ⟨rfl,hmode⟩ := h
  have hbetween : between (Reader.mk done current [] mode).tokens = ⟨done ++ current.toList,none,[],.plain⟩ := by
    change Reader.mk (_ ++ []) none [] .plain = _
    rw [List.append_nil]
    rfl
  rw [hbetween]
  rcases hmode with rfl | rfl <;> rfl

end Reader

open Reader

theorem read_append (a b : List Char) : read (a ++ b) = b.foldl next (read a) := List.foldl_append

/-- A text after one that is complete is read on its own. -/
theorem split_blank {text : List Char} (h : (read text).Ready) (more : List Char) :
    split (text ++ ' '::more) = (split more).map ((read text).tokens ++ ·) := by
  rw [split, read_append, List.foldl_cons, h.blank, between, fold_after, finish_after]
  rfl

theorem split_ready {text : List Char} (h : (read text).Ready) : split text = some (read text).tokens :=
  if_pos (.inl h)

/-- After a comment comes nothing or a new line. -/
theorem comment_finish {s : Reader} (hmode : s.mode = .comment) (text : List Char) {ts : List Token}
    (h : (text.foldl next s).finish = some ts) : ts = s.tokens ∨ ∃ rest, ts = s.tokens ++ newline::rest := by
  induction text generalizing s with
  | nil =>
    rw [List.foldl_nil, finish] at h
    split at h
    · exact .inl (Option.some.inj h).symm
    · cases h
  | cons c text ih =>
    have hnext : s.next c = if c = '\n' then { s.cut with done := s.tokens ++ [newline], mode := .plain } else s := by
      rw [next, hmode]
    rw [List.foldl_cons, hnext] at h
    split at h
    · refine .inr ?_
      have hsplit : ({ s.cut with done := s.tokens ++ [newline], mode := .plain } : Reader) =
          (⟨[],none,s.opened,.plain⟩ : Reader).after (s.tokens ++ [newline]) := by
        rw [after, List.append_nil]
        rfl
      rw [hsplit, fold_after, finish_after] at h
      obtain ⟨rest,-,rfl⟩ := Option.map_eq_some_iff.mp h
      exact ⟨rest,by rw [List.append_assoc]; rfl⟩
    · exact ih hmode h

end Laws

section Quoting

open Reader

/-- A character that the shell has no other use for. -/
def ordinary (c : Char) : Bool := !" \t\n|&;<>()\\\x27\"#$\x60*?[~".toList.contains c

variable (d : List Token) (v : Word)

theorem plain_ordinary {s : Reader} {c : Char} (h : ordinary c = true) (hopened : s.opened = []) :
    s.plain c = s.add c .bare := by
  simp only [ordinary, Bool.not_eq_true', List.contains_eq_mem, decide_eq_false_iff_not] at h
  have hne : ∀ e ∈ " \t\n|&;<>()\\\x27\"#$\x60*?[~".toList, c ≠ e := fun e he heq => h (heq ▸ he)
  have hop : isOperator c = false := by
    have hsub : ("|&;<>()".toList.all fun e => " \t\n|&;<>()\\\x27\"#$\x60*?[~".toList.contains e) = true := by
      decide
    simp only [isOperator, List.contains_eq_mem, decide_eq_false_iff_not]
    exact fun hc => h (List.contains_iff_mem.mp (List.all_eq_true.mp hsub c hc))
  have hother : s.other c = s.add c .bare := by
    rw [other, if_neg (hne '$' (by decide)), if_neg (hne '\x60' (by decide)), mark, hopened]
  rw [plain, hopened]
  dsimp only
  rw [top, if_neg (not_or.mpr ⟨hne ' ' (by decide),hne '\t' (by decide)⟩), if_neg (hne '\n' (by decide)), hop,
    if_neg Bool.false_ne_true, if_neg (hne '\\' (by decide)), if_neg (hne '\x27' (by decide)),
    if_neg (hne '"' (by decide)), if_neg fun hc => hne '#' (by decide) hc.1, hother]

/-- A word that goes on. -/
def within : Reader := ⟨d,some (.word v),[],.plain⟩

theorem fold_ordinary {text : List Char} (h : ∀ c ∈ text, ordinary c = true) :
    text.foldl next (within d v) = within d (v ++ text.map fun c => (c,.bare)) := by
  induction text generalizing v with
  | nil => rw [List.map_nil, List.append_nil]; rfl
  | cons c text ih =>
    have hadd : plain (within d v) c = (within d v).add c .bare := plain_ordinary (h c List.mem_cons_self) rfl
    have hnext : next (within d v) c = within d (v ++ [(c,.bare)]) := hadd
    rw [List.foldl_cons, hnext, ih _ fun e he => h e (List.mem_cons_of_mem _ he), List.append_assoc]
    rfl

theorem fold_ordinary_between {text : List Char} (h : ∀ c ∈ text, ordinary c = true) (hne : text ≠ []) :
    text.foldl next (between d) = within d (text.map fun c => (c,.bare)) := by
  cases text with
  | nil => exact absurd rfl hne
  | cons c text =>
    have hnext : next (between d) c = within d [(c,.bare)] := by
      have hadd : plain (between d) c = (between d).add c .bare := plain_ordinary (h c List.mem_cons_self) rfl
      refine hadd.trans ?_
      change Reader.mk ((d ++ []) ++ []) _ _ _ = _
      rw [List.append_nil, List.append_nil]
      rfl
    rw [List.foldl_cons, hnext, fold_ordinary d _ fun e he => h e (List.mem_cons_of_mem _ he)]
    rfl

/-- Between single quotes. -/
def quoting : Reader := ⟨d,some (.word v),[],.single⟩

theorem next_quoting {c : Char} (h : c ≠ '\x27') : next (quoting d v) c = quoting d (v ++ [(c,.quoted)]) :=
  if_neg h

theorem next_opens : next (within d v) '\x27' = quoting d v ∧ next (between d) '\x27' = quoting d [] := by
  refine ⟨rfl,?_⟩
  change Reader.mk ((d ++ []) ++ []) _ _ _ = _
  rw [List.append_nil, List.append_nil]
  rfl

theorem inert_bare {text : List Char} (h : ∀ c ∈ text, ordinary c = true) :
    (text.map fun c => (c,Mark.bare)).all inert = true := by
  rw [List.all_eq_true]
  intro e he
  obtain ⟨c,hc,rfl⟩ := List.mem_map.mp he
  have hordinary := h c hc
  have hsub : ("$\x60*?[~".toList.all fun e => " \t\n|&;<>()\\\x27\"#$\x60*?[~".toList.contains e) = true := by
    decide
  simp only [ordinary, inert, Bool.not_eq_true', List.contains_eq_mem, decide_eq_false_iff_not] at hordinary ⊢
  exact fun hc => hordinary (List.contains_iff_mem.mp (List.all_eq_true.mp hsub c hc))

end Quoting

section Pieces

open Reader

/-- From between two words to between two words. -/
def Reads (text : List Char) (ts : List Token) : Prop := ∀ d, text.foldl next (between d) = between (d ++ ts)

theorem Reads.append {a b : List Char} {ts ts' : List Token} (h : Reads a ts) (h' : Reads b ts') :
    Reads (a ++ b) (ts ++ ts') := by
  intro d
  rw [List.foldl_append, h, h', List.append_assoc]

theorem reads_nil : Reads [] [] := fun d => by rw [List.append_nil]; rfl

theorem reads_flatMap {α : Type} {text : α → List Char} {ts : α → List Token} {items : List α}
    (h : ∀ a ∈ items, Reads (text a) (ts a)) : Reads (items.flatMap text) (items.flatMap ts) := by
  induction items with
  | nil => exact reads_nil
  | cons a items ih =>
    rw [List.flatMap_cons, List.flatMap_cons]
    exact (h a List.mem_cons_self).append (ih fun b hb => h b (List.mem_cons_of_mem _ hb))

theorem reads_of {text : List Char} {ts : List Token} (h : text.foldl next start = between ts) : Reads text ts := by
  intro d
  rw [between, fold_after, h, between, between, after, after, after]
  simp [start]

theorem within_blank (d : List Token) (v : Word) : next (within d v) ' ' = between (d ++ [.word v]) := by
  have hready : (within d v).Ready := ⟨rfl,.inl rfl⟩
  exact hready.blank

theorem finish_within (d : List Token) (v : Word) : (within d v).finish = some (d ++ [.word v]) :=
  if_pos (.inl ⟨rfl,.inl rfl⟩)

/-- A word with a blank after it. -/
theorem reads_word {text : List Char} {v : Word} (h : ∀ d, text.foldl next (between d) = within d v) :
    Reads (text ++ [' ']) [.word v] := by
  intro d
  rw [List.foldl_append, h]
  exact within_blank d v

variable {arguments : List String}

theorem fields_append (a b : List Token) : fields arguments (a ++ b) =
    (fields arguments a).bind fun ws => (fields arguments b).map (ws ++ ·) := by
  induction a with
  | nil => simp [fields]
  | cons t a ih =>
    rw [List.cons_append, fields, fields, ih]
    cases fieldsOf arguments t with
    | none => rfl
    | some f =>
      cases fields arguments a with
      | none => rfl
      | some ws => cases fields arguments b <;> simp

theorem fieldsOf_word {v : Word} {w : String} (h : literal v = some w) : fieldsOf arguments (.word v) = some [w] := by
  have hne : v ≠ allArguments := by
    rintro rfl
    have hnone : literal allArguments = none := by decide
    rw [hnone] at h
    cases h
  rw [fieldsOf, if_neg hne, h]
  rfl

theorem fields_words {vs : List Word} {ws : List String} (h : vs.map literal = ws.map some) :
    fields arguments (vs.map .word) = some ws := by
  induction vs generalizing ws with
  | nil =>
    cases ws with
    | nil => rfl
    | cons w ws => cases h
  | cons v vs ih =>
    cases ws with
    | nil => cases h
    | cons w ws =>
      obtain ⟨hv,hvs⟩ := List.cons.inj h
      rw [List.map_cons, fields, fieldsOf_word hv, ih hvs]
      rfl

/-- What has fields has no operator. -/
theorem andList_single {ts : List Token} {ws : List String} (h : fields arguments ts = some ws) :
    andList ts = [ts] := by
  induction ts generalizing ws with
  | nil => rfl
  | cons t ts ih =>
    rw [fields] at h
    obtain ⟨f,hf,hrest⟩ := Option.bind_eq_some_iff.mp h
    obtain ⟨ws',hws',-⟩ := Option.map_eq_some_iff.mp hrest
    have hne : t ≠ .op ['&','&'] := by
      rintro rfl
      cases hf
    rw [andList, if_neg hne, ih hws']

theorem andList_two {ts : List Token} {ws : List String} (h : fields arguments ts = some ws) (rest : List Token) :
    andList (ts ++ .op ['&','&']::rest) = ts::andList rest := by
  induction ts generalizing ws with
  | nil => rfl
  | cons t ts ih =>
    rw [fields] at h
    obtain ⟨f,hf,hrest⟩ := Option.bind_eq_some_iff.mp h
    obtain ⟨ws',hws',-⟩ := Option.map_eq_some_iff.mp hrest
    have hne : t ≠ .op ['&','&'] := by
      rintro rfl
      cases hf
    rw [List.cons_append, andList, if_neg hne, ih hws']

end Pieces

section EnvCalls

theorem unsetOptions_stop {rest : List String} (h : rest.head? ≠ some "-u") : unsetOptions rest = ([],rest) := by
  unfold unsetOptions
  split
  · exact absurd rfl h
  · rfl

theorem unsetOptions_names (names rest : List String) : unsetOptions (names.flatMap (fun name => ["-u",name]) ++ rest) =
    (names ++ (unsetOptions rest).1,(unsetOptions rest).2) := by
  induction names with
  | nil => rfl
  | cons name names ih =>
    change unsetOptions ("-u"::name::(names.flatMap (fun name => ["-u",name]) ++ rest)) = _
    rw [unsetOptions, ih]
    rfl

variable {a b : List Char}

theorem before_value (h : '=' ∉ a) : (a ++ '='::b).takeWhile (· ≠ '=') = a ∧ (a ++ '='::b).dropWhile (· ≠ '=') = '='::b := by
  induction a with
  | nil => exact ⟨rfl,rfl⟩
  | cons c a ih =>
    obtain ⟨hc,ha⟩ := not_or.mp (mt List.mem_cons.mpr h)
    obtain ⟨htake,hdrop⟩ := ih ha
    have hne : decide (c ≠ '=') = true := decide_eq_true (Ne.symm hc)
    rw [List.cons_append, List.takeWhile_cons, List.dropWhile_cons, if_pos hne, if_pos hne, htake, hdrop]
    exact ⟨rfl,rfl⟩

def setting (e : String × String) : String := e.1 ++ "=" ++ e.2

theorem setting_toList (e : String × String) : (setting e).toList = e.1.toList ++ '='::e.2.toList := by
  simp [setting]

/-- The value that was set, if one was. -/
theorem EnvCall.value_settings {call : EnvCall} {pairs : List (String × String)}
    (hset : call.set = pairs.map setting) (hnames : ∀ e ∈ pairs, '=' ∉ e.1.toList)
    (hnodup : (pairs.map Prod.fst).Nodup) (base : String → Option String) (name : String) :
    call.value base name = match pairs.find? (fun e => e.1 = name) with
      | some e => some e.2
      | none => if name ∈ call.unset then none else base name := by
  have hname : ∀ e ∈ pairs, ((setting e).toList.takeWhile (· ≠ '=') = name.toList ↔ e.1 = name) := by
    intro e he
    rw [setting_toList, (before_value (hnames e he)).1, String.toList_inj]
  rw [EnvCall.value, hset]
  cases hfind : pairs.find? (fun e => e.1 = name) with
  | none =>
    have hnone : (pairs.map setting).reverse.find?
        (fun operand => operand.toList.takeWhile (· ≠ '=') = name.toList) = none := by
      rw [List.find?_eq_none] at hfind ⊢
      intro operand hoperand
      obtain ⟨e,he,rfl⟩ := List.mem_map.mp (List.mem_reverse.mp hoperand)
      rw [decide_eq_true_eq, hname e he]
      exact fun heq => hfind e he (decide_eq_true heq)
    rw [hnone]
  | some e =>
    have he := List.mem_of_find?_eq_some hfind
    have hkey : e.1 = name := by simpa using List.find?_some hfind
    have hsome : ((pairs.map setting).reverse.find?
        (fun operand => operand.toList.takeWhile (· ≠ '=') = name.toList)).isSome = true := by
      rw [List.find?_isSome]
      exact ⟨_,List.mem_reverse.mpr (List.mem_map_of_mem he),decide_eq_true ((hname e he).mpr hkey)⟩
    obtain ⟨operand,hoperand⟩ := Option.isSome_iff_exists.mp hsome
    obtain ⟨e',he',rfl⟩ := List.mem_map.mp (List.mem_reverse.mp (List.mem_of_find?_eq_some hoperand))
    have hkey' : e'.1 = name := (hname e' he').mp (by simpa using List.find?_some hoperand)
    obtain rfl := List.inj_on_of_nodup_map hnodup he he' (hkey.trans hkey'.symm)
    rw [hoperand]
    dsimp only
    rw [setting_toList, (before_value (hnames e he)).2, List.drop_one, List.tail_cons, String.ofList_toList]

end EnvCalls

end BuildFiji.Shell
