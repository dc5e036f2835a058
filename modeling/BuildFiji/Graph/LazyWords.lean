import BuildFiji.Graph.CommandLine
import BuildFiji.Lib.FirstOccurrence

/-!
# The words of calls that read a tree

Once the files of a tree are known each call makes its words, which replace
those that stood for it on the command line.
-/

set_option autoImplicit false
set_option linter.all false

namespace BuildFiji.Graph

def formatChars (text : List Char) : List Char → List Char
  | '%' :: 's' :: rest => text ++ formatChars text rest
  | '%' :: '%' :: rest => '%' :: formatChars text rest
  | c::rest => c :: formatChars text rest
  | [] => []

/-- `pattern` with `%s` replaced by `text`; `%%` is a `%`. -/
def formatArg (pattern text : String) : String :=
  .ofList (formatChars text.toList pattern.toList)

def formatted (pattern : Option String) (text : String) : String :=
  match pattern with
  | some pattern => formatArg pattern text
  | none => text

def holes : List Char → ℕ
  | '%' :: 's' :: rest => holes rest + 1
  | '%' :: '%' :: rest => holes rest
  | _::rest => holes rest
  | [] => 0

theorem formatChars_no_hole {pattern : List Char} (h : holes pattern = 0) (text text' : List Char) :
    formatChars text pattern = formatChars text' pattern := by
  fun_induction holes pattern with
  | case1 rest => exact absurd h (Nat.succ_ne_zero _)
  | case2 rest ih =>
    rw [formatChars, formatChars, ih h]
  | case3 c rest hs hp ih =>
    rw [formatChars, formatChars, ih h]
    all_goals assumption
  | case4 => rfl

theorem formatChars_one_hole {pattern : List Char} (h : holes pattern = 1) :
    ∃ before after, ∀ text, formatChars text pattern = before ++ text ++ after := by
  fun_induction holes pattern with
  | case1 rest =>
    refine ⟨[],formatChars [] rest,fun text => ?_⟩
    rw [formatChars, formatChars_no_hole (Nat.succ.inj h) text [], List.nil_append]
  | case2 rest ih =>
    obtain ⟨before,after,hrest⟩ := ih h
    exact ⟨'%' :: before,after,fun text => by rw [formatChars, hrest]; rfl⟩
  | case3 c rest hs hp ih =>
    obtain ⟨before,after,hrest⟩ := ih h
    refine ⟨c::before,after,fun text => ?_⟩
    rw [formatChars, hrest]
    · rfl
    · exact hs
    · exact hp
  | case4 => exact absurd h (by decide)

def LazyItem.values (filesOf : String → List String) : LazyItem → List String
  | .text word => [word]
  | .tree dir formatEach => (filesOf dir).map (formatted formatEach)

/-- The words of an `add_all` that has these values. -/
def allWords (name beforeEach terminateWith : Option String) (values : List String) : List String :=
  name.toList ++ values.flatMap (fun value => beforeEach.toList ++ [value]) ++ terminateWith.toList

/-- The words of an `add_joined` that has these values. -/
def joinedWords (name : Option String) (joinWith : String) (formatJoined : Option String)
    (values : List String) : List String :=
  name.toList ++ [formatted formatJoined (joinWith.intercalate values)]

namespace LazyCall

def items : LazyCall → List LazyItem
  | .addAll _ items .. => items
  | .addJoined _ items .. => items

def uniquify : LazyCall → Bool
  | .addAll _ _ _ _ uniquify _ => uniquify
  | .addJoined _ _ _ _ _ uniquify => uniquify

/-- A value is retained when it is not among those seen. -/
def values (filesOf : String → List String) (call : LazyCall) : List String :=
  let values := call.items.flatMap (LazyItem.values filesOf)
  if call.uniquify then FirstOccurrence.addAll [] values else values

def words (filesOf : String → List String) (call : LazyCall) : List String :=
  let values := call.values filesOf
  match call with
  | .addAll name _ beforeEach omitIfEmpty _ terminateWith =>
    if values.isEmpty && omitIfEmpty then [] else allWords name beforeEach terminateWith values
  | .addJoined name _ joinWith formatJoined omitIfEmpty _ =>
    if values.isEmpty && omitIfEmpty then [] else joinedWords name joinWith formatJoined values

end LazyCall

/-- `words[start..stop]`, none where it would panic. -/
def slice (words : List String) (start stop : ℕ) : Option (List String) :=
  if start ≤ stop ∧ stop ≤ words.length then some ((words.take stop).drop start) else none

def expandFrom (words : List String) (filesOf : String → List String) (pos : ℕ) :
    List LazyArg → Option (List String)
  | [] => slice words (min pos words.length) words.length
  | arg::lazy =>
    (slice words (min pos arg.at) arg.at).bind fun before =>
      (expandFrom words filesOf (arg.at+arg.len) lazy).map fun after =>
        before ++ arg.call.words filesOf ++ after

/-- `words` with each call of `lazy` replaced by what it makes. -/
def expandWords (words : List String) (lazy : List LazyArg) (filesOf : String → List String) :
    Option (List String) :=
  expandFrom words filesOf 0 lazy

end BuildFiji.Graph
