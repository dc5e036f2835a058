import BuildFiji.Lib.Text
import Mathlib

/-!
# One rc file

The lines of a file are joined where they end in a backslash, and each is split
into words as a shell would and read as a directive. What the errors of the word
grammar say is the parser library's, `rich` here.
-/

set_option autoImplicit false
set_option linter.all false

namespace BuildFiji.Rc

open Text (isWhitespace)

inductive Directive where
  | «import» (path : String)
  | tryImport (path : String)
  | commandFlags (command : String) (config : Option String) (flags : List String)
  deriving DecidableEq

structure Line where
  directive : Directive
  lineNo : ℕ
  span : ℕ × ℕ
  deriving DecidableEq

structure ParseError where
  lineNo : ℕ
  span : ℕ × ℕ
  message : String
  deriving DecidableEq

def size (s : List Char) : ℕ := (s.map Char.utf8Size).sum

section Continuations

/-- `split_inclusive('\n')`, with what a line has so far. -/
def splitFrom (line : List Char) : List Char → List (List Char)
  | [] => if line = [] then [] else [line]
  | c::cs => if c = '\n' then (line ++ [c])::splitFrom [] cs else splitFrom (line ++ [c]) cs

def stripSuffix (c : Char) (s : List Char) : Option (List Char) :=
  if s.getLast? = some c then some s.dropLast else none

/-- A line after joining, the physical line it started on and the bytes it takes. -/
structure LogicalLine where
  text : List Char
  lineNo : ℕ
  span : ℕ × ℕ

structure Splice where
  out : List LogicalLine
  physicalLineNo : ℕ
  offset : ℕ
  curText : List Char
  curStartLine : ℕ
  curStartOffset : ℕ
  inContinuation : Bool

def spliceLine (s : Splice) (rawLine : List Char) : Splice :=
  let physicalLineNo := s.physicalLineNo+1
  let offset := s.offset+size rawLine
  let noNewline := (stripSuffix '\n' rawLine).getD rawLine
  let stripped := (stripSuffix '\r' noNewline).getD noNewline
  let curStartLine := if s.inContinuation then s.curStartLine else physicalLineNo
  let curStartOffset := if s.inContinuation then s.curStartOffset else s.offset
  let curText := if s.inContinuation then s.curText ++ [' '] else []
  match stripSuffix '\\' stripped with
  | some body => ⟨s.out,physicalLineNo,offset,curText ++ body,curStartLine,curStartOffset,true⟩
  | none =>
    ⟨s.out ++ [⟨curText ++ stripped,curStartLine,(curStartOffset,offset)⟩],physicalLineNo,offset,[],
      curStartLine,curStartOffset,false⟩

def spliceContinuations (src : List Char) : List LogicalLine :=
  let s := (splitFrom [] src).foldl spliceLine ⟨[],0,0,[],1,0,false⟩
  if s.inContinuation then s.out ++ [⟨s.curText,s.curStartLine,(s.curStartOffset,s.offset)⟩] else s.out

end Continuations

section Words

/-- What is read and what follows, none when the grammar does not match. -/
abbrev Parse (α : Type) := List Char → Option (α × List Char)

def singleQuoted : Parse (List Char)
  | '\'' :: s =>
    match s.dropWhile (· ≠ '\'') with
    | _::rest => some (s.takeWhile (· ≠ '\''),rest)
    | [] => none
  | _ => none

/-- To the next quote that no backslash stands before. -/
def doubleQuotedChars : List Char → List Char × List Char
  | [] => ([],[])
  | '\\' :: '\\' :: s => let r := doubleQuotedChars s; ('\\' :: r.1,r.2)
  | '\\' :: '"' :: s => let r := doubleQuotedChars s; ('"' :: r.1,r.2)
  | c::s => if c = '"' then ([],c::s) else let r := doubleQuotedChars s; (c::r.1,r.2)

def doubleQuoted : Parse (List Char)
  | '"' :: s =>
    match doubleQuotedChars s with
    | (chars,_::rest) => some (chars,rest)
    | (_,[]) => none
  | _ => none

def isDelim (c : Char) : Bool := isWhitespace c || c = '#'

def unquotedChars : List Char → List Char × List Char
  | [] => ([],[])
  | '\\' :: c :: s => let r := unquotedChars s; (c::r.1,r.2)
  | c::s =>
    if isDelim c || c = '\'' || c = '"' || c = '\\' then ([],c::s)
    else let r := unquotedChars s; (c::r.1,r.2)

def unquoted : Parse (List Char) := fun s =>
  match unquotedChars s with
  | ([],_) => none
  | r => some r

def segment : Parse (List Char) := fun s => (singleQuoted s).or ((doubleQuoted s).or (unquoted s))

/-- Segments as long as there is one; each takes a character. -/
def segments : ℕ → List Char → List (List Char) × List Char
  | 0, s => ([],s)
  | room+1, s =>
    match segment s with
    | some (seg,rest) => let r := segments room rest; (seg::r.1,r.2)
    | none => ([],s)

/-- Segments of any kind next to each other are one word. -/
def word : Parse (List Char) := fun s =>
  match segments s.length s with
  | ([],_) => none
  | (segs,rest) => some (segs.flatten,rest)

def isBlank (c : Char) : Bool := c = ' ' || c = '\t'

/-- Words after the first, each after a separator; the last separator may have none. -/
def moreWords : ℕ → List Char → List (List Char) × List Char
  | 0, s => ([],s)
  | room+1, s =>
    if s.takeWhile isBlank = [] then ([],s)
    else
      match word (s.dropWhile isBlank) with
      | some (w,rest) => let r := moreWords room rest; (w::r.1,r.2)
      | none => ([],s.dropWhile isBlank)

def lineWords (s : List Char) : Option (List (List Char)) :=
  let words :=
    match word (s.dropWhile isBlank) with
    | some (w,rest) => let r := moreWords rest.length rest; (w::r.1,r.2)
    | none => ([],s.dropWhile isBlank)
  match words.2 with
  | [] => some words.1
  | c::_ => if c = '#' then some words.1 else none

end Words

def splitColon (head : List Char) : Option (List Char × List Char) := Text.splitOnce [':'] head

/-- The directive of words, of which there is one at least. -/
def interpret (head : List Char) (words : List String) : Except String Directive :=
  let name := String.ofList head
  if name = "import" ∨ name = "try-import" then
    match words with
    | [path] => .ok (if name = "import" then .import path else .tryImport path)
    | _ => .error ("'" ++ name ++ "' takes exactly one path argument, got " ++ toString words.length)
  else
    match splitColon head with
    | some (command,config) => .ok (.commandFlags (.ofList command) (some (.ofList config)) words)
    | none => .ok (.commandFlags name none words)

section File

variable (rich : List Char → List ((ℕ × ℕ) × String))

def parseLine (logical : LogicalLine) : List Line × List ParseError :=
  let trimmed := logical.text.dropWhile isWhitespace
  if trimmed = [] ∨ trimmed.head? = some '#' then ([],[])
  else
    match lineWords logical.text with
    | some [] => ([],[])
    | some (head::words) =>
      match interpret head (words.map String.ofList) with
      | .ok directive => ([⟨directive,logical.lineNo,logical.span⟩],[])
      | .error message => ([],[⟨logical.lineNo,logical.span,message⟩])
    | none =>
      ([],(rich logical.text).map fun e =>
        ⟨logical.lineNo,(logical.span.1+e.1.1,logical.span.1+e.1.2),e.2⟩)

def parseRcFile (src : List Char) : List Line × List ParseError :=
  let parsed := (spliceContinuations src).map (parseLine rich)
  (parsed.flatMap Prod.fst,parsed.flatMap Prod.snd)

end File

example : ((parseRcFile (fun _ => []) "build:c 'a b' \\\n  x\"\\\"\"\\#y # z\n".toList).1.map Line.directive) =
    [.commandFlags "build" (some "c") ["a b","x\"#y"]] := by decide

end BuildFiji.Rc
