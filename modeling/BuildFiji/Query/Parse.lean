import BuildFiji.Graph.Label
import BuildFiji.Query.Ast
import Mathlib

/-!
# Parsing of query expressions

The lexer reads words, quoted or not, and tells keywords and numerals from other
words. The parser takes the kinds of arguments from the signatures of the
functions. Where the parser backs up to report a token, the tokens from there
are at hand.
-/

set_option autoImplicit false
set_option linter.all false

namespace BuildFiji.Query

inductive Token where
  | word (text : String)
  | int (n : ℤ)
  | letWord
  | inWord
  | setWord
  | equals
  | plus
  | caret
  | minus
  | openParen
  | closeParen
  | comma
deriving DecidableEq

def Token.text : Token → String
  | word w => w
  | int n => toString n
  | letWord => "let"
  | inWord => "in"
  | setWord => "set"
  | equals => "="
  | plus => "+"
  | caret => "^"
  | minus => "-"
  | openParen => "("
  | closeParen => ")"
  | comma => ","

section Lexer

def punctuation : Char → Option Token
  | '(' => some .openParen
  | ')' => some .closeParen
  | ',' => some .comma
  | '=' => some .equals
  | '+' => some .plus
  | '^' => some .caret
  | '-' => some .minus
  | _ => none

/-- What stands in quotes, and how many characters there are up to the end of the
quotation. A backslash stays unless it protects the quote. -/
def quotation (quote : Char) : List Char → Option (List Char × ℕ)
  | [] => none
  | '\\'::c::cs =>
    if c = quote then (quotation quote cs).map fun found => (quote::found.1,found.2+2)
    else (quotation quote (c::cs)).map fun found => ('\\'::found.1,found.2+1)
  | c::cs =>
    if c = quote then some ([],1)
    else (quotation quote cs).map fun found => (c::found.1,found.2+1)

/-- The rest of a word. In the name of a canonical repository a `+` is part of
it. -/
def takeWord (chars : CharClass) (canonical : Bool) : List Char → List Char → List Char
  | taken, [] => taken
  | taken, c::cs =>
    if isWordChar chars c || (c == '+' && canonical && !Graph.containsText "//".toList taken) then
      takeWord chars canonical (taken ++ [c]) cs
    else taken

def decimal (digits : List Char) : ℕ := Nat.ofDigitChars 10 digits 0

def keyword (word : String) : Option Token :=
  if word = "let" then some .letWord
  else if word = "in" then some .inWord
  else if word = "set" then some .setWord
  else if word = "union" then some .plus
  else if word = "intersect" then some .caret
  else if word = "except" then some .minus
  else none

def wordToken (word : List Char) : Result Token :=
  match keyword (.ofList word) with
  | some token => .ok token
  | none =>
    if word.all Char.isDigit then
      if decimal word < 2^63 then .ok (.int (decimal word))
      else .error (.error ("integer too large: '" ++ .ofList word ++ "'"))
    else .ok (.word (.ofList word))

/-- The tokens from a place on. The count is of the characters that the token
before has taken. -/
def lexFrom (chars : CharClass) : ℕ → List Char → Result (List Token)
  | _, [] => .ok []
  | skip+1, _::cs => lexFrom chars skip cs
  | 0, c::cs =>
    if chars.whitespace c then lexFrom chars 0 cs
    else
      match punctuation c with
      | some token => do return token::(← lexFrom chars 0 cs)
      | none =>
        if c = '\'' ∨ c = '"' then
          match quotation c cs with
          | none => .error (.error "unclosed quotation")
          | some (word,n) => do return .word (.ofList word)::(← lexFrom chars n cs)
        else if isWordChar chars c then do
          let canonical := "@@".toList.isPrefixOf (c::cs)
          let word := takeWord chars canonical [c] cs
          let token ← wordToken word
          return token::(← lexFrom chars (word.length-1) cs)
        else .error (.error ("syntax error at '" ++ .singleton c ++ "'"))

def lex (chars : CharClass) (input : String) : Result (List Token) := lexFrom chars 0 input.toList

end Lexer

section Parser

/-- Up to three tokens, as the place of an error. -/
def context (tokens : List Token) : String := " ".intercalate ((tokens.take 3).map Token.text)

def premature : Stop := .error "premature end of input"

def syntaxError (tokens : List Token) : Stop := .error ("syntax error at '" ++ context tokens ++ "'")

def expect (want : Token) : List Token → Result (List Token)
  | [] => .error premature
  | token::rest => if token = want then .ok rest else .error (syntaxError (token::rest))

def setWords : List Token → Result (List String × List Token)
  | [] => .error premature
  | .closeParen::rest => .ok ([],rest)
  | .word w::rest => do
    let (words,rest) ← setWords rest
    return (w::words,rest)
  | .int n::rest => do
    let (words,rest) ← setWords rest
    return (toString n::words,rest)
  | tokens => .error (syntaxError tokens)

/-- A word that starts with a dollar sign is a variable. -/
def wordExpr (word : String) : Expr :=
  match word.toList with
  | '$'::c::cs => .variable (.ofList (c::cs))
  | _ => .word word

def operatorOf : Token → Option Op
  | .plus => some .union
  | .caret => some .intersect
  | .minus => some .except
  | _ => none

def kinds (function : Function) : List ArgKind := function.signature.1 ++ function.signature.2

def unknownFunction (dialect : Dialect) (name : String) (tokens : List Token) : String :=
  "unknown function '" ++ name ++ "' at '" ++ context tokens ++ "'; expected one of [" ++
    ", ".intercalate ((Function.all dialect).map fun f => "'" ++ f.name ++ "'") ++ "]"

def wrongCount (many name : String) (tokens : List Token) : Stop :=
  .error ("too " ++ many ++ " arguments to function '" ++ name ++ "' at '" ++ context tokens ++ "'")

def wordArgument : List Token → Result (Arg × List Token)
  | .word w::rest => .ok (.word w,rest)
  | .int n::rest => .ok (.word (toString n),rest)
  | [] => .error premature
  | tokens => .error (syntaxError tokens)

def intArgument : List Token → Result (Arg × List Token)
  | .int n::rest => .ok (.int n,rest)
  | .word w::_ => .error (.error ("expected an integer literal: '" ++ w ++ "'"))
  | [] => .error premature
  | tokens => .error (syntaxError tokens)

variable (dialect : Dialect)

mutual

def expression : ℕ → List Token → Result (Expr × List Token)
  | 0, _ => .error .outOfFuel
  | fuel+1, tokens => do
    let (left,rest) ← primary fuel tokens
    operators fuel left rest

def operators : ℕ → Expr → List Token → Result (Expr × List Token)
  | 0, _, _ => .error .outOfFuel
  | fuel+1, left, tokens =>
    match tokens.head?.bind operatorOf with
    | none => .ok (left,tokens)
    | some op => do
      let (right,rest) ← primary fuel tokens.tail
      operators fuel (.binary op left right) rest

def primary : ℕ → List Token → Result (Expr × List Token)
  | 0, _ => .error .outOfFuel
  | _+1, [] => .error premature
  | fuel+1, .word w::rest =>
    if rest.head? = some .openParen then call fuel w rest.tail else .ok (wordExpr w,rest)
  | _+1, .int n::rest => .ok (.word (toString n),rest)
  | fuel+1, .openParen::rest => do
    let (inner,rest) ← expression fuel rest
    return (inner,← expect .closeParen rest)
  | fuel+1, .letWord::.word name::rest => do
    let rest ← expect .equals rest
    let (value,rest) ← expression fuel rest
    let rest ← expect .inWord rest
    let (body,rest) ← expression fuel rest
    return (.letIn name value body,rest)
  | _+1, [.letWord] => .error premature
  | _+1, .letWord::rest => .error (syntaxError rest)
  | _+1, .setWord::rest => do
    let rest ← expect .openParen rest
    let (words,rest) ← setWords rest
    return (.set words,rest)
  | _+1, tokens => .error (syntaxError tokens)

/-- The call of a function, from behind the parenthesis. -/
def call : ℕ → String → List Token → Result (Expr × List Token)
  | 0, _, _ => .error .outOfFuel
  | fuel+1, name, tokens =>
    match Function.named name dialect with
    | none =>
      .error (.error (unknownFunction dialect name (.word name::.openParen::tokens)))
    | some function => do
      let (args,rest) ← if tokens.head? = some .closeParen then pure ([],tokens)
        else arguments fuel name (kinds function) tokens
      if args.length < function.signature.1.length ∧ rest.head? = some .closeParen then
        throw (wrongCount "few" name rest)
      return (.call function args,← expect .closeParen rest)

/-- There is always a kind left, since one is asked for before each comma. -/
def arguments : ℕ → String → List ArgKind → List Token → Result (List Arg × List Token)
  | 0, _, _, _ => .error .outOfFuel
  | _+1, _, [], _ => .error .outOfFuel
  | fuel+1, name, kind::kinds, tokens => do
    let (arg,rest) ← argument fuel kind tokens
    if rest.head? ≠ some .comma then return ([arg],rest)
    if kinds = [] then throw (wrongCount "many" name rest)
    let (args,rest) ← arguments fuel name kinds rest.tail
    return (arg::args,rest)

def argument : ℕ → ArgKind → List Token → Result (Arg × List Token)
  | 0, _, _ => .error .outOfFuel
  | fuel+1, .expr, tokens => do
    let (e,rest) ← expression fuel tokens
    return (.expr e,rest)
  | _+1, .word, tokens => wordArgument tokens
  | _+1, .int, tokens => intArgument tokens

end

def parseIn (chars : CharClass) (input : String) : Result Expr := do
  let tokens ← lex chars input
  let (e,rest) ← expression dialect (3*tokens.length+2) tokens
  match rest with
  | [] => return e
  | extra::_ => throw (.error ("unexpected token '" ++ extra.text ++ "' after query expression '" ++
      e.display chars ++ "'"))

def parse (chars : CharClass) (input : String) : Result Expr := parseIn .query chars input

end Parser

end BuildFiji.Query
