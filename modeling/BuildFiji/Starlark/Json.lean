import BuildFiji.Lib.Json
import BuildFiji.Lib.Utf16
import Mathlib

/-!
# The `json` module

The encoder writes the keys of a dictionary sorted, and no whitespace. The decoder walks the text
by byte offsets: a slice that starts inside a character would stop it. What `indent` does is not
parsing; it places newlines by the brackets, commas and colons that it walks past, and stops when
as many are closed as were opened.
-/

set_option autoImplicit false
set_option linter.all false

namespace BuildFiji.Starlark.Json

open BuildFiji.JsonGrammar

inductive SeqKind where
  | list
  | tuple
  | range
  | set
deriving DecidableEq

def SeqKind.name : SeqKind → String
  | list => "list"
  | tuple => "tuple"
  | range => "range"
  | set => "set"

/-- A value, with the items of what iterates and the fields of a struct in its own order. -/
inductive Value (F : Type) where
  | none
  | bool (b : Bool)
  | int (i : ℤ)
  | float (f : F)
  | str (s : String)
  | seq (kind : SeqKind) (items : List (Value F))
  | dict (entries : List (Value F × Value F))
  | struct (fields : List (String × Value F))
  | other (typeName : String)

/-- What floating point numbers are: the nearest to a text, and the text of one, or how one that
is not finite is called. -/
structure Floats (F : Type) where
  nearest : List Char → F
  format : F → Except String String

variable {F : Type}

def Value.typeName : Value F → String
  | none => "NoneType"
  | bool _ => "bool"
  | int _ => "int"
  | float _ => "float"
  | str _ => "string"
  | seq kind _ => kind.name
  | dict _ => "dict"
  | struct _ => "struct"
  | other typeName => typeName

def encodeDepth : ℕ := 8192

def decodeDepth : ℕ := 16384

def tooDeep : String := "nesting depth limit exceeded"

section Encode

def atPlace (place error : String) : String := if error = tooDeep then error else place ++ ": " ++ error

def hexDigit (n : ℕ) : Char := Nat.digitChar n

def writeChar (c : Char) : List Char :=
  if c = '"' then "\\\"".toList
  else if c = '\\' then "\\\\".toList
  else if c = '\n' then "\\n".toList
  else if c = '\r' then "\\r".toList
  else if c = '\t' then "\\t".toList
  else if c = '\x08' then "\\b".toList
  else if c = '\x0c' then "\\f".toList
  else if c.toNat < 0x20 then "\\u00".toList ++ [hexDigit (c.toNat/16),hexDigit (c.toNat%16)]
  else [c]

def writeString (s : String) : List Char := '"' :: (s.toList.flatMap writeChar ++ ['"'])

/-- The members of a dictionary or a struct, where `place` says how an error names one. -/
def writeMembers (inner : Value F → Except String (List Char)) (place : String → String)
    (members : List (String × Value F)) : Except String (List Char) := do
  let texts ← members.mapM fun m => do
    let text ← (inner m.2).mapError (atPlace (place m.1))
    return writeString m.1 ++ ':' :: text
  return '\x7b' :: ([','].intercalate texts ++ ['\x7d'])

def stringKey (e : Value F × Value F) : Except String (String × Value F) :=
  match e.1 with
  | .str key => .ok (key,e.2)
  | key => .error ("dict has " ++ key.typeName ++ " key, want string")

def encodeValue (floats : Floats F) (inner : Value F → Except String (List Char)) :
    Value F → Except String (List Char)
  | .none => .ok "null".toList
  | .bool b => .ok (if b then "true" else "false").toList
  | .str s => .ok (writeString s)
  | .int i => .ok (toString i).toList
  | .float f =>
    match floats.format f with
    | .ok text => .ok text.toList
    | .error name => .error ("cannot encode non-finite float " ++ name)
  | .dict entries => do
    let members ← entries.mapM stringKey
    writeMembers inner (fun key => "in dict key \"" ++ key ++ "\"") (members.mergeSort fun a b => a.1 ≤ b.1)
  | .struct fields => writeMembers inner (fun name => "in struct field ." ++ name) fields
  | .seq _ items => do
    let texts ← items.zipIdx.mapM fun v => (inner v.1).mapError (atPlace ("at list index " ++ toString v.2))
    return '[' :: ([','].intercalate texts ++ [']'])
  | .other typeName => .error ("cannot encode " ++ typeName ++ " as JSON")

/-- With the levels that are left. -/
def encodeInto (floats : Floats F) : ℕ → Value F → Except String (List Char)
  | 0, _ => .error tooDeep
  | room+1, v => encodeValue floats (encodeInto floats room) v

def encode (floats : Floats F) (v : Value F) : Except String (List Char) := encodeInto floats encodeDepth v

end Encode

/-- How a walk over a text stops: with an error, or where no program goes on, at a slice within a
character or at an index behind the end. -/
inductive Stop where
  | error (text : String)
  | stuck

section Offsets

/-- The bytes of a text. -/
def size (s : List Char) : ℕ := (s.map Char.utf8Size).sum

/-- A text cut after some bytes, if a character ends there. -/
def splitBytes : List Char → ℕ → Option (List Char × List Char)
  | s, 0 => some ([],s)
  | [], _+1 => none
  | c::s, n+1 =>
    if c.utf8Size ≤ n+1 then (splitBytes s (n+1-c.utf8Size)).map fun cut => (c::cut.1,cut.2) else none

def sliceFrom (text : List Char) (pos : ℕ) : Except Stop (List Char) :=
  match splitBytes text pos with
  | some cut => .ok cut.2
  | none => .error .stuck

end Offsets

section Decode

variable (text : List Char)

def fail {α : Type} (pos : ℕ) (what : String) : Except Stop α :=
  .error (.error ("at offset " ++ toString pos ++ ", " ++ what))

def isControl (c : Char) : Bool := c.toNat < 0x20 || 0x7f ≤ c.toNat && c.toNat < 0xa0

/-- A character as a message quotes it. -/
def «show» (c : Char) : String :=
  if c = '"' then "\\\""
  else if c = '\\' then "\\\\"
  else if c = '\n' then "\\n"
  else if c = '\r' then "\\r"
  else if c = '\t' then "\\t"
  else if isControl c then "\\u\x7b" ++ String.ofList (Nat.toDigits 16 c.toNat) ++ "\x7d"
  else String.singleton c

def peek (pos : ℕ) : Except Stop (Option Char) := do
  return (← sliceFrom text pos).head?

def skipSpace (pos : ℕ) : Except Stop ℕ := do
  return pos + ((← sliceFrom text pos).takeWhile isSpace).length

def eof {α : Type} (pos : ℕ) : Except Stop α := fail pos "unexpected end of file"

def literal (pos : ℕ) (word : String) (value : Value F) : Except Stop (Value F × ℕ) := do
  let rest ← sliceFrom text pos
  if word.toList.isPrefixOf rest then return (value,pos+size word.toList)
  else
    match rest.head? with
    | some c => fail pos ("unexpected character \"" ++ String.singleton c ++ "\"")
    | none => .error .stuck

def numberChar (c : Char) : Bool := c.isDigit || c = '.' || c = 'e' || c = 'E' || c = '+' || c = '-'

def withoutMinus (token : List Char) : List Char :=
  match token with
  | '-' :: digits => digits
  | _ => token

/-- What the standard library reads as the exponent of a floating point number. -/
def isExponent : List Char → Bool
  | [] => true
  | letter::rest =>
    let digits := if rest.head? = some '+' ∨ rest.head? = some '-' then rest.tail else rest
    (letter = 'e' || letter = 'E') && digits ≠ [] && digits.all Char.isDigit

/-- What it reads as a floating point number, apart from the words that it has for some. -/
def isFloat (token : List Char) : Bool :=
  let unsigned := if token.head? = some '+' ∨ token.head? = some '-' then token.tail else token
  let int := unsigned.takeWhile Char.isDigit
  match unsigned.dropWhile Char.isDigit with
  | '.' :: rest => (int ≠ [] || rest.takeWhile Char.isDigit ≠ []) && isExponent (rest.dropWhile Char.isDigit)
  | rest => int ≠ [] && isExponent rest

def digitsValue (digits : List Char) : ℕ := digits.foldl (fun n c => n*10+(c.toNat - '0'.toNat)) 0

/-- A whole number of any size, with at most one sign. -/
def parseInt (token : List Char) : Option ℤ :=
  let digits := if token.head? = some '+' ∨ token.head? = some '-' then token.tail else token
  if digits ≠ [] ∧ digits.all Char.isDigit then
    some (if token.head? = some '-' then -(digitsValue digits : ℤ) else digitsValue digits)
  else none

def number (floats : Floats F) (pos : ℕ) : Except Stop (Value F × ℕ) := do
  let token := (← sliceFrom text pos).takeWhile numberChar
  let stop := pos+token.length
  let invalid := "invalid number: " ++ String.ofList token
  let digits := withoutMinus token
  if ¬ digits.head?.any Char.isDigit ∨ digits.head? = some '0' ∧ (digits[1]?).any Char.isDigit then
    fail pos invalid
  else
    let intLen := (digits.takeWhile Char.isDigit).length
    if digits[intLen]? = some '.' ∧ ¬ (digits[intLen+1]?).any Char.isDigit then fail pos invalid
    else if token.any fun c => c = '.' || c = 'e' || c = 'E' then
      if isFloat token then return (.float (floats.nearest token),stop) else fail stop invalid
    else
      match parseInt token with
      | some i => return (.int i,stop)
      | none => fail stop invalid

def simpleEscape (e : Char) : Option Char :=
  if e = '"' then some '"'
  else if e = '\\' then some '\\'
  else if e = '/' then some '/'
  else if e = 'b' then some '\x08'
  else if e = 'f' then some '\x0c'
  else if e = 'n' then some '\n'
  else if e = 'r' then some '\r'
  else if e = 't' then some '\t'
  else none

/-- The four digits of an escape; the end of the string is the end of the escape. -/
def readHex (pos : ℕ) : List Char → ℕ → Except Stop ℕ
  | [], unit => .ok unit
  | h::rest, unit =>
    match hexValue h with
    | some digit => readHex pos rest (unit*16+digit)
    | none =>
      if h = '"' then fail pos "incomplete \\uXXXX escape"
      else fail pos ("invalid hex char \"" ++ String.singleton h ++ "\" in \\uXXXX escape")

def stringLoop : ℕ → List UInt16 → ℕ → Except Stop (String × ℕ)
  | 0, _, _ => .error .stuck
  | fuel+1, units, pos => do
    match ← peek text pos with
    | none => fail (size text) "unclosed string literal"
    | some c =>
      if c = '"' then return (String.ofList (Utf16.fromUnits units),pos+1)
      else if c = '\\' then
        match ← peek text (pos+1) with
        | none => fail (pos+1) "incomplete escape"
        | some e =>
          let pos := pos+1+e.utf8Size
          match simpleEscape e with
          | some ch => stringLoop fuel (units ++ Utf16.units ch) pos
          | none =>
            if e = 'u' then
              match splitBytes (← sliceFrom text pos) 4 with
              | none => fail pos "incomplete \\uXXXX escape"
              | some cut =>
                let unit ← readHex pos cut.1 0
                stringLoop fuel (units ++ [.ofNat unit]) (pos+4)
            else fail pos ("invalid escape '\\" ++ String.singleton e ++ "'")
      else if c.toNat < 0x20 then
        fail pos ("invalid character '\\x" ++ String.ofList [hexDigit (c.toNat/16),hexDigit (c.toNat%16)] ++
          "' in string literal")
      else stringLoop fuel (units ++ Utf16.units c) (pos+c.utf8Size)

def string (pos : ℕ) : Except Stop (String × ℕ) := stringLoop text (text.length+1) [] (pos+1)

def arrayLoop (value : ℕ → Except Stop (Value F × ℕ)) : ℕ → List (Value F) → ℕ → Except Stop (Value F × ℕ)
  | 0, _, _ => .error .stuck
  | fuel+1, items, pos => do
    let read ← value (← skipSpace text pos)
    let items := items ++ [read.1]
    let pos ← skipSpace text read.2
    match ← peek text pos with
    | none => eof pos
    | some c =>
      if c = ',' then arrayLoop value fuel items (pos+1)
      else if c = ']' then return (.seq .list items,pos+1)
      else fail pos ("got \"" ++ «show» c ++ "\", want ',' or ']'")

def array (value : ℕ → Except Stop (Value F × ℕ)) (pos : ℕ) : Except Stop (Value F × ℕ) := do
  let pos ← skipSpace text (pos+1)
  if (← peek text pos) = some ']' then return (.seq .list [],pos+1)
  else arrayLoop text value (text.length+1) [] pos

/-- A repeated key keeps its first place and its last value. -/
def insertEntry (entries : List (String × Value F)) (key : String) (value : Value F) : List (String × Value F) :=
  match entries with
  | [] => [(key,value)]
  | e::entries => if e.1 = key then (key,value)::entries else e::insertEntry entries key value

def asDict (entries : List (String × Value F)) : Value F := .dict (entries.map fun e => (.str e.1,e.2))

def objectLoop (value : ℕ → Except Stop (Value F × ℕ)) :
    ℕ → List (String × Value F) → ℕ → Except Stop (Value F × ℕ)
  | 0, _, _ => .error .stuck
  | fuel+1, entries, pos => do
    let read ← value (← skipSpace text pos)
    match read.1 with
    | .str key =>
      let pos ← skipSpace text read.2
      match ← peek text pos with
      | none => eof pos
      | some c =>
        if c = ':' then
          let read ← value (← skipSpace text (pos+1))
          let entries := insertEntry entries key read.1
          let pos ← skipSpace text read.2
          match ← peek text pos with
          | none => eof pos
          | some c =>
            if c = ',' then objectLoop value fuel entries (pos+1)
            else if c = '\x7d' then return (asDict entries,pos+1)
            else fail pos ("in object, got \"" ++ «show» c ++ "\", want ',' or '\x7d'")
        else fail pos ("after object key, got \"" ++ «show» c ++ "\", want ':' ")
    | key => fail read.2 ("got " ++ key.typeName ++ " for object key, want string")

def object (value : ℕ → Except Stop (Value F × ℕ)) (pos : ℕ) : Except Stop (Value F × ℕ) := do
  let pos ← skipSpace text (pos+1)
  if (← peek text pos) = some '\x7d' then return (asDict [],pos+1)
  else objectLoop text value (text.length+1) [] pos

def valueHere (floats : Floats F) (value : ℕ → Except Stop (Value F × ℕ)) (pos : ℕ) :
    Except Stop (Value F × ℕ) := do
  match ← peek text pos with
  | none => eof pos
  | some c =>
    if c = '\x7b' then object text value pos
    else if c = '[' then array text value pos
    else if c = '"' then
      let read ← string text pos
      return (.str read.1,read.2)
    else if c = 't' then literal text pos "true" (.bool true)
    else if c = 'f' then literal text pos "false" (.bool false)
    else if c = 'n' then literal text pos "null" .none
    else if c = '-' ∨ c.isDigit then number text floats pos
    else fail pos ("unexpected character \"" ++ «show» c ++ "\"")

/-- With the levels that are left. -/
def value (floats : Floats F) : ℕ → ℕ → Except Stop (Value F × ℕ)
  | 0, _ => .error (.error tooDeep)
  | room+1, pos => valueHere text floats (value floats room) pos

def decode (floats : Floats F) : Except Stop (Value F) := do
  let read ← value text floats decodeDepth (← skipSpace text 0)
  let pos ← skipSpace text read.2
  match ← peek text pos with
  | some c => fail pos ("unexpected character \"" ++ «show» c ++ "\" after value")
  | none => return read.1

end Decode

section Indent

variable (before unit : List Char)

def newline (depth : ℤ) : List Char := '\n' :: (before ++ (List.replicate depth.toNat unit).flatten)

/-- To the quote that ends the string. -/
def copyString : List Char → Option (List Char × List Char)
  | [] => none
  | c::rest =>
    if c = '\\' then
      match rest with
      | [] => none
      | e::rest => (copyString rest).map fun copied => (c::e::copied.1,copied.2)
    else if c = '"' then some ([c],rest)
    else (copyString rest).map fun copied => (c::copied.1,copied.2)

structure Placed where
  out : List Char
  depth : ℤ
  rest : List Char

def invalid : Stop := .error "input is not valid JSON"

def endOfFile : Stop := .error "unexpected end of file"

def placeToken (depth : ℤ) (ch : Char) (rest : List Char) : Except Stop Placed :=
  if ch = '"' then
    match copyString rest with
    | some (copied,rest) => .ok ⟨ch::copied,depth,rest⟩
    | none => .error invalid
  else if ch = '\x7b' ∨ ch = '[' then
    match rest.dropWhile isSpace with
    | c::after =>
      if c = '\x7d' ∨ c = ']' then .ok ⟨[ch,c],depth,after⟩
      else .ok ⟨ch::newline before unit (depth+1),depth+1,rest⟩
    | [] => .ok ⟨ch::newline before unit (depth+1),depth+1,rest⟩
  else if ch = '\x7d' ∨ ch = ']' then .ok ⟨newline before unit (depth-1) ++ [ch],depth-1,rest⟩
  else if ch = ',' then .ok ⟨ch::newline before unit depth,depth,rest⟩
  else if ch = ':' then .ok ⟨[ch,' '],depth,rest⟩
  else if ch = 't' ∨ ch = 'n' ∨ ch = 'f' then
    let len := if ch = 'f' then 5 else 4
    if rest.length+1 < len then .error endOfFile
    else .ok ⟨ch::rest.take (len-1),depth,rest.drop (len-1)⟩
  else if ch = '-' ∨ ch.isDigit then
    if rest.dropWhile numberChar = [] then .error invalid
    else .ok ⟨ch::rest.takeWhile numberChar,depth,rest.dropWhile numberChar⟩
  else .error (.error ("unexpected character \"" ++ String.singleton ch ++ "\""))

def indentLoop : ℕ → ℤ → List Char → List Char → Except Stop (List Char)
  | 0, _, _, _ => .error .stuck
  | _+1, _, [], _ => .error .stuck
  | fuel+1, depth, ch::rest, out => do
    let placed ← placeToken before unit depth ch rest
    if placed.depth ≤ 0 then return out ++ placed.out
    else if placed.rest.dropWhile isSpace = [] then .error endOfFile
    else indentLoop fuel placed.depth (placed.rest.dropWhile isSpace) (out ++ placed.out)

def indent (text : List Char) : Except Stop (List Char) :=
  if text.dropWhile isSpace = [] then .error endOfFile
  else indentLoop before unit (text.length+1) 0 (text.dropWhile isSpace) []

/-- What `json.encode_indent` gives. -/
def encodeIndent (floats : Floats F) (v : Value F) : Except Stop (List Char) := do
  indent before unit (← (encode floats v).mapError .error)

end Indent

end BuildFiji.Starlark.Json
