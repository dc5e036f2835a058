import BuildFiji.Lib.Framing
import BuildFiji.Graph.Configuration

/-!
# Protocol buffer output

A message is the fields that were set, each with its number and name. The
writers sort them by number; one writes the wire format, the other JSON.
-/

set_option autoImplicit false
set_option linter.all false

namespace BuildFiji.Query.Proto

open Graph.Configuration (utf8)
open Framing (varint)

mutual

/-- A value of a field. -/
inductive Val where
  | int (i : Int64)
  | bool (b : Bool)
  | str (s : String)
  | enum (name : String) (number : Int32)
  | msg (m : Msg)

/-- A packed field is a number and repeated. -/
inductive Field where
  | plain (number : UInt32) (name : String) (repeated : Bool) (value : Val)
  | packed (number : UInt32) (name : String) (i : Int64)

inductive Msg where
  | mk (fields : List Field)

end

namespace Field

def number : Field → ℕ
  | plain number _ _ _ => number.toNat
  | packed number _ _ => number.toNat

def name : Field → String
  | plain _ name _ _ => name
  | packed _ name _ => name

def repeated : Field → Bool
  | plain _ _ repeated _ => repeated
  | packed .. => true

def value : Field → Val
  | plain _ _ _ value => value
  | packed _ _ i => .int i

/-- The field is of the packed numbers of a field number. -/
def packedOf (number : ℕ) : Field → Bool
  | plain .. => false
  | packed n _ _ => n.toNat = number

end Field

namespace Msg

def fields : Msg → List Field
  | mk fields => fields

def one (m : Msg) (number : UInt32) (name : String) (value : Val) : Msg :=
  .mk (m.fields ++ [.plain number name false value])

def packed (m : Msg) (number : UInt32) (name : String) (values : List Int64) : Msg :=
  .mk (m.fields ++ values.map (.packed number name))

def many (m : Msg) (number : UInt32) (name : String) (values : List Val) : Msg :=
  .mk (m.fields ++ values.map (.plain number name true))

/-- The fields by number, those of one number in the order they were added. -/
def sorted (m : Msg) : List Field := m.fields.mergeSort fun f g => f.number ≤ g.number

end Msg

mutual

def Val.depth : Val → ℕ
  | .int _ => 0
  | .bool _ => 0
  | .str _ => 0
  | .enum .. => 0
  | .msg m => m.depth

def Field.depth : Field → ℕ
  | .plain _ _ _ value => value.depth
  | .packed .. => 0

def fieldsDepth : List Field → ℕ
  | [] => 0
  | f::fields => max f.depth (fieldsDepth fields)

/-- How deep messages are within messages. -/
def Msg.depth : Msg → ℕ
  | .mk fields => fieldsDepth fields+1

end

section Recursion

variable {α : Type} (step : (Msg → α) → Msg → α) (start : Msg → α)

def descend : ℕ → Msg → α
  | 0, m => start m
  | n+1, m => step (descend n) m

end Recursion

section Binary

/-- A field that is not packed, where `body` is the wire format of a message. -/
def encodeField (body : Msg → List UInt8) (number : ℕ) : Val → List UInt8
  | .int i => varint (number <<< 3) ++ varint i.toUInt64.toNat
  | .bool b => varint (number <<< 3) ++ varint b.toNat
  | .enum _ n => varint (number <<< 3) ++ varint n.toInt64.toUInt64.toNat
  | .str s => varint (number <<< 3 ||| 2) ++ (varint (utf8 s).length ++ utf8 s)
  | .msg m => varint (number <<< 3 ||| 2) ++ (varint (body m).length ++ body m)

def packedBody (run : List Field) : List UInt8 :=
  run.flatMap fun f =>
    match f.value with
    | .int i => varint i.toUInt64.toNat
    | _ => []

/-- The sorted fields, a run of packed numbers as one record. -/
def encode (body : Msg → List UInt8) : List Field → List UInt8
  | [] => []
  | .plain number _ _ value::fields => encodeField body number.toNat value ++ encode body fields
  | .packed number name i::fields =>
    let run := Field.packed number name i::fields.takeWhile (Field.packedOf number.toNat)
    varint (number.toNat <<< 3 ||| 2) ++ (varint (packedBody run).length ++ (packedBody run ++
      encode body (fields.dropWhile (Field.packedOf number.toNat))))
termination_by fields => fields.length
decreasing_by
  · exact Nat.lt_succ_self _
  · exact Nat.lt_succ_of_le (List.dropWhile_sublist _).length_le

/-- The message in the wire format. -/
def Msg.binary (m : Msg) : List UInt8 := descend (fun body m => encode body m.sorted) (fun _ => []) m.depth m

/-- The message preceded by its length. -/
def Msg.delimited (m : Msg) : List UInt8 := varint m.binary.length ++ m.binary

end Binary

section Json

variable (uppercase : Char → List Char)

def jsonNameFrom : Bool → List Char → List Char
  | _, [] => []
  | upper, c::cs =>
    if c = '_' then jsonNameFrom true cs
    else (if upper then uppercase c else [c]) ++ jsonNameFrom false cs

/-- `string_list_value` as JSON names it, `stringListValue`. -/
def jsonName (name : String) : List Char := jsonNameFrom uppercase false name.toList

def hex4 (n : ℕ) : List Char :=
  [Nat.digitChar (n/0x1000%16),Nat.digitChar (n/0x100%16),Nat.digitChar (n/16%16),Nat.digitChar (n%16)]

def jsonEscape (c : Char) : List Char :=
  if c = '"' then ['\\', '"']
  else if c = '\\' then ['\\', '\\']
  else if c = '\n' then ['\\', 'n']
  else if c = '\r' then ['\\', 'r']
  else if c = '\t' then ['\\', 't']
  else if c = '\x08' then ['\\', 'b']
  else if c = '\x0c' then ['\\', 'f']
  else if c = '<' ∨ c = '>' ∨ c = '&' ∨ c = '=' ∨ c = '\'' then '\\' :: 'u' :: hex4 c.toNat
  else if c.toNat < 0x20 ∨ c.toNat = 0x2028 ∨ c.toNat = 0x2029 then '\\' :: 'u' :: hex4 c.toNat
  else [c]

structure Entry where
  name : String
  repeated : Bool
  values : List Val

/-- A field joins the last entry when that has its name. -/
def gatherField (entries : List Entry) (f : Field) : List Entry :=
  match entries.getLast? with
  | some e =>
    if e.name = f.name then entries.dropLast ++ [{ e with values := e.values ++ [f.value] }]
    else entries ++ [⟨f.name,f.repeated,[f.value]⟩]
  | none => [⟨f.name,f.repeated,[f.value]⟩]

def gather (fields : List Field) : List Entry := fields.foldl gatherField []

/-- A new line at an indent, and nothing where there is no whitespace at all. -/
def newLine : Option ℕ → List Char
  | some indent => '\n'::List.replicate indent ' '
  | none => []

def spaced (indent : Option ℕ) : List Char := if indent.isSome then [' '] else []

def writeValue (message : Msg → Option ℕ → List Char) (indent : Option ℕ) : Val → List Char
  | .int i => (toString i.toInt).toList
  | .bool b => (toString b).toList
  | .enum name _ => '"'::(name.toList ++ ['"'])
  | .str s => '"'::(s.toList.flatMap jsonEscape ++ ['"'])
  | .msg m => message m indent

def writeEntry (message : Msg → Option ℕ → List Char) (indent : Option ℕ) (e : Entry) : List Char :=
  newLine indent ++ ('"'::(jsonName uppercase e.name ++ ('"' :: ':' :: (spaced indent ++
    if e.repeated then
      '['::((',' :: spaced indent).intercalate (e.values.map (writeValue message indent)) ++ [']'])
    else (e.values.head?.map (writeValue message indent)).getD []))))

def writeJson (message : Msg → Option ℕ → List Char) (m : Msg) (indent : Option ℕ) : List Char :=
  let entries := gather m.sorted
  let inner := indent.map (· + 2)
  '\x7b'::([','].intercalate (entries.map (writeEntry uppercase message inner)) ++
    ((if entries = [] then [] else newLine indent) ++ ['\x7d']))

/-- No whitespace at all without an indent. -/
def Msg.writeJson (m : Msg) (indent : Option ℕ) : List Char :=
  descend (Proto.writeJson uppercase) (fun _ _ => []) m.depth m indent

def Msg.json (m : Msg) : List Char := m.writeJson uppercase (some 0) ++ ['\n']

def Msg.jsonCompact (m : Msg) : List Char := m.writeJson uppercase none

end Json

/-- One message in another, at any depth. -/
inductive Within (m : Msg) : Msg → Prop where
  | itself : Within m m
  | nested {m' m'' : Msg} {f : Field} : Within m m' → f ∈ m'.fields → f.value = .msg m'' → Within m m''

section Descent

theorem field_depth {fields : List Field} {f : Field} (h : f ∈ fields) : f.depth ≤ fieldsDepth fields := by
  induction fields with
  | nil => exact absurd h List.not_mem_nil
  | cons g fields ih =>
    rw [fieldsDepth]
    rcases List.mem_cons.mp h with rfl | h
    · exact Nat.le_max_left _ _
    · exact (ih h).trans (Nat.le_max_right _ _)

theorem nested_depth {m m' : Msg} {f : Field} (hf : f ∈ m.fields) (hvalue : f.value = .msg m') :
    m'.depth < m.depth := by
  obtain ⟨fields⟩ := m
  have hle := field_depth hf
  cases f with
  | plain number name repeated value =>
    cases hvalue
    rw [Field.depth, Val.depth] at hle
    rw [Msg.depth]
    exact Nat.lt_succ_of_le hle
  | packed number name i => cases hvalue

theorem mem_sorted {m : Msg} {f : Field} : f ∈ m.sorted ↔ f ∈ m.fields := List.mem_mergeSort

variable {α : Type} {step : (Msg → α) → Msg → α} {start : Msg → α}

/-- A step looks at the messages that are values of fields only. -/
def Local (step : (Msg → α) → Msg → α) : Prop :=
  ∀ g h m, (∀ f ∈ m.fields, ∀ m', f.value = .msg m' → g m' = h m') → step g m = step h m

theorem descend_stable (hlocal : Local step) (n k : ℕ) (m : Msg) (hn : m.depth ≤ n) (hk : m.depth ≤ k) :
    descend step start n m = descend step start k m := by
  induction n generalizing k m with
  | zero =>
    obtain ⟨fields⟩ := m
    exact absurd hn (Nat.not_succ_le_zero _)
  | succ n ih =>
    cases k with
    | zero =>
      obtain ⟨fields⟩ := m
      exact absurd hk (Nat.not_succ_le_zero _)
    | succ k =>
      apply hlocal
      intro f hf m' hvalue
      have hlt := nested_depth hf hvalue
      exact ih k m' (by omega) (by omega)

theorem descend_depth (hlocal : Local step) (m : Msg) :
    descend step start m.depth m = step (fun m' => descend step start m'.depth m') m := by
  obtain ⟨n,hn⟩ : ∃ n, m.depth = n+1 := by
    obtain ⟨fields⟩ := m
    exact ⟨_,rfl⟩
  rw [hn, descend]
  apply hlocal
  intro f hf m' hvalue
  have hlt := nested_depth hf hvalue
  exact descend_stable hlocal n _ m' (by omega) (Nat.le_refl _)

theorem encode_local {g h : Msg → List UInt8} (fields : List Field)
    (hsame : ∀ f ∈ fields, ∀ m', f.value = .msg m' → g m' = h m') : encode g fields = encode h fields := by
  fun_induction encode g fields with
  | case1 => rw [encode]
  | case2 number name repeated value fields ih =>
    rw [encode, ih fun f hf => hsame f (List.mem_cons_of_mem _ hf)]
    congr 1
    cases value with
    | msg m' =>
      have heq := hsame _ List.mem_cons_self m' rfl
      rw [encodeField, encodeField, heq]
    | int | bool | str | enum => rfl
  | case3 number name i fields run ih =>
    rw [encode, ih fun f hf => hsame f (List.mem_cons_of_mem _ ((List.dropWhile_sublist _).subset hf))]

theorem binary_eq (m : Msg) : m.binary = encode Msg.binary m.sorted :=
  descend_depth (fun _ _ m hsame => encode_local m.sorted fun f hf => hsame f (mem_sorted.mp hf)) m

end Descent

end BuildFiji.Query.Proto
