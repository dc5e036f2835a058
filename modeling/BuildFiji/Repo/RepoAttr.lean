import BuildFiji.Bzlmod.Lockfile
import BuildFiji.Graph.Label
import Mathlib

/-!
# Attributes in the lockfile

The attributes of a repository that an extension made, as the lockfile keeps them. A
label is its canonical text, and a string that could be taken for one is put between
quotes. What is read back is guessed from the text; a rule sees values in which an empty
list is one of anything.
-/

set_option autoImplicit false
set_option linter.all false

namespace BuildFiji.Replay

open BuildFiji.Graph (Label LabelContext)

open BuildFiji.Bzlmod (Json)

inductive RepoAttr where
  | none
  | bool (b : Bool)
  | int (i : Int64)
  | string (s : String)
  | stringList (items : List String)
  | stringDict (entries : List (String × String))
  | stringListDict (entries : List (String × List String))
  | intList (items : List Int64)
  | label (label : Label)
  | labelList (labels : List Label)
  | stringKeyedLabelDict (entries : List (String × Label))
  | labelKeyedStringDict (entries : List (Label × String))
  | labelListDict (entries : List (String × List Label))

/-- What a repository rule sees. -/
inductive Value where
  | none
  | bool (b : Bool)
  | int (i : Int32)
  | string (s : String)
  | label (label : Label)
  | list (items : List Value)
  | dict (entries : List (Value × Value))

def RepoAttr.toValue : RepoAttr → Value
  | .none => .none
  | .bool b => .bool b
  | .int i => .int i.toInt32
  | .string s => .string s
  | .stringList items => .list (items.map .string)
  | .stringDict entries => .dict (entries.map fun e => (.string e.1,.string e.2))
  | .stringListDict entries => .dict (entries.map fun e => (.string e.1,.list (e.2.map .string)))
  | .intList items => .list (items.map fun i => .int i.toInt32)
  | .label l => .label l
  | .labelList labels => .list (labels.map .label)
  | .stringKeyedLabelDict entries => .dict (entries.map fun e => (.string e.1,.label e.2))
  | .labelKeyedStringDict entries => .dict (entries.map fun e => (.label e.1,.string e.2))
  | .labelListDict entries => .dict (entries.map fun e => (.string e.1,.list (e.2.map .label)))

section Texts

def startsLabel (s : String) : Bool := "@@".toList.isPrefixOf s.toList

def wrapped (s : String) : Bool :=
  1 < s.length && s.toList.head? == some '\x27' && s.toList.getLast? == some '\x27'

def quoted (s : String) : String :=
  if startsLabel s || wrapped s then "'" ++ s ++ "'" else s

def unquoted (s : String) : String := if wrapped s then .ofList s.toList.tail.dropLast else s

def labelText (label : Label) : String :=
  "@@" ++ label.repo ++ "//" ++ label.package ++ ":" ++ label.name

def labelFrom (text : String) : Option Label :=
  if startsLabel text then (Label.parse text ⟨"",""⟩).toOption else none

end Texts

/-- Nothing for `None`. -/
def repoAttrJson : RepoAttr → Option Json
  | .none => none
  | .bool b => some (.bool b)
  | .int i => some (.number i.toInt.repr)
  | .string s => some (.string (quoted s))
  | .stringList items => some (.array (items.map fun s => .string (quoted s)))
  | .stringDict entries => some (.object (entries.map fun e => (quoted e.1,.string (quoted e.2))))
  | .stringListDict entries =>
    some (.object (entries.map fun e => (quoted e.1,.array (e.2.map fun s => .string (quoted s)))))
  | .intList items => some (.array (items.map fun i => .number i.toInt.repr))
  | .label l => some (.string (labelText l))
  | .labelList labels => some (.array (labels.map fun l => .string (labelText l)))
  | .stringKeyedLabelDict entries =>
    some (.object (entries.map fun e => (quoted e.1,.string (labelText e.2))))
  | .labelKeyedStringDict entries =>
    some (.object (entries.map fun e => (labelText e.1,.string (quoted e.2))))
  | .labelListDict entries =>
    some (.object (entries.map fun e => (quoted e.1,.array (e.2.map fun l => .string (labelText l)))))

section Read

def stringOf : Json → Option String
  | .string s => some s
  | _ => none

def asI64 (text : String) : Option Int64 :=
  text.toInt?.bind fun i => if -2^63 ≤ i ∧ i < 2^63 then some (Int64.ofInt i) else none

def isNumber : Json → Bool
  | .number _ => true
  | _ => false

def intOf : Json → Option Int64
  | .number text => asI64 text
  | _ => none

/-- A string that starts as a label does. -/
def isLabelText (json : Json) : Bool := (stringOf json).any startsLabel

def isPlainText (json : Json) : Bool := (stringOf json).any fun s => !startsLabel s

def labelOf (json : Json) : Option Label := (stringOf json).bind labelFrom

def isLabelTexts : Json → Bool
  | .array items => items.all isLabelText
  | _ => false

def entriesFromJson (entries : List (String × Json)) : RepoAttr :=
  if !entries.isEmpty && entries.all fun e => startsLabel e.1 then
    .labelKeyedStringDict (entries.filterMap fun e => do
      return (← labelFrom e.1,unquoted (← stringOf e.2)))
  else if entries.all fun e => isPlainText e.2 then
    .stringDict (entries.filterMap fun e => do return (unquoted e.1,unquoted (← stringOf e.2)))
  else if entries.all fun e => isLabelText e.2 then
    .stringKeyedLabelDict (entries.filterMap fun e => do return (unquoted e.1,← labelOf e.2))
  else if entries.all fun e => isLabelTexts e.2 then
    .labelListDict (entries.filterMap fun e =>
      match e.2 with
      | .array items => some (unquoted e.1,items.filterMap labelOf)
      | _ => none)
  else
    .stringListDict (entries.filterMap fun e =>
      match e.2 with
      | .array items => some (unquoted e.1,items.filterMap fun i => (stringOf i).map unquoted)
      | _ => none)

def itemsFromJson (items : List Json) : RepoAttr :=
  if items.all isNumber && !items.isEmpty then .intList (items.filterMap intOf)
  else if !items.isEmpty && items.all isLabelText then .labelList (items.filterMap labelOf)
  else .stringList (items.filterMap fun i => (stringOf i).map unquoted)

def repoAttrFromJson : Json → Option RepoAttr
  | .null => none
  | .bool b => some (.bool b)
  | .number text => (asI64 text).map .int
  | .string s =>
    match labelFrom s with
    | some label => some (.label label)
    | none => some (.string (unquoted s))
  | .array items => some (itemsFromJson items)
  | .object entries => some (entriesFromJson entries)

end Read

end BuildFiji.Replay
