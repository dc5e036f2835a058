import BuildFiji.Graph.Label

/-!
# Attributes of rules

What an attribute holds, what it is when a rule does not set it, and the labels
that its value names. A `select()` is a list of elements, each with the value of
every condition, that are joined once a branch of each is chosen.
-/

set_option autoImplicit false
set_option linter.all false

namespace BuildFiji.Graph

inductive AttrType where
  | bool
  | int
  | tristate
  | string
  | stringList
  | intList
  | label
  | labelList
  | stringDict
  | stringListDict
  | labelKeyedStringDict
  | stringKeyedLabelDict
  | labelListDict
  | output
  | outputList
  deriving DecidableEq

inductive AttrValue where
  | bool (b : Bool)
  | int (i : Int32)
  | string (s : String)
  | stringList (items : List String)
  | intList (items : List Int32)
  | label (l : Label)
  | labelList (items : List Label)
  | stringDict (entries : List (String × String))
  | stringListDict (entries : List (String × List String))
  | labelKeyedStringDict (entries : List (Label × String))
  | stringKeyedLabelDict (entries : List (String × Label))
  | labelListDict (entries : List (String × List Label))
  deriving DecidableEq

namespace AttrType

/-- As type errors name it. -/
def name : AttrType → String
  | bool => "bool"
  | int | tristate => "int"
  | string => "string"
  | stringList => "list(string)"
  | intList => "list(int)"
  | label | output => "string"
  | labelList => "list(label)"
  | stringDict => "dict(string, string)"
  | stringListDict => "dict(string, list(string))"
  | labelKeyedStringDict => "dict(label, string)"
  | stringKeyedLabelDict => "dict(string, label)"
  | labelListDict => "dict(string, list(label))"
  | outputList => "list(output)"

def zero : AttrType → Option AttrValue
  | bool => some (.bool false)
  | int | tristate => some (.int 0)
  | string => some (.string "")
  | stringList => some (.stringList [])
  | intList => some (.intList [])
  | labelList | outputList => some (.labelList [])
  | stringDict => some (.stringDict [])
  | stringListDict => some (.stringListDict [])
  | labelKeyedStringDict => some (.labelKeyedStringDict [])
  | stringKeyedLabelDict => some (.stringKeyedLabelDict [])
  | labelListDict => some (.labelListDict [])
  | label | output => none

end AttrType

namespace AttrValue

def labels : AttrValue → List Label
  | .label l => [l]
  | .labelList items => items
  | .labelKeyedStringDict entries => entries.map (·.1)
  | .stringKeyedLabelDict entries => entries.map (·.2)
  | .labelListDict entries => entries.flatMap (·.2)
  | _ => []

/-- The later entry of a key wins, in the place of the first. -/
def setEntry {κ β : Type} [DecidableEq κ] (e : κ × β) : List (κ × β) → List (κ × β)
  | [] => [e]
  | f::rest => if f.1 = e.1 then (f.1,e.2)::rest else f::setEntry e rest

def union {κ β : Type} [DecidableEq κ] (a b : List (κ × β)) : List (κ × β) :=
  b.foldl (fun out e => setEntry e out) a

/-- As `+` joins two lists, strings or ints and `|` two dicts. -/
def concat : AttrValue → AttrValue → Option AttrValue
  | .string x, .string y => some (.string (x ++ y))
  | .int x, .int y => some (.int (x+y))
  | .stringList x, .stringList y => some (.stringList (x ++ y))
  | .intList x, .intList y => some (.intList (x ++ y))
  | .labelList x, .labelList y => some (.labelList (x ++ y))
  | .stringDict x, .stringDict y => some (.stringDict (union x y))
  | .stringListDict x, .stringListDict y => some (.stringListDict (union x y))
  | .labelKeyedStringDict x, .labelKeyedStringDict y => some (.labelKeyedStringDict (union x y))
  | .stringKeyedLabelDict x, .stringKeyedLabelDict y => some (.stringKeyedLabelDict (union x y))
  | .labelListDict x, .labelListDict y => some (.labelListDict (union x y))
  | _, _ => none

end AttrValue

/-- One element of a `select()`: the value of every condition. -/
structure Selector where
  branches : List (Label × Option AttrValue)

/-- An attribute as a BUILD file sets it. -/
inductive Written where
  | plain (value : AttrValue)
  | select (elements : List Selector)

inductive Cfg where
  | target
  | exec
  | host
  | transition
  deriving DecidableEq

structure SchemaAttr where
  name : String
  ty : AttrType
  default : Option AttrValue
  computedDefault : Bool
  noDefault : Bool
  cfg : Cfg

def SchemaAttr.defaultValue (attr : SchemaAttr) : Option AttrValue :=
  if attr.computedDefault ∨ (attr.noDefault ∧ attr.default = none) then none
  else attr.default <|> attr.ty.zero

structure RuleSchema where
  attrs : List SchemaAttr
  /-- Implicit outputs given as templates, by their keys. -/
  outputs : List (String × String)
  incomingTransition : Bool

def RuleSchema.attr (schema : RuleSchema) (name : String) : Option SchemaAttr :=
  schema.attrs.find? fun a => a.name == name

abbrev Attrs := List (String × AttrValue)

/-- `set.iter().find(|(n, _)| n == name)` -/
def valueOf {β : Type} (set : List (String × β)) (name : String) : Option β :=
  (set.find? fun e => e.1 == name).map (·.2)

/-- Each attribute's value, set or defaulted, without those that have none. -/
def resolvedAttrs (schema : RuleSchema) (set : Attrs) : Attrs :=
  schema.attrs.filterMap fun attr =>
    (valueOf set attr.name <|> attr.defaultValue).map fun value => (attr.name,value)

section Resolve

variable {ε : Type} (choose : String → Selector → Except ε (Option AttrValue)) (different : String → ε)

def joinChosen (name : String) (joined : Option AttrValue) (selector : Selector) :
    Except ε (Option AttrValue) := do
  match ← choose name selector with
  | none => return joined
  | some value =>
    match joined with
    | none => return some value
    | some soFar =>
      match soFar.concat value with
      | some both => return some both
      | none => throw (different name)

/-- The `select()`s decided for a configuration: `choose` is what the conditions
of an element come to. -/
def resolve : List (String × Written) → Except ε Attrs
  | [] => return []
  | (name,.plain value)::attrs => do
    return (name,value) :: (← resolve attrs)
  | (name,.select elements)::attrs => do
    let joined ← elements.foldlM (joinChosen choose different name) none
    let rest ← resolve attrs
    match joined with
    | some value => return (name,value)::rest
    | none => return rest

end Resolve

end BuildFiji.Graph
