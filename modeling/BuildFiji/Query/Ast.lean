import Mathlib

/-!
# Query expressions

The syntax trees of the query language, the functions each dialect has and the
arguments they take, and the text a tree is shown as in an error.
-/

set_option autoImplicit false
set_option linter.all false

namespace BuildFiji.Query

inductive Op where
  | union
  | intersect
  | except
deriving DecidableEq

inductive Function where
  | allPaths
  | allRDeps
  | attr
  | buildFiles
  | config
  | deps
  | executables
  | filter
  | inputs
  | kind
  | labels
  | loadFiles
  | mnemonic
  | outputs
  | rBuildFiles
  | rDeps
  | samePkgDirectRDeps
  | siblings
  | some
  | somePath
  | tests
  | visible
deriving DecidableEq

inductive Dialect where
  | query
  | sky
  | cquery
  | aquery
deriving DecidableEq

inductive ArgKind where
  | expr
  | word
  | int
deriving DecidableEq

mutual

inductive Expr where
  | word (word : String)
  | variable (name : String)
  | set (words : List String)
  | binary (op : Op) (left right : Expr)
  | letIn (name : String) (value body : Expr)
  | call (function : Function) (args : List Arg)

inductive Arg where
  | expr (e : Expr)
  | word (word : String)
  | int (n : ℤ)

end

namespace Function

def everything : List Function :=
  [allPaths,allRDeps,attr,buildFiles,config,deps,executables,filter,inputs,kind,labels,loadFiles,
    mnemonic,outputs,rBuildFiles,rDeps,samePkgDirectRDeps,siblings,some,somePath,tests,visible]

def name : Function → String
  | allPaths => "allpaths"
  | allRDeps => "allrdeps"
  | attr => "attr"
  | buildFiles => "buildfiles"
  | config => "config"
  | deps => "deps"
  | executables => "executables"
  | filter => "filter"
  | inputs => "inputs"
  | kind => "kind"
  | labels => "labels"
  | loadFiles => "loadfiles"
  | mnemonic => "mnemonic"
  | outputs => "outputs"
  | rBuildFiles => "rbuildfiles"
  | rDeps => "rdeps"
  | samePkgDirectRDeps => "same_pkg_direct_rdeps"
  | siblings => "siblings"
  | some => "some"
  | somePath => "somepath"
  | tests => "tests"
  | visible => "visible"

def isIn (dialect : Dialect) : Function → Bool
  | inputs | mnemonic | outputs => dialect = .aquery
  | config => dialect = .cquery
  | allRDeps | rBuildFiles => dialect = .sky
  | _ => true

/-- The functions of a dialect, in the alphabetical order of their names. -/
def all (dialect : Dialect) : List Function := everything.filter (isIn dialect)

def named (text : String) (dialect : Dialect) : Option Function :=
  (all dialect).find? fun f => f.name = text

/-- The arguments a function must have, and those it may add. -/
def signature : Function → List ArgKind × List ArgKind
  | allPaths | somePath => ([.expr,.expr],[])
  | attr => ([.word,.word,.expr],[])
  | buildFiles | executables | loadFiles | samePkgDirectRDeps | siblings | some | tests =>
    ([.expr],[])
  | deps | allRDeps => ([.expr],[.int])
  | rBuildFiles => ([.word],List.replicate 31 .word)
  | filter | kind | labels => ([.word,.expr],[])
  | config => ([.expr,.word],[])
  | inputs | mnemonic | outputs => ([.word],[.expr])
  | rDeps => ([.expr,.expr],[.int])
  | visible => ([.expr,.expr],[])

theorem mem_everything (f : Function) : f ∈ everything := by
  cases f <;> decide

theorem name_injective {f g : Function} (h : f.name = g.name) : f = g := by
  revert h
  cases f <;> cases g <;> decide

/-- A function is found by its name in the dialects that have it. -/
theorem named_name {f : Function} {dialect : Dialect} (h : f.isIn dialect) :
    named f.name dialect = .some f := by
  rw [named]
  cases hf : (all dialect).find? fun g => g.name = f.name with
  | none =>
    have hmem : f ∈ all dialect := List.mem_filter.mpr ⟨mem_everything f,h⟩
    simpa using List.find?_eq_none.mp hf f hmem
  | some g =>
    have hg : g.name = f.name := by simpa using List.find?_some hf
    rw [name_injective hg]

end Function

/-- What the language takes a character for. Beyond ASCII this is the Unicode
tables', of which only that no letter or digit is a space is used. -/
structure CharClass where
  alphanumeric : Char → Bool
  whitespace : Char → Bool
  alphanumeric_ascii : ∀ c : Char, c.toNat < 128 → alphanumeric c = c.isAlphanum
  whitespace_ascii : ∀ c : Char, c.toNat < 128 →
    whitespace c = (c.toNat = 32 || (9 ≤ c.toNat && c.toNat ≤ 13))
  disjoint : ∀ c, alphanumeric c → whitespace c = false

def CharClass.asciiOnly : CharClass where
  alphanumeric := Char.isAlphanum
  whitespace c := c.toNat = 32 || (9 ≤ c.toNat && c.toNat ≤ 13)
  alphanumeric_ascii _ _ := rfl
  whitespace_ascii _ _ := rfl
  disjoint c h := by
    simp only [Char.isAlphanum, Char.isAlpha, Char.isUpper, Char.isLower, Char.isDigit,
      Bool.or_eq_true, Bool.and_eq_true, decide_eq_true_eq, ge_iff_le, UInt32.le_iff_toNat_le] at h
    have hnat : c.toNat = c.val.toNat := rfl
    simp at h ⊢
    omega

def wordPunctuation : List Char := "*/@.-_:$~[]".toList

def isWordChar (chars : CharClass) (c : Char) : Bool :=
  chars.alphanumeric c || wordPunctuation.contains c

/-- How evaluating or parsing ends without a result; running out of fuel is of
the model. -/
inductive Stop where
  | error (text : String)
  | outOfFuel
deriving DecidableEq

abbrev Result (α : Type) := Except Stop α

section Display
variable (chars : CharClass)

def quoteIfNeeded (word : String) : String :=
  if word.toList.all (isWordChar chars) ∧ word ≠ "" then word else "\"" ++ word ++ "\""

def Op.text : Op → String
  | .union => "+"
  | .intersect => "^"
  | .except => "-"

mutual

/-- The tree as an error shows it, without the parentheses it was written with. -/
def Expr.display : Expr → String
  | .word w => quoteIfNeeded chars w
  | .variable v => "$" ++ v
  | .set words => "set(" ++ " ".intercalate (words.map (quoteIfNeeded chars)) ++ ")"
  | .binary op l r => l.display ++ " " ++ op.text ++ " " ++ r.display
  | .letIn name value body => "let " ++ name ++ " = " ++ value.display ++ " in " ++ body.display
  | .call function args => function.name ++ "(" ++ ", ".intercalate (Arg.displays args) ++ ")"

def Arg.display : Arg → String
  | .expr e => e.display
  | .word w => quoteIfNeeded chars w
  | .int n => toString n

def Arg.displays : List Arg → List String
  | [] => []
  | arg::args => arg.display::Arg.displays args

end

/-- The tree as an error about its value shows it. -/
def Expr.canonical (e : Expr) : String :=
  match e with
  | .binary .. => "(" ++ e.display chars ++ ")"
  | _ => e.display chars

end Display

end BuildFiji.Query
