import BuildFiji.Graph.Pattern
import Mathlib.Data.List.TakeWhile
import BuildFiji.Lib.Fallible
import BuildFiji.Starlark.CcFeatures

/-!
# C++ build variables

What a name in a flag stands for. Variables are looked up in a scope for each iteration they are
inside of, the innermost first, and then among those a rule gives.
-/

set_option autoImplicit false
set_option linter.all false

namespace BuildFiji.CcFeatures
open Graph

inductive Value where
  | string (text : List Char)
  | int (value : ℤ)
  | bool (value : Bool)
  | file (path : List Char)
  | list (elements : List Value)
  | tuple (elements : List Value)
  | depset (elements : List Value)
  | dict (entries : List (List Char × Value))
  | struct (fields : List (List Char × Value))
  | other (type : String)

abbrev Entries := List (List Char × Value)

def entry (entries : Entries) (name : List Char) : Option Value :=
  (entries.find? fun e => e.1 = name).map Prod.snd

namespace Value

def type : Value → String
  | string _ => "string"
  | int _ => "int"
  | bool _ => "bool"
  | file _ => "File"
  | list _ => "list"
  | tuple _ => "tuple"
  | depset _ => "depset"
  | dict _ => "dict"
  | struct _ => "struct"
  | other type => type

def missingField : List Char := ['_','m','i','s','s','i','n','g']

/-- `_MISSING` -/
def missing : Value := struct [(missingField,bool true)]

def isMissing : Value → Bool
  | struct [(name,bool true)] => name = missingField
  | _ => false

def found (value : Value) : Option Value := if value.isMissing then none else some value

def truthy : Value → Bool
  | bool value => value
  | int value => value ≠ 0
  | string text => text ≠ []
  | list elements => elements ≠ []
  | tuple elements => elements ≠ []
  | depset elements => elements ≠ []
  | _ => true

@[simp] theorem found_missing : missing.found = none := rfl

theorem found_of_not {value : Value} (h : value.isMissing = false) : value.found = some value := by
  simp [found, h]

end Value

/-- Those of the innermost scope first, each with its parents after it. -/
abbrev Variables := List Entries

/-- An iteration gives one variable. -/
def Variables.inside (scopes : Variables) (name : List Char) (element : Value) : Variables :=
  [(name,element)]::scopes

section Lookup

-- What `getattr` finds in a value that is neither a struct nor a dict.
variable (attr : Value → List Char → Option Value)

def Value.get (value : Value) (name : List Char) : Option Value :=
  match value with
  | .dict entries => entry entries name
  | .struct fields => entry fields name
  | value => attr value name

def field (value : Value) (name : List Char) : Value := (value.get attr name).getD .missing

def fields (value : Value) : List (List Char) → Value
  | [] => value
  | part::parts =>
    let value := field attr value part
    if value.isMissing then .missing else fields value parts

def lookupIn : Variables → List Char → Value
  | [], _ => .missing
  | values::parents, path =>
    match entry values path with
    | some value => value
    | none =>
      let first := (splitOn '.' path).headD []
      match if first ≠ path then entry values first else none with
      | some value => fields attr value (splitOn '.' path).tail
      | none => lookupIn parents path

/-- So many scopes are looked at. -/
def lookup (scopes : Variables) (path : List Char) : Value := lookupIn attr (scopes.take 256) path

end Lookup

section Meaning

variable (attr : Value → List Char → Option Value)

/-- A field of a field of the value. -/
def Value.getAll (value : Value) : List (List Char) → Option Value
  | [] => some value
  | part::parts => (value.get attr part).bind fun value => value.getAll parts

/-- The fields that a path is about if it begins with the name and a dot. -/
def below (name path : List Char) : Option (List (List Char)) :=
  if (name ++ ['.']) <+: path then some (splitOn '.' (path.drop (name.length+1))) else none

def given (values : Entries) (path : List Char) : Option Value :=
  (entry values path).or <|
    match splitOn '.' path with
    | first::part::parts => (entry values first).bind fun value => value.getAll attr (part::parts)
    | _ => none

/-- The value of a name inside iterations, the innermost first. -/
def meaning (values : Entries) : Entries → List Char → Option Value
  | [], path => given attr values path
  | (name,element)::outer, path =>
    if path = name then some element
    else match below name path with
      | some parts => element.getAll attr parts
      | none => meaning values outer path

/-- No field on the way has the value that says that there is none. -/
def unmarked (value : Value) : List (List Char) → Bool
  | [] => true
  | part::parts => (value.get attr part).all fun value => !value.isMissing && unmarked value parts

def givenClear (values : Entries) (path : List Char) : Bool :=
  match entry values path with
  | some value => !value.isMissing
  | none =>
    match splitOn '.' path with
    | first::part::parts => (entry values first).all fun value => unmarked attr value (part::parts)
    | _ => true

/-- So many scopes tell the value; it is not the one that says that there is none, nor that of a field
of an element which goes by a name with a dot. -/
def clear (values : Entries) : ℕ → Entries → List Char → Bool
  | 0, _, _ => false
  | _+1, [], path => givenClear attr values path
  | scopes+1, (name,element)::outer, path =>
    if path = name then !element.isMissing
    else match below name path with
      | some parts => !name.contains '.' && unmarked attr element parts
      | none => clear values scopes outer path

variable {attr}

theorem found_fields {parts : List (List Char)} {value : Value} (h : unmarked attr value parts)
    (hparts : parts ≠ [] ∨ value.isMissing = false) :
    (fields attr value parts).found = value.getAll attr parts := by
  induction parts generalizing value with
  | nil =>
    have hmarked := hparts.resolve_left (fun hne => hne rfl)
    exact Value.found_of_not hmarked
  | cons part parts ih =>
    rw [unmarked] at h
    rw [fields, Value.getAll, field]
    cases hget : value.get attr part with
    | none => rfl
    | some next =>
      rw [hget, Option.all_some, Bool.and_eq_true, Bool.not_eq_true'] at h
      simp only [Option.getD_some, Option.bind_some, h.1, Bool.false_eq_true, if_false]
      exact ih h.2 (.inr h.1)

theorem below_some {name path : List Char} {parts : List (List Char)} (h : below name path = some parts) :
    ∃ rest, path = name ++ '.'::rest ∧ parts = splitOn '.' rest := by
  unfold below at h
  split at h
  · next hprefix =>
    obtain ⟨rest,rfl⟩ := hprefix
    refine ⟨rest,by simp,?_⟩
    have hdrop : (name ++ ['.'] ++ rest).drop (name.length+1) = rest := by
      rw [List.drop_left' (by simp)]
    rw [hdrop] at h
    exact (Option.some.inj h).symm
  · exact absurd h (by simp)

theorem below_none {name path : List Char} (h : below name path = none) (rest : List Char) :
    path ≠ name ++ '.'::rest := by
  intro hpath
  unfold below at h
  rw [if_pos ⟨rest,by simp [hpath]⟩] at h
  exact absurd h (by simp)

/-- What stands before the first dot, if there is one. -/
theorem splitOn_head {path first : List Char} {parts : List (List Char)} (h : splitOn '.' path = first::parts)
    (hne : first ≠ path) : parts ≠ [] ∧ ∃ rest, path = first ++ '.'::rest := by
  have hjoin := intercalate_splitOn '.' path
  rw [h] at hjoin
  cases parts with
  | nil =>
    rw [List.intercalate_singleton] at hjoin
    exact absurd hjoin hne
  | cons part parts =>
    rw [List.intercalate_cons_of_ne_nil (by simp)] at hjoin
    exact ⟨by simp,_,by rw [← hjoin, List.append_assoc]; rfl⟩

theorem head_ne {path first part : List Char} {parts : List (List Char)}
    (h : splitOn '.' path = first::part::parts) : first ≠ path := by
  intro hpath
  have hdot : '.' ∉ first := not_mem_splitOn (by rw [h]; exact List.mem_cons_self)
  rw [← hpath, splitOn_of_not_mem hdot] at h
  simp at h

theorem entry_single (name path : List Char) (element : Value) :
    entry [(name,element)] path = if path = name then some element else none := by
  by_cases h : path = name
  · simp [entry, h]
  · simp [entry, h, Ne.symm h]

/-- The scopes that the iterations have, around what is given. -/
def nested (values : Entries) (loops : Entries) : Variables := loops.map (fun e => [e]) ++ [values]

theorem lookupIn_given {values : Entries} {path : List Char} (h : givenClear attr values path) :
    (lookupIn attr [values] path).found = given attr values path := by
  rw [givenClear] at h
  rw [lookupIn, given]
  cases hentry : entry values path with
  | some value =>
    rw [hentry, Bool.not_eq_true'] at h
    exact Value.found_of_not h
  | none =>
    rw [hentry] at h
    simp only [Option.none_or]
    cases hsplit : splitOn '.' path with
    | nil => exact absurd hsplit (splitOn_ne_nil '.' path)
    | cons first parts =>
      cases parts with
      | nil =>
        have hfirst : first = path := by
          by_contra hne
          exact (splitOn_head hsplit hne).1 rfl
        simp [hfirst, lookupIn]
      | cons part parts =>
        rw [hsplit] at h
        have hne := head_ne hsplit
        simp only [List.headD_cons, List.tail_cons, ne_eq, hne, not_false_eq_true, if_true]
        cases hfirst : entry values first with
        | none => rfl
        | some value =>
          simp only [hfirst, Option.all_some] at h
          exact found_fields h (.inl (by simp))

theorem lookupIn_found {values : Entries} {loops : Entries} {scopes : ℕ} {path : List Char}
    (h : clear attr values scopes loops path) :
    (lookupIn attr ((nested values loops).take scopes) path).found =
      meaning attr values loops path := by
  induction loops generalizing scopes with
  | nil =>
    cases scopes with
    | zero => simp [clear] at h
    | succ scopes =>
      have htake : (nested values []).take (scopes+1) = [values] := by simp [nested]
      rw [clear] at h
      rw [htake]
      exact lookupIn_given h
  | cons e outer ih =>
    obtain ⟨name,element⟩ := e
    cases scopes with
    | zero => simp [clear] at h
    | succ scopes =>
      change (lookupIn attr ([(name,element)]::(nested values outer).take scopes) path).found = _
      rw [clear] at h
      rw [lookupIn, meaning, entry_single]
      by_cases hpath : path = name
      · rw [if_pos hpath, Bool.not_eq_true'] at h
        simp only [if_pos hpath]
        exact Value.found_of_not h
      · rw [if_neg hpath] at h
        simp only [if_neg hpath]
        cases hbelow : below name path with
        | some parts =>
          simp only [hbelow, Bool.and_eq_true, Bool.not_eq_true', List.contains_eq_mem,
            decide_eq_false_iff_not] at h
          obtain ⟨rest,hrest,hparts⟩ := below_some hbelow
          have hsplit : splitOn '.' path = name::parts := by
            rw [hrest, splitOn_append, splitOn_of_not_mem h.1, hparts]
            rfl
          have hne : parts ≠ [] := hparts ▸ splitOn_ne_nil '.' rest
          simp only [hsplit, List.headD_cons, List.tail_cons, ne_eq, Ne.symm hpath, not_false_eq_true,
            if_true, entry_single]
          exact found_fields h.2 (.inl hne)
        | none =>
          simp only [hbelow] at h ⊢
          -- The first part is another name, as the name and a dot do not begin the path.
          have hother : (if (splitOn '.' path).headD [] ≠ path then
              entry [(name,element)] ((splitOn '.' path).headD []) else none) = none := by
            cases hsplit : splitOn '.' path with
            | nil => exact absurd hsplit (splitOn_ne_nil '.' path)
            | cons first parts =>
              rw [List.headD_cons]
              split
              · next hne =>
                obtain ⟨rest,hrest⟩ := (splitOn_head hsplit hne).2
                rw [entry_single, if_neg]
                intro hname
                exact below_none hbelow rest (hname ▸ hrest)
              · rfl
          rw [hother]
          exact ih h

theorem lookup_found {values : Entries} {loops : Entries} {path : List Char}
    (h : clear attr values 256 loops path) :
    (lookup attr (nested values loops) path).found = meaning attr values loops path :=
  lookupIn_found h

end Meaning

section Strings

variable {ε : Type} (failure : String → ε) (look : List Char → Except ε (Option Value))

def asString (value : Value) (name : List Char) : Except ε (List Char) :=
  match value with
  | .string text => .ok text
  | .int value => .ok (toString value).toList
  | .bool value => .ok (if value then ['1'] else ['0'])
  | .file path => .ok path
  | value => .error <| failure <| "Invalid toolchain configuration: Cannot expand variable '" ++
      String.ofList name ++ "': expected string, found " ++ value.type

def unterminated (text : List Char) : String :=
  "Invalid toolchain configuration: unterminated variable reference in '" ++ String.ofList text ++ "'"

def unexpected (text : List Char) : String :=
  "Invalid toolchain configuration: expected '%\x7b' or '%%' in '" ++ String.ofList text ++ "'"

def notFound (name : List Char) : String :=
  "Invalid toolchain configuration: Cannot find variable named '" ++ String.ofList name ++ "'."

/-- The text of the variable. -/
def reference (name : List Char) : Except ε (List Char) := do
  match ← look name with
  | none => .error (failure (notFound name))
  | some value => asString failure value name

/-- The text from `i` on is `rest`. -/
def expandFrom (text : List Char) : ℕ → List Char → List Char → Except ε (List Char)
  | 0, _, out => .ok out
  | fuel+1, rest, out =>
    let out := out ++ rest.takeWhile (· ≠ '%')
    match rest.dropWhile (· ≠ '%') with
    | [] => .ok out
    | [_] => .error (failure (unexpected text))
    | _::nxt::rest =>
      if nxt = '%' then expandFrom text fuel rest (out ++ ['%'])
      else if nxt = '\x7b' then
        match splitOnce '\x7d' rest with
        | none => .error (failure (unterminated text))
        | some (name,rest) => do
          let value ← reference failure look name
          expandFrom text fuel rest (out ++ value)
      else .error (failure (unexpected text))

def expandString (text : List Char) : Except ε (List Char) :=
  if '%' ∉ text then .ok text else expandFrom failure look text (text.length+1) text []

/-- Where a reader of a text is. -/
inductive Reading where
  | plain
  | percent
  | name (read : List Char)

/-- What a text stands for, read a character at a time. -/
def scan (text : List Char) : Reading → List Char → Except ε (List Char)
  | .plain, [] => .ok []
  | .plain, c::rest => if c = '%' then scan text .percent rest else (scan text .plain rest).map (c :: ·)
  | .percent, [] => .error (failure (unexpected text))
  | .percent, c::rest =>
    if c = '%' then (scan text .plain rest).map ('%' :: ·)
    else if c = '\x7b' then scan text (.name []) rest
    else .error (failure (unexpected text))
  | .name _, [] => .error (failure (unterminated text))
  | .name read, c::rest =>
    if c = '\x7d' then do
      let value ← reference failure look read
      (scan text .plain rest).map (value ++ ·)
    else scan text (.name (read ++ [c])) rest

variable {failure look} {text : List Char}

example : scan failure look text .percent [] = .error (failure (unexpected text)) := by rw [scan]

theorem map_map_append (x : Except ε (List Char)) (a b : List Char) :
    (x.map (b ++ ·)).map (a ++ ·) = x.map (a ++ b ++ ·) := by
  cases x with
  | error e => rfl
  | ok c => simp [Except.map]

theorem map_nil_append (x : Except ε (List Char)) : x.map ([] ++ ·) = x := by
  cases x <;> rfl

theorem scan_plain {plain : List Char} (h : '%' ∉ plain) (rest : List Char) :
    scan failure look text .plain (plain ++ rest) = (scan failure look text .plain rest).map (plain ++ ·) := by
  induction plain with
  | nil => exact (map_nil_append _).symm
  | cons c plain ih =>
    have hc : c ≠ '%' := fun he => h (he ▸ List.mem_cons_self)
    rw [List.cons_append, scan, if_neg hc, ih fun hm => h (List.mem_cons_of_mem _ hm)]
    exact map_map_append _ [c] plain

theorem scan_only {plain : List Char} (h : '%' ∉ plain) : scan failure look text .plain plain = .ok plain := by
  have hplain : scan failure look text .plain (plain ++ []) = _ := scan_plain h []
  rw [List.append_nil] at hplain
  rw [hplain, scan]
  simp [Except.map]

theorem scan_name {name : List Char} (h : '\x7d' ∉ name) (read rest : List Char) :
    scan failure look text (.name read) (name ++ '\x7d'::rest) = (do
      let value ← reference failure look (read ++ name)
      (scan failure look text .plain rest).map (value ++ ·)) := by
  induction name generalizing read with
  | nil => rw [List.nil_append, scan, if_pos rfl, List.append_nil]
  | cons c name ih =>
    have hc : c ≠ '\x7d' := fun he => h (he ▸ List.mem_cons_self)
    rw [List.cons_append, scan, if_neg hc, ih fun hm => h (List.mem_cons_of_mem _ hm), List.append_assoc]
    rfl

theorem scan_unterminated {name : List Char} (h : '\x7d' ∉ name) (read : List Char) :
    scan failure look text (.name read) name = .error (failure (unterminated text)) := by
  induction name generalizing read with
  | nil => rw [scan]
  | cons c name ih =>
    have hc : c ≠ '\x7d' := fun he => h (he ▸ List.mem_cons_self)
    rw [scan, if_neg hc, ih fun hm => h (List.mem_cons_of_mem _ hm)]

/-- Each turn of the loop takes a part of the text, so that the text ends before the turns do. -/
theorem expandFrom_eq {fuel : ℕ} {rest out : List Char} (h : rest.length < fuel) :
    expandFrom failure look text fuel rest out = (scan failure look text .plain rest).map (out ++ ·) := by
  induction fuel generalizing rest out with
  | zero => omega
  | succ fuel ih =>
    have hjoin : rest.takeWhile (· ≠ '%') ++ rest.dropWhile (· ≠ '%') = rest := List.takeWhile_append_dropWhile
    have hplain : '%' ∉ rest.takeWhile (· ≠ '%') := by
      intro hm
      simpa using List.mem_takeWhile_imp hm
    rw [expandFrom]
    cases hdrop : rest.dropWhile (· ≠ '%') with
    | nil =>
      rw [hdrop, List.append_nil] at hjoin
      rw [hjoin] at hplain ⊢
      rw [scan_only hplain]
      rfl
    | cons c after =>
      have hc : c = '%' := by
        have hhead := List.head?_dropWhile_not (· ≠ '%') rest
        rw [hdrop] at hhead
        simpa using hhead
      subst hc
      rw [hdrop] at hjoin
      have hscan : scan failure look text .plain rest =
          (scan failure look text .percent after).map (rest.takeWhile (· ≠ '%') ++ ·) := by
        conv_lhs => rw [← hjoin]
        rw [scan_plain hplain, scan, if_pos rfl]
      have hlength := congrArg List.length hjoin
      simp only [List.length_append, List.length_cons] at hlength
      rw [hscan, map_map_append]
      cases after with
      | nil => rfl
      | cons nxt after =>
        rw [List.length_cons] at hlength
        simp only [scan]
        by_cases hpercent : nxt = '%'
        · rw [if_pos hpercent, if_pos hpercent, ih (by omega)]
          exact (map_map_append _ _ ['%']).symm
        · rw [if_neg hpercent, if_neg hpercent]
          by_cases hbrace : nxt = '\x7b'
          · rw [if_pos hbrace, if_pos hbrace]
            cases hname : splitOnce '\x7d' after with
            | none =>
              rw [scan_unterminated (splitOnce_none hname)]
              rfl
            | some parts =>
              obtain ⟨name,later⟩ := parts
              obtain ⟨rfl,hmem⟩ := splitOnce_some hname
              rw [List.length_append, List.length_cons] at hlength
              rw [scan_name hmem, List.nil_append]
              dsimp only
              cases reference failure look name with
              | error e => rfl
              | ok value =>
                change expandFrom failure look text fuel later _ =
                  ((scan failure look text .plain later).map (value ++ ·)).map _
                rw [ih (by omega), map_map_append]
          · rw [if_neg hbrace, if_neg hbrace]
            rfl

theorem expandString_eq (text : List Char) :
    expandString failure look text = scan failure look text .plain text := by
  rw [expandString]
  split
  · next h => rw [scan_only h]
  · rw [expandFrom_eq (Nat.lt_succ_self _), map_nil_append]

/-- The text with each `%` twice. -/
def doubled (text : List Char) : List Char := text.flatMap fun c => if c = '%' then ['%','%'] else [c]

theorem scan_doubled (whole text : List Char) : scan failure look whole .plain (doubled text) = .ok text := by
  induction text with
  | nil => rfl
  | cons c text ih =>
    change scan failure look whole .plain ((if c = '%' then ['%','%'] else [c]) ++ doubled text) = _
    by_cases hc : c = '%'
    · rw [if_pos hc, hc]
      change (scan failure look whole .plain (doubled text)).map ('%' :: ·) = _
      rw [ih]
      rfl
    · rw [if_neg hc, List.singleton_append, scan, if_neg hc, ih]
      rfl

theorem expandString_doubled (text : List Char) : expandString failure look (doubled text) = .ok text := by
  rw [expandString_eq]
  exact scan_doubled _ _

end Strings

end BuildFiji.CcFeatures

/-!
## Flag groups

The flags that a forest of groups comes to: by recursion, as they are meant, and by a stack from
which one group after another is taken.
-/

namespace BuildFiji.CcFeatures
open Guarded

/-- Where a group asks for nothing the name is empty. -/
structure Conditions where
  available : List Char
  notAvailable : List Char
  holds : List Char
  fails : List Char
  equal : Option (List Char × List Char)

inductive FlagGroup where
  | mk (conditions : Conditions) (iterateOver : List Char) (flags : List (List Char)) (flagGroups : List FlagGroup)

abbrev Flags := List (List Char)

section Expansion

variable {ε σ : Type} (failure : String → ε) (look : σ → List Char → Except ε (Option Value))
  (inside : σ → List Char → Value → σ)

def elements (value : Value) (name : List Char) : Except ε (List Value) :=
  match value with
  | .depset elements => .ok elements
  | .list elements => .ok elements
  | .tuple elements => .ok elements
  | value => .error <| failure <| "Invalid toolchain configuration: Cannot expand variable '" ++
      String.ofList name ++ "': expected sequence, found " ++ value.type

/-- Whether what the name stands for passes, if there is a name. -/
def tested (scope : σ) (name : List Char) (passes : Option Value → Bool) : Except ε Bool :=
  if name = [] then .ok true else (look scope name).map passes

def testedEqual (scope : σ) : Option (List Char × List Char) → Except ε Bool
  | none => .ok true
  | some (name,text) => do
    match ← look scope name with
    | none => .ok false
    | some value => (asString failure value name).map fun t => t = text

/-- The later tests are made if the earlier ones pass. -/
def every : List (Except ε Bool) → Except ε Bool
  | [] => .ok true
  | test::tests => do if ← test then every tests else .ok false

def canExpand (conditions : Conditions) (scope : σ) : Except ε Bool :=
  every [
    tested look scope conditions.available Option.isSome,
    tested look scope conditions.notAvailable Option.isNone,
    tested look scope conditions.holds fun value => value.any Value.truthy,
    tested look scope conditions.fails fun value => value.any fun v => !v.truthy,
    testedEqual failure look scope conditions.equal]

def cannotIterate (name : List Char) : String :=
  "Invalid toolchain configuration: Cannot expand variable '" ++ String.ofList name ++ "' (iterate_over)"

def scopes (iterateOver : List Char) (scope : σ) : Except ε (List σ) :=
  if iterateOver = [] then .ok [scope] else do
    match ← look scope iterateOver with
    | none => .error (failure (cannotIterate iterateOver))
    | some value => (elements failure value iterateOver).map fun es => es.map (inside scope iterateOver)

def expandFlags (flags : Flags) (scope : σ) : Except ε Flags := flags.mapM (expandString failure (look scope))

/-- One after another, up to the first that fails. -/
def inTurn {α : Type} (expand : α → Except ε Flags) : List α → Except ε Flags
  | [] => .ok []
  | a::as => do
    let first ← expand a
    let rest ← inTurn expand as
    .ok (first ++ rest)

/-- The end of the stack is its first element. -/
def run : ℕ → List (FlagGroup × σ) → Flags → Except ε Flags
  | 0, _, out => .ok out
  | _+1, [], out => .ok out
  | fuel+1, (.mk conditions iterateOver flags flagGroups,scope)::stack, out => do
    if ← canExpand failure look conditions scope then
      let scopes ← scopes failure look inside iterateOver scope
      if flags = [] then run fuel ((scopes.flatMap fun s => flagGroups.map fun g => (g,s)) ++ stack) out
      else do
        let new ← inTurn (expandFlags failure look flags) scopes
        run fuel stack (out ++ new)
    else run fuel stack out

/-- The scopes for which a group gives its body: none if its conditions fail. -/
def entered (conditions : Conditions) (iterateOver : List Char) (scope : σ) : Except ε (List σ) := do
  if ← canExpand failure look conditions scope then scopes failure look inside iterateOver scope else .ok []

mutual

def expand : FlagGroup → σ → Except ε Flags
  | .mk conditions iterateOver flags flagGroups, scope => do
    let scopes ← entered failure look inside conditions iterateOver scope
    inTurn (fun s => if flags = [] then expandAll flagGroups s else expandFlags failure look flags s) scopes

def expandAll : List FlagGroup → σ → Except ε Flags
  | [], _ => .ok []
  | group::groups, scope => do
    let first ← expand group scope
    let rest ← expandAll groups scope
    .ok (first ++ rest)

end

/-- The sum of the sizes, up to the first that fails. -/
def sizes {α : Type} (expand : α → Except ε Flags) (size : α → ℕ) : List α → ℕ
  | [] => 0
  | a::as => size a + match expand a with
    | .ok _ => sizes expand size as
    | .error _ => 0

mutual

/-- How many groups come up, each as often as it does. -/
def visits : FlagGroup → σ → ℕ
  | .mk conditions iterateOver flags flagGroups, scope =>
    1 + match entered failure look inside conditions iterateOver scope with
      | .ok scopes =>
        if flags = [] then sizes (expandAll failure look inside flagGroups) (visitsAll flagGroups) scopes else 0
      | .error _ => 0

def visitsAll : List FlagGroup → σ → ℕ
  | [], _ => 0
  | group::groups, scope => visits group scope + match expand failure look inside group scope with
    | .ok _ => visitsAll groups scope
    | .error _ => 0

end

variable {failure look inside}

theorem inTurn_cons {α : Type} (f : α → Except ε Flags) (a : α) (as : List α) :
    inTurn f (a::as) = (do let first ← f a; let rest ← inTurn f as; .ok (first ++ rest)) := rfl

/-- What is done for a list of things in turn, and left on the stack for each of them. -/
theorem run_inTurn {α : Type} {tasks : α → List (FlagGroup × σ)} {f : α → Except ε Flags} {size : α → ℕ}
    (hrun : ∀ a fuel stack out, size a ≤ fuel → run failure look inside fuel (tasks a ++ stack) out =
      f a >>= fun flags => run failure look inside (fuel-size a) stack (out ++ flags))
    (as : List α) {fuel : ℕ} (stack : List (FlagGroup × σ)) (out : Flags) (h : sizes f size as ≤ fuel) :
    run failure look inside fuel (as.flatMap tasks ++ stack) out =
      inTurn f as >>= fun flags => run failure look inside (fuel-sizes f size as) stack (out ++ flags) := by
  induction as generalizing fuel out with
  | nil =>
    change _ = run failure look inside (fuel-0) stack (out ++ [])
    rw [Nat.sub_zero, List.append_nil]
    rfl
  | cons a as ih =>
    rw [sizes] at h
    rw [List.flatMap_cons, List.append_assoc, hrun a fuel _ out (by omega), inTurn_cons, sizes]
    cases hf : f a with
    | error e => rfl
    | ok first =>
      simp only [hf] at h
      change run failure look inside (fuel-size a) (as.flatMap tasks ++ stack) (out ++ first) = _
      rw [ih (out ++ first) (by omega)]
      cases inTurn f as with
      | error e => rfl
      | ok rest =>
        change run failure look inside (fuel-size a-sizes f size as) stack (out ++ first ++ rest) =
          run failure look inside (fuel-(size a+sizes f size as)) stack (out ++ (first ++ rest))
        rw [Nat.sub_sub, List.append_assoc]

theorem expandAll_cons (group : FlagGroup) (groups : List FlagGroup) (scope : σ) :
    expandAll failure look inside (group::groups) scope = (do
      let first ← expand failure look inside group scope
      let rest ← expandAll failure look inside groups scope
      .ok (first ++ rest)) := by
  rw [expandAll]

mutual

/-- A group is taken off the stack with all that it comes to. -/
theorem run_group (group : FlagGroup) (scope : σ) (fuel : ℕ) (stack : List (FlagGroup × σ)) (out : Flags)
    (h : visits failure look inside group scope ≤ fuel) :
    run failure look inside fuel ((group,scope)::stack) out =
      expand failure look inside group scope >>= fun flags =>
        run failure look inside (fuel-visits failure look inside group scope) stack (out ++ flags) := by
  obtain ⟨conditions,iterateOver,flags,flagGroups⟩ := group
  rw [visits] at h ⊢
  obtain ⟨fuel,rfl⟩ : ∃ n, fuel = n+1 := ⟨fuel-1,by omega⟩
  rw [run, expand]
  rw [entered] at h ⊢
  cases hcan : canExpand failure look conditions scope with
  | error e => rfl
  | ok can =>
    rw [hcan] at h
    cases can with
    | false =>
      have hleft : fuel+1-(1+if flags = [] then 0 else 0) = fuel := by simp
      change run failure look inside fuel stack out =
        run failure look inside (fuel+1-(1+if flags = [] then 0 else 0)) stack (out ++ [])
      rw [List.append_nil, hleft]
    | true =>
      simp only [bind, Except.bind, if_true] at h ⊢
      cases hscopes : scopes failure look inside iterateOver scope with
      | error e => rfl
      | ok scopes =>
        simp only [hscopes] at h ⊢
        by_cases hflags : flags = []
        · simp only [if_pos hflags] at h ⊢
          rw [run_inTurn (fun s => run_groups flagGroups s) scopes stack out (by omega)]
          rw [show fuel+1-(1+sizes (expandAll failure look inside flagGroups)
            (visitsAll failure look inside flagGroups) scopes) = fuel-sizes (expandAll failure look inside flagGroups)
            (visitsAll failure look inside flagGroups) scopes by omega]
          rfl
        · simp only [if_neg hflags, Nat.add_zero, Nat.add_sub_cancel]

theorem run_groups (groups : List FlagGroup) (scope : σ) (fuel : ℕ) (stack : List (FlagGroup × σ)) (out : Flags)
    (h : visitsAll failure look inside groups scope ≤ fuel) :
    run failure look inside fuel ((groups.map fun g => (g,scope)) ++ stack) out =
      expandAll failure look inside groups scope >>= fun flags =>
        run failure look inside (fuel-visitsAll failure look inside groups scope) stack (out ++ flags) := by
  cases groups with
  | nil =>
    rw [expandAll, visitsAll]
    change _ = run failure look inside (fuel-0) stack (out ++ [])
    rw [Nat.sub_zero, List.append_nil]
    rfl
  | cons group groups =>
    rw [visitsAll] at h
    rw [List.map_cons, List.cons_append, run_group group scope fuel _ out (by omega), expandAll_cons, visitsAll]
    cases hgroup : expand failure look inside group scope with
    | error e => rfl
    | ok first =>
      simp only [hgroup] at h ⊢
      change run failure look inside _ ((groups.map fun g => (g,scope)) ++ stack) (out ++ first) = _
      rw [run_groups groups scope _ stack _ (by omega)]
      cases expandAll failure look inside groups scope with
      | error e => rfl
      | ok rest =>
        change run failure look inside _ stack (out ++ first ++ rest) =
          run failure look inside _ stack (out ++ (first ++ rest))
        rw [Nat.sub_sub, List.append_assoc]

end

/-- The loop over other scopes that say the same. -/
theorem run_map {τ : Type} {look' : τ → List Char → Except ε (Option Value)}
    {inside' : τ → List Char → Value → τ} (f : σ → τ) (hlook : ∀ s, look' (f s) = look s)
    (hinside : ∀ s name element, inside' (f s) name element = f (inside s name element)) (fuel : ℕ)
    (stack : List (FlagGroup × σ)) (out : Flags) :
    run failure look' inside' fuel (stack.map fun e => (e.1,f e.2)) out = run failure look inside fuel stack out := by
  have hscopes : ∀ name s, scopes failure look' inside' name (f s) =
      (scopes failure look inside name s).map (List.map f) := by
    intro name s
    unfold scopes
    rw [hlook]
    split
    · rfl
    · cases look s name with
      | error e => rfl
      | ok value =>
        cases value with
        | none => rfl
        | some value =>
          change (elements failure value name).map _ = ((elements failure value name).map _).map _
          cases elements failure value name with
          | error e => rfl
          | ok es => simp [Except.map, hinside, Function.comp_def]
  have hcan : ∀ conditions s, canExpand failure look' conditions (f s) = canExpand failure look conditions s := by
    intro conditions s
    simp only [canExpand, tested, testedEqual, hlook]
  have hflags : ∀ flags s, expandFlags failure look' flags (f s) = expandFlags failure look flags s := by
    intro flags s
    rw [expandFlags, expandFlags, hlook]
  have hturn : ∀ flags (ss : List σ), inTurn (expandFlags failure look' flags) (ss.map f) =
      inTurn (expandFlags failure look flags) ss := by
    intro flags ss
    induction ss with
    | nil => rfl
    | cons s ss ih => rw [List.map_cons, inTurn_cons, inTurn_cons, hflags, ih]
  induction fuel generalizing stack out with
  | zero => simp only [run]
  | succ fuel ih =>
    cases stack with
    | nil => simp only [List.map_nil, run]
    | cons e stack =>
      obtain ⟨⟨conditions,iterateOver,flags,flagGroups⟩,s⟩ := e
      rw [List.map_cons, run, run, hcan]
      cases canExpand failure look conditions s with
      | error e => rfl
      | ok can =>
        cases can with
        | false => exact ih stack out
        | true =>
          simp only [bind, Except.bind, if_true, hscopes]
          cases scopes failure look inside iterateOver s with
          | error e => rfl
          | ok ss =>
            simp only [Except.map]
            by_cases hempty : flags = []
            · rw [if_pos hempty, if_pos hempty, ← ih, List.map_append, List.map_flatMap, List.flatMap_map]
              simp only [List.map_map, Function.comp_def]
            · rw [if_neg hempty, if_neg hempty, hturn]
              cases inTurn (expandFlags failure look flags) ss with
              | error e => rfl
              | ok new => exact ih stack (out ++ new)

end Expansion

section Guard

variable {ε σ : Type} {failure : String → ε} {guard : σ → List Char → Except (Option ε) (Option Value)}
  {look : σ → List Char → Except ε (Option Value)} {inside : σ → List Char → Value → σ}

def failing (failure : String → ε) (text : String) : Option ε := some (failure text)

theorem asString_guards (value : Value) (name : List Char) :
    Guards (asString (failing failure) value name) (asString failure value name) := by
  cases value <;> first
    | exact Guards.ok _
    | exact Guards.error _

theorem elements_guards (value : Value) (name : List Char) :
    Guards (elements (failing failure) value name) (elements failure value name) := by
  cases value <;> first
    | exact Guards.ok _
    | exact Guards.error _

theorem expandString_guards {g : List Char → Except (Option ε) (Option Value)}
    {l : List Char → Except ε (Option Value)} (h : ∀ name, Guards (g name) (l name)) (text : List Char) :
    Guards (expandString (failing failure) g text) (expandString failure l text) := by
  have href : ∀ name, Guards (reference (failing failure) g name) (reference failure l name) := by
    intro name
    refine (h name).bind fun value => ?_
    cases value with
    | none => exact .error _
    | some value => exact asString_guards value name
  have hfrom : ∀ fuel rest out, Guards (expandFrom (failing failure) g text fuel rest out)
      (expandFrom failure l text fuel rest out) := by
    intro fuel
    induction fuel with
    | zero => exact fun _ out => .ok out
    | succ fuel ih =>
      intro rest out
      rw [expandFrom, expandFrom]
      cases rest.dropWhile (· ≠ '%') with
      | nil => exact .ok _
      | cons c after =>
        cases after with
        | nil => exact .error _
        | cons nxt after =>
          dsimp only
          split
          · exact ih _ _
          · split
            · cases Graph.splitOnce '\x7d' after with
              | none => exact .error _
              | some parts => exact (href parts.1).bind fun value => ih _ _
            · exact .error _
  unfold expandString
  split
  · exact .ok _
  · exact hfrom _ _ _

theorem inTurn_guards {α : Type} {f : α → Except (Option ε) Flags} {g : α → Except ε Flags}
    (h : ∀ a, Guards (f a) (g a)) (as : List α) : Guards (inTurn f as) (inTurn g as) := by
  induction as with
  | nil => exact .ok []
  | cons a as ih =>
    rw [inTurn_cons, inTurn_cons]
    exact (h a).bind fun first => ih.bind fun rest => .ok _

theorem sizes_guards {α : Type} {f : α → Except (Option ε) Flags} {g : α → Except ε Flags} {m n : α → ℕ}
    (h : ∀ a, Guards (f a) (g a)) (hsize : ∀ a, f a ≠ .error none → m a = n a) (as : List α)
    (hpassed : inTurn f as ≠ .error none) : sizes f m as = sizes g n as := by
  induction as with
  | nil => rfl
  | cons a as ih =>
    rw [inTurn_cons] at hpassed
    have hfirst : f a ≠ .error none := by
      intro hf
      rw [hf] at hpassed
      exact hpassed rfl
    rw [sizes, sizes, hsize a hfirst]
    have heq := (h a).resolve_left hfirst
    cases hg : g a with
    | error e =>
      rw [hg] at heq
      rw [heq]
      rfl
    | ok first =>
      rw [hg] at heq
      rw [heq] at hpassed ⊢
      have hrest : inTurn f as ≠ .error none := by
        intro hf
        rw [hf] at hpassed
        exact hpassed rfl
      change n a + sizes f m as = n a + sizes g n as
      rw [ih hrest]

variable (h : ∀ s name, Guards (guard s name) (look s name))
include h

theorem canExpand_guards (conditions : Conditions) (s : σ) :
    Guards (canExpand (failing failure) guard conditions s) (canExpand failure look conditions s) := by
  have htested : ∀ name passes, Guards (tested guard s name passes) (tested look s name passes) := by
    intro name passes
    unfold tested
    split
    · exact .ok true
    · exact (h s name).map passes
  have hequal : ∀ equal, Guards (testedEqual (failing failure) guard s equal) (testedEqual failure look s equal) := by
    intro equal
    cases equal with
    | none => exact .ok true
    | some e =>
      refine (h s e.1).bind fun value => ?_
      cases value with
      | none => exact .ok false
      | some value => exact (asString_guards value e.1).map _
  have hthen : ∀ {x : Except (Option ε) Bool} {y : Except ε Bool} {xs : List (Except (Option ε) Bool)}
      {ys : List (Except ε Bool)}, Guards x y → Guards (every xs) (every ys) → Guards (every (x::xs)) (every (y::ys)) := by
    intro x y xs ys hxy hrest
    refine hxy.bind fun passes => ?_
    cases passes with
    | false => exact .ok false
    | true => exact hrest
  exact hthen (htested _ _) <| hthen (htested _ _) <| hthen (htested _ _) <| hthen (htested _ _) <|
    hthen (hequal _) (.ok true)

theorem entered_guards (conditions : Conditions) (iterateOver : List Char) (s : σ) :
    Guards (entered (failing failure) guard inside conditions iterateOver s)
      (entered failure look inside conditions iterateOver s) := by
  refine (canExpand_guards h conditions s).bind fun can => ?_
  cases can with
  | false => exact .ok []
  | true =>
    rw [if_pos rfl, if_pos rfl, scopes, scopes]
    split
    · exact .ok [s]
    · refine (h s iterateOver).bind fun value => ?_
      cases value with
      | none => exact .error _
      | some value => exact (elements_guards value iterateOver).map _

theorem expandFlags_guards (flags : Flags) (s : σ) :
    Guards (expandFlags (failing failure) guard flags s) (expandFlags failure look flags s) :=
  .mapM (expandString_guards (h s)) flags

mutual

theorem expand_guards (group : FlagGroup) (s : σ) :
    Guards (expand (failing failure) guard inside group s) (expand failure look inside group s) := by
  obtain ⟨conditions,iterateOver,flags,flagGroups⟩ := group
  rw [expand, expand]
  refine (entered_guards h conditions iterateOver s).bind fun ss => inTurn_guards (fun s => ?_) ss
  by_cases hflags : flags = []
  · rw [if_pos hflags, if_pos hflags]
    exact expandAll_guards flagGroups s
  · rw [if_neg hflags, if_neg hflags]
    exact expandFlags_guards h flags s

theorem expandAll_guards (groups : List FlagGroup) (s : σ) :
    Guards (expandAll (failing failure) guard inside groups s) (expandAll failure look inside groups s) := by
  cases groups with
  | nil =>
    rw [expandAll, expandAll]
    exact .ok []
  | cons group groups =>
    rw [expandAll_cons, expandAll_cons]
    exact (expand_guards group s).bind fun first => (expandAll_guards groups s).bind fun rest => .ok _

end

mutual

theorem visits_guards (group : FlagGroup) (s : σ)
    (hpassed : expand (failing failure) guard inside group s ≠ .error none) :
    visits (failing failure) guard inside group s = visits failure look inside group s := by
  obtain ⟨conditions,iterateOver,flags,flagGroups⟩ := group
  rw [expand] at hpassed
  have hentered : entered (failing failure) guard inside conditions iterateOver s ≠ .error none := by
    intro he
    rw [he] at hpassed
    exact hpassed rfl
  have heq := (entered_guards h conditions iterateOver s).resolve_left hentered
  rw [visits, visits, heq]
  rw [heq] at hpassed
  cases hscopes : entered failure look inside conditions iterateOver s with
  | error e => rfl
  | ok ss =>
    rw [hscopes] at hpassed
    by_cases hflags : flags = []
    · simp only [hflags, if_true, Except.mapError] at hpassed ⊢
      rw [sizes_guards (expandAll_guards h flagGroups) (visitsAll_guards flagGroups) ss hpassed]
    · simp only [hflags, if_false, Except.mapError]

theorem visitsAll_guards (groups : List FlagGroup) (s : σ)
    (hpassed : expandAll (failing failure) guard inside groups s ≠ .error none) :
    visitsAll (failing failure) guard inside groups s = visitsAll failure look inside groups s := by
  cases groups with
  | nil => rw [visitsAll, visitsAll]
  | cons group groups =>
    rw [expandAll_cons] at hpassed
    have hfirst : expand (failing failure) guard inside group s ≠ .error none := by
      intro he
      rw [he] at hpassed
      exact hpassed rfl
    have heq := (expand_guards h group s).resolve_left hfirst
    rw [visitsAll, visitsAll, visits_guards group s hfirst, heq]
    rw [heq] at hpassed
    cases hg : expand failure look inside group s with
    | error e => rfl
    | ok first =>
      rw [hg] at hpassed
      have hrest : expandAll (failing failure) guard inside groups s ≠ .error none := by
        intro he
        rw [he] at hpassed
        exact hpassed rfl
      simp only [Except.mapError, visitsAll_guards groups s hrest]

end

end Guard

section Meant

variable (attr : Value → List Char → Option Value)

/-- What a variable is in a scope, or that it is missing. -/
def reads (scopes : Variables) (name : List Char) : Except String (Option Value) :=
  .ok (lookup attr scopes name).found

def expandGroups (groups : List FlagGroup) (scopes : Variables) : Except String Flags :=
  run id (reads attr) Variables.inside rounds (groups.map fun group => (group,scopes)) []

def enter (loops : Entries) (name : List Char) (element : Value) : Entries := (name,element)::loops

def means (values loops : Entries) (name : List Char) : Except String (Option Value) :=
  .ok (meaning attr values loops name)

/-- What the groups mean for the variables that are given. -/
def expansion (values : Entries) (groups : List FlagGroup) : Except String Flags :=
  expandAll id (means attr values) enter groups []

def meansClear (values loops : Entries) (name : List Char) : Except (Option String) (Option Value) :=
  if clear attr values 256 loops name then .ok (meaning attr values loops name) else .error none

/-- Every name that is asked for is a clear one, and no more groups come up than are taken off the stack. -/
def InReach (values : Entries) (groups : List FlagGroup) : Prop :=
  expandAll (failing id) (meansClear attr values) enter groups [] ≠ .error none ∧
    visitsAll id (means attr values) enter groups [] ≤ rounds

variable {attr}

theorem expandGroups_eq {values : Entries} {groups : List FlagGroup} (h : InReach attr values groups) :
    expandGroups attr groups [values] = expansion attr values groups := by
  -- The lookups of the code, made in the scopes that the iterations have.
  let looked : Entries → List Char → Except String (Option Value) := fun loops => reads attr (nested values loops)
  have hmeans : ∀ loops name, Guards (meansClear attr values loops name) (means attr values loops name) := by
    intro loops name
    unfold meansClear
    split
    · exact .ok _
    · exact .stopped _
  have hlooked : ∀ loops name, Guards (meansClear attr values loops name) (looked loops name) := by
    intro loops name
    unfold meansClear
    split
    · next hclear =>
      rw [← lookup_found hclear]
      exact .ok _
    · exact .stopped _
  have hsame : expandAll id looked enter groups [] = expansion attr values groups :=
    (expandAll_guards hlooked groups []).eq (expandAll_guards hmeans groups []) h.1
  have hvisits : visitsAll id looked enter groups [] ≤ rounds := by
    rw [← visitsAll_guards hlooked groups [] h.1, visitsAll_guards hmeans groups [] h.1]
    exact h.2
  have hstack : groups.map (fun group => (group,[values])) =
      (groups.map fun group => (group,([] : Entries))).map fun e => (e.1,nested values e.2) := by
    rw [List.map_map]
    rfl
  have hrun : run id looked enter rounds ((groups.map fun group => (group,[])) ++ []) [] =
      expandAll id looked enter groups [] >>= fun flags =>
        run id looked enter (rounds-visitsAll id looked enter groups []) [] ([] ++ flags) :=
    run_groups groups [] rounds [] [] hvisits
  have hnested : run id (reads attr) Variables.inside rounds
      ((groups.map fun group => (group,[])).map fun e => (e.1,nested values e.2)) [] =
        run id looked enter rounds (groups.map fun group => (group,[])) [] :=
    run_map (nested values) (fun _ => rfl) (fun _ _ _ => rfl) rounds _ []
  rw [List.append_nil, hsame] at hrun
  rw [expandGroups, hstack, hnested, hrun]
  cases expansion attr values groups with
  | error e => rfl
  | ok flags =>
    change run id looked enter _ [] ([] ++ flags) = .ok flags
    generalize rounds-_ = left
    cases left <;> simp only [run, List.nil_append]

/-- What `_expand_groups` gives is what the groups mean, where every name is a clear one and the rounds
suffice; and a text in which each `%` stands twice is given back. -/
theorem expandGroups_meaning (attr : Value → List Char → Option Value) :
    (∀ values groups, InReach attr values groups → expandGroups attr groups [values] = expansion attr values groups) ∧
      ∀ scopes text, expandString id (reads attr scopes) (doubled text) = .ok text :=
  ⟨fun _ _ => expandGroups_eq,fun _ => expandString_doubled⟩

def unconditional : Conditions := ⟨[],[],[],[],none⟩

/-- Two libraries and a group for each of them. -/
def libraries : Entries :=
  [(['l'],.list [.struct [(['n'],.string ['x'])],.struct [(['n'],.string ['y'])]])]

def libraryFlags : List FlagGroup := [.mk unconditional ['l'] [] [.mk unconditional [] ["-l%\x7bl.n\x7d".toList] []]]

theorem expandGroups_meaning_libraries :
    expandGroups (fun _ _ => none) libraryFlags [libraries] = .ok [['-','l','x'],['-','l','y']] := by
  rw [(expandGroups_meaning fun _ _ => none).1 libraries libraryFlags]
  · rfl
  · constructor
    · exact nofun
    · decide

/-- A list that is a field, and a group for each of its elements that asks for a field of it. -/
def dotted : Entries := [(['a'],.struct [(['b'],.list [.struct [(['c'],.string ['x'])]])])]

def dottedFlags : List FlagGroup := [.mk unconditional ['a','.','b'] ["%\x7ba.b.c\x7d".toList] []]

theorem dotted_missing : ¬∀ (attr : Value → List Char → Option Value) (values : Entries) (groups : List FlagGroup),
    expandGroups attr groups [values] = expansion attr values groups := by
  intro h
  have hmeant : expansion (fun _ _ => none) dotted dottedFlags = .ok [['x']] := rfl
  have hcode : expandGroups (fun _ _ => none) dottedFlags [dotted] = .error (notFound "a.b.c".toList) := rfl
  rw [h, hmeant] at hcode
  cases hcode

end Meant

end BuildFiji.CcFeatures
