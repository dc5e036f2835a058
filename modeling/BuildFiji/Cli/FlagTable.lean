import BuildFiji.Graph.Pattern
import Mathlib.Data.List.Nodup
import Mathlib.Logic.Function.Basic

/-!
# Bazel's flags

A row for each flag, and the registry that finds the row of a word: by the flag's name or
its old name, by `no` and its name, or by its abbreviation.
-/

set_option autoImplicit false
set_option linter.all false

namespace BuildFiji.Flags

open BuildFiji.Graph (splitOnce PatternError)

abbrev Word := List Char

structure FlagInfo where
  name : String
  hasNegativeFlag : Bool
  commands : List String
  abbreviation : Option String
  requiresValue : Bool
  oldName : Option String
  typeConverter : Option String
  enumValues : List String
deriving DecidableEq

def negation (name : String) : Word := 'n':: 'o'::name.toList

/-- The names that `--` may be put before. -/
def FlagInfo.names (flag : FlagInfo) : List Word :=
  flag.name.toList::(flag.oldName.map String.toList).toList

def FlagInfo.spellings (flag : FlagInfo) : List Word :=
  flag.names ++ if flag.hasNegativeFlag then [negation flag.name] else []

/-- What stops a command before its patterns are resolved. -/
inductive Stop where
  | panic
  | commandLine (message : String)
  | malformedAlias (value : Word)
  | rejected
  | notImplemented (flag command : String)
  | pattern (source : PatternError)
deriving DecidableEq

structure FlagMatch where
  flag : FlagInfo
  negated : Bool
  value : Option Word
deriving DecidableEq

structure Registry where
  byName : Word → Option FlagInfo
  negatable : Word → Option FlagInfo
  byAbbreviation : Word → Option FlagInfo

namespace Registry

def empty : Registry := ⟨fun _ => none,fun _ => none,fun _ => none⟩

/-- An old name is only given to the flag if it is not taken. -/
def addFlag (r : Registry) (flag : FlagInfo) : Registry :=
  let byName := Function.update r.byName flag.name.toList (some flag)
  { byName :=
      match flag.oldName with
      | some old =>
        if (byName old.toList).isSome then byName else Function.update byName old.toList (some flag)
      | none => byName
    negatable :=
      if flag.hasNegativeFlag then Function.update r.negatable flag.name.toList (some flag)
      else r.negatable
    byAbbreviation :=
      match flag.abbreviation with
      | some abbr => Function.update r.byAbbreviation abbr.toList (some flag)
      | none => r.byAbbreviation }

def build (flags : List FlagInfo) : Registry := flags.foldl addFlag empty

end Registry

def splitValue (rest : Word) : Word × Option Word :=
  match splitOnce '=' rest with
  | some (name,value) => (name,some value)
  | none => (rest,none)

/-- `strip_prefix("no")`. -/
def stripNo : Word → Option Word
  | 'n':: 'o'::rest => some rest
  | _ => none

section Resolve
variable (r : Registry)

def longMatch (rest : Word) : Option FlagMatch :=
  let (name,value) := splitValue rest
  match r.byName name with
  | some flag => some ⟨flag,false,value⟩
  | none =>
    match (stripNo name).bind r.negatable with
    | some flag => if value.isNone then some ⟨flag,true,none⟩ else none
    | none => none

def shortMatch (c : Char) (rest : Word) : Option FlagMatch :=
  (r.byAbbreviation [c]).map fun flag => ⟨flag,false,if rest.isEmpty then none else some rest⟩

/-- One byte is taken for the abbreviation, and a character may be longer. -/
def resolve (token : Word) (command : String) : Except Stop (Option FlagMatch) :=
  let here (m : Option FlagMatch) := m.filter fun m => m.flag.commands.contains command
  match token with
  | '-':: '-'::rest => .ok (here (longMatch r rest))
  | '-'::c::rest => if c.utf8Size ≠ 1 then .error .panic else .ok (here (shortMatch r c rest))
  | _ => .ok none

end Resolve

/-- The table as it is generated: no spelling stands for two flags, a flag that needs a
value has no negation, and an abbreviation is one character. -/
structure FlagTable where
  flags : List FlagInfo
  spellings : (flags.flatMap FlagInfo.spellings).Nodup
  abbreviations : (flags.filterMap FlagInfo.abbreviation).Nodup
  plain : ∀ flag ∈ flags, ∀ n ∈ flag.names, '/' ∉ n ∧ '@' ∉ n
  needed : ∀ flag ∈ flags, flag.requiresValue = true → flag.hasNegativeFlag = false

namespace FlagTable
variable (t : FlagTable)

def registry : Registry := .build t.flags

end FlagTable

section Found

theorem mem_spellings_name (flag : FlagInfo) : flag.name.toList ∈ flag.spellings := by
  simp [FlagInfo.spellings, FlagInfo.names]

theorem mem_spellings_of_names {flag : FlagInfo} {n : Word} (h : n ∈ flag.names) : n ∈ flag.spellings :=
  List.mem_append_left _ h

theorem mem_spellings_negation {flag : FlagInfo} (h : flag.hasNegativeFlag = true) :
    negation flag.name ∈ flag.spellings := by
  rw [FlagInfo.spellings, if_pos h]
  exact List.mem_append_right _ List.mem_cons_self

theorem addFlag_byName_other {r : Registry} {flag : FlagInfo} {n : Word} (h : n ∉ flag.names) :
    (r.addFlag flag).byName n = r.byName n := by
  rw [FlagInfo.names, List.mem_cons, not_or] at h
  rw [Registry.addFlag]
  cases hold : flag.oldName with
  | none => exact Function.update_of_ne h.1 _ _
  | some old =>
    have hne : n ≠ old.toList := fun heq => h.2 (by rw [hold, heq]; exact List.mem_cons_self)
    dsimp only
    split
    · exact Function.update_of_ne h.1 _ _
    · rw [Function.update_of_ne hne, Function.update_of_ne h.1]

theorem addFlag_byName {r : Registry} {flag : FlagInfo} {n : Word} (h : n ∈ flag.names)
    (hnodup : flag.names.Nodup) (hnew : ∀ m ∈ flag.names, r.byName m = none) :
    (r.addFlag flag).byName n = some flag := by
  rw [FlagInfo.names] at h hnodup hnew
  rw [Registry.addFlag]
  cases hold : flag.oldName with
  | none =>
    rw [hold] at h
    rw [List.mem_singleton.mp h]
    exact Function.update_self _ _ _
  | some old =>
    rw [hold] at h hnodup hnew
    have hne : flag.name.toList ≠ old.toList := by simpa using hnodup
    have hfree : (Function.update r.byName flag.name.toList (some flag) old.toList).isSome = false := by
      rw [Function.update_of_ne hne.symm, hnew _ (List.mem_cons_of_mem _ List.mem_cons_self)]
      rfl
    dsimp only
    rw [hfree, if_neg Bool.false_ne_true]
    rcases List.mem_cons.mp h with rfl | h
    · rw [Function.update_of_ne hne, Function.update_self]
    · rw [List.mem_singleton.mp h, Function.update_self]

theorem foldl_byName_other {flags : List FlagInfo} {r : Registry} {n : Word}
    (h : ∀ flag ∈ flags, n ∉ flag.names) : (flags.foldl Registry.addFlag r).byName n = r.byName n := by
  induction flags generalizing r with
  | nil => rfl
  | cons flag flags ih =>
    rw [List.foldl_cons, ih fun f hf => h f (List.mem_cons_of_mem _ hf),
      addFlag_byName_other (h flag List.mem_cons_self)]

theorem foldl_negatable_other {flags : List FlagInfo} {r : Registry} {n : Word}
    (h : ∀ flag ∈ flags, flag.name.toList ≠ n) :
    (flags.foldl Registry.addFlag r).negatable n = r.negatable n := by
  induction flags generalizing r with
  | nil => rfl
  | cons flag flags ih =>
    rw [List.foldl_cons, ih fun f hf => h f (List.mem_cons_of_mem _ hf), Registry.addFlag]
    dsimp only
    split
    · exact Function.update_of_ne (h flag List.mem_cons_self).symm _ _
    · rfl

theorem foldl_abbreviation_other {flags : List FlagInfo} {r : Registry} {n : Word}
    (h : ∀ flag ∈ flags, ∀ abbr, flag.abbreviation = some abbr → abbr.toList ≠ n) :
    (flags.foldl Registry.addFlag r).byAbbreviation n = r.byAbbreviation n := by
  induction flags generalizing r with
  | nil => rfl
  | cons flag flags ih =>
    rw [List.foldl_cons, ih fun f hf => h f (List.mem_cons_of_mem _ hf), Registry.addFlag]
    cases habbr : flag.abbreviation with
    | none => rfl
    | some abbr => exact Function.update_of_ne (h flag List.mem_cons_self abbr habbr).symm _ _

variable (t : FlagTable) {flag : FlagInfo} {n : Word}

/-- The other rows have none of the flag's spellings. -/
theorem spellings_split (hf : flag ∈ t.flags) : ∃ before later, t.flags = before ++ flag::later ∧
    flag.spellings.Nodup ∧ ∀ other ∈ before ++ later, ∀ n ∈ flag.spellings, n ∉ other.spellings := by
  obtain ⟨before,later,heq⟩ := List.append_of_mem hf
  obtain ⟨hnodup,hapart⟩ := List.nodup_flatMap.mp t.spellings
  rw [heq, List.pairwise_append, List.pairwise_cons] at hapart
  obtain ⟨-,⟨hlater,-⟩,hbefore⟩ := hapart
  refine ⟨before,later,heq,hnodup flag hf,fun other ho n hn hm => ?_⟩
  rcases List.mem_append.mp ho with ho | ho
  · exact hbefore other ho flag List.mem_cons_self hm hn
  · exact hlater other ho hn hm

theorem names_nodup {flag : FlagInfo} (h : flag.spellings.Nodup) : flag.names.Nodup :=
  (List.nodup_append.mp h).1

theorem byName_of_mem (hf : flag ∈ t.flags) (hn : n ∈ flag.names) :
    t.registry.byName n = some flag := by
  obtain ⟨before,later,heq,hnodup,hapart⟩ := spellings_split t hf
  rw [FlagTable.registry, Registry.build, heq, List.foldl_append, List.foldl_cons,
    foldl_byName_other fun other ho hm => hapart other (List.mem_append_right _ ho) n
      (mem_spellings_of_names hn) (mem_spellings_of_names hm)]
  refine addFlag_byName hn (names_nodup hnodup) fun m hm => ?_
  rw [foldl_byName_other fun other ho ho' => hapart other (List.mem_append_left _ ho) m
    (mem_spellings_of_names hm) (mem_spellings_of_names ho')]
  rfl

theorem byName_negation (hf : flag ∈ t.flags) (hneg : flag.hasNegativeFlag = true) :
    t.registry.byName (negation flag.name) = none := by
  obtain ⟨before,later,heq,hnodup,hapart⟩ := spellings_split t hf
  have hmem := mem_spellings_negation hneg
  rw [FlagTable.registry, Registry.build, foldl_byName_other]
  · rfl
  intro other ho hm
  rw [heq, List.mem_append, List.mem_cons] at ho
  rcases ho with ho | rfl | ho
  · exact hapart other (List.mem_append_left _ ho) _ hmem (mem_spellings_of_names hm)
  · rw [FlagInfo.spellings, if_pos hneg] at hnodup
    exact (List.nodup_append.mp hnodup).2.2 _ hm _ List.mem_cons_self rfl
  · exact hapart other (List.mem_append_right _ ho) _ hmem (mem_spellings_of_names hm)

theorem negatable_of_mem (hf : flag ∈ t.flags) (hneg : flag.hasNegativeFlag = true) :
    t.registry.negatable flag.name.toList = some flag := by
  obtain ⟨before,later,heq,-,hapart⟩ := spellings_split t hf
  rw [FlagTable.registry, Registry.build, heq, List.foldl_append, List.foldl_cons, foldl_negatable_other]
  · rw [Registry.addFlag, if_pos hneg]
    exact Function.update_self _ _ _
  · intro other ho hname
    exact hapart other (List.mem_append_right _ ho) _ (mem_spellings_name flag)
      (hname ▸ mem_spellings_name other)

theorem byAbbreviation_of_mem (hf : flag ∈ t.flags) {abbr : String}
    (habbr : flag.abbreviation = some abbr) : t.registry.byAbbreviation abbr.toList = some flag := by
  obtain ⟨before,later,heq⟩ := List.append_of_mem hf
  have hnodup := t.abbreviations
  rw [heq, List.filterMap_append, List.filterMap_cons_some habbr] at hnodup
  rw [FlagTable.registry, Registry.build, heq, List.foldl_append, List.foldl_cons, foldl_abbreviation_other]
  · rw [Registry.addFlag, habbr]
    exact Function.update_self _ _ _
  · intro other ho a ha hsame
    have hmem : abbr ∈ later.filterMap FlagInfo.abbreviation :=
      List.mem_filterMap.mpr ⟨other,ho,by rw [ha, String.toList_injective hsame]⟩
    exact (List.nodup_cons.mp (List.nodup_append.mp hnodup).2.1).1 hmem

/-- A word with one of the flag's names is the flag's. -/
theorem longMatch_name (hf : flag ∈ t.flags) {rest : Word} {value : Option Word}
    (hn : n ∈ flag.names) (hrest : splitValue rest = (n,value)) :
    longMatch t.registry rest = some ⟨flag,false,value⟩ := by
  rw [longMatch, hrest]
  dsimp only
  rw [byName_of_mem t hf hn]

theorem longMatch_negation (hf : flag ∈ t.flags) (hneg : flag.hasNegativeFlag = true) {rest : Word}
    (hrest : splitValue rest = (negation flag.name,none)) :
    longMatch t.registry rest = some ⟨flag,true,none⟩ := by
  rw [longMatch, hrest]
  dsimp only
  rw [byName_negation t hf hneg, negation, stripNo, Option.bind_some, negatable_of_mem t hf hneg]
  rfl

theorem shortMatch_abbreviation (hf : flag ∈ t.flags) {abbr : String} {c : Char} (hc : abbr.toList = [c])
    (habbr : flag.abbreviation = some abbr) (rest : Word) : shortMatch t.registry c rest =
      some ⟨flag,false,if rest.isEmpty then none else some rest⟩ := by
  rw [shortMatch, ← hc, byAbbreviation_of_mem t hf habbr]
  rfl

end Found

end BuildFiji.Flags
