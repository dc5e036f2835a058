import BuildFiji.Cli.OptionSyntax

/-!
# The gate

Before the extractors run, every word has to be a flag that is registered for the command
and that something reads, the value of such a flag, or a word that does not begin with `-`.
Words that name a build setting are not looked at.
-/

set_option autoImplicit false
set_option linter.all false

namespace BuildFiji.Flags

open BuildFiji.Scan

/-- What `clap_flags::build` registers. -/
structure Registered where
  longs : List (Word × FlagInfo × Bool)
  shorts : List (Char × FlagInfo)

namespace Registered
variable (r : Registered)

def hasLong (n : Word) : Bool := r.longs.any fun e => e.1 == n

/-- A name that is taken is not given again. -/
def addLong (n : Word) (flag : FlagInfo) (negated : Bool) : Registered :=
  if r.hasLong n then r else { r with longs := r.longs ++ [(n,flag,negated)] }

def addShort (flag : FlagInfo) : Registered :=
  match flag.abbreviation.map String.toList with
  | some [c] =>
    if c.utf8Size = 1 ∧ (r.shorts.lookup c).isNone then { r with shorts := r.shorts ++ [(c,flag)] } else r
  | _ => r

def addOld (flag : FlagInfo) : Registered :=
  match flag.oldName with
  | some old => r.addLong old.toList flag false
  | none => r

def addNegation (flag : FlagInfo) : Registered :=
  if flag.hasNegativeFlag then r.addLong (negation flag.name) flag true else r

def register (flag : FlagInfo) : Registered :=
  if r.hasLong flag.name.toList then r
  else (((r.addLong flag.name.toList flag false).addOld flag).addShort flag).addNegation flag

end Registered

def commandFor (flags : List FlagInfo) (command : String) : Registered :=
  (flags.filter fun flag => flag.commands.contains command).foldl Registered.register ⟨[],[]⟩

section Accept
variable (r : Registered)

def looksLikeNegativePattern : Word → Bool
  | '-':: '@'::_ => true
  | '-':: '/':: '/'::_ => true
  | _ => false

def looksLikeStarlarkFlag : Word → Bool
  | '-':: '-':: '/':: '/'::_ => true
  | '-':: '-':: '@'::_ => true
  | _ => false

/-- The words that are not checked. -/
def skipped (arg : Word) : Bool := looksLikeNegativePattern arg || looksLikeStarlarkFlag arg

def registeredFlag (arg : Word) : Option FlagMatch :=
  match arg with
  | '-':: '-'::body =>
    let (name,value) := splitValue body
    (r.longs.lookup name).map fun e => ⟨e.1,e.2,value⟩
  | '-'::c::rest => (r.shorts.lookup c).map fun flag => ⟨flag,false,if rest.isEmpty then none else some rest⟩
  | _ => none

def FlagMatch.needsNext (m : FlagMatch) : Bool := !m.negated && m.flag.requiresValue && m.value.isNone

/-- `--flag` or `--flag=value`, for one of a few values. -/
def isOptional (flag : FlagInfo) : Bool :=
  !flag.requiresValue && !flag.enumValues.isEmpty && flag.typeConverter ≠ some "Boolean"

/-- Whether the value that is attached may be there. -/
def valueFits (arg : Word) (m : FlagMatch) : Bool :=
  match m.value with
  | none => true
  | some value =>
    !m.negated && (m.flag.requiresValue ||
      isOptional m.flag && ("--".toList.isPrefixOf arg || value.head? = some '='))

/-- The flags that the words read as from the left, if they are all registered. -/
def accept : List Word → Option (List FlagInfo)
  | [] => some []
  | arg::args =>
    if arg.head? ≠ some '-' then accept args
    else
      match registeredFlag r arg with
      | none => none
      | some m =>
        if m.needsNext then
          match args with
          | [] => none
          | _::args => (accept args).map (m.flag::·)
        else if valueFits arg m then (accept args).map (m.flag::·)
        else none

end Accept

/-- `clap_flags::validate`. -/
def validate (flags : List FlagInfo) (command : String) (implemented : List String) (args : List Word) :
    Except Stop Unit :=
  match accept (commandFor flags command) (args.filter fun arg => !skipped arg) with
  | none => .error .rejected
  | some given =>
    match flags.find? fun flag => flag.commands.contains command && given.contains flag &&
        !implemented.contains flag.name with
    | some flag => .error (.notImplemented flag.name command)
    | none => .ok ()

section Registers

/-- What is registered stands for a flag of the command, by one of its spellings. -/
structure FromTable (flags : List FlagInfo) (r : Registered) : Prop where
  longs : ∀ e ∈ r.longs, e.2.1 ∈ flags ∧
    (e.2.2 = false ∧ e.1 ∈ e.2.1.names ∨
      e.2.2 = true ∧ e.2.1.hasNegativeFlag = true ∧ e.1 = negation e.2.1.name)
  shorts : ∀ e ∈ r.shorts, e.2 ∈ flags ∧ e.1.utf8Size = 1 ∧
    ∃ abbr, e.2.abbreviation = some abbr ∧ abbr.toList = [e.1]

variable {flags : List FlagInfo} {r : Registered} {flag : FlagInfo}

theorem FromTable.addLong (h : FromTable flags r) (hf : flag ∈ flags) {n : Word} {negated : Bool}
    (hn : negated = false ∧ n ∈ flag.names ∨
      negated = true ∧ flag.hasNegativeFlag = true ∧ n = negation flag.name) :
    FromTable flags (r.addLong n flag negated) := by
  rw [Registered.addLong]
  split
  · exact h
  · refine ⟨fun e he => ?_,h.shorts⟩
    rcases List.mem_append.mp he with he | he
    · exact h.longs e he
    · rw [List.mem_singleton.mp he]
      exact ⟨hf,hn⟩

theorem FromTable.addShort (h : FromTable flags r) (hf : flag ∈ flags) :
    FromTable flags (r.addShort flag) := by
  rw [Registered.addShort]
  split
  · next c habbr =>
    split
    · next hc =>
      obtain ⟨abbr,habbr,hlist⟩ := Option.map_eq_some_iff.mp habbr
      refine ⟨h.longs,fun e he => ?_⟩
      rcases List.mem_append.mp he with he | he
      · exact h.shorts e he
      · rw [List.mem_singleton.mp he]
        exact ⟨hf,hc.1,abbr,habbr,hlist⟩
    · exact h
  · exact h

theorem FromTable.register (h : FromTable flags r) (hf : flag ∈ flags) :
    FromTable flags (r.register flag) := by
  rw [Registered.register]
  split
  · exact h
  · have hname := h.addLong hf (.inl ⟨rfl,List.mem_cons_self⟩)
    have hold : FromTable flags ((r.addLong flag.name.toList flag false).addOld flag) := by
      rw [Registered.addOld]
      split
      · next old hold =>
        refine hname.addLong hf (.inl ⟨rfl,?_⟩)
        rw [FlagInfo.names, hold]
        exact List.mem_cons_of_mem _ List.mem_cons_self
      · exact hname
    have hshort := hold.addShort hf
    rw [Registered.addNegation]
    split
    · next hneg => exact hshort.addLong hf (.inr ⟨rfl,hneg,rfl⟩)
    · exact hshort

theorem FromTable.registers {rest : List FlagInfo} (hsub : ∀ flag ∈ rest, flag ∈ flags)
    (h : FromTable flags r) : FromTable flags (rest.foldl Registered.register r) := by
  induction rest generalizing r with
  | nil => exact h
  | cons flag rest ih =>
    exact ih (fun f hf => hsub f (List.mem_cons_of_mem _ hf)) (h.register (hsub flag List.mem_cons_self))

theorem commandFor_fromTable (flags : List FlagInfo) (command : String) :
    FromTable (flags.filter fun flag => flag.commands.contains command) (commandFor flags command) :=
  FromTable.registers (fun _ h => h) ⟨(fun _ he => nomatch he),(fun _ he => nomatch he)⟩

end Registers

section Resolves
variable (t : FlagTable) {command : String} {arg : Word} {m : FlagMatch}

theorem mem_of_lookup {α β : Type} [BEq α] [LawfulBEq α] {k : α} {v : β} {l : List (α × β)}
    (h : l.lookup k = some v) : (k,v) ∈ l := by
  induction l with
  | nil => cases h
  | cons e l ih =>
    rw [List.lookup_cons] at h
    split at h
    · next hk =>
      cases h
      rw [beq_iff_eq] at hk
      rw [hk]
      exact List.mem_cons_self
    · exact List.mem_cons_of_mem _ (ih h)

theorem FromTable.flag_mem {flags : List FlagInfo} {r : Registered} (h : FromTable flags r) {arg : Word}
    {m : FlagMatch} (hm : registeredFlag r arg = some m) : m.flag ∈ flags := by
  unfold registeredFlag at hm
  split at hm
  · obtain ⟨e,he,rfl⟩ := Option.map_eq_some_iff.mp hm
    exact (h.longs _ (mem_of_lookup he)).1
  · obtain ⟨flag,hflag,rfl⟩ := Option.map_eq_some_iff.mp hm
    exact (h.shorts _ (mem_of_lookup hflag)).1
  · cases hm

/-- A word that is registered resolves to the same flag. -/
theorem resolve_registered (h : registeredFlag (commandFor t.flags command) arg = some m)
    (hnegated : m.negated = true → m.value = none) :
    resolve t.registry arg command = .ok (some m) ∧ m.flag ∈ t.flags ∧
      (m.negated = true → m.flag.hasNegativeFlag = true) := by
  have hfrom := commandFor_fromTable t.flags command
  unfold registeredFlag at h
  split at h
  · next body =>
    obtain ⟨e,he,rfl⟩ := Option.map_eq_some_iff.mp h
    obtain ⟨hmem,hspelled⟩ := hfrom.longs _ (mem_of_lookup he)
    obtain ⟨hf,hcommand⟩ := List.mem_filter.mp hmem
    have hsplit : splitValue body = ((splitValue body).1,(splitValue body).2) := rfl
    have hlong : longMatch t.registry body = some ⟨e.1,e.2,(splitValue body).2⟩ := by
      rcases hspelled with ⟨hneg,hn⟩ | ⟨hneg,hhas,hn⟩
      · change e.2 = false at hneg
        rw [hneg]
        exact longMatch_name t hf hn hsplit
      · change e.2 = true at hneg
        have hnone : (splitValue body).2 = none := hnegated hneg
        change (splitValue body).1 = _ at hn
        rw [hn, hnone] at hsplit
        rw [hneg, hnone]
        exact longMatch_negation t hf hhas hsplit
    refine ⟨?_,hf,fun hneg => ?_⟩
    · rw [resolve, hlong]
      exact congrArg Except.ok (Option.filter_some_pos hcommand)
    · rcases hspelled with ⟨hfalse,-⟩ | ⟨-,hhas,-⟩
      · rw [show e.2 = false from hfalse] at hneg
        cases hneg
      · exact hhas
  · next c rest hlong =>
    obtain ⟨flag,hflag,rfl⟩ := Option.map_eq_some_iff.mp h
    obtain ⟨hmem,hsize,abbr,habbr,hc⟩ := hfrom.shorts _ (mem_of_lookup hflag)
    obtain ⟨hf,hcommand⟩ := List.mem_filter.mp hmem
    refine ⟨?_,hf,fun hneg => absurd hneg Bool.false_ne_true⟩
    unfold resolve
    split
    · next heq =>
      cases heq
      exact (hlong rfl).elim
    · next c' rest' _ heq =>
      cases heq
      rw [if_neg (not_not.mpr hsize), shortMatch_abbreviation t hf hc habbr]
      exact congrArg Except.ok (Option.filter_some_pos hcommand)
    · next hno => exact absurd rfl (hno c rest)
  · cases h

end Resolves

section Pieces
variable (r : Registered)

/-- The flag that a word is for, if the word is looked at. -/
def optionOf (arg : Word) : Option FlagMatch :=
  if arg.head? ≠ some '-' ∨ skipped arg = true then none else registeredFlag r arg

/-- The words from the left, a flag that needs a value with the word that follows. -/
def reading : List Word → List (Piece Word)
  | [] => []
  | arg::args =>
    if (optionOf r arg).any FlagMatch.needsNext then
      match args with
      | [] => [.one arg]
      | value::args => .two arg value::reading args
    else .one arg::reading args

/-- What the gate lets through. -/
def Passed (implemented : List String) (p : Piece Word) : Prop :=
  p.head.head? ≠ some '-' ∨ skipped p.head = true ∨
    ∃ m, optionOf r p.head = some m ∧ m.flag.name ∈ implemented ∧ valueFits p.head m = true ∧
      (m.needsNext = true ↔ ∃ w v, p = .two w v)

variable {r} {flags : List FlagInfo} {command : String} {implemented : List String}

theorem optionOf_some {arg : Word} {m : FlagMatch} (h : optionOf r arg = some m) :
    arg.head? = some '-' ∧ skipped arg = false ∧ registeredFlag r arg = some m := by
  rw [optionOf] at h
  split at h
  · cases h
  · next hno =>
    rw [not_or, not_not, Bool.not_eq_true] at hno
    exact ⟨hno.1,hno.2,h⟩

theorem reading_words (args : List Word) : (reading r args).flatMap Piece.words = args := by
  fun_induction reading r args with
  | case1 => rfl
  | case2 arg hneeds => rfl
  | case3 arg hneeds value args ih => rw [List.flatMap_cons, ih]; rfl
  | case4 arg args hneeds ih => rw [List.flatMap_cons, ih]; rfl

/-- What a gate that accepts has seen at a piece. -/
def Seen (r : Registered) (given : List FlagInfo) (p : Piece Word) : Prop :=
  p.head.head? ≠ some '-' ∨ skipped p.head = true ∨
    ∃ m, optionOf r p.head = some m ∧ m.flag ∈ given ∧ valueFits p.head m = true ∧
      (m.needsNext = true ↔ ∃ w v, p = .two w v)

theorem Seen.mono {given given' : List FlagInfo} {p : Piece Word} (h : Seen r given p)
    (hsub : ∀ flag ∈ given, flag ∈ given') : Seen r given' p := by
  rcases h with h | h | ⟨m,hm,hflag,hrest⟩
  · exact .inl h
  · exact .inr (.inl h)
  · exact .inr (.inr ⟨m,hm,hsub _ hflag,hrest⟩)

theorem accept_option {arg : Word} {args : List Word} {m : FlagMatch} (h : optionOf r arg = some m) :
    accept r (arg::args) =
      if m.needsNext then
        match args with
        | [] => none
        | _::args => (accept r args).map (m.flag::·)
      else if valueFits arg m then (accept r args).map (m.flag::·)
      else none := by
  obtain ⟨hdash,-,hm⟩ := optionOf_some h
  rw [accept, if_neg (not_not.mpr hdash), hm]

/-- Where no value is a word that is not checked, the gate sees the same pieces. -/
theorem accept_reading {args : List Word} {given : List FlagInfo}
    (hdirect : ∀ w v, Piece.two w v ∈ reading r args → skipped v = false)
    (h : accept r (args.filter fun arg => !skipped arg) = some given) :
    ∀ p ∈ reading r args, Seen r given p := by
  fun_induction reading r args generalizing given with
  | case1 => exact fun p hp => nomatch hp
  | case2 arg hneeds =>
    obtain ⟨m,hm,hnext⟩ := (Option.any_eq_true _ _).mp hneeds
    obtain ⟨-,hskip,-⟩ := optionOf_some hm
    rw [List.filter_cons, hskip, Bool.not_false, if_pos rfl, accept_option hm, if_pos hnext] at h
    cases h
  | case3 arg hneeds value args ih =>
    obtain ⟨m,hm,hnext⟩ := (Option.any_eq_true _ _).mp hneeds
    obtain ⟨-,hskip,-⟩ := optionOf_some hm
    rw [List.filter_cons, hskip, Bool.not_false, if_pos rfl, List.filter_cons,
      hdirect arg value List.mem_cons_self, Bool.not_false, if_pos rfl, accept_option hm,
      if_pos hnext] at h
    obtain ⟨given',hgiven,rfl⟩ := Option.map_eq_some_iff.mp h
    have hvalue : m.value = none := by
      rw [FlagMatch.needsNext, Bool.and_eq_true, Option.isNone_iff_eq_none] at hnext
      exact hnext.2
    intro p hp
    rcases List.mem_cons.mp hp with rfl | hp
    · refine .inr (.inr ⟨m,hm,List.mem_cons_self,?_,fun _ => ⟨arg,value,rfl⟩,fun _ => hnext⟩)
      rw [valueFits, hvalue]
    · exact (ih (fun w v hwv => hdirect w v (List.mem_cons_of_mem _ hwv)) hgiven p hp).mono
        fun flag hflag => List.mem_cons_of_mem _ hflag
  | case4 arg args hneeds ih =>
    have hlater : ∀ w v, Piece.two w v ∈ reading r args → skipped v = false :=
      fun w v hwv => hdirect w v (List.mem_cons_of_mem _ hwv)
    by_cases hskip : skipped arg = true
    · rw [List.filter_cons, hskip, Bool.not_true, if_neg Bool.false_ne_true] at h
      intro p hp
      rcases List.mem_cons.mp hp with rfl | hp
      · exact .inr (.inl hskip)
      · exact ih hlater h p hp
    rw [List.filter_cons, Bool.eq_false_iff.mpr hskip, Bool.not_false, if_pos rfl] at h
    by_cases hdash : arg.head? = some '-'
    · cases hm : optionOf r arg with
      | none =>
        rw [optionOf, if_neg (by rw [not_or]; exact ⟨not_not.mpr hdash,hskip⟩)] at hm
        rw [accept, if_neg (not_not.mpr hdash), hm] at h
        cases h
      | some m =>
        rw [hm, Option.any_some] at hneeds
        rw [accept_option hm, if_neg hneeds] at h
        split at h
        · next hfits =>
          obtain ⟨given',hgiven,rfl⟩ := Option.map_eq_some_iff.mp h
          intro p hp
          rcases List.mem_cons.mp hp with rfl | hp
          · refine .inr (.inr ⟨m,hm,List.mem_cons_self,hfits,fun hnext => absurd hnext hneeds,?_⟩)
            rintro ⟨w,v,heq⟩
            cases heq
          · exact (ih hlater hgiven p hp).mono fun flag hflag => List.mem_cons_of_mem _ hflag
        · cases h
    · rw [accept, if_pos hdash] at h
      intro p hp
      rcases List.mem_cons.mp hp with rfl | hp
      · exact .inl hdash
      · exact ih hlater h p hp

theorem passed_of_validate {args : List Word}
    (hdirect : ∀ w v, Piece.two w v ∈ reading (commandFor flags command) args → skipped v = false)
    (h : validate flags command implemented args = .ok ()) :
    ∀ p ∈ reading (commandFor flags command) args,
      Passed (commandFor flags command) implemented p := by
  rw [validate] at h
  split at h
  · cases h
  next given hgiven =>
  split at h
  · cases h
  next hfind =>
  intro p hp
  rcases accept_reading hdirect hgiven p hp with h | h | ⟨m,hm,hflag,hfits,hshape⟩
  · exact .inl h
  · exact .inr (.inl h)
  refine .inr (.inr ⟨m,hm,?_,hfits,hshape⟩)
  obtain ⟨-,-,hregistered⟩ := optionOf_some hm
  have hmem := (commandFor_fromTable flags command).flag_mem hregistered
  obtain ⟨hf,hcommand⟩ := List.mem_filter.mp hmem
  have hno := List.find?_eq_none.mp hfind m.flag hf
  rw [hcommand, List.contains_iff_mem.mpr hflag, Bool.and_self, Bool.true_and, Bool.not_eq_true',
    Bool.not_eq_false] at hno
  exact List.contains_iff_mem.mp hno

end Pieces

end BuildFiji.Flags
