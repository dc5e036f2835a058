import BuildFiji.Rc.Resolve

/-!
# The options of a command are a substitution

The definitions of a command give each config the flags of its lines. The rc files and
the command line are texts over these names, and what is resolved is their expansion,
wherever there is one. What is announced follows the same names without a check: it ends
because the expansion does, as long as a stretch of lines is read as its lines are.
-/

set_option autoImplicit false
set_option linter.all false

namespace BuildFiji.Rc

open Relation Substitution

/-- Flags as a text over the configs they name. -/
def pieces : List String → List (Piece String String)
  | [] => []
  | flag::rest =>
    match stripConfig flag,rest with
    | some name,rest => .name name::pieces rest
    | none,[] => [.plain flag]
    | none,name::rest =>
      if flag = "--config" then .name name::pieces rest else .plain flag::pieces (name::rest)

def linePieces (ls : List ResolvedLine) : List (Piece String String) :=
  ls.flatMap fun l => pieces l.flags

/-- What a config stands for, none if no line defines it for the command. -/
def definitions (lines : List ResolvedLine) (command name : String) :
    Option (List (Piece String String)) :=
  if configLines lines command (some name) = [] then none
  else some (linePieces (configLines lines command (some name)))

def plainText (lines : List ResolvedLine) (command : String) : List (Piece String String) :=
  linePieces (configLines lines command none)

/-- The host's config, when the flags turn it on and something defines it. -/
def hostText (lines : List ResolvedLine) (command os : String) (out : List String) :
    List (Piece String String) :=
  if enabled out ∧ definitions lines command os ≠ none then [.name os] else []

def argText (args : List String) : List (Piece String String) := pieces (beforeMarker args)

section Texts

variable {lines : List ResolvedLine} {command os : String} {fuel : ℕ}

attribute [local simp] pieces appendExpanding in
theorem appendExpanding_pieces (expand : String → Run ResolveError String) (flags : List String) :
    appendExpanding expand flags = expandPieces expand (pieces flags) := by
  fun_induction pieces flags with
  | case1 => rfl
  | case2 flag name rest hname ih => simp [hname,ih,expandPieces,expandPiece]
  | case3 flag hname => simp [hname,expandPieces,expandPiece]
  | case4 name rest hname ih => simp [hname,ih,expandPieces,expandPiece]
  | case5 flag name rest hname hne ih =>
    simp [hname,hne,ih,expandPieces,expandPiece]

theorem appendLines_pieces (expand : String → Run ResolveError String) (ls : List ResolvedLine) :
    appendLines expand ls = expandPieces expand (linePieces ls) := by
  rw [appendLines,linePieces,expandPieces_flatMap]
  simp only [appendExpanding_pieces]

theorem definitions_eq_none {name : String} :
    definitions lines command name = none ↔ configLines lines command (some name) = [] := by
  simp [definitions]

/-- The code's run is that of its definitions. -/
theorem expandConfig_required (active : List String) (name : String) :
    expandConfig lines command fuel active name true =
      expandName (definitions lines command) .configCycle .undefinedConfig fuel active name := by
  induction fuel generalizing active name with
  | zero => rfl
  | succ fuel ih =>
    rw [expandConfig,expandName]
    split
    · rfl
    · by_cases hm : configLines lines command (some name) = []
      · simp [definitions,hm,appendLines,Run.all]
      · simp only [definitions,hm,if_false,and_false]
        rw [appendLines_pieces]
        congr 1
        exact funext fun nested => ih (active ++ [name]) nested

/-- The host's config need not be defined. -/
theorem expandConfig_host :
    expandConfig lines command (fuel+1) [] os false =
      if definitions lines command os = none then some (.ok [])
      else expandConfig lines command (fuel+1) [] os true := by
  by_cases hm : configLines lines command (some os) = []
  · simp [expandConfig,definitions,hm,appendLines,Run.all]
  · simp [expandConfig,definitions,hm]

def configNamesOf (lines : List ResolvedLine) : List String := lines.filterMap ResolvedLine.config

theorem mem_configLines {config : Option String} {l : ResolvedLine} :
    l ∈ configLines lines command config ↔
      l ∈ lines ∧ l.config = config ∧ l.command ∈ commandChain command := by
  simp only [configLines,List.mem_flatMap,List.mem_filter,decide_eq_true_eq]
  constructor
  · rintro ⟨applicable,hchain,hl,hc,rfl⟩
    exact ⟨hl,hc,hchain⟩
  · rintro ⟨hl,hc,hchain⟩
    exact ⟨l.command,hchain,hl,hc,rfl⟩

theorem defined_named {name : String} (h : definitions lines command name ≠ none) :
    name ∈ configNamesOf lines := by
  obtain ⟨l,hl⟩ := List.exists_mem_of_ne_nil _ (mt definitions_eq_none.mpr h)
  obtain ⟨hmem,hc,-⟩ := mem_configLines.mp hl
  exact List.mem_filterMap.mpr ⟨l,hmem,hc⟩

theorem names_lt (h : lines.length < fuel) : (configNamesOf lines).length < fuel :=
  (List.length_filterMap_le ..).trans_lt h

end Texts

section Resolved

variable (lines : List ResolvedLine) (command : String) (fuel : ℕ)

/-- A run over the definitions of the command. -/
abbrev expanded (ps : List (Piece String String)) : Run ResolveError String :=
  expandPieces (expandName (definitions lines command) .configCycle .undefinedConfig fuel []) ps

variable {lines command fuel}
variable {os : String} {args out : List String}

theorem appendLines_expanded (ls : List ResolvedLine) :
    appendLines (expandConfig lines command fuel [] · true) ls =
      expanded lines command fuel (linePieces ls) := by
  simp only [appendLines_pieces,expandConfig_required]

theorem expandCommandLine_expanded :
    expandCommandLine lines command fuel args =
      (expanded lines command fuel (argText args)).append (some (.ok (fromMarker args))) := by
  simp only [expandCommandLine,appendExpanding_pieces,expandConfig_required,argText]

theorem host_expanded (hen : enabled out = true) :
    expandConfig lines command (fuel+1) [] os false =
      expanded lines command (fuel+1) (hostText lines command os out) := by
  rw [expandConfig_host]
  by_cases hdef : definitions lines command os = none
  · simp [hostText,hdef,expanded,expandPieces]
  · simp [hostText,hdef,hen,expanded,expandPieces,expandPiece,expandConfig_required]

theorem resolveCommand_of_ok
    (h : expanded lines command (fuel+1) (plainText lines command) = some (.ok out)) :
    resolveCommand lines command (fuel+1) os =
      Run.append (some (.ok (retained out)))
        (expanded lines command (fuel+1) (hostText lines command os out)) := by
  rw [plainText,← appendLines_expanded] at h
  rw [resolveCommand,h]
  by_cases hen : enabled out = true
  · simp only [hen,if_true]
    rw [host_expanded hen]
  · simp [hen,hostText,expanded,expandPieces]

theorem resolveCommand_of_error {e : ResolveError}
    (h : expanded lines command fuel (plainText lines command) = some (.error e)) :
    resolveCommand lines command fuel os = some (.error e) := by
  rw [plainText,← appendLines_expanded] at h
  rw [resolveCommand,h]

theorem expanded_iff (hfuel : lines.length < fuel) {ps : List (Piece String String)} :
    expanded lines command fuel ps = some (.ok out) ↔ Expands (definitions lines command) ps out :=
  run_iff_expands (fun _ => defined_named) (names_lt hfuel)

theorem expanded_settles (hfuel : lines.length < fuel) (ps : List (Piece String String)) :
    expanded lines command fuel ps = expanded lines command (lines.length+1) ps := by
  rw [expanded,expandPieces_settles (fun _ => defined_named) (names_lt hfuel),
    ← expandPieces_settles (fun _ => defined_named) (names_lt (Nat.lt_succ_self _))]

theorem expanded_ends (hfuel : lines.length < fuel) (ps : List (Piece String String)) :
    expanded lines command fuel ps ≠ none :=
  expandPieces_fuel (fun _ => defined_named) (names_lt hfuel)

theorem clean_iff {ps : List (Piece String String)} :
    Clean (definitions lines command) ps ↔ ∃ r, Expands (definitions lines command) ps r :=
  clean_iff_expands fun _ => defined_named

/-- What is resolved: the expansion of the rc files without the flags about the host's
config, and that of this config if they turn it on. -/
theorem resolveCommand_iff (hfuel : lines.length < fuel) :
    resolveCommand lines command fuel os = some (.ok out) ↔
      ∃ r h, Expands (definitions lines command) (plainText lines command) r ∧
        Expands (definitions lines command) (hostText lines command os r) h ∧
        out = retained r ++ h := by
  obtain ⟨fuel,rfl⟩ : ∃ k, fuel = k+1 := ⟨fuel-1,by omega⟩
  simp only [← expanded_iff hfuel]
  cases hplain : expanded lines command (fuel+1) (plainText lines command) with
  | none => exact absurd hplain (expanded_ends hfuel _)
  | some x =>
    cases x with
    | error e => simp [resolveCommand_of_error hplain]
    | ok r => simp [resolveCommand_of_ok hplain,Run.append_ok]

theorem resolveCommand_settles (hfuel : lines.length < fuel) :
    resolveCommand lines command fuel os = resolveCommand lines command (lines.length+1) os := by
  obtain ⟨fuel,rfl⟩ : ∃ k, fuel = k+1 := ⟨fuel-1,by omega⟩
  have hsame (ps : List (Piece String String)) :
      expanded lines command (fuel+1) ps = expanded lines command (lines.length+1) ps :=
    expanded_settles hfuel ps
  cases hplain : expanded lines command (fuel+1) (plainText lines command) with
  | none => exact absurd hplain (expanded_ends hfuel _)
  | some x =>
    have hplain' := (hsame _).symm.trans hplain
    cases x with
    | error e => rw [resolveCommand_of_error hplain,resolveCommand_of_error hplain']
    | ok r => rw [resolveCommand_of_ok hplain,resolveCommand_of_ok hplain',hsame]

theorem resolveCommand_ends (hfuel : lines.length < fuel) :
    resolveCommand lines command fuel os ≠ none := by
  obtain ⟨fuel,rfl⟩ : ∃ k, fuel = k+1 := ⟨fuel-1,by omega⟩
  cases hplain : expanded lines command (fuel+1) (plainText lines command) with
  | none => exact absurd hplain (expanded_ends hfuel _)
  | some x =>
    cases x with
    | error e => simp [resolveCommand_of_error hplain]
    | ok r =>
      rw [resolveCommand_of_ok hplain]
      exact Run.append_ne_none (by simp) (expanded_ends hfuel _)

theorem expandCommandLine_iff (hfuel : lines.length < fuel) :
    expandCommandLine lines command fuel args = some (.ok out) ↔
      ∃ r, Expands (definitions lines command) (argText args) r ∧ out = r ++ fromMarker args := by
  simp [expandCommandLine_expanded,Run.append_ok,expanded_iff hfuel]

theorem expandCommandLine_settles (hfuel : lines.length < fuel) :
    expandCommandLine lines command fuel args =
      expandCommandLine lines command (lines.length+1) args := by
  rw [expandCommandLine_expanded,expandCommandLine_expanded,expanded_settles hfuel]

theorem expandCommandLine_ends (hfuel : lines.length < fuel) :
    expandCommandLine lines command fuel args ≠ none := by
  rw [expandCommandLine_expanded]
  exact Run.append_ne_none (expanded_ends hfuel _) (by simp)

end Resolved

end BuildFiji.Rc
