import BuildFiji.Cli.RunFlags

/-!
# The run script

The script goes where `run` goes and runs what it runs, with the same variables, as a shell and
`env` read it. A program whose path holds a `=` is a variable for `env`.
-/

set_option autoImplicit false
set_option linter.all false

namespace BuildFiji.RunCommand

open BuildFiji.RunFlags BuildFiji.Shell
open BuildFiji.Shell.Reader (between)

section Escaped

theorem ordinary_of_safe {c : Char} (h : isSafe c = true) : ordinary c = true := by
  have hsub : (" \t\n|&;<>()\\\x27\"#$\x60*?[~".toList.all fun e => !isSafe e) = true := by decide
  rw [ordinary, Bool.not_eq_true', List.contains_eq_mem, decide_eq_false_iff_not]
  intro hc
  have hunsafe := List.all_eq_true.mp hsub c hc
  rw [h] at hunsafe
  cases hunsafe

def safe (arg : String) : Bool := arg ≠ "" ∧ arg.toList.all isSafe

/-- What an escaped word is read as. -/
def marked (arg : String) : Word := arg.toList.map fun c => (c,if safe arg then .bare else .quoted)

theorem literal_marked (arg : String) : literal (marked arg) = some arg := by
  have hall : (marked arg).all inert = true := by
    unfold marked
    cases hsafe : safe arg with
    | true => exact inert_bare fun c hc => ordinary_of_safe (List.all_eq_true.mp (of_decide_eq_true hsafe).2 c hc)
    | false =>
      rw [List.all_map]
      exact List.all_eq_true.mpr fun _ _ => rfl
  rw [literal, if_pos hall, marked, List.map_map]
  simp [Function.comp_def]

theorem fold_quoted (text : List Char) (d : List Token) (v : Word) :
    (text.flatMap fun c => if c = '\x27' then "'\\''".toList else [c]).foldl Reader.next (quoting d v) =
      quoting d (v ++ text.map fun c => (c,.quoted)) := by
  induction text generalizing v with
  | nil => rw [List.map_nil, List.append_nil]; rfl
  | cons c text ih =>
    have hpiece : (if c = '\x27' then "'\\''".toList else [c]).foldl Reader.next (quoting d v) =
        quoting d (v ++ [(c,.quoted)]) := by
      split
      · next hc => rw [hc]; rfl
      · next hc => exact next_quoting d v hc
    rw [List.flatMap_cons, List.foldl_append, hpiece, ih, List.append_assoc]
    rfl

/-- An escaped word is read as the word, on its own or after what is read of it before. -/
theorem fold_shellEscape (arg : String) (d : List Token) :
    (∀ v, (shellEscape arg).toList.foldl Reader.next (within d v) = within d (v ++ marked arg)) ∧
      (shellEscape arg).toList.foldl Reader.next (between d) = within d (marked arg) := by
  unfold marked
  cases hsafe : safe arg with
  | true =>
    obtain ⟨hne,hall⟩ := of_decide_eq_true hsafe
    have hordinary : ∀ c ∈ arg.toList, ordinary c = true :=
      fun c hc => ordinary_of_safe (List.all_eq_true.mp hall c hc)
    have hescape : shellEscape arg = arg := if_pos ⟨hne,hall⟩
    rw [hescape]
    refine ⟨fun v => fold_ordinary d v hordinary,?_⟩
    exact fold_ordinary_between d hordinary fun hnil => hne (String.toList_eq_nil_iff.mp hnil)
  | false =>
    have hescape : shellEscape arg = .ofList ('\x27' :: (arg.toList.flatMap fun c =>
        if c = '\x27' then "'\\''".toList else [c]) ++ ['\x27']) := if_neg (of_decide_eq_false hsafe)
    rw [hescape, String.toList_ofList, List.cons_append]
    refine ⟨fun v => ?_,?_⟩
    · rw [List.foldl_cons, List.foldl_append, (next_opens d v).1, fold_quoted]
      rfl
    · rw [List.foldl_cons, List.foldl_append, (next_opens d []).2, fold_quoted]
      rfl

theorem escaped_cons (w w' : String) (words : List String) :
    (Built.escaped (w::w'::words)).toList = (shellEscape w).toList ++ ' '::(Built.escaped (w'::words)).toList := by
  rw [Built.escaped, Built.escaped, String.toList_intercalate, String.toList_intercalate, List.map_cons, List.map_cons,
    List.map_cons, List.map_cons, List.intercalate_cons_cons, List.append_assoc]
  rfl

theorem escaped_single (w : String) : Built.escaped [w] = shellEscape w := by simp [Built.escaped]

/-- Words that are escaped are read back, each as it was marked. -/
theorem split_escaped (words : List String) :
    split (Built.escaped words).toList = some (words.map fun w => .word (marked w)) := by
  have hread : ∀ w, Shell.read (shellEscape w).toList = within [] (marked w) := fun w => (fold_shellEscape w []).2
  have hready : ∀ w, (Shell.read (shellEscape w).toList).Ready := by
    intro w
    rw [hread]
    exact ⟨rfl,.inl rfl⟩
  induction words with
  | nil => rfl
  | cons w words ih =>
    cases words with
    | nil =>
      rw [escaped_single, split_ready (hready w), hread]
      rfl
    | cons w' words =>
      rw [escaped_cons, split_blank (hready w), ih, hread]
      rfl

theorem fields_escaped (arguments words : List String) :
    fields arguments (words.map fun w => .word (marked w)) = some words := by
  have hliteral : (words.map marked).map literal = words.map some := by
    rw [List.map_map]
    exact List.map_congr_left fun w _ => literal_marked w
  have hfields : fields arguments ((words.map marked).map .word) = some words := fields_words hliteral
  rwa [List.map_map] at hfields

end Escaped

section Script

variable (b : Built)

def wordOf (text : String) : Token := .word (text.toList.map fun c => (c,.bare))

/-- A value that is given to `env`, as it is read. -/
def assigned (e : String × String) : Word := (e.1 ++ "=").toList.map (fun c => (c,Mark.bare)) ++ marked e.2

/-- The words after the assignments, as the shell gives them to `env`. -/
def Built.commandWords : List String :=
  match b.runUnder with
  | none => b.argv ++ b.programArgs
  | some (.command _) => b.argv
  | some (.target _ _) => ["/bin/bash","-c",b.line b.argv]

theorem reads_escaped {words : List String} (hne : words ≠ []) :
    Reads ((Built.escaped words).toList ++ [' ']) (words.map fun w => .word (marked w)) := by
  induction words with
  | nil => exact absurd rfl hne
  | cons w words ih =>
    have hword : Reads ((shellEscape w).toList ++ [' ']) [.word (marked w)] :=
      reads_word fun d => (fold_shellEscape w d).2
    cases words with
    | nil =>
      rw [escaped_single]
      exact hword
    | cons w' words =>
      have hmore := hword.append (ih (List.cons_ne_nil _ _))
      rw [escaped_cons]
      simpa [List.append_assoc] using hmore

theorem reads_unset {name : String} (h : ∀ c ∈ name.toList, ordinary c = true) (hne : name ≠ "") :
    Reads ("    -u " ++ name ++ " \\\n").toList [wordOf "-u",wordOf name] := by
  have hname : Reads (name.toList ++ [' ']) [wordOf name] :=
    reads_word fun d => fold_ordinary_between d h fun hnil => hne (String.toList_eq_nil_iff.mp hnil)
  have hoption : Reads "    -u ".toList [wordOf "-u"] := reads_of (by decide)
  have hline : Reads "\\\n".toList [] := reads_of (by decide)
  have hall := hoption.append (hname.append hline)
  simpa [List.append_assoc] using hall

theorem reads_assigned {e : String × String} (h : ∀ c ∈ e.1.toList, ordinary c = true) :
    Reads ("    " ++ e.1 ++ "=" ++ shellEscape e.2 ++ " \\\n").toList [.word (assigned e)] := by
  have hword : Reads ((e.1 ++ "=").toList ++ (shellEscape e.2).toList ++ [' ']) [.word (assigned e)] := by
    refine reads_word fun d => ?_
    rw [List.foldl_append, fold_ordinary_between d, (fold_shellEscape e.2 d).1]
    · rfl
    · intro c hc
      rw [String.toList_append, List.mem_append] at hc
      rcases hc with hc | hc
      · exact h c hc
      · rw [List.mem_singleton.mp hc]
        decide
    · simp
  have hindent : Reads "    ".toList [] := reads_of (by decide)
  have hline : Reads "\\\n".toList [] := reads_of (by decide)
  have hall := hindent.append (hword.append hline)
  simpa [List.append_assoc] using hall

theorem reads_command : ∃ vs : List Word, vs.map literal = b.commandWords.map some ∧
    Reads (b.command.toList ++ [' ']) (vs.map .word) := by
  have hescaped : ∀ words : List String, words ≠ [] → ∃ vs : List Word, vs.map literal = words.map some ∧
      Reads ((Built.escaped words).toList ++ [' ']) (vs.map .word) := by
    intro words hne
    refine ⟨words.map marked,?_,?_⟩
    · rw [List.map_map]
      exact List.map_congr_left fun w _ => literal_marked w
    · rw [List.map_map]
      exact reads_escaped hne
  unfold Built.command Built.commandWords
  cases hunder : b.runUnder with
  | none =>
    refine hescaped _ ?_
    simp [Built.argv, hunder]
  | some under =>
    cases under with
    | command line =>
      refine hescaped _ ?_
      simp [Built.argv, hunder]
    | target label options =>
      have hshell : Reads "/bin/bash -c ".toList [wordOf "/bin/bash",wordOf "-c"] := reads_of (by decide)
      have hline : Reads ((shellEscape (b.line b.argv)).toList ++ [' ']) [.word (marked (b.line b.argv))] :=
        reads_word fun d => (fold_shellEscape _ d).2
      refine ⟨["/bin/bash".toList.map fun c => (c,.bare),"-c".toList.map fun c => (c,.bare),
        marked (b.line b.argv)],?_,?_⟩
      · rw [List.map_cons, List.map_cons, List.map_cons, literal_marked]
        rfl
      · rw [String.toList_append, List.append_assoc]
        exact hshell.append hline

def setUp : List Token := [wordOf "exec",wordOf "env"] ++ unset.flatMap fun name => [wordOf "-u",wordOf name]

/-- Everything after the `&&`. -/
def started (b : Built) (vs : List Word) : List Token :=
  setUp ++ b.env.map (fun e => Token.word (assigned e)) ++ vs.map .word ++ [.word allArguments]

theorem reads_cd : Reads "#!/bin/bash\ncd ".toList [newline,wordOf "cd"] := reads_of (by decide)

theorem reads_exec : Reads "&& \\\n  exec env \\\n".toList [.op ['&','&'],wordOf "exec",wordOf "env"] :=
  reads_of (by decide)

theorem all_ordinary {names : List String} (h : (names.all fun name => name.toList.all ordinary) = true) :
    ∀ name ∈ names, ∀ c ∈ name.toList, ordinary c = true :=
  fun name hname c hc => List.all_eq_true.mp (List.all_eq_true.mp h name hname) c hc

theorem reads_unsets : Reads (unset.flatMap fun name => ("    -u " ++ name ++ " \\\n").toList)
    (unset.flatMap fun name => [wordOf "-u",wordOf name]) := by
  have hnames : ∀ name ∈ unset, ∀ c ∈ name.toList, ordinary c = true := all_ordinary (by decide)
  have hnonempty : ∀ name ∈ unset, name ≠ "" := by decide
  exact reads_flatMap fun name hname => reads_unset (hnames name hname) (hnonempty name hname)

theorem env_names : b.env.map Prod.fst =
    ["BUILD_EXECROOT","BUILD_ID","BUILD_WORKING_DIRECTORY","BUILD_WORKSPACE_DIRECTORY"] := rfl

theorem env_ordinary : ∀ name ∈ b.env.map Prod.fst, ∀ c ∈ name.toList, ordinary c = true := by
  rw [env_names]
  exact all_ordinary (by decide)

theorem reads_env : Reads (b.env.flatMap fun e => ("    " ++ e.1 ++ "=" ++ shellEscape e.2 ++ " \\\n").toList)
    (b.env.map fun e => .word (assigned e)) := by
  rw [List.map_eq_flatMap]
  exact reads_flatMap fun e he => reads_assigned (env_ordinary b e.1 (List.mem_map_of_mem he))

theorem fold_arguments (d : List Token) : "\"$@\"".toList.foldl Reader.next (between d) = within d allArguments := by
  have hstart : "\"$@\"".toList.foldl Reader.next Reader.start = within [] allArguments := by decide
  rw [between, Reader.fold_after, hstart, Reader.after, within, within, List.append_nil]

theorem join_toList {α : Type} (items : List α) (f : α → String) :
    (String.join (items.map f)).toList = items.flatMap fun a => (f a).toList := by
  simp [String.toList_join, List.flatMap_def, Function.comp_def]

theorem script_concat (a b c d e f g h : String) {C D E L : List Char} (hc : c.toList = ' '::C) (hd : d.toList = D)
    (he : e.toList = E) (hh : h.toList = ' '::L) : (a ++ b ++ c ++ d ++ e ++ (f ++ g ++ h)).toList =
      a.toList ++ (b.toList ++ (' '::C ++ (D ++ (E ++ (f.toList ++ (g.toList ++ ' '::L)))))) := by
  simp [hc, hd, he, hh]

/-- The blanks after the escaped words belong to them. -/
theorem split_assembled {A E C U V F G L : List Char} {tsA tsE tsC tsU tsV tsG : List Token} {v : Word}
    (hA : Reads A tsA) (hE : Reads (E ++ [' ']) tsE) (hC : Reads C tsC) (hU : Reads U tsU) (hV : Reads V tsV)
    (hF : Reads F []) (hG : Reads (G ++ [' ']) tsG) (hL : ∀ d, L.foldl Reader.next (between d) = within d v) :
    split (A ++ (E ++ (' '::C ++ (U ++ (V ++ (F ++ (G ++ ' '::L))))))) =
      some (tsA ++ (tsE ++ (tsC ++ (tsU ++ (tsV ++ tsG)))) ++ [.word v]) := by
  have hregroup : A ++ (E ++ (' '::C ++ (U ++ (V ++ (F ++ (G ++ ' '::L)))))) =
      (A ++ ((E ++ [' ']) ++ (C ++ (U ++ (V ++ (F ++ (G ++ [' ']))))))) ++ L := by simp
  have hall := (hA.append (hE.append (hC.append (hU.append (hV.append (hF.append hG)))))) []
  have hbetween : Reader.start = between [] := rfl
  rw [split, Shell.read, hregroup, List.foldl_append, hbetween, hall, hL, finish_within]
  simp only [List.nil_append]

theorem split_script : ∃ vs : List Word, vs.map literal = b.commandWords.map some ∧
    split b.script.toList =
      some (newline::[wordOf "cd",.word (marked b.cwd)] ++ .op ['&','&']::started b vs) := by
  obtain ⟨vs,hvs,hcommand⟩ := reads_command b
  refine ⟨vs,hvs,?_⟩
  have hdir : Reads ((shellEscape b.cwd).toList ++ [' ']) [.word (marked b.cwd)] :=
    reads_word fun d => (fold_shellEscape _ d).2
  have hindent : Reads "  ".toList [] := reads_of (by decide)
  have hexecText : " && \\\n  exec env \\\n".toList = ' '::"&& \\\n  exec env \\\n".toList := by decide
  have hlastText : " \"$@\"".toList = ' '::"\"$@\"".toList := by decide
  have hread := split_assembled reads_cd hdir reads_exec reads_unsets (reads_env b) hindent hcommand fold_arguments
  unfold Built.script
  refine (congrArg split (script_concat _ _ _ _ _ _ _ _ hexecText (join_toList _ _) (join_toList _ _) hlastText)).trans
    (hread.trans (congrArg some ?_))
  rw [started, setUp]
  simp only [List.nil_append, List.cons_append, List.append_assoc]

theorem literal_assigned {e : String × String} (h : ∀ c ∈ e.1.toList, ordinary c = true) :
    literal (assigned e) = some (setting e) := by
  have hname : ∀ c ∈ (e.1 ++ "=").toList, ordinary c = true := by
    intro c hc
    rw [String.toList_append, List.mem_append] at hc
    rcases hc with hc | hc
    · exact h c hc
    · rw [List.mem_singleton.mp hc]
      decide
  have hvalue : (marked e.2).all inert = true := by
    by_contra hnot
    have hliteral := literal_marked e.2
    rw [literal, if_neg hnot] at hliteral
    cases hliteral
  have hall : (assigned e).all inert = true := by
    rw [assigned, List.all_append, inert_bare hname, hvalue]
    rfl
  rw [literal, if_pos hall, assigned, marked, List.map_append, List.map_map, List.map_map]
  simp [Function.comp_def, setting, String.append_assoc]

def Built.operands : List String :=
  unset.flatMap (fun name => ["-u",name]) ++ (b.env.map setting ++ b.commandWords)

theorem fields_started {vs : List Word} (hvs : vs.map literal = b.commandWords.map some) :
    fields [] (started b vs) = some ("exec"::"env"::b.operands) := by
  have hsetUp : fields [] setUp = some ("exec"::"env"::unset.flatMap fun name => ["-u",name]) := by decide
  have henv : fields [] (b.env.map fun e => Token.word (assigned e)) = some (b.env.map setting) := by
    have hwords : (b.env.map assigned).map literal = (b.env.map setting).map some := by
      rw [List.map_map, List.map_map]
      exact List.map_congr_left fun e he => literal_assigned (env_ordinary b e.1 (List.mem_map_of_mem he))
    have hfields : fields [] ((b.env.map assigned).map .word) = some (b.env.map setting) :=
      fields_words hwords
    rwa [List.map_map] at hfields
  have hlast : fields [] [Token.word allArguments] = some [] := by decide
  rw [started, fields_append, fields_append, fields_append, hsetUp, henv, fields_words hvs, hlast]
  simp [Built.operands]

/-- What the script asks of `env`. -/
def Built.call : EnvCall :=
  ⟨unset,b.env.map setting ++ b.commandWords.takeWhile hasValue,b.commandWords.dropWhile hasValue⟩

theorem envCall_operands : envCall b.operands = some b.call := by
  obtain ⟨rest,hrest⟩ : ∃ rest, b.env.map setting ++ b.commandWords = setting ("BUILD_EXECROOT",b.execroot)::rest :=
    ⟨_,rfl⟩
  have hfirst : (setting ("BUILD_EXECROOT",b.execroot)).toList.head? = some 'B' := by
    have hname : "BUILD_EXECROOT".toList = 'B'::"UILD_EXECROOT".toList := by decide
    rw [setting_toList, hname]
    rfl
  have hstop : unsetOptions (b.env.map setting ++ b.commandWords) = ([],b.env.map setting ++ b.commandWords) := by
    refine unsetOptions_stop ?_
    rw [hrest, List.head?_cons, ne_eq, Option.some.injEq]
    intro heq
    rw [heq] at hfirst
    revert hfirst
    decide
  have hvalues : ∀ w ∈ b.env.map setting, hasValue w = true := by
    intro w hw
    obtain ⟨e,-,rfl⟩ := List.mem_map.mp hw
    rw [hasValue, setting_toList]
    simp
  have hhead : ((b.env.map setting ++ b.commandWords).head?.bind fun operand => operand.toList.head?) = some 'B' := by
    rw [hrest]
    exact hfirst
  rw [envCall, Built.operands, unsetOptions_names, hstop]
  dsimp only
  rw [if_neg (by rw [hhead]; decide), List.takeWhile_append_of_pos hvalues, List.dropWhile_append_of_pos hvalues,
    List.append_nil]
  rfl

theorem execEnv_script : execEnv b.script = some (cdReading b.cwd,b.call) := by
  obtain ⟨vs,hvs,hsplit⟩ := split_script b
  have hcd : fields [] [wordOf "cd",.word (marked b.cwd)] = some ["cd",b.cwd] := by
    have hfields : fields [] ([wordOf "cd"] ++ [.word (marked b.cwd)]) = _ := fields_append _ _
    have hword : fields [] [wordOf "cd"] = some ["cd"] := by decide
    rw [List.singleton_append, hword] at hfields
    rw [hfields, fields, fieldsOf_word (literal_marked b.cwd)]
    rfl
  have hstarted := fields_started b hvs
  have hcommands : commands (newline::[wordOf "cd",.word (marked b.cwd)] ++ .op ['&','&']::started b vs) =
      [[wordOf "cd",.word (marked b.cwd)],started b vs] := by
    have hdrop : (newline::[wordOf "cd",.word (marked b.cwd)] ++ .op ['&','&']::started b vs).dropWhile
        (fun t => decide (t = newline)) = [wordOf "cd",.word (marked b.cwd)] ++ .op ['&','&']::started b vs := rfl
    rw [commands, hdrop, andList_two hcd, andList_single hstarted]
  rw [execEnv, hsplit, Option.map_some, hcommands]
  dsimp only
  rw [hcd, hstarted]
  simp only [envCall_operands, Option.map_some]

end Script

section Same

variable (b : Built)

/-- The variables in a shell that has changed to a directory, apart from those that it keeps for
itself. -/
def InShell (own : String → Prop) (inherited shell : String → Option String) (dir : String) : Prop :=
  ∀ name, ¬ own name → shell name = if name = "PWD" then some dir else inherited name

def Built.isTarget : Bool :=
  match b.runUnder with
  | some (.target _ _) => true
  | _ => false

/-- The words are run, or given to a shell as a line. -/
def Executes (argv : List String) : Prop :=
  argv = b.executed ∨
    b.isTarget = true ∧ ∃ line, argv = ["/bin/bash","-c",line] ∧ commandLine line = some b.executed

/-- A run of the script goes where `run` goes and runs what it runs with the same variables. -/
def SameRun : Prop := ∃ dir call, execEnv b.script = some (.directory dir,call) ∧ dir = b.cwd ∧
  Executes b call.argv ∧ ∀ own inherited shell, InShell own inherited shell dir →
    ∀ name, ¬ own name → call.value shell name = b.value inherited name

/-- `cd` takes the directory as it is, and the first word is the name of a command for `env` and for
the shell. -/
structure Fits : Prop where
  dir : cdReading b.cwd = .directory b.cwd
  program : b.runUnder = none → hasValue b.program = false
  under : b.isTarget = true → isCommandName (marked b.underProgram) = true

variable {b}

theorem call_value {base : String → Option String} (hset : b.call.set = b.env.map setting) (name : String) :
    b.call.value base name = match b.env.find? (fun e => e.1 = name) with
      | some e => some e.2
      | none => if name ∈ unset then none else base name := by
  refine EnvCall.value_settings hset ?_ ?_ base name
  · have hnames : ∀ name ∈ b.env.map Prod.fst, '=' ∉ name.toList := by
      rw [env_names]
      decide
    exact fun e he => hnames e.1 (List.mem_map_of_mem he)
  · rw [env_names]
    decide

theorem commandLine_escaped (first : String) (words : List String) : commandLine (Built.escaped (first::words)) =
    if isCommandName (marked first) then some (first::words) else none := by
  rw [commandLine, split_escaped]
  exact congrArg (if isCommandName (marked first) then · else none) (fields_escaped [] (first::words))

theorem values_fit (hfits : Fits b) : b.commandWords.takeWhile hasValue = [] := by
  have hshell : hasValue "/bin/bash" = false := by decide
  unfold Built.commandWords
  cases hunder : b.runUnder with
  | none =>
    have hargv : b.argv = [b.program] := by rw [Built.argv, hunder]
    dsimp only
    rw [hargv, List.singleton_append, List.takeWhile_cons, hfits.program hunder]
    rfl
  | some under =>
    cases under with
    | command line =>
      have hargv : b.argv = ["/bin/bash","-c",line ++ " " ++ Built.escaped (b.program::b.programArgs)] := by
        rw [Built.argv, hunder]
      dsimp only
      rw [hargv, List.takeWhile_cons, hshell]
      rfl
    | target label options =>
      dsimp only
      rw [List.takeWhile_cons, hshell]
      rfl

theorem target_line (htarget : b.isTarget = true) :
    b.call.argv = ["/bin/bash","-c",b.line b.argv] ∧ (∃ words, b.executed = b.underProgram::words) ∧
      commandLine (b.line b.argv) = if isCommandName (marked b.underProgram) then some b.executed else none := by
  have hshell : hasValue "/bin/bash" = false := by decide
  obtain ⟨label,options,hunder⟩ : ∃ label options, b.runUnder = some (.target label options) := by
    unfold Built.isTarget at htarget
    split at htarget
    · next label options hunder => exact ⟨label,options,hunder⟩
    · cases htarget
  have hargv : b.argv = b.underProgram::options ++ [b.program] := by rw [Built.argv, hunder]
  have hexecuted : b.executed = b.underProgram::(options ++ [b.program] ++ b.programArgs) := by
    rw [Built.executed, Built.isCommand, hunder, hargv]
    rfl
  have hline : b.line b.argv = Built.escaped b.executed := by
    rw [hexecuted, Built.line, hargv]
    rfl
  refine ⟨?_,⟨_,hexecuted⟩,?_⟩
  · rw [Built.call, Built.commandWords, hunder]
    dsimp only
    rw [List.dropWhile_cons, hshell]
    rfl
  · rw [hline, hexecuted, commandLine_escaped]

theorem other_argv (hfits : Fits b) (htarget : b.isTarget = false) : b.call.argv = b.executed := by
  have hall : b.commandWords.dropWhile hasValue = b.commandWords := by
    have hsplit := List.takeWhile_append_dropWhile (p := hasValue) (l := b.commandWords)
    rwa [values_fit hfits, List.nil_append] at hsplit
  rw [Built.call, hall]
  cases hunder : b.runUnder with
  | none => rw [Built.commandWords, Built.executed, Built.isCommand, hunder]; rfl
  | some under =>
    cases under with
    | command line => rw [Built.commandWords, Built.executed, Built.isCommand, hunder]; rfl
    | target label options =>
      rw [Built.isTarget, hunder] at htarget
      cases htarget

/-- The script does what `run` does, if its words are what they stand for. -/
theorem script_runs_iff (b : Built) : SameRun b ↔ Fits b := by
  constructor
  · rintro ⟨dir,call,hexec,hdir,hargv,-⟩
    rw [execEnv_script, Option.some.injEq, Prod.mk.injEq] at hexec
    obtain ⟨hcd,rfl⟩ := hexec
    refine ⟨hdir ▸ hcd,fun hunder => ?_,fun htarget => ?_⟩
    · have hexecuted : b.executed = b.program::b.programArgs := by
        rw [Built.executed, Built.isCommand, Built.argv, hunder]
        rfl
      have hwords : b.commandWords = b.program::b.programArgs := by
        rw [Built.commandWords, Built.argv, hunder]
        rfl
      have hnot : b.isTarget = false := by rw [Built.isTarget, hunder]
      rcases hargv with heq | ⟨htarget,-⟩
      · by_contra hvalue
        rw [Bool.not_eq_false] at hvalue
        rw [Built.call, hwords, hexecuted] at heq
        dsimp only at heq
        rw [List.dropWhile_cons, if_pos hvalue] at heq
        have hshort := (List.dropWhile_suffix hasValue (l := b.programArgs)).length_le
        rw [heq, List.length_cons] at hshort
        omega
      · rw [hnot] at htarget
        cases htarget
    · obtain ⟨hcall,⟨words,hexecuted⟩,hline⟩ := target_line htarget
      rcases hargv with heq | ⟨-,line,heq,hcommand⟩
      · rw [hcall, hexecuted] at heq
        rw [← (List.cons.inj heq).1]
        decide
      · rw [hcall] at heq
        have hsame : b.line b.argv = line := by simpa using heq
        rw [← hsame, hline] at hcommand
        by_contra hnot
        rw [if_neg hnot] at hcommand
        cases hcommand
  · intro hfits
    have hvalues := values_fit hfits
    have hset : b.call.set = b.env.map setting := by rw [Built.call, hvalues, List.append_nil]
    refine ⟨b.cwd,b.call,by rw [execEnv_script, hfits.dir],rfl,?_,?_⟩
    · cases htarget : b.isTarget with
      | false => exact .inl (other_argv hfits htarget)
      | true =>
        obtain ⟨hcall,-,hline⟩ := target_line htarget
        refine .inr ⟨htarget,_,hcall,?_⟩
        rw [hline, if_pos (hfits.under htarget)]
    · intro own inherited shell hshell name hname
      rw [call_value hset, Built.value]
      cases b.env.find? fun e => decide (e.1 = name) with
      | some e => rfl
      | none => exact if_congr Iff.rfl rfl (hshell name hname)

/-- A program in a directory whose name holds a `=`. -/
def inAssigned : Built where
  program := "/a=b/prog"
  cwd := "/ws"
  programArgs := ["x"]
  runUnder := none
  underProgram := ""
  execroot := "/ob/execroot/_main"
  buildId := "0"
  workingDirectory := "/ws"
  workspace := "/ws"

/-- `env` takes the program for a variable and runs its argument. -/
theorem assigned_not_run : inAssigned.executed = ["/a=b/prog","x"] ∧
    (∃ call, execEnv inAssigned.script = some (.directory "/ws",call) ∧ call.argv = ["x"]) ∧ ¬ SameRun inAssigned := by
  have hcd : cdReading inAssigned.cwd = .directory "/ws" := by decide
  have hargv : inAssigned.call.argv = ["x"] := by decide
  refine ⟨by decide,⟨inAssigned.call,by rw [execEnv_script, hcd],hargv⟩,?_⟩
  rintro ⟨dir,call,hexec,-,hrun,-⟩
  rw [execEnv_script, Option.some.injEq, Prod.mk.injEq] at hexec
  obtain ⟨-,rfl⟩ := hexec
  rcases hrun with heq | ⟨htarget,-⟩
  · rw [hargv] at heq
    exact absurd heq (by decide)
  · exact absurd htarget (by decide)

end Same

end BuildFiji.RunCommand
