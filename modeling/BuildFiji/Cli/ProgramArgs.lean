import BuildFiji.Cli.LeftOptions
import BuildFiji.Cli.RunScript
import BuildFiji.Rc.Resolve

/-!
# The words for the program

What follows the target of `run` is for the program. The words after the marker are read as
patterns all the same, and a line for a shell begins with the command as it was written.
-/

set_option autoImplicit false
set_option linter.all false

namespace BuildFiji.RunCommand

open BuildFiji.Flags BuildFiji.Fallible
open BuildFiji.Graph (TargetPattern PatternContext)
open BuildFiji.Substitution (Run)
open BuildFiji.RunFlags (RunUnder)
open BuildFiji.Shell

section Words

/-- The arguments before the first marker and those after it, without a second marker that
stands next to it. -/
def splitEndOfOptions (args : List String) : List String × List String :=
  (args.takeWhile (· ≠ "--"),
    match (args.dropWhile (· ≠ "--")).drop 1 with
    | [] => []
    | first::after => if first = "--" then after else first::after)

/-- The options that the rc files give, before the words of the command line. -/
def rcAndArgs (lines : List Rc.ResolvedLine) (fuel : ℕ) (os command : String) (args : List String) :
    Run Rc.ResolveError String :=
  Run.append (Rc.resolveCommand lines command fuel os) (Rc.expandCommandLine lines command fuel args)

inductive Refusal where
  | rc (e : Rc.ResolveError)
  | stop (e : Stop)

/-- What `build_main` makes of the words after `run`: the request, and what is for the program.
There is none if a config takes too long to expand. -/
def runMain (t : FlagTable) (lines : List Rc.ResolvedLine) (fuel : ℕ) (os : String) (offset : Except Stop String)
    (args : List String) : Option (Except Refusal (BuildRequest × List String)) :=
  (rcAndArgs lines fuel os "run" args).map fun
    | .error e => .error (.rc e)
    | .ok words =>
      let (before,after) := splitEndOfOptions words
      match buildMain t "run" offset (before.map String.toList) (after.map String.toList) with
      | .error e => .error (.stop e)
      | .ok req => .ok (req,(req.rest.map String.ofList ++ after).drop 1)

/-- The words as the parser passes them on. -/
def passedOn (before ws : List String) : List String := before ++ "--"::"--"::ws

def parses (offset : Except Stop String) (w : String) : Prop :=
  ∃ o, offset = .ok o ∧ (TargetPattern.parse ⟨"",o⟩ id w).isOk = true

end Words

section Reading

variable {t : FlagTable} {command : String} {offset : Except Stop String}

/-- The words after the marker are parsed last. -/
theorem buildMain_after (before after : List Flags.Word) : buildMain t command offset before after = (do
    let req ← buildMain t command offset before []
    let offset ← offset
    let patterns ← after.mapM fun p => (TargetPattern.parse ⟨"",offset⟩ id (.ofList p)).mapError .pattern
    return { req with patterns := req.patterns ++ patterns }) := by
  unfold buildMain
  simp only [bind_assoc, pure_bind]
  iterate 15 refine bind_congr fun _ => ?_
  cases offset with
  | error e => rfl
  | ok o =>
    change ((List.mapM _ _ : Except Stop _) >>= _) = ((List.mapM _ _ : Except Stop _) >>= _)
    rw [List.mapM_append, List.append_nil, bind_assoc]
    refine bind_congr fun patterns => ?_
    rw [bind_assoc]
    rfl

theorem mapM_parses {o : String} {ws : List String} (hoffset : offset = .ok o) :
    (∃ ps, (ws.map String.toList).mapM (fun p =>
      (TargetPattern.parse ⟨"",o⟩ id (.ofList p)).mapError Stop.pattern) = .ok ps) ↔ ∀ w ∈ ws, parses offset w := by
  subst hoffset
  induction ws with
  | nil => exact iff_of_true ⟨[],rfl⟩ fun w hw => absurd hw List.not_mem_nil
  | cons w ws ih =>
    rw [List.forall_mem_cons, ← ih, List.map_cons, List.mapM_cons]
    simp only [bind_ok, pure_ok, mapError_ok, String.ofList_toList, parses]
    constructor
    · rintro ⟨ps,p,hp,rest,hrest,-⟩
      exact ⟨⟨o,rfl,by rw [hp]; rfl⟩,rest,hrest⟩
    · rintro ⟨⟨o',ho,hp⟩,rest,hrest⟩
      cases ho
      cases hparse : TargetPattern.parse ⟨"",o⟩ id w with
      | error e =>
        rw [hparse] at hp
        cases hp
      | ok p => exact ⟨_,p,rfl,rest,hrest,rfl⟩

/-- What is accepted with words after the marker is accepted without them, and they are patterns. -/
theorem buildMain_ok {before : List Flags.Word} {ws : List String} {req : BuildRequest}
    (h : buildMain t command offset before (ws.map String.toList) = .ok req) :
    (∃ req', buildMain t command offset before [] = .ok req' ∧ req.rest = req'.rest) ∧ ∀ w ∈ ws, parses offset w := by
  rw [buildMain_after] at h
  simp only [bind_ok, pure_ok] at h
  obtain ⟨req',hmain,o,ho,ps,hps,rfl⟩ := h
  exact ⟨⟨req',hmain,rfl⟩,(mapM_parses ho).mp ⟨ps,hps⟩⟩

theorem buildMain_accepts {before : List Flags.Word} {ws : List String} {req' : BuildRequest}
    (hmain : buildMain t command offset before [] = .ok req') (hparses : ∀ w ∈ ws, parses offset w) :
    ∃ req, buildMain t command offset before (ws.map String.toList) = .ok req := by
  have hself := hmain
  rw [buildMain_after, bind_ok] at hself
  obtain ⟨_,-,hself⟩ := hself
  obtain ⟨o,ho,-⟩ := bind_ok.mp hself
  obtain ⟨ps,hps⟩ := (mapM_parses ho).mpr hparses
  rw [buildMain_after, hmain, ho]
  simp only [bind_ok, pure_ok]
  exact ⟨_,req',rfl,o,rfl,ps,hps,rfl⟩

end Reading

section Passed

variable {t : FlagTable} {lines : List Rc.ResolvedLine} {fuel : ℕ} {os : String} {offset : Except Stop String}
variable {before ws : List String}

/-- The words before the marker, with what the rc files and the configs give. -/
def optionsRead (lines : List Rc.ResolvedLine) (fuel : ℕ) (os : String) (before : List String) :
    Run Rc.ResolveError String :=
  Run.append (Rc.resolveCommand lines "run" fuel os)
    (Rc.appendExpanding (Rc.expandConfig lines "run" fuel [] · true) before)

theorem cut_marker (h : "--" ∉ before) (rest : List String) :
    (before ++ "--"::rest).takeWhile (· ≠ "--") = before ∧
      (before ++ "--"::rest).dropWhile (· ≠ "--") = "--"::rest := by
  have hall : ∀ w ∈ before, decide (w ≠ "--") = true := by
    intro w hw
    refine decide_eq_true ?_
    rintro rfl
    exact h hw
  rw [List.takeWhile_append_of_pos hall, List.dropWhile_append_of_pos hall]
  simp

theorem splitEndOfOptions_passedOn (h : "--" ∉ before) : splitEndOfOptions (passedOn before ws) = (before,ws) := by
  obtain ⟨htake,hdrop⟩ := cut_marker h ("--"::ws)
  rw [splitEndOfOptions, passedOn, htake, hdrop]
  rfl

theorem rcAndArgs_passedOn (h : "--" ∉ before) : rcAndArgs lines fuel os "run" (passedOn before ws) =
    Run.append (optionsRead lines fuel os before) (some (.ok ("--"::"--"::ws))) := by
  obtain ⟨htake,hdrop⟩ := cut_marker h ("--"::ws)
  rw [rcAndArgs, optionsRead, Rc.expandCommandLine, Rc.beforeMarker, Rc.fromMarker, passedOn, htake, hdrop,
    Run.append_assoc]

variable (t lines fuel os offset before)

/-- The marker is the first, also after the rc files and the configs, and before it stand options
and one target. -/
structure OneTarget : Prop where
  unmarked : "--" ∉ before
  read : ∀ words, optionsRead lines fuel os before = some (.ok words) → "--" ∉ words
  target : ∀ words req, optionsRead lines fuel os before = some (.ok words) →
    buildMain t "run" offset (words.map String.toList) [] = .ok req → req.rest.length = 1

/-- `build_main` goes on to build. -/
def Accepted (ws : List String) : Prop :=
  ∃ req args, runMain t lines fuel os offset (passedOn before ws) = some (.ok (req,args))

variable {t lines fuel os offset before}

theorem runMain_ok (hone : OneTarget t lines fuel os offset before) {req : BuildRequest} {args : List String} :
    runMain t lines fuel os offset (passedOn before ws) = some (.ok (req,args)) ↔
      ∃ words, optionsRead lines fuel os before = some (.ok words) ∧
        buildMain t "run" offset (words.map String.toList) (ws.map String.toList) = .ok req ∧
        args = (req.rest.map String.ofList ++ ws).drop 1 := by
  rw [runMain, rcAndArgs_passedOn hone.unmarked]
  cases hread : optionsRead lines fuel os before with
  | none => simp
  | some r =>
    cases r with
    | error e => simp
    | ok words =>
      have hsplit : splitEndOfOptions (passedOn words ws) = (words,ws) :=
        splitEndOfOptions_passedOn (hone.read words hread)
      have hwords : words ++ "--"::"--"::ws = passedOn words ws := rfl
      rw [Run.ok_append_ok, Option.map_some, hwords]
      dsimp only
      rw [hsplit]
      dsimp only
      constructor
      · intro h
        cases hmain : buildMain t "run" offset (words.map String.toList) (ws.map String.toList) with
        | error e =>
          rw [hmain] at h
          cases Option.some.inj h
        | ok req' =>
          rw [hmain] at h
          obtain ⟨rfl,rfl⟩ := Prod.mk.inj (Except.ok.inj (Option.some.inj h))
          exact ⟨words,rfl,hmain,rfl⟩
      · rintro ⟨words',hsame,hmain,rfl⟩
        obtain rfl := Except.ok.inj (Option.some.inj hsame)
        rw [hmain]

theorem accepted_iff (hone : OneTarget t lines fuel os offset before) :
    Accepted t lines fuel os offset before ws ↔
      Accepted t lines fuel os offset before [] ∧ ∀ w ∈ ws, parses offset w := by
  simp only [Accepted, runMain_ok hone]
  constructor
  · rintro ⟨req,_,words,hwords,hmain,-⟩
    obtain ⟨⟨req',hmain',-⟩,hparses⟩ := buildMain_ok hmain
    exact ⟨⟨req',_,words,hwords,hmain',rfl⟩,hparses⟩
  · rintro ⟨⟨req',_,words,hwords,hmain',-⟩,hparses⟩
    obtain ⟨req,hmain⟩ := buildMain_accepts hmain' hparses
    exact ⟨req,_,words,hwords,hmain,rfl⟩

/-- What is given to the program is what stands after the marker. -/
theorem args_eq (hone : OneTarget t lines fuel os offset before) {req : BuildRequest} {args : List String}
    (h : runMain t lines fuel os offset (passedOn before ws) = some (.ok (req,args))) : args = ws := by
  obtain ⟨words,hwords,hmain,rfl⟩ := (runMain_ok hone).mp h
  obtain ⟨⟨req',hmain',hrest⟩,-⟩ := buildMain_ok hmain
  have hlength := hone.target words req' hwords hmain'
  rw [← hrest] at hlength
  obtain ⟨target,htarget⟩ := List.length_eq_one_iff.mp hlength
  rw [htarget]
  rfl

end Passed

section Given

/-- The line splits into the words of the command and then the program and its words. -/
def LineSplits (command line program : String) (ws : List String) : Prop :=
  ∃ ts ws', split command.toList = some ts ∧ split line.toList = some (ts ++ ws') ∧
    fields [] ws' = some (program::ws)

/-- The program has the words at the end of its own, or the shell on its line. -/
def GivesWords (b : Built) (ws : List String) : Prop :=
  match b.runUnder with
  | some (.command command) => ∃ line, b.argv = ["/bin/bash","-c",line] ∧ LineSplits command line b.program ws
  | _ => ws <:+ b.executed

theorem lineSplits_iff {command program : String} {ws : List String} :
    LineSplits command (command ++ " " ++ Built.escaped (program::ws)) program ws ↔
      (Shell.read command.toList).Ready := by
  have htext : (command ++ " " ++ Built.escaped (program::ws)).toList =
      command.toList ++ ' '::(Built.escaped (program::ws)).toList := by
    rw [String.toList_append, String.toList_append, List.append_assoc]
    rfl
  constructor
  · rintro ⟨ts,ws',hcommand,hline,hfields⟩
    by_contra hnot
    rw [split, Reader.finish] at hcommand
    split at hcommand
    · next hends =>
      obtain ⟨hmode,hopened⟩ := hends.resolve_left hnot
      obtain rfl := Option.some.inj hcommand
      rw [split, htext, read_append] at hline
      rcases comment_finish hmode _ hline with heq | ⟨rest,heq⟩
      · have hnil : ws' = [] := by simpa using heq
        rw [hnil] at hfields
        cases hfields
      · obtain rfl := List.append_cancel_left heq
        cases hfields
    · cases hcommand
  · intro hready
    refine ⟨_,_,split_ready hready,?_,fields_escaped [] (program::ws)⟩
    rw [htext, split_blank hready, split_escaped]
    rfl

theorem givesWords_iff {b : Built} : GivesWords b b.programArgs ↔
    ∀ command, b.runUnder = some (.command command) → (Shell.read command.toList).Ready := by
  cases hunder : b.runUnder with
  | none =>
    rw [GivesWords, hunder]
    refine iff_of_true ?_ fun _ h => by cases h
    rw [Built.executed, Built.isCommand, hunder]
    exact List.suffix_append _ _
  | some under =>
    cases under with
    | target label options =>
      rw [GivesWords, hunder]
      refine iff_of_true ?_ fun _ h => by cases h
      rw [Built.executed, Built.isCommand, hunder]
      exact List.suffix_append _ _
    | command command =>
      have hargv : b.argv = ["/bin/bash","-c",command ++ " " ++ Built.escaped (b.program::b.programArgs)] := by
        rw [Built.argv, hunder]
      rw [GivesWords, hunder]
      dsimp only
      constructor
      · rintro ⟨line,hline,hsplits⟩ command' heq
        cases heq
        rw [hargv] at hline
        have hsame : command ++ " " ++ Built.escaped (b.program::b.programArgs) = line := by simpa using hline
        rw [← hsame] at hsplits
        exact lineSplits_iff.mp hsplits
      · intro hready
        exact ⟨_,hargv,lineSplits_iff.mpr (hready command rfl)⟩

end Given

section Kept

variable {t : FlagTable} {lines : List Rc.ResolvedLine} {fuel : ℕ} {os : String} {offset : Except Stop String}
variable {before : List String}

/-- Whether the command line is refused does not depend on the words for the program, and they
come to it as they are. -/
theorem program_words_iff (hone : OneTarget t lines fuel os offset before) (ws : List String) (b : Built) :
    ((Accepted t lines fuel os offset before ws ↔ Accepted t lines fuel os offset before []) ∧
      ∀ req args, runMain t lines fuel os offset (passedOn before ws) = some (.ok (req,args)) →
        GivesWords { b with programArgs := args } ws) ↔
      (Accepted t lines fuel os offset before [] → (∀ w ∈ ws, parses offset w) ∧
        ∀ command, b.runUnder = some (.command command) → (Shell.read command.toList).Ready) := by
  rw [accepted_iff hone]
  constructor
  · rintro ⟨haccepts,hgives⟩ hempty
    obtain ⟨-,hparses⟩ := haccepts.mpr hempty
    obtain ⟨req,args,hmain⟩ := (accepted_iff hone).mpr ⟨hempty,hparses⟩
    have hgiven := hgives req args hmain
    obtain rfl := args_eq hone hmain
    exact ⟨hparses,(givesWords_iff (b := { b with programArgs := args })).mp hgiven⟩
  · intro hholds
    refine ⟨⟨And.left,fun hempty => ⟨hempty,(hholds hempty).1⟩⟩,fun req args hmain => ?_⟩
    obtain ⟨hempty,-⟩ := (accepted_iff hone).mp ⟨req,args,hmain⟩
    obtain rfl := args_eq hone hmain
    exact (givesWords_iff (b := { b with programArgs := args })).mpr (hholds hempty).2

theorem oneTarget_demo : OneTarget colorTable.toFlagTable [] 0 "linux" (.ok "") ["//a"] := by
  have hread : optionsRead [] 0 "linux" ["//a"] = some (.ok ["//a"]) := by decide
  have hlength : (buildMain colorTable.toFlagTable "run" (.ok "") ["//a".toList] []).toOption.map
      (·.rest.length) = some 1 := by decide +kernel
  refine ⟨by decide,fun words hwords => ?_,fun words req hwords hmain => ?_⟩
  · rw [hread] at hwords
    obtain rfl := Except.ok.inj (Option.some.inj hwords)
    decide
  · rw [hread] at hwords
    obtain rfl := Except.ok.inj (Option.some.inj hwords)
    have hmain' : buildMain colorTable.toFlagTable "run" (.ok "") ["//a".toList] [] = .ok req := hmain
    rw [hmain'] at hlength
    exact Option.some.inj hlength

def timed : Built := { inAssigned with runUnder := some (.command "time") }

theorem program_words_iff_timed :
    ((Accepted colorTable.toFlagTable [] 0 "linux" (.ok "") ["//a"] ["-v"] ↔
        Accepted colorTable.toFlagTable [] 0 "linux" (.ok "") ["//a"] []) ∧
      ∀ req args, runMain colorTable.toFlagTable [] 0 "linux" (.ok "") (passedOn ["//a"] ["-v"]) = some (.ok (req,args)) →
        GivesWords { timed with programArgs := args } ["-v"]) ↔
      (Accepted colorTable.toFlagTable [] 0 "linux" (.ok "") ["//a"] [] → (∀ w ∈ ["-v"], parses (.ok "") w) ∧
        ∀ command, timed.runUnder = some (.command command) → (Shell.read command.toList).Ready) :=
  program_words_iff oneTarget_demo ["-v"] timed

/-- An empty word for the program is no pattern, so nothing is run. -/
theorem empty_word_refused : Accepted colorTable.toFlagTable [] 0 "linux" (.ok "") ["//a"] [] ∧
    ¬ Accepted colorTable.toFlagTable [] 0 "linux" (.ok "") ["//a"] [""] := by
  have hok : (buildMain colorTable.toFlagTable "run" (.ok "") ["//a".toList] []).toOption.isSome = true := by
    decide +kernel
  obtain ⟨req,hreq⟩ := Option.isSome_iff_exists.mp hok
  have hempty : Accepted colorTable.toFlagTable [] 0 "linux" (.ok "") ["//a"] [] :=
    ⟨req,_,(runMain_ok oneTarget_demo).mpr ⟨["//a"],by decide,toOption_eq_some.mp hreq,rfl⟩⟩
  refine ⟨hempty,fun haccepts => ?_⟩
  obtain ⟨o,ho,hparse⟩ := ((accepted_iff oneTarget_demo).mp haccepts).2 "" (List.mem_singleton_self _)
  obtain rfl := Except.ok.inj ho
  exact absurd hparse (by decide)

end Kept

end BuildFiji.RunCommand
