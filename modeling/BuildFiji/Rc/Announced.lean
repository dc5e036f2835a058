import BuildFiji.Rc.ResolveExpands

/-!
# What is announced

The stretches of a config are its lines again, so that an announcement meets the names
an expansion meets. It ends where the expansion does, and finds every definition of
every config that is met.
-/

set_option autoImplicit false
set_option linter.all false

namespace BuildFiji.Rc

open Relation Substitution

/-- A `--config` at the end of a line takes no word of the lines after it. -/
def Apart (ls : List ResolvedLine) : Prop :=
  ∀ p l q, ls = p ++ l::q → q.flatMap ResolvedLine.flags ≠ [] → .plain "--config" ∉ pieces l.flags

section Words

variable {a b : List String} {n : String}

attribute [local simp] configNames in
theorem mem_configNames (flags : List String) : n ∈ configNames flags ↔ .name n ∈ pieces flags := by
  fun_induction pieces flags with
  | case1 => simp
  | case2 flag name rest hname ih => simp [hname,ih]
  | case3 flag hname => simp [hname]
  | case4 name rest hname ih => simp [hname,ih]
  | case5 flag name rest hname hne ih => simp [hname,hne,ih]

theorem pieces_append (h : .plain "--config" ∉ pieces a) : pieces (a ++ b) = pieces a ++ pieces b := by
  fun_induction pieces a with
  | case1 => rfl
  | case2 flag name rest hname ih =>
    have ih := ih fun hin => h (List.mem_cons_of_mem _ hin)
    simp [pieces,hname,ih]
  | case3 flag hname =>
    have hne : flag ≠ "--config" := fun heq => h (by simp [heq])
    cases b <;> simp [pieces,hname,hne]
  | case4 name rest hname ih =>
    have ih := ih fun hin => h (List.mem_cons_of_mem _ hin)
    simp [pieces,hname,ih]
  | case5 flag name rest hname hne ih =>
    have hflag (ws : List String) : pieces (flag::name::ws) = .plain flag::pieces (name::ws) := by
      rw [pieces.eq_def (flag::name::ws)]
      simp [hname,hne]
    have ih := ih fun hin => h (List.mem_cons_of_mem _ hin)
    rw [List.cons_append,List.cons_append,hflag,List.cons_append,← ih,List.cons_append]

theorem Apart.tail {l : ResolvedLine} {ls : List ResolvedLine} (h : Apart (l::ls)) : Apart ls :=
  fun p k q heq => h (l::p) k q (by rw [heq,List.cons_append])

/-- Read together, such lines are what they are one by one. -/
theorem Apart.pieces_eq {ls : List ResolvedLine} (h : Apart ls) :
    pieces (ls.flatMap ResolvedLine.flags) = linePieces ls := by
  induction ls with
  | nil => rfl
  | cons l ls ih =>
    rw [linePieces,List.flatMap_cons,List.flatMap_cons]
    change _ = _ ++ linePieces ls
    rw [← ih h.tail]
    by_cases hrest : ls.flatMap ResolvedLine.flags = []
    · simp [hrest,pieces]
    · exact pieces_append (h [] l ls rfl hrest)

end Words

section Stretches

variable {lines : List ResolvedLine} {command : String} {config : Option String}

theorem stretchesFrom_length (source : String) (current : ℕ) (ls : List ResolvedLine) :
    (stretchesFrom source current ls).length = ls.length := by
  induction ls generalizing source current with
  | nil => rfl
  | cons l ls ih => simp [stretchesFrom,ih]

theorem stretches_length (ls : List ResolvedLine) : (stretches ls).length = ls.length := by
  cases ls with
  | nil => rfl
  | cons l ls => simp [stretches,stretchesFrom_length]

theorem mem_distinct {s : ℕ} {l : List ℕ} : s ∈ distinct l ↔ s ∈ l := by
  have hfold (seen : List ℕ) :
      s ∈ l.foldl (fun seen s => if s ∈ seen then seen else seen ++ [s]) seen ↔ s ∈ seen ∨ s ∈ l := by
    induction l generalizing seen with
    | nil => simp
    | cons t l ih =>
      rw [List.foldl_cons,ih,List.mem_cons]
      by_cases ht : t ∈ seen
      · rw [if_pos ht]
        constructor
        · exact fun h => h.imp_right .inr
        · rintro (h | rfl | h)
          · exact .inl h
          · exact .inl ht
          · exact .inr h
      · rw [if_neg ht,List.mem_append,List.mem_singleton,or_assoc]
  rw [distinct,hfold]
  simp

theorem mem_inStretch {applicable : String} {stretch : ℕ} {l : ResolvedLine} :
    l ∈ inStretch lines config applicable stretch ↔
      (l,stretch) ∈ lines.zip (stretches lines) ∧ l.config = config ∧ l.command = applicable := by
  simp only [inStretch,List.mem_map,List.mem_filter,decide_eq_true_eq,Prod.exists]
  constructor
  · rintro ⟨k,s,⟨hzip,rfl,hc,ha⟩,rfl⟩
    exact ⟨hzip,hc,ha⟩
  · rintro ⟨hzip,hc,ha⟩
    exact ⟨l,stretch,⟨hzip,rfl,hc,ha⟩,rfl⟩

theorem mem_places {place : String × ℕ} :
    place ∈ places lines command ↔
      place.1 ∈ commandChain command ∧ place.2 ∈ stretches lines := by
  simp only [places,List.mem_flatMap,List.mem_map,mem_distinct]
  constructor
  · rintro ⟨applicable,hchain,stretch,hs,rfl⟩
    exact ⟨hchain,hs⟩
  · rintro ⟨hchain,hs⟩
    exact ⟨place.1,hchain,place.2,hs,rfl⟩

/-- The stretches of a config have its lines and no others. -/
theorem configLines_places {l : ResolvedLine} :
    l ∈ configLines lines command config ↔
      ∃ place ∈ places lines command, l ∈ inStretch lines config place.1 place.2 := by
  rw [mem_configLines]
  constructor
  · rintro ⟨hl,hc,hchain⟩
    obtain ⟨i,hi,hat⟩ := List.mem_iff_getElem.mp hl
    have hi' : i < (stretches lines).length := by rwa [stretches_length]
    have hzip : (l,(stretches lines)[i]) ∈ lines.zip (stretches lines) := by
      refine List.mem_iff_getElem.mpr ⟨i,by rw [List.length_zip]; exact lt_min hi hi',?_⟩
      simp [hat]
    exact ⟨(l.command,(stretches lines)[i]),mem_places.mpr ⟨hchain,List.getElem_mem hi'⟩,
      mem_inStretch.mpr ⟨hzip,hc,rfl⟩⟩
  · rintro ⟨place,hplace,hl⟩
    obtain ⟨hzip,hc,ha⟩ := mem_inStretch.mp hl
    exact ⟨(List.of_mem_zip hzip).1,hc,ha ▸ (mem_places.mp hplace).1⟩

/-- No line of the sections of the command takes a word of a later one. -/
def LinesApart (lines : List ResolvedLine) (command : String) : Prop :=
  ∀ config, ∀ place ∈ places lines command, Apart (inStretch lines config place.1 place.2)

/-- The names of the stretches are those of the lines. -/
theorem mem_linePieces (happart : LinesApart lines command) {n : String} :
    .name n ∈ linePieces (configLines lines command config) ↔
      ∃ place ∈ places lines command, n ∈ configNames (stretchFlags lines config place) := by
  have hstretch : ∀ place ∈ places lines command, n ∈ configNames (stretchFlags lines config place) ↔
      ∃ l ∈ inStretch lines config place.1 place.2, .name n ∈ pieces l.flags := by
    intro place hplace
    rw [mem_configNames,stretchFlags,(happart config place hplace).pieces_eq,linePieces]
    exact List.mem_flatMap
  rw [linePieces,List.mem_flatMap]
  constructor
  · rintro ⟨l,hl,hn⟩
    obtain ⟨place,hplace,hin⟩ := configLines_places.mp hl
    exact ⟨place,hplace,(hstretch place hplace).mpr ⟨l,hin,hn⟩⟩
  · rintro ⟨place,hplace,hn⟩
    obtain ⟨l,hin,hl⟩ := (hstretch place hplace).mp hn
    exact ⟨l,configLines_places.mpr ⟨place,hplace,hin⟩,hl⟩

end Stretches

section Texts

variable (lines : List ResolvedLine) (command : String)

/-- What is announced of the lines of a config in one place, and the configs these name. -/
def foundIn (name : String) (place : String × ℕ) : List (Piece Message String) :=
  match inStretch lines (some name) place.1 place.2 with
  | [] => []
  | first::_ =>
    let flags := stretchFlags lines (some name) place
    .plain (.found place.1 name place.2 first.source flags)::(configNames flags).map .name

def announcedText (name : String) : List (Piece Message String) :=
  (places lines command).flatMap (foundIn lines name)

variable {lines command}

theorem announceConfig_freely (fuel : ℕ) (name : String) :
    announceConfig lines command fuel name = expandFreely (announcedText lines command) fuel name := by
  induction fuel generalizing name with
  | zero => rfl
  | succ fuel ih =>
    rw [announceConfig,expandFreely,announcedText,expandPieces_flatMap]
    refine congrArg Run.all (List.map_congr_left fun place _ => ?_)
    cases hls : inStretch lines (some name) place.1 place.2 with
    | nil => simp [foundIn,hls,expandPieces]
    | cons first rest => simp only [foundIn,hls,expandPieces,expandPieces_map,expandPiece,← ih]

theorem mem_foundIn {n m : String} {place : String × ℕ} :
    .name m ∈ foundIn lines n place ↔ m ∈ configNames (stretchFlags lines (some n) place) := by
  rw [foundIn]
  split
  · next hnil => simp [stretchFlags,hnil,configNames]
  · simp

/-- An announcement calls what the definitions call. -/
theorem announced_calls (happart : LinesApart lines command) {n m : String} :
    Calls (fun n => some (announcedText lines command n)) n m ↔
      Calls (definitions lines command) n m := by
  have htext : .name m ∈ announcedText lines command n ↔
      .name m ∈ linePieces (configLines lines command (some n)) := by
    rw [mem_linePieces happart,announcedText,List.mem_flatMap]
    simp only [mem_foundIn]
  constructor
  · rintro ⟨body,hbody,hm⟩
    cases hbody
    have hin := htext.mp hm
    have hne : configLines lines command (some n) ≠ [] := by
      intro hnil
      simp [hnil,linePieces] at hin
    exact ⟨_,by rw [definitions,if_neg hne],hin⟩
  · rintro ⟨body,hbody,hm⟩
    rw [definitions] at hbody
    split at hbody
    · cases hbody
    · cases hbody
      exact ⟨_,rfl,htext.mpr hm⟩

theorem mem_announcedText {n name file applicable : String} {stretch : ℕ} {flags : List String} :
    .plain (.found applicable name stretch file flags) ∈ announcedText lines command n ↔
      n = name ∧ (applicable,stretch) ∈ places lines command ∧
        ∃ first rest, inStretch lines (some name) applicable stretch = first::rest ∧
          file = first.source ∧ flags = stretchFlags lines (some name) (applicable,stretch) := by
  rw [announcedText,List.mem_flatMap]
  constructor
  · rintro ⟨place,hplace,hin⟩
    rw [foundIn] at hin
    split at hin
    · cases hin
    · next first rest hls =>
      simp only [List.mem_cons,Piece.plain.injEq,Message.found.injEq,List.mem_map,reduceCtorEq,
        and_false,exists_false,or_false] at hin
      obtain ⟨rfl,rfl,rfl,rfl,rfl⟩ := hin
      exact ⟨rfl,hplace,first,rest,hls,rfl,rfl⟩
  · rintro ⟨rfl,hplace,first,rest,hls,rfl,rfl⟩
    refine ⟨_,hplace,?_⟩
    rw [foundIn,hls]
    exact List.mem_cons_self ..

end Texts

section Announce

variable {lines : List ResolvedLine} {command : String} {args : List String}

def seedText (lines : List ResolvedLine) (command : String) (args : List String) :
    List (Piece Message String) :=
  (seeds lines command args).map .name

theorem mem_seedText (happart : LinesApart lines command) {n : String} :
    .name n ∈ seedText lines command args ↔
      .name n ∈ plainText lines command ++ argText args := by
  rw [List.mem_append,plainText,mem_linePieces happart,argText,← mem_configNames]
  simp [seedText,seeds]

theorem met_seedText (happart : LinesApart lines command) {n : String} :
    Met (fun n => some (announcedText lines command n)) (seedText lines command args) n ↔
      Met (definitions lines command) (plainText lines command ++ argText args) n := by
  have hcalls : Calls (fun n => some (announcedText lines command n)) =
      Calls (definitions lines command) := by
    ext n m
    exact announced_calls happart
  simp only [Met,hcalls,mem_seedText happart]

theorem found_head {applicable name file clientOptions : String} {stretch : ℕ} {flags : List String} :
    Message.found applicable name stretch file flags ∉
      startupMessages lines ++ .client clientOptions::readingMessages lines command := by
  intro hin
  rcases List.mem_append.mp hin with hin | hin
  · obtain ⟨f,-,hf⟩ := List.mem_map.mp hin
    cases hf
  · rcases List.mem_cons.mp hin with hin | hin
    · cases hin
    · obtain ⟨place,-,hin⟩ := List.mem_flatMap.mp hin
      split at hin
      · cases hin
      · cases List.mem_singleton.mp hin

/-- An announcement ends where the expansion of what it starts from does. -/
theorem seeds_announced (happart : LinesApart lines command)
    (hclean : Clean (definitions lines command) (plainText lines command ++ argText args))
    {fuel : ℕ} (hfuel : lines.length < fuel) :
    ∃ r, Run.all ((seeds lines command args).map (announceConfig lines command fuel)) =
        some (.ok r) ∧
      Expands (fun n => some (announcedText lines command n)) (seedText lines command args) r := by
  have hrun : Run.all ((seeds lines command args).map (announceConfig lines command fuel)) =
      expandPieces (expandFreely (announcedText lines command) fuel)
        (seedText lines command args) := by
    simp only [seedText,expandPieces_map,expandPiece,← announceConfig_freely]
  have hok : ∃ r, expandPieces (expandFreely (ε := Empty) (announcedText lines command) fuel)
      (seedText lines command args) = some (.ok r) := by
    refine expandPieces_ok_iff.mpr fun n hn => ?_
    obtain ⟨r,hr⟩ := hclean.runs ResolveError.configCycle .undefinedConfig (fun _ => defined_named)
      (names_lt hfuel)
    obtain ⟨e,he⟩ := expandPieces_ok_iff.mp ⟨r,hr⟩ n ((mem_seedText happart).mp hn)
    refine expandFreely_ok (fun a body hbody m hm => ?_) he
    obtain ⟨b,hb,hin⟩ := (announced_calls happart).mp ⟨_,rfl,hm⟩
    rw [hbody,Option.some.injEq] at hb
    exact hb ▸ hin
  obtain ⟨r,hr⟩ := hok
  exact ⟨r,hrun.trans hr,
    expandPieces_expands (fun n e he => ⟨_,rfl,expandFreely_expands he⟩) hr⟩

/-- With fuel enough the announcement is the same whatever the fuel: what the seeds find is
their expansion. -/
theorem announced_ends (happart : LinesApart lines command)
    (hclean : Clean (definitions lines command) (plainText lines command ++ argText args))
    (clientOptions : String) :
    ∃ r, Expands (fun n => some (announcedText lines command n)) (seedText lines command args) r ∧
      ∀ fuel, lines.length < fuel →
        announced lines command fuel args clientOptions =
          some (.ok (startupMessages lines ++
            .client clientOptions::readingMessages lines command ++ r)) := by
  obtain ⟨r,-,hr⟩ := seeds_announced happart hclean (Nat.lt_succ_self _)
  refine ⟨r,hr,fun fuel hfuel => ?_⟩
  obtain ⟨s,hrun,hs⟩ := seeds_announced happart hclean hfuel
  rw [announced,hrun,hs.det hr]
  rfl

/-- What is found is every definition of every config that is met. -/
theorem mem_found (happart : LinesApart lines command) {r : List Message} {clientOptions : String}
    (hr : Expands (fun n => some (announcedText lines command n)) (seedText lines command args) r)
    {applicable name file : String} {stretch : ℕ} {flags : List String} :
    .found applicable name stretch file flags ∈
        startupMessages lines ++ .client clientOptions::readingMessages lines command ++ r ↔
      Met (definitions lines command) (plainText lines command ++ argText args) name ∧
        (applicable,stretch) ∈ places lines command ∧
        ∃ first rest, inStretch lines (some name) applicable stretch = first::rest ∧
          file = first.source ∧ flags = stretchFlags lines (some name) (applicable,stretch) := by
  have hplain : .plain (.found applicable name stretch file flags) ∉ seedText lines command args := by
    simp [seedText]
  rw [List.mem_append,hr.mem_iff]
  constructor
  · rintro (hin | hin | ⟨n,body,hmet,hbody,hin⟩)
    · exact absurd hin found_head
    · exact absurd hin hplain
    · cases hbody
      obtain ⟨rfl,hfound⟩ := mem_announcedText.mp hin
      exact ⟨(met_seedText happart).mp hmet,hfound⟩
  · rintro ⟨hmet,hfound⟩
    exact .inr (.inr ⟨name,_,(met_seedText happart).mpr hmet,rfl,mem_announcedText.mpr ⟨rfl,hfound⟩⟩)

theorem linesApart_of (h : ∀ l ∈ lines, .plain "--config" ∉ pieces l.flags) :
    LinesApart lines command := by
  intro config place _ p l q heq _
  have hl : l ∈ inStretch lines config place.1 place.2 := by simp [heq]
  exact h l (List.of_mem_zip (mem_inStretch.mp hl).1).1

end Announce

/-- Both resolutions end and are the expansions of what they start from, where these are
clean; then an announcement ends too, and finds what the expansions take in. -/
theorem config_expansion (lines : List ResolvedLine) (command os : String) (args : List String)
    (clientOptions : String) :
    ∃ resolved given,
      (∀ fuel, lines.length < fuel →
        resolveCommand lines command fuel os = some resolved ∧
          expandCommandLine lines command fuel args = some given) ∧
      ((∃ out, resolved = .ok out) ↔
        Clean (definitions lines command) (plainText lines command) ∧
          ∀ r, Expands (definitions lines command) (plainText lines command) r →
            Clean (definitions lines command) (hostText lines command os r)) ∧
      (∀ out, resolved = .ok out ↔
        ∃ r h, Expands (definitions lines command) (plainText lines command) r ∧
          Expands (definitions lines command) (hostText lines command os r) h ∧
          out = retained r ++ h) ∧
      ((∃ out, given = .ok out) ↔ Clean (definitions lines command) (argText args)) ∧
      (∀ out, given = .ok out ↔
        ∃ r, Expands (definitions lines command) (argText args) r ∧ out = r ++ fromMarker args) ∧
      (LinesApart lines command → (∃ out, resolved = .ok out) → (∃ out, given = .ok out) →
        ∃ messages,
          (∀ fuel, lines.length < fuel →
            announced lines command fuel args clientOptions = some (.ok messages) ∧
              announce lines command fuel args clientOptions = some (messages.map Message.text)) ∧
          (∀ applicable name stretch file flags,
            .found applicable name stretch file flags ∈ messages ↔
              Met (definitions lines command) (plainText lines command ++ argText args) name ∧
                (applicable,stretch) ∈ places lines command ∧
                ∃ first rest, inStretch lines (some name) applicable stretch = first::rest ∧
                  file = first.source ∧
                  flags = stretchFlags lines (some name) (applicable,stretch)) ∧
          ∀ name, Met (definitions lines command) (plainText lines command ++ argText args) name →
            ∃ body e r, definitions lines command name = some body ∧
              Expands (definitions lines command) body e ∧
              Expands (definitions lines command) (plainText lines command ++ argText args) r ∧
              e <:+: r) := by
  have hlt : lines.length < lines.length+1 := Nat.lt_succ_self _
  have hends : resolveCommand lines command (lines.length+1) os ≠ none := resolveCommand_ends hlt
  have hends' : expandCommandLine lines command (lines.length+1) args ≠ none :=
    expandCommandLine_ends hlt
  obtain ⟨resolved,hresolved⟩ := Option.ne_none_iff_exists'.mp hends
  obtain ⟨given,hgiven⟩ := Option.ne_none_iff_exists'.mp hends'
  have hresolvedIff (out : List String) : resolved = .ok out ↔
      ∃ r h, Expands (definitions lines command) (plainText lines command) r ∧
        Expands (definitions lines command) (hostText lines command os r) h ∧
        out = retained r ++ h := by
    rw [← resolveCommand_iff hlt,hresolved,Option.some.injEq]
  have hgivenIff (out : List String) : given = .ok out ↔
      ∃ r, Expands (definitions lines command) (argText args) r ∧ out = r ++ fromMarker args := by
    rw [← expandCommandLine_iff hlt,hgiven,Option.some.injEq]
  have hresolvedOk : (∃ out, resolved = .ok out) ↔
      Clean (definitions lines command) (plainText lines command) ∧
        ∀ r, Expands (definitions lines command) (plainText lines command) r →
          Clean (definitions lines command) (hostText lines command os r) := by
    simp only [hresolvedIff]
    constructor
    · rintro ⟨out,r,h,hr,hh,-⟩
      refine ⟨hr.clean,fun s hs => ?_⟩
      rw [hs.det hr]
      exact hh.clean
    · rintro ⟨hplain,hhost⟩
      obtain ⟨r,hr⟩ := clean_iff.mp hplain
      obtain ⟨h,hh⟩ := clean_iff.mp (hhost r hr)
      exact ⟨_,r,h,hr,hh,rfl⟩
  have hgivenOk : (∃ out, given = .ok out) ↔ Clean (definitions lines command) (argText args) := by
    simp only [hgivenIff,clean_iff]
    constructor
    · rintro ⟨out,r,hr,-⟩
      exact ⟨r,hr⟩
    · rintro ⟨r,hr⟩
      exact ⟨_,r,hr,rfl⟩
  refine ⟨resolved,given,fun fuel hfuel => ⟨?_,?_⟩,hresolvedOk,hresolvedIff,hgivenOk,hgivenIff,?_⟩
  · rw [resolveCommand_settles hfuel,hresolved]
  · rw [expandCommandLine_settles hfuel,hgiven]
  · intro happart hok hok'
    have hclean : Clean (definitions lines command) (plainText lines command ++ argText args) :=
      Clean.append_iff.mpr ⟨(hresolvedOk.mp hok).1,hgivenOk.mp hok'⟩
    obtain ⟨r,hr,hends⟩ := announced_ends happart hclean clientOptions
    refine ⟨_,fun fuel hfuel => ⟨hends fuel hfuel,?_⟩,fun _ _ _ _ _ => mem_found happart hr,
      fun name hmet => ?_⟩
    · rw [announce,hends fuel hfuel]
    · obtain ⟨s,hs⟩ := clean_iff.mp hclean
      obtain ⟨body,e,hbody,he,hin⟩ := hs.infix_of_met hmet
      exact ⟨body,e,s,hbody,he,hs,hin⟩

def nestedLines : List ResolvedLine :=
  [⟨"rc","test",none,["--config=ci"]⟩,⟨"rc","test",some "ci",["--t"]⟩,
    ⟨"rc","build",some "ci",["--b","--config","ci2"]⟩,⟨"rc","build",some "ci2",["--b2"]⟩]

theorem config_expansion_nested :
    ∃ messages,
      (∀ fuel, 4 < fuel → announced nestedLines "test" fuel [] "" = some (.ok messages)) ∧
        .found "build" "ci2" 0 "rc" ["--b2"] ∈ messages := by
  obtain ⟨resolved,given,hruns,-,-,-,-,hannounced⟩ :=
    config_expansion nestedLines "test" "linux" [] ""
  obtain ⟨hresolved,hgiven⟩ := hruns 5 (by decide)
  have hout : resolveCommand nestedLines "test" 5 "linux" = some (.ok ["--b","--b2","--t"]) := by
    decide
  have hargs : expandCommandLine nestedLines "test" 5 [] = some (.ok []) := by decide
  obtain ⟨messages,hends,hfound,-⟩ := hannounced (linesApart_of (by decide))
    ⟨_,Option.some.inj (hresolved.symm.trans hout)⟩ ⟨_,Option.some.inj (hgiven.symm.trans hargs)⟩
  refine ⟨messages,fun fuel hfuel => (hends fuel hfuel).1,(hfound ..).mpr ⟨?_,by decide,
    ⟨"rc","build",some "ci2",["--b2"]⟩,[],by decide,rfl,by decide⟩⟩
  exact ⟨"ci",by decide,.single ⟨_,rfl,by decide⟩⟩

def platformLines : List ResolvedLine :=
  [⟨"rc","build",none,["--enable_platform_specific_config"]⟩,⟨"rc","build",some "linux",["--x"]⟩]

/-- The flag that turns the host's config on is spent, and the config is not announced. -/
theorem platform_config_added :
    resolveCommand platformLines "build" 3 "linux" = some (.ok ["--x"]) ∧
      Expands (definitions platformLines "build") (plainText platformLines "build")
        ["--enable_platform_specific_config"] ∧
      ¬Expands (definitions platformLines "build") (plainText platformLines "build") ["--x"] ∧
      announced platformLines "build" 3 [] "" =
        some (.ok [.client "",.reading "build" "rc" "build" ["--enable_platform_specific_config"]]) := by
  have htext : plainText platformLines "build" = [.plain "--enable_platform_specific_config"] := by
    decide
  refine ⟨by decide,?_,?_,by decide⟩
  · rw [htext]
    exact .plain _ .nil
  · rw [htext]
    intro h
    exact absurd (h.det (.plain _ .nil)) (by decide)

end BuildFiji.Rc
