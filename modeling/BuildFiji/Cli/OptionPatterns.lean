import BuildFiji.Cli.OptionsTaken

/-!
# What is left for the patterns

Each option that the gate lets through is read by the one extractor that has its name, if
no extractor before that one reads the option's value as a flag.
-/

set_option autoImplicit false
set_option linter.all false

namespace BuildFiji.Flags

open BuildFiji.Scan BuildFiji.Fallible

section Names

theorem implemented_sub (command : String) : ∀ name ∈ implemented command, name ∈ implemented "run" := by
  intro name h
  rw [implemented] at h ⊢
  rw [if_pos rfl]
  rcases List.mem_append.mp h with h | h
  · exact List.mem_append_left _ h
  · split at h
    · exact List.mem_append_right _ h
    · cases h

def fetchNames : List String := ["repository_cache","distdir","override_repository","credential_helper",
  "credential_helper_timeout","repo_env"]

def isolatedFlag : String := "experimental_isolated_extension_usages"

/-- Of the flags of `fetch_command`, the others are not let through. -/
theorem implemented_table : (∀ name ∈ implemented "run", name ∈ fetchKeys →
    name = isolatedFlag ∨ name ∈ fetchNames) ∧ "all" ∉ implemented "run" := by
  decide +kernel

theorem fetch_table : (∀ key ∈ fetchKeys, key.toList.take 2 = "no".toList →
      key = "noall" ∨ key = "noexperimental_isolated_extension_usages") ∧
    ∀ name ∈ fetchNames, fetchSwitches.lookup name = none ∧
      (fetchValues.lookup name).isSome = true ∧ name ∈ valueFlags ∧ name ∈ fetchKeys := by
  decide

theorem negation_implemented {name : String} (h : name ∈ implemented "run")
    (hkey : String.ofList (negation name) ∈ fetchKeys) : name = isolatedFlag := by
  rcases fetch_table.1 _ hkey (by rw [String.toList_ofList]; rfl) with heq | heq
  · have hall : negation name = negation "all" := by rw [← String.toList_ofList (l := negation name), heq]; rfl
    exact absurd (String.toList_injective (List.cons.inj (List.cons.inj hall).2).2 ▸ h) implemented_table.2
  · have hall : negation name = negation isolatedFlag := by
      rw [← String.toList_ofList (l := negation name), heq]
      rfl
    exact String.toList_injective (List.cons.inj (List.cons.inj hall).2).2

/-- The names that each extractor reads, for `run` or not. -/
def readNames (runs : Bool) : List (List String × List String) :=
  [(buildFlags.switches.map Prod.fst,buildFlags.values.map Prod.fst),
    (testFlags.switches.map Prod.fst,testFlags.values.map Prod.fst),
    ([],if runs then runFlags.values.map Prod.fst else []),
    (diagnosticsFlags.switches.map Prod.fst,diagnosticsFlags.values.map Prod.fst),
    (workspaceStatusFlags.switches.map Prod.fst,workspaceStatusFlags.values.map Prod.fst),
    (miscFlags.switches.map Prod.fst,miscFlags.values.map Prod.fst),
    (outputFilterFlags.switches.map Prod.fst,outputFilterFlags.values.map Prod.fst),
    (executionLogFlags.switches.map Prod.fst,executionLogFlags.values.map Prod.fst),
    (remoteFlags.switches.map Prod.fst,remoteFlags.values.map Prod.fst),
    (besFlags.switches.map Prod.fst,besFlags.values.map Prod.fst),
    (bzlmodFlags.switches.map Prod.fst,bzlmodFlags.values.map Prod.fst),
    ([isolatedFlag],fetchNames),
    (consoleFlags.switches.map Prod.fst,consoleFlags.values.map Prod.fst)]

def Named.names (s : Named) : List String × List String := (s.switches,s.values)

theorem named_names (t : FlagTable) (command : String) :
    (named t command).map Named.names = readNames (command = "run") := by
  rw [readNames]
  by_cases hrun : command = "run"
  · rw [named, if_pos hrun, decide_eq_true hrun]
    rfl
  · rw [named, if_neg hrun, decide_eq_false hrun]
    rfl

theorem names_of_mem {t : FlagTable} {command : String} {s : Named} (h : s ∈ named t command) :
    s.names ∈ readNames (command = "run") := by
  rw [← named_names t command]
  exact List.mem_map_of_mem h

/-- What the names of all the extractors show: each has its own, those of `fetch_command` are read
nowhere else, and no two read a value for the same flag. -/
structure ReadTable (names : List (List String × List String)) : Prop where
  nodup : names.Nodup
  apart : names.Pairwise fun a b => ∀ name ∈ a.2, name ∉ b.2
  switches : ∀ s ∈ names, ∀ name ∈ s.1, name ∈ switchFlags
  values : ∀ s ∈ names, ∀ name ∈ s.2, name ≠ symlinksFlag → name ∈ valueFlags
  aliases : ∀ s ∈ names, "flag_alias" ∉ s.1 ∧ "flag_alias" ∉ s.2
  checked : ∀ s ∈ names, ∀ name ∈ checks.map Prod.fst, name ∉ s.1 ∧ name ≠ symlinksFlag
  fetch : ∀ s ∈ names, ∀ name ∈ fetchImplemented, name ∈ s.1 ∨ name ∈ s.2 →
    s = ([isolatedFlag],fetchNames)

theorem readNames_table (runs : Bool) : ReadTable (readNames runs) := by
  cases runs <;> constructor <;> decide

theorem implemented_read : ∀ runs : Bool, ∀ name ∈ implemented (if runs then "run" else ""),
    name ≠ "flag_alias" → ∃ s ∈ readNames runs, name ∈ s.1 ∨ name ∈ s.2 := by
  decide +kernel

/-- Every flag that is let through has an extractor. -/
theorem read_of_implemented {command name : String} (h : name ∈ implemented command)
    (hne : name ≠ "flag_alias") :
    ∃ s ∈ readNames (command = "run"), name ∈ s.1 ∨ name ∈ s.2 := by
  refine implemented_read (command = "run") name ?_ hne
  by_cases hrun : command = "run"
  · rw [decide_eq_true hrun, if_pos rfl]
    rwa [hrun] at h
  · rw [decide_eq_false hrun, if_neg Bool.false_ne_true]
    rw [implemented, if_neg hrun] at h
    exact h

theorem fetchImplemented_iff (name : String) :
    name ∈ fetchImplemented ↔ name = isolatedFlag ∨ name ∈ fetchNames := by
  simp only [fetchImplemented, fetchNames, isolatedFlag, List.mem_cons, List.not_mem_nil, or_false]
  tauto

end Names

section Fetch
variable (t : BuildTable) {command : String} {arg : Word} {m : FlagMatch}

theorem readFetch_keep {body : Word} (h : String.ofList (splitValue body).1 ∉ fetchKeys) :
    readFetch ('-':: '-'::body) = .keep := by
  rw [fetchKeys, List.mem_append, not_or] at h
  have hs : fetchSwitches.lookup (String.ofList (splitValue body).1) = none := by
    rw [List.lookup_eq_none_iff]
    intro e he
    rw [bne_iff_ne]
    rintro heq
    exact h.1 (heq ▸ List.mem_map_of_mem he)
  have hv : fetchValues.lookup (String.ofList (splitValue body).1) = none := by
    rw [List.lookup_eq_none_iff]
    intro e he
    rw [bne_iff_ne]
    rintro heq
    exact h.2 (heq ▸ List.mem_map_of_mem he)
  rw [readFetch]
  dsimp only
  rw [hs, hv]

/-- A value flag of `fetch_command`, by its own name. -/
theorem readFetch_value {body : Word} (hbody : String.ofList (splitValue body).1 = m.flag.name)
    (hvalue : m.value = (splitValue body).2) (hmem : m.flag.name ∈ fetchNames) :
    Answers [isolatedFlag] fetchNames m (readFetch ('-':: '-'::body)) := by
  obtain ⟨hs,hv,-⟩ := fetch_table.2 _ hmem
  obtain ⟨set,hset⟩ := Option.isSome_iff_exists.mp hv
  have hhonest := fetchValues_honest _ (mem_of_lookup hset)
  rw [readFetch]
  dsimp only
  rw [hbody, hs, hset, ← hvalue]
  cases hinline : m.value with
  | some v => exact .attached v set hmem hinline hhonest
  | none => exact .next _ set hmem hinline hhonest

/-- What `fetch_command` does with a flag depends on the name that it is written by. -/
structure FetchAnswers (arg : Word) (m : FlagMatch) : Prop where
  own : (m.flag.name ∈ fetchImplemented → byOwnName arg m = true) →
    Answers [isolatedFlag] fetchNames m (readFetch arg)
  foreign : byOwnName arg m = false → m.flag.name ∈ fetchImplemented → readFetch arg = .keep

theorem not_fetch {name : String} (h : name ∉ fetchImplemented) :
    name ∉ [isolatedFlag] ∧ name ∉ fetchNames := by
  rw [fetchImplemented_iff, not_or] at h
  exact ⟨fun hmem => h.1 (List.mem_singleton.mp hmem),h.2⟩

theorem keep_of_foreign (hkeep : readFetch arg = .keep) (hother : byOwnName arg m = false) :
    FetchAnswers arg m := by
  refine ⟨fun hown => ?_,fun _ _ => hkeep⟩
  have hno : m.flag.name ∉ fetchImplemented := by
    intro hmem
    rw [hown hmem] at hother
    cases hother
  rw [hkeep]
  exact .keep (not_fetch hno).1 (not_fetch hno).2

theorem keep_of_other (hkeep : readFetch arg = .keep) (hno : m.flag.name ∉ fetchImplemented) :
    FetchAnswers arg m := by
  refine ⟨fun _ => ?_,fun _ _ => hkeep⟩
  rw [hkeep]
  exact .keep (not_fetch hno).1 (not_fetch hno).2

theorem answers_of_own (h : Answers [isolatedFlag] fetchNames m (readFetch arg))
    (hown : byOwnName arg m = true) : FetchAnswers arg m := by
  refine ⟨fun _ => h,fun hother _ => ?_⟩
  rw [hown] at hother
  cases hother

/-- `fetch_command` knows its flags by their own names only. -/
theorem readFetch_answers (hm : registeredFlag (commandFor t.flags command) arg = some m)
    (hname : m.flag.name ∈ implemented command) : FetchAnswers arg m := by
  have hrun := implemented_sub command _ hname
  rcases spelled t hm with ⟨body,rfl,hvalue,hf,⟨hneg,hn⟩ | ⟨hneg,hhas,hn⟩⟩ | ⟨c,rest,rfl,hc,-⟩
  · rcases List.mem_cons.mp hn with hn | hn
    · have hbody : String.ofList (splitValue body).1 = m.flag.name := by rw [hn, String.ofList_toList]
      have hown : byOwnName ('-':: '-'::body) m = true := by
        rw [byOwnName, hneg, if_neg Bool.false_ne_true, decide_eq_true_iff]
        exact hn
      by_cases hkey : m.flag.name ∈ fetchKeys
      · refine answers_of_own ?_ hown
        rcases implemented_table.1 _ hrun hkey with hisolated | hmem
        · have hlookup : (fetchSwitches.lookup isolatedFlag).isSome = true := by decide
          obtain ⟨set,hset⟩ := Option.isSome_iff_exists.mp hlookup
          rw [readFetch]
          dsimp only
          rw [hbody, hisolated, hset]
          exact .switch set (List.mem_singleton.mpr hisolated)
        · exact readFetch_value hbody hvalue hmem
      · refine keep_of_other (readFetch_keep (by rw [hbody]; exact hkey)) ?_
        rw [fetchImplemented_iff]
        rintro (heq | hmem)
        · exact hkey (heq ▸ by decide)
        · exact hkey (fetch_table.2 _ hmem).2.2.2
    · obtain ⟨old,hold,hn⟩ : ∃ old, m.flag.oldName = some old ∧ (splitValue body).1 = old.toList := by
        cases hold : m.flag.oldName with
        | none =>
          rw [hold] at hn
          cases hn
        | some old =>
          rw [hold] at hn
          exact ⟨old,rfl,List.mem_singleton.mp hn⟩
      have hkey := t.oldNames _ hf old hold
      refine keep_of_foreign (readFetch_keep (by rw [hn, String.ofList_toList]; exact hkey)) ?_
      obtain ⟨-,-,-,hnodup,-⟩ := spellings_split t.toFlagTable hf
      have hnames := names_nodup hnodup
      rw [FlagInfo.names, hold] at hnames
      rw [byOwnName, hneg, if_neg Bool.false_ne_true, decide_eq_false_iff_not, hn]
      intro heq
      exact (List.nodup_cons.mp hnames).1 (heq ▸ List.mem_cons_self)
  · have hown : byOwnName ('-':: '-'::body) m = true := by
      rw [byOwnName, hneg, if_pos rfl, decide_eq_true_iff]
      exact hn
    by_cases hisolated : m.flag.name = isolatedFlag
    · have hlookup : (fetchSwitches.lookup (String.ofList (negation isolatedFlag))).isSome = true := by
        decide
      obtain ⟨set,hset⟩ := Option.isSome_iff_exists.mp hlookup
      refine answers_of_own ?_ hown
      rw [readFetch]
      dsimp only
      rw [hn, hisolated, hset]
      exact .switch set (List.mem_singleton.mpr hisolated)
    · refine keep_of_other (readFetch_keep ?_) ?_
      · rw [hn]
        exact fun hkey => hisolated (negation_implemented hrun hkey)
      · rw [fetchImplemented_iff]
        rintro (heq | hmem)
        · exact hisolated heq
        · have hrequired := t.values _ hf (fetch_table.2 _ hmem).2.2.1
          rw [t.needed _ hf hrequired] at hhas
          cases hhas
  · have hlong : ∀ body, '-'::c::rest ≠ '-':: '-'::body :=
      fun body heq => hc (List.cons.inj (List.cons.inj heq).2).1
    refine keep_of_foreign ?_ ?_
    · unfold readFetch
      split
      · next body heq => exact absurd heq (hlong body)
      · rfl
    · unfold byOwnName
      split
      · next body heq => exact absurd heq (hlong body)
      · rfl

end Fetch

section Stages
variable (t : BuildTable) {command : String} {arg : Word} {m : FlagMatch} {s : Named}

theorem negated_bare (hfits : valueFits arg m = true) : m.negated = true → m.value = none := by
  intro hneg
  unfold valueFits at hfits
  split at hfits
  · next hvalue => exact hvalue
  · rw [hneg] at hfits
    cases hfits

theorem readWith_answers {σ : Type} {x : Extractor σ} (hhonest : ∀ e ∈ x.values, Honest e.1 e.2)
    (hm : optionOf (commandFor t.flags command) arg = some m) (hfits : valueFits arg m = true) :
    Answers (x.switches.map Prod.fst) (x.values.map Prod.fst) m
      (readWith t.toFlagTable command x.take arg) := by
  obtain ⟨hdash,-,hregistered⟩ := optionOf_some hm
  rw [readWith, if_neg (not_not.mpr hdash),
    (resolve_registered t.toFlagTable hregistered (negated_bare hfits)).1]
  exact take_answers hhonest arg m

def fetchStage : Named := ⟨[isolatedFlag],fetchNames,⟨FetchFlags,.default,readFetch⟩⟩

theorem readBuild_answers (hm : optionOf (commandFor t.flags command) arg = some m)
    (hfits : valueFits arg m = true) :
    Answers (buildFlags.switches.map Prod.fst) (buildFlags.values.map Prod.fst) m
      (readBuild t.toFlagTable command arg) := by
  rw [readBuild, starlarkFlag_none t hm]
  exact readWith_answers t buildFlags_honest hm hfits

theorem readRun_answers (hm : optionOf (commandFor t.flags command) arg = some m)
    (hfits : valueFits arg m = true) :
    Answers [] (if command = "run" then runFlags.values.map Prod.fst else []) m
      (readRun t.toFlagTable command arg) := by
  rw [readRun]
  by_cases hrun : command = "run"
  · rw [if_neg (not_not.mpr hrun), if_pos hrun]
    exact readWith_answers t runFlags_honest hm hfits
  · rw [if_pos hrun, if_neg hrun]
    exact .keep List.not_mem_nil List.not_mem_nil

theorem mem_named (h : s = fetchStage) : s ∈ named t.toFlagTable command := by
  rw [h, named]
  iterate 11 apply List.mem_cons_of_mem
  exact List.mem_cons_self

/-- Each extractor answers for its own flags. -/
theorem stage_answers (hm : optionOf (commandFor t.flags command) arg = some m)
    (hfits : valueFits arg m = true) : ∀ s ∈ named t.toFlagTable command, s = fetchStage ∨
      Answers s.switches s.values m (s.stage.read arg) := by
  intro s hs
  simp only [named, List.mem_cons, List.not_mem_nil, or_false] at hs
  rcases hs with rfl | rfl | rfl | rfl | rfl | rfl | rfl | rfl | rfl | rfl | rfl | rfl | rfl
  · exact .inr (readBuild_answers t hm hfits)
  · exact .inr (readWith_answers t testFlags_honest hm hfits)
  · exact .inr (readRun_answers t hm hfits)
  · exact .inr (readWith_answers t diagnosticsFlags_honest hm hfits)
  · exact .inr (readWith_answers t workspaceStatusFlags_honest hm hfits)
  · exact .inr (readWith_answers t miscFlags_honest hm hfits)
  · exact .inr (readWith_answers t outputFilterFlags_honest hm hfits)
  · exact .inr (readWith_answers t executionLogFlags_honest hm hfits)
  · exact .inr (readWith_answers t remoteFlags_honest hm hfits)
  · exact .inr (readWith_answers t besFlags_honest hm hfits)
  · exact .inr (readWith_answers t bzlmodFlags_honest hm hfits)
  · exact .inl rfl
  · exact .inr (readWith_answers t consoleFlags_honest hm hfits)

/-- An extractor that does not know the flag leaves the word. -/
theorem answers_keep {σ : Type} {switches values : List String} {r : Reading σ Word Stop}
    (h : Answers switches values m r) (hs : m.flag.name ∉ switches) (hv : m.flag.name ∉ values) :
    r = .keep := by
  cases h with
  | keep _ _ => rfl
  | switch f hmem => exact absurd hmem hs
  | attached v set hmem _ _ => exact absurd hmem hv
  | next missing set hmem _ _ => exact absurd hmem hv

/-- All the extractors answer, if a flag of `fetch_command` has its own name. -/
theorem all_answer (hm : optionOf (commandFor t.flags command) arg = some m)
    (hfits : valueFits arg m = true) (hname : m.flag.name ∈ implemented command)
    (hown : m.flag.name ∈ fetchImplemented → byOwnName arg m = true) :
    ∀ s ∈ named t.toFlagTable command, Answers s.switches s.values m (s.stage.read arg) := by
  intro s hs
  rcases stage_answers t hm hfits s hs with rfl | h
  · exact (readFetch_answers t (optionOf_some hm).2.2 hname).own hown
  · exact h

/-- No extractor knows a flag of `fetch_command` by another name. -/
theorem foreign_kept (hm : optionOf (commandFor t.flags command) arg = some m)
    (hfits : valueFits arg m = true) (hname : m.flag.name ∈ implemented command)
    (hfetch : m.flag.name ∈ fetchImplemented) (hother : byOwnName arg m = false) :
    ∀ s ∈ named t.toFlagTable command, s.stage.read arg = .keep := by
  intro s hs
  rcases stage_answers t hm hfits s hs with rfl | h
  · exact (readFetch_answers t (optionOf_some hm).2.2 hname).foreign hother hfetch
  · by_cases hread : m.flag.name ∈ s.switches ∨ m.flag.name ∈ s.values
    · have hnames := (readNames_table _).fetch s.names (names_of_mem hs) _ hfetch hread
      have hsame : s = fetchStage :=
        List.inj_on_of_nodup_map (by rw [named_names]; exact (readNames_table _).nodup) hs (mem_named t rfl) hnames
      rw [hsame]
      exact (readFetch_answers t (optionOf_some hm).2.2 hname).foreign hother hfetch
    · rw [not_or] at hread
      exact answers_keep h hread.1 hread.2

theorem flag_mem (hm : optionOf (commandFor t.flags command) arg = some m) (hfits : valueFits arg m = true) :
    m.flag ∈ t.flags ∧ (m.negated = true → m.flag.hasNegativeFlag = true) :=
  (resolve_registered t.toFlagTable (optionOf_some hm).2.2 (negated_bare hfits)).2

/-- What the table says of the flags that an extractor reads. -/
theorem shaped {p : Piece Word} (hm : optionOf (commandFor t.flags command) p.head = some m)
    (hfits : valueFits p.head m = true) (hnext : m.needsNext = true ↔ ∃ w v, p = .two w v) {s : Named}
    (hs : s ∈ named t.toFlagTable command) : Shaped s.switches s.values m p := by
  obtain ⟨hf,hnegative⟩ := flag_mem t hm hfits
  have hnames := names_of_mem hs
  refine ⟨hnext,fun hmem => ?_,fun hmem hne => ?_,t.symlinks _ hf⟩
  · exact t.switches _ hf ((readNames_table _).switches _ hnames _ hmem)
  · have hrequired := t.values _ hf ((readNames_table _).values _ hnames _ hmem hne)
    refine ⟨hrequired,?_⟩
    cases hneg : m.negated with
    | false => rfl
    | true =>
      rw [← t.needed _ hf hrequired, hnegative hneg]

end Stages

end BuildFiji.Flags
