import BuildFiji.Cli.OptionPatterns

/-!
# No option is a pattern

If every option is understood, no word that begins with `-` is left. An option that is not
understood is left, unless its value or the words after it are read as flags.
-/

set_option autoImplicit false
set_option linter.all false

namespace BuildFiji.Flags

open BuildFiji.Scan BuildFiji.Fallible

open BuildFiji.Graph (TargetPattern)

section Understood
variable (t : BuildTable) (command : String)

/-- The word is for a flag that is let through, its extractor takes it, and no extractor before
that one reads the value. Other words do not begin with `-`, or are Starlark flags. -/
def understood (p : Piece Word) : Bool :=
  match optionOf (commandFor t.flags command) p.head with
  | none => p.head.head? ≠ some '-' || looksLikeStarlarkFlag p.head
  | some m =>
    (implemented command).contains m.flag.name && valueFits p.head m && taken m p &&
      match p with
      | .one _ => true
      | .two w v => unread (stages t.toFlagTable command) w v

/-- No value is a word that an extractor reads, and the flag that takes the next word for its
value without needing one has its value attached. -/
structure Plain (ws : List Word) : Prop where
  values : ∀ w v, .two w v ∈ reading (commandFor t.flags command) ws →
    ∀ s ∈ named t.toFlagTable command, s.stage.read v = .keep
  symlinks : ∀ p ∈ reading (commandFor t.flags command) ws, ∀ m,
    optionOf (commandFor t.flags command) p.head = some m → m.flag.name = symlinksFlag → m.value ≠ none

end Understood

section Taken
variable (t : BuildTable) {command : String} {m : FlagMatch} {p : Piece Word}

theorem mem_stages {st : Stage Word Stop} (h : st ∈ stages t.toFlagTable command) :
    ∃ s ∈ named t.toFlagTable command, s.stage = st := List.mem_map.mp h

theorem reading_two {r : Registered} {ws : List Word} {w v : Word} (h : .two w v ∈ reading r ws) :
    ∃ m, optionOf r w = some m ∧ m.needsNext = true := by
  fun_induction reading r ws with
  | case1 => cases h
  | case2 arg hneeds => cases List.mem_singleton.mp h
  | case3 arg hneeds value args ih =>
    rcases List.mem_cons.mp h with heq | h
    · cases heq
      exact (Option.any_eq_true _ _).mp hneeds
    · exact ih h
  | case4 arg args hneeds ih =>
    rcases List.mem_cons.mp h with heq | h
    · cases heq
    · exact ih h

/-- A word without a flag has no value. -/
theorem reading_one {r : Registered} {ws : List Word} (hp : p ∈ reading r ws)
    (hnone : optionOf r p.head = none) : p = .one p.head := by
  cases p with
  | one w => rfl
  | two w v =>
    obtain ⟨m,hm,-⟩ := reading_two hp
    rw [Piece.head, hm] at hnone
    cases hnone

theorem two_needs {r : Registered} {ws : List Word} (hp : p ∈ reading r ws)
    (hm : optionOf r p.head = some m) (h : ∃ w v, p = .two w v) : m.needsNext = true := by
  obtain ⟨w,v,rfl⟩ := h
  obtain ⟨m',hm',hneeds⟩ := reading_two hp
  rw [Piece.head, hm', Option.some.injEq] at hm
  rwa [← hm]

theorem next_of_taken (h : taken m p = true) (hneeds : m.needsNext = true) : ∃ w v, p = .two w v := by
  cases p with
  | two w v => exact ⟨w,v,rfl⟩
  | one w =>
    have hvalue : m.value = none := by
      rw [FlagMatch.needsNext, Bool.and_eq_true, Option.isNone_iff_eq_none] at hneeds
      exact hneeds.2
    have hno : valueOf m (.one w) = none := by
      unfold valueOf
      rw [hvalue]
      rfl
    rw [taken, hno, hneeds] at h
    simp at h

theorem takes_reads {st : Stage Word Stop} (h : Takes st p ∨ Fails st p) : st.read p.head ≠ .keep := by
  intro hkeep
  cases p with
  | one w =>
    change st.read w = _ at hkeep
    rcases h with ⟨f,h⟩ | ⟨e,h⟩ <;> rw [hkeep] at h <;> cases h
  | two w v =>
    change st.read w = _ at hkeep
    rcases h with ⟨d,set,f,h,-⟩ | ⟨e,h⟩ | ⟨d,set,e,h,-⟩ <;> rw [hkeep] at h <;> cases h

/-- What `taken` says of the name and of the value. -/
theorem taken_iff : taken m p = true ↔ m.flag.name ≠ "flag_alias" ∧
    (m.flag.name ∈ fetchImplemented → byOwnName p.head m = true) ∧
    (∀ v, valueOf m p = some v → readable m.flag.name v = true) ∧
    (valueOf m p = none → m.needsNext = false ∧ m.flag.name ≠ symlinksFlag) := by
  rw [taken, Bool.and_eq_true, Bool.and_eq_true, decide_eq_true_iff, Bool.or_eq_true, Bool.not_eq_true',
    and_assoc]
  refine and_congr_right fun _ => and_congr ?_ ?_
  · rw [← Bool.not_eq_true, List.contains_iff_mem, ← imp_iff_not_or]
  · cases valueOf m p with
    | some v => simp
    | none => simp

/-- An option that is understood is gone once its extractor has run. -/
theorem understood_taken {ws : List Word} (hp : p ∈ reading (commandFor t.flags command) ws)
    (hm : optionOf (commandFor t.flags command) p.head = some m)
    (hname : m.flag.name ∈ implemented command) (hfits : valueFits p.head m = true)
    (htaken : taken m p = true)
    (hunread : ∀ w v, p = .two w v → unread (stages t.toFlagTable command) w v = true) :
    FitsAll (stages t.toFlagTable command) p ∧
      ∀ q, leftAll (stages t.toFlagTable command) p = .ok q → q = none := by
  have hnext : m.needsNext = true ↔ ∃ w v, p = .two w v := ⟨next_of_taken htaken,two_needs hp hm⟩
  obtain ⟨halias,hown,hread,hbare⟩ := taken_iff.mp htaken
  have hanswers := all_answer t hm hfits hname hown
  have htakes : ∀ s ∈ named t.toFlagTable command,
      s.stage.read p.head = .keep ∧ m.flag.name ∉ s.switches ∧ m.flag.name ∉ s.values ∨
        Takes s.stage p ∨ Fails s.stage p := fun s hs =>
    answers_taken (hanswers s hs) (shaped t hm hfits hnext hs) hread fun hno => (hbare hno).2
  refine leftAll_taken ?_ ?_ hunread
  · intro st hst
    obtain ⟨s,hs,rfl⟩ := mem_stages t hst
    exact (htakes s hs).imp_left And.left
  · obtain ⟨names,hnames,hmem⟩ := read_of_implemented hname halias
    rw [← named_names t.toFlagTable command] at hnames
    obtain ⟨s,hs,rfl⟩ := List.mem_map.mp hnames
    refine ⟨s.stage,List.mem_map_of_mem hs,?_⟩
    rcases htakes s hs with ⟨-,hswitches,hvalues⟩ | h
    · exact (hmem.elim hswitches hvalues).elim
    · exact takes_reads h

end Taken

section Other
variable (t : BuildTable) {command : String} {w : Word}

theorem bare_kept (hw : w.head? ≠ some '-') :
    ∀ s ∈ named t.toFlagTable command, s.stage.read w = .keep := by
  have hwith : ∀ {σ : Type} (take : Word → FlagMatch → Reading σ Word Stop),
      readWith t.toFlagTable command take w = .keep := fun take => if_pos hw
  have hbuild : readBuild t.toFlagTable command w = .keep := by
    have hnone : starlarkFlag w = none := by
      unfold starlarkFlag
      split
      · exact absurd rfl hw
      · rfl
    rw [readBuild, hnone]
    exact hwith _
  have hrun : readRun t.toFlagTable command w = .keep := by
    rw [readRun]
    split
    · rfl
    · exact hwith _
  have hfetch : readFetch w = .keep := by
    unfold readFetch
    split
    · exact absurd rfl hw
    · rfl
  intro s hs
  simp only [named, List.mem_cons, List.not_mem_nil, or_false] at hs
  rcases hs with rfl | rfl | rfl | rfl | rfl | rfl | rfl | rfl | rfl | rfl | rfl | rfl | rfl
  · exact hbuild
  · exact hwith _
  · exact hrun
  all_goals first | exact hfetch | exact hwith _

/-- What is no option stays. -/
theorem bare_left (command : String) (hw : w.head? ≠ some '-') : FitsAll (stages t.toFlagTable command) (.one w) ∧
    leftAll (stages t.toFlagTable command) (.one w) = .ok (some (.one w)) := by
  refine leftAll_stays fun st hst x hx => ?_
  obtain ⟨s,hs,rfl⟩ := mem_stages t hst
  rw [List.mem_singleton.mp hx]
  exact bare_kept t hw s hs

theorem readBuild_starlark (command : String) (hw : looksLikeStarlarkFlag w = true) :
    ∃ f, readBuild t.toFlagTable command w = .drop f := by
  have hsome : ∃ flag, starlarkFlag w = some flag := by
    unfold looksLikeStarlarkFlag at hw
    split at hw
    · exact ⟨_,rfl⟩
    · exact ⟨_,rfl⟩
    · cases hw
  obtain ⟨flag,hflag⟩ := hsome
  exact ⟨_,by rw [readBuild, hflag]⟩

/-- The first extractor takes every Starlark flag. -/
theorem starlark_left (command : String) (hw : looksLikeStarlarkFlag w = true) :
    FitsAll (stages t.toFlagTable command) (.one w) ∧
      leftAll (stages t.toFlagTable command) (.one w) = .ok none := by
  rw [stages, named, List.map_cons]
  exact leftAll_first (readBuild_starlark t command hw)

end Other

section Untaken
variable (t : BuildTable) {command : String} {m : FlagMatch} {p : Piece Word}

theorem checked_of_unreadable {name : String} {v : Word} (h : readable name v = false) :
    name ∈ checks.map Prod.fst := by
  rw [readable] at h
  cases hcheck : checks.lookup name with
  | none =>
    rw [hcheck] at h
    cases h
  | some check => exact List.mem_map_of_mem (mem_of_lookup hcheck)

theorem checked_not_fetch : ∀ name ∈ checks.map Prod.fst, name ∉ fetchImplemented := by
  decide

/-- What no extractor knows stays with its value. -/
theorem unknown_left (hkeep : ∀ s ∈ named t.toFlagTable command, s.stage.read p.head = .keep)
    (hquiet : ∀ w v, p = .two w v → ∀ s ∈ named t.toFlagTable command, s.stage.read v = .keep) :
    FitsAll (stages t.toFlagTable command) p ∧
      ∀ q, leftAll (stages t.toFlagTable command) p = .ok q → ∃ q', q = some q' ∧ p.head ∈ q'.words := by
  have hwords : ∀ st ∈ stages t.toFlagTable command, ∀ w ∈ p.words, st.read w = .keep := by
    intro st hst w hw
    obtain ⟨s,hs,rfl⟩ := mem_stages t hst
    cases p with
    | one x =>
      rw [List.mem_singleton.mp hw]
      exact hkeep s hs
    | two x v =>
      rcases List.mem_cons.mp hw with rfl | hw
      · exact hkeep s hs
      · rw [List.mem_singleton.mp hw]
        exact hquiet x v rfl s hs
  obtain ⟨hfits,hleft⟩ := leftAll_stays hwords
  refine ⟨hfits,fun q hq => ?_⟩
  rw [hleft] at hq
  cases hq
  refine ⟨p,rfl,?_⟩
  cases p <;> exact List.mem_cons_self

/-- A flag whose value its extractor cannot read stays. -/
theorem unreadable_left {v : Word} (hm : optionOf (commandFor t.flags command) p.head = some m)
    (hfits : valueFits p.head m = true) (hnext : m.needsNext = true ↔ ∃ w v, p = .two w v)
    (hname : m.flag.name ∈ implemented command) (hv : valueOf m p = some v)
    (hno : readable m.flag.name v = false)
    (hquiet : ∀ w v, p = .two w v → ∀ s ∈ named t.toFlagTable command, s.stage.read v = .keep) :
    FitsAll (stages t.toFlagTable command) p ∧
      ∀ q, leftAll (stages t.toFlagTable command) p = .ok q → ∃ q', q = some q' ∧ p.head ∈ q'.words := by
  have hcheck := checked_of_unreadable hno
  have hanswers := all_answer t hm hfits hname fun hfetch => absurd hfetch (checked_not_fetch _ hcheck)
  have hrefuse : ∀ s ∈ named t.toFlagTable command,
      s.stage.read p.head = .keep ∨ Refuses s.stage p ∧ m.flag.name ∈ s.values := by
    intro s hs
    obtain ⟨hswitch,hne⟩ := (readNames_table _).checked s.names (names_of_mem hs) _ hcheck
    exact answers_refused (hanswers s hs) (shaped t hm hfits hnext hs) hv hno hswitch hne
  cases p with
  | one w => exact unknown_left t (fun s hs => (hrefuse s hs).resolve_right And.left) hquiet
  | two w v' =>
    refine leftAll_refused ?_ ?_ ?_
    · intro st hst
      obtain ⟨s,hs,rfl⟩ := mem_stages t hst
      exact hquiet w v' rfl s hs
    · intro st hst
      obtain ⟨s,hs,rfl⟩ := mem_stages t hst
      exact (hrefuse s hs).imp_right fun h => .inl h.1
    · rw [stages, List.pairwise_map]
      have hapart := (readNames_table (command = "run")).apart
      rw [← named_names t.toFlagTable command, List.pairwise_map] at hapart
      refine hapart.imp_of_mem fun {a b} ha hb hab => ?_
      rcases hrefuse a ha with hkeep | ⟨-,hmem⟩
      · exact .inl hkeep
      · exact .inr ((hrefuse b hb).resolve_right fun h => hab _ hmem h.2)

/-- An option that the gate lets through and that no extractor takes stays. -/
theorem untaken_left (hm : optionOf (commandFor t.flags command) p.head = some m)
    (hfits : valueFits p.head m = true) (hnext : m.needsNext = true ↔ ∃ w v, p = .two w v)
    (hname : m.flag.name ∈ implemented command) (hno : taken m p = false)
    (hquiet : ∀ w v, p = .two w v → ∀ s ∈ named t.toFlagTable command, s.stage.read v = .keep)
    (hlinks : m.flag.name = symlinksFlag → m.value ≠ none) :
    FitsAll (stages t.toFlagTable command) p ∧
      ∀ q, leftAll (stages t.toFlagTable command) p = .ok q → ∃ q', q = some q' ∧ p.head ∈ q'.words := by
  by_cases halias : m.flag.name = "flag_alias"
  · have hfetch : m.flag.name ∉ fetchImplemented := by
      rw [halias]
      decide
    refine unknown_left t (fun s hs => ?_) hquiet
    have hnames := (readNames_table _).aliases s.names (names_of_mem hs)
    rw [← halias] at hnames
    exact answers_keep (all_answer t hm hfits hname (fun h => absurd h hfetch) s hs) hnames.1 hnames.2
  by_cases hown : m.flag.name ∈ fetchImplemented → byOwnName p.head m = true
  · cases hv : valueOf m p with
    | some v =>
      refine unreadable_left t hm hfits hnext hname hv ?_ hquiet
      rw [← Bool.not_eq_true]
      intro hread
      refine Bool.eq_false_iff.mp hno (taken_iff.mpr ⟨halias,hown,fun v' hv' => ?_,fun h => ?_⟩)
      · rw [hv, Option.some.injEq] at hv'
        rwa [← hv']
      · rw [hv] at h
        cases h
    | none =>
      refine absurd (taken_iff.mpr ⟨halias,hown,fun v' hv' => ?_,fun _ => ⟨?_,fun hlink => ?_⟩⟩)
        (Bool.eq_false_iff.mp hno)
      · rw [hv] at hv'
        cases hv'
      · rw [Bool.eq_false_iff]
        intro hneeds
        obtain ⟨w,v,rfl⟩ := hnext.mp hneeds
        cases hvalue : m.value with
        | none =>
          unfold valueOf at hv
          rw [hvalue] at hv
          cases hv
        | some v' =>
          rw [valueOf_attached hvalue] at hv
          cases hv
      · refine hlinks hlink ?_
        cases hvalue : m.value with
        | none => rfl
        | some v' =>
          rw [valueOf_attached hvalue] at hv
          cases hv
  · rw [Classical.not_imp, Bool.not_eq_true] at hown
    exact unknown_left t (foreign_kept t hm hfits hname hown.1 hown.2) hquiet

end Untaken

section Left
variable (t : BuildTable) {command : String} {ws rest : List Word}

/-- What is left of a piece that is understood does not begin with `-`. -/
theorem understood_left {p : Piece Word} (hp : p ∈ reading (commandFor t.flags command) ws)
    (h : understood t command p = true) : FitsAll (stages t.toFlagTable command) p ∧
      ∀ q, leftAll (stages t.toFlagTable command) p = .ok q →
        ∀ w ∈ q.toList.flatMap Piece.words, w.head? ≠ some '-' := by
  unfold understood at h
  split at h
  · next hnone =>
    rw [reading_one hp hnone]
    rw [Bool.or_eq_true, decide_eq_true_iff] at h
    rcases h with hbare | hstarlark
    · obtain ⟨hfits,hleft⟩ := bare_left t command hbare
      refine ⟨hfits,fun q hq w hw => ?_⟩
      rw [hleft] at hq
      cases hq
      rw [List.mem_singleton.mp hw]
      exact hbare
    · obtain ⟨hfits,hleft⟩ := starlark_left t command hstarlark
      refine ⟨hfits,fun q hq w hw => ?_⟩
      rw [hleft] at hq
      cases hq
      cases hw
  · next m hm =>
    rw [Bool.and_eq_true, Bool.and_eq_true, Bool.and_eq_true, List.contains_iff_mem] at h
    obtain ⟨⟨⟨hname,hfits⟩,htaken⟩,hunread⟩ := h
    obtain ⟨hall,hgone⟩ := understood_taken t hp hm hname hfits htaken (by
      rintro w v rfl
      exact hunread)
    refine ⟨hall,fun q hq w hw => ?_⟩
    rw [hgone q hq] at hw
    cases hw

/-- What is left, piece by piece, if every piece fits. -/
theorem left_pieces (hfits : ∀ p ∈ reading (commandFor t.flags command) ws,
      FitsAll (stages t.toFlagTable command) p)
    (hthrough : through (stages t.toFlagTable command) ws = .ok rest) :
    ∃ qs, List.Forall₂ (fun p q => leftAll (stages t.toFlagTable command) p = .ok q)
        (reading (commandFor t.flags command) ws) qs ∧
      rest = (qs.flatMap Option.toList).flatMap Piece.words := by
  rw [← reading_words (r := commandFor t.flags command) ws] at hthrough
  exact through_pieces hfits hthrough

theorem no_dash_left (h : ∀ p ∈ reading (commandFor t.flags command) ws, understood t command p = true)
    (hthrough : through (stages t.toFlagTable command) ws = .ok rest) :
    ∀ w ∈ rest, w.head? ≠ some '-' := by
  obtain ⟨qs,hqs,rfl⟩ := left_pieces t (fun p hp => (understood_left t hp (h p hp)).1) hthrough
  intro w hw
  rw [List.flatMap_assoc] at hw
  obtain ⟨q,hq,hw⟩ := List.mem_flatMap.mp hw
  obtain ⟨p,hp,hleft⟩ := mem_right hqs hq
  exact (understood_left t hp (h p hp)).2 q hleft w hw

end Left

section Words
variable {t : FlagTable} {command : String} {P : Word → Prop}

theorem cons_map_ok {α E : Type} {r : Except E (List α)} {w : α} {out : List α}
    (h : r.map (w::·) = .ok out) : ∃ later, r = .ok later ∧ out = w::later := by
  cases r with
  | error e => cases h
  | ok later =>
    cases h
    exact ⟨later,rfl,rfl⟩

theorem switchWords_all (hoption : ∀ body, P ('-':: '-'::body)) {flag : FlagInfo} {arg name : Word}
    {value : Option Word} {out : List Word} (h : switchWords flag arg name value = .ok out) (harg : P arg) :
    ∀ w ∈ out, P w := by
  unfold switchWords at h
  split at h
  · cases h
    exact List.forall_mem_singleton.mpr harg
  split at h
  · split at h
    · cases h
      refine List.forall_mem_singleton.mpr ?_
      split <;> exact hoption _
    · cases h
      exact List.forall_mem_singleton.mpr harg
  · split at h
    · cases h
      exact List.forall_mem_nil _
    · cases h

theorem enumWord_all (hoption : ∀ body, P ('-':: '-'::body)) {arg name w : Word} {value : Option Word}
    (h : enumWord arg name value = .ok w) (harg : P arg) : P w := by
  unfold enumWord at h
  split at h
  · cases h
    exact harg
  split at h
  · split at h
    · cases h
      exact hoption _
    split at h
    · cases h
      exact hoption _
    split at h
    · cases h
      exact hoption _
    · cases h
  · cases h
    exact harg

/-- What is not written as it was is an option. -/
theorem normalize_all (hoption : ∀ body, P ('-':: '-'::body)) {args out : List Word}
    (h : normalize t command args = .ok out) (hargs : ∀ w ∈ args, P w) : ∀ w ∈ out, P w := by
  fun_induction normalize t command args generalizing out with
  | case1 =>
    cases h
    exact hargs
  | case2 =>
    cases h
    exact hargs
  | case3 arg args _ _ ih =>
    obtain ⟨later,hlater,rfl⟩ := cons_map_ok h
    obtain ⟨harg,hrest⟩ := List.forall_mem_cons.mp hargs
    exact List.forall_mem_cons.mpr ⟨harg,ih hlater hrest⟩
  | case4 arg args _ _ _ _ _ _ _ ih =>
    obtain ⟨⟨⟩,-,h⟩ := bind_ok.mp h
    obtain ⟨later,hlater,rfl⟩ := cons_map_ok h
    obtain ⟨harg,hrest⟩ := List.forall_mem_cons.mp hargs
    exact List.forall_mem_cons.mpr ⟨harg,ih hlater hrest⟩
  | case5 arg args _ _ _ _ _ _ _ _ _ ih =>
    obtain ⟨written,hwritten,h⟩ := bind_ok.mp h
    obtain ⟨harg,hrest⟩ := List.forall_mem_cons.mp hargs
    cases hlater : normalize t command args with
    | error e =>
      rw [hlater] at h
      cases h
    | ok later =>
      rw [hlater] at h
      cases h
      exact List.forall_mem_append.mpr ⟨switchWords_all hoption hwritten harg,ih hlater hrest⟩
  | case6 arg args _ _ _ _ _ _ _ _ _ _ ih =>
    obtain ⟨written,hwritten,h⟩ := bind_ok.mp h
    obtain ⟨later,hlater,rfl⟩ := cons_map_ok h
    obtain ⟨harg,hrest⟩ := List.forall_mem_cons.mp hargs
    exact List.forall_mem_cons.mpr ⟨enumWord_all hoption hwritten harg,ih hlater hrest⟩
  | case7 arg args _ _ _ _ _ _ _ _ _ _ _ ih =>
    obtain ⟨⟨⟩,-,h⟩ := bind_ok.mp h
    obtain ⟨later,hlater,rfl⟩ := cons_map_ok h
    obtain ⟨harg,hrest⟩ := List.forall_mem_cons.mp hargs
    exact List.forall_mem_cons.mpr ⟨harg,ih hlater hrest⟩
  | case8 =>
    cases h
    exact hargs
  | case9 arg _ _ _ _ _ _ _ _ _ next args _ ih =>
    obtain ⟨⟨⟩,-,h⟩ := bind_ok.mp h
    cases hlater : normalize t command args with
    | error e =>
      rw [hlater] at h
      cases h
    | ok later =>
      rw [hlater] at h
      cases h
      obtain ⟨harg,hrest⟩ := List.forall_mem_cons.mp hargs
      obtain ⟨hnext,hrest⟩ := List.forall_mem_cons.mp hrest
      exact List.forall_mem_cons.mpr ⟨harg,List.forall_mem_cons.mpr ⟨hnext,ih hlater hrest⟩⟩
  | case10 arg args _ _ _ _ _ _ _ _ _ _ _ ih =>
    obtain ⟨later,hlater,rfl⟩ := cons_map_ok h
    obtain ⟨harg,hrest⟩ := List.forall_mem_cons.mp hargs
    exact List.forall_mem_cons.mpr ⟨harg,ih hlater hrest⟩

theorem applyAlias_all (hoption : ∀ body, P ('-':: '-'::body)) {aliases : AliasTable} {arg : Word}
    (harg : P arg) : P (applyAlias aliases arg) := by
  unfold applyAlias
  split
  · dsimp only
    split
    · split <;> exact hoption _
    · exact harg
  · exact harg

/-- No word that comes to the gate looks like a negative pattern. -/
theorem optionWords_positive {before ws : List Word} {aliases : AliasTable}
    (h : optionWords t command before = .ok (aliases,ws)) :
    ∀ w ∈ ws, looksLikeNegativePattern w = false := by
  have hoption : ∀ body, looksLikeNegativePattern ('-':: '-'::body) = false := fun _ => rfl
  rw [optionWords] at h
  obtain ⟨⟨⟩,hchecked,h⟩ := bind_ok.mp h
  obtain ⟨written,hwritten,h⟩ := bind_ok.mp h
  obtain ⟨⟨aliases',rest⟩,hrest,h⟩ := bind_ok.mp h
  cases pure_ok.mp h
  have hbefore : ∀ w ∈ before, looksLikeNegativePattern w = false := by
    rw [checkNegative] at hchecked
    split at hchecked
    · cases hchecked
    · next hnone =>
      intro w hw
      exact Bool.eq_false_iff.mpr (List.find?_eq_none.mp hnone w hw)
  have hall := normalize_all hoption hwritten hbefore
  intro w hw
  obtain ⟨x,hx,rfl⟩ := List.mem_map.mp hw
  exact applyAlias_all (P := fun w => looksLikeNegativePattern w = false) hoption
    (hall x (scan_subset hrest x hx))

end Words

section Options
variable (t : BuildTable) {command : String} {ws rest : List Word}

theorem head_mem {p : Piece Word} : p.head ∈ p.words := by
  cases p <;> exact List.mem_cons_self

theorem value_mem {r : Registered} {w v : Word} (h : .two w v ∈ reading r ws) : v ∈ ws := by
  rw [← reading_words (r := r) ws]
  exact List.mem_flatMap.mpr ⟨_,h,List.mem_cons_of_mem _ List.mem_cons_self⟩

/-- A value that no extractor reads is checked by the gate. -/
theorem plain_direct (hplain : Plain t command ws) (hpositive : ∀ w ∈ ws, looksLikeNegativePattern w = false) :
    ∀ w v, .two w v ∈ reading (commandFor t.flags command) ws → skipped v = false := by
  intro w v h
  rw [skipped, hpositive v (value_mem h), Bool.false_or, Bool.eq_false_iff]
  intro hstarlark
  obtain ⟨f,hf⟩ := readBuild_starlark t command hstarlark
  have hkeep := hplain.values w v h _ (by rw [named]; exact List.mem_cons_self)
  change readBuild t.toFlagTable command v = .keep at hkeep
  rw [hf] at hkeep
  cases hkeep

/-- Each piece is understood, or its word is left. -/
theorem understood_or_left (hplain : Plain t command ws)
    (hpositive : ∀ w ∈ ws, looksLikeNegativePattern w = false)
    (hvalid : validate t.flags command (implemented command) ws = .ok ()) {p : Piece Word}
    (hp : p ∈ reading (commandFor t.flags command) ws) : understood t command p = true ∨
      p.head.head? = some '-' ∧ FitsAll (stages t.toFlagTable command) p ∧
        ∀ q, leftAll (stages t.toFlagTable command) p = .ok q → ∃ q', q = some q' ∧ p.head ∈ q'.words := by
  have hwords : p.head ∈ ws := by
    rw [← reading_words (r := commandFor t.flags command) ws]
    exact List.mem_flatMap.mpr ⟨p,hp,head_mem⟩
  rcases passed_of_validate (plain_direct t hplain hpositive) hvalid p hp with
    hbare | hskip | ⟨m,hm,hname,hfits,hnext⟩
  · left
    have hnone : optionOf (commandFor t.flags command) p.head = none := if_pos (.inl hbare)
    unfold understood
    rw [hnone]
    dsimp only
    rw [decide_eq_true hbare, Bool.true_or]
  · left
    have hnone : optionOf (commandFor t.flags command) p.head = none := if_pos (.inr hskip)
    rw [skipped, hpositive _ hwords, Bool.false_or] at hskip
    unfold understood
    rw [hnone]
    dsimp only
    rw [hskip, Bool.or_true]
  · have hquiet : ∀ w v, p = .two w v → ∀ s ∈ named t.toFlagTable command, s.stage.read v = .keep := by
      rintro w v rfl
      exact hplain.values w v hp
    cases htaken : taken m p with
    | true =>
      left
      unfold understood
      rw [hm]
      dsimp only
      rw [List.contains_iff_mem.mpr hname, hfits, htaken, Bool.true_and, Bool.true_and, Bool.true_and]
      cases p with
      | one w => rfl
      | two w v =>
        refine unread_of_kept fun st hst => ?_
        obtain ⟨s,hs,rfl⟩ := mem_stages t hst
        exact hquiet w v rfl s hs
    | false =>
      refine .inr ⟨(optionOf_some hm).1,?_⟩
      exact untaken_left t hm hfits hnext hname htaken hquiet (hplain.symlinks p hp m hm)

theorem understood_of_no_dash (hplain : Plain t command ws)
    (hpositive : ∀ w ∈ ws, looksLikeNegativePattern w = false)
    (hvalid : validate t.flags command (implemented command) ws = .ok ())
    (hthrough : through (stages t.toFlagTable command) ws = .ok rest)
    (hrest : ∀ w ∈ rest, w.head? ≠ some '-') :
    ∀ p ∈ reading (commandFor t.flags command) ws, understood t command p = true := by
  have hfits : ∀ p ∈ reading (commandFor t.flags command) ws, FitsAll (stages t.toFlagTable command) p := by
    intro p hp
    rcases understood_or_left t hplain hpositive hvalid hp with h | ⟨-,h,-⟩
    · exact (understood_left t hp h).1
    · exact h
  obtain ⟨qs,hqs,rfl⟩ := left_pieces t hfits hthrough
  intro p hp
  refine (understood_or_left t hplain hpositive hvalid hp).resolve_right ?_
  rintro ⟨hdash,-,hleft⟩
  obtain ⟨q,hq,hpq⟩ := Scan.mem_left hqs hp
  obtain ⟨q',rfl,hmem⟩ := hleft q hpq
  refine hrest p.head (List.mem_flatMap.mpr ⟨q',?_,hmem⟩) hdash
  exact List.mem_flatMap.mpr ⟨some q',hq,List.mem_singleton_self _⟩

/-- If every option is understood, none is left for the patterns. Where no value is a word that
an extractor reads, the others are. -/
theorem options_are_no_patterns {offset : Except Stop String} {before after : List Word}
    {req : BuildRequest} (h : buildMain t.toFlagTable command offset before after = .ok req) :
    ∃ ws, optionWords t.toFlagTable command before = .ok (req.aliases,ws) ∧
      ((∀ p ∈ reading (commandFor t.flags command) ws, understood t command p = true) →
        ∀ w ∈ req.rest, w.head? ≠ some '-') ∧
      (Plain t command ws → (∀ w ∈ req.rest, w.head? ≠ some '-') →
        ∀ p ∈ reading (commandFor t.flags command) ws, understood t command p = true) := by
  obtain ⟨ws,hwords,hvalid,hthrough⟩ := buildMain_through h
  refine ⟨ws,hwords,fun hall => no_dash_left t hall hthrough,fun hplain hrest => ?_⟩
  exact understood_of_no_dash t hplain (optionWords_positive hwords) hvalid hthrough hrest

def colorFlag : FlagInfo := ⟨"color",false,["build","run","test"],none,true,none,some "UseColor",["YES","NO","AUTO"]⟩

def colorTable : BuildTable where
  flags := [colorFlag]
  spellings := by decide
  abbreviations := by decide
  plain := by decide
  needed := by decide
  switches := by decide
  values := by decide
  symlinks := by decide
  oldNames := by decide

theorem options_are_no_patterns_color :
    ∃ req, buildMain colorTable.toFlagTable "build" (.ok "") ["--color=yes".toList,"//a".toList] [] = .ok req ∧
      ∀ w ∈ req.rest, w.head? ≠ some '-' := by
  have hok : (buildMain colorTable.toFlagTable "build" (.ok "") ["--color=yes".toList,"//a".toList]
      []).isOk = true := by decide +kernel
  cases h : buildMain colorTable.toFlagTable "build" (.ok "") ["--color=yes".toList,"//a".toList] [] with
  | error e =>
    rw [h] at hok
    cases hok
  | ok req =>
    obtain ⟨ws,hwords,hholds,-⟩ := options_are_no_patterns colorTable h
    have hsame : optionWords colorTable.toFlagTable "build" ["--color=yes".toList,"//a".toList] =
      .ok ([],["--color=yes".toList,"//a".toList]) := by decide +kernel
    rw [hsame] at hwords
    obtain ⟨-,rfl⟩ := Prod.mk.inj (Except.ok.inj hwords)
    exact ⟨req,rfl,hholds (by decide)⟩

/-- A color that there is not is put back, and is then a pattern that takes targets away. -/
theorem option_is_pattern :
    (buildMain colorTable.toFlagTable "build" (.ok "") ["--color=sometimes".toList,"//a".toList]
      []).toOption.map (fun req => (req.rest,req.patterns.map TargetPattern.negative)) =
      some (["--color=sometimes".toList,"//a".toList],[true,false]) := by
  decide +kernel

end Options

end BuildFiji.Flags
