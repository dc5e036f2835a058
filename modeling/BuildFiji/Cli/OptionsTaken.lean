import BuildFiji.Cli.BuildOptions

/-!
# Options that become patterns

An extractor that cannot read a value puts the flag back, and the flag is then a pattern
that begins with `-`. The same happens to a flag that no extractor knows by the name it was
written with, and to one whose value an earlier extractor took for a flag of its own.
-/

set_option autoImplicit false
set_option linter.all false

namespace BuildFiji.Flags

open BuildFiji.Scan

open BuildFiji.Graph (splitOnce)

section Condition

/-- What the extractors ask of a value before they take it. -/
def checks : List (String × (Word → Bool)) :=
  [("define",fun v => (splitOnce '=' v).isSome),
    ("auto_output_filter",fun v => (AutoOutputFilter.parse v).isSome),
    ("experimental_remote_cache_compression_threshold",fun v => (parseInt 64 v).isSome),
    ("bes_timeout",fun v => (parseBesDuration v).isSome),
    ("override_module",fun v => (splitOnce '=' v).isSome),
    ("color",fun v => (TriState.parse v).isSome),
    ("curses",fun v => (TriState.parse v).isSome)]

def readable (name : String) (value : Word) : Bool := ((checks.lookup name).map fun f => f value).getD true

/-- Whether the flag is written by its own name, or by `no` and its name. -/
def byOwnName (arg : Word) (m : FlagMatch) : Bool :=
  match arg with
  | '-':: '-'::body => (splitValue body).1 = if m.negated then negation m.flag.name else m.flag.name.toList
  | _ => false

def symlinksFlag : String := "experimental_convenience_symlinks"

/-- The value that is attached, or else the word that the flag needs. -/
def valueOf (m : FlagMatch) (p : Piece Word) : Option Word :=
  m.value <|> match p with
    | .one _ => none
    | .two _ v => some v

/-- Some extractor takes the flag, as it is written and with this value. -/
def taken (m : FlagMatch) (p : Piece Word) : Bool :=
  m.flag.name ≠ "flag_alias" && (!fetchImplemented.contains m.flag.name || byOwnName p.head m) &&
    match valueOf m p with
    | some v => readable m.flag.name v
    | none => !m.needsNext && m.flag.name ≠ symlinksFlag

def fetchKeys : List String := fetchSwitches.map Prod.fst ++ fetchValues.map Prod.fst

def switchFlags : List String :=
  buildFlags.switches.map Prod.fst ++ testFlags.switches.map Prod.fst ++
    diagnosticsFlags.switches.map Prod.fst ++ workspaceStatusFlags.switches.map Prod.fst ++
    miscFlags.switches.map Prod.fst ++ remoteFlags.switches.map Prod.fst ++
    besFlags.switches.map Prod.fst ++ bzlmodFlags.switches.map Prod.fst ++
    consoleFlags.switches.map Prod.fst ++ ["experimental_isolated_extension_usages"]

def valueFlags : List String :=
  (buildFlags.values.map Prod.fst).filter (· ≠ symlinksFlag) ++ testFlags.values.map Prod.fst ++
    runFlags.values.map Prod.fst ++ diagnosticsFlags.values.map Prod.fst ++
    workspaceStatusFlags.values.map Prod.fst ++ miscFlags.values.map Prod.fst ++
    outputFilterFlags.values.map Prod.fst ++ executionLogFlags.values.map Prod.fst ++
    remoteFlags.values.map Prod.fst ++ besFlags.values.map Prod.fst ++ bzlmodFlags.values.map Prod.fst ++
    consoleFlags.values.map Prod.fst ++ ["repository_cache","distdir","override_repository",
      "credential_helper","credential_helper_timeout","repo_env"]

/-- The table agrees with the extractors about which of their flags need a value, and no old
name is one that `fetch_command` looks for. -/
structure BuildTable extends FlagTable where
  switches : ∀ flag ∈ flags, flag.name ∈ switchFlags → flag.requiresValue = false
  values : ∀ flag ∈ flags, flag.name ∈ valueFlags → flag.requiresValue = true
  symlinks : ∀ flag ∈ flags, flag.name = symlinksFlag → flag.requiresValue = false
  oldNames : ∀ flag ∈ flags, ∀ old, flag.oldName = some old → old ∉ fetchKeys

end Condition

section Answers
variable {σ : Type}

/-- Which values are put back is known from the flag's name. -/
def Honest (name : String) (set : Word → Except Stop (Option (σ → σ))) : Prop :=
  ∀ v, set v = .ok none ↔ readable name v = false

/-- What an extractor with these flags does at a word for the flag. -/
inductive Answers (switches values : List String) (m : FlagMatch) : Reading σ Word Stop → Prop where
  | keep : m.flag.name ∉ switches → m.flag.name ∉ values → Answers switches values m .keep
  | switch (f : σ → σ) : m.flag.name ∈ switches → Answers switches values m (.drop f)
  | attached (v : Word) (set : Word → Except Stop (Option (σ → σ))) : m.flag.name ∈ values →
      m.value = some v → Honest m.flag.name set → Answers switches values m (.attached v set)
  | next (missing : Except Stop (Option Word)) (set : Word → Except Stop (Option (σ → σ))) :
      m.flag.name ∈ values → m.value = none → Honest m.flag.name set →
      Answers switches values m (.next missing set)

theorem not_mem_of_lookup {α β : Type} [BEq α] [LawfulBEq α] {k : α} {l : List (α × β)}
    (h : l.lookup k = none) : k ∉ l.map Prod.fst := by
  induction l with
  | nil => exact List.not_mem_nil
  | cons e l ih =>
    rw [List.lookup_cons] at h
    split at h
    · cases h
    · next hk =>
      rw [List.map_cons, List.mem_cons, not_or]
      exact ⟨beq_eq_false_iff_ne.mp hk,ih h⟩

theorem take_answers {x : Extractor σ} (hhonest : ∀ e ∈ x.values, Honest e.1 e.2) (arg : Word)
    (m : FlagMatch) : Answers (x.switches.map Prod.fst) (x.values.map Prod.fst) m (x.take arg m) := by
  rw [Extractor.take]
  cases hs : x.switches.lookup m.flag.name with
  | some set => exact .switch _ (List.mem_map_of_mem (mem_of_lookup hs))
  | none =>
    cases hv : x.values.lookup m.flag.name with
    | none => exact .keep (not_mem_of_lookup hs) (not_mem_of_lookup hv)
    | some set =>
      have hmem := mem_of_lookup hv
      cases hvalue : m.value with
      | some v => exact .attached v set (List.mem_map_of_mem hmem) hvalue (hhonest _ hmem)
      | none => exact .next _ set (List.mem_map_of_mem hmem) hvalue (hhonest _ hmem)

theorem honest_always {name : String} (h : checks.lookup name = none) (set : Word → σ → σ) :
    Honest name (always set) := by
  intro v
  rw [readable, h]
  simp [always]

theorem honest_ifRead {β : Type} {name : String} {read : Word → Option β} {check : Word → Bool}
    (h : checks.lookup name = some check) (hcheck : ∀ v, check v = (read v).isSome) (set : β → σ → σ) :
    Honest name (ifRead read set) := by
  intro v
  rw [readable, h, Option.map_some, Option.getD_some, hcheck, ifRead]
  cases read v <;> simp

theorem honest_error {name : String} (h : checks.lookup name = none)
    {set : Word → Except Stop (Option (σ → σ))} (hset : ∀ v, set v ≠ .ok none) : Honest name set := by
  intro v
  rw [readable, h]
  simpa using hset v

end Answers

section Honest

theorem buildFlags_honest : ∀ e ∈ buildFlags.values, Honest e.1 e.2 := by
  have hlabels : ∀ name ∈ labelOptions ++ stringOptions, checks.lookup name = none := by decide
  have hlists : ∀ name ∈ listOptions, checks.lookup name = none := by decide
  intro e he
  rw [buildFlags, List.mem_append, List.mem_append] at he
  rcases he with (he | he) | he
  · simp only [List.mem_cons, List.not_mem_nil, or_false] at he
    rcases he with rfl | rfl | rfl | rfl | rfl | rfl | rfl | rfl | rfl | rfl | rfl | rfl | rfl | rfl |
      rfl | rfl | rfl | rfl | rfl <;>
    first | exact honest_always (by decide) _ | exact honest_ifRead rfl (fun _ => rfl) _
  · obtain ⟨name,hname,rfl⟩ := List.mem_map.mp he
    exact honest_always (hlabels name hname) _
  · obtain ⟨name,hname,rfl⟩ := List.mem_map.mp he
    exact honest_always (hlists name hname) _

theorem testFlags_honest : ∀ e ∈ testFlags.values, Honest e.1 e.2 := by
  intro e he
  simp only [testFlags, List.mem_cons, List.not_mem_nil, or_false] at he
  rcases he with rfl | rfl | rfl
  · refine honest_error (by decide) fun v => ?_
    dsimp only [setTestOutput]
    repeat' split
    all_goals
      intro h
      cases h
  · exact honest_always (by decide) _
  · exact honest_always (by decide) _

theorem runFlags_honest : ∀ e ∈ runFlags.values, Honest e.1 e.2 := by
  intro e he
  simp only [runFlags, List.mem_cons, List.not_mem_nil, or_false] at he
  rcases he with rfl | rfl
  · refine honest_error (by decide) fun v => ?_
    dsimp only [setRunUnder]
    split
    all_goals
      intro h
      cases h
  · exact honest_always (by decide) _

theorem diagnosticsFlags_honest : ∀ e ∈ diagnosticsFlags.values, Honest e.1 e.2 := by
  intro e he
  obtain rfl := List.mem_singleton.mp he
  exact honest_always (by decide) _

theorem workspaceStatusFlags_honest : ∀ e ∈ workspaceStatusFlags.values, Honest e.1 e.2 := by
  intro e he
  simp only [workspaceStatusFlags, List.mem_cons, List.not_mem_nil, or_false] at he
  rcases he with rfl | rfl <;> exact honest_always (by decide) _

theorem miscFlags_honest : ∀ e ∈ miscFlags.values, Honest e.1 e.2 := by
  intro e he
  obtain rfl := List.mem_singleton.mp he
  exact honest_always (by decide) _

theorem outputFilterFlags_honest : ∀ e ∈ outputFilterFlags.values, Honest e.1 e.2 := by
  intro e he
  simp only [outputFilterFlags, List.mem_cons, List.not_mem_nil, or_false] at he
  rcases he with rfl | rfl
  · exact honest_always (by decide) _
  · exact honest_ifRead rfl (fun _ => rfl) _

theorem executionLogFlags_honest : ∀ e ∈ executionLogFlags.values, Honest e.1 e.2 := by
  intro e he
  obtain rfl := List.mem_singleton.mp he
  exact honest_always (by decide) _

theorem remoteFlags_honest : ∀ e ∈ remoteFlags.values, Honest e.1 e.2 := by
  intro e he
  simp only [remoteFlags, List.mem_cons, List.not_mem_nil, or_false] at he
  rcases he with rfl | rfl
  · exact honest_always (by decide) _
  · exact honest_ifRead rfl (fun _ => rfl) _

theorem besFlags_honest : ∀ e ∈ besFlags.values, Honest e.1 e.2 := by
  intro e he
  simp only [besFlags, List.mem_cons, List.not_mem_nil, or_false] at he
  rcases he with rfl | rfl
  · exact honest_always (by decide) _
  · exact honest_ifRead rfl (fun _ => rfl) _

theorem bzlmodFlags_honest : ∀ e ∈ bzlmodFlags.values, Honest e.1 e.2 := by
  intro e he
  simp only [bzlmodFlags, List.mem_cons, List.not_mem_nil, or_false] at he
  rcases he with rfl | rfl | rfl | rfl
  · exact honest_always (by decide) _
  · exact honest_always (by decide) _
  · exact honest_always (by decide) _
  · exact honest_ifRead rfl (fun _ => rfl) _

theorem consoleFlags_honest : ∀ e ∈ consoleFlags.values, Honest e.1 e.2 := by
  intro e he
  simp only [consoleFlags, List.mem_cons, List.not_mem_nil, or_false] at he
  rcases he with rfl | rfl | rfl
  · exact honest_ifRead rfl (fun _ => rfl) _
  · exact honest_ifRead rfl (fun _ => rfl) _
  · exact honest_always (by decide) _

theorem orBad_honest {β : Type} {flag name : String} {read : Word → Except String β}
    {set : β → FetchFlags → FetchFlags} (h : checks.lookup name = none) :
    Honest name (orBad flag read set) := by
  refine honest_error h fun v => ?_
  rw [orBad]
  split
  all_goals exact fun h => nomatch h

theorem fetchValues_honest : ∀ e ∈ fetchValues, Honest e.1 e.2 := by
  intro e he
  simp only [fetchValues, List.mem_cons, List.not_mem_nil, or_false] at he
  rcases he with rfl | rfl | rfl | rfl | rfl | rfl | rfl | rfl <;>
    first | exact honest_always (by decide) _ | exact orBad_honest (by decide)

end Honest

section Stage
variable {st : Stage Word Stop} {switches values : List String} {m : FlagMatch} {p : Piece Word}

/-- What the gate and the table say of a piece. -/
structure Shaped (switches values : List String) (m : FlagMatch) (p : Piece Word) : Prop where
  next : m.needsNext = true ↔ ∃ w v, p = .two w v
  switch : m.flag.name ∈ switches → m.flag.requiresValue = false
  value : m.flag.name ∈ values → m.flag.name ≠ symlinksFlag →
    m.flag.requiresValue = true ∧ m.negated = false
  symlinks : m.flag.name = symlinksFlag → m.flag.requiresValue = false

theorem Shaped.one (h : Shaped switches values m p) (hno : m.needsNext = false) : p = .one p.head := by
  cases p with
  | one w => rfl
  | two w v =>
    rw [h.next.mpr ⟨w,v,rfl⟩] at hno
    cases hno

theorem needsNext_of_value {v : Word} (h : m.value = some v) : m.needsNext = false := by
  rw [FlagMatch.needsNext, h, Option.isNone_some, Bool.and_false]

theorem needsNext_of_switch (h : m.flag.requiresValue = false) : m.needsNext = false := by
  rw [FlagMatch.needsNext, h, Bool.and_false, Bool.false_and]

theorem Shaped.two (h : Shaped switches values m p) (hmem : m.flag.name ∈ values)
    (hne : m.flag.name ≠ symlinksFlag) (hvalue : m.value = none) :
    ∃ v, p = .two p.head v ∧ valueOf m p = some v := by
  obtain ⟨hneeds,hnegated⟩ := h.value hmem hne
  obtain ⟨w,v,rfl⟩ := h.next.mp (by rw [FlagMatch.needsNext, hneeds, hnegated, hvalue]; rfl)
  exact ⟨v,rfl,by rw [valueOf, hvalue]; rfl⟩

theorem valueOf_attached {v : Word} (h : m.value = some v) : valueOf m p = some v := by
  unfold valueOf
  rw [h]
  rfl

/-- A flag that is read is taken, or is an error, where its value can be read. -/
theorem answers_taken (ha : Answers switches values m (st.read p.head)) (hp : Shaped switches values m p)
    (hread : ∀ v, valueOf m p = some v → readable m.flag.name v = true)
    (hbare : valueOf m p = none → m.flag.name ≠ symlinksFlag) :
    st.read p.head = .keep ∧ m.flag.name ∉ switches ∧ m.flag.name ∉ values ∨
      Takes st p ∨ Fails st p := by
  generalize hr : st.read p.head = r at ha
  cases ha with
  | keep hs hv => exact .inl ⟨rfl,hs,hv⟩
  | switch f hs =>
    have hone := hp.one (needsNext_of_switch (hp.switch hs))
    rw [hone]
    exact .inr (.inl ⟨f,hr⟩)
  | attached v set hmem hvalue hhonest =>
    have hone := hp.one (needsNext_of_value hvalue)
    have hok := hread v (valueOf_attached hvalue)
    rw [hone]
    rw [Reading.attached] at hr
    cases hset : set v with
    | error e =>
      rw [hset] at hr
      exact .inr (.inr ⟨e,hr⟩)
    | ok f =>
      cases f with
      | none =>
        rw [(hhonest v).mp hset] at hok
        cases hok
      | some f =>
        rw [hset] at hr
        exact .inr (.inl ⟨f,hr⟩)
  | next missing set hmem hvalue hhonest =>
    by_cases hname : m.flag.name = symlinksFlag
    · have hone := hp.one (needsNext_of_switch (hp.symlinks hname))
      refine absurd hname (hbare ?_)
      unfold valueOf
      rw [hvalue, hone]
      rfl
    obtain ⟨v,htwo,hv⟩ := hp.two hmem hname hvalue
    have hok := hread v hv
    rw [htwo]
    cases hset : set v with
    | error e => exact .inr (.inr (.inr ⟨missing,set,e,hr,hset⟩))
    | ok f =>
      cases f with
      | none =>
        rw [(hhonest v).mp hset] at hok
        cases hok
      | some f => exact .inr (.inl ⟨missing,set,f,hr,hset⟩)

/-- A flag whose value cannot be read is put back. -/
theorem answers_refused (ha : Answers switches values m (st.read p.head)) (hp : Shaped switches values m p)
    {v : Word} (hv : valueOf m p = some v) (hno : readable m.flag.name v = false)
    (hswitch : m.flag.name ∉ switches) (hne : m.flag.name ≠ symlinksFlag) :
    st.read p.head = .keep ∨ Refuses st p ∧ m.flag.name ∈ values := by
  generalize hr : st.read p.head = r at ha
  cases ha with
  | keep hs hv => exact .inl rfl
  | switch f hs => exact absurd hs hswitch
  | attached v' set hmem hvalue hhonest =>
    rw [valueOf_attached hvalue, Option.some.injEq] at hv
    rw [Reading.attached, hv, (hhonest v).mpr hno]
    exact .inl rfl
  | next missing set hmem hvalue hhonest =>
    obtain ⟨v',htwo,hv'⟩ := hp.two hmem hne hvalue
    rw [hv, Option.some.injEq] at hv'
    rw [htwo, ← hv']
    exact .inr ⟨⟨missing,set,hr,(hhonest v).mpr hno⟩,hmem⟩

end Stage

section Reads
variable (t : BuildTable) {command : String} {arg : Word} {m : FlagMatch}

theorem splitValue_head {c : Char} {rest : Word} (hc : c ≠ '=') :
    splitValue (c::rest) = (c::(splitValue rest).1,(splitValue rest).2) := by
  rw [splitValue, splitOnce, if_neg hc, splitValue]
  cases splitOnce '=' rest <;> rfl

/-- What one of the flags is written as. -/
theorem spelled (hm : registeredFlag (commandFor t.flags command) arg = some m) :
    (∃ body, arg = '-':: '-'::body ∧ m.value = (splitValue body).2 ∧ m.flag ∈ t.flags ∧
      (m.negated = false ∧ (splitValue body).1 ∈ m.flag.names ∨
        m.negated = true ∧ m.flag.hasNegativeFlag = true ∧ (splitValue body).1 = negation m.flag.name)) ∨
    ∃ c rest, arg = '-'::c::rest ∧ c ≠ '-' ∧ m.negated = false := by
  have hfrom := commandFor_fromTable t.flags command
  unfold registeredFlag at hm
  split at hm
  · next body =>
    obtain ⟨e,he,rfl⟩ := Option.map_eq_some_iff.mp hm
    obtain ⟨hmem,hspelled⟩ := hfrom.longs _ (mem_of_lookup he)
    exact .inl ⟨body,rfl,rfl,(List.mem_filter.mp hmem).1,hspelled⟩
  · next c rest hlong =>
    obtain ⟨flag,hflag,rfl⟩ := Option.map_eq_some_iff.mp hm
    exact .inr ⟨c,rest,rfl,fun hc => hlong hc,rfl⟩
  · cases hm

theorem startsLabel_iff {body : Word} :
    startsLabel body = true ↔ (∃ rest, body = '/':: '/'::rest) ∨ ∃ rest, body = '@'::rest := by
  rw [startsLabel, Bool.or_eq_true, List.isPrefixOf_iff_prefix, List.isPrefixOf_iff_prefix]
  constructor
  · rintro (⟨rest,h⟩ | ⟨rest,h⟩)
    · exact .inl ⟨rest,h.symm⟩
    · exact .inr ⟨rest,h.symm⟩
  · rintro (⟨rest,h⟩ | ⟨rest,h⟩)
    · exact .inl ⟨rest,h.symm⟩
    · exact .inr ⟨rest,h.symm⟩

/-- The name of a flag does not look like a label. -/
theorem starlarkFlag_none (hm : optionOf (commandFor t.flags command) arg = some m) :
    starlarkFlag arg = none := by
  obtain ⟨-,hskip,hregistered⟩ := optionOf_some hm
  rcases spelled t hregistered with ⟨body,rfl,-,hf,hspelled⟩ | ⟨c,rest,rfl,hc,-⟩
  · have hlabel : startsLabel body = false := by
      rw [Bool.eq_false_iff]
      intro hstarts
      rw [skipped, Bool.or_eq_false_iff] at hskip
      rcases startsLabel_iff.mp hstarts with ⟨rest,rfl⟩ | ⟨rest,rfl⟩
      · exact Bool.noConfusion hskip.2
      · exact Bool.noConfusion hskip.2
    have hno : (stripNo body).filter startsLabel = none := by
      rw [Option.filter_eq_none_iff]
      intro rest hrest hstarts
      obtain ⟨c,later,rfl,hc⟩ : ∃ c later, rest = c::later ∧ (c = '/' ∨ c = '@') := by
        rcases startsLabel_iff.mp hstarts with ⟨later,rfl⟩ | ⟨later,rfl⟩
        · exact ⟨_,_,rfl,.inl rfl⟩
        · exact ⟨_,_,rfl,.inr rfl⟩
      obtain rfl : body = 'n':: 'o'::c::later := by
        unfold stripNo at hrest
        split at hrest
        · rw [Option.some.inj hrest]
        · cases hrest
      have hne : c ≠ '=' := by
        rcases hc with rfl | rfl <;> decide
      have hsplit : (splitValue ('n':: 'o'::c::later)).1 = 'n':: 'o'::c::(splitValue later).1 := by
        rw [splitValue_head (by decide), splitValue_head (by decide), splitValue_head hne]
      rw [hsplit] at hspelled
      rcases hspelled with ⟨-,hn⟩ | ⟨-,-,hn⟩
      · obtain ⟨hslash,hat⟩ := t.plain m.flag hf _ hn
        rcases hc with rfl | rfl
        · exact hslash (by simp)
        · exact hat (by simp)
      · obtain ⟨hslash,hat⟩ := t.plain m.flag hf _ List.mem_cons_self
        rw [negation, List.cons.injEq, List.cons.injEq] at hn
        rw [← hn.2.2] at hslash hat
        rcases hc with rfl | rfl
        · exact hslash List.mem_cons_self
        · exact hat List.mem_cons_self
    rw [starlarkFlag, hno, hlabel]
    rfl
  · unfold starlarkFlag
    split
    · next heq =>
      cases heq
      exact absurd rfl hc
    · rfl

end Reads

end BuildFiji.Flags
