import BuildFiji.Analysis.OutputDirs
import BuildFiji.Graph.LabelText

/-!
# Transitions read what they wrote

A setting is known by its own name: an option by the one it is written with, a build setting
by the text of its label once aliases are followed. A write under that name is what every read
of the setting gives, and no other setting is read otherwise than before.
-/

set_option autoImplicit false
set_option linter.all false

namespace BuildFiji.Analysis

open BuildFiji.Graph

/-- What a name of a `.bzl` is the name of. -/
inductive Setting where
  | option (name : String)
  | user (label : Label)
deriving DecidableEq

/-- What a configuration keeps the setting under. -/
def Setting.key : Setting → String
  | option name => name
  | user label => labelText label

def settingOf (ctx : Ctx) (name repo : String) : Except String Setting :=
  match optionName name with
  | some _ => .ok (.option name)
  | none => do return .user (← followAliases ctx (← settingLabel name repo))

/-- The name is the setting's own, and that of no alias of it. -/
def Own (ctx : Ctx) (name repo : String) : Prop :=
  (optionName name).isSome = true ∨ ∃ label, settingLabel name repo = .ok label ∧
    followAliases ctx label = .ok label ∧ labelText label = name

/-- A text is of the type of a setting that holds text; all else is kept as it is written. -/
def WellTyped (ctx : Ctx) (name repo : String) (value : SettingValue) : Prop :=
  ∀ label kind default, settingOf ctx name repo = .ok (.user label) →
    userDefault ctx label = .ok (kind,default) → typed kind value (labelText label) = .ok value

/-- One entry of what a transition returns, in the repo of its `.bzl`. -/
structure Write where
  name : String
  value : SettingValue
  repo : String
deriving DecidableEq

def writeAll (ctx : Ctx) (c : Configuration) (ws : List Write) : Except String Configuration :=
  ws.foldlM (fun c w => write ctx c w.name w.value w.repo) c

section Apply
variable (ctx : Ctx) (repo : String)

/-- What is said to be read, and the transition's function: for each split, what it changes. -/
structure TransitionPart where
  inputs : List String
  run : List (String × SettingValue) → Except String (List (String × List (String × SettingValue)))

def joinKeys (key split : String) : String :=
  if split = "" then key else if key = "" then split else key ++ "," ++ split

def applyPart (part : TransitionPart) (made : String × Configuration) :
    Except String (List (String × Configuration)) := do
  let settings ← part.inputs.mapM fun input => do return (input,← read ctx made.2 input repo)
  (← part.run settings).mapM fun outcome => do
    return (joinKeys made.1 outcome.1,
      ← writeAll ctx made.2 (outcome.2.map fun change => ⟨change.1,change.2,repo⟩))

/-- Each part of a composed transition runs on every configuration the one before made. -/
def apply (parts : List TransitionPart) (start : Configuration) :
    Except String (List (String × Configuration)) :=
  parts.foldlM (fun out part => do return (← out.mapM (applyPart ctx repo part)).flatten) [("",start)]

end Apply

section Read
variable {ctx : Ctx} {c c' : Configuration}

def Setting.read (ctx : Ctx) (c : Configuration) : Setting → Except String SettingValue
  | option name => readOption c name ((optionName name).getD "")
  | user label => do
    let (kind,default) ← userDefault ctx label
    match c.settings[labelText label]? with
    | some set => typed kind set (labelText label)
    | none => return default

theorem read_eq (name repo : String) :
    read ctx c name repo = settingOf ctx name repo >>= Setting.read ctx c := by
  unfold Analysis.read settingOf
  cases h : optionName name with
  | some option =>
    show readOption c name option = readOption c name ((optionName name).getD "")
    rw [h]
    rfl
  | none =>
    cases settingLabel name repo with
    | error e => rfl
    | ok label =>
      show settingIn ctx c label = _
      unfold settingIn
      cases hf : followAliases ctx label with
      | error e =>
        show _ = (followAliases ctx label >>= fun l => pure (Setting.user l)) >>= _
        rw [hf]
        rfl
      | ok l =>
        show _ = (followAliases ctx label >>= fun l => pure (Setting.user l)) >>= _
        rw [hf]
        rfl

theorem optionName_eq {name option : String} (h : optionName name = some option) :
    name = commandLineOption ++ option := by
  unfold optionName at h
  split at h
  · next hp =>
    obtain ⟨rest,hrest⟩ := List.isPrefixOf_iff_prefix.mp hp
    cases h
    rw [← String.toList_inj, String.toList_append, String.toList_ofList, ← hrest, List.drop_left]
  · cases h

end Read

section Effect
variable {ctx : Ctx} {c c' : Configuration} {name repo : String} {value original : SettingValue}

/-- The options that have a field of their own, and are never among those a transition changed. -/
def ownField (name : String) : Prop :=
  optionName name = some "compilation_mode" ∨ optionName name = some "cpu"

instance (name : String) : Decidable (ownField name) := by
  unfold ownField
  infer_instance

/-- What a write that changes something makes of the configuration. -/
inductive Effect (ctx : Ctx) (c : Configuration) (name repo : String) (value original : SettingValue) :
    Configuration → Prop
  | mode (mode : CompilationMode) (hn : optionName name = some "compilation_mode")
      (hv : value = .str mode.name) : Effect ctx c name repo value original { c with compilationMode := mode }
  | cpu (text : String) (hn : optionName name = some "cpu") (hv : value = .str text) :
      Effect ctx c name repo value original { c with cpu := text }
  | platforms (constraints : Labels) (label : Label) (hn : optionName name = some "platforms") :
      Effect ctx c name repo value original (note { c with
        constraints := constraints
        platform := some label
        settings := c.settings.insert name value } name original value)
  | listed (option : String) (default : SettingValue) (hn : optionName name = some option)
      (hf : ¬ ownField name) (hp : option ≠ "platforms") (hd : nativeDefault option = some default) :
      Effect ctx c name repo value original (note (setSetting c name default value) name original value)
  | user (label : Label) (kind : SettingKind) (default : SettingValue) (hn : optionName name = none)
      (hl : settingLabel name repo = .ok label) (hd : userDefault ctx label = .ok (kind,default)) :
      Effect ctx c name repo value original (note (setSetting c name default value) name original value)

theorem parse_name {text : String} {mode : CompilationMode} (h : CompilationMode.parse text = some mode) :
    text = mode.name := by
  unfold CompilationMode.parse at h
  split at h
  · cases h
    assumption
  · split at h
    · cases h
      assumption
    · split at h
      · cases h
        assumption
      · cases h

theorem nativeDefault_ownField {option : String} {default : SettingValue}
    (h : nativeDefault option = some default) : option ≠ "compilation_mode" ∧ option ≠ "cpu" := by
  constructor
  · rintro rfl
    exact absurd h (by simp [nativeDefault])
  · rintro rfl
    exact absurd h (by simp [nativeDefault])

theorem writeListed_effect {option : String} (hn : optionName name = some option)
    (h : writeListed ctx c name option value original = .ok c') :
    Effect ctx c name repo value original c' := by
  unfold writeListed at h
  split at h
  · next hp =>
    subst hp
    unfold writePlatforms at h
    split at h
    · simp only [Fallible.bind_ok, Fallible.pure_ok] at h
      obtain ⟨label,-,constraints,-,rfl⟩ := h
      exact .platforms constraints label hn
    · cases h
    · cases h
  · next hp =>
    split at h
    · cases h
    · next default hd =>
      cases h
      obtain ⟨hmode,hcpu⟩ := nativeDefault_ownField hd
      refine .listed option default hn ?_ hp hd
      rintro (hown | hown)
      · rw [hn] at hown
        exact hmode (Option.some.inj hown)
      · rw [hn] at hown
        exact hcpu (Option.some.inj hown)

theorem writeOption_effect {option : String} (hn : optionName name = some option)
    (h : writeOption ctx c name option value original = .ok c') :
    Effect ctx c name repo value original c' := by
  unfold writeOption at h
  split at h
  · next text =>
    split at h
    · next hmode =>
      subst hmode
      split at h
      · next mode hparse =>
        cases h
        exact .mode mode hn (congrArg SettingValue.str (parse_name hparse))
      · cases h
    · split at h
      · next hcpu =>
        subst hcpu
        cases h
        exact .cpu text hn rfl
      · exact writeListed_effect hn h
  · exact writeListed_effect hn h

/-- A write that succeeds finds the value there already, or has its effect. -/
theorem write_cases (h : write ctx c name value repo = .ok c') :
    ∃ before, read ctx c name repo = .ok before ∧ (before = value ∧ c' = c ∨
      before ≠ value ∧ Effect ctx c name repo value (c.affected[name]?.getD before) c') := by
  rw [write, Fallible.bind_ok] at h
  obtain ⟨before,hbefore,h⟩ := h
  refine ⟨before,hbefore,?_⟩
  split at h
  · next heq =>
    cases h
    exact .inl ⟨heq,rfl⟩
  · next hne =>
    refine .inr ⟨hne,?_⟩
    cases hn : optionName name with
    | some option =>
      rw [hn] at h
      exact writeOption_effect hn h
    | none =>
      rw [hn] at h
      simp only [Fallible.bind_ok, Fallible.pure_ok] at h
      obtain ⟨label,hl,default,hd,rfl⟩ := h
      exact .user label default.1 default.2 hn hl hd

theorem setSetting_get (default : SettingValue) :
    (setSetting c name default value).settings[name]? = if value = default then none else some value := by
  unfold setSetting
  dsimp only
  split
  · exact Std.ExtTreeMap.getElem?_erase_self
  · exact Std.ExtTreeMap.getElem?_insert_self

theorem setSetting_ne (default : SettingValue) {key : String} (h : key ≠ name) :
    (setSetting c name default value).settings[key]? = c.settings[key]? := by
  have hcmp : ¬ compare name key = .eq := by
    rw [Std.LawfulEqOrd.compare_eq_iff_eq]
    exact Ne.symm h
  unfold setSetting
  dsimp only
  split
  · rw [Std.ExtTreeMap.getElem?_erase, if_neg hcmp]
  · rw [Std.ExtTreeMap.getElem?_insert, if_neg hcmp]

theorem Effect.settings (h : Effect ctx c name repo value original c') {key : String} (hk : key ≠ name) :
    c'.settings[key]? = c.settings[key]? := by
  cases h with
  | mode => rfl
  | cpu => rfl
  | platforms =>
    have hcmp : ¬ compare name key = .eq := by
      rw [Std.LawfulEqOrd.compare_eq_iff_eq]
      exact Ne.symm hk
    show (c.settings.insert name value)[key]? = _
    rw [Std.ExtTreeMap.getElem?_insert, if_neg hcmp]
  | listed option default => exact setSetting_ne default hk
  | user label kind default => exact setSetting_ne default hk

theorem Effect.cpu_same (h : Effect ctx c name repo value original c') (hn : optionName name ≠ some "cpu") :
    c'.cpu = c.cpu := by
  cases h with
  | cpu _ hn' => exact absurd hn' hn
  | _ => rfl

theorem Effect.mode_same (h : Effect ctx c name repo value original c')
    (hn : optionName name ≠ some "compilation_mode") : c'.compilationMode = c.compilationMode := by
  cases h with
  | mode _ hn' => exact absurd hn' hn
  | _ => rfl

/-- The settings with another key read as before. -/
theorem Effect.frame (h : Effect ctx c name repo value original c') {s : Setting} (hs : s.key ≠ name) :
    s.read ctx c' = s.read ctx c := by
  cases s with
  | user label =>
    have hkey : c'.settings[labelText label]? = c.settings[labelText label]? := h.settings hs
    dsimp only [Setting.read]
    rw [hkey]
  | option n =>
    have hkey : c'.settings[n]? = c.settings[n]? := h.settings hs
    have hne : ∀ o, optionName n = some o → optionName name ≠ some o := by
      intro o hn hname
      exact hs ((optionName_eq hn).trans (optionName_eq hname).symm)
    dsimp only [Setting.read]
    unfold readOption
    rw [hkey]
    cases hn : optionName n with
    | none => rfl
    | some o =>
      dsimp only [Option.getD_some]
      split
      · next ho => rw [h.mode_same (hne _ (ho ▸ hn))]
      · split
        · next ho => rw [h.cpu_same (hne _ (ho ▸ hn))]
        · rfl

theorem Own.user (h : Own ctx name repo) (hn : optionName name = none) {label : Label}
    (hl : settingLabel name repo = .ok label) :
    settingOf ctx name repo = .ok (.user label) ∧ labelText label = name := by
  obtain hsome | ⟨l,hl',hf,htext⟩ := h
  · rw [hn] at hsome
    cases hsome
  · rw [hl] at hl'
    cases hl'
    refine ⟨?_,htext⟩
    unfold settingOf
    rw [hn, hl]
    show (followAliases ctx label >>= fun l => pure (Setting.user l)) = _
    rw [hf]
    rfl

theorem settingOf_option {option : String} (hn : optionName name = some option) :
    settingOf ctx name repo = .ok (.option name) := by
  unfold settingOf
  rw [hn]

/-- The setting reads as what was written to it. -/
theorem Effect.reads (h : Effect ctx c name repo value original c') (ho : Own ctx name repo)
    (ht : WellTyped ctx name repo value) {s : Setting} (hs : settingOf ctx name repo = .ok s) :
    s.read ctx c' = .ok value := by
  cases h with
  | mode mode hn hv =>
    rw [settingOf_option hn] at hs
    cases hs
    simp [Setting.read, readOption, hn, hv]
  | cpu text hn hv =>
    rw [settingOf_option hn] at hs
    cases hs
    simp [Setting.read, readOption, hn, hv]
  | platforms constraints label hn =>
    rw [settingOf_option hn] at hs
    cases hs
    simp [Setting.read, readOption, hn, note]
  | listed option default hn hf hp hd =>
    rw [settingOf_option hn] at hs
    cases hs
    obtain ⟨hmode,hcpu⟩ := nativeDefault_ownField hd
    have hdefine : option ≠ "define" := by
      rintro rfl
      exact absurd hd (by simp [nativeDefault])
    have hget : (note (setSetting c name default value) name original value).settings[name]? =
        if value = default then none else some value := setSetting_get default
    dsimp only [Setting.read]
    unfold readOption
    rw [hn, hget]
    simp only [Option.getD_some, hmode, hcpu, hp, hdefine, if_false, hd]
    by_cases heq : value = default
    · rw [if_pos heq, heq]
      rfl
    · rw [if_neg heq]
      rfl
  | user label kind default hn hl hd =>
    obtain ⟨hof,htext⟩ := ho.user hn hl
    rw [hof] at hs
    cases hs
    have hget : (note (setSetting c name default value) name original value).settings[name]? =
        if value = default then none else some value := setSetting_get default
    dsimp only [Setting.read]
    rw [hd, htext, hget]
    show (match (if value = default then none else some value) with
      | some set => typed kind set name
      | none => pure default) = _
    by_cases heq : value = default
    · rw [if_pos heq, heq]
      rfl
    · rw [if_neg heq]
      have := ht label kind default hof hd
      rw [htext] at this
      exact this

/-- The value the setting had at first is kept until it is set back to it. -/
theorem Effect.affected (h : Effect ctx c name repo value original c') : c'.affected =
    if ownField name then c.affected
    else if value = original then c.affected.erase name else c.affected.insert name original := by
  cases h with
  | mode mode hn hv => exact (if_pos (.inl hn)).symm
  | cpu text hn hv => exact (if_pos (.inr hn)).symm
  | platforms constraints label hn =>
    rw [if_neg]
    · rfl
    · simp [ownField, hn]
  | listed option default hn hf hp hd =>
    rw [if_neg hf]
    rfl
  | user label kind default hn hl hd =>
    rw [if_neg]
    · rfl
    · simp [ownField, hn]

end Effect

section Names
variable {ctx : Ctx} {name repo repo' : String} {label label' : Label}

/-- What a name that is a label's own text says of the label. -/
theorem settingLabel_own (h : settingLabel name repo = .ok label) (htext : labelText label = name) :
    ':' ∉ label.package.toList ∧
      ∀ r, (splitRepo name.toList).repo = some r → label.repo = .ofList r := by
  unfold settingLabel at h
  rw [Fallible.mapError_ok] at h
  obtain ⟨-,-,hpackage,-,-,hl⟩ := parseMapped_ok.mp h
  constructor
  · rw [hl, String.toList_ofList]
    intro hmem
    exact absurd (validatePackageName_char hpackage hmem) (by decide)
  · intro r hr
    rw [hl]
    simp [hr]

/-- Whatever the repo it is read in, a label's own text is the text of no other. -/
theorem settingLabel_own_inj (h : settingLabel name repo = .ok label) (htext : labelText label = name)
    (h' : settingLabel name repo' = .ok label') (htext' : labelText label' = name) : label = label' := by
  obtain ⟨hcolon,hrepo⟩ := settingLabel_own h htext
  obtain ⟨hcolon',hrepo'⟩ := settingLabel_own h' htext'
  have hlist := (labelText_toList label).symm.trans
    ((congrArg String.toList (htext.trans htext'.symm)).trans (labelText_toList label'))
  have hsame : label.repo = label'.repo := by
    have hname := (congrArg String.toList htext).symm.trans (labelText_toList label)
    by_cases hz : label.repo = ""
    · by_cases hz' : label'.repo = ""
      · rw [hz, hz']
      · rw [if_pos hz, if_neg hz'] at hlist
        simp at hlist
    · rw [if_neg hz] at hname
      obtain ⟨r,hr⟩ := splitRepo_at ('@' :: (label.repo.toList ++
        '/' :: '/' :: (label.package.toList ++ ':'::label.name.toList)))
      have hsplit : (splitRepo name.toList).repo = some r := by
        rw [hname]
        exact hr
      rw [hrepo r hsplit, hrepo' r hsplit]
  rw [hsame] at hlist
  have hrest := List.append_cancel_left hlist
  simp only [List.cons.injEq, true_and] at hrest
  obtain ⟨hpackage,hname⟩ := Text.append_sep_inj hcolon hcolon' hrest
  cases label
  cases label'
  simp_all [String.toList_inj]

/-- A setting's own name is that of no other setting. -/
theorem Own.settingOf_eq (h : Own ctx name repo) (h' : Own ctx name repo') :
    settingOf ctx name repo = settingOf ctx name repo' := by
  cases hn : optionName name with
  | some option => rw [settingOf_option hn, settingOf_option hn]
  | none =>
    obtain hsome | ⟨label,hl,hf,htext⟩ := h
    · rw [hn] at hsome
      cases hsome
    · obtain hsome | ⟨label',hl',hf',htext'⟩ := h'
      · rw [hn] at hsome
        cases hsome
      · have heq := settingLabel_own_inj hl htext hl' htext'
        subst heq
        rw [(Own.user (.inr ⟨label,hl,hf,htext⟩) hn hl).1, (Own.user (.inr ⟨label,hl',hf,htext⟩) hn hl').1]

theorem Own.setting (h : Own ctx name repo) : ∃ s, settingOf ctx name repo = .ok s ∧ s.key = name := by
  cases hn : optionName name with
  | some option => exact ⟨_,settingOf_option hn,rfl⟩
  | none =>
    obtain hsome | ⟨label,hl,hf,htext⟩ := h
    · rw [hn] at hsome
      cases hsome
    · exact ⟨_,(Own.user (.inr ⟨label,hl,hf,htext⟩) hn hl).1,htext⟩

end Names

section Runs
variable {ctx : Ctx} {c c' : Configuration} {ws : List Write}

theorem writeAll_cons {w : Write} : writeAll ctx c (w::ws) = .ok c' ↔
    ∃ d, write ctx c w.name w.value w.repo = .ok d ∧ writeAll ctx d ws = .ok c' := by
  rw [writeAll, List.foldlM_cons, Fallible.bind_ok]
  rfl

theorem write_frame {w : Write} (h : write ctx c w.name w.value w.repo = .ok c') {s : Setting}
    (hs : s.key ≠ w.name) : s.read ctx c' = s.read ctx c := by
  obtain ⟨before,-,⟨-,rfl⟩ | ⟨-,heffect⟩⟩ := write_cases h
  · rfl
  · exact heffect.frame hs

theorem write_reads {w : Write} (h : write ctx c w.name w.value w.repo = .ok c')
    (ho : Own ctx w.name w.repo) (ht : WellTyped ctx w.name w.repo w.value) {s : Setting}
    (hs : settingOf ctx w.name w.repo = .ok s) : s.read ctx c' = .ok w.value := by
  obtain ⟨before,hbefore,⟨heq,rfl⟩ | ⟨-,heffect⟩⟩ := write_cases h
  · rw [read_eq, hs] at hbefore
    rw [← heq]
    exact hbefore
  · exact heffect.reads ho ht hs

theorem write_affected_ne {w : Write} (h : write ctx c w.name w.value w.repo = .ok c') {name : String}
    (hn : w.name ≠ name ∨ ownField name) : c'.affected[name]? = c.affected[name]? := by
  obtain ⟨before,-,⟨-,rfl⟩ | ⟨-,heffect⟩⟩ := write_cases h
  · rfl
  · rw [heffect.affected]
    split
    · rfl
    · next hown =>
      have hne : w.name ≠ name := hn.elim id fun ho heq => hown (heq ▸ ho)
      have hcmp : ¬ compare w.name name = .eq := by
        rw [Std.LawfulEqOrd.compare_eq_iff_eq]
        exact hne
      split
      · rw [Std.ExtTreeMap.getElem?_erase, if_neg hcmp]
      · rw [Std.ExtTreeMap.getElem?_insert, if_neg hcmp]

theorem writeAll_frame (h : writeAll ctx c ws = .ok c') {s : Setting} (hs : ∀ w ∈ ws, s.key ≠ w.name) :
    s.read ctx c' = s.read ctx c := by
  induction ws generalizing c with
  | nil =>
    cases h
    rfl
  | cons w ws ih =>
    obtain ⟨d,hd,h⟩ := writeAll_cons.mp h
    rw [ih h fun v hv => hs v (List.mem_cons_of_mem _ hv), write_frame hd (hs w List.mem_cons_self)]

theorem writeAll_affected_ne (h : writeAll ctx c ws = .ok c') {name : String}
    (hn : ownField name ∨ ∀ w ∈ ws, w.name ≠ name) : c'.affected[name]? = c.affected[name]? := by
  induction ws generalizing c with
  | nil =>
    cases h
    rfl
  | cons w ws ih =>
    obtain ⟨d,hd,h⟩ := writeAll_cons.mp h
    rw [ih h (hn.imp_right fun hn v hv => hn v (List.mem_cons_of_mem _ hv)),
      write_affected_ne hd (hn.symm.imp_left fun hn => hn w List.mem_cons_self)]

theorem writeAll_append {before after : List Write} : writeAll ctx c (before ++ after) = .ok c' ↔
    ∃ d, writeAll ctx c before = .ok d ∧ writeAll ctx d after = .ok c' := by
  rw [writeAll, List.foldlM_append, Fallible.bind_ok]
  rfl

theorem writeAll_last {before after : List Write} {w : Write}
    (h : writeAll ctx c (before ++ w::after) = .ok c') (ho : Own ctx w.name w.repo)
    (ht : WellTyped ctx w.name w.repo w.value) (hafter : ∀ v ∈ after, v.name ≠ w.name) {s : Setting}
    (hs : settingOf ctx w.name w.repo = .ok s) : s.read ctx c' = .ok w.value := by
  obtain ⟨d,-,h⟩ := writeAll_append.mp h
  obtain ⟨d',hd',h⟩ := writeAll_cons.mp h
  obtain ⟨s',hs',hkey⟩ := ho.setting
  rw [hs] at hs'
  cases hs'
  rw [writeAll_frame h fun v hv => hkey ▸ (hafter v hv).symm]
  exact write_reads hd' ho ht hs

/-- The setting is among those that were changed exactly when it is not as it was at first. -/
def Noted (ctx : Ctx) (s : Setting) (original : SettingValue) (c : Configuration) : Prop :=
  ∃ now, s.read ctx c = .ok now ∧ c.affected[s.key]? = if now = original then none else some original

theorem Noted.write {s : Setting} {original : SettingValue} (h : Noted ctx s original c)
    (hf : ¬ ownField s.key) {w : Write} (hw : write ctx c w.name w.value w.repo = .ok c')
    (ho : Own ctx w.name w.repo) (ht : WellTyped ctx w.name w.repo w.value)
    (hs : w.name = s.key → settingOf ctx w.name w.repo = .ok s) : Noted ctx s original c' := by
  obtain ⟨now,hnow,haffected⟩ := h
  by_cases hname : w.name = s.key
  · refine ⟨w.value,write_reads hw ho ht (hs hname),?_⟩
    obtain ⟨before,hbefore,hcases⟩ := write_cases hw
    rw [read_eq, hs hname] at hbefore
    have heq : before = now := by
      have := hbefore.symm.trans hnow
      injection this
    subst heq
    obtain ⟨heq,rfl⟩ | ⟨-,heffect⟩ := hcases
    · rw [← heq]
      exact haffected
    · have horiginal : c.affected[w.name]?.getD before = original := by
        rw [hname, haffected]
        by_cases hb : before = original <;> simp [hb]
      rw [heffect.affected, horiginal, hname, if_neg hf]
      by_cases hv : w.value = original
      · rw [if_pos hv, if_pos hv]
        exact Std.ExtTreeMap.getElem?_erase_self
      · rw [if_neg hv, if_neg hv]
        exact Std.ExtTreeMap.getElem?_insert_self
  · refine ⟨now,?_,?_⟩
    · rw [write_frame hw (Ne.symm hname)]
      exact hnow
    · rw [write_affected_ne hw (.inl hname)]
      exact haffected

theorem Noted.writeAll {s : Setting} {original : SettingValue} (h : Noted ctx s original c)
    (hf : ¬ ownField s.key) (hw : Analysis.writeAll ctx c ws = .ok c')
    (ho : ∀ w ∈ ws, Own ctx w.name w.repo) (ht : ∀ w ∈ ws, WellTyped ctx w.name w.repo w.value)
    (hs : ∀ w ∈ ws, w.name = s.key → settingOf ctx w.name w.repo = .ok s) : Noted ctx s original c' := by
  induction ws generalizing c with
  | nil =>
    cases hw
    exact h
  | cons w ws ih =>
    obtain ⟨d,hd,hw⟩ := writeAll_cons.mp hw
    have hhead := List.mem_cons_self (a := w) (l := ws)
    exact ih (h.write hf hd (ho w hhead) (ht w hhead) (hs w hhead)) hw
      (fun v hv => ho v (List.mem_cons_of_mem _ hv)) (fun v hv => ht v (List.mem_cons_of_mem _ hv))
      (fun v hv => hs v (List.mem_cons_of_mem _ hv))

/-- A setting that some write names can be read before them all. -/
theorem writeAll_read (h : writeAll ctx c ws = .ok c') {s : Setting} (hmem : ∃ w ∈ ws, w.name = s.key)
    (hs : ∀ w ∈ ws, w.name = s.key → settingOf ctx w.name w.repo = .ok s) :
    ∃ before, s.read ctx c = .ok before := by
  induction ws generalizing c with
  | nil => exact absurd hmem (by simp)
  | cons w ws ih =>
    obtain ⟨d,hd,h⟩ := writeAll_cons.mp h
    by_cases hname : w.name = s.key
    · obtain ⟨before,hbefore,-⟩ := write_cases hd
      rw [read_eq, hs w List.mem_cons_self hname] at hbefore
      exact ⟨before,hbefore⟩
    · obtain ⟨v,hv,hkey⟩ := hmem
      have hv' : v ∈ ws := (List.mem_cons.mp hv).resolve_left fun heq => hname (heq ▸ hkey)
      obtain ⟨before,hb⟩ := ih h ⟨v,hv',hkey⟩ fun u hu => hs u (List.mem_cons_of_mem _ hu)
      rw [write_frame hd (Ne.symm hname)] at hb
      exact ⟨before,hb⟩

theorem writeAll_readable (h : writeAll ctx c ws = .ok c') (ho : ∀ w ∈ ws, Own ctx w.name w.repo)
    (ht : ∀ w ∈ ws, WellTyped ctx w.name w.repo w.value) {s : Setting}
    (hs : ∀ w ∈ ws, w.name = s.key → settingOf ctx w.name w.repo = .ok s)
    (hread : ∃ before, s.read ctx c = .ok before) : ∃ now, s.read ctx c' = .ok now := by
  induction ws generalizing c with
  | nil =>
    cases h
    exact hread
  | cons w ws ih =>
    obtain ⟨d,hd,h⟩ := writeAll_cons.mp h
    refine ih h (fun v hv => ho v (List.mem_cons_of_mem _ hv)) (fun v hv => ht v (List.mem_cons_of_mem _ hv))
      (fun v hv => hs v (List.mem_cons_of_mem _ hv)) ?_
    by_cases hname : w.name = s.key
    · exact ⟨w.value,write_reads hd (ho w List.mem_cons_self) (ht w List.mem_cons_self)
        (hs w List.mem_cons_self hname)⟩
    · rw [write_frame hd (Ne.symm hname)]
      exact hread

end Runs

section Apply
variable {ctx : Ctx} {repo : String}

theorem applyPart_writes {part : TransitionPart} {made next : String × Configuration}
    {out : List (String × Configuration)} (h : applyPart ctx repo part made = .ok out) (hn : next ∈ out) :
    ∃ ws, writeAll ctx made.2 ws = .ok next.2 ∧ ∀ w ∈ ws, w.repo = repo := by
  unfold applyPart at h
  obtain ⟨settings,-,h⟩ := Fallible.bind_ok.mp h
  obtain ⟨outcomes,-,h⟩ := Fallible.bind_ok.mp h
  obtain ⟨outcome,-,hout⟩ := Fallible.mapM_mem h hn
  obtain ⟨c,hc,heq⟩ := Fallible.bind_ok.mp hout
  cases heq
  refine ⟨_,hc,fun w hw => ?_⟩
  obtain ⟨change,-,rfl⟩ := List.mem_map.mp hw
  rfl

/-- Every configuration that the parts of a transition make comes of writes under the names of the
repo of its `.bzl`. -/
theorem apply_writes {parts : List TransitionPart} {start : Configuration}
    {out : List (String × Configuration)} (h : apply ctx repo parts start = .ok out) :
    ∀ made ∈ out, ∃ ws, writeAll ctx start ws = .ok made.2 ∧ ∀ w ∈ ws, w.repo = repo := by
  have hrun : ∀ (parts : List TransitionPart) (before : List (String × Configuration)),
      (∀ made ∈ before, ∃ ws, writeAll ctx start ws = .ok made.2 ∧ ∀ w ∈ ws, w.repo = repo) →
      parts.foldlM (fun out part => do return (← out.mapM (applyPart ctx repo part)).flatten) before = .ok out →
      ∀ made ∈ out, ∃ ws, writeAll ctx start ws = .ok made.2 ∧ ∀ w ∈ ws, w.repo = repo := by
    intro parts
    induction parts with
    | nil =>
      intro before hbefore hout
      cases hout
      exact hbefore
    | cons part parts ih =>
      intro before hbefore hout
      rw [List.foldlM_cons] at hout
      obtain ⟨next,hnext,hout⟩ := Fallible.bind_ok.mp hout
      obtain ⟨lists,hlists,heq⟩ := Fallible.bind_ok.mp hnext
      cases heq
      refine ih lists.flatten (fun made hmade => ?_) hout
      obtain ⟨l,hl,hmade⟩ := List.mem_flatten.mp hmade
      obtain ⟨was,hwas,hpart⟩ := Fallible.mapM_mem hlists hl
      obtain ⟨ws,hws,hrepo⟩ := hbefore was hwas
      obtain ⟨more,hmore,hrepo'⟩ := applyPart_writes hpart hmade
      refine ⟨ws ++ more,writeAll_append.mpr ⟨_,hws,hmore⟩,fun w hw => ?_⟩
      exact (List.mem_append.mp hw).elim (hrepo w) (hrepo' w)
  apply hrun parts _ _ h
  intro made hmade
  cases List.mem_singleton.mp hmade
  exact ⟨[],rfl,by simp⟩

end Apply

/-- After writes under the settings' own names a setting reads as the last value written to it and
the others as before, and but for the options that have a field of their own a setting is among
those that were changed exactly when it is not as it was before the first change. -/
theorem writeAll_reads {ctx : Ctx} {c c' : Configuration} {ws : List Write}
    (h : writeAll ctx c ws = .ok c') (ho : ∀ w ∈ ws, Own ctx w.name w.repo)
    (ht : ∀ w ∈ ws, WellTyped ctx w.name w.repo w.value) :
    (∀ before w after, ws = before ++ w::after → (∀ v ∈ after, v.name ≠ w.name) →
      ∀ name repo, settingOf ctx name repo = settingOf ctx w.name w.repo →
        read ctx c' name repo = .ok w.value) ∧
    (∀ name repo, (∀ s, settingOf ctx name repo = .ok s → ∀ w ∈ ws, s.key ≠ w.name) →
      read ctx c' name repo = read ctx c name repo) ∧
    (∀ w ∈ ws, ¬ ownField w.name → ∃ before now, read ctx c w.name w.repo = .ok before ∧
      read ctx c' w.name w.repo = .ok now ∧ (c.affected[w.name]? ≠ some before →
        c'.affected[w.name]? = if now = c.affected[w.name]?.getD before then none
          else some (c.affected[w.name]?.getD before))) ∧
    ∀ name, (ownField name ∨ ∀ w ∈ ws, w.name ≠ name) → c'.affected[name]? = c.affected[name]? := by
  refine ⟨?_,?_,?_,fun name hn => writeAll_affected_ne h hn⟩
  · rintro before w after rfl hafter name repo hsame
    have hmem : w ∈ before ++ w::after := by simp
    obtain ⟨s,hs,-⟩ := (ho w hmem).setting
    rw [read_eq, hsame, hs]
    exact writeAll_last h (ho w hmem) (ht w hmem) hafter hs
  · intro name repo hs
    rw [read_eq, read_eq]
    cases hof : settingOf ctx name repo with
    | error e => rfl
    | ok s => exact writeAll_frame h (hs s hof)
  · intro w hw hf
    obtain ⟨s,hs,hkey⟩ := (ho w hw).setting
    have hall : ∀ v ∈ ws, v.name = s.key → settingOf ctx v.name v.repo = .ok s := by
      intro v hv hname
      have hown := ho v hv
      rw [hname, hkey] at hown ⊢
      rw [← hs]
      exact hown.settingOf_eq (ho w hw)
    obtain ⟨before,hbefore⟩ := writeAll_read h ⟨w,hw,hkey.symm⟩ hall
    have hread : ∀ c, read ctx c w.name w.repo = s.read ctx c := by
      intro c
      rw [read_eq, hs]
      rfl
    obtain ⟨now,hnow⟩ := writeAll_readable h ho ht hall ⟨before,hbefore⟩
    simp only [hread]
    refine ⟨before,now,hbefore,hnow,fun hne => ?_⟩
    have hnoted : Noted ctx s (c.affected[w.name]?.getD before) c := by
      refine ⟨before,hbefore,?_⟩
      rw [hkey]
      cases ha : c.affected[w.name]? with
      | none => simp
      | some v =>
        have hv : before ≠ v := fun heq => hne (heq ▸ ha)
        simp [hv]
    obtain ⟨now',hnow',haffected⟩ := hnoted.writeAll (hkey.symm ▸ hf) h ho ht hall
    rw [hnow] at hnow'
    cases hnow'
    rw [hkey] at haffected
    exact haffected

theorem writeAll_reads_flag :
    ∃ c', writeAll flagCtx (.default flagHost) [⟨"//:flag",.str "mid",""⟩,⟨"//:flag",.str "on",""⟩] = .ok c' ∧
      read flagCtx c' "//:flag" "" = .ok (.str "on") ∧ c'.affected["//:flag"]? = some (.str "off") := by
  have hown : Own flagCtx "//:flag" "" := .inr ⟨⟨"","","flag"⟩,by decide,rfl,by decide⟩
  have htyped : ∀ text, WellTyped flagCtx "//:flag" "" (.str text) := by
    intro text label kind default hs hd
    have hlabel : settingLabel "//:flag" "" = .ok ⟨"","","flag"⟩ := by decide
    obtain ⟨hs',-⟩ := hown.user (by decide) hlabel
    cases hs.symm.trans hs'
    cases hd
    rfl
  obtain ⟨c',hc'⟩ : ∃ c', writeAll flagCtx (.default flagHost)
    [⟨"//:flag",.str "mid",""⟩,⟨"//:flag",.str "on",""⟩] = .ok c' := ⟨_,rfl⟩
  refine ⟨c',hc',?_,?_⟩
  · exact (writeAll_reads hc' (by simp [hown]) (by simp [htyped])).1 [⟨"//:flag",.str "mid",""⟩]
      ⟨"//:flag",.str "on",""⟩ [] rfl (by simp) "//:flag" "" rfl
  · cases hc'
    decide

/-- The same setting in another repo. -/
def otherCtx : Ctx where
  target label := .ok (if label = ⟨"r","","flag"⟩ then
    some (.rule "string_flag" none [("build_setting_default",.string "off")]) else none)
  buildSetting _ _ := .ok none
  platformConstraints _ := .ok ∅

/-- A setting of another repo is not read under the name it is written with, the compilation mode is
never among those that were changed, and a second transition keeps the value from before the first. -/
theorem writes_differ :
    (∃ c', write otherCtx (.default flagHost) "//:flag" (.str "on") "r" = .ok c' ∧
      read otherCtx c' "//:flag" "r" = .ok (.str "off")) ∧
    (∃ c', write flagCtx (.default flagHost) "//command_line_option:compilation_mode" (.str "opt") "" = .ok c' ∧
      read flagCtx (.default flagHost) "//command_line_option:compilation_mode" "" = .ok (.str "fastbuild") ∧
      read flagCtx c' "//command_line_option:compilation_mode" "" = .ok (.str "opt") ∧
      c'.affected["//command_line_option:compilation_mode"]? = none) ∧
    ∃ c', write flagCtx flagOn "//:flag" (.str "mid") "" = .ok c' ∧
      read flagCtx flagOn "//:flag" "" = .ok (.str "on") ∧ c'.affected["//:flag"]? = some (.str "off") := by
  refine ⟨⟨_,rfl,?_⟩,⟨_,rfl,?_,?_,?_⟩,_,rfl,?_,?_⟩
  · decide
  · decide
  · decide
  · decide
  · decide
  · decide

end BuildFiji.Analysis
