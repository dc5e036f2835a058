import BuildFiji.Repo.MarkerText
import Mathlib.Logic.Function.Basic

/-!
# What a line says of an input

In every world the line of an input is current exactly when the input is as it was, if
its names hold no separator and its value no backslash before an `s` or an `n`. Where a
name does hold one, no line can ask for it, so that a world in which it changed is not
told apart. A marker loses a carriage return at the end of a line besides.
-/

set_option autoImplicit false
set_option linter.all false

namespace BuildFiji.Recorded

open BuildFiji.Graph BuildFiji.Framing

section Inputs

variable (sha256 : Bytes → Bytes)

/-- Nothing says that a directory is as it was. -/
def StillSo (world : World) : RecordedInput → Prop
  | .env name value => world.environ name = value
  | .file path digest => ∃ bytes, world.files path = some bytes ∧ hex (sha256 bytes) = digest
  | .dirents _ _ => False
  | .repoMapping repo apparent canonical => (world.mapping repo apparent).getD "\\0".toList = canonical

/-- A variable, a file with the digest of what it held, or what a name led to. -/
def Checked : RecordedInput → Prop
  | .file path digest => Proper path ∧ ∃ bytes, digest = hex (sha256 bytes)
  | .dirents _ _ => False
  | _ => True

/-- No separator stands in a name that is followed by it. -/
def Named : RecordedInput → Prop
  | .env name _ => ' ' ∉ name
  | .repoMapping repo apparent _ => ' ' ∉ repo ∧ ',' ∉ repo ∧ ' ' ∉ apparent
  | _ => True

def BareValue : RecordedInput → Prop
  | .env _ value => ∀ v, value = some v → Bare v
  | _ => True

/-- No carriage return stands at the end of the line. -/
def NoReturn : RecordedInput → Prop
  | .env _ value => ∀ v, value = some v → v.getLast? ≠ some '\r'
  | .repoMapping _ _ canonical => canonical.getLast? ≠ some '\r'
  | _ => True

variable (layout : Layout)

def LineExact (input : RecordedInput) (line : Text) : Prop :=
  ∀ world, Linked layout world →
    (inputIsCurrent layout sha256 world line = true ↔ StillSo sha256 world input)

def MarkerExact (key : Text) (inputs : List RecordedInput) (marker : Text) : Prop :=
  ∀ world, Linked layout world → ∀ key', markerIsCurrent layout sha256 world marker key' = true ↔
    key' = key ∧ ∀ i ∈ inputs, StillSo sha256 world i

structure PlainMarker (key : Text) (inputs : List RecordedInput) : Prop where
  oneLine : '\n' ∉ key
  ends : key.getLast? ≠ some '\r'
  named : ∀ i ∈ inputs, Named i
  bare : ∀ i ∈ inputs, BareValue i
  inputEnds : ∀ i ∈ inputs, NoReturn i

end Inputs

variable {layout : Layout} {sha256 : Bytes → Bytes} {world : World}

section Reading

theorem env_named {name : Text} (hname : ' ' ∉ name) (w : Text) :
    inputIsCurrent layout sha256 world ("ENV:".toList ++ (name ++ ' '::w)) = true ↔
      world.environ name = readValue w := by
  rw [env_line_current, envIsCurrent, readEnv_some.mpr ⟨w,rfl,hname,rfl⟩]
  exact beq_iff_eq

def mappingText (repo apparent canonical : Text) : Text := (repo ++ ','::apparent) ++ ' '::canonical

theorem mapping_line_current (rest : Text) :
    inputIsCurrent layout sha256 world ("REPO_MAPPING:".toList ++ rest) = mappingIsCurrent world rest := by
  rw [inputIsCurrent, dropPrefix?_append]

theorem mapping_named {repo apparent : Text} (hr : ' ' ∉ repo) (hc : ',' ∉ repo) (ha : ' ' ∉ apparent)
    (canonical : Text) :
    inputIsCurrent layout sha256 world ("REPO_MAPPING:".toList ++ mappingText repo apparent canonical) =
      true ↔ (world.mapping repo apparent).getD "\\0".toList = canonical := by
  have hhead : ' ' ∉ repo ++ ','::apparent := by simp [hr, ha]
  rw [mapping_line_current, mappingIsCurrent, mappingText, Text.splitOnce_char _ hhead]
  simp only [Text.splitOnce_char _ hc]
  exact beq_iff_eq

theorem recorded_mapping {repo apparent canonical line : Text}
    (h : recordedText layout (.repoMapping repo apparent canonical) = some line) :
    line = "REPO_MAPPING:".toList ++ mappingText repo apparent canonical := by
  rw [← Option.some.inj h, mappingText]
  simp only [List.append_assoc]

theorem recorded_env {name line : Text} {value : Option Text}
    (h : recordedText layout (.env name value) = some line) :
    line = "ENV:".toList ++ (name ++ ' '::writtenValue value) := by
  rw [← Option.some.inj h, envLine_eq]

variable {input : RecordedInput} {line : Text}

/-- A line that reads back is current exactly when the input is as it was. -/
theorem line_exact (hchecked : Checked sha256 input) (hline : recordedText layout input = some line)
    (hnamed : Named input) (hbare : BareValue input) : LineExact sha256 layout input line := by
  intro world hlinked
  cases input with
  | env name value =>
    rw [recorded_env hline, env_named hnamed, (readValue_written value).mpr hbare]
    exact Iff.rfl
  | file path digest =>
    obtain ⟨hproper,bytes,rfl⟩ := hchecked
    exact (file_line hproper hlinked hline).2
  | dirents => exact hchecked.elim
  | repoMapping repo apparent canonical =>
    obtain ⟨hr,hc,ha⟩ := hnamed
    rw [recorded_mapping hline, mapping_named hr hc ha]
    exact Iff.rfl

theorem bare_of_current (hline : recordedText layout input = some line) (hnamed : Named input)
    (hso : StillSo sha256 world input) (h : inputIsCurrent layout sha256 world line = true) :
    BareValue input := by
  cases input with
  | env name value =>
    rw [recorded_env hline, env_named hnamed] at h
    exact (readValue_written value).mp (h.symm.trans hso)
  | file => trivial
  | dirents => trivial
  | repoMapping => trivial

theorem bare_of_current_chomped (hline : recordedText layout input = some line) (hnamed : Named input)
    (hso : StillSo sha256 world input) (h : inputIsCurrent layout sha256 world (chomp line) = true) :
    BareValue input ∧ NoReturn input := by
  cases input with
  | env name value =>
    rw [recorded_env hline, ← List.append_assoc, chomp_append, List.append_assoc, env_named hnamed] at h
    have hback := (readValue_chomped value).mp (h.symm.trans hso)
    exact ⟨fun v hv => (hback v hv).1,fun v hv => (hback v hv).2⟩
  | file => exact ⟨trivial,trivial⟩
  | dirents => exact ⟨trivial,trivial⟩
  | repoMapping repo apparent canonical =>
    obtain ⟨hr,hc,ha⟩ := hnamed
    rw [recorded_mapping hline, mappingText, ← List.append_assoc, chomp_append, List.append_assoc,
      ← mappingText, mapping_named hr hc ha] at h
    exact ⟨trivial,(chomp_eq_iff canonical).mp (h.symm.trans hso)⟩

theorem chomp_line (hchecked : Checked sha256 input) (hline : recordedText layout input = some line)
    (hend : NoReturn input) (hlinked : Linked layout world) : chomp line = line := by
  cases input with
  | env name value =>
    have hw : chomp (writtenValue value) = writtenValue value := by
      apply (chomp_eq_iff _).mpr
      cases value with
      | none => decide
      | some v => exact fun h => hend v rfl (escape_last.mp h)
    rw [recorded_env hline, ← List.append_assoc, chomp_append, hw]
  | file path digest =>
    obtain ⟨hproper,bytes,rfl⟩ := hchecked
    exact (file_line hproper hlinked hline).1
  | dirents => exact hchecked.elim
  | repoMapping repo apparent canonical =>
    have hw : chomp canonical = canonical := (chomp_eq_iff canonical).mpr hend
    rw [recorded_mapping hline, mappingText, ← List.append_assoc, chomp_append, hw]

end Reading

section Unread

theorem inputIsCurrent_congr {world' : World} (henv : ∀ rest, envIsCurrent world' rest = envIsCurrent world rest)
    (hmapping : ∀ rest, mappingIsCurrent world' rest = mappingIsCurrent world rest)
    (hfiles : world'.files = world.files) (t : Text) :
    inputIsCurrent layout sha256 world' t = inputIsCurrent layout sha256 world t := by
  unfold inputIsCurrent
  split
  · exact hmapping _
  · split
    · exact henv _
    · split
      · rw [fileIsCurrent, fileIsCurrent, hfiles]
      · rfl

/-- No line asks for a variable with a space in its name. -/
theorem env_unread {name : Text} (h : ' ' ∈ name) (value : Option Text) (rest : Text) :
    envIsCurrent { world with environ := Function.update world.environ name value } rest =
      envIsCurrent world rest := by
  unfold envIsCurrent
  cases hread : readEnv rest with
  | none => rfl
  | some parts =>
    obtain ⟨n,v⟩ := parts
    obtain ⟨-,-,hn,-⟩ := readEnv_some.mp hread
    have hne : n ≠ name := fun he => hn (he ▸ h)
    show (Function.update world.environ name value n == v) = _
    rw [Function.update_of_ne hne]

/-- Nor for a repository name with a separator. -/
theorem mapping_unread {repo apparent : Text} (h : ¬(' ' ∉ repo ∧ ',' ∉ repo ∧ ' ' ∉ apparent))
    (canonical : Option Text) (rest : Text) :
    mappingIsCurrent { world with
      mapping := fun r a => if r = repo ∧ a = apparent then canonical else world.mapping r a } rest =
        mappingIsCurrent world rest := by
  unfold mappingIsCurrent
  cases hs : Text.splitOnce [' '] rest with
  | none => rfl
  | some parts =>
    obtain ⟨head,written⟩ := parts
    cases hc : Text.splitOnce [','] head with
    | none => simp only [hc]
    | some names =>
      obtain ⟨r,a⟩ := names
      obtain ⟨-,hhead⟩ := Text.splitOnce_some hs
      obtain ⟨rfl,hr⟩ := Text.splitOnce_some hc
      have hne : ¬(r = repo ∧ a = apparent) := by
        rintro ⟨rfl,rfl⟩
        rw [List.mem_append, List.mem_cons] at hhead
        exact h ⟨fun hm => hhead (Or.inl hm),hr,fun hm => hhead (Or.inr (Or.inr hm))⟩
      simp only [hc, if_neg hne]

/-- Where a name holds a separator, there is a world in which the input is not as it was
and every line is current that was. -/
theorem told_by_no_line {input : RecordedInput} (hnamed : ¬Named input) (hlinked : Linked layout world)
    (hso : StillSo sha256 world input) : ∃ world', Linked layout world' ∧ ¬StillSo sha256 world' input ∧
      ∀ t, inputIsCurrent layout sha256 world' t = inputIsCurrent layout sha256 world t := by
  cases input with
  | env name value =>
    have hname : ' ' ∈ name := Classical.not_not.mp hnamed
    refine ⟨{ world with environ := Function.update world.environ name (some (' '::value.getD [])) },
      ⟨hlinked.root,hlinked.external⟩,?_,inputIsCurrent_congr (env_unread hname _) (fun _ => rfl) rfl⟩
    intro h
    have h : Function.update world.environ name (some (' '::value.getD [])) name = value := h
    rw [Function.update_self] at h
    rw [← h, Option.getD_some] at h
    exact List.cons_ne_self _ _ (Option.some.inj h)
  | file => exact absurd trivial hnamed
  | dirents => exact absurd trivial hnamed
  | repoMapping repo apparent canonical =>
    refine ⟨{ world with mapping := fun r a =>
        if r = repo ∧ a = apparent then some (' '::canonical) else world.mapping r a },
      ⟨hlinked.root,hlinked.external⟩,?_,inputIsCurrent_congr (fun _ => rfl) (mapping_unread hnamed _) rfl⟩
    intro h
    have h : (if repo = repo ∧ apparent = apparent then some (' '::canonical)
      else world.mapping repo apparent).getD "\\0".toList = canonical := h
    rw [if_pos ⟨rfl,rfl⟩] at h
    exact List.cons_ne_self _ _ h

end Unread

section Lines

variable {input : RecordedInput} {line : Text}

theorem lineExact_iff (hchecked : Checked sha256 input) (hline : recordedText layout input = some line) :
    LineExact sha256 layout input line ↔ Named input ∧ BareValue input := by
  constructor
  · intro h
    have hworld : (Named input ∧ BareValue input) ∨
        ∃ world, Linked layout world ∧ StillSo sha256 world input := by
      cases input with
      | env name value =>
        exact Or.inr ⟨⟨fun _ => value,fun _ => none,fun _ _ => none⟩,⟨fun _ _ _ => rfl,fun _ _ _ => rfl⟩,rfl⟩
      | file => exact Or.inl ⟨trivial,trivial⟩
      | dirents => exact hchecked.elim
      | repoMapping repo apparent canonical =>
        exact Or.inr ⟨⟨fun _ => none,fun _ => none,fun _ _ => some canonical⟩,
          ⟨fun _ _ _ => rfl,fun _ _ _ => rfl⟩,rfl⟩
    rcases hworld with hplain | ⟨world,hlinked,hso⟩
    · exact hplain
    · have hcurrent := (h world hlinked).mpr hso
      have hnamed : Named input := by
        by_contra hnamed
        obtain ⟨world',hlinked',hnot,hsame⟩ := told_by_no_line hnamed hlinked hso
        exact hnot ((h world' hlinked').mp ((hsame line).trans hcurrent))
      exact ⟨hnamed,bare_of_current hline hnamed hso hcurrent⟩
  · exact fun ⟨hnamed,hbare⟩ => line_exact hchecked hline hnamed hbare

end Lines

section Markers

variable {key : Text} {inputs : List RecordedInput} {marker : Text}

theorem marker_exact (hchecked : ∀ i ∈ inputs, Checked sha256 i)
    (hwrite : writeMarker layout key inputs = some marker) (hplain : PlainMarker key inputs) :
    MarkerExact sha256 layout key inputs marker := by
  intro world hlinked key'
  have hkey : chomp key = key := (chomp_eq_iff key).mpr hplain.ends
  rw [marker_current hplain.oneLine hwrite, hkey]
  apply and_congr_right'
  apply forall₂_congr
  intro i hi
  have hline := recorded_of_marker hwrite i hi
  rw [chomp_line (hchecked i hi) hline (hplain.inputEnds i hi) hlinked]
  exact line_exact (hchecked i hi) hline (hplain.named i hi) (hplain.bare i hi) world hlinked

theorem chomp_subset {l : Text} {c : Char} (h : c ∈ chomp l) : c ∈ l := by
  rw [chomp] at h
  split at h
  · exact List.mem_of_mem_dropLast h
  · exact h

/-- The key of a marker that is current for it stands on a line. -/
theorem key_of_current (hwrite : writeMarker layout key inputs = some marker)
    (h : markerIsCurrent layout sha256 world marker key = true) :
    '\n' ∉ key ∧ key.getLast? ≠ some '\r' := by
  have hn : '\n' ∉ key := by
    intro hn
    obtain ⟨k,rest,hkey,hk⟩ := List.eq_append_cons_of_mem hn
    obtain ⟨text,-,hmarker⟩ := Option.map_eq_some_iff.mp hwrite
    have hl : lines marker = heading::chomp k::lines (rest ++ '\n'::text) := by
      rw [← hmarker, List.append_assoc, List.cons_append, lines_append (by decide)]
      nth_rewrite 1 [hkey]
      rw [List.append_assoc, List.cons_append, lines_append hk]
      rfl
    rw [markerIsCurrent, hl] at h
    simp only [Bool.and_eq_true, beq_iff_eq] at h
    have hm : '\n' ∈ chomp k := h.1.2 ▸ hn
    exact hk (chomp_subset hm)
  refine ⟨hn,?_⟩
  exact (chomp_eq_iff key).mp ((marker_current hn hwrite).mp h).1.symm

/-- A marker that is exact, of inputs that once were so together, is plain. -/
theorem plain_of_markerExact (hwrite : writeMarker layout key inputs = some marker)
    (hlinked : Linked layout world) (hso : ∀ i ∈ inputs, StillSo sha256 world i)
    (h : MarkerExact sha256 layout key inputs marker) : PlainMarker key inputs := by
  have hcurrent := (h world hlinked key).mpr ⟨rfl,hso⟩
  obtain ⟨hn,hend⟩ := key_of_current hwrite hcurrent
  have hlines := ((marker_current hn hwrite).mp hcurrent).2
  have hnamed : ∀ i ∈ inputs, Named i := by
    intro i hi
    by_contra hnamed
    obtain ⟨world',hlinked',hnot,hsame⟩ := told_by_no_line hnamed hlinked (hso i hi)
    have hcurrent' : markerIsCurrent layout sha256 world' marker key = true := by
      rw [marker_current hn hwrite]
      refine ⟨((chomp_eq_iff key).mpr hend).symm,?_⟩
      exact fun j hj => (hsame _).trans (hlines j hj)
    exact hnot (((h world' hlinked' key).mp hcurrent').2 i hi)
  have hvalue : ∀ i ∈ inputs, BareValue i ∧ NoReturn i := fun i hi =>
    bare_of_current_chomped (recorded_of_marker hwrite i hi) (hnamed i hi) (hso i hi) (hlines i hi)
  exact ⟨hn,hend,hnamed,fun i hi => (hvalue i hi).1,fun i hi => (hvalue i hi).2⟩

end Markers

section Exactly

def onlyRoots : Layout := ⟨[['w']],[['o'],['e']],none,none⟩

def environAt (name value : Text) : World :=
  ⟨fun n => if n = name then some value else none,fun _ => none,fun _ _ => none⟩

theorem environAt_linked (name value : Text) : Linked onlyRoots (environAt name value) := ⟨nofun,nofun⟩

def spacedValue : RecordedInput := .env ['D'] (some "a \\b".toList)

theorem spacedValue_plain : PlainMarker ['k'] [spacedValue] where
  oneLine := by decide
  ends := by decide
  named := List.forall_mem_singleton.mpr (by unfold spacedValue Named; decide)
  bare := List.forall_mem_singleton.mpr fun v hv => by
    cases hv
    decide
  inputEnds := List.forall_mem_singleton.mpr fun v hv => by
    cases hv
    decide

end Exactly

end BuildFiji.Recorded
