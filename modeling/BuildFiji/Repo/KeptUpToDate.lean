import BuildFiji.Repo.RepositoryRule

/-!
# A repository that is kept

The marker of a repository says what the run that made it read, with the answers it
got. So where a marker is current, a run now asks for the same and makes the same, if
what is not noted has not changed either.
-/

set_option autoImplicit false
set_option linter.all false

namespace BuildFiji.Recorded

open BuildFiji.Framing

section Asked

variable {γ : Type} {sha256 : Bytes → Bytes} {world now : World}

/-- Both worlds give the same answer. -/
def Agrees (world now : World) : Ask → Prop
  | .getenv name => now.environ name = world.environ name
  | .label repo apparent => now.mapping repo apparent = world.mapping repo apparent
  | .file _ path => now.files path.names = world.files path.names

theorem result_congr {p : Program γ} (h : ∀ a ∈ p.asks world, Agrees world now a) :
    p.result now = p.result world := by
  induction p with
  | done => rfl
  | fail => rfl
  | getenv name next ih =>
    have hname : now.environ name = world.environ name := h _ List.mem_cons_self
    rw [Program.result, Program.result, hname]
    exact ih _ fun a ha => h a (List.mem_cons_of_mem _ ha)
  | label repo apparent next ih =>
    have hlabel : now.mapping repo apparent = world.mapping repo apparent := h _ List.mem_cons_self
    rw [Program.result, Program.result, hlabel]
    exact ih _ fun a ha => h a (List.mem_cons_of_mem _ ha)
  | file op path next ih =>
    have hmem : Ask.file op path ∈ (Program.file op path next).asks world := by
      rw [Program.asks]
      exact List.mem_cons_self
    have hfile : now.files path.names = world.files path.names := h _ hmem
    rw [Program.result, Program.result, hfile]
    cases hf : world.files path.names with
    | none => rfl
    | some bytes =>
      apply ih
      intro a ha
      apply h
      rw [Program.asks, hf]
      exact List.mem_cons_of_mem _ ha

/-- A rule that ends well found every file it asked for. -/
theorem file_of_result {p : Program γ} {c : γ} (h : p.result world = some c) {op : FileOp}
    {path : Path} (ha : .file op path ∈ p.asks world) : ∃ bytes, world.files path.names = some bytes := by
  induction p with
  | done => cases ha
  | fail => cases ha
  | getenv name next ih =>
    rcases List.mem_cons.mp ha with ha | ha
    · cases ha
    · exact ih _ h ha
  | label repo apparent next ih =>
    rcases List.mem_cons.mp ha with ha | ha
    · cases ha
    · exact ih _ h ha
  | file op' path' next ih =>
    rw [Program.result] at h
    rw [Program.asks] at ha
    cases hf : world.files path'.names with
    | none =>
      rw [hf] at h
      cases h
    | some bytes =>
      rw [hf] at h ha
      rcases List.mem_cons.mp ha with ha | ha
      · cases ha
        exact ⟨bytes,hf⟩
      · exact ih _ h ha

/-- What is noted is how things are. -/
def Holds (sha256 : Bytes → Bytes) (world : World) : RecordedInput → Prop
  | .env name value => value = world.environ name
  | .file path digest => ∃ bytes, world.files path = some bytes ∧ digest = hex (sha256 bytes)
  | _ => False

theorem mem_push {inputs : List RecordedInput} {i input : RecordedInput} (h : i ∈ inputs) :
    i ∈ push inputs input := by
  unfold push
  split
  · exact h
  · exact List.mem_append_left _ h

theorem holds_push {inputs : List RecordedInput} {input : RecordedInput}
    (h : ∀ i ∈ inputs, Holds sha256 world i) (hi : Holds sha256 world input) :
    ∀ i ∈ push inputs input, Holds sha256 world i := by
  intro i hmem
  unfold push at hmem
  split at hmem
  · exact h i hmem
  · rcases List.mem_append.mp hmem with hmem | hmem
    · exact h i hmem
    · rw [List.mem_singleton.mp hmem]
      exact hi

/-- What is pushed is there: what was noted for it before says the same. -/
theorem pushed_mem {inputs : List RecordedInput} {input : RecordedInput}
    (h : ∀ i ∈ inputs, Holds sha256 world i) (hi : Holds sha256 world input) :
    input ∈ push inputs input := by
  unfold push
  by_cases hsame : (inputs.any fun i => i.sameInput input) = true
  · rw [if_pos hsame]
    obtain ⟨i,hmem,hs⟩ := List.any_eq_true.mp hsame
    have ht := h i hmem
    have heq : i = input := by
      cases i with
      | env name value =>
        cases input with
        | env name' value' =>
          have hn : name = name' := beq_iff_eq.mp hs
          subst hn
          have hv : value = world.environ name := ht
          have hv' : value' = world.environ name := hi
          rw [hv, hv']
        | _ => cases hs
      | file path digest =>
        cases input with
        | file path' digest' =>
          have hp : path = path' := beq_iff_eq.mp hs
          subst hp
          obtain ⟨bytes,hb,hd⟩ := ht
          obtain ⟨bytes',hb',hd'⟩ := hi
          cases hb.symm.trans hb'
          rw [hd, hd']
        | _ => cases hs
      | dirents => exact ht.elim
      | repoMapping => exact ht.elim
    exact heq ▸ hmem
  · rw [if_neg hsame]
    exact List.mem_append_right _ List.mem_cons_self

theorem recorded_mono {p : Program γ} {inputs : List RecordedInput} {i : RecordedInput}
    (h : i ∈ inputs) : i ∈ p.recorded sha256 world inputs := by
  induction p generalizing inputs with
  | done => exact h
  | fail => exact h
  | getenv name next ih => exact ih _ (mem_push h)
  | label repo apparent next ih => exact ih _ h
  | file op path next ih =>
    rw [Program.recorded]
    cases world.files path.names with
    | none => exact h
    | some bytes =>
      apply ih
      split
      · exact mem_push h
      · exact h

/-- The noted input of what is asked for, if it is one that is noted. -/
def noted (sha256 : Bytes → Bytes) (world : World) : Ask → Option RecordedInput
  | .getenv name => some (.env name (world.environ name))
  | .file .read path => (world.files path.names).map fun bytes => .file path.names (hex (sha256 bytes))
  | _ => none

theorem noted_mem {p : Program γ} {inputs : List RecordedInput}
    (h : ∀ i ∈ inputs, Holds sha256 world i) {a : Ask} (ha : a ∈ p.asks world) {i : RecordedInput}
    (hi : noted sha256 world a = some i) : i ∈ p.recorded sha256 world inputs := by
  induction p generalizing inputs with
  | done => cases ha
  | fail => cases ha
  | getenv name next ih =>
    have ht : Holds sha256 world (.env name (world.environ name)) := rfl
    rw [Program.recorded]
    rcases List.mem_cons.mp ha with rfl | ha
    · cases hi
      exact recorded_mono (pushed_mem h ht)
    · exact ih _ (holds_push h ht) ha
  | label repo apparent next ih =>
    rcases List.mem_cons.mp ha with rfl | ha
    · cases hi
    · exact ih _ h ha
  | file op path next ih =>
    rw [Program.asks] at ha
    rw [Program.recorded]
    cases hf : world.files path.names with
    | none =>
      rw [hf] at ha
      rw [List.mem_singleton.mp ha] at hi
      cases op <;> simp [noted, hf] at hi
    | some bytes =>
      rw [hf] at ha
      have ht : Holds sha256 world (.file path.names (hex (sha256 bytes))) := ⟨bytes,hf,rfl⟩
      rcases List.mem_cons.mp ha with rfl | ha
      · cases op with
        | read =>
          rw [noted, hf] at hi
          cases hi
          exact recorded_mono (pushed_mem h ht)
        | _ => cases hi
      · apply ih _ _ ha
        split
        · exact holds_push h ht
        · exact h

end Asked

section Runs

variable {γ α : Type} {layout : Layout} {rules : Rules γ α} {sha256 : Bytes → Bytes}
  {s t : State γ α layout rules} {made now : Setup γ α layout rules}

/-- A marker that stands there is that of the run that made the repository. -/
def Marked (sha256 : Bytes → Bytes) (s : State γ α layout rules) : Prop :=
  ∀ marker, s.marker = some marker → ∃ made key contents,
    s.made = some made ∧ markerKey sha256 made = some key ∧ s.repo = some contents ∧
    made.program.result made.world = some contents ∧
    writeMarker layout key (made.program.recorded sha256 made.world []) = some marker

theorem marked_nothing : Marked sha256 (nothing : State γ α layout rules) := nofun

theorem marked_next (h : Marked sha256 s) (ht : next sha256 s now = some t) : Marked sha256 t := by
  cases ht
  unfold makeUnguarded
  split
  · exact h
  · cases hres : now.program.result now.world with
    | none => nofun
    | some contents =>
      intro marker hm
      by_cases hlocal : now.isLocal = true
      · rw [if_pos hlocal] at hm
        cases hm
      · rw [if_neg hlocal] at hm
        obtain ⟨key,hkey,hwrite⟩ := Option.bind_eq_some_iff.mp hm
        exact ⟨now,key,contents,rfl,hkey,rfl,hres,hwrite⟩

theorem markerBytes_inj {d d' : Vector UInt8 32} (h : markerBytes now d' = markerBytes made d) :
    now.ruleId = made.ruleId ∧ now.repoName = made.repoName ∧ d' = d ∧ now.attrs = made.attrs := by
  simp only [markerBytes, List.append_assoc, List.cons_append] at h
  have hrule := List.append_cancel_left h
  rw [List.cons.injEq] at hrule
  obtain ⟨hr,hname⟩ := Text.append_sep_inj now.ruleId_nul made.ruleId_nul hrule.2
  obtain ⟨hn,hdigest⟩ := Text.append_sep_inj now.repoName_nul made.repoName_nul hname
  have hlength : d'.toList.length = d.toList.length := by rw [Vector.length_toList, Vector.length_toList]
  obtain ⟨hd,hdebug⟩ := List.append_inj hdigest hlength
  exact ⟨hr,hn,Vector.toList_inj.mp hd,rules.debug_injective hdebug⟩

theorem program_of_key {key : Text} (hmade : markerKey sha256 made = some key)
    (hnow : markerKey sha256 now = some key) (hw : Watched sha256 made now) :
    now.program = made.program := by
  obtain ⟨d,hd,hk⟩ := Option.map_eq_some_iff.mp hmade
  obtain ⟨d',hd',hk'⟩ := Option.map_eq_some_iff.mp hnow
  have hbytes := hw.keys d d' hd hd' (hex_injective (hk'.trans hk.symm))
  obtain ⟨hrule,hname,rfl,hattrs⟩ := markerBytes_inj hbytes
  rw [now.coded _ hd', made.coded _ hd, hrule, hname, hattrs]

theorem plain_key {key : Text} (h : markerKey sha256 made = some key) : Plain key := by
  obtain ⟨d,-,rfl⟩ := Option.map_eq_some_iff.mp h
  exact ⟨hex_digits _⟩

/-- With a current marker everything the run that made the repository asked for is
answered as it was then. -/
theorem agrees_of_current {key marker : Text} {contents : γ} (hkey : markerKey sha256 made = some key)
    (hres : made.program.result made.world = some contents)
    (hwrite : writeMarker layout key (made.program.recorded sha256 made.world []) = some marker)
    (hcurrent : markerIsCurrent layout sha256 now.world marker key = true)
    (hw : Watched sha256 made now) : ∀ a ∈ made.program.asks made.world, Agrees made.world now.world a := by
  obtain ⟨-,hinputs⟩ := current_of_marker (plain_key hkey) hwrite hcurrent
  intro a ha
  have hnoted : ∀ i, noted sha256 made.world a = some i → ∃ line, recordedText layout i = some line ∧
      inputIsCurrent layout sha256 now.world (chomp line) = true :=
    fun i hi => hinputs i (noted_mem (fun _ hmem => absurd hmem List.not_mem_nil) ha hi)
  cases a with
  | getenv name =>
    rcases hw.environ name ha with hback | hsame
    · obtain ⟨line,hline,hcur⟩ := hnoted _ rfl
      cases hline
      exact env_current hback hcur
    · exact hsame
  | label repo apparent => exact hw.labels repo apparent ha
  | file op path =>
    by_cases hop : op = .read
    · subst hop
      obtain ⟨old,hold⟩ := file_of_result hres ha
      have hi : noted sha256 made.world (.file .read path) =
          some (.file path.names (hex (sha256 old))) := by
        rw [noted, hold]
        rfl
      obtain ⟨line,hline,hcur⟩ := hnoted _ hi
      obtain ⟨new,hnew,hdigest⟩ := file_current path.proper now.linked hline hcur
      show now.world.files path.names = made.world.files path.names
      rw [hold, hnew, hw.contents path old new ha hold hnew hdigest]
    · exact hw.files op path ha hop

theorem upToDate_of_watched (hs : Marked sha256 s) (hw : AllWatched sha256 s now) :
    UpToDate sha256 s now := by
  intro hkept
  have hkept' := hkept
  simp only [kept, Bool.and_eq_true, Option.any_eq_true] at hkept
  obtain ⟨-,key,hkey,marker,hmarker,hcurrent⟩ := hkept
  obtain ⟨made,key',contents,hmade,hkey',hrepo,hres,hwrite⟩ := hs marker hmarker
  obtain ⟨rfl,-⟩ := current_of_marker (plain_key hkey') hwrite hcurrent
  have hw := hw hkept' made hmade
  have hagree := agrees_of_current hkey' hres hwrite hcurrent hw
  refine ⟨contents,hrepo,?_⟩
  rw [program_of_key hkey' hkey hw, result_congr hagree, hres]

end Runs

end BuildFiji.Recorded
