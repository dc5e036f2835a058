import BuildFiji.Repo.EscapedText

/-!
# Reading a marker back

The lines of a marker are the heading, the key and what was written for each input.
A file's line reads back as the same file, and a variable's when its name holds no
space and its value no backslash and no carriage return at the end.
-/

set_option autoImplicit false
set_option linter.all false

namespace BuildFiji.Recorded

open BuildFiji.Graph BuildFiji.Framing

section Splits

theorem dropPrefix?_append {α : Type} [BEq α] [LawfulBEq α] (p s : List α) :
    (p ++ s).dropPrefix? p = some s :=
  List.dropPrefix?_eq_some_iff.mpr ⟨p,rfl,beq_self_eq_true p⟩

theorem dropPrefix?_some {α : Type} [BEq α] [LawfulBEq α] {l p rest : List α}
    (h : l.dropPrefix? p = some rest) : l = p ++ rest := by
  obtain ⟨p',hp,he⟩ := List.dropPrefix?_eq_some_iff.mp h
  rw [hp, beq_iff_eq.mp he]

theorem splitOnce_slashes {a : Text} (b : Text) (h : '/' ∉ a) :
    Text.splitOnce "//".toList (a ++ ("//".toList ++ b)) = some (a,b) := Text.splitOnce_sep b h

theorem rsplitOnce_char {c : Char} (a : Text) {b : Text} (h : c ∉ b) :
    rsplitOnce c (a ++ c::b) = some (a,b) := by
  have hrev : (a ++ c::b).reverse = b.reverse ++ c::a.reverse := by simp
  rw [rsplitOnce, hrev, Text.splitOnce_char a.reverse (by simpa using h)]
  simp

theorem rsplitOnce_absent {c : Char} {a : Text} (h : c ∉ a) : rsplitOnce c a = none := by
  rw [rsplitOnce, Text.splitOnce_absent (by simpa using h)]
  rfl

theorem rsplitOnce_some {c : Char} {l a b : Text} (h : rsplitOnce c l = some (a,b)) :
    l = a ++ c::b ∧ c ∉ b := by
  obtain ⟨⟨x,y⟩,hs,he⟩ := Option.map_eq_some_iff.mp h
  cases he
  obtain ⟨hl,hx⟩ := Text.splitOnce_some hs
  refine ⟨?_,by simpa using hx⟩
  rw [← List.reverse_reverse l, hl]
  simp

end Splits

section Files

/-- The names of a path as it is taken apart. -/
def Proper (names : Names) : Prop := ∀ n ∈ names, n ≠ [] ∧ n ≠ ['.'] ∧ '/' ∉ n

theorem namesOf_display {names : Names} (h : Proper names) : namesOf (display names) = names := by
  cases names with
  | nil => rfl
  | cons n names =>
    rw [namesOf, display, splitOn_intercalate (List.cons_ne_nil _ _) fun n hn => (h n hn).2.2]
    apply List.filter_eq_self.mpr
    intro m hm
    obtain ⟨hne,hdot,-⟩ := h m hm
    simp [hne, hdot]

theorem Proper.sublist {names rest : Names} (h : Proper names) (hs : ∀ n ∈ rest, n ∈ names) :
    Proper rest := fun n hn => h n (hs n hn)

variable {layout : Layout}

/-- What is reached through a resolved root is what is reached through the root. -/
structure Linked (layout : Layout) (world : World) : Prop where
  root : ∀ resolved rest, layout.resolvedRoot = some resolved →
    world.files (resolved ++ rest) = world.files (layout.workspaceRoot ++ rest)
  external : ∀ resolved rest, layout.resolvedExternal = some resolved →
    world.files (resolved ++ rest) = world.files (layout.external ++ rest)

theorem under_some {path root rest : Names} {resolved : Option Names}
    (h : under path root resolved = some rest) :
    path = root ++ rest ∨ ∃ r, resolved = some r ∧ path = r ++ rest := by
  unfold under at h
  cases hroot : path.dropPrefix? root with
  | some r =>
    rw [hroot] at h
    cases h
    exact Or.inl (dropPrefix?_some hroot)
  | none =>
    rw [hroot] at h
    obtain ⟨r,hr,h⟩ := Option.bind_eq_some_iff.mp h
    exact Or.inr ⟨r,hr,dropPrefix?_some h⟩

/-- The text of a path leads to what the path leads to. -/
theorem filePath_repoPath {path : Names} {text : Text} (hproper : Proper path)
    (h : repoPath layout path = some text) : ∃ path', filePath layout text = some path' ∧
      ∀ world, Linked layout world → world.files path' = world.files path := by
  unfold repoPath at h
  cases hroot : under path layout.workspaceRoot layout.resolvedRoot with
  | some rest =>
    rw [hroot] at h
    cases h
    have hrest : Proper rest := by
      apply hproper.sublist
      intro n hn
      rcases under_some hroot with rfl | ⟨r,-,rfl⟩
      · exact List.mem_append_right _ hn
      · exact List.mem_append_right _ hn
    refine ⟨layout.workspaceRoot ++ rest,?_,?_⟩
    · have hd : ("@@//".toList ++ display rest).dropPrefix? "@@".toList =
          some ([] ++ ("//".toList ++ display rest)) :=
        dropPrefix?_append "@@".toList ("//".toList ++ display rest)
      rw [filePath, hd]
      simp only [Option.bind_eq_bind, Option.bind_some]
      rw [splitOnce_slashes (display rest) List.not_mem_nil]
      simp only [Option.bind_some, List.isEmpty_nil, if_true, namesOf_display hrest]
    · intro world hlinked
      rcases under_some hroot with rfl | ⟨r,hr,rfl⟩
      · rfl
      · exact (hlinked.root r rest hr).symm
  | none =>
    rw [hroot] at h
    cases hext : under path layout.external layout.resolvedExternal with
    | none =>
      rw [hext] at h
      cases h
    | some names =>
      rw [hext] at h
      cases names with
      | nil => cases h
      | cons repo rest =>
        cases h
        have hall : Proper (repo::rest) := by
          apply hproper.sublist
          intro n hn
          rcases under_some hext with rfl | ⟨r,-,rfl⟩
          · exact List.mem_append_right _ hn
          · exact List.mem_append_right _ hn
        have hrest := hall.sublist fun n hn => List.mem_cons_of_mem repo hn
        obtain ⟨hne,-,hslash⟩ := hall repo List.mem_cons_self
        refine ⟨layout.external ++ repo::rest,?_,?_⟩
        · rw [filePath, List.append_assoc, List.append_assoc, dropPrefix?_append]
          simp only [Option.bind_eq_bind, Option.bind_some]
          rw [splitOnce_slashes (display rest) hslash]
          have hf : repo.isEmpty = false := by simpa using hne
          simp only [Option.bind_some, hf, Bool.false_eq_true, if_false, namesOf_display hrest]
        · intro world hlinked
          rcases under_some hext with rfl | ⟨r,hr,rfl⟩
          · rfl
          · exact (hlinked.external r (repo::rest) hr).symm

end Files

section Lines

theorem linesFrom_append {l : Text} (h : '\n' ∉ l) (rest line : Text) :
    linesFrom (l ++ '\n'::rest) line = chomp (line ++ l)::linesFrom rest [] := by
  induction l generalizing line with
  | nil => rw [List.nil_append, List.append_nil, linesFrom, if_pos rfl]
  | cons c l ih =>
    have hc : c ≠ '\n' := fun he => h (he ▸ List.mem_cons_self)
    rw [List.cons_append, linesFrom, if_neg hc, ih fun hm => h (List.mem_cons_of_mem _ hm),
      List.append_assoc, List.singleton_append]

theorem lines_append {l : Text} (h : '\n' ∉ l) (rest : Text) :
    lines (l ++ '\n'::rest) = chomp l::lines rest := linesFrom_append h rest []

variable {layout : Layout}

def written (layout : Layout) (input : RecordedInput) : Text := (recordedText layout input).getD []

/-- The lines of a marker are what was written for the inputs. -/
theorem lines_markerLines {inputs : List RecordedInput} {text : Text}
    (h : markerLines layout inputs = some text) :
    lines text = inputs.map (fun i => chomp (written layout i)) ∧
      ∀ i ∈ inputs, recordedText layout i = some (written layout i) := by
  induction inputs generalizing text with
  | nil =>
    cases h
    exact ⟨rfl,fun _ hi => absurd hi List.not_mem_nil⟩
  | cons input inputs ih =>
    obtain ⟨line,hline,h⟩ := Option.bind_eq_some_iff.mp h
    have hw : written layout input = line := by rw [written, hline, Option.getD_some]
    by_cases hbad : (line.contains '\n' || "DIRENTS:".toList.isPrefixOf line) = true
    · rw [if_pos hbad] at h
      cases h
    · rw [if_neg hbad] at h
      obtain ⟨rest,hrest,h⟩ := Option.bind_eq_some_iff.mp h
      have htext : line ++ '\n'::rest = text := Option.some.inj h
      have hn : '\n' ∉ line := by
        intro hm
        apply hbad
        rw [List.contains_eq_mem, decide_eq_true hm, Bool.true_or]
      obtain ⟨hlines,hall⟩ := ih hrest
      constructor
      · rw [← htext, lines_append hn, hlines, List.map_cons, hw]
      · intro i hi
        rcases List.mem_cons.mp hi with rfl | hi
        · rw [hw]
          exact hline
        · exact hall i hi

/-- A key is written in digits. -/
structure Plain (text : Text) : Prop where
  digits : ∀ c ∈ text, isHexDigit c = true

theorem Plain.not_mem {text : Text} (h : Plain text) {c : Char} (hc : isHexDigit c = false) :
    c ∉ text := by
  intro hm
  rw [h.digits c hm] at hc
  cases hc

theorem Plain.chomp {text : Text} (h : Plain text) : chomp text = text := by
  rw [Recorded.chomp, if_neg]
  intro hl
  exact h.not_mem (by decide) (List.mem_of_getLast? hl)

variable {sha256 : Bytes → Bytes} {world : World}

theorem recorded_of_marker {key : Text} {inputs : List RecordedInput} {marker : Text}
    (hwrite : writeMarker layout key inputs = some marker) :
    ∀ i ∈ inputs, recordedText layout i = some (written layout i) := by
  obtain ⟨text,htext,-⟩ := Option.map_eq_some_iff.mp hwrite
  exact (lines_markerLines htext).2

theorem marker_current {key key' : Text} {inputs : List RecordedInput} {marker : Text}
    (hn : '\n' ∉ key) (hwrite : writeMarker layout key inputs = some marker) :
    markerIsCurrent layout sha256 world marker key' = true ↔ key' = chomp key ∧
      ∀ i ∈ inputs, inputIsCurrent layout sha256 world (chomp (written layout i)) = true := by
  obtain ⟨text,htext,hmarker⟩ := Option.map_eq_some_iff.mp hwrite
  have hl : lines marker = heading::chomp key::inputs.map fun i => chomp (written layout i) := by
    rw [← hmarker, List.append_assoc, List.cons_append, lines_append (by decide), lines_append hn,
      (lines_markerLines htext).1]
    rfl
  rw [markerIsCurrent, hl]
  simp only [Bool.and_eq_true, beq_iff_eq, List.all_eq_true, List.forall_mem_map, true_and]
  exact and_congr_left' eq_comm

/-- A current marker is that of the key, and what it says of each input is so. -/
theorem current_of_marker {key key' : Text} {inputs : List RecordedInput} {marker : Text}
    (hkey : Plain key) (hwrite : writeMarker layout key inputs = some marker)
    (h : markerIsCurrent layout sha256 world marker key' = true) :
    key' = key ∧ ∀ i ∈ inputs, ∃ line, recordedText layout i = some line ∧
      inputIsCurrent layout sha256 world (chomp line) = true := by
  obtain ⟨hk,hall⟩ := (marker_current (hkey.not_mem (by decide)) hwrite).mp h
  rw [hkey.chomp] at hk
  exact ⟨hk,fun i hi => ⟨_,recorded_of_marker hwrite i hi,hall i hi⟩⟩
end Lines

section Current

variable {layout : Layout} {sha256 : Bytes → Bytes} {world : World}

def writtenValue : Option Text → Text
  | none => "\\0".toList
  | some v => escape v

def readValue (text : Text) : Option Text := if text = "\\0".toList then none else some (unescape text)

theorem readEnv_some {rest name : Text} {value : Option Text} :
    readEnv rest = some (name,value) ↔ ∃ w, rest = name ++ ' '::w ∧ ' ' ∉ name ∧ readValue w = value := by
  constructor
  · intro h
    obtain ⟨⟨a,w⟩,hs,he⟩ := Option.bind_eq_some_iff.mp h
    cases he
    obtain ⟨hrest,hn⟩ := Text.splitOnce_some hs
    exact ⟨w,hrest,hn,rfl⟩
  · rintro ⟨w,rfl,hn,rfl⟩
    rw [readEnv, Text.splitOnce_char _ hn]
    rfl

theorem chomp_append (a w : Text) : chomp (a ++ ' '::w) = a ++ ' '::chomp w := by
  rcases List.eq_nil_or_concat w with rfl | ⟨u,c,rfl⟩
  · rw [chomp, if_neg]
    · rfl
    · rw [List.getLast?_append]
      exact fun h => absurd (Option.some.inj h) (by decide)
  · rw [List.concat_eq_append, ← List.cons_append, ← List.append_assoc, chomp, chomp, List.getLast?_concat,
      List.getLast?_concat, List.dropLast_concat, List.dropLast_concat]
    by_cases hc : c = '\r'
    · rw [if_pos (congrArg some hc), if_pos (congrArg some hc)]
    · have hne : ¬some c = some '\r' := fun h => hc (Option.some.inj h)
      rw [if_neg hne, if_neg hne, List.append_assoc]
      rfl

theorem chomp_eq_iff (w : Text) : chomp w = w ↔ w.getLast? ≠ some '\r' := by
  rw [chomp]
  split
  · rename_i hlast
    obtain ⟨u,rfl⟩ := List.getLast?_eq_some_iff.mp hlast
    rw [List.dropLast_concat]
    exact iff_of_false (by simp) (fun h => h hlast)
  · rename_i hlast
    exact iff_of_true rfl hlast

theorem readValue_escape (v : Text) : readValue (escape v) = some (mangled v) := by
  rw [readValue, if_neg (escape_ne_unset v), unescape_escape_mangled]

theorem readValue_written (value : Option Text) :
    readValue (writtenValue value) = value ↔ ∀ v, value = some v → Bare v := by
  cases value with
  | none => exact iff_of_true rfl nofun
  | some v =>
    rw [writtenValue, readValue_escape, Option.some.injEq, mangled_eq_iff]
    exact ⟨fun h w hw => Option.some.inj hw ▸ h,fun h => h v rfl⟩

theorem readValue_chomped (value : Option Text) :
    readValue (chomp (writtenValue value)) = value ↔
      ∀ v, value = some v → Bare v ∧ v.getLast? ≠ some '\r' := by
  cases value with
  | none => exact iff_of_true (by decide) nofun
  | some v =>
    have hforall : (∀ w, some v = some w → Bare w ∧ w.getLast? ≠ some '\r') ↔
        Bare v ∧ v.getLast? ≠ some '\r' :=
      ⟨fun h => h v rfl,fun h w hw => Option.some.inj hw ▸ h⟩
    rw [hforall, writtenValue]
    by_cases hlast : v.getLast? = some '\r'
    · obtain ⟨u,rfl⟩ := List.getLast?_eq_some_iff.mp hlast
      have hc : chomp (escape (u ++ ['\r'])) = escape u := by
        rw [chomp, if_pos (escape_last.mpr hlast), escape_append]
        exact List.dropLast_concat
      rw [hc, readValue_escape]
      refine iff_of_false ?_ fun h => h.2 hlast
      intro h
      have hlength := congrArg List.length (Option.some.inj h)
      rw [mangled_length, List.length_append, List.length_singleton] at hlength
      omega
    · rw [(chomp_eq_iff _).mpr (fun h => hlast (escape_last.mp h)), readValue_escape, Option.some.injEq,
        mangled_eq_iff]
      exact ⟨fun h => ⟨h,hlast⟩,fun h => h.1⟩

/-- The line of a variable says, read back, what was written. -/
def ReadsBack (name : Text) (value : Option Text) : Prop :=
  ((chomp (envLine name value)).dropPrefix? "ENV:".toList).bind readEnv = some (name,value)

theorem envLine_eq (name : Text) (value : Option Text) :
    envLine name value = "ENV:".toList ++ (name ++ ' '::writtenValue value) := by
  cases value <;> exact List.append_assoc _ _ _

theorem dropPrefix?_head {c d : Char} (h : c ≠ d) (s t : Text) : (c::s).dropPrefix? (d::t) = none := by
  rw [List.dropPrefix?, if_neg]
  exact fun he => h (beq_iff_eq.mp he)

theorem env_line_current (rest : Text) :
    inputIsCurrent layout sha256 world ("ENV:".toList ++ rest) = envIsCurrent world rest := by
  have hmapping : ("ENV:".toList ++ rest).dropPrefix? "REPO_MAPPING:".toList = none :=
    dropPrefix?_head (by decide) _ _
  rw [inputIsCurrent, hmapping, dropPrefix?_append]

theorem env_current {name : Text} {value : Option Text} (hback : ReadsBack name value)
    (h : inputIsCurrent layout sha256 world (chomp (envLine name value)) = true) :
    world.environ name = value := by
  obtain ⟨rest,hrest,hread⟩ := Option.bind_eq_some_iff.mp hback
  rw [dropPrefix?_some hrest, env_line_current, envIsCurrent, hread] at h
  exact beq_iff_eq.mp h

/-- Nothing of a file's line is lost, and it is compared with what the path leads to. -/
theorem file_line {path : Names} {line : Text} {bytes : Bytes} (hproper : Proper path)
    (hlinked : Linked layout world)
    (hline : recordedText layout (.file path (hex (sha256 bytes))) = some line) :
    chomp line = line ∧ (inputIsCurrent layout sha256 world line = true ↔
      ∃ now, world.files path = some now ∧ hex (sha256 now) = hex (sha256 bytes)) := by
  obtain ⟨p,hp,hline⟩ := Option.map_eq_some_iff.mp hline
  obtain ⟨path',hpath,hfiles⟩ := filePath_repoPath hproper hp
  have hplain : Plain (hex (sha256 bytes)) := ⟨hex_digits _⟩
  have hl : "FILE:".toList ++ (p ++ ' '::hex (sha256 bytes)) = line := by
    rw [← hline, List.append_assoc]
  subst hl
  constructor
  · rw [chomp, if_neg]
    intro hl
    rw [List.getLast?_append, List.getLast?_append, List.getLast?_cons] at hl
    cases hg : (hex (sha256 bytes)).getLast? with
    | none =>
      rw [hg] at hl
      cases hl
    | some c =>
      rw [hg] at hl
      have hc : c = '\r' := by simpa using hl
      exact hplain.not_mem (by decide) (hc ▸ List.mem_of_getLast? hg)
  · have h1 : ("FILE:".toList ++ (p ++ ' '::hex (sha256 bytes))).dropPrefix? "REPO_MAPPING:".toList =
        none := dropPrefix?_head (by decide) _ _
    have h2 : ("FILE:".toList ++ (p ++ ' '::hex (sha256 bytes))).dropPrefix? "ENV:".toList =
        none := dropPrefix?_head (by decide) _ _
    rw [inputIsCurrent, h1, h2, dropPrefix?_append]
    show fileIsCurrent layout sha256 world (p ++ ' '::hex (sha256 bytes)) = true ↔ _
    rw [fileIsCurrent, rsplitOnce_char p (hplain.not_mem (by decide))]
    simp only [hpath]
    rw [hfiles world hlinked]
    cases world.files path with
    | none => simp
    | some now => simp

theorem file_current {path : Names} {line : Text} {bytes : Bytes} (hproper : Proper path)
    (hlinked : Linked layout world)
    (hline : recordedText layout (.file path (hex (sha256 bytes))) = some line)
    (h : inputIsCurrent layout sha256 world (chomp line) = true) :
    ∃ now, world.files path = some now ∧ sha256 now = sha256 bytes := by
  obtain ⟨hchomp,hiff⟩ := file_line hproper hlinked hline
  rw [hchomp] at h
  obtain ⟨now,hnow,hhex⟩ := hiff.mp h
  exact ⟨now,hnow,hex_injective hhex⟩

end Current

end BuildFiji.Recorded
