import BuildFiji.Archive.Unified

/-!
# A unified diff is read as it was written

The reading of one kind of line after the other: what says nothing, a `git diff` header, the two
names, a hunk's header and its lines.
-/

set_option autoImplicit false
set_option linter.all false

namespace BuildFiji.Archive

open BuildFiji.Graph (splitOnce splitOnce_none)
open BuildFiji.Text (isWhitespace)

section Steps

variable {files : List FilePatch}

theorem parseFrom_outside (i : ℕ) (line : Line) (rest : List Line) (files : List FilePatch) :
    parseFrom i (line::rest) ⟨files,none⟩ = parseFrom (i+1) rest (header i line rest.head? files) := rfl

theorem header_quiet {line : Line} (h : Quiet line) (i : ℕ) (next : Option Line) (files : List FilePatch) :
    header i (stripCr line) next files = ⟨files,none⟩ ∨ ∃ mode,
      header i (stripCr line) next files = ⟨toLast (fun file => { file with newMode := mode }) files,none⟩ := by
  have hdiff := h "diff --git " (by simp)
  have hfrom := h "rename from " (by simp)
  have hto := h "rename to " (by simp)
  have hold := h "--- " (by simp)
  have hhunk := h "@@ " (by simp)
  unfold header
  rw [hdiff, hfrom, hto, hold, hhunk]
  dsimp only
  split
  · next mode _ => exact .inr ⟨_,rfl⟩
  · rw [if_neg (by simp)]
    exact .inl rfl

/-- Lines that say nothing, but for the mode. -/
theorem parseFrom_quiet {P : List FilePatch → Prop}
    (hP : ∀ files mode, P files → P (toLast (fun file => { file with newMode := mode }) files))
    {quiet : List Line} (h : ∀ line ∈ quiet, Quiet line) (i : ℕ) (rest : List Line) (hfiles : P files) :
    ∃ j files', P files' ∧
      parseFrom i (quiet.map stripCr ++ rest) ⟨files,none⟩ = parseFrom j rest ⟨files',none⟩ := by
  induction quiet generalizing i files with
  | nil => exact ⟨i,files,hfiles,rfl⟩
  | cons line quiet ih =>
    have hrest := fun l hl => h l (List.mem_cons_of_mem _ hl)
    rw [List.map_cons, List.cons_append, parseFrom_outside]
    rcases header_quiet (h line List.mem_cons_self) i (quiet.map stripCr ++ rest).head? files with heq | ⟨mode,heq⟩
    · rw [heq]
      exact ih hrest _ hfiles
    · rw [heq]
      exact ih hrest _ (hP files mode hfiles)

theorem take_line {edit : Edit} {body : Body} (hold : edit.olds.length ≤ body.oldLeft)
    (hnew : edit.news.length ≤ body.newLeft) :
    body.take edit.line = some ⟨⟨body.hunk.oldStart,body.hunk.old ++ edit.olds,
      body.hunk.new ++ edit.news⟩,body.oldLeft-edit.olds.length,body.newLeft-edit.news.length⟩ := by
  cases edit with
  | keep text bare =>
    have hkeep : body.take (if bare ∧ text = [] then [] else ' '::text) = body.keep text := by
      split
      · next h => rw [h.2]; rfl
      · rfl
    show body.take (if bare ∧ text = [] then [] else ' '::text) = _
    rw [hkeep]
    exact if_pos ⟨hold,hnew⟩
  | remove text =>
    show body.remove text = _
    unfold Body.remove
    rw [if_pos (show 0 < body.oldLeft from hold)]
    simp [Edit.olds, Edit.news]
  | add text =>
    show body.add text = _
    unfold Body.add
    rw [if_pos (show 0 < body.newLeft from hnew)]
    simp [Edit.olds, Edit.news]

theorem edit_counts (edit : Edit) : edit.olds.length ≠ 0 ∨ edit.news.length ≠ 0 := by
  cases edit <;> simp [Edit.olds, Edit.news]

/-- The lines of a hunk, as many as it lacks. -/
theorem parseFrom_edits {edits : List Edit} {body : Body}
    (hold : body.oldLeft = (edits.flatMap Edit.olds).length)
    (hnew : body.newLeft = (edits.flatMap Edit.news).length) (i : ℕ) (rest : List Line) :
    ∃ j, parseFrom i (edits.map Edit.line ++ rest) (.of files body) = parseFrom j rest
      ⟨toLast (fun file => { file with hunks := file.hunks ++ [⟨body.hunk.oldStart,
        body.hunk.old ++ edits.flatMap Edit.olds,body.hunk.new ++ edits.flatMap Edit.news⟩] }) files,none⟩ := by
  induction edits generalizing i body with
  | nil =>
    refine ⟨i,?_⟩
    unfold Reading.of
    rw [if_pos ⟨hold,hnew⟩]
    simp
  | cons edit edits ih =>
    rw [List.flatMap_cons, List.length_append] at hold hnew
    have hof : Reading.of files body = ⟨files,some body⟩ := by
      apply if_neg
      rintro ⟨hold',hnew'⟩
      have := edit_counts edit
      omega
    rw [hof, List.map_cons, List.cons_append, parseFrom]
    rw [take_line (by omega) (by omega)]
    dsimp only
    generalize hnext : Body.mk _ _ _ = next
    obtain ⟨j,hj⟩ := @ih next (by rw [← hnext]; dsimp only; omega) (by rw [← hnext]; dsimp only; omega) (i+1)
    refine ⟨j,?_⟩
    rw [hj, ← hnext]
    simp only [List.flatMap_cons, List.append_assoc]

/-- The words of a hunk's header. -/
theorem hunkHeader_head (p : Piece) {o n : ℕ} (note : Line) (hold : o + p.olds.length < 2^63)
    (hnew : n + p.news.length < 2^63) :
    hunkHeader ({ p with note := note }.head o n) =
      some ⟨⟨start o p.olds.length,[],[]⟩,p.olds.length,p.news.length⟩ := by
  have hstart := start_le o p.olds.length
  have hstart' := start_le n p.news.length
  have hsplit : splitWhitespace ({ p with note := note }.head o n) =
      "@@".toList::('-'::range o p.olds.length p.briefOld)::('+'::range n p.news.length p.briefNew)::
        splitWhitespace ("@@".toList ++ note) := by
    have hword : ∀ {word : Line} (rest : Line), word ≠ [] → (∀ c ∈ word, isWhitespace c = false) →
        splitWhitespace (word ++ ' '::rest) = word::splitWhitespace rest := by
      intro word rest hne hw
      unfold splitWhitespace
      rw [List.splitOnP_append_cons_of_forall_mem hw ' ' (by decide), List.filter_cons_of_pos (by simpa using hne)]
    have hrange : ∀ (lead : Char) (before count : ℕ) (brief : Bool), isWhitespace lead = false →
        ∀ c ∈ lead::range before count brief, isWhitespace c = false := by
      intro lead before count brief hlead c hc
      rcases List.mem_cons.mp hc with rfl | hc
      · exact hlead
      · exact range_word before count brief c hc
    have hhead : { p with note := note }.head o n = "@@".toList ++ ' '::
        (('-'::range o p.olds.length p.briefOld) ++ ' '::
          (('+'::range n p.news.length p.briefNew) ++ ' '::("@@".toList ++ note))) := by
      simp [Piece.head, Piece.olds, Piece.news]
    have hat : ∀ c ∈ "@@".toList, isWhitespace c = false := by
      intro c hc
      have hc : c = '@' := by simpa using hc
      rw [hc]
      rfl
    rw [hhead, hword _ (by simp) hat, hword _ (by simp) (hrange '-' _ _ _ rfl),
      hword _ (by simp) (hrange '+' _ _ _ rfl)]
  unfold hunkHeader
  rw [hsplit]
  dsimp only
  rw [parseRange_range (.inl rfl) p.briefOld (by omega) (by omega),
    parseRange_range (.inr rfl) p.briefNew (by omega) (by omega)]
  rfl

theorem header_head (p : Piece) {o n : ℕ} (hold : o + p.olds.length < 2^63)
    (hnew : n + p.news.length < 2^63) (i : ℕ) (next : Option Line) (hfiles : files ≠ []) :
    header i (stripCr (p.head o n)) next files =
      .of files ⟨⟨start o p.olds.length,[],[]⟩,p.olds.length,p.news.length⟩ := by
  have hcr : stripCr (p.head o n) = { p with note := stripCr p.note }.head o n := by
    have hlead : ("@@ -".toList ++ range o p.olds.length p.briefOld ++ " +".toList ++
        range n p.news.length p.briefNew ++ " @@".toList).getLast? ≠ some '\r' := by
      rw [List.getLast?_append_of_ne_nil _ (by decide)]
      decide
    have hhead : ∀ note, { p with note := note }.head o n = ("@@ -".toList ++
        range o p.olds.length p.briefOld ++ " +".toList ++ range n p.news.length p.briefNew ++
          " @@".toList) ++ note := by
      intro note
      simp [Piece.head, Piece.olds, Piece.news]
    rw [hhead (stripCr p.note), show p.head o n = _ from hhead p.note, stripCr_append hlead]
  rw [hcr]
  have hlead : ∃ rest, { p with note := stripCr p.note }.head o n = '@' :: '@' :: ' '::rest := ⟨_,rfl⟩
  have hbody := hunkHeader_head p (stripCr p.note) hold hnew
  obtain ⟨rest,hrest⟩ := hlead
  rw [hrest] at hbody ⊢
  have hhunk : stripPrefix "@@ " ('@' :: '@' :: ' '::rest) = some rest := rfl
  unfold header
  rw [show stripPrefix "diff --git " ('@' :: '@' :: ' '::rest) = none from rfl,
    show stripPrefix "rename from " ('@' :: '@' :: ' '::rest) = none from rfl,
    show stripPrefix "rename to " ('@' :: '@' :: ' '::rest) = none from rfl,
    show stripPrefix "new file mode " ('@' :: '@' :: ' '::rest) = none from rfl,
    show stripPrefix "new mode " ('@' :: '@' :: ' '::rest) = none from rfl,
    show stripPrefix "--- " ('@' :: '@' :: ' '::rest) = none from rfl, hhunk, hbody]
  dsimp only [Option.or]
  rw [if_pos ⟨rfl,hfiles⟩]

/-- The hunks, one after the other, for the last file that was begun. -/
theorem parseFrom_hunks {pieces : List Piece} {o n : ℕ} (hold : o + (oldsOf pieces).length < 2^63)
    (hnew : n + (newsOf pieces).length < 2^63)
    (htexts : ∀ p ∈ pieces, ∀ edit ∈ p.edits, '\r' ∉ edit.line) (hfiles : files ≠ []) (i : ℕ) (rest : List Line) :
    ∃ j, parseFrom i ((hunkLines o n pieces).map stripCr ++ rest) ⟨files,none⟩ = parseFrom j rest
      ⟨toLast (fun file => { file with hunks := file.hunks ++ hunksFrom o pieces }) files,none⟩ := by
  induction pieces generalizing o n i files with
  | nil =>
    refine ⟨i,?_⟩
    obtain ⟨file,files,rfl⟩ := List.exists_cons_of_ne_nil hfiles
    simp [hunkLines, hunksFrom, toLast]
  | cons p pieces ih =>
    simp only [oldsOf, newsOf, List.flatMap_cons, List.length_append] at hold hnew
    have hedits : (p.edits.map Edit.line).map stripCr = p.edits.map Edit.line := by
      rw [List.map_map]
      exact List.map_congr_left fun edit hedit => stripCr_of_not_mem (htexts p List.mem_cons_self edit hedit)
    obtain ⟨file,files,rfl⟩ := List.exists_cons_of_ne_nil hfiles
    rw [hunkLines, Piece.lines, List.map_append, List.map_cons, hedits, List.cons_append, List.cons_append,
      parseFrom_outside, header_head p (by omega) (by omega) _ _ hfiles, List.append_assoc]
    have hold' : o+p.gap.length+p.olds.length + (oldsOf pieces).length < 2^63 := by
      unfold oldsOf
      omega
    have hnew' : n+p.gap.length+p.news.length + (newsOf pieces).length < 2^63 := by
      unfold newsOf
      omega
    obtain ⟨j,hj⟩ := @parseFrom_edits (file::files) p.edits
      ⟨⟨start (o+p.gap.length) p.olds.length,[],[]⟩,p.olds.length,p.news.length⟩ rfl rfl (i+1)
      ((hunkLines (o+p.gap.length+p.olds.length) (n+p.gap.length+p.news.length) pieces).map stripCr ++ rest)
    have hnext := fun files hfiles => @ih files _ _ hold' hnew'
      (fun q hq => htexts q (List.mem_cons_of_mem _ hq)) hfiles j
    obtain ⟨k,hk⟩ := hnext _ (List.cons_ne_nil { file with
      hunks := file.hunks ++ [p.hunk (o+p.gap.length)] } files)
    refine ⟨k,hj.trans (hk.trans ?_)⟩
    simp [toLast, hunksFrom]

/-- What a file's names are of, before any hunk. -/
def Fresh (files : List FilePatch) : Prop :=
  files = [] ∨ ∃ file, files = [file] ∧ file.hunks = [] ∧ file.oldHeader = [] ∧ file.old.isSome = true ∧
    file.renameTo = none

def Reads (old new : Line) (hunks : List Hunk) (files : List FilePatch) : Prop :=
  ∃ file, files = [file] ∧ file.old = some old ∧ file.new = some new ∧ file.renameTo = none ∧
    file.hunks = hunks

theorem Fresh.setMode (files : List FilePatch) (mode : Option ℕ) (h : Fresh files) :
    Fresh (toLast (fun file => { file with newMode := mode }) files) := by
  rcases h with rfl | ⟨file,rfl,h⟩
  · exact .inl rfl
  · exact .inr ⟨_,rfl,h⟩

theorem Reads.setMode {old new : Line} {hunks : List Hunk} (files : List FilePatch) (mode : Option ℕ)
    (h : Reads old new hunks files) :
    Reads old new hunks (toLast (fun file => { file with newMode := mode }) files) := by
  obtain ⟨file,rfl,h⟩ := h
  exact ⟨_,rfl,h⟩

theorem fileHeader_reads (h : Fresh files) (i : ℕ) (line old new : Line) :
    Reads (headerName old) (headerName new) [] (fileHeader i line old new files) := by
  rcases h with rfl | ⟨file,rfl,hhunks,hheader,hold,hto⟩
  · exact ⟨_,rfl,rfl,rfl,rfl,rfl⟩
  · unfold fileHeader
    dsimp only
    rw [if_pos (by simp [hhunks, hheader, hold])]
    exact ⟨_,rfl,rfl,rfl,hto,hhunks⟩

/-- The two lines with a file's names. -/
theorem parseFrom_names (hfiles : Fresh files) (old new : Line) (i : ℕ) (rest : List Line) :
    ∃ j files', Reads (headerName old) (headerName new) [] files' ∧
      parseFrom i (("--- ".toList ++ stripCr old)::("+++ ".toList ++ stripCr new)::rest) ⟨files,none⟩ =
        parseFrom j rest ⟨files',none⟩ := by
  have hnames := fileHeader_reads hfiles i ("--- ".toList ++ stripCr old) (stripCr old) (stripCr new)
  rw [headerName_stripCr, headerName_stripCr] at hnames
  refine ⟨i+1+1,_,hnames,?_⟩
  have hold : ∀ rest : Line, header i ("--- ".toList ++ stripCr old) (some ("+++ ".toList ++ rest)) files =
      ⟨fileHeader i ("--- ".toList ++ stripCr old) (stripCr old) rest files,none⟩ := fun _ => rfl
  have hnew : ∀ files rest next, header (i+1) ("+++ ".toList ++ rest) next files = ⟨files,none⟩ :=
    fun _ _ _ => rfl
  rw [parseFrom_outside, List.head?_cons, hold, parseFrom_outside, hnew]

theorem splitOnce_some_of_mem {c : Char} (a b : Line) : (splitOnce c (a ++ c::b)).isSome = true := by
  cases h : splitOnce c (a ++ c::b) with
  | none => exact absurd (by simp) (splitOnce_none h)
  | some _ => rfl

theorem parseFrom_git (d : Diff) (hquiet : ∀ line ∈ d.gitLines.tail, Quiet line) (i : ℕ) (rest : List Line)
    (hfiles : files = []) : ∃ j files', Fresh files' ∧
      parseFrom i (d.gitLines.map stripCr ++ rest) ⟨files,none⟩ = parseFrom j rest ⟨files',none⟩ := by
  unfold Diff.gitLines at hquiet ⊢
  cases hgit : d.git with
  | none => exact ⟨i,files,.inl hfiles,rfl⟩
  | some git =>
    obtain ⟨a,b,extended⟩ := git
    rw [hgit] at hquiet
    have hcr : stripCr ("diff --git ".toList ++ (a ++ ' '::b)) = "diff --git ".toList ++ stripCr (a ++ ' '::b) :=
      stripCr_append (by decide) _
    have hheader : ∀ rest next, header i ("diff --git ".toList ++ rest) next files = ⟨gitHeader i rest::files,none⟩ :=
      fun _ _ => rfl
    dsimp only
    rw [List.map_cons, List.cons_append, hcr, parseFrom_outside, hheader, hfiles]
    apply parseFrom_quiet Fresh.setMode hquiet
    have hname : stripCr (a ++ ' '::b) = a ++ ' '::stripCr b := by
      have := @stripCr_append (a ++ [' ']) (by simp) b
      rwa [List.append_assoc, List.append_assoc] at this
    refine .inr ⟨_,rfl,rfl,rfl,?_,rfl⟩
    rw [hname]
    unfold gitHeader
    dsimp only
    rw [Option.isSome_map]
    exact splitOnce_some_of_mem a _

end Steps

section Whole

variable {d : Diff}

theorem mem_old_of_olds {p : Piece} (hp : p ∈ d.pieces) {line : Line} (h : line ∈ p.olds) : line ∈ d.old :=
  List.mem_append_left _ (List.mem_flatMap.mpr ⟨p,hp,List.mem_append_right _ h⟩)

theorem mem_new_of_news {p : Piece} (hp : p ∈ d.pieces) {line : Line} (h : line ∈ p.news) : line ∈ d.new :=
  List.mem_append_left _ (List.mem_flatMap.mpr ⟨p,hp,List.mem_append_right _ h⟩)

theorem Diff.Valid.edit_line (hd : d.Valid) {p : Piece} (hp : p ∈ d.pieces) {edit : Edit}
    (hedit : edit ∈ p.edits) : '\r' ∉ edit.line := by
  have hold : ∀ line ∈ edit.olds, '\r' ∉ line := fun line hl => (hd.texts line (List.mem_append_left _
    (mem_old_of_olds hp (List.mem_flatMap.mpr ⟨edit,hedit,hl⟩)))).2
  have hnew : ∀ line ∈ edit.news, '\r' ∉ line := fun line hl => (hd.texts line (List.mem_append_right _
    (mem_new_of_news hp (List.mem_flatMap.mpr ⟨edit,hedit,hl⟩)))).2
  cases edit with
  | keep text bare =>
    have htext := hold text (by simp [Edit.olds])
    show '\r' ∉ if bare ∧ text = [] then [] else ' '::text
    split
    · simp
    · simpa using htext
  | remove text => simpa [Edit.line] using hold text (by simp [Edit.olds])
  | add text => simpa [Edit.line] using hnew text (by simp [Edit.news])

theorem Diff.Valid.old_length (hd : d.Valid) : (oldsOf d.pieces).length < 2^63 := by
  have hlines := length_le_unlines d.old
  have hlength : d.old.length = (oldsOf d.pieces).length + d.tail.length := List.length_append
  have := hd.old_size
  omega

theorem Diff.Valid.new_length (hd : d.Valid) : (newsOf d.pieces).length < 2^63 := by
  have hlines := length_le_unlines d.new
  have hlength : d.new.length = (newsOf d.pieces).length + d.tail.length := List.length_append
  have := hd.new_size
  omega

/-- The text of a diff is read as one file, with its two names and its hunks. -/
theorem parse_text (hd : d.Valid) : ∃ file, parse d.text = .ok [file] ∧
    file.old = some (headerName d.oldName) ∧ file.new = some (headerName d.newName) ∧
    file.renameTo = none ∧ file.hunks = hunksFrom 0 d.pieces := by
  have hquiet := hd.quiet
  unfold parse Diff.text
  rw [linesText_unlines hd.lines]
  unfold Diff.lines
  rw [List.map_append, List.map_append, List.map_cons, List.map_cons, List.map_append,
    stripCr_append (by decide), stripCr_append (by decide)]
  -- What stands before the first header is of no file.
  obtain ⟨i,files,rfl,hi⟩ := @parseFrom_quiet [] (· = []) (by rintro _ _ rfl; rfl) d.preamble
    (fun line hl => hquiet line (List.mem_append_left _ hl)) 0 (d.gitLines.map stripCr ++
      ("--- ".toList ++ stripCr d.oldName)::("+++ ".toList ++ stripCr d.newName)::
        ((hunkLines 0 0 d.pieces).map stripCr ++ d.trailer.map stripCr)) rfl
  obtain ⟨j,files,hfresh,hj⟩ := @parseFrom_git [] d (fun line hl => hquiet line
    (List.mem_append_right _ (List.mem_append_left _ hl))) i (("--- ".toList ++ stripCr d.oldName)::
      ("+++ ".toList ++ stripCr d.newName)::
        ((hunkLines 0 0 d.pieces).map stripCr ++ d.trailer.map stripCr)) rfl
  obtain ⟨k,files',hreads,hk⟩ := parseFrom_names hfresh d.oldName d.newName j
    ((hunkLines 0 0 d.pieces).map stripCr ++ d.trailer.map stripCr)
  obtain ⟨file,rfl,hold,hnew,hto,hhunks⟩ := hreads
  obtain ⟨l,hl⟩ := @parseFrom_hunks [file] d.pieces 0 0 (by have := hd.old_length; omega)
    (by have := hd.new_length; omega) (fun p hp edit hedit => hd.edit_line hp hedit) (by simp) k
    (d.trailer.map stripCr)
  have hreads : Reads (headerName d.oldName) (headerName d.newName) (hunksFrom 0 d.pieces)
      (toLast (fun file => { file with hunks := file.hunks ++ hunksFrom 0 d.pieces }) [file]) :=
    ⟨_,rfl,hold,hnew,hto,by dsimp only; rw [hhunks, List.nil_append]⟩
  obtain ⟨m,files',⟨file',rfl,h⟩,hm⟩ := parseFrom_quiet Reads.setMode (fun line hl => hquiet line
    (List.mem_append_right _ (List.mem_append_right _ hl))) l [] hreads
  rw [List.append_nil] at hm
  exact ⟨file',by rw [hi, hj, hk, hl, hm]; rfl,h⟩

end Whole

end BuildFiji.Archive
