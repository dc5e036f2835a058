import BuildFiji.Archive.UnifiedRead
import BuildFiji.Archive.PatchInside

/-!
# A unified diff is applied

The hunks of a diff of the text that is there are found where they are expected. That is where
they belong, but for lines put in after others with nothing around them, which are put in one
line too early, and but for an empty text, which is taken as one empty line.
-/

set_option autoImplicit false
set_option linter.all false

namespace BuildFiji.Archive

open BuildFiji.Graph (splitOn)
open BuildFiji.Stateful

/-- Lines with nothing around them, put in after others, are each the same as the last of these. -/
def Piece.Copies (p : Piece) (old new : List Line) : Prop :=
  p.olds = [] → old ≠ [] → ∀ last ∈ new.getLast?, ∀ line ∈ p.news, line = last

/-- The condition for a diff to be applied right: no hunk for an empty text, and what is put in
with nothing around it stands before all old lines, or after no new ones, or copies the one before. -/
def Diff.Met (d : Diff) : Prop :=
  (d.old = [] → d.pieces = []) ∧ ∀ front p back, d.pieces = front ++ p::back →
    p.Copies (oldsOf front ++ p.gap) (newsOf front ++ p.gap)

section Hunks

theorem applyHunk_at {a b : List Line} {hunk : Hunk} {drift : ℤ}
    (h : (max (asIsize (hunk.oldStart-1) + drift) 0).toNat = a.length) :
    applyHunk (a ++ hunk.old ++ b) drift hunk =
      .ok (a ++ hunk.new ++ b,drift + hunk.new.length - hunk.old.length) := by
  have hfits : fits (a ++ hunk.old ++ b) hunk a.length = true := by
    unfold fits
    rw [decide_eq_true_eq, List.append_assoc, List.drop_left, List.take_left]
    refine ⟨?_,rfl⟩
    rw [List.length_append, List.length_append]
    omega
  have hplaces : ∃ others, places a.length (a ++ hunk.old ++ b).length = a.length::others := by
    unfold places
    rw [List.range_succ_eq_map, List.flatMap_cons]
    exact ⟨_,rfl⟩
  obtain ⟨others,hothers⟩ := hplaces
  unfold applyHunk
  dsimp only
  rw [h, hothers, List.find?_cons_of_pos hfits]
  dsimp only
  rw [List.append_assoc a, List.take_left, ← List.length_append, ← List.append_assoc a, List.drop_left]
  congr 3
  omega

theorem asIsize_eq {n : ℕ} (h : n < 2^63) : asIsize n = n := if_pos h

theorem concat_eq_cons {α : Type} {l : List α} {x y : α} :
    l ++ [y] = x::l ↔ y = x ∧ ∀ a ∈ l, a = x := by
  induction l generalizing x with
  | nil => simp
  | cons a l ih =>
    rw [List.cons_append, List.cons.injEq, ih, List.forall_mem_cons]
    constructor
    · rintro ⟨rfl,rfl,h⟩
      exact ⟨rfl,rfl,h⟩
    · rintro ⟨rfl,rfl,h⟩
      exact ⟨rfl,rfl,h⟩

/-- One hunk: `done` is what the lines so far became, and `new` what they are to become. -/
theorem applyHunk_piece (p : Piece) {old new done : List Line} {drift : ℤ}
    (hlength : done.length = new.length) (hdrift : (old.length:ℤ) + drift = done.length)
    (hsize : (old ++ (p.gap ++ p.olds)).length < 2^63) (rest : List Line) :
    ∃ done' drift', applyHunk (done ++ (p.gap ++ p.olds) ++ rest) drift (p.hunk (old.length+p.gap.length)) =
        .ok (done' ++ rest,drift') ∧
      done'.length = (new ++ (p.gap ++ p.news)).length ∧
      ((old ++ (p.gap ++ p.olds)).length:ℤ) + drift' = done'.length ∧
      (∀ line ∈ done', line ∈ done ∨ line ∈ p.gap ++ p.news) ∧
      (done' = new ++ (p.gap ++ p.news) ↔ done = new ∧ p.Copies (old ++ p.gap) (new ++ p.gap)) := by
  simp only [List.length_append] at hsize
  by_cases hshift : p.olds = [] ∧ old ++ p.gap ≠ [] ∧ done ++ p.gap ≠ []
  · obtain ⟨holds,hold,hdone⟩ := hshift
    obtain ⟨before,last,hlast⟩ : ∃ before last, done ++ p.gap = before ++ [last] :=
      ⟨_,_,(List.dropLast_append_getLast hdone).symm⟩
    have hlengths := congrArg List.length hlast
    simp only [List.length_append, List.length_singleton] at hlengths
    have hexpected : (max (asIsize ((p.hunk (old.length+p.gap.length)).oldStart-1) + drift) 0).toNat =
        before.length := by
      have hpos := List.length_pos_of_ne_nil hold
      have hstart : (p.hunk (old.length+p.gap.length)).oldStart = old.length+p.gap.length :=
        if_pos (by rw [holds]; rfl)
      rw [List.length_append] at hpos
      rw [hstart, asIsize_eq (by omega)]
      omega
    refine ⟨before ++ p.news ++ [last],drift + p.news.length - p.olds.length,?_,?_,?_,?_,?_⟩
    · have hlines : done ++ (p.gap ++ p.olds) ++ rest =
          before ++ (p.hunk (old.length+p.gap.length)).old ++ ([last] ++ rest) := by
        rw [holds, List.append_nil, hlast]
        simp [Piece.hunk, holds]
      rw [hlines, applyHunk_at hexpected]
      simp [Piece.hunk]
    · simp only [List.length_append, List.length_singleton]
      omega
    · simp only [List.length_append, List.length_singleton]
      omega
    · intro line hl
      have : line ∈ done ++ p.gap ∨ line ∈ p.news := by
        rw [hlast]
        simp only [List.mem_append] at hl ⊢
        tauto
      simp only [List.mem_append] at this ⊢
      tauto
    · obtain ⟨before',last',hlast'⟩ : ∃ before' last', new ++ p.gap = before' ++ [last'] := by
        refine ⟨_,_,(List.dropLast_append_getLast (l := new ++ p.gap) ?_).symm⟩
        intro hnil
        have := congrArg List.length hnil
        rw [List.length_append, List.length_nil] at this
        omega
      have hlengths' := congrArg List.length hlast'
      simp only [List.length_append, List.length_singleton] at hlengths'
      have hdone : done = new ↔ before = before' ∧ last = last' := by
        rw [← List.append_left_inj p.gap, hlast, hlast', ← List.concat_eq_append, ← List.concat_eq_append,
          List.concat_inj]
      have hcopies : p.Copies (old ++ p.gap) (new ++ p.gap) ↔ ∀ line ∈ p.news, line = last' := by
        unfold Piece.Copies
        rw [hlast', List.getLast?_concat]
        exact ⟨fun h => h holds hold last' rfl,fun h _ _ _ hl => by cases hl; exact h⟩
      have hsides : before ++ p.news ++ [last] = new ++ (p.gap ++ p.news) ↔
          before = before' ∧ p.news ++ [last] = last'::p.news := by
        rw [← List.append_assoc new, hlast', List.append_assoc, List.append_assoc, List.singleton_append,
          List.append_eq_append_iff_of_size_eq_left (by omega)]
      rw [hsides, concat_eq_cons, hdone, hcopies, and_assoc]
  · have hexpected : (max (asIsize ((p.hunk (old.length+p.gap.length)).oldStart-1) + drift) 0).toNat =
        (done ++ p.gap).length := by
      unfold Piece.hunk start
      dsimp only
      rw [List.length_append]
      split
      · next hzero =>
        rw [asIsize_eq (by omega)]
        by_cases hold : old ++ p.gap = []
        · have := congrArg List.length hold
          rw [List.length_append, List.length_nil] at this
          omega
        · have hdone : done ++ p.gap = [] := by
            by_contra hne
            exact hshift ⟨List.length_eq_zero_iff.mp hzero,hold,hne⟩
          have := congrArg List.length hdone
          rw [List.length_append, List.length_nil] at this
          omega
      · rw [asIsize_eq (by omega)]
        omega
    refine ⟨done ++ (p.gap ++ p.news),drift + p.news.length - p.olds.length,?_,?_,?_,?_,?_⟩
    · have := @applyHunk_at (done ++ p.gap) rest _ _ hexpected
      simpa [Piece.hunk] using this
    · simp [hlength]
    · simp only [List.length_append]
      omega
    · intro line hl
      exact List.mem_append.mp hl
    · rw [List.append_left_inj, iff_self_and]
      rintro rfl holds hold last hlast
      refine absurd ⟨holds,hold,?_⟩ hshift
      rintro hnil
      rw [hnil] at hlast
      cases hlast

theorem forall_cons_split {α : Type} {P : List α → α → Prop} {a : α} {l : List α} :
    (∀ front b back, a::l = front ++ b::back → P front b) ↔
      P [] a ∧ ∀ front b back, l = front ++ b::back → P (a::front) b := by
  constructor
  · intro h
    refine ⟨h [] a l rfl,fun front b back heq => h (a::front) b back ?_⟩
    rw [heq, List.cons_append]
  · rintro ⟨hhead,htail⟩ front b back heq
    cases front with
    | nil =>
      cases heq
      exact hhead
    | cons c front =>
      rw [List.cons_append] at heq
      cases heq
      exact htail front b back rfl

/-- All hunks, from what the lines before them became. -/
theorem applyHunks_pieces (front pieces : List Piece) {done : List Line} {drift : ℤ}
    (hlength : done.length = (newsOf front).length)
    (hdrift : ((oldsOf front).length:ℤ) + drift = done.length)
    (hsize : (oldsOf (front ++ pieces)).length < 2^63) (rest : List Line) :
    ∃ done', applyHunksFrom (done ++ oldsOf pieces ++ rest) drift (hunksFrom (oldsOf front).length pieces) =
        .ok (done' ++ rest) ∧
      done'.length = (newsOf (front ++ pieces)).length ∧
      (∀ line ∈ done', line ∈ done ∨ line ∈ newsOf pieces) ∧
      (done' = newsOf (front ++ pieces) ↔ done = newsOf front ∧ ∀ more p back, pieces = more ++ p::back →
        p.Copies (oldsOf (front ++ more) ++ p.gap) (newsOf (front ++ more) ++ p.gap)) := by
  induction pieces generalizing front done drift with
  | nil =>
    refine ⟨done,by simp [oldsOf, hunksFrom, applyHunksFrom],by simpa using hlength,fun _ hl => .inl hl,?_⟩
    simp
  | cons p pieces ih =>
    have holds : oldsOf (front ++ [p]) = oldsOf front ++ (p.gap ++ p.olds) := by simp [oldsOf]
    have hnews : newsOf (front ++ [p]) = newsOf front ++ (p.gap ++ p.news) := by simp [newsOf]
    have happend : front ++ p::pieces = front ++ [p] ++ pieces := by simp
    have hpiece : (oldsOf front ++ (p.gap ++ p.olds)).length < 2^63 := by
      rw [happend, oldsOf, List.flatMap_append, List.length_append, ← oldsOf, holds] at hsize
      omega
    obtain ⟨done₁,drift₁,hrun₁,hlength₁,hdrift₁,hmem₁,hiff₁⟩ :=
      applyHunk_piece p hlength hdrift hpiece (oldsOf pieces ++ rest)
    rw [← hnews] at hlength₁ hiff₁
    rw [← holds] at hdrift₁
    rw [happend] at hsize ⊢
    obtain ⟨done₂,hrun₂,hlength₂,hmem₂,hiff₂⟩ := ih (front ++ [p]) hlength₁ hdrift₁ hsize
    refine ⟨done₂,?_,hlength₂,?_,?_⟩
    · have hlines : done ++ oldsOf (p::pieces) ++ rest =
          done ++ (p.gap ++ p.olds) ++ (oldsOf pieces ++ rest) := by
        simp [oldsOf]
      have hbefore : (oldsOf (front ++ [p])).length = (oldsOf front).length + p.gap.length + p.olds.length := by
        rw [holds, List.length_append, List.length_append, Nat.add_assoc]
      rw [hbefore, List.append_assoc] at hrun₂
      rw [hlines, hunksFrom, applyHunksFrom, hrun₁]
      exact hrun₂
    · intro line hl
      have hmem : line ∈ newsOf (p::pieces) ↔ line ∈ p.gap ++ p.news ∨ line ∈ newsOf pieces := by
        rw [newsOf, List.flatMap_cons, List.mem_append]
        rfl
      rw [hmem]
      rcases hmem₂ line hl with hl | hl
      · exact (hmem₁ line hl).imp_right .inl
      · exact .inr (.inr hl)
    · rw [hiff₂, hiff₁, forall_cons_split, and_assoc, List.append_nil]
      simp only [List.append_assoc, List.singleton_append]

end Hunks

section Texts

variable {d : Diff}

theorem linesOf_unlines {lines : List Line} (h : ∀ line ∈ lines, '\n' ∉ line ∧ '\r' ∉ line) :
    linesOf (unlines lines) = lines ++ [[]] := by
  unfold linesOf
  rw [splitOn_unlines fun line hl => (h line hl).1, List.map_append]
  congr 1
  exact (List.map_congr_left fun line hl => stripCr_of_not_mem (h line hl).2).trans (List.map_id _)

theorem getLast?_unlines {lines : List Line} (h : lines ≠ []) : (unlines lines).getLast? = some '\n' := by
  rw [← List.dropLast_append_getLast h, unlines_append, unlines_cons]
  simp [unlines]

/-- The lines that `rewrite` starts from. -/
theorem lines_read (hd : d.Valid) :
    (if (unlines d.old).getLast? = some '\n' then (linesOf (unlines d.old)).dropLast
      else linesOf (unlines d.old)) = if d.old = [] then [[]] else d.old := by
  rw [linesOf_unlines fun line hl => hd.texts line (List.mem_append_left _ hl)]
  by_cases hold : d.old = []
  · rw [hold]
    rfl
  · rw [if_pos (getLast?_unlines hold), if_neg hold, List.dropLast_concat]

/-- All hunks apply, and give the new text if the condition is met and not otherwise. -/
theorem applyHunks_iff (hd : d.Valid) (hne : d.pieces ≠ []) :
    ∃ lines, applyHunks (if d.old = [] then [[]] else d.old) (hunksFrom 0 d.pieces) = .ok lines ∧
      (unlines lines = unlines d.new ↔ d.Met) := by
  have hrun := fun rest => @applyHunks_pieces [] d.pieces [] 0 rfl rfl hd.old_length rest
  have hnew : ∀ line ∈ d.new, '\n' ∉ line := fun line hl => (hd.texts line (List.mem_append_right _ hl)).1
  have htail : ∀ line ∈ d.tail, '\n' ∉ line := fun line hl => hnew line (List.mem_append_right _ hl)
  have hnews : ∀ line ∈ newsOf d.pieces, '\n' ∉ line := fun line hl => hnew line (List.mem_append_left _ hl)
  by_cases hold : d.old = []
  · obtain ⟨done,happlied,hlength,hmem,-⟩ := hrun [[]]
    obtain ⟨holds,htail⟩ := List.append_eq_nil_iff.mp hold
    rw [holds] at happlied
    refine ⟨done ++ [[]],?_,?_⟩
    · rw [if_pos hold]
      exact happlied
    · have hlines : ∀ line ∈ done ++ [[]], '\n' ∉ line := by
        intro line hl
        rcases List.mem_append.mp hl with hl | hl
        · rcases hmem line hl with hl | hl
          · exact absurd hl List.not_mem_nil
          · exact hnews line hl
        · rw [List.mem_singleton.mp hl]
          exact List.not_mem_nil
      constructor
      · intro heq
        have := congrArg List.length (unlines_injective hlines hnew heq)
        rw [Diff.new, htail, List.append_nil, List.length_append, hlength, List.nil_append] at this
        simp at this
      · rintro ⟨h,-⟩
        exact absurd (h hold) hne
  · obtain ⟨done,happlied,-,hmem,hiff⟩ := hrun d.tail
    refine ⟨done ++ d.tail,?_,?_⟩
    · rw [if_neg hold]
      exact happlied
    · have hlines : ∀ line ∈ done ++ d.tail, '\n' ∉ line := by
        intro line hl
        rcases List.mem_append.mp hl with hl | hl
        · rcases hmem line hl with hl | hl
          · exact absurd hl List.not_mem_nil
          · exact hnews line hl
        · exact htail line hl
      have hunlines : unlines (done ++ d.tail) = unlines d.new ↔ done = newsOf d.pieces := by
        refine ⟨fun heq => ?_,fun heq => by rw [heq]; rfl⟩
        exact List.append_cancel_right (unlines_injective hlines hnew heq)
      rw [hunlines]
      refine hiff.trans ⟨fun h => ⟨fun h' => absurd h' hold,h.2⟩,fun h => ⟨rfl,h.2⟩⟩

end Texts

section Files

namespace Tree

variable {t : Tree}

theorem walk_append (path : Path) (c : Line) : t.walk (path ++ [c]) = (t.walk path).bind fun at_ =>
    if t.node at_ ≠ some .dir then none else if c = up then some at_.dropLast else some (at_ ++ [c]) := by
  unfold walk
  rw [List.foldlM_append]
  simp only [List.foldlM_cons, List.foldlM_nil, bind_pure]
  rfl

theorem filter_up {path : Path} (h : ∀ c ∈ path, c ≠ up) : path.filter (· ≠ up) = path :=
  List.filter_eq_self.mpr fun c hc => decide_eq_true (h c hc)

theorem dropLast_up {out : Path} (h : ∀ c ∈ out.tail, c ≠ up) :
    (out.filter (· ≠ up)).dropLast = (if out = [] then [up] else out.dropLast).filter (· ≠ up) := by
  cases out with
  | nil => rfl
  | cons o out =>
    rw [if_neg (List.cons_ne_nil o out)]
    have hdrop : ∀ c ∈ out.dropLast, c ≠ up := fun c hc => h c (List.mem_of_mem_dropLast hc)
    cases out with
    | nil =>
      by_cases ho : o = up <;> simp [ho]
    | cons o' out =>
      rw [List.dropLast_cons_of_ne_nil (by simp)]
      have hself : (o'::out).filter (· ≠ up) = o'::out := filter_up h
      have hself' := filter_up hdrop
      by_cases ho : o = up
      · rw [List.filter_cons_of_neg (a := o) (by simp [ho]), List.filter_cons_of_neg (a := o) (by simp [ho]),
          hself, hself']
      · rw [List.filter_cons_of_pos (a := o) (by simp [ho]), List.filter_cons_of_pos (a := o) (by simp [ho]),
          hself, hself', List.dropLast_cons_of_ne_nil (by simp)]

/-- A walk ends where the text says, but for what leads above the top. -/
theorem walk_lexical {path p : Path} (h : t.walk path = some p) : p = (lexical path).filter (· ≠ up) := by
  induction path using List.reverseRecOn generalizing p with
  | nil => exact (Option.some.inj h).symm
  | append_singleton path c ih =>
    rw [walk_append] at h
    obtain ⟨q,hq,h⟩ := Option.bind_eq_some_iff.mp h
    have hpath := ih hq
    have htail := lexical_tail path
    have hstep : lexical (path ++ [c]) = lexicalStep (lexical path) c := by
      unfold lexical
      rw [List.foldl_append]
      rfl
    split at h
    · cases h
    · rw [hstep]
      unfold lexicalStep
      generalize lexical path = out at hpath htail
      split at h
      · next hc =>
        cases h
        rw [if_pos hc, hpath]
        exact dropLast_up htail
      · next hc =>
        cases h
        rw [if_neg hc, hpath, List.filter_append]
        simp [hc]

/-- What is there is reached by its own path. -/
theorem walk_self {path : Path} (h : t.node path ≠ none) (hplain : ∀ c ∈ path, c ≠ up) :
    t.walk path = some path := by
  induction path using List.reverseRecOn with
  | nil => rfl
  | append_singleton path c ih =>
    have hdir := t.closed path c h
    rw [walk_append, ih (by rw [hdir]; simp) fun d hd => hplain d (List.mem_append_left _ hd)]
    dsimp only [Option.bind]
    rw [if_neg (by simp [hdir]), if_neg (hplain c (by simp))]

theorem find_self {path : Path} (h : t.node path ≠ none) (hplain : ∀ c ∈ path, c ≠ up) :
    t.find path = t.node path := by
  unfold find
  rw [walk_self h hplain]
  rfl

theorem file_hasParent {path : Path} {text : Line} {x : Bool} (h : t.node path = some (.file text x)) :
    t.HasParent path := by
  have hne : path ≠ [] := by
    rintro rfl
    rw [t.top] at h
    cases h
  refine ⟨hne,t.closed path.dropLast (path.getLast hne) ?_⟩
  rw [List.dropLast_append_getLast, h]
  exact Option.some_ne_none _

/-- A file that is there can be written. -/
theorem write_file {path : Path} {old : Line} {x : Bool} (h : t.node path = some (.file old x)) (text : Line) :
    ∃ t', t.write path text = (.ok (),t') ∧ t'.node path = some (.file text x) := by
  unfold write
  rw [dif_neg (by rw [h]; simp), dif_pos (file_hasParent h)]
  refine ⟨_,rfl,(if_pos rfl).trans ?_⟩
  rw [h]

theorem setMode_file {path : Path} {text : Line} {x : Bool} (h : t.node path = some (.file text x)) (y : Bool) :
    ∃ t', t.setMode path y = (.ok (),t') ∧ t'.node path = some (.file text y) := by
  unfold setMode
  split
  · next hn => rw [h] at hn; cases hn
  · next hn => rw [h] at hn; cases hn
  · next hn =>
    rw [h] at hn
    cases hn
    rw [dif_pos (file_hasParent h)]
    exact ⟨_,rfl,if_pos rfl⟩

end Tree

theorem ask_bind {α β : Type} (question : Tree → α) (f : α → Patching Tree β) (w : World Tree) :
    (ask question >>= f) w = f (question w.disk) w := bind_ok rfl

/-- The name is of the target, inside the root, and this holds the text. -/
structure Holds (t : Tree) (root target : Path) (text name : Line) : Prop where
  inside : root <+: target
  plain : ∀ c ∈ target, c ≠ up
  resolved : lexical (joined root name) = target
  found : ∃ x, t.find (joined root name) = some (.file text x)

/-- The file that a diff names: by its new name, or by its old one if no file has the new one. -/
structure Diff.Named (d : Diff) (strip : ℕ) (t : Tree) (root target : Path) (old new : Line) : Prop where
  old_name : stripped (headerName d.oldName) strip = some old
  new_name : stripped (headerName d.newName) strip = some new
  old_file : old ≠ devNull
  new_file : new ≠ devNull
  holds : Holds t root target (unlines d.old) new ∨
    d.pieces ≠ [] ∧ t.isFile (joined root new) = false ∧ Holds t root target (unlines d.old) old

variable {t : Tree} {root target : Path} {text name : Line} {file : FilePatch}

theorem Holds.node (h : Holds t root target text name) : ∃ x, t.node target = some (.file text x) := by
  obtain ⟨x,hx⟩ := h.found
  obtain ⟨p,hwalk,hnode⟩ := Option.bind_eq_some_iff.mp hx
  have hp := Tree.walk_lexical hwalk
  rw [h.resolved, Tree.filter_up h.plain] at hp
  exact ⟨x,hp ▸ hnode⟩

theorem Holds.isFile (h : Holds t root target text name) : t.isFile (joined root name) = true := by
  obtain ⟨x,hx⟩ := h.found
  unfold Tree.isFile
  rw [hx]

theorem Holds.inside_run (h : Holds t root target text name) (w : World Tree) :
    (BuildFiji.Archive.inside root file name : Patching Tree Path) w = (.ok target,w) := by
  unfold BuildFiji.Archive.inside
  rw [h.resolved, if_pos (List.isPrefixOf_iff_prefix.mpr h.inside)]
  rfl

theorem Holds.rewrite_run (h : Holds t root target text name) {lines : List Line}
    (happlied : applyHunks (if text.getLast? = some '\n' then (linesOf text).dropLast else linesOf text)
      file.hunks = .ok lines) (touched : List Touch) :
    ∃ w x, rewrite treeDisk file target ⟨t,touched⟩ = (.ok (),w) ∧
      w.disk.node target = some (.file (unlines lines) x) := by
  obtain ⟨x,hx⟩ := h.node
  have hread : t.readToString target = .ok text := by
    unfold Tree.readToString
    rw [Tree.find_self (by rw [hx]; simp) h.plain, hx]
  obtain ⟨t',hwrite,hnode⟩ := Tree.write_file hx (joinLines lines)
  have hrun : rewrite treeDisk file target ⟨t,touched⟩ =
      write treeDisk target (joinLines lines) ⟨t,touched⟩ := by
    unfold rewrite
    rw [ask_bind, show treeDisk.readToString t target = _ from hread]
    dsimp only
    rw [happlied]
  refine ⟨⟨t',.write target::touched⟩,x,?_,?_⟩
  · rw [hrun]
    show ((t.write target (joinLines lines)).1,World.mk (t.write target (joinLines lines)).2 _) = _
    rw [hwrite]
  · rw [← joinLines_eq]
    exact hnode

theorem strippedName_run {strip : ℕ} {name relative : Line} (h : stripped name strip = some relative)
    (w : World Tree) :
    (strippedName strip file (some name) : Patching Tree _) w = (.ok (some relative),w) := by
  unfold strippedName
  dsimp only
  rw [h]
  rfl

/-- The hunks are applied to the file that is named. -/
theorem patchFile_run {d : Diff} {strip : ℕ} {old new : Line} (hnamed : d.Named strip t root target old new)
    (hto : file.renameTo = none) {lines : List Line}
    (happlied : applyHunks (if (unlines d.old).getLast? = some '\n' then (linesOf (unlines d.old)).dropLast
      else linesOf (unlines d.old)) file.hunks = .ok lines) :
    ∃ w x, patchFile treeDisk root file old new ⟨t,[]⟩ = (.ok (),w) ∧
      w.disk.node target = some (.file (unlines lines) x) := by
  unfold patchFile
  rw [ask_bind]
  dsimp only
  rcases hnamed.holds with h | ⟨-,hnot,h⟩
  · rw [if_pos (.inr h.isFile), bind_ok (h.inside_run _)]
    exact h.rewrite_run happlied []
  · rw [if_neg (by simp [hto, show treeDisk.isFile t (joined root new) = _ from hnot]), ask_bind]
    dsimp only
    rw [if_pos (show treeDisk.isFile t (joined root old) = true from h.isFile), bind_ok (h.inside_run _)]
    exact h.rewrite_run happlied []

/-- With no hunks the file keeps its text. -/
theorem changeMode_run {d : Diff} {strip : ℕ} {old new : Line} (hnamed : d.Named strip t root target old new)
    (hnone : d.pieces = []) :
    ∃ w x, changeMode treeDisk root file (some new) ⟨t,[]⟩ = (.ok (),w) ∧
      w.disk.node target = some (.file (unlines d.old) x) := by
  have h : Holds t root target (unlines d.old) new := by
    rcases hnamed.holds with h | ⟨hne,-⟩
    · exact h
    · exact absurd hnone hne
  obtain ⟨x,hx⟩ := h.node
  unfold changeMode
  cases hmode : file.newMode with
  | none => exact ⟨⟨t,[]⟩,x,rfl,hx⟩
  | some mode =>
    dsimp only
    obtain ⟨t',hset,hnode⟩ := Tree.setMode_file hx (isExecutable mode)
    refine ⟨⟨t',[.setMode target]⟩,isExecutable mode,?_,hnode⟩
    rw [bind_ok (h.inside_run _)]
    show ((t.setMode target (isExecutable mode)).1,World.mk (t.setMode target (isExecutable mode)).2 _) = _
    rw [hset]

end Files

/-- A diff of the text that the named file holds always applies, and leaves the new text in it if and
only if the condition is met. -/
theorem applyPatch_unified {d : Diff} (hd : d.Valid) {strip : ℕ} {t : Tree} {root target : Path}
    {old new : Line} (hnamed : d.Named strip t root target old new) :
    (∃ w x, applyPatch treeDisk strip root d.text ⟨t,[]⟩ = (.ok (),w) ∧
      w.disk.node target = some (.file (unlines d.new) x)) ↔ d.Met := by
  obtain ⟨file,hparse,hold,hnew,hto,hhunks⟩ := parse_text hd
  have hrun : applyPatch treeDisk strip root d.text ⟨t,[]⟩ =
      if d.pieces = [] then changeMode treeDisk root file (some new) ⟨t,[]⟩
      else patchFile treeDisk root file old new ⟨t,[]⟩ := by
    have hlast : ∀ (x : Patching Tree Unit) w, (x >>= fun _ => pure ()) w = x w := by
      intro x w
      rw [bind_run]
      generalize x w = r
      obtain ⟨r,w⟩ := r
      cases r <;> rfl
    have hdisk : ∀ {name : Line}, name ≠ devNull → some name ≠ some devNull :=
      fun h heq => h (Option.some.inj heq)
    unfold applyPatch
    rw [hparse]
    show (applyFile treeDisk strip root file >>= fun _ => pure ()) ⟨t,[]⟩ = _
    rw [hlast]
    unfold applyFile
    rw [hold, hnew, hto, bind_ok (strippedName_run hnamed.old_name _),
      bind_ok (strippedName_run hnamed.new_name _)]
    have hnone : file.hunks = [] ↔ d.pieces = [] := by
      rw [hhunks]
      cases d.pieces <;> simp [hunksFrom]
    have hafter : afterRename treeDisk root file (some old) (some new) =
        if d.pieces = [] then changeMode treeDisk root file (some new) else patchFile treeDisk root file old new := by
      unfold afterRename
      rw [if_neg (hdisk hnamed.old_file), if_neg (hdisk hnamed.new_file)]
      exact if_congr hnone rfl rfl
    rw [hafter]
    generalize file.renameFrom = source
    cases source with
    | none => exact apply_ite (fun x : Patching Tree Unit => x ⟨t,[]⟩) _ _ _
    | some source => exact apply_ite (fun x : Patching Tree Unit => x ⟨t,[]⟩) _ _ _
  rw [hrun]
  split
  · next hnone =>
    have hsame : d.new = d.old := by
      unfold Diff.new Diff.old
      rw [hnone]
      rfl
    have hmet : d.Met := by
      refine ⟨fun _ => hnone,fun front p back heq => ?_⟩
      rw [hnone] at heq
      simp at heq
    obtain ⟨w,x,hrun,hnode⟩ := @changeMode_run t root target file d strip old new hnamed hnone
    rw [hsame]
    exact ⟨fun _ => hmet,fun _ => ⟨w,x,hrun,hnode⟩⟩
  · next hne =>
    obtain ⟨lines,happlied,hiff⟩ := applyHunks_iff hd hne
    rw [← lines_read hd, ← hhunks] at happlied
    obtain ⟨w,x,hrun,hnode⟩ := patchFile_run hnamed hto happlied
    rw [hrun, ← hiff]
    constructor
    · rintro ⟨w',x',heq,hnode'⟩
      cases heq
      rw [hnode] at hnode'
      injection hnode' with hnode'
      injection hnode' with htext _
    · intro heq
      exact ⟨w,x,rfl,heq ▸ hnode⟩

/-- One line in place of another, after one that stays. -/
def replaced : Diff :=
  ⟨[],none,['a'],['a'],[⟨[],[.keep ['a'] false,.remove ['b'],.add ['c']],[],false,false⟩],[],[]⟩

/-- A line put in after the only one. -/
def appended : Diff := ⟨[],none,['a'],['a'],[⟨[['a']],[.add ['b']],[],false,true⟩],[],[]⟩

/-- A line put into an empty text. -/
def intoEmpty : Diff := ⟨[],none,['a'],['a'],[⟨[],[.add ['b']],[],false,true⟩],[],[]⟩

/-- The directory `/r` with one file. -/
def oneFile (text : Line) : Tree := (emptyRepo.write [['r'],['a']] text).2

theorem applyPatch_unified_replaced :
    (∃ w x, applyPatch treeDisk 0 [['r']] replaced.text ⟨oneFile "a\nb\n".toList,[]⟩ = (.ok (),w) ∧
      w.disk.node [['r'],['a']] = some (.file (unlines replaced.new) x)) ↔ replaced.Met :=
  @applyPatch_unified replaced ⟨by decide,by decide,by decide,by decide,by decide⟩ 0 _ _ _ ['a'] ['a']
    ⟨by decide,by decide,by decide,by decide,.inl ⟨by decide,by decide,by decide,false,by decide⟩⟩

/-- The line comes before the one it follows, and an empty text gets an empty line. -/
theorem applyPatch_appended :
    (appended.Valid ∧ appended.Named 0 (oneFile "a\n".toList) [['r']] [['r'],['a']] ['a'] ['a'] ∧
      unlines appended.new = "a\nb\n".toList ∧
      (applyPatch treeDisk 0 [['r']] appended.text ⟨oneFile "a\n".toList,[]⟩).2.disk.node [['r'],['a']] =
        some (.file "b\na\n".toList false)) ∧
    intoEmpty.Valid ∧ intoEmpty.Named 0 (oneFile []) [['r']] [['r'],['a']] ['a'] ['a'] ∧
      unlines intoEmpty.new = "b\n".toList ∧
      (applyPatch treeDisk 0 [['r']] intoEmpty.text ⟨oneFile [],[]⟩).2.disk.node [['r'],['a']] =
        some (.file "b\n\n".toList false) := by
  refine ⟨⟨⟨by decide,by decide,by decide,by decide,by decide⟩,
    ⟨by decide,by decide,by decide,by decide,.inl ⟨by decide,by decide,by decide,false,by decide⟩⟩,
    by decide,by decide⟩,⟨by decide,by decide,by decide,by decide,by decide⟩,
    ⟨by decide,by decide,by decide,by decide,.inl ⟨by decide,by decide,by decide,false,by decide⟩⟩,
    by decide,by decide⟩

example : appended.text = "--- a\n+++ a\n@@ -1,0 +2 @@\n+b\n".toList := by decide

end BuildFiji.Archive
