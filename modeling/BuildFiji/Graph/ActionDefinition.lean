import BuildFiji.Graph.Action

/-!
# Actions with the same definition

The fields of an action are fed one after another, with marker words between its
lists. Which actions their definitions tell from all others.
-/

set_option autoImplicit false
set_option linter.all false

namespace BuildFiji.Graph
open Configuration (utf8 utf8_injective)

/-- The word that follows the mnemonic. -/
def ActionKind.tag : ActionKind → String
  | .spawn .. => "spawn"
  | .writeFile .. => "write"
  | .paramFile .. => "param-file"
  | .symlink .. => "symlink"
  | .unresolvedSymlink .. => "unresolved-symlink"
  | .runfilesTree => "runfiles-tree"
  | .symlinkTree .. => "runfiles"
  | .sourceManifest .. => "source-manifest"
  | .workspaceStatus .. => "workspace-status"
  | .template .. => "template"

/-- The pairs of some map, in the order of their keys. -/
def Ordered (words : List String) : Prop := ∃ m : StringMap, m.fields = words

/-- The words `env` and `requirements` stand at no other two places with the
pairs of a map between them and the pairs of a map after them. -/
def MarkedOnce (argv env requirements : List String) : Prop :=
  ∀ before between after,
    before ++ "env" :: (between ++ "requirements" :: after) =
      argv ++ "env" :: (env ++ "requirements" :: requirements) →
    Ordered between → Ordered after → before = argv ∧ between = env

/-- No entry is called `empty`, and none of the empty files at the places where
an entry could end. -/
def EndedOnce (entries : List (String × Artifact)) (emptyFiles : List String) : Prop :=
  (∀ e ∈ entries, e.1 ≠ "empty") ∧ ∀ i, emptyFiles[2*i+1]? ≠ some "empty"

/-- No marker word stands where the fields could be read another way. -/
def Unambiguous (printable : Char → Bool) : ActionKind → Prop
  | .spawn argv env executionRequirements lazy =>
    lazy = [] ∧
    (∀ before calls, calls ≠ [] → argv ≠ before ++ ["lazy",lazyText printable calls]) ∧
    MarkedOnce argv env.fields executionRequirements.fields
  | .symlinkTree _ _ entries emptyFiles _ _ => EndedOnce entries emptyFiles
  | .sourceManifest _ entries emptyFiles => EndedOnce entries emptyFiles
  | _ => True

section Trees

theorem treeFields_inj {p q : List (String × String)} {x y : List String}
    (hp : ∀ e ∈ p, e.1 ≠ "empty") (hx : ∀ i, x[2*i+1]? ≠ some "empty")
    (h : pairFields q ++ "empty" :: y = pairFields p ++ "empty" :: x) : q = p ∧ y = x := by
  induction p generalizing q with
  | nil =>
    cases q with
    | nil => exact ⟨rfl,(List.cons.inj h).2⟩
    | cons e q =>
      -- the words that the other entries take begin the empty files
      have hwords := (List.cons.inj h).2
      apply absurd _ (hx q.length)
      rw [← show _ = x from hwords]
      show (e.2::(pairFields q ++ "empty" :: y))[2*q.length+1]? = _
      rw [List.getElem?_cons_succ, List.getElem?_append_right (by rw [pairFields_length]),
        pairFields_length, Nat.sub_self]
      rfl
  | cons e p ih =>
    cases q with
    | nil => exact absurd (List.cons.inj h).1.symm (hp e List.mem_cons_self)
    | cons f q =>
      rw [pairFields, pairFields, List.flatMap_cons, List.flatMap_cons, List.append_assoc,
        List.append_assoc] at h
      obtain ⟨hef,hrest⟩ := List.append_inj h rfl
      obtain ⟨rfl,rfl⟩ := ih (fun e he => hp e (List.mem_cons_of_mem _ he)) hrest
      simp only [List.cons.injEq, and_true] at hef
      rw [Prod.ext_iff.mpr hef]
      exact ⟨rfl,rfl⟩

/-- The words of a list of even length are pairs. -/
theorem exists_pairs (words : List String) (n : ℕ) (h : words.length = 2*n) :
    ∃ pairs, pairFields pairs = words := by
  induction n generalizing words with
  | zero => exact ⟨[],(List.length_eq_zero_iff.mp h).symm⟩
  | succ n ih =>
    match words with
    | [] => simp at h
    | [_] =>
      rw [List.length_singleton] at h
      omega
    | k::v::rest =>
      rw [List.length_cons, List.length_cons] at h
      obtain ⟨pairs,hpairs⟩ := ih rest (by omega)
      exact ⟨(k,v)::pairs,congrArg (fun rest => k::v::rest) hpairs⟩

/-- Another way to read the words, where an entry or an empty file ends the
entries too. -/
theorem exists_tree {entries : List (String × Artifact)} {emptyFiles : List String}
    (h : ¬EndedOnce entries emptyFiles) : ∃ entries' emptyFiles',
      treeFields entries' emptyFiles' = treeFields entries emptyFiles ∧
      emptyFiles'.length ≠ emptyFiles.length := by
  rw [EndedOnce, not_and_or] at h
  rcases h with h | h
  · push Not at h
    obtain ⟨⟨k,a⟩,he,hk⟩ := h
    obtain rfl : k = "empty" := hk
    obtain ⟨before,after,rfl⟩ := List.append_of_mem he
    refine ⟨before,a.execPath::(pairFields (entryPaths after) ++ "empty" :: emptyFiles),?_,?_⟩
    · simp [treeFields, pairFields, entryPaths]
    · simp
      omega
  · push Not at h
    obtain ⟨i,hi⟩ := h
    obtain ⟨hlt,hget⟩ := List.getElem?_eq_some_iff.mp hi
    have hsplit : emptyFiles = emptyFiles.take (2*i+1) ++ "empty" :: emptyFiles.drop (2*i+1+1) := by
      rw [← hget, List.getElem_cons_drop, List.take_append_drop]
    obtain ⟨pairs,hpairs⟩ := exists_pairs ("empty" :: emptyFiles.take (2*i+1)) (i+1) (by
      rw [List.length_cons, List.length_take]
      omega)
    refine ⟨entries ++ pairs.map fun e => (e.1,Artifact.ofPath e.2),emptyFiles.drop (2*i+1+1),?_,?_⟩
    · have hpaths : entryPaths (entries ++ pairs.map fun e => (e.1,Artifact.ofPath e.2)) =
          entryPaths entries ++ pairs := by
        rw [entryPaths, List.map_append]
        exact congrArg (entryPaths entries ++ ·) (entryPaths_of_pairs pairs)
      rw [treeFields, treeFields, hpaths, pairFields, List.flatMap_append, List.append_assoc]
      apply congrArg (pairFields (entryPaths entries) ++ ·)
      show pairFields pairs ++ _ = _
      conv_rhs => rw [hsplit]
      rw [hpairs, List.cons_append]
    · rw [List.length_drop]
      omega

end Trees

section Spawns

variable {printable : Char → Bool}

def spawnFields (printable : Char → Bool) (argv : List String) (env requirements : StringMap)
    (lazy : List LazyArg) : List String :=
  argv ++ (lazyFields printable lazy ++ ("env" :: (env.fields ++ "requirements" :: requirements.fields)))

theorem spawn_inj {argv argv' : List String} {env env' requirements requirements' : StringMap}
    {lazy : List LazyArg}
    (hlazy : ∀ before calls, calls ≠ [] → argv ≠ before ++ ["lazy",lazyText printable calls])
    (hmarked : MarkedOnce argv env.fields requirements.fields)
    (h : spawnFields printable argv' env' requirements' lazy =
      spawnFields printable argv env requirements []) :
    argv' = argv ∧ env' = env ∧ requirements' = requirements ∧ lazy = [] := by
  rw [spawnFields, spawnFields, lazyFields, lazyFields, if_pos rfl, List.nil_append,
    ← List.append_assoc] at h
  obtain ⟨hargv,henv⟩ := hmarked _ _ _ h ⟨env',rfl⟩ ⟨requirements',rfl⟩
  rw [hargv, henv] at h
  have hafter := (List.cons.inj (List.append_cancel_left (List.cons.inj
    (List.append_cancel_left h)).2)).2
  have hnone : lazy = [] := by
    by_contra hcalls
    rw [if_neg hcalls] at hargv
    exact hlazy argv' lazy hcalls hargv.symm
  rw [if_pos hnone, List.append_nil] at hargv
  exact ⟨hargv,StringMap.ext_fields henv,StringMap.ext_fields hafter,hnone⟩

/-- Another command with the same fields. -/
theorem exists_spawn {argv : List String} {env requirements : StringMap} {lazy : List LazyArg}
    (h : ¬Unambiguous printable (.spawn argv env requirements lazy)) :
    ∃ argv' env' requirements' lazy',
      spawnFields printable argv' env' requirements' lazy' =
        spawnFields printable argv env requirements lazy ∧
      ¬(argv' = argv ∧ env' = env ∧ lazy' = lazy) := by
  rw [Unambiguous, not_and_or, not_and_or] at h
  rcases h with h | h | h
  · -- the calls read as two more words
    refine ⟨argv ++ ["lazy",lazyText printable lazy],env,requirements,[],?_,fun hand => h hand.2.2.symm⟩
    rw [spawnFields, spawnFields, lazyFields, lazyFields, if_pos rfl, if_neg h, List.append_assoc,
      List.nil_append]
  · push Not at h
    obtain ⟨before,calls,hcalls,rfl⟩ := h
    by_cases hlazy : lazy = []
    · subst hlazy
      refine ⟨before,env,requirements,calls,?_,fun hand => hcalls hand.2.2⟩
      rw [spawnFields, spawnFields, lazyFields, lazyFields, if_pos rfl, if_neg hcalls,
        List.append_assoc, List.nil_append]
    · refine ⟨before ++ ["lazy",lazyText printable calls] ++ ["lazy",lazyText printable lazy],env,
        requirements,[],?_,fun hand => hlazy hand.2.2.symm⟩
      rw [spawnFields, spawnFields, lazyFields, lazyFields, if_pos rfl, if_neg hlazy,
        List.append_assoc (_ ++ _), List.nil_append]
  · rw [MarkedOnce] at h
    push Not at h
    obtain ⟨before,between,after,hsplit,⟨env',rfl⟩,⟨requirements',rfl⟩,hne⟩ := h
    by_cases hlazy : lazy = []
    · subst hlazy
      refine ⟨before,env',requirements',[],?_,?_⟩
      · rw [spawnFields, spawnFields, lazyFields, if_pos rfl, List.nil_append, List.nil_append]
        exact hsplit
      · intro hand
        exact hne hand.1 (congrArg StringMap.fields hand.2.1)
    · refine ⟨argv ++ ["lazy",lazyText printable lazy],env,requirements,[],?_,
        fun hand => hlazy hand.2.2.symm⟩
      rw [spawnFields, spawnFields, lazyFields, lazyFields, if_pos rfl, if_neg hlazy,
        List.append_assoc, List.nil_append]

end Spawns

section Definitions

variable {printable : Char → Bool}

theorem fields_head (kind : ActionKind) : (kind.fields printable).head? = some (utf8 kind.tag) := by
  cases kind <;> rfl

theorem words_inj {words words' : List String} (h : words.map utf8 = words'.map utf8) :
    words = words' := utf8_injective.list_map h

theorem entries_inj {entries entries' : List (String × Artifact)} {emptyFiles emptyFiles' : List String}
    (hended : EndedOnce entries emptyFiles)
    (h : treeFields entries' emptyFiles' = treeFields entries emptyFiles) :
    canonicalEntries entries' = canonicalEntries entries ∧ emptyFiles' = emptyFiles := by
  have hnames : ∀ e ∈ entryPaths entries, e.1 ≠ "empty" := by
    intro e he
    obtain ⟨f,hf,rfl⟩ := List.mem_map.mp he
    exact hended.1 f hf
  obtain ⟨hpaths,hempty⟩ := treeFields_inj hnames hended.2 h
  exact ⟨entryPaths_canonical hpaths,hempty⟩

/-- The fields of an unambiguous kind are those of no other work. -/
theorem fields_inj {kind kind' : ActionKind} (hkind : Unambiguous printable kind)
    (h : kind'.fields printable = kind.fields printable) : kind'.work = kind.work := by
  have htag : kind'.tag = kind.tag := by
    have hhead := congrArg List.head? h
    rw [fields_head, fields_head] at hhead
    exact utf8_injective (Option.some.inj hhead)
  cases kind with
  | spawn argv env requirements lazy =>
    cases kind' with
    | spawn argv' env' requirements' lazy' =>
      obtain ⟨rfl,hlazy,hmarked⟩ := hkind
      have hwords := words_inj (List.cons.inj h).2
      obtain ⟨rfl,rfl,rfl,rfl⟩ := spawn_inj hlazy hmarked hwords
      rfl
    | _ => simp [ActionKind.tag] at htag
  | writeFile contents executable =>
    cases kind' with
    | writeFile contents' executable' =>
      simp only [ActionKind.fields, List.cons.injEq, and_true, true_and] at h
      rw [h.1, flag_injective h.2]
    | _ => simp [ActionKind.tag] at htag
  | paramFile items lazy format =>
    cases kind' with
    | paramFile items' lazy' format' =>
      have hwords := words_inj (List.cons.inj h).2
      obtain ⟨hitems,htext⟩ := List.append_inj' hwords rfl
      obtain ⟨hlazy,hformat⟩ := lazyFormatText_inj (List.cons.inj htext).1
      rw [hitems, hlazy, hformat]
    | _ => simp [ActionKind.tag] at htag
  | symlink target =>
    cases kind' with
    | symlink target' =>
      simp only [ActionKind.fields, List.cons.injEq, and_true, true_and] at h
      rw [utf8_injective h]
    | _ => simp [ActionKind.tag] at htag
  | unresolvedSymlink target =>
    cases kind' with
    | unresolvedSymlink target' =>
      simp only [ActionKind.fields, List.cons.injEq, and_true, true_and] at h
      rw [utf8_injective h]
    | _ => simp [ActionKind.tag] at htag
  | symlinkTree dir repoMapping entries emptyFiles links mainRepo =>
    cases kind' with
    | symlinkTree dir' repoMapping' entries' emptyFiles' links' mainRepo' =>
      simp only [ActionKind.fields, List.cons.injEq, true_and] at h
      obtain ⟨hdir,hlinks,hmain,hmapping,htree⟩ := h
      obtain ⟨hentries,hempty⟩ := entries_inj hkind (words_inj htree)
      rw [ActionKind.work, ActionKind.work, utf8_injective hdir, flag_injective hlinks,
        utf8_injective hmain, utf8_injective hmapping, hentries, hempty]
    | _ => simp [ActionKind.tag] at htag
  | sourceManifest repoMapping entries emptyFiles =>
    cases kind' with
    | sourceManifest repoMapping' entries' emptyFiles' =>
      simp only [ActionKind.fields, List.cons.injEq, true_and] at h
      obtain ⟨hmapping,htree⟩ := h
      obtain ⟨hentries,hempty⟩ := entries_inj hkind (words_inj htree)
      rw [ActionKind.work, ActionKind.work, utf8_injective hmapping, hentries, hempty]
    | _ => simp [ActionKind.tag] at htag
  | runfilesTree =>
    cases kind' with
    | runfilesTree => rfl
    | _ => simp [ActionKind.tag] at htag
  | workspaceStatus stable volatile =>
    cases kind' with
    | workspaceStatus stable' volatile' =>
      simp only [ActionKind.fields, List.cons.injEq, and_true, true_and] at h
      rw [utf8_injective h.1, utf8_injective h.2]
    | _ => simp [ActionKind.tag] at htag
  | template path substitutions executable =>
    cases kind' with
    | template path' substitutions' executable' =>
      simp only [ActionKind.fields, List.cons.injEq, true_and] at h
      obtain ⟨hpath,hrest⟩ := h
      obtain ⟨hpairs,hflag⟩ := List.append_inj' hrest rfl
      rw [utf8_injective hpath, pairFields_injective (words_inj hpairs),
        flag_injective (List.cons.inj hflag).1]
    | _ => simp [ActionKind.tag] at htag

/-- Another kind with the same fields, where they can be read another way. -/
theorem exists_kind {kind : ActionKind} (h : ¬Unambiguous printable kind) :
    ∃ kind' : ActionKind, kind'.fields printable = kind.fields printable ∧ kind'.work ≠ kind.work := by
  cases kind with
  | spawn argv env requirements lazy =>
    obtain ⟨argv',env',requirements',lazy',hfields,hne⟩ := exists_spawn h
    refine ⟨.spawn argv' env' requirements' lazy',?_,?_⟩
    · exact congrArg (fun words => utf8 "spawn" :: words.map utf8) hfields
    · intro hwork
      simp only [ActionKind.work, ActionKind.spawn.injEq] at hwork
      exact hne ⟨hwork.1,hwork.2.1,hwork.2.2.2⟩
  | symlinkTree dir repoMapping entries emptyFiles links mainRepo =>
    obtain ⟨entries',emptyFiles',hfields,hne⟩ := exists_tree h
    refine ⟨.symlinkTree dir repoMapping entries' emptyFiles' links mainRepo,?_,?_⟩
    · rw [ActionKind.fields, ActionKind.fields, hfields]
    · intro hwork
      simp only [ActionKind.work, ActionKind.symlinkTree.injEq] at hwork
      exact hne (congrArg List.length hwork.2.2.2.1)
  | sourceManifest repoMapping entries emptyFiles =>
    obtain ⟨entries',emptyFiles',hfields,hne⟩ := exists_tree h
    refine ⟨.sourceManifest repoMapping entries' emptyFiles',?_,?_⟩
    · rw [ActionKind.fields, ActionKind.fields, hfields]
    · intro hwork
      simp only [ActionKind.work, ActionKind.sourceManifest.injEq] at hwork
      exact hne (congrArg List.length hwork.2.2)
  | _ => exact absurd trivial h

/-- The mnemonic and what the action does are read back from its definition. -/
theorem definition_tells_iff (a : Action) :
    (∀ b : Action, b.definition printable = a.definition printable →
      b.mnemonic = a.mnemonic ∧ b.kind.work = a.kind.work) ↔ Unambiguous printable a.kind := by
  constructor
  · intro h
    by_contra hno
    obtain ⟨kind,hfields,hne⟩ := exists_kind hno
    apply hne
    exact (h ⟨a.mnemonic,kind,a.inputs,a.outputs⟩ (congrArg (utf8 a.mnemonic :: ·) hfields)).2
  · intro h b hdef
    exact ⟨utf8_injective (List.cons.inj hdef).1,fields_inj h (List.cons.inj hdef).2⟩

end Definitions

end BuildFiji.Graph
