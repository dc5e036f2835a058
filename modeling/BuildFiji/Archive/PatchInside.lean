import BuildFiji.Archive.Tree
import BuildFiji.Lib.Stateful

/-!
# A patch stays inside the repository

Whatever a patch names, each path that something is done to went through the one check there
is. Directories are made from the path they are wanted for upwards, as far as they are missing,
and the directory the root is in is not.
-/

set_option autoImplicit false
set_option linter.all false

namespace BuildFiji.Archive

open BuildFiji.Stateful

/-- The path with `.` and `..` resolved by its text. -/
def resolve (path : Path) : Path :=
  path.foldl (fun out c => if c = ['.'] then out else if c = up then out.dropLast else out ++ [c]) []

def Below (root path : Path) : Prop := root <+: resolve path

/-- No component is `.` or `..`. -/
def Plain (path : Path) : Prop := ∀ c ∈ path, c ≠ up ∧ c ≠ ['.']

instance (path : Path) : Decidable (Plain path) := by
  unfold Plain
  infer_instance

/-- All that is written, renamed, removed or changed is below the root, and of directories the one
that the root is in. -/
def Safe (root : Path) : Touch → Prop
  | .mkdir path => Below root path ∨ root ≠ [] ∧ path = root.dropLast
  | .rename source target => Below root source ∧ Below root target
  | .write path => Below root path
  | .remove path => Below root path
  | .setMode path => Below root path

section Paths

variable {root path : Path}

theorem resolve_plain (h : Plain path) : resolve path = path := by
  induction path using List.reverseRecOn with
  | nil => rfl
  | append_singleton path c ih =>
    have hc := h c (by simp)
    have hpath := ih fun d hd => h d (List.mem_append_left _ hd)
    unfold resolve at hpath ⊢
    rw [List.foldl_append, hpath, List.foldl_cons, List.foldl_nil, if_neg hc.2, if_neg hc.1]

/-- Only the first component of a resolved path may be `..`. -/
theorem lexical_tail (path : Path) : ∀ c ∈ (lexical path).tail, c ≠ up := by
  unfold lexical
  induction path using List.reverseRecOn with
  | nil => simp
  | append_singleton path c ih =>
    rw [List.foldl_append, List.foldl_cons, List.foldl_nil]
    generalize path.foldl lexicalStep [] = out at ih
    unfold lexicalStep
    split
    · split
      · simp
      · intro d hd
        rw [List.tail_dropLast] at hd
        exact ih d (List.mem_of_mem_dropLast hd)
    · next hc =>
      cases out with
      | nil => simp
      | cons o out =>
        intro d hd
        rw [List.cons_append, List.tail_cons] at hd
        rcases List.mem_append.mp hd with hd | hd
        · exact ih d hd
        · cases List.mem_singleton.mp hd
          exact hc

theorem lexical_dot (h : ∀ c ∈ path, c ≠ ['.']) : ∀ c ∈ lexical path, c ≠ ['.'] := by
  unfold lexical
  induction path using List.reverseRecOn with
  | nil => simp
  | append_singleton path c ih =>
    rw [List.foldl_append, List.foldl_cons, List.foldl_nil]
    have ih := ih fun d hd => h d (List.mem_append_left _ hd)
    generalize path.foldl lexicalStep [] = out at ih
    unfold lexicalStep
    split
    · split
      · intro d hd
        cases List.mem_singleton.mp hd
        decide
      · intro d hd
        exact ih d (List.mem_of_mem_dropLast hd)
    · intro d hd
      rcases List.mem_append.mp hd with hd | hd
      · exact ih d hd
      · cases List.mem_singleton.mp hd
        exact h c (by simp)

theorem components_dot (text : Line) : ∀ c ∈ components text, c ≠ ['.'] := by
  intro c hc
  unfold components at hc
  rw [List.mem_filter, decide_eq_true_eq] at hc
  exact hc.2.2

theorem joined_dot (h : Plain root) (relative : Line) : ∀ c ∈ joined root relative, c ≠ ['.'] := by
  unfold joined
  split
  · exact components_dot relative
  · intro c hc
    rcases List.mem_append.mp hc with hc | hc
    · exact (h c hc).2
    · exact components_dot relative c hc

/-- A path that has passed the check. -/
structure Under (root path : Path) : Prop where
  starts : root <+: path
  plain : root ≠ [] → Plain path

theorem under_lexical (hroot : Plain root) {relative : Line}
    (h : root <+: lexical (joined root relative)) : Under root (lexical (joined root relative)) := by
  refine ⟨h,fun hne c hc => ⟨?_,lexical_dot (joined_dot hroot relative) c hc⟩⟩
  have htail := lexical_tail (joined root relative)
  generalize lexical (joined root relative) = path at h hc htail
  obtain ⟨rest,rfl⟩ := h
  cases root with
  | nil => exact absurd rfl hne
  | cons r root =>
    rcases List.mem_cons.mp hc with rfl | hc
    · exact (hroot c List.mem_cons_self).1
    · exact htail c hc

theorem Under.below (h : Under root path) : Below root path := by
  unfold Below
  by_cases hne : root = []
  · rw [hne]
    exact List.nil_prefix
  · rw [resolve_plain (h.plain hne)]
    exact h.starts

theorem Under.dropLast (h : Under root path) (hne : root ≠ [] → path ≠ root) : Under root path.dropLast := by
  constructor
  · by_cases hr : root = []
    · rw [hr]
      exact List.nil_prefix
    · obtain ⟨rest,rfl⟩ := h.starts
      have hrest : rest ≠ [] := by
        rintro rfl
        exact hne hr (List.append_nil _)
      rw [List.dropLast_append_of_ne_nil hrest]
      exact List.prefix_append _ _
  · intro hr c hc
    exact h.plain hr c (List.mem_of_mem_dropLast hc)

/-- Above the root. -/
theorem Under.not_prefix (h : Under root path) (hne : root ≠ []) : ¬ path <+: root.dropLast := by
  intro hp
  have hlength := (h.starts.trans hp).length_le
  have hpos := List.length_pos_of_ne_nil hne
  rw [List.length_dropLast] at hlength
  omega

end Paths

section Keeps

variable {σ : Type} {disk : Disk σ} {root : Path}

/-- The directory that the root is in is there, and all was done inside. -/
def Kept (disk : Disk σ) (root : Path) (w : World σ) : Prop :=
  (root ≠ [] → disk.There w.disk root.dropLast) ∧ ∀ t ∈ w.touched, Safe root t

theorem touch_keeps {what : Touch} {act : σ → Except String Unit × σ} (hsafe : Safe root what)
    (hthere : ∀ s, root ≠ [] → disk.There s root.dropLast → disk.There (act s).2 root.dropLast) :
    Keeps (Kept disk root) (touch what act) fun _ => True := by
  intro w hw
  refine ⟨⟨fun hne => hthere w.disk hne (hw.1 hne),?_⟩,fun _ _ => trivial⟩
  intro t ht
  rcases List.mem_cons.mp ht with rfl | ht
  · exact hsafe
  · exact hw.2 t ht

theorem ask_keeps {α : Type} (question : σ → α) :
    Keeps (Kept disk root) (ask question) fun _ => True := fun _ hw => ⟨hw,fun _ _ => trivial⟩

theorem mkdir_keeps {path : Path} (hsafe : Safe root (.mkdir path)) :
    Keeps (Kept disk root) (mkdir disk path) fun r =>
      root ≠ [] → path = root ∨ path = root.dropLast → ∀ e, r ≠ .error (.notFound e) := by
  intro w hw
  refine ⟨⟨fun hne => disk.mkdir_keeps _ _ _ (hw.1 hne),?_⟩,?_⟩
  · intro t ht
    rcases List.mem_cons.mp ht with rfl | ht
    · exact hsafe
    · exact hw.2 t ht
  · intro r hr hne hpath e
    have hvalue : (disk.mkdir w.disk path).1 = r := by
      injection hr
    rw [← hvalue]
    rcases hpath with rfl | rfl
    · have := disk.mkdir_inside w.disk path.dropLast (path.getLast hne) e (hw.1 hne)
      rwa [List.dropLast_append_getLast] at this
    · exact disk.mkdir_there _ _ e (hw.1 hne)

/-- What is missing is made below the root. -/
theorem createDirAllFrom_keeps (above : Path)
    (h : Under root above.reverse ∨ root ≠ [] ∧ above.reverse = root.dropLast) :
    Keeps (Kept disk root) (createDirAllFrom disk above) fun _ => True := by
  have hsafe : ∀ path : Path, Under root path ∨ root ≠ [] ∧ path = root.dropLast → Safe root (.mkdir path) :=
    fun path hp => hp.imp_left Under.below
  induction above with
  | nil =>
    unfold createDirAllFrom
    refine (mkdir_keeps (hsafe [] h)).bind fun r _ => ?_
    split
    · exact keeps_pure trivial
    · exact keeps_throw _
    · exact (ask_keeps _).bind fun _ _ => keeps_ite (keeps_pure trivial) (keeps_throw _)
  | cons c above ih =>
    unfold createDirAllFrom
    dsimp only
    refine (mkdir_keeps (hsafe _ h)).bind fun r hr => ?_
    split
    · exact keeps_pure trivial
    · next e =>
      have hunder : Under root (c::above).reverse := by
        rcases h with h | ⟨hne,heq⟩
        · exact h
        · exact absurd rfl (hr hne (.inr heq) e)
      have hup : Under root above.reverse := by
        have := hunder.dropLast fun hne heq => absurd rfl (hr hne (.inl heq) e)
        simpa using this
      refine (ih (.inl hup)).bind fun _ _ => (mkdir_keeps (hsafe _ h)).bind fun r' _ => ?_
      split
      · exact keeps_pure trivial
      · exact (ask_keeps _).bind fun _ _ => keeps_ite (keeps_pure trivial) (keeps_throw _)
    · exact (ask_keeps _).bind fun _ _ => keeps_ite (keeps_pure trivial) (keeps_throw _)

theorem createParent_keeps {path : Path} (h : Under root path) :
    Keeps (Kept disk root) (createParent disk path) fun _ => True := by
  unfold createParent
  split
  · exact keeps_pure trivial
  · apply createDirAllFrom_keeps
    rw [List.reverse_reverse]
    by_cases heq : root ≠ [] ∧ path = root
    · exact .inr ⟨heq.1,by rw [heq.2]⟩
    · exact .inl (h.dropLast fun hne hpath => heq ⟨hne,hpath⟩)

variable {file : FilePatch}

theorem inside_keeps (hroot : Plain root) (relative : Line) :
    Keeps (Kept disk root) (inside (σ := σ) root file relative) (Under root) := by
  unfold inside
  dsimp only
  split
  · next h => exact keeps_pure (under_lexical hroot (List.isPrefixOf_iff_prefix.mp h))
  · exact keeps_throw _

theorem write_keeps {path : Path} (h : Under root path) (text : Line) :
    Keeps (Kept disk root) (write disk path text) fun _ => True :=
  touch_keeps h.below fun s hne hs => disk.write_keeps s path text _ hs (h.not_prefix hne)

theorem setMode_keeps {path : Path} (h : Under root path) (executable : Bool) :
    Keeps (Kept disk root) (setMode disk path executable) fun _ => True :=
  touch_keeps h.below fun s hne hs => disk.setMode_keeps s path executable _ hs (h.not_prefix hne)

theorem renameFile_keeps (hroot : Plain root) (source target : Line) :
    Keeps (Kept disk root) (renameFile disk root file source target) fun _ => True := by
  unfold renameFile
  refine (inside_keeps hroot source).bind fun a ha => (inside_keeps hroot target).bind fun b hb => ?_
  refine (createParent_keeps hb).bind fun _ _ => touch_keeps ⟨ha.below,hb.below⟩ ?_
  exact fun s hne hs => disk.rename_keeps s a b _ hs (ha.not_prefix hne) (hb.not_prefix hne)

theorem createFile_keeps (hroot : Plain root) (new : Line) :
    Keeps (Kept disk root) (createFile disk root file new) fun _ => True := by
  unfold createFile
  refine (inside_keeps hroot new).bind fun p hp => (createParent_keeps hp).bind fun _ _ => ?_
  exact (write_keeps hp _).bind fun _ _ => setMode_keeps hp _

theorem addFile_keeps (hroot : Plain root) (new : Line) :
    Keeps (Kept disk root) (addFile disk root file new) fun _ => True := by
  unfold addFile
  refine (inside_keeps hroot new).bind fun p hp => (createParent_keeps hp).bind fun _ _ => ?_
  exact write_keeps hp _

theorem deleteFile_keeps (hroot : Plain root) (old : Line) :
    Keeps (Kept disk root) (deleteFile disk root file old) fun _ => True := by
  unfold deleteFile
  refine (inside_keeps hroot old).bind fun p hp => touch_keeps hp.below ?_
  exact fun s hne hs => disk.remove_keeps s p _ hs (hp.not_prefix hne)

theorem changeMode_keeps (hroot : Plain root) (new : Option Line) :
    Keeps (Kept disk root) (changeMode disk root file new) fun _ => True := by
  unfold changeMode
  split
  · exact (inside_keeps hroot _).bind fun p hp => setMode_keeps hp _
  · exact keeps_pure trivial

theorem rewrite_keeps {target : Path} (h : Under root target) :
    Keeps (Kept disk root) (rewrite disk file target) fun _ => True := by
  unfold rewrite
  refine (ask_keeps _).bind fun r _ => ?_
  split
  · exact keeps_throw _
  · dsimp only
    split
    · exact keeps_throw _
    · exact write_keeps h _

theorem patchFile_keeps (hroot : Plain root) (old new : Line) :
    Keeps (Kept disk root) (patchFile disk root file old new) fun _ => True := by
  have hrewrite : ∀ name, Keeps (Kept disk root) (do rewrite disk file (← inside root file name)) fun _ => True :=
    fun name => (inside_keeps hroot name).bind fun p hp => rewrite_keeps hp
  unfold patchFile
  refine (ask_keeps _).bind fun isNew _ => keeps_ite (hrewrite new) ?_
  refine (ask_keeps _).bind fun isOld _ => keeps_ite (hrewrite old) ?_
  refine keeps_ite (addFile_keeps hroot new) ?_
  exact (inside_keeps hroot new).bind fun _ _ => keeps_throw _

theorem afterRename_keeps (hroot : Plain root) (old new : Option Line) :
    Keeps (Kept disk root) (afterRename disk root file old new) fun _ => True := by
  unfold afterRename
  refine keeps_ite (createFile_keeps hroot _) (keeps_ite (deleteFile_keeps hroot _) ?_)
  exact keeps_ite (changeMode_keeps hroot _) (patchFile_keeps hroot _ _)

theorem strippedName_keeps (strip : ℕ) (name : Option Line) :
    Keeps (Kept disk root) (strippedName (σ := σ) strip file name) fun _ => True := by
  unfold strippedName
  split
  · exact keeps_pure trivial
  · split
    · exact keeps_pure trivial
    · exact keeps_throw _

theorem applyFile_keeps (hroot : Plain root) (strip : ℕ) :
    Keeps (Kept disk root) (applyFile disk strip root file) fun _ => True := by
  unfold applyFile
  refine (strippedName_keeps strip _).bind fun old _ => (strippedName_keeps strip _).bind fun new _ => ?_
  split
  · refine (renameFile_keeps hroot _ _).bind fun _ _ => ?_
    exact keeps_ite (keeps_pure trivial) (afterRename_keeps hroot _ _)
  · exact afterRename_keeps hroot _ _

end Keeps

/-- However it ends, all that a patch did was done below the root, but that it may have asked for the
directory that the root is in, which is there. -/
theorem applyPatch_inside {σ : Type} (disk : Disk σ) (patch : Line) (strip : ℕ) {root : Path}
    (hroot : Plain root) {s : σ} (hthere : root ≠ [] → disk.There s root.dropLast) :
    ∀ t ∈ (applyPatch disk strip root patch ⟨s,[]⟩).2.touched, Safe root t := by
  have hkeeps : Keeps (Kept disk root) (applyPatch disk strip root patch) fun _ => True := by
    unfold applyPatch
    split
    · exact keeps_throw _
    · exact Keeps.forM (fun file => applyFile_keeps hroot strip) _
  have hstart : Kept disk root ⟨s,[]⟩ := ⟨hthere,fun t ht => absurd ht List.not_mem_nil⟩
  exact (hkeeps _ hstart).1.2

/-- The directory `/r` alone. -/
def emptyRepo : Tree where
  node path := if path = [] ∨ path = [['r']] then some .dir else none
  top := rfl
  closed := by
    intro path c h
    by_cases hp : path ++ [c] = [['r']]
    · have : path = [] := by
        cases path with
        | nil => rfl
        | cons d path => simp at hp
      rw [if_pos (.inl this)]
    · rw [if_neg (by simp [hp])] at h
      exact absurd rfl h

theorem applyPatch_inside_escape :
    Plain [['r']] ∧ ∀ t ∈ (applyPatch treeDisk 0 [['r']]
      "--- a\n+++ ../../etc/x\n@@ -0,0 +1 @@\n+y\n".toList ⟨emptyRepo,[]⟩).2.touched, Safe [['r']] t :=
  ⟨by decide,applyPatch_inside treeDisk _ 0 (by decide) fun _ => rfl⟩

end BuildFiji.Archive
