import BuildFiji.Loading.GlobWalk

/-!
# What a glob finds

The walk finds a path exactly when the pattern takes it and no directory on the way
hides it. The pattern is followed name by name and so is the way down, so the one
induction is that of the walk itself.
-/

set_option autoImplicit false
set_option linter.all false

namespace BuildFiji.Glob

open Graph

section Picked

variable {entries : Entries} {pattern : String} {name : FileName} {item : Item}

theorem Entries.mem_children {keep : String → Bool} :
    (name,item) ∈ (entries.children keep).items ↔ (name,item) ∈ entries.items ∧ keep name.text = true := by
  induction entries with
  | nil => simp [children, items]
  | file other rest ih =>
    rw [children]
    split
    · next h =>
      simp only [items, List.mem_cons, ih, Prod.mk.injEq]
      constructor
      · intro hm
        cases hm with
        | inl heq => exact ⟨.inl heq,heq.1 ▸ h⟩
        | inr hm => exact ⟨.inr hm.1,hm.2⟩
      · exact fun hm => hm.1.imp id fun hi => ⟨hi,hm.2⟩
    · next h =>
      simp only [items, List.mem_cons, ih, Prod.mk.injEq]
      refine ⟨fun hm => ⟨.inr hm.1,hm.2⟩,fun hm => ⟨hm.1.resolve_left ?_,hm.2⟩⟩
      intro heq
      exact h (heq.1 ▸ hm.2)
  | dir other inside rest _ ih =>
    rw [children]
    split
    · next h =>
      simp only [items, List.mem_cons, ih, Prod.mk.injEq]
      constructor
      · intro hm
        cases hm with
        | inl heq => exact ⟨.inl heq,heq.1 ▸ h⟩
        | inr hm => exact ⟨.inr hm.1,hm.2⟩
      · exact fun hm => hm.1.imp id fun hi => ⟨hi,hm.2⟩
    · next h =>
      simp only [items, List.mem_cons, ih, Prod.mk.injEq]
      refine ⟨fun hm => ⟨.inr hm.1,hm.2⟩,fun hm => ⟨hm.1.resolve_left ?_,hm.2⟩⟩
      intro heq
      exact h (heq.1 ▸ hm.2)

theorem Entries.Distinct.mem_child {text : String} (h : entries.Distinct) :
    (name,item) ∈ (entries.child text).items ↔ (name,item) ∈ entries.items ∧ name.text = text := by
  induction entries with
  | nil => simp [child, items]
  | file other rest ih =>
    have hother : ∀ e ∈ rest.items, e.1.text = text → other.text ≠ text := fun e he ht ho =>
      h.1 e he (FileName.text_injective (ht.trans ho.symm))
    rw [child]
    split
    · next ho =>
      simp only [items, List.mem_cons, List.not_mem_nil, or_false, Prod.mk.injEq]
      constructor
      · exact fun heq => ⟨.inl heq,heq.1 ▸ ho⟩
      · exact fun hm => hm.1.resolve_right fun hmem => hother _ hmem hm.2 ho
    · next ho =>
      simp only [items, List.mem_cons, ih h.2, Prod.mk.injEq]
      refine ⟨fun hm => ⟨.inr hm.1,hm.2⟩,fun hm => ⟨hm.1.resolve_left ?_,hm.2⟩⟩
      intro heq
      exact ho (heq.1 ▸ hm.2)
  | dir other inside rest _ ih =>
    have hother : ∀ e ∈ rest.items, e.1.text = text → other.text ≠ text := fun e he ht ho =>
      h.1 e he (FileName.text_injective (ht.trans ho.symm))
    rw [child]
    split
    · next ho =>
      simp only [items, List.mem_cons, List.not_mem_nil, or_false, Prod.mk.injEq]
      constructor
      · exact fun heq => ⟨.inl heq,heq.1 ▸ ho⟩
      · exact fun hm => hm.1.resolve_right fun hmem => hother _ hmem hm.2 ho
    · next ho =>
      simp only [items, List.mem_cons, ih h.2.2, Prod.mk.injEq]
      refine ⟨fun hm => ⟨.inr hm.1,hm.2⟩,fun hm => ⟨hm.1.resolve_left ?_,hm.2⟩⟩
      intro heq
      exact ho (heq.1 ▸ hm.2)

/-- A pattern without a star is a name. -/
theorem wildcardMatch_literal {pattern name : String} (h : hasWildcard pattern = false) :
    wildcardMatch pattern name = true ↔ name = pattern := by
  have hno : '*' ∉ pattern.toList := by simpa [hasWildcard] using h
  have hhides : ¬Wildcard.hides pattern name := by
    intro hh
    have hhead := hh.2.1
    exact hno (List.mem_of_mem_head? hhead)
  have hmatch : ∀ p n : List Char, '*' ∉ p → (Wildcard.Matches false p n ↔ n = p) := by
    intro p
    induction p with
    | nil => exact fun n _ => Wildcard.matches_nil_left
    | cons c p ih =>
      intro n hc
      rw [List.mem_cons, not_or] at hc
      cases n with
      | nil => exact iff_of_false (Wildcard.not_matches_short (Ne.symm hc.1)) (by simp)
      | cons x n =>
        rw [Wildcard.matches_char (Ne.symm hc.1), ih n hc.2, List.cons.injEq]
        simp [Wildcard.fits, eq_comm]
  rw [wildcardMatch, Wildcard.wildcardMatchWith, if_neg hhides, Wildcard.Scan.loop_iff, Wildcard.start_result,
    hmatch _ _ hno, String.toList_inj]

/-- Looking for one name and looking through all of them pick the same. -/
theorem mem_picked (h : entries.Distinct) : (name,item) ∈ (picked pattern entries).items ↔
    (name,item) ∈ entries.items ∧ wildcardMatch pattern name.text = true := by
  unfold picked
  split
  · exact Entries.mem_children
  · next hwild =>
    rw [wildcardMatch_literal (by simpa using hwild)]
    exact h.mem_child

end Picked

namespace Walker

variable (walker : Walker)

/-- What the walk meets below `dir`, on a way that no directory hides. -/
def Meets : Path → Entries → Path → Kind → Prop
  | _, _, [], kind => kind = .dir
  | dir, entries, name::path, kind =>
    walker.closed dir = false ∧
      ((name,.file) ∈ entries.items ∧ path = [] ∧ kind = .file ∨
        ∃ inside, (name,.dir inside) ∈ entries.items ∧ walker.isSubpackage (dir ++ [name]) = false ∧
          Meets (dir ++ [name]) inside path kind)

structure Finds (dir : Path) (entries : Entries) (segments : List Segment) (path : Path) (kind : Kind) : Prop where
  some : segments ≠ []
  below : path = [] → dir ≠ []
  met : walker.Meets dir entries path kind
  taken : takes segments (path.map FileName.text) kind = true

/-- What a loop over the entries of `dir` adds: its files, and what lies in its directories. -/
def Adds (dir : Path) (entries : Entries) (files : Prop) (found : FileName → Entries → Path → Kind → Prop)
    (path : Path) (kind : Kind) : Prop :=
  (∃ name, (name,.file) ∈ entries.items ∧ files ∧ path = dir ++ [name] ∧ kind = .file) ∨
    ∃ name inside rest, (name,.dir inside) ∈ entries.items ∧ walker.isSubpackage (dir ++ [name]) = false ∧
      path = dir ++ name::rest ∧ found name inside rest kind

def Insides (entries : Entries) : Prop := ∀ name inside, (name,.dir inside) ∈ entries.items → inside.Distinct

def Visits (dir : Path) (entries : Entries) (segments : List Segment) : Prop :=
  entries.Distinct → ∀ path kind, (path,kind) ∈ walker.visit dir entries segments ↔
    ∃ rest, path = dir ++ rest ∧ walker.Finds dir entries segments rest kind

def Descends (dir : Path) (entries : Entries) (segments : List Segment) : Prop :=
  Insides entries → ∀ path kind, (path,kind) ∈ walker.descendAll dir entries segments ↔
    walker.Adds dir entries (segments.length = 1)
      (fun name inside => walker.Finds (dir ++ [name]) inside segments) path kind

def Steps (dir : Path) (entries : Entries) (rest : List Segment) : Prop :=
  Insides entries → ∀ path kind, (path,kind) ∈ walker.step dir entries rest ↔
    walker.Adds dir entries (rest = [])
      (fun name inside below kind =>
        if rest = [] then below = [] ∧ kind = .dir else walker.Finds (dir ++ [name]) inside rest below kind) path kind

section Loops

variable {walker} {dir path : Path} {entries rest inside : Entries} {name : FileName} {kind : Kind} {files : Prop}
  {found : FileName → Entries → Path → Kind → Prop}

theorem adds_nil : ¬walker.Adds dir .nil files found path kind := by simp [Adds, Entries.items]

theorem adds_file : walker.Adds dir (.file name rest) files found path kind ↔
    (files ∧ path = dir ++ [name] ∧ kind = .file) ∨ walker.Adds dir rest files found path kind := by
  simp only [Adds, Entries.items, List.mem_cons, Prod.mk.injEq, reduceCtorEq, and_false, false_or, and_true,
    or_and_right, exists_or, exists_eq_left, or_assoc]

theorem adds_dir : walker.Adds dir (.dir name inside rest) files found path kind ↔
    (walker.isSubpackage (dir ++ [name]) = false ∧ ∃ below, path = dir ++ name::below ∧ found name inside below kind) ∨
      walker.Adds dir rest files found path kind := by
  simp only [Adds, Entries.items, List.mem_cons, Prod.mk.injEq, reduceCtorEq, and_false, false_or, Item.dir.injEq]
  constructor
  · intro h
    obtain h|⟨other,below,tail,hmem|hmem,hsub,hpath,hfound⟩ := h
    · exact .inr (.inl h)
    · obtain ⟨rfl,rfl⟩ := hmem
      exact .inl ⟨hsub,tail,hpath,hfound⟩
    · exact .inr (.inr ⟨other,below,tail,hmem,hsub,hpath,hfound⟩)
  · intro h
    obtain ⟨hsub,tail,hpath,hfound⟩|h|⟨other,below,tail,hmem,hrest⟩ := h
    · exact .inr ⟨name,inside,tail,.inl ⟨rfl,rfl⟩,hsub,hpath,hfound⟩
    · exact .inl h
    · exact .inr ⟨other,below,tail,.inr hmem,hrest⟩

theorem Insides.rest_file (h : Insides (.file name rest)) : Insides rest := fun other below hm =>
  h other below (List.mem_cons_of_mem _ hm)

theorem Insides.rest_dir (h : Insides (.dir name inside rest)) : Insides rest := fun other below hm =>
  h other below (List.mem_cons_of_mem _ hm)

theorem Insides.first (h : Insides (.dir name inside rest)) : inside.Distinct :=
  h name inside List.mem_cons_self

end Loops

section Steps

variable {walker} {dir : Path} {entries rest inside : Entries} {name : FileName} {segments others : List Segment}

theorem descends_file (h : walker.Descends dir rest segments) : walker.Descends dir (.file name rest) segments := by
  intro hinside path kind
  rw [descendAll, List.mem_append, h hinside.rest_file, adds_file]
  apply or_congr_left
  split
  · next hlast => simp [hlast]
  · next hlast => simp [hlast]

theorem descends_dir (hvisit : walker.Visits (dir ++ [name]) inside segments)
    (h : walker.Descends dir rest segments) : walker.Descends dir (.dir name inside rest) segments := by
  intro hinside path kind
  rw [descendAll, List.mem_append, h hinside.rest_dir, adds_dir]
  apply or_congr_left
  split
  · next hsub => simp [hsub]
  · next hsub => simp [hsub, hvisit hinside.first path kind]

theorem steps_file (h : walker.Steps dir rest others) : walker.Steps dir (.file name rest) others := by
  intro hinside path kind
  rw [step, List.mem_append, h hinside.rest_file, adds_file]
  apply or_congr_left
  split
  · next hlast => simp [hlast]
  · next hlast => simp [hlast]

theorem steps_dir (hvisit : walker.Visits (dir ++ [name]) inside others)
    (h : walker.Steps dir rest others) : walker.Steps dir (.dir name inside rest) others := by
  intro hinside path kind
  rw [step, List.mem_append, h hinside.rest_dir, adds_dir]
  apply or_congr_left
  split
  · next hsub => simp [hsub]
  · next hsub =>
    split
    · next hlast => simp [hsub]
    · next hlast => simp [hsub, hvisit hinside.first path kind]

theorem distinct_insides (h : entries.Distinct) : Insides entries := fun _ _ hmem => h.inside hmem

theorem picked_insides {pattern : String} (h : entries.Distinct) : Insides (picked pattern entries) :=
  fun _ _ hmem => h.inside ((mem_picked h).mp hmem).1

/-- What `**` finds below a directory that is seen. -/
theorem finds_below {name : FileName} {path : Path} {kind : Kind} (hclosed : walker.closed dir = false)
    (hdir : (name,Item.dir inside) ∈ entries.items) (hsub : walker.isSubpackage (dir ++ [name]) = false)
    (h : walker.Finds (dir ++ [name]) inside (.recursive::others) path kind) :
    walker.Finds dir entries (.recursive::others) (name::path) kind := by
  refine ⟨by simp,by simp,⟨hclosed,.inr ⟨inside,hdir,hsub,h.met⟩⟩,?_⟩
  by_cases hothers : others = []
  · rw [hothers]
    exact takes_last
  · rw [List.map_cons, takes_recursive hothers]
    exact .inr ⟨_,_,rfl,h.taken⟩

theorem visits_last (hdescend : walker.Descends dir entries [.recursive]) :
    walker.Visits dir entries [.recursive] := by
  intro hdistinct path kind
  rw [visit, if_pos rfl, List.mem_append]
  have hloop := hdescend (distinct_insides hdistinct) path kind
  constructor
  · intro h
    cases h with
    | inl h =>
      split at h
      · next hdir =>
        rw [List.mem_singleton, Prod.mk.injEq] at h
        obtain ⟨rfl,rfl⟩ := h
        exact ⟨[],(List.append_nil _).symm,by simp,fun _ => hdir,rfl,takes_last⟩
      · simp at h
    | inr h =>
      split at h
      · simp at h
      · next hclosed =>
        rw [Bool.not_eq_true] at hclosed
        obtain ⟨name,hfile,-,hpath,hkind⟩|⟨name,inside,rest,hdir,hsub,hpath,hfinds⟩ := hloop.mp h
        · exact ⟨[name],hpath,by simp,by simp,⟨hclosed,.inl ⟨hfile,rfl,hkind⟩⟩,takes_last⟩
        · exact ⟨name::rest,hpath,finds_below hclosed hdir hsub hfinds⟩
  · rintro ⟨rest,hpath,hfinds⟩
    cases rest with
    | nil =>
      have hkind : kind = .dir := hfinds.met
      left
      rw [if_pos (hfinds.below rfl), hpath, hkind, List.append_nil]
      exact List.mem_singleton_self _
    | cons name rest =>
      obtain ⟨hclosed,hmet⟩ := hfinds.met
      right
      rw [if_neg (by simp [hclosed]), hloop]
      obtain ⟨hfile,hnil,hkind⟩|⟨inside,hdir,hsub,hmet⟩ := hmet
      · exact .inl ⟨name,hfile,rfl,hnil ▸ hpath,hkind⟩
      · exact .inr ⟨name,inside,rest,hdir,hsub,hpath,by simp,by simp,hmet,takes_last⟩

theorem visits_recursive (hothers : others ≠ []) (hzero : walker.Visits dir entries others)
    (hdescend : walker.Descends dir entries (.recursive::others)) :
    walker.Visits dir entries (.recursive::others) := by
  intro hdistinct path kind
  rw [visit, if_neg hothers, List.mem_append, hzero hdistinct]
  have hloop := hdescend (distinct_insides hdistinct) path kind
  constructor
  · intro h
    cases h with
    | inl h =>
      obtain ⟨rest,hpath,hfinds⟩ := h
      exact ⟨rest,hpath,by simp,hfinds.below,hfinds.met,(takes_recursive hothers).mpr (.inl hfinds.taken)⟩
    | inr h =>
      split at h
      · simp at h
      · next hclosed =>
        rw [Bool.not_eq_true] at hclosed
        obtain ⟨name,_,hlast,_⟩|⟨name,inside,rest,hdir,hsub,hpath,hfinds⟩ := hloop.mp h
        · simp [hothers] at hlast
        · exact ⟨name::rest,hpath,finds_below hclosed hdir hsub hfinds⟩
  · rintro ⟨rest,hpath,hfinds⟩
    cases (takes_recursive hothers).mp hfinds.taken with
    | inl htakes => exact .inl ⟨rest,hpath,hothers,hfinds.below,hfinds.met,htakes⟩
    | inr htakes =>
      obtain ⟨first,tail,hcons,htakes⟩ := htakes
      cases rest with
      | nil => cases hcons
      | cons name rest =>
        rw [List.map_cons, List.cons.injEq] at hcons
        obtain ⟨hclosed,hmet⟩ := hfinds.met
        rw [← hcons.2] at htakes
        obtain ⟨hfile,hnil,hkind⟩|⟨inside,hdir,hsub,hmet⟩ := hmet
        · left
          rw [hnil, hkind] at htakes
          refine ⟨[name],hnil ▸ hpath,hothers,by simp,⟨hclosed,.inl ⟨hfile,rfl,hkind⟩⟩,?_⟩
          rw [hkind]
          exact takes_file hothers htakes
        · right
          rw [if_neg (by simp [hclosed]), hloop]
          exact .inr ⟨name,inside,rest,hdir,hsub,hpath,by simp,by simp,hmet,htakes⟩

theorem visits_closed {pattern : String} (hclosed : walker.closed dir = true) :
    walker.Visits dir entries (.name pattern::others) := by
  intro _ path kind
  rw [visit, if_pos hclosed]
  refine iff_of_false List.not_mem_nil ?_
  rintro ⟨rest,_,hfinds⟩
  cases rest with
  | nil => exact Bool.false_ne_true (takes_name_nil.symm.trans hfinds.taken)
  | cons name rest => exact Bool.false_ne_true (hfinds.met.1.symm.trans hclosed)

theorem visits_name {pattern : String} (hclosed : walker.closed dir = false)
    (hstep : walker.Steps dir (picked pattern entries) others) :
    walker.Visits dir entries (.name pattern::others) := by
  intro hdistinct path kind
  rw [visit, if_neg (by simp [hclosed]), hstep (picked_insides hdistinct)]
  constructor
  · intro h
    obtain ⟨name,hfile,hlast,hpath,hkind⟩|⟨name,inside,rest,hdir,hsub,hpath,hfound⟩ := h
    · obtain ⟨hfile,hname⟩ := (mem_picked hdistinct).mp hfile
      refine ⟨[name],hpath,by simp,by simp,⟨hclosed,.inl ⟨hfile,rfl,hkind⟩⟩,?_⟩
      rw [hlast]
      exact takes_name_last.mpr ⟨hname,rfl⟩
    · obtain ⟨hdir,hname⟩ := (mem_picked hdistinct).mp hdir
      split at hfound
      · next hlast =>
        refine ⟨name::rest,hpath,by simp,by simp,⟨hclosed,.inr ⟨inside,hdir,hsub,?_⟩⟩,?_⟩
        · rw [hfound.1, hfound.2]
          rfl
        · rw [hlast, hfound.1]
          exact takes_name_last.mpr ⟨hname,rfl⟩
      · next hlast =>
        refine ⟨name::rest,hpath,by simp,by simp,⟨hclosed,.inr ⟨inside,hdir,hsub,hfound.met⟩⟩,?_⟩
        refine (takes_name hlast fun hnil => ?_).mpr ⟨hname,hfound.taken⟩
        have hmet := hfound.met
        rwa [List.map_eq_nil_iff.mp hnil] at hmet
  · rintro ⟨rest,hpath,hfinds⟩
    cases rest with
    | nil => exact absurd (takes_name_nil.symm.trans hfinds.taken) Bool.false_ne_true
    | cons name rest =>
      have htaken := hfinds.taken
      obtain ⟨-,hmet⟩ := hfinds.met
      by_cases hlast : others = []
      · rw [hlast, List.map_cons, takes_name_last, List.map_eq_nil_iff] at htaken
        obtain ⟨hfile,hnil,hkind⟩|⟨inside,hdir,hsub,hmet⟩ := hmet
        · exact .inl ⟨name,(mem_picked hdistinct).mpr ⟨hfile,htaken.1⟩,hlast,hnil ▸ hpath,hkind⟩
        · refine .inr ⟨name,inside,rest,(mem_picked hdistinct).mpr ⟨hdir,htaken.1⟩,hsub,hpath,?_⟩
          beta_reduce
          rw [if_pos hlast]
          rw [htaken.2] at hmet
          exact ⟨htaken.2,hmet⟩
      · obtain ⟨hfile,hnil,hkind⟩|⟨inside,hdir,hsub,hmet⟩ := hmet
        · exfalso
          rw [hnil, hkind] at htaken
          unfold takes at htaken
          rw [List.map_cons, List.map_nil] at htaken
          split at htaken
          · exact Bool.false_ne_true htaken
          · next hno =>
            rw [segmentsMatchWith, Bool.and_eq_true, match_nil] at htaken
            refine hno ⟨rfl,?_⟩
            rw [List.getLast?_cons, List.getLast?_eq_some_getLast hlast, htaken.2 _ (List.getLast_mem hlast)]
            rfl
        · have hkind : rest.map FileName.text = [] → kind = .dir := by
            intro hnil
            rwa [List.map_eq_nil_iff.mp hnil] at hmet
          obtain ⟨hname,htaken⟩ := (takes_name hlast hkind).mp htaken
          refine .inr ⟨name,inside,rest,(mem_picked hdistinct).mpr ⟨hdir,hname⟩,hsub,hpath,?_⟩
          beta_reduce
          rw [if_neg hlast]
          exact ⟨hlast,by simp,hmet,htaken⟩

end Steps

/-- The walk of a directory finds what the pattern takes and no directory hides. -/
theorem visit_finds (dir : Path) (entries : Entries) (segments : List Segment) : walker.Visits dir entries segments := by
  refine (visit.mutual_induct walker walker.Visits walker.Steps walker.Descends
    ?_ ?_ ?_ ?_ ?_ ?_ ?_ ?_ ?_ ?_ ?_).1 dir entries segments
  · intro dir entries _ path kind
    rw [visit]
    refine iff_of_false List.not_mem_nil fun h => ?_
    obtain ⟨_,_,hfinds⟩ := h
    exact hfinds.some rfl
  · exact fun dir entries => visits_last
  · exact fun dir entries rest => visits_recursive
  · exact fun dir entries pattern rest => visits_closed
  · exact fun dir entries pattern rest h => visits_name (Bool.not_eq_true _ ▸ h)
  · intro dir rest _ path kind
    rw [step]
    exact iff_of_false List.not_mem_nil adds_nil
  · exact fun dir rest name others => steps_file
  · exact fun dir rest name inside others => steps_dir
  · intro dir segments _ path kind
    rw [descendAll]
    exact iff_of_false List.not_mem_nil adds_nil
  · exact fun dir segments name others => descends_file
  · exact fun dir segments name inside others => descends_dir

end Walker

end BuildFiji.Glob
