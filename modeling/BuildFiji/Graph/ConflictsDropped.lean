import BuildFiji.Graph.Conflicts

/-!
# Dropping what lost

Of a file that different actions make, every owner but one loses, and of an output inside
another the owner of its first action. What the losers registered is left out of the build.
-/

set_option autoImplicit false
set_option linter.all false

namespace BuildFiji.Conflicts

open BuildFiji.Graph

/-- The owners that lose a conflict. -/
def dropped (actions : List RegisteredAction) : List Label := (found actions).flatMap Conflict.losers

/-- `actions.retain(|action| !dropped.contains(&action.owner))` -/
def keptActions (actions : List RegisteredAction) : List RegisteredAction :=
  actions.filter fun a => a.owner ∉ dropped actions

/-- The owner that a file is left to. -/
def stays (madeBy : List RegisteredAction) : Option Label :=
  (newestFirst madeBy).getLast?.map RegisteredAction.owner

section SameFileLosers

variable {madeBy : List RegisteredAction} {a : RegisteredAction} {l : Label}

theorem mem_newestFirst : a ∈ newestFirst madeBy ↔ a ∈ madeBy := by
  rw [newestFirst, List.mem_mergeSort, List.mem_reverse]

theorem stays_mem (h : stays madeBy = some l) : ∃ a ∈ madeBy, a.owner = l := by
  obtain ⟨a,ha,rfl⟩ := Option.map_eq_some_iff.mp h
  exact ⟨a,mem_newestFirst.mp (List.mem_of_getLast? ha),rfl⟩

theorem stays_some (h : madeBy ≠ []) : ∃ l, stays madeBy = some l := by
  have hne : newestFirst madeBy ≠ [] := by
    obtain ⟨a,ha⟩ := List.exists_mem_of_ne_nil _ h
    exact List.ne_nil_of_mem (mem_newestFirst.mpr ha)
  exact ⟨_,by rw [stays, List.getLast?_eq_some_getLast hne]; rfl⟩

theorem stays_not_loser (h : stays madeBy = some l) : l ∉ sameFileLosers madeBy := by
  obtain ⟨last,hlast,rfl⟩ := Option.map_eq_some_iff.mp h
  rw [sameFileLosers, hlast]
  simp

/-- Who makes the file and does not lose it is the owner that it is left to. -/
theorem loser_or_stays (ha : a ∈ madeBy) : a.owner ∈ sameFileLosers madeBy ∨ stays madeBy = some a.owner := by
  have hmem := mem_newestFirst.mpr ha
  have hne := List.ne_nil_of_mem hmem
  have hlast := List.getLast?_eq_some_getLast hne
  by_cases howner : a.owner = ((newestFirst madeBy).getLast hne).owner
  · refine Or.inr ?_
    rw [stays, hlast, howner]
    rfl
  · refine Or.inl ?_
    rw [sameFileLosers, hlast]
    rw [← List.dropLast_append_getLast hne, List.mem_append, List.mem_singleton] at hmem
    rcases hmem with hmem | rfl
    · simp only [List.mem_filter, List.mem_eraseDups, decide_eq_true_eq]
      exact ⟨List.mem_map_of_mem hmem,howner⟩
    · exact absurd rfl howner

end SameFileLosers

section Dropped

variable {actions : List RegisteredAction} {path : String} {c : Conflict}

theorem mem_sameFile (h : (path,c) ∈ sameFile actions) :
    c.losers = sameFileLosers (actions.filter (declares path)) ∧ actions.filter (declares path) ≠ [] := by
  obtain ⟨e,he,hc⟩ := List.mem_filterMap.mp h
  obtain ⟨c',hc,heq⟩ := Option.map_eq_some_iff.mp hc
  cases heq
  have hmade := made_actions he
  rw [hmade] at hc
  unfold sameFileConflict at hc
  split at hc
  · cases hc
  · next first rest hfirst =>
    split at hc
    · cases hc
    · obtain ⟨o,-,rfl⟩ := Option.map_eq_some_iff.mp hc
      rw [hfirst]
      exact ⟨rfl,List.cons_ne_nil _ _⟩

theorem dropped_of_sameFile {l : Label} (h : (path,c) ∈ sameFile actions) (hl : l ∈ c.losers) :
    l ∈ dropped actions :=
  List.mem_flatMap.mpr ⟨c,List.mem_append_left _ (List.mem_map.mpr ⟨_,h,rfl⟩),hl⟩

theorem mem_keptActions {a : RegisteredAction} :
    a ∈ keptActions actions ↔ a ∈ actions ∧ a.owner ∉ dropped actions := by
  rw [keptActions, List.mem_filter, decide_eq_true_eq]

/-- Who still makes a file that had a conflict is the owner that it was left to. -/
theorem kept_stays (h : (path,c) ∈ sameFile actions) {a : RegisteredAction} (ha : a ∈ keptActions actions)
    (hpath : declares path a = true) : stays (actions.filter (declares path)) = some a.owner := by
  obtain ⟨hmem,hkept⟩ := mem_keptActions.mp ha
  rcases loser_or_stays (List.mem_filter.mpr ⟨hmem,hpath⟩) with hloser | hstays
  · rw [← (mem_sameFile h).1] at hloser
    exact absurd (dropped_of_sameFile h hloser) hkept
  · exact hstays

/-- The file is still made if the owner that it was left to lost nothing else. -/
theorem kept_maker_iff (h : (path,c) ∈ sameFile actions) {l : Label}
    (hl : stays (actions.filter (declares path)) = some l) :
    (∃ a ∈ keptActions actions, declares path a = true) ↔ l ∉ dropped actions := by
  constructor
  · rintro ⟨a,ha,hpath⟩
    have hstays := kept_stays h ha hpath
    rw [hl] at hstays
    cases hstays
    exact (mem_keptActions.mp ha).2
  · intro hkept
    obtain ⟨a,ha,rfl⟩ := stays_mem hl
    obtain ⟨hmem,hpath⟩ := List.mem_filter.mp ha
    exact ⟨a,mem_keptActions.mpr ⟨hmem,hkept⟩,hpath⟩

theorem insideConflict_losers (o i : String × List Placed) :
    (insideConflict o i).losers = (i.2.head?.map fun a => a.1.owner).toList := rfl

/-- The owner of the first action of an output inside another is dropped. -/
theorem inner_dropped {outer inner : String} (h : ((outer,inner),c) ∈ inside (byOutput actions)) :
    ∃ a ∈ actions, declares inner a = true ∧ a.owner ∈ dropped actions := by
  obtain ⟨o,-,i,hi,-,-,heq⟩ := (mem_inside (byOutput_sorted actions).1).mp h
  obtain ⟨hpair,hc⟩ := Prod.mk.inj heq
  obtain ⟨-,rfl⟩ := Prod.mk.inj hpair
  obtain ⟨first,rest,hfirst⟩ := List.exists_cons_of_ne_nil (mem_byOutput.mp hi).2
  have hmem : first.1 ∈ actions.filter (declares i.1) := by
    rw [← made_actions hi, hfirst]
    exact List.mem_cons_self
  obtain ⟨hin,hpath⟩ := List.mem_filter.mp hmem
  have hloses : first.1.owner ∈ c.losers := by
    rw [hc, insideConflict_losers, hfirst]
    exact List.mem_singleton_self _
  have hfound : c ∈ found actions := List.mem_append_right _ (List.mem_map_of_mem (f := Prod.snd) h)
  exact ⟨first.1,hin,hpath,List.mem_flatMap.mpr ⟨c,hfound,hloses⟩⟩

/-- A pair of outputs is in conflict among what is kept only if the inner one was made for several
owners, or if what made the outer one a tree was dropped. -/
theorem kept_inside {outer inner : String} (h : ((outer,inner),c) ∈ inside (byOutput (keptActions actions))) :
    (∃ a ∈ actions, ∃ b ∈ actions, declares inner a = true ∧ declares inner b = true ∧ a.owner ≠ b.owner) ∨
      ∃ a ∈ actions, declares outer a = true ∧ isTree a = true ∧ a.owner ∈ dropped actions := by
  obtain ⟨⟨o,ho,houter⟩,⟨i,hi,hinner⟩,hwithin,hno⟩ := (inside_iff (keptActions actions)).mp ⟨c,h⟩
  obtain ⟨hio,hio'⟩ := mem_keptActions.mp ho
  obtain ⟨hii,hii'⟩ := mem_keptActions.mp hi
  by_cases htree : ∃ a ∈ actions, declares outer a = true ∧ isTree a = true
  · obtain ⟨a,ha,hpath,ht⟩ := htree
    refine Or.inr ⟨a,ha,hpath,ht,?_⟩
    by_contra hkept
    exact hno ⟨a,mem_keptActions.mpr ⟨ha,hkept⟩,hpath,ht⟩
  · obtain ⟨c',hc'⟩ := (inside_iff actions).mpr ⟨⟨o,hio,houter⟩,⟨i,hii,hinner⟩,hwithin,htree⟩
    obtain ⟨first,hfirst,hpath,hdropped⟩ := inner_dropped hc'
    refine Or.inl ⟨first,hfirst,i,hii,hpath,hinner,?_⟩
    intro heq
    rw [heq] at hdropped
    exact hii' hdropped

/-- What is left when the losers are dropped. -/
theorem dropped_conflicts (actions : List RegisteredAction) :
    (∀ path c, (path,c) ∈ sameFile (keptActions actions) →
      ∀ a ∈ keptActions actions, ∀ b ∈ keptActions actions, declares path a = true → declares path b = true →
        a.owner = b.owner) ∧
    (∀ outer inner c, ((outer,inner),c) ∈ inside (byOutput (keptActions actions)) →
      (∃ a ∈ actions, ∃ b ∈ actions, declares inner a = true ∧ declares inner b = true ∧ a.owner ≠ b.owner) ∨
        ∃ a ∈ actions, declares outer a = true ∧ isTree a = true ∧ a.owner ∈ dropped actions) ∧
    ∀ path c, (path,c) ∈ sameFile actions → ∃ l, stays (actions.filter (declares path)) = some l ∧
      l ∉ c.losers ∧ ((∃ a ∈ keptActions actions, declares path a = true) ↔ l ∉ dropped actions) := by
  refine ⟨?_,fun outer inner c h => kept_inside h,?_⟩
  · intro path c h a ha b hb hpatha hpathb
    obtain ⟨x,hx,y,hy,hdx,hdy,hdiffer⟩ := sameFile_iff.mp ⟨c,h⟩
    obtain ⟨c',hc'⟩ := sameFile_iff.mpr
      ⟨x,(mem_keptActions.mp hx).1,y,(mem_keptActions.mp hy).1,hdx,hdy,hdiffer⟩
    have hstays := kept_stays hc' ha hpatha
    rw [kept_stays hc' hb hpathb] at hstays
    exact (Option.some.inj hstays).symm
  · intro path c h
    obtain ⟨hlosers,hne⟩ := mem_sameFile h
    obtain ⟨l,hl⟩ := stays_some hne
    exact ⟨l,hl,by rw [hlosers]; exact stays_not_loser hl,kept_maker_iff h hl⟩

end Dropped

section Chain

def writes (owner : String) (files : List String) (text : UInt8) : RegisteredAction where
  mnemonic := "FileWrite"
  kind := .writeFile [text] false
  inputs := []
  outputs := files.map fun f => ⟨⟨"",false⟩,f,false,false⟩
  owner := ⟨"","",owner⟩
  ownerKind := "r"
  progressMessage := none

/-- Two make `x`, two make `y`, and the one that `y` is left to loses `x`. -/
def chain : List RegisteredAction := [writes "a" ["x"] 1, writes "b" ["x","y"] 2, writes "c" ["y"] 3]

theorem two_makers {a b : RegisteredAction} (hle : labelText a.owner ≤ labelText b.owner)
    (hne : b.owner ≠ a.owner) : sameFileLosers [a,b] = [b.owner] := by
  have hsorted : newestFirst [a,b] = [b,a] :=
    List.mergeSort_of_pairwise (List.pairwise_pair.mpr (decide_eq_true hle))
  have hone : [b.owner].eraseDups = [b.owner] := rfl
  rw [sameFileLosers, hsorted]
  simp [hone, hne]

theorem writes_declares {owner path : String} {files : List String} {text : UInt8} :
    declares path (writes owner files text) = decide (path ∈ files) := by
  have hpath : ∀ f, (Artifact.mk ⟨"",false⟩ f false false).execPath = f := by
    intro f
    rw [Artifact.execPath, join, if_pos rfl]
  rw [declares, writes, List.any_map, Bool.eq_iff_iff, List.any_eq_true, decide_eq_true_eq]
  simp [hpath]

theorem mem_chain {a : RegisteredAction} :
    a ∈ chain ↔ a = writes "a" ["x"] 1 ∨ a = writes "b" ["x","y"] 2 ∨ a = writes "c" ["y"] 3 := by
  simp [chain]

theorem chain_paths {path : String} (h : ∃ a ∈ chain, declares path a = true) : path = "x" ∨ path = "y" := by
  obtain ⟨a,ha,hpath⟩ := h
  rcases mem_chain.mp ha with rfl | rfl | rfl <;> simp [writes_declares] at hpath <;> grind

theorem chain_losers {path : String} {c : Conflict} (h : (path,c) ∈ sameFile chain) :
    path = "x" ∧ c.losers = [⟨"","","b"⟩] ∨ path = "y" ∧ c.losers = [⟨"","","c"⟩] := by
  obtain ⟨hlosers,hne⟩ := mem_sameFile h
  obtain ⟨a,ha⟩ := List.exists_mem_of_ne_nil _ hne
  rcases chain_paths ⟨a,List.mem_filter.mp ha⟩ with rfl | rfl
  · refine Or.inl ⟨rfl,?_⟩
    have hmade : chain.filter (declares "x") = [writes "a" ["x"] 1,writes "b" ["x","y"] 2] := by simp [chain, writes_declares]
    rw [hlosers, hmade]
    exact two_makers (by decide) (by decide)
  · refine Or.inr ⟨rfl,?_⟩
    have hmade : chain.filter (declares "y") = [writes "b" ["x","y"] 2,writes "c" ["y"] 3] := by simp [chain, writes_declares]
    rw [hlosers, hmade]
    exact two_makers (by decide) (by decide)

/-- `y` was left to `b`, which lost `x`: no action makes it, and `c` lost nothing but `y`. -/
theorem chain_unmade : (∃ c, ("y",c) ∈ sameFile chain) ∧ (∀ a ∈ keptActions chain, declares "y" a = false) ∧
    (∃ a ∈ chain, declares "y" a = true ∧ a.owner = ⟨"","","c"⟩) ∧ inside (byOutput chain) = [] ∧
    ∀ path c, (path,c) ∈ sameFile chain → ⟨"","","c"⟩ ∈ c.losers → path = "y" := by
  have hx : ∃ c, ("x",c) ∈ sameFile chain :=
    sameFile_iff.mpr ⟨writes "a" ["x"] 1,by simp [chain],writes "b" ["x","y"] 2,by simp [chain],by simp [writes_declares],
      by simp [writes_declares],rfl⟩
  have hy : ∃ c, ("y",c) ∈ sameFile chain :=
    sameFile_iff.mpr ⟨writes "b" ["x","y"] 2,by simp [chain],writes "c" ["y"] 3,by simp [chain],by simp [writes_declares],
      by simp [writes_declares],rfl⟩
  have hb : (⟨"","","b"⟩ : Label) ∈ dropped chain := by
    obtain ⟨c,hc⟩ := hx
    refine dropped_of_sameFile hc ?_
    rcases chain_losers hc with ⟨-,h⟩ | ⟨h,-⟩
    · exact h ▸ List.mem_singleton_self _
    · exact absurd h (by decide)
  have hc : (⟨"","","c"⟩ : Label) ∈ dropped chain := by
    obtain ⟨c,hc⟩ := hy
    refine dropped_of_sameFile hc ?_
    rcases chain_losers hc with ⟨h,-⟩ | ⟨-,h⟩
    · exact absurd h (by decide)
    · exact h ▸ List.mem_singleton_self _
  refine ⟨hy,?_,⟨writes "c" ["y"] 3,by simp [chain],by simp [writes_declares],rfl⟩,?_,?_⟩
  · intro a ha
    obtain ⟨ha,hkept⟩ := mem_keptActions.mp ha
    rcases mem_chain.mp ha with rfl | rfl | rfl
    · simp [writes_declares]
    · exact absurd hb hkept
    · exact absurd hc hkept
  · refine List.eq_nil_iff_forall_not_mem.mpr fun p hp => ?_
    obtain ⟨⟨outer,inner⟩,c⟩ := p
    obtain ⟨houter,hinner,⟨rest,hrest⟩,-⟩ := (inside_iff chain).mp ⟨c,hp⟩
    have hlength := congrArg String.length hrest
    have hone : "x".length = 1 ∧ "y".length = 1 ∧ "/".length = 1 := by decide
    rw [String.length_append, String.length_append] at hlength
    rcases chain_paths houter with rfl | rfl <;> rcases chain_paths hinner with rfl | rfl <;> omega
  · intro path c h hlost
    rcases chain_losers h with ⟨-,hl⟩ | ⟨hpath,-⟩
    · rw [hl] at hlost
      exact absurd hlost (by decide)
    · exact hpath

end Chain

end BuildFiji.Conflicts
