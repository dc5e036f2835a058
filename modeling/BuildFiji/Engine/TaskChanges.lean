import BuildFiji.Engine.TaskMemo

/-!
# Changes, versions and new nodes keep the memo

These actions leave every record and every computation as they are. What can
go wrong is a mark that comes too late: it is stored on a node that has been
verified, or is being computed, at the version the change has started.
-/

set_option autoImplicit false
set_option linter.all false

namespace BuildFiji.Engine.Tasks

variable {K V C : Type*} {compute : K → Comp K V C} {outcomeAt : History K V} {x x' : Core K V C}

/-- An action that leaves the records and the computations alone. -/
structure Outer (compute : K → Comp K V C) (x x' : Core K V C) : Prop where
  version : x.version ≤ x'.version
  comp : x'.comp = x.comp
  record : ∀ k, x'.record k = x.record k
  node : ∀ k n, x.nodes k = some n → ∃ n', x'.nodes k = some n'
  running : ∀ k j dirty, x'.nodes k = some ⟨.running j,dirty⟩ →
    ∃ dirty', x.nodes k = some ⟨.running j,dirty'⟩ ∧
      (dirty = true → dirty' = true ∨ ∀ c, x.comp j = some c → x'.Early c.version)
  live : ∀ k j dirty, x.nodes k = some ⟨.running j,dirty⟩ →
    ∃ dirty', x'.nodes k = some ⟨.running j,dirty'⟩
  own : ∀ k n, x.nodes k = some n → ∀ cells, x.Own k cells → x'.Own k cells
  marked : ∀ k e, x.record k = some e → x'.Marked k → x.Marked k ∨ x'.Early e.verifiedAt
  early : ∀ v, x.Early v → x'.Early v
  changes : ∀ ch ∈ x'.changes, ∀ v, ch.stage.started = some v → v ≤ x'.version
  good : ∀ d w v, v ≤ x.version → x.Good compute d w v → x'.Good compute d w v

theorem Outer.grows (h : Outer compute x x') : Grows compute outcomeAt x outcomeAt x' :=
  ⟨h.version,fun k p hp => ⟨p,(h.record k).trans hp,.inl rfl⟩,fun _ _ _ _ _ => rfl,h.good⟩

theorem Outer.evolves (h : Outer compute x x') : Evolves outcomeAt x outcomeAt x' :=
  fun _ c hc => ⟨c,by rw [h.comp, hc],rfl,rfl,rfl,fun ha => ⟨ha,fun _ _ hr => hr⟩⟩

theorem record_node {k : K} {e : Evaluated K V} (h : x.record k = some e) :
    ∃ n, x.nodes k = some n := by
  obtain ⟨n,hn,-⟩ := Option.bind_eq_some_iff.mp h
  exact ⟨n,hn⟩

theorem Outer.taken (h : Outer compute x x') (k : K) : x'.Taken k ↔ x.Taken k := by
  constructor
  · rintro ⟨j,dirty,c,hn,hc,hd⟩
    obtain ⟨dirty',hn',-⟩ := h.running k j dirty hn
    exact ⟨j,dirty',c,hn',h.comp ▸ hc,hd⟩
  · rintro ⟨j,dirty,c,hn,hc,hd⟩
    obtain ⟨dirty',hn'⟩ := h.live k j dirty hn
    exact ⟨j,dirty',c,hn',h.comp.symm ▸ hc,hd⟩

theorem Outer.coreInv (h : Outer compute x x') (hx : CoreInv compute outcomeAt x) :
    CoreInv compute outcomeAt x' := by
  refine ⟨h.changes,fun k e he => ?_,fun j c hc => ?_,fun k j dirty hn => ?_,fun j c hc ha hu => ?_⟩
  · rw [h.record] at he
    obtain ⟨n,hn⟩ := record_node he
    refine (hx.records k e he).mono hx h.grows he (fun cells ho => ?_) fun hm => ?_
    · exact ho.imp (h.own k n hn cells) (h.taken k).mpr
    · rcases hm with hm | hm
      · rcases h.marked k e he hm with hm | hm
        · exact h.early _ ((hx.records k e he).marked (.inl hm))
        · exact hm
      · exact h.early _ ((hx.records k e he).marked (.inr ((h.taken k).mp hm)))
  · rw [h.comp] at hc
    obtain ⟨n,hn⟩ := (hx.comps j c hc).node
    exact (hx.comps j c hc).mono hx h.grows (h.node _ n hn) fun _ _ => h.own _ n hn
  · obtain ⟨dirty',hn',hd⟩ := h.running k j dirty hn
    obtain ⟨c,hc,hk,ha,hu,hel⟩ := hx.running k j dirty' hn'
    refine ⟨c,h.comp ▸ hc,hk,ha,hu,fun hdirty => ?_⟩
    rcases hd hdirty with hd' | he
    · exact h.early _ (hel hd')
    · exact he c hc
  · rw [h.comp] at hc
    obtain ⟨dirty,hn⟩ := hx.live j c hc ha hu
    exact h.live _ j dirty hn

theorem Outer.gets (h : Outer compute x x') {r : Req K V} {e : Evaluated K V} (hg : Gets x' r e) :
    Gets x r e := by
  rwa [Gets, h.comp] at hg

/-- One change moves from a stage to another. -/
structure Moves (x x' : Core K V C) (k : K) (stage stage' : Stage) : Prop where
  old : ∀ ch ∈ x.changes, ch ∈ x'.changes ∨ ch = ⟨k,stage⟩
  new : ∀ ch ∈ x'.changes, ch ∈ x.changes ∨ ch = ⟨k,stage'⟩
  mem : ⟨k,stage⟩ ∈ x.changes
  mem' : ⟨k,stage'⟩ ∈ x'.changes

theorem moves_set {i : ℕ} {k : K} {stage stage' : Stage} {chs : List (Change K)}
    (h : x.changes[i]? = some ⟨k,stage⟩) (hc : chs = x.changes.set i ⟨k,stage'⟩)
    (hx : x'.changes = chs) : Moves x x' k stage stage' := by
  subst hc
  obtain ⟨hi,hk⟩ := List.getElem?_eq_some_iff.mp h
  refine ⟨fun ch hch => ?_,fun ch hch => ?_,hk ▸ List.getElem_mem hi,?_⟩
  · obtain ⟨n,hn,rfl⟩ := List.mem_iff_getElem.mp hch
    by_cases hni : i = n
    · subst hni
      exact .inr hk
    · refine .inl ?_
      rw [hx]
      exact List.mem_iff_getElem.mpr ⟨n,by simpa using hn,by simp [hni]⟩
  · rw [hx] at hch
    exact List.mem_or_eq_of_mem_set hch
  · rw [hx]
    exact List.mem_iff_getElem.mpr ⟨i,by simpa using hi,by simp⟩

theorem Moves.early {k : K} {stage stage' : Stage} (h : Moves x x' k stage stage')
    (hs : ∀ v, stage.started = some v → stage'.started = some v) (v : ℕ) (he : x.Early v) :
    x'.Early v := by
  obtain ⟨ch,hch,v',hv',hlt⟩ := he
  rcases h.old ch hch with hch | rfl
  · exact ⟨ch,hch,v',hv',hlt⟩
  · exact ⟨_,h.mem',v',hs v' hv',hlt⟩

theorem Moves.late {k : K} {stage stage' : Stage} (h : Moves x x' k stage stage')
    (hs : ∀ v, stage.started = some v → stage'.started = some v) {v : ℕ} (hl : x'.Late v) :
    x.Late v := by
  intro ch hch v' hv'
  rcases h.old ch hch with hch | rfl
  · exact hl ch hch v' hv'
  · exact hl _ h.mem' v' (hs v' hv')

theorem Moves.unbumped {k : K} {stage stage' : Stage} (h : Moves x x' k stage stage')
    (hs : stage.unbumped = true → stage'.unbumped = true) (hu : x.Unbumped) : x'.Unbumped := by
  obtain ⟨ch,hch,hu⟩ := hu
  rcases h.old ch hch with hch | rfl
  · exact ⟨ch,hch,hu⟩
  · exact ⟨_,h.mem',hs hu⟩

theorem Moves.doomed {k : K} {stage stage' : Stage} (h : Moves x x' k stage stage')
    (hr : ∀ k, x'.record k = x.record k)
    (hs : ∀ v e, stage = .bumped true v → x.record k = some e → e.verifiedAt < v)
    (hd : x.Doomed) : x'.Doomed := by
  obtain ⟨ch,hch,v,e,hst,he,hle⟩ := hd
  rcases h.old ch hch with hch | rfl
  · exact ⟨ch,hch,v,e,hst,(hr _).trans he,hle⟩
  · exact absurd (hs v e hst he) (by omega)

theorem Moves.own {k k' : K} {stage stage' : Stage} (h : Moves x x' k stage stage')
    (hext : x'.ext = x.ext) (hm : x.Marked k' → x'.Marked k')
    (hs : k' = k → stage.marks = true → stage'.marks = true ∨ x'.Marked k) {cells : List C}
    (ho : x.Own k' cells) : x'.Own k' cells := by
  rcases ho with ho | ho | ⟨ch,hch,hk,hp⟩
  · exact .inl (hext ▸ ho)
  · exact .inr (.inl (hm ho))
  · rcases h.old ch hch with hch | rfl
    · exact .inr (.inr ⟨ch,hch,hk,hp⟩)
    · rcases hs hk.symm hp with hs | hs
      · exact .inr (.inr ⟨_,h.mem',hk,hs⟩)
      · exact .inr (.inl (hk ▸ hs))

/-- A change of stage that moves no node. -/
theorem Moves.outer {k : K} {stage stage' : Stage} (h : Moves x x' k stage stage')
    (hx : CoreInv compute outcomeAt x) (hv : x.version ≤ x'.version) (hn : x'.nodes = x.nodes)
    (hc : x'.comp = x.comp) (hext : x'.ext = x.ext)
    (hst : ∀ v, stage.started = some v → stage'.started = some v)
    (hmk : ∀ n, x.nodes k = some n → stage.marks = true → stage'.marks = true)
    (hver : ∀ v, stage'.started = some v → v ≤ x'.version)
    (hg : ∀ d w v, v ≤ x.version → x.Good compute d w v → x'.Good compute d w v) :
    Outer compute x x' := by
  have hrec : ∀ k, x'.record k = x.record k := fun k => by rw [Core.record, Core.record, hn, hc]
  have hmark : ∀ k, x'.Marked k ↔ x.Marked k := fun k => by rw [Core.Marked, Core.Marked, hn]
  refine ⟨hv,hc,hrec,fun k n hk => ⟨n,hn ▸ hk⟩,fun k j d hk => ⟨d,hn ▸ hk,.inl⟩,
    fun k j d hk => ⟨d,hn ▸ hk⟩,fun k' n hk cells ho => ?_,
    fun k e _ hm => .inl ((hmark k).mp hm),h.early hst,fun ch hch v hs => ?_,hg⟩
  · exact h.own hext (hmark k').mpr (fun he hp => .inl (hmk n (he ▸ hk) hp)) ho
  · rcases h.new ch hch with hch | rfl
    · exact (hx.changes ch hch v hs).trans hv
    · exact hver v hs

theorem lookup_outer (hx : CoreInv compute outcomeAt x) {i : ℕ} {k : K}
    (h : x.changes[i]? = some ⟨k,.set⟩) : Outer compute x
    { x with changes := x.changes.set i ⟨k,.looked (x.nodes k).isSome⟩ } := by
  have hm : Moves x { x with changes := x.changes.set i ⟨k,.looked (x.nodes k).isSome⟩ } k .set
    (.looked (x.nodes k).isSome) := moves_set h rfl rfl
  refine hm.outer hx (le_refl _) rfl rfl rfl (by simp [Stage.started])
    (fun n hn _ => by simp [Stage.marks, hn]) (by simp [Stage.started]) fun d w v _ hg => ?_
  rcases hg with hg | hg | hg
  · exact .inl (hm.doomed (fun _ => rfl) (by simp) hg)
  · exact .inr (.inl (hm.unbumped (fun _ => rfl) hg))
  · exact .inr (.inr fun hl => hg (hm.late (by simp [Stage.started]) hl))

theorem bump_outer (hx : CoreInv compute outcomeAt x) {i : ℕ} {k : K} {found : Bool}
    (h : x.changes[i]? = some ⟨k,.looked found⟩) : Outer compute x
    { x with changes := x.changes.set i ⟨k,.bumped found (x.version+1)⟩, version := x.version+1 } := by
  have hm : Moves x { x with
      changes := x.changes.set i ⟨k,.bumped found (x.version+1)⟩, version := x.version+1 } k
    (.looked found) (.bumped found (x.version+1)) := moves_set h rfl rfl
  refine hm.outer hx (Nat.le_succ _) rfl rfl rfl (by simp [Stage.started])
    (fun _ _ h => h) (by simp [Stage.started]) fun d w v hv _ => ?_
  refine .inr (.inr fun hl => ?_)
  have hle := hl _ hm.mem' _ rfl
  omega

theorem storeAbsent_outer (hx : CoreInv compute outcomeAt x) {i : ℕ} {k : K} {v : ℕ}
    (h : x.changes[i]? = some ⟨k,.bumped false v⟩) : Outer compute x
    { x with changes := x.changes.set i ⟨k,.done v⟩ } := by
  have hm : Moves x { x with changes := x.changes.set i ⟨k,.done v⟩ } k (.bumped false v)
    (.done v) := moves_set h rfl rfl
  refine hm.outer hx (le_refl _) rfl rfl rfl (fun _ h => h) (by simp [Stage.marks])
    (fun v' hv' => hx.changes _ hm.mem v' hv') fun d w v' _ hg => ?_
  rcases hg with hg | hg | hg
  · exact .inl (hm.doomed (fun _ => rfl) (by simp) hg)
  · exact .inr (.inl (hm.unbumped (by simp [Stage.unbumped]) hg))
  · exact .inr (.inr fun hl => hg (hm.late (fun _ h => h) hl))

theorem nextVersion_outer (hx : CoreInv compute outcomeAt x) :
    Outer compute x { x with version := x.version+1 } :=
  ⟨Nat.le_succ _,rfl,fun _ => rfl,fun _ n h => ⟨n,h⟩,fun _ _ d h => ⟨d,h,.inl⟩,
    fun _ _ d h => ⟨d,h⟩,fun _ _ _ _ h => h,fun _ _ _ h => .inl h,fun _ h => h,
    fun ch hch v hs => (hx.changes ch hch v hs).trans (Nat.le_succ _),fun _ _ _ _ h => h⟩

variable [DecidableEq K]

theorem set_outer (hx : CoreInv compute outcomeAt x) (k : K) (c : C) : Outer compute x
    { x with ext := Function.update x.ext k c, changes := x.changes ++ [⟨k,.set⟩] } := by
  have hsub : ∀ ch ∈ x.changes, ch ∈ x.changes ++ [⟨k,.set⟩] :=
    fun ch h => List.mem_append_left _ h
  have hnew : (⟨k,.set⟩ : Change K) ∈ x.changes ++ [⟨k,.set⟩] := by simp
  refine ⟨le_refl _,rfl,fun _ => rfl,fun k n h => ⟨n,h⟩,fun k j d h => ⟨d,h,.inl⟩,
    fun k j d h => ⟨d,h⟩,fun k' n _ cells ho => ?_,fun _ _ _ h => .inl h,fun v he => ?_,
    fun ch hch v hs => ?_,fun d w v _ _ => .inr (.inl ⟨_,hnew,rfl⟩)⟩
  · by_cases hk : k' = k
    · exact .inr (.inr ⟨_,hnew,hk.symm,rfl⟩)
    · rcases ho with ho | ho | ⟨ch,hch,hp⟩
      · exact .inl fun c' hc' => by simp [hk, ho c' hc']
      · exact .inr (.inl ho)
      · exact .inr (.inr ⟨ch,hsub ch hch,hp⟩)
  · obtain ⟨ch,hch,h⟩ := he
    exact ⟨ch,hsub ch hch,h⟩
  · rcases List.mem_append.mp hch with hch | hch
    · exact hx.changes ch hch v hs
    · obtain rfl := List.mem_singleton.mp hch
      cases hs

theorem enter_outer (hx : CoreInv compute outcomeAt x) {k : K} (hn : x.nodes k = none) :
    Outer compute x { x with nodes := Function.update x.nodes k (some ⟨.empty,false⟩) } := by
  have hne : ∀ k' n, x.nodes k' = some n → k' ≠ k := by
    rintro k' n h rfl
    rw [hn] at h
    cases h
  have hrec : ∀ k', Core.record
      { x with nodes := Function.update x.nodes k (some ⟨.empty,false⟩) } k' = x.record k' := by
    intro k'
    unfold Core.record
    by_cases hk : k' = k
    · subst hk
      simp [hn, State.record]
    · simp [hk]
  have hmark : ∀ k', Core.Marked
      { x with nodes := Function.update x.nodes k (some ⟨.empty,false⟩) } k' ↔ x.Marked k' := by
    intro k'
    unfold Core.Marked
    by_cases hk : k' = k
    · subst hk
      simp [hn]
    · simp [hk]
  refine ⟨le_refl _,rfl,hrec,fun k' n h => ⟨n,by simp [hne k' n h, h]⟩,fun k' j d h => ?_,
    fun k' j d h => ⟨d,by simp [hne _ _ h, h]⟩,fun k' n _ cells ho => ?_,
    fun k' e _ h => .inl ((hmark k').mp h),fun _ h => h,hx.changes,fun d w v _ hg => ?_⟩
  · simp only [Function.update_apply] at h
    split at h
    · cases h
    · exact ⟨d,h,.inl⟩
  · exact ho.imp_right (Or.imp_left (hmark k').mpr)
  · refine hg.imp_left ?_
    rintro ⟨ch,hch,v',e,hs,he,hle⟩
    exact ⟨ch,hch,v',e,hs,(hrec _).trans he,hle⟩

/-- A mark in time: the node has not been verified at the version of the change,
and is not being computed at it. -/
theorem store_outer (hx : CoreInv compute outcomeAt x) {i : ℕ} {k : K} {v : ℕ} {n : Node K V}
    (h : x.changes[i]? = some ⟨k,.bumped true v⟩) (hn : x.nodes k = some n)
    (hrec : ∀ e, x.record k = some e → e.verifiedAt < v)
    (hrun : ∀ j c, n.state = .running j → x.comp j = some c → c.version < v) : Outer compute x
    { x with
      nodes := Function.update x.nodes k (some { n with dirty := true })
      changes := x.changes.set i ⟨k,.done v⟩ } := by
  generalize hx' : { x with
      nodes := Function.update x.nodes k (some { n with dirty := true })
      changes := x.changes.set i ⟨k,.done v⟩ } = x'
  have hm : Moves x x' k (.bumped true v) (.done v) := moves_set h rfl (hx' ▸ rfl)
  have hnodes : ∀ k', x'.nodes k' = if k' = k then some { n with dirty := true } else x.nodes k' := by
    intro k'
    rw [← hx']
    exact Function.update_apply _ _ _ _
  have hcomp : x'.comp = x.comp := hx' ▸ rfl
  have hr : ∀ k', x'.record k' = x.record k' := by
    intro k'
    unfold Core.record
    rw [hnodes, hcomp]
    by_cases hk : k' = k
    · rw [if_pos hk, hk, hn]
      rfl
    · rw [if_neg hk]
  have hmk : ∀ k', x.Marked k' → x'.Marked k' := by
    rintro k' ⟨n',hn',hd⟩
    rw [Core.Marked, hnodes]
    split
    · exact ⟨_,rfl,rfl⟩
    · exact ⟨n',hn',hd⟩
  have hself : x'.Marked k := ⟨_,by rw [hnodes, if_pos rfl],rfl⟩
  have hearly : ∀ u, u < v → x'.Early u := fun u hu => ⟨_,hm.mem',v,rfl,hu⟩
  have hstart : ∀ u, (Stage.bumped true v).started = some u → (Stage.done v).started = some u :=
    fun _ h => h
  refine ⟨hx' ▸ le_refl _,hcomp,hr,fun k' n' h' => ?_,fun k' j d h' => ?_,fun k' j d h' => ?_,
    fun k' n' _ cells ho => ?_,fun k' e he hmark => ?_,hm.early hstart,fun ch hch u hs => ?_,
    fun d w u _ hg => ?_⟩
  · rw [hnodes]
    split
    · exact ⟨_,rfl⟩
    · exact ⟨n',h'⟩
  · rw [hnodes] at h'
    split at h'
    · next hk =>
      have hst : n.state = .running j := congrArg Node.state (Option.some.inj h')
      refine ⟨n.dirty,by rw [hk, hn, ← hst],fun _ => .inr fun c hc => ?_⟩
      exact hearly _ (hrun j c hst hc)
    · exact ⟨d,h',.inl⟩
  · rw [hnodes]
    split
    · next hk =>
      rw [hk, hn] at h'
      obtain rfl := Option.some.inj h'
      exact ⟨true,rfl⟩
    · exact ⟨d,h'⟩
  · exact hm.own (hx' ▸ rfl) (hmk k') (fun _ _ => .inr hself) ho
  · by_cases hk : k' = k
    · subst hk
      exact .inr (hearly _ (hrec e he))
    · obtain ⟨n',hn',hd⟩ := hmark
      rw [hnodes, if_neg hk] at hn'
      exact .inl ⟨n',hn',hd⟩
  · have hver : x.version ≤ x'.version := hx' ▸ le_refl _
    rcases hm.new ch hch with hch | rfl
    · exact (hx.changes ch hch u hs).trans hver
    · exact (hx.changes _ hm.mem u hs).trans hver
  · rcases hg with hg | hg | hg
    · refine .inl (hm.doomed hr (fun u e hu he => ?_) hg)
      cases hu
      exact hrec e he
    · exact .inr (.inl (hm.unbumped (by simp [Stage.unbumped]) hg))
    · have hext : x'.ext = x.ext := hx' ▸ rfl
      exact .inr (.inr fun hl => hext ▸ hg (hm.late hstart hl))

end BuildFiji.Engine.Tasks
