import BuildFiji.Repo.MakingCircles
import Mathlib

/-!
# How long a request can take

Whatever a thread does but going to sleep takes from the work that is left to it, and
nothing that another thread does adds to that. A thread goes to sleep once each time it
has been woken up. So the threads take only so many steps for what they were asked.
-/

set_option autoImplicit false
set_option linter.all false

namespace BuildFiji.Making

open Relation

namespace Act

variable {τ : Type}

def isAsk : Act τ → Bool
  | .ask _ _ => true
  | _ => false

def isStep : Act τ → Bool
  | .step _ => true
  | _ => false

def isWake : Act τ → Bool
  | .wake _ => true
  | _ => false

end Act

section Work
variable (needs : Needs) (items : Finset Item)

/-- To make all that a thread does not make yet. -/
def unmadeWork (made : Item → Bool) (frames : List Frame) : ℕ :=
  ∑ x ∈ items with made x = false ∧ x ∉ itemsOf frames, ((needs x).length+3)

def frameWork (frames : List Frame) : ℕ := (frames.map fun frame => frame.lookups.length+2).sum

/-- What failed goes straight to the request. -/
def Thread.work (made : Item → Bool) (thread : Thread) : ℕ :=
  match thread.frames, thread.phase with
  | [], _ => 0
  | frames, .failed _ => 2*frames.length
  | frames, .notifying (.error _) => 2*frames.length+1
  | frames, .inserted => frameWork frames+unmadeWork needs items made frames
  | frames, _ => frameWork frames+unmadeWork needs items made frames+1

variable {made made' : Item → Bool} (frames : List Frame)

theorem unmadeWork_anti (hle : ∀ x, made x = true → made' x = true) :
    unmadeWork needs items made' frames ≤ unmadeWork needs items made frames := by
  apply Finset.sum_le_sum_of_subset
  intro x hx
  obtain ⟨hitem,hunmade,hframes⟩ := Finset.mem_filter.mp hx
  refine Finset.mem_filter.mpr ⟨hitem,?_,hframes⟩
  rw [Bool.eq_false_iff] at hunmade ⊢
  exact fun h => hunmade (hle x h)

variable (lookups : List Lookup)

theorem unmadeWork_begin {item : Item} (hitem : item ∈ items)
    (hunmade : made item = false) (hframes : item ∉ itemsOf frames) :
    unmadeWork needs items made frames =
      unmadeWork needs items made (⟨.make item,lookups⟩::frames)+((needs item).length+3) := by
  have hmem : item ∈ items.filter fun x => made x = false ∧ x ∉ itemsOf frames :=
    Finset.mem_filter.mpr ⟨hitem,hunmade,hframes⟩
  have herase : (items.filter fun x => made x = false ∧ x ∉ itemsOf (⟨.make item,lookups⟩::frames)) =
      (items.filter fun x => made x = false ∧ x ∉ itemsOf frames).erase item := by
    ext x
    simp only [Finset.mem_filter, Finset.mem_erase, itemsOf_make, List.mem_cons, not_or]
    tauto
  rw [unmadeWork, unmadeWork, herase, Finset.sum_erase_add _ _ hmem]

/-- What is made is not left to anybody. -/
theorem unmadeWork_pop {item : Item} (hmade : made item = true) :
    unmadeWork needs items made (⟨.make item,lookups⟩::frames) = unmadeWork needs items made frames := by
  have hfilter : (items.filter fun x => made x = false ∧ x ∉ itemsOf (⟨.make item,lookups⟩::frames)) =
      items.filter fun x => made x = false ∧ x ∉ itemsOf frames := by
    ext x
    simp only [Finset.mem_filter, itemsOf_make, List.mem_cons, not_or]
    constructor
    · rintro ⟨hx,hunmade,-,hframes⟩
      exact ⟨hx,hunmade,hframes⟩
    · rintro ⟨hx,hunmade,hframes⟩
      refine ⟨hx,hunmade,?_,hframes⟩
      rintro rfl
      rw [hmade] at hunmade
      cases hunmade
  rw [unmadeWork, unmadeWork, hfilter]

variable {needs items}

theorem Thread.work_anti (thread : Thread) (hle : ∀ x, made x = true → made' x = true) :
    thread.work needs items made' ≤ thread.work needs items made := by
  have hanti := unmadeWork_anti needs items thread.frames hle
  unfold Thread.work
  split <;> omega

theorem work_awake (thread : Thread) :
    (State.awake thread).work needs items made = thread.work needs items made := by
  obtain ⟨frames,phase⟩ := thread
  cases phase with
  | asleep => cases frames <;> rfl
  | _ => rfl

theorem two_le_frameWork (frames : List Frame) : 2*frames.length ≤ frameWork frames := by
  induction frames with
  | nil => rfl
  | cons frame frames ih =>
    rw [frameWork] at ih ⊢
    simp only [List.map_cons, List.sum_cons, List.length_cons]
    omega

theorem frameWork_cons (frame : Frame) (frames : List Frame) :
    frameWork (frame::frames) = frame.lookups.length+2+frameWork frames := by
  rw [frameWork, frameWork, List.map_cons, List.sum_cons]

variable (needs items made) in
theorem Thread.work_le (frames : List Frame) (phase : Phase) :
    (⟨frames,phase⟩ : Thread).work needs items made ≤
      frameWork frames+unmadeWork needs items made frames+1 := by
  have htwo := two_le_frameWork frames
  unfold Thread.work
  dsimp only
  split <;> omega

end Work

/-- Whether a thread can still go to sleep. -/
def Phase.up : Phase → ℕ
  | .asleep => 0
  | _ => 1

theorem Phase.up_le (phase : Phase) : phase.up ≤ 1 := by
  cases phase with
  | asleep => exact Nat.zero_le _
  | _ => exact le_rfl

namespace State

section Effort
variable {τ : Type} (needs : Needs) (items : Finset Item) (team : Finset τ) (s : State τ)

def work : ℕ := ∑ t ∈ team, (s.threads t).work needs items s.made

def up : ℕ := ∑ t ∈ team, (s.threads t).phase.up

/-- For each piece of work all the threads can be woken up. -/
def effort : ℕ := (team.card+1)*s.work needs items team+s.up team

theorem up_le : s.up team ≤ team.card := by
  have h := Finset.sum_le_card_nsmul team (fun t => (s.threads t).phase.up) 1
    fun t _ => (s.threads t).phase.up_le
  simpa [up] using h

end Effort

variable {τ : Type} {needs : Needs} {items : Finset Item} {team : Finset τ}

/-- Only these items are looked up, and only these threads were asked for anything. -/
structure Bounded (needs : Needs) (items : Finset Item) (team : Finset τ) (s : State τ) : Prop where
  closed : ∀ x, ∀ l ∈ needs x, l.item ∈ items
  looked : ∀ t, ∀ frame ∈ (s.threads t).frames, ∀ l ∈ frame.lookups, l.item ∈ items
  team : ∀ t, (s.threads t).frames ≠ [] → t ∈ team

section Steps
variable [DecidableEq τ] {s s' : State τ} {me t : τ}

/-- A thread goes to sleep or comes nearer to the end of what it was asked for. -/
theorem stepped_work (hb : s.Bounded needs items team) (hs : s.Sound needs)
    (hstep : Stepped needs s me s') :
    (s'.threads me).work needs items s'.made < (s.threads me).work needs items s.made ∨
      (s.threads me).phase = .running ∧
        s' = s.withThread me { s.threads me with phase := .asleep } := by
  cases hstep with
  | found call lookup rest below hthread hmade =>
    left
    rw [withThread_self, hthread]
    show frameWork (⟨call,rest⟩::below)+unmadeWork needs items s.made (⟨call,rest⟩::below)+1 <
      frameWork (⟨call,lookup::rest⟩::below)+unmadeWork needs items s.made (⟨call,rest⟩::below)+1
    simp only [frameWork_cons, List.length_cons]
    omega
  | circular call lookup rest below hthread hmade howner =>
    left
    have htwo := two_le_frameWork (⟨call,lookup::rest⟩::below)
    rw [withThread_self, hthread]
    show 2*(⟨call,lookup::rest⟩::below : List Frame).length <
      frameWork (⟨call,lookup::rest⟩::below)+unmadeWork needs items s.made _+1
    omega
  | sleep call lookup rest below owner hthread hmade howner hne =>
    right
    rw [hthread]
    exact ⟨rfl,rfl⟩
  | begin call lookup rest below hthread hmade howner =>
    left
    have hitem : lookup.item ∈ items := by
      apply hb.looked me ⟨call,lookup::rest⟩ _ lookup List.mem_cons_self
      rw [hthread]
      exact List.mem_cons_self
    have hframes : lookup.item ∉ itemsOf (⟨call,lookup::rest⟩::below) := by
      intro hmem
      have hmine := (hs.owner lookup.item me).mpr (by rwa [hthread])
      rw [howner] at hmine
      cases hmine
    have hbegin := unmadeWork_begin needs items _ (needs lookup.item) hitem hmade hframes
    show ((s.withThread me _).threads me).work needs items s.made < _
    rw [withThread_self, hthread]
    show frameWork (⟨.make lookup.item,needs lookup.item⟩::⟨call,lookup::rest⟩::below)+
        unmadeWork needs items s.made _+1 <
      frameWork (⟨call,lookup::rest⟩::below)+unmadeWork needs items s.made _+1
    rw [hbegin, frameWork_cons]
    dsimp only
    omega
  | answer request below hthread =>
    left
    have hidle : (s.leave me request (.ok ())).threads me = ⟨[],.running⟩ := withThread_self _
    rw [hidle, hthread]
    exact Nat.succ_pos _
  | refuse request lookups below e hthread =>
    left
    have hidle : (s.leave me request (.error e)).threads me = ⟨[],.running⟩ := withThread_self _
    rw [hidle, hthread]
    exact Nat.mul_pos (by decide) (Nat.succ_pos _)
  | insert name below hthread =>
    left
    rw [withThread_self, hthread]
    exact Nat.lt_succ_of_le (Nat.add_le_add_left (unmadeWork_anti needs items _ (update_made s.made _)) _)
  | ran id below hthread =>
    left
    have hpop := unmadeWork_pop needs items below [] (Function.update_self (.extension id) true s.made)
    have hanti := unmadeWork_anti needs items (⟨.make (.extension id),[]⟩::below) (update_made s.made (.extension id))
    have hle := Thread.work_le needs items (Function.update s.made (.extension id) true) below
      (.notifying (.ok ()))
    show (((s.insert (.extension id)).withThread me _).threads me).work needs items
      (Function.update s.made (.extension id) true) < _
    rw [withThread_self, hthread]
    show _ < frameWork (⟨.make (.extension id),[]⟩::below)+
      unmadeWork needs items s.made (⟨.make (.extension id),[]⟩::below)+1
    rw [frameWork_cons]
    omega
  | remove item lookups below hthread =>
    left
    have hmade : s.made item = true := by
      obtain ⟨_,_,hframes,hmade⟩ := (hs.thread hthread).phase
      cases hframes
      exact hmade
    have hpop := unmadeWork_pop needs items below lookups hmade
    have hle := Thread.work_le needs items s.made below
      (.notifying (.ok ()))
    show ((s.withThread me _).threads me).work needs items s.made < _
    rw [withThread_self, hthread]
    show _ < frameWork (⟨.make item,lookups⟩::below)+
      unmadeWork needs items s.made (⟨.make item,lookups⟩::below)
    rw [frameWork_cons]
    omega
  | fail item lookup rest below e hthread =>
    left
    show ((s.withThread me _).threads me).work needs items s.made < _
    rw [withThread_self, hthread]
    show Thread.work needs items s.made ⟨below,_⟩ < 2*(below.length+1)
    cases below with
    | nil => exact Nat.succ_pos _
    | cons frame below =>
      show 2*(below.length+1)+1 < _
      rw [List.length_cons]
      omega
  | notify frames result hthread =>
    left
    rw [notify_threads frames result hthread, if_pos rfl, hthread]
    have hphase := (hs.thread hthread).phase
    cases result with
    | error e =>
      obtain ⟨lookup,frame,below,rest,hframes,-⟩ := hphase
      cases hframes
      exact Nat.lt_succ_self _
    | ok =>
      obtain ⟨lookup,⟨⟨call,lookups⟩,below,rest,hframes,hlookups⟩,-⟩ := hphase
      cases hframes
      cases hlookups
      show frameWork (⟨call,rest⟩::below)+unmadeWork needs items s.made (⟨call,rest⟩::below)+1 <
        frameWork (⟨call,lookup::rest⟩::below)+unmadeWork needs items s.made (⟨call,rest⟩::below)+1
      simp only [frameWork_cons, List.length_cons]
      omega

omit [DecidableEq τ] in
theorem frames_ne_nil_of_looks {thread : Thread} {lookup : Lookup} (h : Looks thread.frames lookup) :
    thread.frames ≠ [] := by
  obtain ⟨frame,below,rest,hframes,-⟩ := h
  rw [hframes]
  exact List.cons_ne_nil _ _

theorem stepped_frames_ne_nil (hs : s.Sound needs) (h : Stepped needs s me s') :
    (s.threads me).frames ≠ [] := by
  have hcons : ∀ {frame below phase}, s.threads me = ⟨frame::below,phase⟩ →
      (s.threads me).frames ≠ [] := by
    intro frame below phase hthread
    rw [hthread]
    exact List.cons_ne_nil _ _
  cases h with
  | notify frames result hthread =>
    have hphase := (hs.thread hthread).phase
    rw [hthread]
    cases result with
    | error e =>
      obtain ⟨lookup,hlooks⟩ := hphase
      exact frames_ne_nil_of_looks hlooks
    | ok =>
      obtain ⟨lookup,hlooks,-⟩ := hphase
      exact frames_ne_nil_of_looks hlooks
  | _ =>
    apply hcons
    assumption

/-- Each frame is left of one that was there, or new. -/
theorem stepped_frames (h : Stepped needs s me s') {frame : Frame}
    (hframe : frame ∈ (s'.threads t).frames) :
    (∃ old ∈ (s.threads t).frames, frame.lookups ⊆ old.lookups) ∨
      ∃ item, frame.lookups = needs item := by
  have hkept : frame ∈ (s.threads t).frames → ∃ old ∈ (s.threads t).frames,
      frame.lookups ⊆ old.lookups := fun hmem => ⟨frame,hmem,fun _ hl => hl⟩
  by_cases ht : t = me
  · subst ht
    have hbelow : ∀ {top below phase}, s.threads t = ⟨top::below,phase⟩ → frame ∈ below →
        frame ∈ (s.threads t).frames := by
      intro top below phase hthread hmem
      rw [hthread]
      exact List.mem_cons_of_mem _ hmem
    have hnext : ∀ {call lookup rest below phase}, s.threads t = ⟨⟨call,lookup::rest⟩::below,phase⟩ →
        frame ∈ (⟨call,rest⟩::below : List Frame) →
        ∃ old ∈ (s.threads t).frames, frame.lookups ⊆ old.lookups := by
      intro call lookup rest below phase hthread hmem
      rcases List.mem_cons.mp hmem with rfl | hmem
      · refine ⟨⟨call,lookup::rest⟩,?_,List.subset_cons_self _ _⟩
        rw [hthread]
        exact List.mem_cons_self
      · exact hkept (hbelow hthread hmem)
    cases h with
    | found call lookup rest below hthread hmade =>
      rw [withThread_self] at hframe
      exact .inl (hnext hthread hframe)
    | circular call lookup rest below hthread hmade howner =>
      rw [withThread_self] at hframe
      exact .inl (hkept (by rwa [hthread]))
    | sleep call lookup rest below owner hthread hmade howner hne =>
      rw [withThread_self] at hframe
      exact .inl (hkept (by rwa [hthread]))
    | begin call lookup rest below hthread hmade howner =>
      have hframe : frame ∈ ((s.withThread t _).threads t).frames := hframe
      rw [withThread_self] at hframe
      rcases List.mem_cons.mp hframe with rfl | hmem
      · exact .inr ⟨lookup.item,rfl⟩
      · exact .inl (hkept (by rwa [hthread]))
    | answer request below hthread =>
      have hidle : (s.leave t request (.ok ())).threads t = ⟨[],.running⟩ := withThread_self _
      rw [hidle] at hframe
      cases hframe
    | refuse request lookups below e hthread =>
      have hidle : (s.leave t request (.error e)).threads t = ⟨[],.running⟩ := withThread_self _
      rw [hidle] at hframe
      cases hframe
    | insert name below hthread =>
      rw [withThread_self] at hframe
      exact .inl (hkept (by rwa [hthread]))
    | ran id below hthread =>
      have hframe : frame ∈ (((s.insert _).withThread t _).threads t).frames := hframe
      rw [withThread_self] at hframe
      exact .inl (hkept (hbelow hthread hframe))
    | remove item lookups below hthread =>
      have hframe : frame ∈ ((s.withThread t _).threads t).frames := hframe
      rw [withThread_self] at hframe
      exact .inl (hkept (hbelow hthread hframe))
    | fail item lookup rest below e hthread =>
      have hframe : frame ∈ ((s.withThread t _).threads t).frames := hframe
      rw [withThread_self] at hframe
      exact .inl (hkept (hbelow hthread hframe))
    | notify frames result hthread =>
      rw [notify_threads frames result hthread, if_pos rfl] at hframe
      cases result with
      | error e => exact .inl (hkept (by rwa [hthread]))
      | ok =>
        cases frames with
        | nil => cases hframe
        | cons top below =>
          obtain ⟨call,lookups⟩ := top
          cases lookups with
          | nil => exact .inl (hkept (by rwa [hthread]))
          | cons lookup rest => exact .inl (hnext hthread hframe)
  · left
    apply hkept
    rcases stepped_others h ht with hsame | hwoken
    · rwa [hsame] at hframe
    · rwa [hwoken, awake_frames] at hframe

theorem Bounded.stepped (h : s.Bounded needs items team) (hs : s.Sound needs)
    (hstep : Stepped needs s me s') : s'.Bounded needs items team := by
  constructor
  · exact h.closed
  · intro t frame hframe l hl
    rcases stepped_frames hstep hframe with ⟨old,hold,hsub⟩ | ⟨item,hnew⟩
    · exact h.looked t old hold l (hsub hl)
    · exact h.closed item l (hnew ▸ hl)
  · intro t hframes
    by_cases ht : t = me
    · subst ht
      exact h.team t (stepped_frames_ne_nil hs hstep)
    · apply h.team t
      rcases stepped_others hstep ht with hsame | hwoken
      · rwa [hsame] at hframes
      · rwa [hwoken, awake_frames] at hframes

omit [DecidableEq τ] in
/-- With less work left it does not matter who is awake. -/
theorem effort_lt (h : s'.work needs items team < s.work needs items team ∨
    s'.work needs items team = s.work needs items team ∧ s'.up team < s.up team) :
    s'.effort needs items team < s.effort needs items team := by
  unfold effort
  rcases h with hwork | ⟨hwork,hup⟩
  · have hall := s'.up_le team
    have hone := Nat.mul_le_mul_left (team.card+1) hwork
    rw [Nat.succ_eq_add_one, Nat.mul_add] at hone
    omega
  · rw [hwork]
    omega

theorem stepped_effort (hb : s.Bounded needs items team) (hs : s.Sound needs)
    (hstep : Stepped needs s me s') : s'.effort needs items team < s.effort needs items team := by
  have hme := hb.team me (stepped_frames_ne_nil hs hstep)
  apply effort_lt
  rcases stepped_work hb hs hstep with hless | ⟨hphase,rfl⟩
  · left
    apply Finset.sum_lt_sum _ ⟨me,hme,hless⟩
    intro t _
    by_cases ht : t = me
    · subst ht
      exact hless.le
    · apply ((s'.threads t).work_anti fun _ => stepped_made hstep).trans
      rcases stepped_others hstep ht with hsame | hwoken
      · rw [hsame]
      · rw [hwoken, work_awake]
  · right
    constructor
    · apply Finset.sum_congr rfl
      intro t _
      by_cases ht : t = me
      · subst ht
        rw [withThread_self]
        cases hthread : s.threads t with
        | mk frames phase =>
          rw [hthread] at hphase
          cases hphase
          cases frames <;> rfl
      · rw [withThread_of_ne ht]
        rfl
    · apply Finset.sum_lt_sum
      · intro t _
        by_cases ht : t = me
        · subst ht
          rw [withThread_self]
          exact Nat.zero_le _
        · rw [withThread_of_ne ht]
      · refine ⟨me,hme,?_⟩
        rw [withThread_self, hphase]
        exact Nat.zero_lt_one

theorem Bounded.wake (h : s.Bounded needs items team) :
    (s.withThread t (awake (s.threads t))).Bounded needs items team := by
  have hframes : ∀ u, ((s.withThread t (awake (s.threads t))).threads u).frames =
      (s.threads u).frames := by
    intro u
    by_cases hu : u = t
    · subst hu
      rw [withThread_self, awake_frames]
    · rw [withThread_of_ne hu]
  constructor
  · exact h.closed
  · intro u frame hframe
    exact h.looked u frame (hframes u ▸ hframe)
  · intro u hu
    exact h.team u (hframes u ▸ hu)

theorem wake_effort : (s.withThread t (awake (s.threads t))).effort needs items team ≤
    s.effort needs items team+1 := by
  have hwork : (s.withThread t (awake (s.threads t))).work needs items team =
      s.work needs items team := by
    apply Finset.sum_congr rfl
    intro u _
    by_cases hu : u = t
    · subst hu
      rw [withThread_self]
      exact work_awake _
    · rw [withThread_of_ne hu]
      rfl
  have hup : (s.withThread t (awake (s.threads t))).up team ≤ s.up team+1 := by
    calc (s.withThread t (awake (s.threads t))).up team
      _ ≤ ∑ u ∈ team, ((s.threads u).phase.up+if u = t then 1 else 0) := by
        apply Finset.sum_le_sum
        intro u _
        by_cases hu : u = t
        · subst hu
          rw [if_pos rfl]
          exact (Phase.up_le _).trans (Nat.le_add_left _ _)
        · rw [withThread_of_ne hu, if_neg hu]
          exact le_rfl
      _ ≤ s.up team+1 := by
        rw [Finset.sum_add_distrib, Finset.sum_ite_eq']
        apply Nat.add_le_add_left
        split <;> omega
  unfold effort
  rw [hwork]
  omega

/-- Once nothing more is asked for, all steps but those after a thread that woke up of
itself are paid for. -/
theorem steps_bounded {more : List (Act τ)} (hb : s.Bounded needs items team) (hs : s.Sound needs)
    (hmore : ∀ a ∈ more, a.isAsk = false) (hrun : Machine.run (step needs) s more = some s') :
    more.countP Act.isStep+s'.effort needs items team ≤
      s.effort needs items team+more.countP Act.isWake := by
  induction more generalizing s with
  | nil =>
    cases hrun
    simp
  | cons a more ih =>
    obtain ⟨next,hnext,hrest⟩ := Machine.run_cons (step needs) hrun
    have hsound := hs.act hnext
    have hmore' : ∀ a ∈ more, a.isAsk = false := fun a ha => hmore a (List.mem_cons_of_mem _ ha)
    cases a with
    | ask t request => exact absurd (hmore _ List.mem_cons_self) (by simp [Act.isAsk])
    | step t =>
      have hstep := stepped_of_step hnext
      have hless := stepped_effort hb hs hstep
      have hih := ih (hb.stepped hs hstep) hsound hmore' hrest
      rw [List.countP_cons_of_pos rfl, List.countP_cons_of_neg Bool.false_ne_true]
      omega
    | wake t =>
      have hwoken : next = s.withThread t (awake (s.threads t)) := by
        unfold step at hnext
        dsimp only at hnext
        split at hnext
        · exact (Option.some.inj hnext).symm
        · cases hnext
      subst hwoken
      have hless : (s.withThread t (awake (s.threads t))).effort needs items team ≤
        s.effort needs items team+1 := wake_effort
      have hih := ih hb.wake hsound hmore' hrest
      rw [List.countP_cons_of_neg Bool.false_ne_true, List.countP_cons_of_pos rfl]
      omega

theorem Bounded.ask (h : s.Bounded needs items team) {request : List Lookup} :
    (s.withThread t ⟨[⟨.request request,request⟩],.running⟩).Bounded needs
      (items ∪ (request.map Lookup.item).toFinset) (Insert.insert t team) := by
  constructor
  · exact fun x l hl => Finset.mem_union_left _ (h.closed x l hl)
  · intro u frame hframe l hl
    by_cases hu : u = t
    · subst hu
      rw [withThread_self] at hframe
      cases List.mem_singleton.mp hframe
      apply Finset.mem_union_right
      exact List.mem_toFinset.mpr (List.mem_map_of_mem hl)
    · rw [withThread_of_ne hu] at hframe
      exact Finset.mem_union_left _ (h.looked u frame hframe l hl)
  · intro u hframes
    by_cases hu : u = t
    · rw [hu]
      exact Finset.mem_insert_self _ _
    · rw [withThread_of_ne hu] at hframes
      exact Finset.mem_insert_of_mem (h.team u hframes)

omit [DecidableEq τ] in
theorem bounded_start (hfinite : {x | needs x ≠ []}.Finite) :
    ∃ items team, (start : State τ).Bounded needs items team := by
  refine ⟨hfinite.toFinset.biUnion fun x => ((needs x).map Lookup.item).toFinset,∅,?_,?_,?_⟩
  · intro x l hl
    apply Finset.mem_biUnion.mpr
    refine ⟨x,hfinite.mem_toFinset.mpr (List.ne_nil_of_mem hl),?_⟩
    exact List.mem_toFinset.mpr (List.mem_map_of_mem hl)
  · intro t frame hframe
    cases hframe
  · intro t hframes
    exact absurd rfl hframes

theorem bounded_run (hfinite : {x | needs x ≠ []}.Finite) {acts : List (Act τ)}
    (hrun : Machine.run (step needs) start acts = some s) :
    ∃ items team, s.Bounded needs items team := by
  have hboth : s.Sound needs ∧ ∃ items team, s.Bounded needs items team := by
    apply Machine.run_invariant (step needs)
      (I := fun s => s.Sound needs ∧ ∃ items team, s.Bounded needs items team) _
      ⟨sound_start,bounded_start hfinite⟩ hrun
    rintro s a s' ⟨hs,items,team,hb⟩ hstep
    refine ⟨hs.act hstep,?_⟩
    cases a with
    | step t => exact ⟨items,team,hb.stepped hs (stepped_of_step hstep)⟩
    | ask t request =>
      unfold step at hstep
      dsimp only at hstep
      split at hstep
      · cases hstep
        exact ⟨_,_,hb.ask⟩
      · cases hstep
    | wake t =>
      unfold step at hstep
      dsimp only at hstep
      split at hstep
      · cases hstep
        exact ⟨items,team,hb.wake⟩
      · cases hstep
  exact hboth.2

end Steps

end State

section Runs
variable {τ : Type} [DecidableEq τ]

/-- Where every thread that comes to wait waits for what needs nothing that it makes, and
every lookup that comes back to what is being made is that of a load statement. -/
theorem making_ends (needs : Needs) (hfinite : {x | needs x ≠ []}.Finite) (acts : List (Act τ))
    (s : State τ) (hrun : Machine.run (State.step needs) State.start acts = some s)
    (hguard : Machine.Guarded (State.step needs) (fun s a => a.Meets needs s) State.start acts) :
    (∀ S, ¬s.Deadlocked S) ∧
      (∀ t, (s.threads t).frames ≠ [] → ∃ u s', s.step needs (.step u) = some s') ∧
      (∃ bound, ∀ more s', (∀ a ∈ more, a.isAsk = false) →
        Machine.run (State.step needs) s more = some s' →
        more.countP Act.isStep ≤ bound+more.countP Act.isWake) ∧
      (∀ t request result, (t,request,result) ∈ s.returned → NeedsCycle needs request →
        ∃ e quoted item, result = .error e ∧
          e.message = quoted ++ (FetchError.circular item).message) ∧
      ∀ item, s.successes item ≤ 1 := by
  have hs := State.Sound.run hrun
  have h := State.Open.run hrun hguard
  refine ⟨h.not_deadlocked,fun t => hs.progress (h.ends t),?_,?_,?_⟩
  · obtain ⟨items,team,hb⟩ := State.bounded_run hfinite hrun
    refine ⟨s.effort needs items team,fun more s' hmore hrest => ?_⟩
    have hsteps := State.steps_bounded hb hs hmore hrest
    omega
  · intro t request result hreturned hcycle
    cases result with
    | ok =>
      refine absurd hcycle (not_needsCycle fun l hl => ?_)
      exact hs.settled l.item (h.answered t request hreturned l hl)
    | error e =>
      obtain ⟨quoted,item,hmessage⟩ := message_of_isCircular (h.refused t request e hreturned)
      exact ⟨e,quoted,item,rfl,hmessage⟩
  · intro item
    rw [hs.once]
    split <;> decide

end Runs

def byLoad (name : String) : Lookup := ⟨.repo name,name,"@@" ++ name ++ "//:defs.bzl",.load⟩

/-- Two repositories that load from each other. -/
def twoRepos : Needs := fun item =>
  if item = .repo "a" then [byLoad "b"] else if item = .repo "b" then [byLoad "a"] else []

theorem twoRepos_finite : {x | twoRepos x ≠ []}.Finite := by
  refine Set.Finite.subset (Set.toFinite {.repo "a",.repo "b"}) fun x hx => ?_
  by_contra hnot
  have ha : x ≠ .repo "a" := fun heq => hnot (.inl heq)
  have hb : x ≠ .repo "b" := fun heq => hnot (.inr heq)
  apply hx
  rw [twoRepos, if_neg ha, if_neg hb]

/-- Alone, a thread waits for nobody. -/
def quotesAlone (s : State Unit) : Act Unit → Bool
  | .step t =>
    match (s.threads t).frames with
    | ⟨.make _,lookup::_⟩::_ => lookup.how = .load
    | _ => true
  | _ => true

theorem meets_alone (s : State Unit) (a : Act Unit) (h : quotesAlone s a = true) :
    a.Meets twoRepos s := by
  cases a with
  | step t =>
    refine ⟨fun _ _ _ _ _ _ hne => absurd rfl hne,fun e lookup item rest below _ _ hframes => ?_⟩
    rw [quotesAlone, hframes] at h
    exact of_decide_eq_true h
  | _ => trivial

def askedAlone : List (Act Unit) :=
  [.ask () [byLoad "a"],.step (),.step (),.step (),.step (),.step (),.step (),.step (),.step ()]

theorem making_ends_alone : ∃ s e quoted item,
    Machine.run (State.step twoRepos) State.start askedAlone = some s ∧
      s.returned = [((),[byLoad "a"],.error e)] ∧
      e.message = quoted ++ (FetchError.circular item).message := by
  have hguard : Machine.Guarded (State.step twoRepos) (fun s a => quotesAlone s a = true)
      State.start askedAlone := by decide
  have hmeets := Machine.guarded_imp (State.step twoRepos) (I := fun _ => True)
    (fun _ _ _ _ _ _ => trivial) (fun s a _ => meets_alone s a) trivial hguard
  have hcycle : NeedsCycle twoRepos [byLoad "a"] := by
    refine ⟨byLoad "a",List.mem_singleton_self _,.repo "a",.refl,?_⟩
    exact .head (b := .repo "b") ⟨byLoad "b",List.mem_singleton_self _,rfl⟩
      (.single ⟨byLoad "a",List.mem_singleton_self _,rfl⟩)
  obtain ⟨s,hs⟩ := Option.isSome_iff_exists.mp (by decide :
    (Machine.run (State.step twoRepos) State.start askedAlone).isSome = true)
  have hreturned : (Machine.run (State.step twoRepos) State.start askedAlone).map State.returned =
      some [((),[byLoad "a"],.error ((byLoad "b").failure ((byLoad "a").failure
        (.circular (.repo "a")))))] := rfl
  rw [hs] at hreturned
  have hreturned := Option.some.inj hreturned
  have hends := (making_ends twoRepos twoRepos_finite askedAlone s hs hmeets).2.2.2.1
  obtain ⟨e,quoted,item,he,hmessage⟩ := hends () [byLoad "a"] _
    (hreturned ▸ List.mem_singleton_self _) hcycle
  exact ⟨s,e,quoted,item,hs,by rw [hreturned, he],hmessage⟩

/-- Each makes one of the two repositories and comes to the other. -/
def askedBoth : List (Act Bool) :=
  [.ask true [byLoad "a"],.ask false [byLoad "b"],.step true,.step false,.step true,.step false]

theorem making_hangs : ∃ s, Machine.run (State.step twoRepos) State.start askedBoth = some s ∧
    s.Deadlocked {true,false} ∧ s.returned = [] := by
  obtain ⟨s,hs⟩ := Option.isSome_iff_exists.mp (by decide :
    (Machine.run (State.step twoRepos) State.start askedBoth).isSome = true)
  have hread : ∀ {β : Type} {x : β} (f : State Bool → β),
      (Machine.run (State.step twoRepos) State.start askedBoth).map f = some x → f s = x := by
    intro β x f hmap
    rw [hs] at hmap
    exact Option.some.inj hmap
  have htrue : s.threads true =
      ⟨[⟨.make (.repo "a"),[byLoad "b"]⟩,⟨.request [byLoad "a"],[byLoad "a"]⟩],.asleep⟩ :=
    hread (fun s => s.threads true) rfl
  have hfalse : s.threads false =
      ⟨[⟨.make (.repo "b"),[byLoad "a"]⟩,⟨.request [byLoad "b"],[byLoad "b"]⟩],.asleep⟩ :=
    hread (fun s => s.threads false) rfl
  have ha : s.making (.repo "a") = some true := hread (fun s => s.making (.repo "a")) rfl
  have hb : s.making (.repo "b") = some false := hread (fun s => s.making (.repo "b")) rfl
  refine ⟨s,hs,⟨⟨true,.inl rfl⟩,?_⟩,hread State.returned rfl⟩
  rintro t (rfl | rfl)
  · refine ⟨.repo "b",false,⟨?_,byLoad "b",?_,rfl⟩,hb,nofun,.inr rfl⟩
    · rw [htrue]
    · rw [htrue]
      exact looks_cons
  · refine ⟨.repo "a",true,⟨?_,byLoad "a",?_,rfl⟩,ha,nofun,.inl rfl⟩
    · rw [hfalse]
    · rw [hfalse]
      exact looks_cons

end BuildFiji.Making
