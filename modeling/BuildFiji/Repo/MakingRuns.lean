import BuildFiji.Repo.Making

/-!
# What every schedule of the makers keeps

Who makes something is in its frames, and each frame but the outermost is in the lookup
of the one below it. What is made needs only what is made, so nothing that needs itself
is ever made, and nothing is made twice.
-/

set_option autoImplicit false
set_option linter.all false

namespace BuildFiji.Making

open BuildFiji.Chain Relation

variable {τ : Type} {needs : Needs}

section Frames

@[simp] theorem itemsOf_make (item : Item) (lookups : List Lookup) (frames : List Frame) :
    itemsOf (⟨.make item,lookups⟩::frames) = item::itemsOf frames := rfl

@[simp] theorem itemsOf_request (request lookups : List Lookup) (frames : List Frame) :
    itemsOf (⟨.request request,lookups⟩::frames) = itemsOf frames := rfl

/-- The lookups that a frame has come through are of what is made. -/
def Frame.Along (needs : Needs) (made : Item → Bool) (frame : Frame) : Prop :=
  ∃ before, frame.call.lookups needs = before ++ frame.lookups ∧ ∀ l ∈ before, made l.item = true

/-- Each frame is in the lookup of what the frame on top of it makes, and the outermost
is what the thread was asked for. -/
def Stacked (needs : Needs) (made : Item → Bool) : List Frame → Prop
  | [] => True
  | frame::below => frame.Along needs made ∧ Stacked needs made below ∧
    match frame.call with
    | .request _ => below = []
    | .make item => ∃ lookup, Looks below lookup ∧ lookup.item = item

variable {made made' : Item → Bool} {frame : Frame} {frames : List Frame}

theorem Frame.Along.mono (h : frame.Along needs made) (hle : ∀ x, made x = true → made' x = true) :
    frame.Along needs made' := by
  obtain ⟨before,hsplit,hbefore⟩ := h
  exact ⟨before,hsplit,fun l hl => hle _ (hbefore l hl)⟩

theorem update_made (made : Item → Bool) (item : Item) :
    ∀ x, made x = true → Function.update made item true x = true := by
  intro x hx
  by_cases heq : x = item
  · rw [heq, Function.update_self]
  · rwa [Function.update_of_ne heq]

theorem Stacked.mono (h : Stacked needs made frames) (hle : ∀ x, made x = true → made' x = true) :
    Stacked needs made' frames := by
  induction frames with
  | nil => trivial
  | cons frame frames ih => exact ⟨h.1.mono hle,ih h.2.1,h.2.2⟩

theorem Frame.Along.next {lookup : Lookup} {rest : List Lookup} (h : frame.Along needs made)
    (hlookups : frame.lookups = lookup::rest) (hmade : made lookup.item = true) :
    Frame.Along needs made { frame with lookups := rest } := by
  obtain ⟨before,hsplit,hbefore⟩ := h
  refine ⟨before ++ [lookup],by rw [hsplit, hlookups]; simp,fun l hl => ?_⟩
  rcases List.mem_append.mp hl with hl | hl
  · exact hbefore l hl
  · rw [List.mem_singleton.mp hl]
    exact hmade

theorem Frame.Along.need {lookup : Lookup} {item : Item} {rest : List Lookup}
    (h : Frame.Along needs made ⟨.make item,lookup::rest⟩) : Need needs item lookup.item := by
  obtain ⟨before,hsplit,-⟩ := h
  refine ⟨lookup,?_,rfl⟩
  show lookup ∈ Call.lookups needs (.make item)
  rw [hsplit]
  simp

theorem Frame.Along.all {request : Call} (h : Frame.Along needs made ⟨request,[]⟩) :
    ∀ l ∈ request.lookups needs, made l.item = true := by
  obtain ⟨before,hsplit,hbefore⟩ := h
  have hall : request.lookups needs = before := by simpa using hsplit
  rw [hall]
  exact hbefore

theorem looks_cons {call : Call} {lookup : Lookup} {rest : List Lookup} {below : List Frame} :
    Looks (⟨call,lookup::rest⟩::below) lookup := ⟨_,below,rest,rfl,rfl⟩

theorem looks_unique {lookup lookup' : Lookup} (h : Looks frames lookup)
    (h' : Looks frames lookup') : lookup = lookup' := by
  obtain ⟨frame,below,rest,rfl,hl⟩ := h
  obtain ⟨_,_,_,hf,hl'⟩ := h'
  cases hf
  rw [hl] at hl'
  exact (List.cons.inj hl').1

/-- Everything that a thread makes needs what the thread looks up. -/
theorem Stacked.needed {lookup : Lookup} (h : Stacked needs made frames) (hlooks : Looks frames lookup)
    {x : Item} (hx : x ∈ itemsOf frames) : TransGen (Need needs) x lookup.item := by
  induction frames generalizing lookup with
  | nil => cases hx
  | cons frame below ih =>
    obtain ⟨halong,hbelow,hcall⟩ := h
    obtain ⟨_,_,rest,hf,hl⟩ := hlooks
    cases hf
    obtain ⟨call,lookups⟩ := frame
    cases hl
    cases call with
    | request request =>
      have hnil : below = [] := hcall
      rw [hnil] at hx
      cases hx
    | make item =>
      have hneed := halong.need
      rw [itemsOf_make] at hx
      rcases List.mem_cons.mp hx with rfl | hbelow'
      · exact .single hneed
      · obtain ⟨lookup',hlooks',hitem⟩ := hcall
        exact (hitem ▸ ih hbelow hlooks' hbelow').tail hneed

end Frames

namespace State

section Steps
variable [DecidableEq τ] {s s' : State τ} {me t : τ}

@[simp] theorem withThread_self (thread : Thread) : (s.withThread me thread).threads me = thread :=
  Function.update_self _ _ _

theorem withThread_of_ne {thread : Thread} (h : t ≠ me) :
    (s.withThread me thread).threads t = s.threads t := Function.update_of_ne h _ _

/-- What one step of a thread comes to. -/
inductive Stepped (needs : Needs) (s : State τ) (me : τ) : State τ → Prop where
  | found (call : Call) (lookup : Lookup) (rest : List Lookup) (below : List Frame)
    (hthread : s.threads me = ⟨⟨call,lookup::rest⟩::below,.running⟩)
    (hmade : s.made lookup.item = true) :
    Stepped needs s me (s.withThread me ⟨⟨call,rest⟩::below,.running⟩)
  | circular (call : Call) (lookup : Lookup) (rest : List Lookup) (below : List Frame)
    (hthread : s.threads me = ⟨⟨call,lookup::rest⟩::below,.running⟩)
    (hmade : s.made lookup.item = false) (howner : s.making lookup.item = some me) :
    Stepped needs s me
      (s.withThread me ⟨⟨call,lookup::rest⟩::below,.failed (.circular lookup.item)⟩)
  | sleep (call : Call) (lookup : Lookup) (rest : List Lookup) (below : List Frame) (owner : τ)
    (hthread : s.threads me = ⟨⟨call,lookup::rest⟩::below,.running⟩)
    (hmade : s.made lookup.item = false) (howner : s.making lookup.item = some owner)
    (hne : owner ≠ me) :
    Stepped needs s me (s.withThread me ⟨⟨call,lookup::rest⟩::below,.asleep⟩)
  | begin (call : Call) (lookup : Lookup) (rest : List Lookup) (below : List Frame)
    (hthread : s.threads me = ⟨⟨call,lookup::rest⟩::below,.running⟩)
    (hmade : s.made lookup.item = false) (howner : s.making lookup.item = none) :
    Stepped needs s me { s.withThread me
        ⟨⟨.make lookup.item,needs lookup.item⟩::⟨call,lookup::rest⟩::below,.running⟩ with
      making := Function.update s.making lookup.item (some me) }
  | answer (request : List Lookup) (below : List Frame)
    (hthread : s.threads me = ⟨⟨.request request,[]⟩::below,.running⟩) :
    Stepped needs s me (s.leave me request (.ok ()))
  | refuse (request lookups : List Lookup) (below : List Frame) (e : FetchError)
    (hthread : s.threads me = ⟨⟨.request request,lookups⟩::below,.failed e⟩) :
    Stepped needs s me (s.leave me request (.error e))
  | insert (name : String) (below : List Frame)
    (hthread : s.threads me = ⟨⟨.make (.repo name),[]⟩::below,.running⟩) :
    Stepped needs s me
      ((s.insert (.repo name)).withThread me ⟨⟨.make (.repo name),[]⟩::below,.inserted⟩)
  | ran (id : String) (below : List Frame)
    (hthread : s.threads me = ⟨⟨.make (.extension id),[]⟩::below,.running⟩) :
    Stepped needs s me ((s.insert (.extension id)).remove me (.extension id) below (.ok ()))
  | remove (item : Item) (lookups : List Lookup) (below : List Frame)
    (hthread : s.threads me = ⟨⟨.make item,lookups⟩::below,.inserted⟩) :
    Stepped needs s me (s.remove me item below (.ok ()))
  | fail (item : Item) (lookup : Lookup) (rest : List Lookup) (below : List Frame) (e : FetchError)
    (hthread : s.threads me = ⟨⟨.make item,lookup::rest⟩::below,.failed e⟩) :
    Stepped needs s me (s.remove me item below (.error (lookup.failure e)))
  | notify (frames : List Frame) (result : Except FetchError Unit)
    (hthread : s.threads me = ⟨frames,.notifying result⟩) : Stepped needs s me (s.notify me result)

theorem stepped_look {call : Call} {lookup : Lookup} {rest : List Lookup} {below : List Frame}
    (hthread : s.threads me = ⟨⟨call,lookup::rest⟩::below,.running⟩) :
    Stepped needs s me (look needs s me lookup.item) := by
  unfold look
  rw [hthread]
  cases hmade : s.made lookup.item with
  | true => exact .found call lookup rest below hthread hmade
  | false =>
    cases howner : s.making lookup.item with
    | none => exact .begin call lookup rest below hthread hmade howner
    | some owner =>
      by_cases hme : owner = me
      · subst hme
        simp only [Bool.false_eq_true, if_false, if_true]
        exact .circular call lookup rest below hthread hmade howner
      · simp only [Bool.false_eq_true, if_false, if_neg hme]
        exact .sleep call lookup rest below owner hthread hmade howner hme

theorem stepped_of_step (h : stepThread needs s me = some s') : Stepped needs s me s' := by
  cases hthread : s.threads me with
  | mk frames phase =>
    unfold stepThread at h
    rw [hthread] at h
    split at h
    · next result hphase =>
      cases h
      cases hphase
      exact .notify frames result hthread
    · next call lookup rest below hphase hframes =>
      cases hphase
      cases hframes
      have hlook : s' = look needs s me lookup.item := by
        cases hitem : lookup.item with
        | repo name =>
          rw [hitem] at h
          exact (Option.some.inj h).symm
        | extension id =>
          rw [hitem] at h
          exact (Option.some.inj h).symm
      rw [hlook]
      exact stepped_look hthread
    · next request below hphase hframes =>
      cases hphase
      cases hframes
      cases h
      exact .answer request below hthread
    · next name below hphase hframes =>
      cases hphase
      cases hframes
      cases h
      exact .insert name below hthread
    · next id below hphase hframes =>
      cases hphase
      cases hframes
      cases h
      exact .ran id below hthread
    · next item lookups below hphase hframes =>
      cases hphase
      cases hframes
      cases h
      exact .remove item lookups below hthread
    · next e request lookups below hphase hframes =>
      cases hphase
      cases hframes
      cases h
      exact .refuse request lookups below e hthread
    · next e item lookup rest below hphase hframes =>
      cases hphase
      cases hframes
      cases h
      exact .fail item lookup rest below e hthread
    · cases h

end Steps

end State

/-- What the phase of a thread says of its frames. -/
def Phase.Sound (made : Item → Bool) (frames : List Frame) : Phase → Prop
  | .running => True
  | .asleep => ∃ lookup, Looks frames lookup ∧ lookup.item ∉ itemsOf frames
  | .failed _ => ∃ lookup, Looks frames lookup
  | .inserted => ∃ item below, frames = ⟨.make item,[]⟩::below ∧ made item = true
  | .notifying (.ok ()) => ∃ lookup, Looks frames lookup ∧ made lookup.item = true
  | .notifying (.error _) => ∃ lookup, Looks frames lookup

structure Thread.Sound (needs : Needs) (made : Item → Bool) (thread : Thread) : Prop where
  stacked : Stacked needs made thread.frames
  phase : thread.phase.Sound made thread.frames
  nodup : (itemsOf thread.frames).Nodup
  unmade : ∀ item ∈ itemsOf thread.frames, made item = true →
    thread.phase = .inserted ∧ ∃ below, thread.frames = ⟨.make item,[]⟩::below

structure State.Sound (needs : Needs) (s : State τ) : Prop where
  owner : ∀ item t, s.making item = some t ↔ item ∈ itemsOf (s.threads t).frames
  threads : ∀ t, (s.threads t).Sound needs s.made
  settled : ∀ item, s.made item = true → Acc (fun b a => Need needs a b) item
  once : ∀ item, s.successes item = if s.made item = true then 1 else 0
  awaited : ∀ t item, s.WaitsOn t item →
    s.making item ≠ none ∨ ∃ u result, (s.threads u).phase = .notifying result

section Threads
variable {made made' : Item → Bool} {call : Call} {lookup : Lookup} {rest : List Lookup}
  {below frames : List Frame} {phase : Phase}

theorem Phase.Sound.mono (h : phase.Sound made frames) (hle : ∀ x, made x = true → made' x = true) :
    phase.Sound made' frames := by
  cases phase with
  | inserted =>
    obtain ⟨item,below,hframes,hmade⟩ := h
    exact ⟨item,below,hframes,hle _ hmade⟩
  | notifying result =>
    cases result with
    | ok =>
      obtain ⟨lookup,hlooks,hmade⟩ := h
      exact ⟨lookup,hlooks,hle _ hmade⟩
    | error => exact h
  | _ => exact h

theorem Thread.sound_idle : (⟨[],.running⟩ : Thread).Sound needs made :=
  ⟨trivial,trivial,List.nodup_nil,nofun⟩

/-- Nothing that a thread still makes is made. -/
theorem Thread.Sound.not_made (h : (⟨frames,phase⟩ : Thread).Sound needs made)
    (hphase : phase ≠ .inserted) {item : Item} (hitem : item ∈ itemsOf frames) :
    made item = false := by
  rw [Bool.eq_false_iff]
  exact fun hmade => hphase (h.unmade item hitem hmade).1

/-- A lookup that is of what is made is over. -/
theorem Thread.Sound.next (h : (⟨⟨call,lookup::rest⟩::below,phase⟩ : Thread).Sound needs made)
    (hphase : phase ≠ .inserted) (hmade : made lookup.item = true) :
    (⟨⟨call,rest⟩::below,.running⟩ : Thread).Sound needs made := by
  obtain ⟨halong,hbelow,hcall⟩ := h.stacked
  refine ⟨⟨halong.next rfl hmade,hbelow,hcall⟩,trivial,h.nodup,?_⟩
  intro item hitem hitemMade
  exact absurd (h.unmade item hitem hitemMade).1 hphase

/-- Another phase of the same frames. -/
theorem Thread.Sound.turn {phase' : Phase} (h : (⟨frames,phase⟩ : Thread).Sound needs made)
    (hphase : phase ≠ .inserted) (hsound : phase'.Sound made frames) :
    (⟨frames,phase'⟩ : Thread).Sound needs made :=
  ⟨h.stacked,hsound,h.nodup,fun item hitem hmade => absurd (h.unmade item hitem hmade).1 hphase⟩

/-- The frame on top is done with, and its outcome goes to the one below. -/
theorem Thread.Sound.pop {item : Item} {lookups : List Lookup} {result : Except FetchError Unit}
    (h : (⟨⟨.make item,lookups⟩::below,phase⟩ : Thread).Sound needs made)
    (hresult : result = .ok () → made item = true) :
    (⟨below,.notifying result⟩ : Thread).Sound needs made := by
  obtain ⟨-,hbelow,lookup,hlooks,hitem⟩ := h.stacked
  have hnodup := List.nodup_cons.mp h.nodup
  refine ⟨hbelow,?_,hnodup.2,?_⟩
  · cases result with
    | ok => exact ⟨lookup,hlooks,hitem ▸ hresult rfl⟩
    | error => exact ⟨lookup,hlooks⟩
  · intro x hx hmade
    obtain ⟨-,_,hframes⟩ := h.unmade x (List.mem_cons_of_mem _ hx) hmade
    cases hframes
    exact absurd hx hnodup.1

theorem Thread.Sound.give {result : Except FetchError Unit}
    (h : (⟨frames,.notifying result⟩ : Thread).Sound needs made) :
    (State.give frames result).Sound needs made := by
  cases result with
  | error e => exact h.turn nofun h.phase
  | ok =>
    obtain ⟨lookup,⟨⟨call,lookups⟩,below,rest,hframes,hlookups⟩,hmade⟩ := h.phase
    subst hframes
    have hl : lookups = lookup::rest := hlookups
    subst hl
    exact h.next nofun hmade

theorem Thread.Sound.awake {thread : Thread} (h : thread.Sound needs made) :
    (State.awake thread).Sound needs made := by
  obtain ⟨frames,phase⟩ := thread
  cases phase with
  | asleep => exact h.turn nofun trivial
  | _ => exact h

theorem awake_frames (thread : Thread) : (State.awake thread).frames = thread.frames := by
  unfold State.awake
  split
  · rfl
  · rfl

theorem awake_phase (thread : Thread) : (State.awake thread).phase ≠ .asleep := by
  unfold State.awake
  split
  · exact nofun
  · next h => exact h

theorem give_items (frames : List Frame) (result : Except FetchError Unit) :
    itemsOf (State.give frames result).frames = itemsOf frames := by
  cases result with
  | error => rfl
  | ok =>
    cases frames with
    | nil => rfl
    | cons frame below => rfl

theorem give_phase (frames : List Frame) (result : Except FetchError Unit) :
    (State.give frames result).phase ≠ .asleep := by
  cases result with
  | error => exact nofun
  | ok =>
    cases frames with
    | nil => exact nofun
    | cons frame below => exact nofun

end Threads

namespace State

theorem sound_start : (start : State τ).Sound needs where
  owner _ _ := ⟨nofun,nofun⟩
  threads _ := Thread.sound_idle
  settled _ := nofun
  once _ := rfl
  awaited _ _ h := nomatch h.1

section Steps
variable [DecidableEq τ] {s s' : State τ} {me t : τ}

/-- Another thread state, for one that is not about to notify. -/
theorem Sound.withThread (h : s.Sound needs) {thread : Thread} (hthread : thread.Sound needs s.made)
    (hitems : itemsOf thread.frames = itemsOf (s.threads me).frames)
    (hquiet : ∀ result, (s.threads me).phase ≠ .notifying result)
    (hawait : thread.phase = .asleep → ∀ lookup, Looks thread.frames lookup →
      s.making lookup.item ≠ none) : (s.withThread me thread).Sound needs := by
  constructor
  · intro item t
    by_cases ht : t = me
    · subst ht
      rw [withThread_self, hitems]
      exact h.owner item t
    · rw [withThread_of_ne ht]
      exact h.owner item t
  · intro t
    by_cases ht : t = me
    · subst ht
      rw [withThread_self]
      exact hthread
    · rw [withThread_of_ne ht]
      exact h.threads t
  · exact h.settled
  · exact h.once
  · rintro t item ⟨hphase,lookup,hlooks,rfl⟩
    by_cases ht : t = me
    · subst ht
      rw [withThread_self] at hphase hlooks
      exact .inl (hawait hphase lookup hlooks)
    · rw [withThread_of_ne ht] at hphase hlooks
      rcases h.awaited t _ ⟨hphase,lookup,hlooks,rfl⟩ with hmaking | ⟨u,result,hu⟩
      · exact .inl hmaking
      · refine .inr ⟨u,result,?_⟩
        rw [withThread_of_ne]
        · exact hu
        · rintro rfl
          exact hquiet result hu

omit [DecidableEq τ] in
theorem Sound.thread (h : s.Sound needs) {thread : Thread} (hthread : s.threads me = thread) :
    thread.Sound needs s.made := hthread ▸ h.threads me

theorem Sound.begin (h : s.Sound needs) {lookup : Lookup} {frames : List Frame}
    (hthread : s.threads me = ⟨frames,.running⟩) (hlooks : Looks frames lookup)
    (hmade : s.made lookup.item = false) (howner : s.making lookup.item = none) :
    Sound needs { s.withThread me ⟨⟨.make lookup.item,needs lookup.item⟩::frames,.running⟩ with
      making := Function.update s.making lookup.item (some me) } := by
  have hfree : ∀ t, lookup.item ∉ itemsOf (s.threads t).frames := by
    intro t hmem
    rw [← h.owner, howner] at hmem
    cases hmem
  have hme := h.thread hthread
  constructor
  · intro item t
    show Function.update s.making lookup.item (some me) item = some t ↔
      item ∈ itemsOf ((s.withThread me _).threads t).frames
    by_cases ht : t = me
    · subst ht
      rw [withThread_self, itemsOf_make, List.mem_cons]
      by_cases hitem : item = lookup.item
      · rw [hitem, Function.update_self]
        simp
      · rw [Function.update_of_ne hitem, h.owner, hthread, or_iff_right hitem]
    · rw [withThread_of_ne ht]
      by_cases hitem : item = lookup.item
      · rw [hitem, Function.update_self]
        exact ⟨fun heq => absurd (Option.some.inj heq).symm ht,fun hmem => absurd hmem (hfree t)⟩
      · rw [Function.update_of_ne hitem]
        exact h.owner item t
  · intro t
    show ((s.withThread me _).threads t).Sound needs s.made
    by_cases ht : t = me
    · subst ht
      rw [withThread_self]
      refine ⟨⟨⟨[],rfl,nofun⟩,hme.stacked,lookup,hlooks,rfl⟩,trivial,?_,?_⟩
      · rw [itemsOf_make, List.nodup_cons]
        have hnot := hfree t
        rw [hthread] at hnot
        exact ⟨hnot,hme.nodup⟩
      · intro item hitem hitemMade
        rw [itemsOf_make] at hitem
        rcases List.mem_cons.mp hitem with rfl | hitem
        · rw [hmade] at hitemMade
          cases hitemMade
        · rw [hme.not_made nofun hitem] at hitemMade
          cases hitemMade
    · rw [withThread_of_ne ht]
      exact h.threads t
  · exact h.settled
  · exact h.once
  · intro t item hwait
    obtain ⟨hphase,lookup',hlooks',hitem⟩ := hwait
    have ht : t ≠ me := by
      rintro rfl
      rw [show State.threads _ t = _ from withThread_self _] at hphase
      cases hphase
    rw [show State.threads _ t = _ from withThread_of_ne ht] at hphase hlooks'
    show Function.update s.making lookup.item (some me) item ≠ none ∨ _
    by_cases heq : item = lookup.item
    · rw [heq, Function.update_self]
      exact .inl nofun
    · rw [Function.update_of_ne heq]
      rcases h.awaited t item ⟨hphase,lookup',hlooks',hitem⟩ with hmaking | ⟨u,result,hu⟩
      · exact .inl hmaking
      · refine .inr ⟨u,result,?_⟩
        show ((s.withThread me _).threads u).phase = _
        rw [withThread_of_ne]
        · exact hu
        · rintro rfl
          rw [hthread] at hu
          cases hu

/-- What has been made all its lookups is made, and needs nothing that needs itself. -/
theorem Sound.insert (h : s.Sound needs) {item : Item} {below : List Frame}
    (hthread : s.threads me = ⟨⟨.make item,[]⟩::below,.running⟩) :
    Sound needs ((s.insert item).withThread me ⟨⟨.make item,[]⟩::below,.inserted⟩) := by
  have hme := h.thread hthread
  have hmem : item ∈ itemsOf (⟨.make item,[]⟩::below) := List.mem_cons_self
  have hnew : s.made item = false := hme.not_made nofun hmem
  have howner : s.making item = some me := by
    rw [h.owner, hthread]
    exact hmem
  have hle := update_made s.made item
  have hother : ∀ x, Function.update s.made item true x = true → x = item ∨ s.made x = true := by
    intro x hx
    by_cases heq : x = item
    · exact .inl heq
    · rw [Function.update_of_ne heq] at hx
      exact .inr hx
  constructor
  · intro x t
    show s.making x = some t ↔ x ∈ itemsOf (((s.insert item).withThread me _).threads t).frames
    by_cases ht : t = me
    · subst ht
      rw [withThread_self, h.owner, hthread]
    · rw [withThread_of_ne ht]
      exact h.owner x t
  · intro t
    show (((s.insert item).withThread me _).threads t).Sound needs (Function.update s.made item true)
    by_cases ht : t = me
    · subst ht
      rw [withThread_self]
      refine ⟨hme.stacked.mono hle,⟨item,below,rfl,Function.update_self _ _ _⟩,hme.nodup,?_⟩
      intro x hx hxMade
      rcases hother x hxMade with rfl | hold
      · exact ⟨rfl,below,rfl⟩
      · rw [hme.not_made nofun hx] at hold
        cases hold
    · rw [withThread_of_ne ht]
      have hthem := h.threads t
      refine ⟨hthem.stacked.mono hle,hthem.phase.mono hle,hthem.nodup,?_⟩
      intro x hx hxMade
      rcases hother x hxMade with rfl | hold
      · have hthey := (h.owner x t).mpr hx
        rw [howner] at hthey
        exact absurd (Option.some.inj hthey).symm ht
      · exact hthem.unmade x hx hold
  · intro x hx
    rcases hother x hx with rfl | hold
    · refine ⟨x,fun y hy => ?_⟩
      obtain ⟨lookup,hlookup,rfl⟩ := hy
      exact h.settled _ (hme.stacked.1.all lookup hlookup)
    · exact h.settled x hold
  · intro x
    show Function.update s.successes item (s.successes item+1) x =
      if Function.update s.made item true x = true then 1 else 0
    by_cases heq : x = item
    · rw [heq, Function.update_self, Function.update_self, h.once, hnew]
      rfl
    · rw [Function.update_of_ne heq, Function.update_of_ne heq]
      exact h.once x
  · rintro t x ⟨hphase,lookup,hlooks,rfl⟩
    have ht : t ≠ me := by
      rintro rfl
      rw [withThread_self] at hphase
      cases hphase
    rw [withThread_of_ne ht] at hphase hlooks
    rcases h.awaited t _ ⟨hphase,lookup,hlooks,rfl⟩ with hmaking | ⟨u,result,hu⟩
    · exact .inl hmaking
    · refine .inr ⟨u,result,?_⟩
      rw [withThread_of_ne]
      · exact hu
      · rintro rfl
        rw [hthread] at hu
        cases hu

theorem Sound.remove (h : s.Sound needs) {item : Item} {lookups : List Lookup} {below : List Frame}
    {phase : Phase} {result : Except FetchError Unit}
    (hthread : s.threads me = ⟨⟨.make item,lookups⟩::below,phase⟩)
    (hresult : result = .ok () → s.made item = true) : Sound needs (s.remove me item below result) := by
  have hme := h.thread hthread
  have howner : s.making item = some me := by
    rw [h.owner, hthread]
    exact List.mem_cons_self
  constructor
  · intro x t
    show Function.update s.making item none x = some t ↔
      x ∈ itemsOf ((s.withThread me _).threads t).frames
    by_cases heq : x = item
    · rw [heq, Function.update_self]
      refine ⟨nofun,fun hmem => ?_⟩
      by_cases ht : t = me
      · subst ht
        rw [withThread_self] at hmem
        exact absurd hmem (List.nodup_cons.mp hme.nodup).1
      · rw [withThread_of_ne ht, ← h.owner, howner] at hmem
        exact absurd (Option.some.inj hmem).symm ht
    · rw [Function.update_of_ne heq, h.owner]
      by_cases ht : t = me
      · subst ht
        rw [withThread_self, hthread, itemsOf_make, List.mem_cons, or_iff_right heq]
      · rw [withThread_of_ne ht]
  · intro t
    show ((s.withThread me _).threads t).Sound needs s.made
    by_cases ht : t = me
    · subst ht
      rw [withThread_self]
      exact hme.pop hresult
    · rw [withThread_of_ne ht]
      exact h.threads t
  · exact h.settled
  · exact h.once
  · intro t x _
    refine .inr ⟨me,result,?_⟩
    show ((s.withThread me _).threads me).phase = _
    rw [withThread_self]

theorem notify_threads (frames : List Frame) (result : Except FetchError Unit)
    (hthread : s.threads me = ⟨frames,.notifying result⟩) (t : τ) :
    (s.notify me result).threads t = if t = me then give frames result else awake (s.threads t) := by
  by_cases ht : t = me
  · subst ht
    rw [if_pos rfl, notify, hthread]
    exact Function.update_self t (give frames result) fun t => awake (s.threads t)
  · rw [if_neg ht]
    exact Function.update_of_ne ht _ fun t => awake (s.threads t)

/-- Nobody sleeps any more. -/
theorem notify_phase {frames : List Frame} {result : Except FetchError Unit}
    (hthread : s.threads me = ⟨frames,.notifying result⟩) (t : τ) :
    ((s.notify me result).threads t).phase ≠ .asleep := by
  rw [notify_threads frames result hthread]
  split
  · exact give_phase frames result
  · exact awake_phase _

theorem Sound.notify (h : s.Sound needs) {frames : List Frame} {result : Except FetchError Unit}
    (hthread : s.threads me = ⟨frames,.notifying result⟩) : (s.notify me result).Sound needs := by
  have hme := h.thread hthread
  constructor
  · intro item t
    rw [show (s.notify me result).making = s.making from rfl, h.owner,
      notify_threads frames result hthread]
    by_cases ht : t = me
    · subst ht
      rw [if_pos rfl, give_items, hthread]
    · rw [if_neg ht, awake_frames]
  · intro t
    rw [notify_threads frames result hthread]
    split
    · exact hme.give
    · exact (h.threads t).awake
  · exact h.settled
  · exact h.once
  · intro t item hwait
    exact absurd hwait.1 (notify_phase hthread t)

/-- An outermost frame is all there is. -/
theorem Sound.leave (h : s.Sound needs) {request request' lookups : List Lookup} {below : List Frame}
    {phase : Phase} {result : Except FetchError Unit}
    (hthread : s.threads me = ⟨⟨.request request,lookups⟩::below,phase⟩)
    (hquiet : ∀ result, phase ≠ .notifying result) : Sound needs (s.leave me request' result) := by
  have hbelow : below = [] := (h.thread hthread).stacked.2.2
  subst hbelow
  have hidle : (s.withThread me ⟨[],.running⟩).Sound needs := by
    refine h.withThread Thread.sound_idle ?_ ?_ nofun
    · rw [hthread]
      rfl
    · rw [hthread]
      exact hquiet
  exact ⟨hidle.owner,hidle.threads,hidle.settled,hidle.once,hidle.awaited⟩

theorem insert_remove (item : Item) (frames below : List Frame) (result : Except FetchError Unit) :
    (((s.insert item).withThread me ⟨frames,.inserted⟩).remove me item below result) =
      (s.insert item).remove me item below result := by
  simp only [State.remove, State.withThread, Function.update_idem]

theorem Sound.stepped (h : s.Sound needs) (hstep : Stepped needs s me s') : s'.Sound needs := by
  cases hstep with
  | found call lookup rest below hthread hmade =>
    refine h.withThread ((h.thread hthread).next nofun hmade) ?_ ?_ nofun
    · rw [hthread]
      rfl
    · rw [hthread]
      exact nofun
  | circular call lookup rest below hthread hmade howner =>
    refine h.withThread ((h.thread hthread).turn nofun ⟨lookup,looks_cons⟩) ?_ ?_ nofun
    · rw [hthread]
    · rw [hthread]
      exact nofun
  | sleep call lookup rest below owner hthread hmade howner hne =>
    have hnot : lookup.item ∉ itemsOf (⟨call,lookup::rest⟩::below) := by
      intro hmem
      have hmine := (h.owner lookup.item me).mpr (by rwa [hthread])
      rw [howner] at hmine
      exact hne (Option.some.inj hmine)
    refine h.withThread ((h.thread hthread).turn nofun ⟨lookup,looks_cons,hnot⟩) ?_ ?_ ?_
    · rw [hthread]
    · rw [hthread]
      exact nofun
    · intro _ lookup' hlooks
      rw [← looks_unique looks_cons hlooks, howner]
      exact nofun
  | begin call lookup rest below hthread hmade howner =>
    exact h.begin hthread looks_cons hmade howner
  | answer request below hthread => exact h.leave hthread nofun
  | refuse request lookups below e hthread => exact h.leave hthread nofun
  | insert name below hthread => exact h.insert hthread
  | ran id below hthread =>
    rw [← insert_remove _ (⟨.make (.extension id),[]⟩::below)]
    exact (h.insert hthread).remove (withThread_self _) fun _ => Function.update_self _ _ _
  | remove item lookups below hthread =>
    refine h.remove hthread fun _ => ?_
    obtain ⟨_,_,hframes,hmade⟩ := (h.thread hthread).phase
    cases hframes
    exact hmade
  | fail item lookup rest below e hthread => exact h.remove hthread nofun
  | notify frames result hthread => exact h.notify hthread

theorem Sound.act (h : s.Sound needs) {a : Act τ} (hstep : step needs s a = some s') :
    s'.Sound needs := by
  cases a with
  | step t => exact h.stepped (stepped_of_step hstep)
  | ask t request =>
    unfold step at hstep
    dsimp only at hstep
    split at hstep
    · next hframes hphase =>
      cases hstep
      refine h.withThread ⟨⟨⟨[],rfl,nofun⟩,trivial,rfl⟩,trivial,List.nodup_nil,nofun⟩ ?_ ?_ nofun
      · rw [hframes]
        rfl
      · rw [hphase]
        exact nofun
    · cases hstep
  | wake t =>
    unfold step at hstep
    dsimp only at hstep
    split at hstep
    · next hphase =>
      cases hstep
      refine h.withThread (h.threads t).awake ?_ ?_ ?_
      · rw [awake_frames]
      · rw [hphase]
        exact nofun
      · exact fun hasleep => absurd hasleep (awake_phase _)
    · cases hstep

theorem Sound.run {acts : List (Act τ)} (hrun : Machine.run (step needs) start acts = some s) :
    s.Sound needs := by
  apply Machine.run_invariant (step needs) _ sound_start hrun
  exact fun _ _ _ h hstep => h.act hstep

end Steps

end State

end BuildFiji.Making
