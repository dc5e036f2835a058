import BuildFiji.Repo.MakingRuns

/-!
# Circular definitions

Where no thread comes to wait for what needs something that it makes, the threads that
wait come to an end at one that does not, and that one can go on. What is needed to make
itself is then found by a thread that makes it, and the error gets to the request if only
load statements are on the way.
-/

set_option autoImplicit false
set_option linter.all false

namespace BuildFiji.Making

open BuildFiji.Chain Relation

variable {τ : Type} {needs : Needs}

theorem not_needsCycle {request : List Lookup}
    (h : ∀ l ∈ request, Acc (fun b a => Need needs a b) l.item) : ¬NeedsCycle needs request := by
  rintro ⟨lookup,hlookup,x,hreach,hring⟩
  have hx : Acc (fun b a => Need needs a b) x := by
    clear hring
    induction hreach with
    | refl => exact h lookup hlookup
    | tail _ hneed ih => exact ih.inv hneed
  clear hreach
  induction hx with
  | intro x _ ih =>
    obtain ⟨y,hxy,hyx⟩ := TransGen.head'_iff.mp hring
    exact ih y hxy (TransGen.tail' hyx hxy)

/-- Only a load statement quotes what it was refused for. -/
theorem failure_isCircular {lookup : Lookup} {e : FetchError} :
    (lookup.failure e).isCircular = true ↔ lookup.how = .load ∧ e.isCircular = true := by
  unfold Lookup.failure
  cases lookup.how with
  | load => exact ⟨fun h => ⟨rfl,h⟩,And.right⟩
  | _ => exact ⟨nofun,fun h => nomatch h.1⟩

theorem message_load (label repo : String) (reason : FetchError) :
    (FetchError.load label repo reason).message = "Unable to find package for " ++ label ++
      ": The repository '@@" ++ repo ++ "' could not be resolved: " ++ reason.message := rfl

/-- Whatever quotes it, the message ends in that of the item. -/
theorem message_of_isCircular {e : FetchError} (h : e.isCircular = true) :
    ∃ quoted item, e.message = quoted ++ (FetchError.circular item).message := by
  induction e with
  | circular item =>
    refine ⟨"",item,?_⟩
    rw [String.empty_append]
  | load label repo reason ih =>
    obtain ⟨quoted,item,hmessage⟩ := ih h
    refine ⟨"Unable to find package for " ++ label ++ ": The repository '@@" ++ repo ++
      "' could not be resolved: " ++ quoted,item,?_⟩
    rw [message_load, hmessage]
    simp only [String.append_assoc]
  | file repo => cases h
  | path label => cases h

namespace State

/-- The thread that makes what a sleeping thread waits for. -/
def waitsFor (s : State τ) (t : τ) : Option τ :=
  match (s.threads t).phase, (s.threads t).frames with
  | .asleep, ⟨_,lookup::_⟩::_ => s.making lookup.item
  | _, _ => none

theorem waitsFor_iff {s : State τ} {t u : τ} : s.waitsFor t = some u ↔
    ∃ item, s.WaitsOn t item ∧ s.making item = some u := by
  unfold waitsFor WaitsOn
  constructor
  · intro h
    split at h
    · next call lookup rest below hphase hframes =>
      refine ⟨lookup.item,⟨hphase,lookup,?_,rfl⟩,h⟩
      rw [hframes]
      exact looks_cons
    · cases h
  · rintro ⟨_,⟨hphase,lookup,⟨⟨call,lookups⟩,below,rest,hframes,hlookups⟩,rfl⟩,hmaking⟩
    have hl : lookups = lookup::rest := hlookups
    rw [hphase, hframes, hl]
    exact hmaking

/-- Nobody waits for a thread through which it would wait for itself, and every error is
that of a circular definition. -/
structure Open (needs : Needs) (s : State τ) : Prop where
  ends : ∀ t, Ends s.waitsFor t
  failed : ∀ t e, (s.threads t).phase = .failed e → e.isCircular = true
  notifying : ∀ t e, (s.threads t).phase = .notifying (.error e) → e.isCircular = true
  answered : ∀ t request, (t,request,.ok ()) ∈ s.returned → ∀ l ∈ request, s.made l.item = true
  refused : ∀ t request e, (t,request,.error e) ∈ s.returned → e.isCircular = true

theorem open_start : (start : State τ).Open needs where
  ends := ends_empty
  failed _ _ := nofun
  notifying _ _ := nofun
  answered _ _ := nofun
  refused _ _ _ := nofun

section Steps
variable [DecidableEq τ] {s s' : State τ} {me t : τ}

theorem awake_error {thread : Thread} {phase : Phase} (h : (awake thread).phase = phase)
    (hphase : phase ≠ .running) : thread.phase = phase := by
  unfold awake at h
  split at h
  · exact absurd h.symm hphase
  · exact h

/-- The other threads are as they were, or woken up. -/
theorem stepped_others (h : Stepped needs s me s') (ht : t ≠ me) :
    s'.threads t = s.threads t ∨ s'.threads t = awake (s.threads t) := by
  cases h with
  | notify frames result hthread =>
    right
    rw [notify_threads frames result hthread, if_neg ht]
  | _ => exact .inl (Function.update_of_ne ht _ _)

theorem stepped_making (h : Stepped needs s me s') {item : Item} {u : τ}
    (hmaking : s'.making item = some u) : s.making item = some u ∨ u = me := by
  have hnone : ∀ x, Function.update s.making x none item = some u → s.making item = some u := by
    intro x hx
    by_cases heq : item = x
    · rw [heq, Function.update_self] at hx
      cases hx
    · rwa [Function.update_of_ne heq] at hx
  cases h with
  | begin call lookup rest below hthread hmade howner =>
    have hmaking : Function.update s.making lookup.item (some me) item = some u := hmaking
    by_cases heq : item = lookup.item
    · rw [heq, Function.update_self] at hmaking
      exact .inr (Option.some.inj hmaking).symm
    · rw [Function.update_of_ne heq] at hmaking
      exact .inl hmaking
  | ran => exact .inl (hnone _ hmaking)
  | remove => exact .inl (hnone _ hmaking)
  | fail => exact .inl (hnone _ hmaking)
  | _ => exact .inl hmaking

theorem stepped_made (h : Stepped needs s me s') {item : Item} (hmade : s.made item = true) :
    s'.made item = true := by
  cases h with
  | insert => exact update_made _ _ item hmade
  | ran => exact update_made _ _ item hmade
  | _ => exact hmade

omit [DecidableEq τ] in
/-- With a thread that does not sleep no ring is closed. -/
theorem Open.ends_awake (h : s.Open needs) (hme : (s'.threads me).phase ≠ .asleep)
    (hothers : ∀ t, t ≠ me → s'.threads t = s.threads t ∨ s'.threads t = awake (s.threads t))
    (hmaking : ∀ item u, s'.making item = some u → s.making item = some u ∨ u = me) (t : τ) :
    Ends s'.waitsFor t := by
  refine Ends.sink h.ends (k := me) ?_ ?_ t
  · rw [Option.eq_none_iff_forall_not_mem]
    intro u hu
    obtain ⟨item,hwait,-⟩ := waitsFor_iff.mp hu
    exact hme hwait.1
  · intro a b hab
    obtain ⟨item,⟨hphase,lookup,hlooks,hitem⟩,hb⟩ := waitsFor_iff.mp hab
    have ha : a ≠ me := fun heq => hme (heq ▸ hphase)
    rcases hothers a ha with hsame | hwoken
    · rw [hsame] at hphase hlooks
      rcases hmaking item b hb with hold | rfl
      · exact .inl (waitsFor_iff.mpr ⟨item,⟨hphase,lookup,hlooks,hitem⟩,hold⟩)
      · exact .inr rfl
    · rw [hwoken] at hphase
      exact absurd hphase (awake_phase _)

omit [DecidableEq τ] in
/-- What a chain of threads waits for is needed by all that its first one makes. -/
theorem Sound.chain (h : s.Sound needs) {owner : τ} (hpath : TransGen (Next s.waitsFor) owner me)
    {x : Item} (hx : x ∈ itemsOf (s.threads owner).frames) :
    ∃ y ∈ itemsOf (s.threads me).frames, TransGen (Need needs) x y := by
  have hone : ∀ {a b : τ} {x : Item}, Next s.waitsFor a b → x ∈ itemsOf (s.threads a).frames →
      ∃ y ∈ itemsOf (s.threads b).frames, TransGen (Need needs) x y := by
    intro a b x hab hx
    obtain ⟨item,⟨hphase,lookup,hlooks,rfl⟩,hb⟩ := waitsFor_iff.mp hab
    exact ⟨lookup.item,(h.owner _ _).mp hb,(h.threads a).stacked.needed hlooks hx⟩
  induction hpath with
  | single hab => exact hone hab hx
  | tail _ hab ih =>
    obtain ⟨y,hy,hxy⟩ := ih
    obtain ⟨z,hz,hyz⟩ := hone hab hy
    exact ⟨z,hz,hxy.trans hyz⟩

/-- A thread that goes to sleep where what it waits for needs nothing that it makes. -/
theorem Open.ends_sleep (h : s.Open needs) (hs : s.Sound needs) {frames : List Frame}
    {lookup : Lookup} {owner : τ} (hthread : s.threads me = ⟨frames,.running⟩)
    (hlooks : Looks frames lookup) (howner : s.making lookup.item = some owner) (hne : owner ≠ me)
    (hclear : ∀ x ∈ itemsOf frames, ¬ReflTransGen (Need needs) lookup.item x) (t : τ) :
    Ends (s.withThread me ⟨frames,.asleep⟩).waitsFor t := by
  have htable : (s.withThread me ⟨frames,.asleep⟩).waitsFor =
      Function.update s.waitsFor me (some owner) := by
    funext a
    by_cases ha : a = me
    · subst ha
      rw [Function.update_self, waitsFor_iff]
      refine ⟨lookup.item,⟨?_,lookup,?_,rfl⟩,howner⟩
      · rw [withThread_self]
      · rw [withThread_self]
        exact hlooks
    · rw [Function.update_of_ne ha, waitsFor, waitsFor, withThread_of_ne ha]
      rfl
  rw [htable]
  apply Ends.insert h.ends hne
  intro hpath
  obtain ⟨y,hy,hreach⟩ := hs.chain hpath ((hs.owner _ _).mp howner)
  rw [hthread] at hy
  exact hclear y hy hreach.to_reflTransGen

/-- An error in the phase of a thread. -/
def Errs (phase : Phase) (e : FetchError) : Prop := phase = .failed e ∨ phase = .notifying (.error e)

theorem errs_give {frames : List Frame} {result : Except FetchError Unit} {e : FetchError}
    (h : Errs (give frames result).phase e) : result = .error e := by
  cases result with
  | error e' =>
    rcases h with h | h
    · cases h
      rfl
    · cases h
  | ok =>
    cases frames with
    | nil => rcases h with h | h <;> cases h
    | cons frame below => rcases h with h | h <;> cases h

/-- It is enough to look at the thread that steps and at the requests that are over. -/
theorem Open.next (h : s.Open needs) (hstep : Stepped needs s me s')
    (hends : ∀ t, Ends s'.waitsFor t)
    (hphase : ∀ e, Errs (s'.threads me).phase e → e.isCircular = true)
    (hanswered : ∀ t request, (t,request,.ok ()) ∈ s'.returned →
      (t,request,.ok ()) ∈ s.returned ∨ ∀ l ∈ request, s.made l.item = true)
    (hrefused : ∀ t request e, (t,request,.error e) ∈ s'.returned →
      (t,request,.error e) ∈ s.returned ∨ e.isCircular = true) : s'.Open needs := by
  have hothers : ∀ t phase, t ≠ me → (s'.threads t).phase = phase → phase ≠ .running →
      (s.threads t).phase = phase := by
    intro t phase ht hnew hrunning
    rcases stepped_others hstep ht with hsame | hwoken
    · rwa [hsame] at hnew
    · rw [hwoken] at hnew
      exact awake_error hnew hrunning
  constructor
  · exact hends
  · intro t e ht
    by_cases hme : t = me
    · subst hme
      exact hphase e (.inl ht)
    · exact h.failed t e (hothers t _ hme ht nofun)
  · intro t e ht
    by_cases hme : t = me
    · subst hme
      exact hphase e (.inr ht)
    · exact h.notifying t e (hothers t _ hme ht nofun)
  · intro t request hreturned l hl
    rcases hanswered t request hreturned with hold | hmade
    · exact stepped_made hstep (h.answered t request hold l hl)
    · exact stepped_made hstep (hmade l hl)
  · intro t request e hreturned
    rcases hrefused t request e hreturned with hold | hcircular
    · exact h.refused t request e hold
    · exact hcircular

/-- A step that leaves the thread at its own work. -/
theorem Open.quiet (h : s.Open needs) (hstep : Stepped needs s me s')
    (hme : (s'.threads me).phase ≠ .asleep) (hphase : ∀ e, Errs (s'.threads me).phase e →
      e.isCircular = true) (hreturned : s'.returned = s.returned) : s'.Open needs := by
  have hends := h.ends_awake hme (fun _ => stepped_others hstep) fun _ _ => stepped_making hstep
  apply h.next hstep hends hphase
  · intro t request hmem
    exact .inl (hreturned ▸ hmem)
  · intro t request e hmem
    exact .inl (hreturned ▸ hmem)

theorem Open.leave (h : s.Open needs) {request : List Lookup} {result : Except FetchError Unit}
    (hstep : Stepped needs s me (s.leave me request result))
    (hok : result = .ok () → ∀ l ∈ request, s.made l.item = true)
    (herror : ∀ e, result = .error e → e.isCircular = true) :
    (s.leave me request result).Open needs := by
  have hidle : ((s.leave me request result).threads me) = ⟨[],.running⟩ := withThread_self _
  have hme : ((s.leave me request result).threads me).phase ≠ .asleep := by
    rw [hidle]
    exact nofun
  have hnew : ∀ {t request' result'}, (t,request',result') ∈ (s.leave me request result).returned →
      (t,request',result') ∈ s.returned ∨ request' = request ∧ result' = result := by
    intro t request' result' hmem
    rcases List.mem_append.mp hmem with hold | hlast
    · exact .inl hold
    · cases List.mem_singleton.mp hlast
      exact .inr ⟨rfl,rfl⟩
  apply h.next hstep
  · exact h.ends_awake hme (fun _ => stepped_others hstep) fun _ _ => stepped_making hstep
  · rw [hidle]
    rintro e (he | he) <;> cases he
  · intro t request' hmem
    rcases hnew hmem with hold | ⟨rfl,hresult⟩
    · exact .inl hold
    · exact .inr (hok hresult.symm)
  · intro t request' e hmem
    rcases hnew hmem with hold | ⟨-,hresult⟩
    · exact .inl hold
    · exact .inr (herror e hresult.symm)

theorem remove_phase (item : Item) (frames : List Frame) (result : Except FetchError Unit) :
    ((s.remove me item frames result).threads me).phase = .notifying result := by
  show ((s.withThread me _).threads me).phase = _
  rw [withThread_self]

/-- The thread is about to notify the others of what it came to. -/
theorem Open.removed (h : s.Open needs) (hstep : Stepped needs s me s')
    {result : Except FetchError Unit} (hphase : (s'.threads me).phase = .notifying result)
    (herror : ∀ e, result = .error e → e.isCircular = true)
    (hreturned : s'.returned = s.returned) : s'.Open needs := by
  apply h.quiet hstep _ _ hreturned
  · rw [hphase]
    exact nofun
  · rw [hphase]
    rintro e (he | he)
    · cases he
    · cases he
      exact herror e rfl

theorem Open.stepped (h : s.Open needs) (hs : s.Sound needs) (hmeets : Meets needs s me)
    (hstep : Stepped needs s me s') : s'.Open needs := by
  cases hstep with
  | found call lookup rest below hthread hmade =>
    apply h.quiet (.found call lookup rest below hthread hmade) _ _ rfl
    · rw [withThread_self]
      exact nofun
    · rw [withThread_self]
      rintro e (he | he) <;> cases he
  | circular call lookup rest below hthread hmade howner =>
    apply h.quiet (.circular call lookup rest below hthread hmade howner) _ _ rfl
    · rw [withThread_self]
      exact nofun
    · rw [withThread_self]
      rintro e (he | he)
      · cases he
        rfl
      · cases he
  | sleep call lookup rest below owner hthread hmade howner hne =>
    have hclear : ∀ x ∈ itemsOf (⟨call,lookup::rest⟩::below),
        ¬ReflTransGen (Need needs) lookup.item x := by
      have hwaits := hmeets.waits
      rw [hthread] at hwaits
      exact hwaits rfl lookup owner looks_cons hmade howner hne
    apply h.next (.sleep call lookup rest below owner hthread hmade howner hne)
    · exact h.ends_sleep hs hthread looks_cons howner hne hclear
    · rw [withThread_self]
      rintro e (he | he) <;> cases he
    · exact fun _ _ hmem => .inl hmem
    · exact fun _ _ _ hmem => .inl hmem
  | begin call lookup rest below hthread hmade howner =>
    apply h.quiet (.begin call lookup rest below hthread hmade howner) _ _ rfl
    · show ((s.withThread me _).threads me).phase ≠ _
      rw [withThread_self]
      exact nofun
    · show ∀ e, Errs ((s.withThread me _).threads me).phase e → _
      rw [withThread_self]
      rintro e (he | he) <;> cases he
  | answer request below hthread =>
    apply h.leave (.answer request below hthread)
    · intro _
      exact (hs.thread hthread).stacked.1.all
    · exact nofun
  | refuse request lookups below e hthread =>
    apply h.leave (.refuse request lookups below e hthread) nofun
    intro e' he
    cases he
    exact h.failed me e (by rw [hthread])
  | insert name below hthread =>
    apply h.quiet (.insert name below hthread) _ _ rfl
    · rw [withThread_self]
      exact nofun
    · rw [withThread_self]
      rintro e (he | he) <;> cases he
  | ran id below hthread =>
    exact h.removed (.ran id below hthread) (remove_phase _ _ _) nofun rfl
  | remove item lookups below hthread =>
    exact h.removed (.remove item lookups below hthread) (remove_phase _ _ _) nofun rfl
  | fail item lookup rest below e hthread =>
    apply h.removed (.fail item lookup rest below e hthread) (remove_phase _ _ _) _ rfl
    intro e' he
    cases he
    have hcircular := h.failed me e (by rw [hthread])
    have hload := hmeets.quotes e lookup item rest below (by rw [hthread]) hcircular (by rw [hthread])
    exact failure_isCircular.mpr ⟨hload,hcircular⟩
  | notify frames result hthread =>
    apply h.quiet (.notify frames result hthread) (notify_phase hthread me) _ rfl
    rw [notify_threads frames result hthread, if_pos rfl]
    intro e he
    have hphase : (s.threads me).phase = .notifying (.error e) := by
      rw [hthread, errs_give he]
    exact h.notifying me e hphase

theorem Open.withThread (h : s.Open needs) {frames : List Frame} :
    (s.withThread me ⟨frames,.running⟩).Open needs := by
  have hphase : ∀ t phase, ((s.withThread me ⟨frames,.running⟩).threads t).phase = phase →
      phase ≠ .running → (s.threads t).phase = phase := by
    intro t phase hnew hrunning
    by_cases ht : t = me
    · subst ht
      rw [withThread_self] at hnew
      exact absurd hnew.symm hrunning
    · rwa [withThread_of_ne ht] at hnew
  constructor
  · apply @ends_awake _ _ _ _ me h
    · rw [withThread_self]
      exact nofun
    · exact fun _ ht => .inl (withThread_of_ne ht)
    · exact fun _ _ hmaking => .inl hmaking
  · exact fun t e ht => h.failed t e (hphase t _ ht nofun)
  · exact fun t e ht => h.notifying t e (hphase t _ ht nofun)
  · exact h.answered
  · exact h.refused

theorem Open.act (h : s.Open needs) (hs : s.Sound needs) {a : Act τ} (hmeets : a.Meets needs s)
    (hstep : step needs s a = some s') : s'.Open needs := by
  cases a with
  | step t => exact h.stepped hs hmeets (stepped_of_step hstep)
  | ask t request =>
    unfold step at hstep
    dsimp only at hstep
    split at hstep
    · cases hstep
      exact h.withThread
    · cases hstep
  | wake t =>
    unfold step at hstep
    dsimp only at hstep
    split at hstep
    · next hphase =>
      cases hstep
      rw [awake, hphase]
      exact h.withThread
    · cases hstep

theorem Open.run {acts : List (Act τ)} (hrun : Machine.run (step needs) start acts = some s)
    (hguard : Machine.Guarded (step needs) (fun s a => a.Meets needs s) start acts) :
    s.Open needs := by
  have hboth : s.Sound needs ∧ s.Open needs := by
    apply Machine.guarded_invariant (step needs) (I := fun s => s.Sound needs ∧ s.Open needs) _
      ⟨sound_start,open_start⟩ hguard hrun
    rintro s a s' ⟨hs,h⟩ hmeets hstep
    exact ⟨hs.act hstep,h.act hs hmeets hstep⟩
  exact hboth.2

theorem Sound.can_step (h : s.Sound needs) (hframes : (s.threads t).frames ≠ [])
    (hphase : (s.threads t).phase ≠ .asleep) : ∃ s', step needs s (.step t) = some s' := by
  have hsound := (h.threads t).phase
  show ∃ s', stepThread needs s t = some s'
  cases hthread : s.threads t with
  | mk frames phase =>
    rw [hthread] at hframes hphase hsound
    unfold stepThread
    rw [hthread]
    cases phase with
    | asleep => exact absurd rfl hphase
    | running =>
      obtain ⟨⟨call,lookups⟩,below,rfl⟩ := List.exists_cons_of_ne_nil hframes
      cases lookups with
      | cons lookup rest =>
        cases hitem : lookup.item with
        | repo name => exact ⟨make needs s t name,by simp only [hitem]⟩
        | extension id => exact ⟨ensureRan needs s t id,by simp only [hitem]⟩
      | nil =>
        cases call with
        | request request => exact ⟨_,rfl⟩
        | make item =>
          cases item with
          | repo name => exact ⟨_,rfl⟩
          | extension id => exact ⟨_,rfl⟩
    | failed e =>
      obtain ⟨lookup,⟨call,lookups⟩,below,rest,hf,hl⟩ := hsound
      have hf : frames = ⟨call,lookups⟩::below := hf
      have hl : lookups = lookup::rest := hl
      subst hf hl
      cases call with
      | request request => exact ⟨_,rfl⟩
      | make item => exact ⟨_,rfl⟩
    | inserted =>
      obtain ⟨item,below,hf,-⟩ := hsound
      have hf : frames = ⟨.make item,[]⟩::below := hf
      subst hf
      exact ⟨_,rfl⟩
    | notifying result => exact ⟨_,rfl⟩

/-- While anything is asked for, some thread can go on. -/
theorem Sound.progress (h : s.Sound needs) (hends : Ends s.waitsFor t)
    (hframes : (s.threads t).frames ≠ []) : ∃ u s', step needs s (.step u) = some s' := by
  induction hends with
  | intro t _ ih =>
    by_cases hphase : (s.threads t).phase = .asleep
    · have hsound := (h.threads t).phase
      rw [hphase] at hsound
      obtain ⟨lookup,hlooks,-⟩ := hsound
      have hwait : s.WaitsOn t lookup.item := ⟨hphase,lookup,hlooks,rfl⟩
      rcases h.awaited t _ hwait with hmaking | ⟨u,result,hu⟩
      · obtain ⟨u,hu⟩ := Option.ne_none_iff_exists'.mp hmaking
        apply ih u (waitsFor_iff.mpr ⟨_,hwait,hu⟩)
        intro hnil
        have hmem := (h.owner _ _).mp hu
        rw [hnil] at hmem
        cases hmem
      · refine ⟨u,s.notify u result,?_⟩
        show stepThread needs s u = _
        unfold stepThread
        rw [hu]
    · exact ⟨t,h.can_step hframes hphase⟩

omit [DecidableEq τ] in
theorem Open.not_deadlocked (h : s.Open needs) (S : Set τ) : ¬s.Deadlocked S := by
  rintro ⟨⟨t,ht⟩,hall⟩
  induction h.ends t with
  | intro t _ ih =>
    obtain ⟨item,owner,hwait,howner,-,hmem⟩ := hall t ht
    exact ih owner (waitsFor_iff.mpr ⟨item,hwait,howner⟩) hmem

end Steps

end State

end BuildFiji.Making
