import BuildFiji.Cli.Closure
import BuildFiji.Exec.SchedulerReports
import Mathlib

/-!
# Results of tests

What became of a test is worked out when the build is over: from the failures that
are filed under its label, and else from whether its log is on disk. A test that was
not started leaves the log of an earlier build where it is.
-/

set_option autoImplicit false
set_option linter.all false

namespace BuildFiji.Cli

open BuildFiji.Graph BuildFiji.Exec

/-- How a test is run: one command that writes a log and a report. -/
structure TestInfo where
  label : Label
  action : Action
  log : Artifact
  xml : Artifact
  runner : action.mnemonic = "TestRunner"
  command : ∃ argv env requirements lazy, action.kind = .spawn argv env requirements lazy
  outputs : action.outputs = [log,xml]

inductive TestStatus where
  | passed
  | failed (code : ℤ)
  | timeout
  | noStatus
  deriving DecidableEq

/-- A build that runs tests: the actions of targets, the tests, and the workspace status. -/
structure Command where
  others : List Owned
  tests : List TestInfo
  status : List Owned
  requested : List Artifact
  jobs : ℕ
  keepGoing : Bool
  rank : ℕ → ℕ

namespace Command

def actions (c : Command) : List Owned :=
  c.others ++ (c.tests.map (fun t => ⟨t.label,t.action⟩) ++ c.status)

def build (c : Command) : Build where
  actions := c.actions.map (·.action)
  requested := c.requested ++ c.tests.flatMap (·.action.outputs)
  jobs := c.jobs
  keepGoing := c.keepGoing
  rank := c.rank

/-- The action of the test with the number. -/
def own (c : Command) (j : ℕ) : ℕ := c.others.length+j

/-- What stands at these is removed before the action runs. -/
def paths (c : Command) (id : ℕ) : List String :=
  match c.actions[id]? with
  | none => []
  | some x =>
    match x.action.kind with
    | .runfilesTree => []
    | _ => x.action.outputs.map (·.execPath)

def ownerText (c : Command) (id : ℕ) : String :=
  ((c.actions[id]?).map fun x => labelText x.owner).getD ""

end Command

/-- What is kept of a command that failed. -/
structure Failing where
  exitCode : Option ℤ
  timedOut : Bool

/-- Which files are there. -/
abbrev Disk := String → Bool

/-- One build from its start to its end, with how each action failed that did and what
each one that was started left at its outputs. -/
structure Execution where
  command : Command
  events : List Event
  state : State
  reached : Machine.run (step command.build) command.build.initial events = some state
  finished : Finished command.build state
  failing : ℕ → Failing
  left : ℕ → String → Bool

namespace Execution

variable (x : Execution)

def after (before : Disk) : Disk := fun p =>
  match x.state.executed.reverse.find? fun id => decide (p ∈ x.command.paths id) with
  | some id => x.left id p
  | none => before p

/-- A test that fails is a result; everything else that failed is an error. -/
def testFailures : List ℕ := x.state.failures.filter x.command.build.isTest

def status (disk : Disk) (t : TestInfo) : TestStatus :=
  match x.testFailures.find? fun id => x.command.ownerText id == labelText t.label with
  | some id =>
    if (x.failing id).timedOut then .timeout
    else
      match (x.failing id).exitCode with
      | some code => .failed code
      | none => .noStatus
  | none => if disk t.log.execPath then .passed else .noStatus

def Started (id : ℕ) : Prop := id ∈ x.state.executed ∨ x.state.phase id = .done .cached

/-- An action that ran has made its outputs, and one that was current has them, unless
another action of the build took them away. -/
structure Possible (before : Disk) : Prop where
  made : ∀ id, x.state.phase id = .done .ran → ∀ p ∈ x.command.paths id, x.left id p = true
  current : ∀ id, x.state.phase id = .done .cached → ∀ p ∈ x.command.paths id,
    (∀ other ∈ x.state.executed, p ∉ x.command.paths other) → before p = true

/-- The status says how the test's own action ended. -/
structure TestRight (id : ℕ) (status : TestStatus) : Prop where
  passed : status = .passed ↔ ∃ e, x.state.phase id = .done e ∧ e.ok = true
  failed : ∀ code, status = .failed code ↔ x.state.phase id = .done .failed ∧
    (x.failing id).timedOut = false ∧ (x.failing id).exitCode = some code
  timeout : status = .timeout ↔ x.state.phase id = .done .failed ∧ (x.failing id).timedOut = true
  notStarted : ¬x.Started id → status = .noStatus

def Right (before : Disk) : Prop := ∀ j t, x.command.tests[j]? = some t →
  x.TestRight (x.command.own j) (x.status (x.after before) t)

/-- Nothing else stands for a test: no other test that failed is filed under its label,
and no other action that was started makes a file where its log is. -/
structure Filed : Prop where
  failures : ∀ j t, x.command.tests[j]? = some t → ∀ id ∈ x.testFailures,
    x.command.ownerText id = labelText t.label → id = x.command.own j
  alone : ∀ j t, x.command.tests[j]? = some t → ∀ id ∈ x.state.executed,
    id ≠ x.command.own j → t.log.execPath ∉ x.command.paths id

/-- A test that is not started has no log on disk from an earlier build. -/
def Fresh (before : Disk) : Prop := ∀ j t, x.command.tests[j]? = some t →
  ¬x.Started (x.command.own j) → before t.log.execPath = false

end Execution

/-- The next build finds what this one left. -/
def next (disk : Disk) (x : Execution) : Option Disk := some (x.after disk)

section Own

variable {c : Command} {j : ℕ} {t : TestInfo}

theorem own_action (h : c.tests[j]? = some t) : c.actions[c.own j]? = some ⟨t.label,t.action⟩ := by
  have hj : j < c.tests.length := (List.getElem?_eq_some_iff.mp h).1
  rw [Command.actions, Command.own, List.getElem?_append_right (Nat.le_add_right _ _),
    Nat.add_sub_cancel_left, List.getElem?_append_left (by rw [List.length_map]; exact hj),
    List.getElem?_map, h]
  rfl

theorem own_isTest (h : c.tests[j]? = some t) : c.build.isTest (c.own j) = true := by
  have ha : c.build.actions[c.own j]? = some t.action := by
    show (c.actions.map (·.action))[c.own j]? = _
    rw [List.getElem?_map, own_action h]
    rfl
  rw [Build.isTest, Build.mnemonic, ha]
  exact decide_eq_true t.runner

theorem own_owner (h : c.tests[j]? = some t) : c.ownerText (c.own j) = labelText t.label := by
  rw [Command.ownerText, own_action h]
  rfl

theorem own_log (h : c.tests[j]? = some t) : t.log.execPath ∈ c.paths (c.own j) := by
  obtain ⟨argv,env,requirements,lazy,hk⟩ := t.command
  rw [Command.paths, own_action h]
  simp only [hk, t.outputs]
  exact List.mem_cons_self

end Own

namespace Execution

variable {x : Execution} {before : Disk} {j : ℕ} {t : TestInfo}

theorem find?_only {α : Type} {p : α → Bool} {l : List α} {a : α} (ha : a ∈ l) (hp : p a = true)
    (hall : ∀ b ∈ l, p b = true → b = a) : l.find? p = some a := by
  obtain ⟨b,hb⟩ := Option.isSome_iff_exists.mp (List.find?_isSome.mpr ⟨a,ha,hp⟩)
  rw [hb, hall b (List.mem_of_find?_eq_some hb) (List.find?_some hb)]

theorem inv (x : Execution) : Inv x.command.build x.state := inv_reached ⟨x.events,x.reached⟩

/-- A test that failed, whatever became of the rest of the build, is among the failures. -/
theorem mem_testFailures (h : x.command.tests[j]? = some t) :
    x.command.own j ∈ x.testFailures ↔ x.state.phase (x.command.own j) = .done .failed := by
  have hsafe := scheduler_safe x.command.build x.events x.state x.reached
  rw [testFailures, List.mem_filter, hsafe.reported x.finished]
  exact ⟨fun h => h.1.1,fun hp => ⟨⟨hp,Or.inr (Or.inl (own_isTest h))⟩,own_isTest h⟩⟩

theorem executed_iff {id : ℕ} : id ∈ x.state.executed ↔
    x.state.phase id = .done .ran ∨ x.state.phase id = .done .failed := by
  rw [x.inv.executed.2 id]
  constructor
  · intro h
    have h : (x.state.phase id).executed = true := h
    obtain ⟨e,he⟩ := finished_done x.inv x.finished (executed_not_idle h)
    rw [he] at h ⊢
    cases e with
    | ran => exact Or.inl rfl
    | failed => exact Or.inr rfl
    | _ => cases h
  · rintro (h | h) <;> rw [h] <;> rfl

theorem status_failed (hfiled : x.Filed) (h : x.command.tests[j]? = some t) (disk : Disk)
    (hp : x.state.phase (x.command.own j) = .done .failed) :
    x.status disk t =
      if (x.failing (x.command.own j)).timedOut then .timeout
      else
        match (x.failing (x.command.own j)).exitCode with
        | some code => .failed code
        | none => .noStatus := by
  have hfind := find?_only (p := fun id => x.command.ownerText id == labelText t.label)
    ((mem_testFailures h).mpr hp) (beq_iff_eq.mpr (own_owner h)) fun id hid he =>
      hfiled.failures j t h id hid (beq_iff_eq.mp he)
  rw [status, hfind]

theorem status_logged (hfiled : x.Filed) (h : x.command.tests[j]? = some t) (disk : Disk)
    (hp : x.state.phase (x.command.own j) ≠ .done .failed) :
    x.status disk t = if disk t.log.execPath then .passed else .noStatus := by
  have hfind : (x.testFailures.find? fun id => x.command.ownerText id == labelText t.label) = none := by
    apply List.find?_eq_none.mpr
    intro id hid he
    have hown := hfiled.failures j t h id hid (beq_iff_eq.mp he)
    rw [hown] at hid
    exact hp ((mem_testFailures h).mp hid)
  rw [status, hfind]

/-- Where its own action did not touch it, the log is as it was before. -/
theorem after_untouched (hfiled : x.Filed) (h : x.command.tests[j]? = some t)
    (hexec : x.command.own j ∉ x.state.executed) :
    x.after before t.log.execPath = before t.log.execPath := by
  have hfind : (x.state.executed.reverse.find? fun id =>
      decide (t.log.execPath ∈ x.command.paths id)) = none := by
    apply List.find?_eq_none.mpr
    intro id hid hp
    have hid := List.mem_reverse.mp hid
    exact hfiled.alone j t h id hid (fun he => hexec (he ▸ hid)) (of_decide_eq_true hp)
  rw [after, hfind]

theorem after_ran (hpossible : x.Possible before) (hfiled : x.Filed) (h : x.command.tests[j]? = some t)
    (hp : x.state.phase (x.command.own j) = .done .ran) : x.after before t.log.execPath = true := by
  have hfind : (x.state.executed.reverse.find? fun id =>
      decide (t.log.execPath ∈ x.command.paths id)) = some (x.command.own j) := by
    apply find?_only (List.mem_reverse.mpr (executed_iff.mpr (Or.inl hp))) (decide_eq_true (own_log h))
    intro id hid hlog
    by_contra hne
    exact hfiled.alone j t h id (List.mem_reverse.mp hid) hne (of_decide_eq_true hlog)
  rw [after, hfind]
  exact hpossible.made _ hp _ (own_log h)

theorem not_executed {id : ℕ} (hran : x.state.phase id ≠ .done .ran)
    (hfailed : x.state.phase id ≠ .done .failed) : id ∉ x.state.executed := by
  intro h
  exact (executed_iff.mp h).elim hran hfailed

theorem after_current (hpossible : x.Possible before) (hfiled : x.Filed)
    (h : x.command.tests[j]? = some t) (hp : x.state.phase (x.command.own j) = .done .cached) :
    x.after before t.log.execPath = true := by
  have hexec : x.command.own j ∉ x.state.executed :=
    not_executed (by rw [hp]; nofun) (by rw [hp]; nofun)
  rw [after_untouched hfiled h hexec]
  apply hpossible.current _ hp _ (own_log h)
  intro other hother
  exact hfiled.alone j t h other hother fun he => hexec (he ▸ hother)

theorem right_failed (id : ℕ) (hp : x.state.phase id = .done .failed) :
    x.TestRight id (if (x.failing id).timedOut then .timeout
      else
        match (x.failing id).exitCode with
        | some code => .failed code
        | none => .noStatus) := by
  have hexec : id ∈ x.state.executed := executed_iff.mpr (Or.inr hp)
  have hno : ¬∃ e, x.state.phase id = .done e ∧ e.ok = true := by
    rintro ⟨e,he,hok⟩
    rw [hp] at he
    cases he
    cases hok
  cases ht : (x.failing id).timedOut with
  | true =>
    refine ⟨⟨fun h => ?_,fun h => absurd h hno⟩,fun code => ⟨fun h => ?_,fun h => ?_⟩,
      ⟨fun _ => ⟨hp,ht⟩,fun _ => rfl⟩,fun h => absurd (Or.inl hexec) h⟩
    · cases h
    · cases h
    · rw [ht] at h
      cases h.2.1
  | false =>
    refine ⟨⟨fun h => ?_,fun h => absurd h hno⟩,fun code => ?_,⟨fun h => ?_,fun h => ?_⟩,
      fun h => absurd (Or.inl hexec) h⟩
    · cases hc : (x.failing id).exitCode <;> rw [hc] at h <;> cases h
    · cases hc : (x.failing id).exitCode with
      | none => simp
      | some c => simp [hp, ht]
    · cases hc : (x.failing id).exitCode <;> rw [hc] at h <;> cases h
    · rw [ht] at h
      cases h.2

theorem right_ok {id : ℕ} {e : Ending} (hp : x.state.phase id = .done e) (hok : e.ok = true) :
    x.TestRight id .passed := by
  have hne : e ≠ .failed := by
    rintro rfl
    cases hok
  have hno : ¬x.state.phase id = .done .failed := by
    rw [hp]
    exact fun h => hne (Phase.done.inj h)
  refine ⟨⟨fun _ => ⟨e,hp,hok⟩,fun _ => rfl⟩,fun code => ⟨nofun,fun h => absurd h.1 hno⟩,
    ⟨nofun,fun h => absurd h.1 hno⟩,?_⟩
  intro hstart
  cases e with
  | ran => exact absurd (Or.inl (executed_iff.mpr (Or.inl hp))) hstart
  | cached => exact absurd (Or.inr hp) hstart
  | _ => cases hok

theorem right_notStarted {id : ℕ} (h : ¬x.Started id) : x.TestRight id .noStatus := by
  have hno : ¬x.state.phase id = .done .failed :=
    fun hp => h (Or.inl (executed_iff.mpr (Or.inr hp)))
  have hok : ¬∃ e, x.state.phase id = .done e ∧ e.ok = true := by
    rintro ⟨e,he,hok⟩
    cases e with
    | ran => exact h (Or.inl (executed_iff.mpr (Or.inl he)))
    | cached => exact h (Or.inr he)
    | _ => cases hok
  exact ⟨⟨nofun,fun h => absurd h hok⟩,fun code => ⟨nofun,fun h => absurd h.1 hno⟩,
    ⟨nofun,fun h => absurd h.1 hno⟩,fun _ => rfl⟩

theorem right_iff_fresh (hpossible : x.Possible before) (hfiled : x.Filed) :
    x.Right before ↔ x.Fresh before := by
  constructor
  · intro hright j t ht hstart
    have hno : x.state.phase (x.command.own j) ≠ .done .failed :=
      fun hp => hstart (Or.inl (executed_iff.mpr (Or.inr hp)))
    have hs := (hright j t ht).notStarted hstart
    rw [status_logged hfiled ht _ hno,
      after_untouched hfiled ht fun h => hstart (Or.inl h)] at hs
    cases hlog : before t.log.execPath with
    | false => rfl
    | true =>
      rw [hlog] at hs
      cases hs
  · intro hfresh j t ht
    by_cases hfailed : x.state.phase (x.command.own j) = .done .failed
    · rw [status_failed hfiled ht _ hfailed]
      exact right_failed _ hfailed
    · rw [status_logged hfiled ht _ hfailed]
      by_cases hran : x.state.phase (x.command.own j) = .done .ran
      · rw [after_ran hpossible hfiled ht hran]
        exact right_ok hran rfl
      · by_cases hcached : x.state.phase (x.command.own j) = .done .cached
        · rw [after_current hpossible hfiled ht hcached]
          exact right_ok hcached rfl
        · have hexec := not_executed hran hfailed
          have hstart : ¬x.Started (x.command.own j) := fun h => h.elim hexec hcached
          rw [after_untouched hfiled ht hexec, hfresh j t ht hstart]
          exact right_notStarted hstart

end Execution

section History

def hasEnded (c : Command) (s : State) : Bool :=
  s.roots.isEmpty && c.build.wanted.all fun id => (State.endingOf (s.phase id)).isSome

/-- A build that goes through the events. -/
def executionOf (c : Command) (events : List Event) (failing : ℕ → Failing) (left : ℕ → String → Bool)
    (h : (Machine.run (step c.build) c.build.initial events).any (hasEnded c) = true) : Execution where
  command := c
  events := events
  state := (Machine.run (step c.build) c.build.initial events).get (Option.isSome_of_any h)
  reached := (Option.some_get _).symm
  finished := by
    have hended := (Option.any_eq_true_iff_get _ _).mp h |>.2
    rw [hasEnded, Bool.and_eq_true, List.all_eq_true, List.isEmpty_iff] at hended
    exact ⟨hended.1,fun id hid => endingOf_some (hended.2 id hid)⟩
  failing := failing
  left := left

def madeFile (path : String) : Artifact := ⟨⟨"",false⟩,path,false,false⟩

def aTest : TestInfo where
  label := ⟨"","pkg","t"⟩
  action := ⟨"TestRunner",.spawn ["test-setup.sh"] .empty .empty [],[madeFile "pkg/lib"],
    [madeFile "testlogs/pkg/t/test.log",madeFile "testlogs/pkg/t/test.xml"]⟩
  log := madeFile "testlogs/pkg/t/test.log"
  xml := madeFile "testlogs/pkg/t/test.xml"
  runner := rfl
  command := ⟨_,_,_,_,rfl⟩
  outputs := rfl

/-- A test that reads what a library makes. -/
def testing : Command where
  others := [⟨⟨"","pkg","lib"⟩,⟨"FileWrite",.writeFile [] false,[],[madeFile "pkg/lib"]⟩⟩]
  tests := [aTest]
  status := []
  requested := []
  jobs := 1
  keepGoing := true
  rank := fun _ => 0

def passing : Execution :=
  executionOf testing ([Event.root,.task 1 true,.task 1 true] ++ List.replicate 3 (Event.task 0 true) ++
    [Event.task 0 false] ++ List.replicate 5 (Event.task 0 true) ++ [Event.task 1 true,.task 1 true,.task 1 false] ++
    List.replicate 10 (Event.task 1 true)) (fun _ => ⟨none,false⟩) (fun _ _ => true) (by decide)

/-- The library is not made, and the test not started. -/
def broken : Execution :=
  executionOf testing ([Event.root,.task 1 true,.task 1 true] ++ List.replicate 3 (Event.task 0 true) ++
    [Event.task 0 false,.task 0 true,.task 0 false] ++ List.replicate 3 (Event.task 0 true) ++
    [Event.task 1 true,.task 1 true]) (fun _ => ⟨none,false⟩) (fun _ _ => false) (by decide)

def nothing : Disk := fun _ => false

theorem testing_tests {j : ℕ} {t : TestInfo} (h : testing.tests[j]? = some t) : j = 0 ∧ t = aTest := by
  match j, h with
  | 0, h => exact ⟨rfl,(Option.some.inj h).symm⟩

theorem passing_meets : passing.Possible nothing ∧ passing.Filed := by
  have hexec : passing.state.executed = [0,1] := by decide
  have hfailed : passing.testFailures = [] := by decide
  refine ⟨⟨fun id _ p _ => rfl,fun id hp p hpath _ => ?_⟩,⟨fun j t _ id hid => ?_,fun j t ht id hid hne => ?_⟩⟩
  · match id, hp, hpath with
    | 0, hp, _ => exact absurd hp (by decide)
    | 1, hp, _ => exact absurd hp (by decide)
    | id+2, _, hpath => exact absurd hpath List.not_mem_nil
  · rw [hfailed] at hid
    cases hid
  · obtain ⟨rfl,rfl⟩ := testing_tests ht
    rw [hexec] at hid
    rcases List.mem_pair.mp hid with rfl | rfl
    · decide
    · exact absurd rfl hne

theorem broken_meets (before : Disk) : broken.Possible before ∧ broken.Filed := by
  have hexec : broken.state.executed = [0] := by decide
  have hfailed : broken.testFailures = [] := by decide
  refine ⟨⟨fun id hp p hpath => ?_,fun id hp p hpath _ => ?_⟩,
    ⟨fun j t _ id hid => ?_,fun j t ht id hid _ => ?_⟩⟩
  · match id, hp, hpath with
    | 0, hp, _ => exact absurd hp (by decide)
    | 1, hp, _ => exact absurd hp (by decide)
    | id+2, _, hpath => exact absurd hpath List.not_mem_nil
  · match id, hp, hpath with
    | 0, hp, _ => exact absurd hp (by decide)
    | 1, hp, _ => exact absurd hp (by decide)
    | id+2, _, hpath => exact absurd hpath List.not_mem_nil
  · rw [hfailed] at hid
    cases hid
  · obtain ⟨rfl,rfl⟩ := testing_tests ht
    rw [hexec, List.mem_singleton] at hid
    subst hid
    decide

end History

end BuildFiji.Cli
