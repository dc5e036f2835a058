import BuildFiji.Analysis.TestAction
import BuildFiji.Cli.TestResults
import BuildFiji.Graph.LabelText
import BuildFiji.Lib.Text

/-!
# Where the tests of a build leave their logs

The tests that were asked for are added to the actions of a build when these have
been looked through for conflicts, and of the actions that make a file the last one
runs. So a test has its own log just when no other stands where it stands.
-/

set_option autoImplicit false
set_option linter.all false

namespace BuildFiji.Graph

variable {sep : Char} {a b : List Char}

theorem splitOn_injective (sep : Char) : Function.Injective (splitOn sep) := by
  intro a b h
  rw [← intercalate_splitOn sep a, h, intercalate_splitOn]

/-- The parts of a path begin with those of another where it is that one or below it. -/
theorem splitOn_prefix_iff : splitOn sep a <+: splitOn sep b ↔ a = b ∨ a ++ [sep] <+: b := by
  constructor
  · rintro ⟨rest,hrest⟩
    cases rest with
    | nil => exact .inl (splitOn_injective sep (by rw [← hrest, List.append_nil]))
    | cons part rest =>
      have hb := intercalate_splitOn sep b
      rw [← hrest, Text.intercalate_append _ (splitOn_ne_nil sep a) (by simp), intercalate_splitOn] at hb
      exact .inr ⟨_,hb⟩
  · rintro (rfl | ⟨rest,rfl⟩)
    · exact List.prefix_rfl
    · rw [List.append_assoc, List.singleton_append, splitOn_append]
      exact List.prefix_append _ _

end BuildFiji.Graph

namespace BuildFiji.Cli

open BuildFiji.Graph BuildFiji.Exec BuildFiji.RuleDeps BuildFiji.TestAction

abbrev Way := List (List Char)

def parts (path : String) : Way := splitOn '/' path.toList

theorem parts_slash (a b : String) : parts (a ++ "/" ++ b) = parts a ++ parts b := by
  rw [parts, String.toList_append, String.toList_append, List.append_assoc]
  exact splitOn_append '/' a.toList b.toList

/-- A test that was asked for, with what came of registering it. -/
structure Tested (env : Env) where
  key : ConfiguredTargetKey Configuration
  attrs : Attrs
  target : Target
  registered : TestRegistration
  ok : register env key attrs target = .ok registered

namespace Tested

variable {env : Env} (t : Tested env)

def info : TestInfo where
  label := t.key.label
  action := t.registered.action
  log := t.registered.log
  xml := t.registered.xml
  runner := (register_ok t.ok).2.2.1
  command := (register_ok t.ok).2.2.2.2
  outputs := by
    obtain ⟨hlog,hxml,-,hout,-⟩ := register_ok t.ok
    rw [hout, hlog, hxml]

/-- Where a test stands: the parts of the directory of its configuration, of its
package and of its name. -/
def way : Way :=
  parts (testlogsDir env.sha256 t.key.configuration) ++
    ((if t.key.label.package = "" then [] else parts t.key.label.package) ++ parts t.key.label.name)

theorem log_eq : t.info.log = log env t.key := (register_ok t.ok).1

theorem xml_eq : t.info.xml = xml env t.key := (register_ok t.ok).2.1

theorem parts_dir : parts (dir env t.key) = t.way := by
  rw [dir, way]
  split
  · rw [parts_slash, List.nil_append]
  · rw [parts_slash, parts_slash, List.append_assoc]

theorem parts_file {name : String} (h : '/' ∉ name.toList) :
    parts (file env t.key name).execPath = t.way ++ [name.toList] := by
  have hpath : (file env t.key name).execPath = dir env t.key ++ "/" ++ name := rfl
  rw [hpath, parts_slash, t.parts_dir]
  exact congrArg (t.way ++ ·) (splitOn_of_not_mem h)

end Tested

/-- A build with the tests that were asked for, beside the actions of the targets. -/
structure Testing (env : Env) where
  others : List Owned
  tests : List (Tested env)
  /-- The stable and the volatile status. -/
  status : Option (String × String)
  requested : List Artifact
  jobs : ℕ
  keepGoing : Bool
  rank : ℕ → ℕ

def statusFile (name : String) : Artifact := ⟨.derived "bazel-out",name,false,false⟩

def statusAction (status : String × String) : Owned where
  owner := ⟨"","",""⟩
  action := {
    mnemonic := "BazelWorkspaceStatusAction"
    kind := .workspaceStatus status.1 status.2
    inputs := []
    outputs := [statusFile "stable-status.txt",statusFile "volatile-status.txt"] }

namespace Testing

variable {env : Env} (b : Testing env)

def command : Command where
  others := b.others
  tests := b.tests.map Tested.info
  status := (b.status.map statusAction).toList
  requested := b.requested
  jobs := b.jobs
  keepGoing := b.keepGoing
  rank := b.rank

/-- At a path, or below it. -/
def AtOrIn (f o : Artifact) : Prop :=
  o.execPath = f.execPath ∨ o.execPath.toList ++ ['/'] <+: f.execPath.toList

/-- Each test that was asked for makes its own log and report, and no other action makes
one of them or a directory that one is in. -/
structure OwnLogs : Prop where
  apart : ∀ j t, b.tests[j]? = some t → ∀ f ∈ [t.info.log,t.info.xml],
    ∀ id x, b.command.actions[id]? = some x → id ≠ b.command.own j →
      ∀ o ∈ x.action.outputs, ¬AtOrIn f o
  made : ∀ j t, b.tests[j]? = some t → ∀ f ∈ [t.info.log,t.info.xml],
    b.command.build.byOutput f = some (b.command.own j)

/-- The two files of a test, from where it stands. -/
def ends : List (List Char) := ["test.log".toList,"test.xml".toList]

/-- No two tests stand in the same place, and none stands below a file of another. -/
def TestsApart : Prop := ∀ (i j : ℕ) (t u : Tested env), i ≠ j → b.tests[i]? = some t → b.tests[j]? = some u →
  t.way ≠ u.way ∧ ∀ e ∈ ends, ¬u.way ++ [e] <+: t.way

/-- What the targets and the status make is not on the way to a file of a test. -/
def OthersApart : Prop := ∀ t ∈ b.tests, ∀ e ∈ ends,
  ∀ x ∈ b.others ++ (b.status.map statusAction).toList, ∀ o ∈ x.action.outputs,
    ¬parts o.execPath <+: t.way ++ [e]

variable {b} {f o : Artifact} {j : ℕ} {t u : Tested env}

theorem atOrIn_iff : AtOrIn f o ↔ parts o.execPath <+: parts f.execPath := by
  rw [AtOrIn, parts, parts, splitOn_prefix_iff, String.toList_inj]

theorem parts_of_mem (h : f ∈ [t.info.log,t.info.xml]) : ∃ e ∈ ends, parts f.execPath = t.way ++ [e] := by
  rw [t.log_eq, t.xml_eq, List.mem_pair] at h
  rcases h with rfl | rfl
  · exact ⟨"test.log".toList,by simp [ends],t.parts_file (by decide)⟩
  · exact ⟨"test.xml".toList,by simp [ends],t.parts_file (by decide)⟩

theorem file_at {e : List Char} (h : e ∈ ends) : ∃ f ∈ [t.info.log,t.info.xml], parts f.execPath = t.way ++ [e] := by
  rw [t.log_eq, t.xml_eq]
  rcases List.mem_pair.mp h with rfl | rfl
  · exact ⟨_,List.mem_cons_self,t.parts_file (by decide)⟩
  · exact ⟨_,List.mem_cons_of_mem _ List.mem_cons_self,t.parts_file (by decide)⟩

theorem own_info (h : b.tests[j]? = some t) : b.command.tests[j]? = some t.info := by
  show (b.tests.map Tested.info)[j]? = _
  rw [List.getElem?_map, h]
  rfl

/-- An action that no test has is one of a target or the status. -/
theorem action_cases {id : ℕ} {x : Owned} (h : b.command.actions[id]? = some x) :
    x ∈ b.others ++ (b.status.map statusAction).toList ∨
      ∃ i u, b.tests[i]? = some u ∧ id = b.command.own i ∧ x = ⟨u.info.label,u.info.action⟩ := by
  have hactions : b.command.actions = b.others ++
      ((b.tests.map Tested.info).map (fun t => ⟨t.label,t.action⟩) ++ (b.status.map statusAction).toList) := rfl
  rw [hactions, List.getElem?_append] at h
  split at h
  · exact .inl (List.mem_append_left _ (List.mem_of_getElem? h))
  · next hid =>
    rw [List.getElem?_append] at h
    split at h
    · rw [List.map_map, List.getElem?_map, Option.map_eq_some_iff] at h
      obtain ⟨u,hu,rfl⟩ := h
      refine .inr ⟨_,u,hu,?_,rfl⟩
      show id = b.others.length+(id-b.others.length)
      omega
    · exact .inl (List.mem_append_right _ (List.mem_of_getElem? h))

/-- What a target or the status has is the action of no test. -/
theorem other_action {x : Owned} (h : x ∈ b.others ++ (b.status.map statusAction).toList)
    (hj : b.tests[j]? = some t) : ∃ id, b.command.actions[id]? = some x ∧ id ≠ b.command.own j := by
  have hlt : j < b.tests.length := (List.getElem?_eq_some_iff.mp hj).1
  have hown : b.command.own j = b.others.length+j := rfl
  have hactions : b.command.actions = b.others ++
      ((b.tests.map Tested.info).map (fun t => ⟨t.label,t.action⟩) ++ (b.status.map statusAction).toList) := rfl
  rcases List.mem_append.mp h with h | h
  · obtain ⟨id,hid,rfl⟩ := List.mem_iff_getElem.mp h
    refine ⟨id,?_,by omega⟩
    rw [hactions, List.getElem?_append_left hid, List.getElem?_eq_getElem hid]
  · obtain ⟨id,hid⟩ := List.mem_iff_getElem?.mp h
    refine ⟨b.others.length+(b.tests.length+id),?_,by omega⟩
    rw [hactions, List.getElem?_append_right (by omega), Nat.add_sub_cancel_left,
      List.getElem?_append_right (by simp), List.length_map, List.length_map, Nat.add_sub_cancel_left, hid]

theorem tests_apart (h : b.OwnLogs) : b.TestsApart := by
  intro i j t u hij hi hj
  have hne : b.command.own j ≠ b.command.own i := fun h => hij (Nat.add_left_cancel h).symm
  have hclear : ∀ e ∈ ends, ∀ e' ∈ ends, ¬u.way ++ [e] <+: t.way ++ [e'] := by
    intro e he e' he' hin
    obtain ⟨f,hf,hparts⟩ := file_at (t := t) he'
    obtain ⟨o,ho,hparts'⟩ := file_at (t := u) he
    refine h.apart i t hi f hf _ _ (own_action (own_info hj)) hne o ?_ (atOrIn_iff.mpr ?_)
    · rw [u.info.outputs]
      exact ho
    · rwa [hparts, hparts']
  refine ⟨fun heq => ?_,fun e he hin => hclear e he e he (hin.trans (List.prefix_append _ _))⟩
  exact hclear "test.log".toList (by simp [ends]) "test.log".toList (by simp [ends]) (heq ▸ List.prefix_rfl)

theorem others_apart (h : b.OwnLogs) : b.OthersApart := by
  intro t ht e he x hx o ho hin
  obtain ⟨j,hj⟩ := List.mem_iff_getElem?.mp ht
  obtain ⟨f,hf,hparts⟩ := file_at (t := t) he
  obtain ⟨id,hid,hne⟩ := other_action hx hj
  exact h.apart j t hj f hf id x hid hne o ho (atOrIn_iff.mpr (hparts ▸ hin))

theorem apart_of (htests : b.TestsApart) (hothers : b.OthersApart) (hj : b.tests[j]? = some t)
    (hf : f ∈ [t.info.log,t.info.xml]) {id : ℕ} {x : Owned} (hx : b.command.actions[id]? = some x)
    (hne : id ≠ b.command.own j) (ho : o ∈ x.action.outputs) : ¬AtOrIn f o := by
  rw [atOrIn_iff]
  obtain ⟨e,he,hparts⟩ := parts_of_mem hf
  rw [hparts]
  rcases action_cases hx with hother | ⟨i,u,hi,rfl,rfl⟩
  · exact hothers t (List.mem_of_getElem? hj) e he x hother o ho
  · obtain ⟨hways,hbelow⟩ := htests j i t u (fun h => hne (congrArg _ h.symm)) hj hi
    obtain ⟨e',he',hparts'⟩ := parts_of_mem (u.info.outputs ▸ ho)
    rw [hparts', List.prefix_concat_iff]
    rintro (heq | hin)
    · exact hways (List.append_inj_left' heq rfl).symm
    · exact hbelow e' he' hin

/-- Of the actions handed on, the one that makes a file of a test is found by it. -/
theorem byOutput_own (htests : b.TestsApart) (hothers : b.OthersApart) (hj : b.tests[j]? = some t)
    (hf : f ∈ [t.info.log,t.info.xml]) : b.command.build.byOutput f = some (b.command.own j) := by
  have hown := own_action (own_info hj)
  have hactions : b.command.build.actions = b.command.actions.map (·.action) := rfl
  have hplaced : (t.info.action,b.command.own j) ∈ b.command.build.actions.zipIdx.reverse := by
    rw [List.mem_reverse, List.mem_zipIdx_iff_getElem?, hactions, List.getElem?_map, hown]
    rfl
  rw [Build.byOutput, Execution.find?_only hplaced (decide_eq_true (t.info.outputs ▸ hf))]
  · rfl
  · rintro ⟨a,id⟩ hmem hmakes
    rw [List.mem_reverse, List.mem_zipIdx_iff_getElem?, hactions, List.getElem?_map,
      Option.map_eq_some_iff] at hmem
    obtain ⟨x,hx,rfl⟩ := hmem
    by_cases hid : id = b.command.own j
    · subst hid
      rw [hown, Option.some.injEq] at hx
      rw [← hx]
    · exact absurd (.inl rfl) (apart_of htests hothers hj hf hx hid (of_decide_eq_true hmakes))

end Testing

/-- The tests that were asked for have their logs to themselves just when no two of them
stand in the same place or one below a file of another, and no other action writes on
the way to one. -/
theorem own_logs_iff {env : Env} (b : Testing env) : b.OwnLogs ↔ b.TestsApart ∧ b.OthersApart := by
  constructor
  · exact fun h => ⟨Testing.tests_apart h,Testing.others_apart h⟩
  · rintro ⟨htests,hothers⟩
    exact ⟨fun j t hj f hf id x hx hne o ho => Testing.apart_of htests hothers hj hf hx hne ho,
      fun j t hj f hf => Testing.byOutput_own htests hothers hj hf⟩

section Shared

def sharedEnv : Env := ⟨fun _ => Vector.replicate 32 0,fun _ => .ok [Artifact.ofPath "test-setup.sh"],"_main"⟩

def plainTest (label : Label) : Tested sharedEnv where
  key := ⟨label,.default ⟨"linux","x86_64"⟩⟩
  attrs := []
  target := ⟨some (Artifact.ofPath "t"),none,[]⟩
  registered := _
  ok := rfl

/-- Tests of one package and name, in two repositories. -/
def twoRepositories : Testing sharedEnv :=
  ⟨[],[plainTest ⟨"","p","t"⟩,plainTest ⟨"r","p","t"⟩],none,[],1,false,id⟩

theorem repositories_share_log : (twoRepositories.tests.map (·.key.label)).Nodup ∧ ¬twoRepositories.OwnLogs := by
  refine ⟨by decide,fun h => ?_⟩
  exact h.apart 0 _ rfl _ List.mem_cons_self 1 _ rfl (by decide) _ List.mem_cons_self (.inl rfl)

end Shared

end BuildFiji.Cli
