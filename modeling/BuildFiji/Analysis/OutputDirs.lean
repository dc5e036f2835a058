import BuildFiji.Analysis.Transition
import BuildFiji.Lib.Machine

/-!
# What output directories tell apart

The configurations of one build come from the one of the command line by the
writes of transitions and by exec transitions. The fields that no transition
writes are the same in all that build tools, and in all that do not, so the
name of the directory leaves open what it does not spell out: the cpu under the
name of a platform, and the settings, of which it says how those that were
changed are printed.
-/

set_option autoImplicit false
set_option linter.all false

namespace BuildFiji.Analysis

open BuildFiji.Graph

inductive Change where
  | write (name : String) (value : SettingValue) (repo : String)
  | toExec
  | toExecOn (platform : Label) (constraints : Labels)

def Change.step (host : Host) (ctx : Ctx) (c : Configuration) : Change → Option Configuration
  | .write name value repo => (Analysis.write ctx c name value repo).toOption
  | .toExec => some (c.toExec host)
  | .toExecOn platform constraints => some (c.toExecOn host platform constraints)

/-- The fields that no write changes. -/
def fixed (c : Configuration) : Configuration :=
  { c with
    cpu := ""
    compilationMode := .fastbuild
    constraints := ∅
    platform := none
    settings := ∅
    affected := ∅ }

section Write
variable {ctx : Ctx} {c c' : Configuration} {name : String} {value original : SettingValue}

theorem writePlatforms_fixed (h : writePlatforms ctx c name value original = .ok c') :
    fixed c' = fixed c := by
  unfold writePlatforms at h
  split at h
  · simp only [Fallible.bind_ok, Fallible.pure_ok] at h
    obtain ⟨label,-,constraints,-,rfl⟩ := h
    rfl
  · cases h
  · cases h

theorem writeListed_fixed {option : String}
    (h : writeListed ctx c name option value original = .ok c') : fixed c' = fixed c := by
  unfold writeListed at h
  split at h
  · exact writePlatforms_fixed h
  · split at h
    · cases h
    · cases h
      rfl

theorem writeOption_fixed {option : String}
    (h : writeOption ctx c name option value original = .ok c') : fixed c' = fixed c := by
  unfold writeOption at h
  split at h
  · split at h
    · split at h
      · cases h
        rfl
      · cases h
    · split at h
      · cases h
        rfl
      · exact writeListed_fixed h
  · exact writeListed_fixed h

theorem write_fixed {repo : String} (h : write ctx c name value repo = .ok c') :
    fixed c' = fixed c := by
  rw [write, Fallible.bind_ok] at h
  obtain ⟨before,-,h⟩ := h
  split at h
  · cases h
    rfl
  · split at h
    · exact writeOption_fixed h
    · simp only [Fallible.bind_ok, Fallible.pure_ok] at h
      obtain ⟨label,-,default,-,rfl⟩ := h
      rfl

end Write

section Runs
variable {host : Host} {ctx : Ctx} {base c c' : Configuration}

/-- What transitions make of the configuration of the command line. -/
structure Reached (host : Host) (base c : Configuration) : Prop where
  target : c.exec = false → fixed c = fixed base
  tool : c.exec = true → fixed c = fixed (base.toExec host)

theorem fixed_exec (h : fixed c = fixed c') : c.exec = c'.exec := by
  have := congrArg Configuration.exec h
  exact this

theorem fixed_actionEnv (h : fixed c = fixed c') : c.actionEnv = c'.actionEnv := by
  have := congrArg Configuration.actionEnv h
  exact this

theorem Reached.actionEnv (h : Reached host base c) : c.actionEnv = base.actionEnv := by
  cases he : c.exec with
  | false => exact fixed_actionEnv (h.target he)
  | true =>
    have := fixed_actionEnv (h.tool he)
    exact this

theorem Reached.toExec (h : Reached host base c) : fixed (c.toExec host) = fixed (base.toExec host) := by
  simp only [fixed, Configuration.toExec, h.actionEnv]

theorem Reached.step (h : Reached host base c) {a : Change}
    (ha : Change.step host ctx c a = some c') : Reached host base c' := by
  cases a with
  | write name value repo =>
    cases hw : write ctx c name value repo with
    | error e =>
      simp only [Change.step, hw] at ha
      cases ha
    | ok d =>
      simp only [Change.step, hw] at ha
      cases ha
      have hfix := write_fixed hw
      have hexec := fixed_exec hfix
      exact ⟨fun he => hfix.trans (h.target (hexec ▸ he)),fun he => hfix.trans (h.tool (hexec ▸ he))⟩
  | toExec =>
    cases ha
    exact ⟨fun he => absurd he (by simp [Configuration.toExec]),fun _ => h.toExec⟩
  | toExecOn platform constraints =>
    cases ha
    exact ⟨fun he => absurd he (by simp [Configuration.toExecOn, Configuration.toExec]),
      fun _ => h.toExec⟩

theorem run_reached (hbase : base.exec = false) {changes : List Change}
    (h : Machine.run (Change.step host ctx) base changes = some c) : Reached host base c := by
  have hstart : Reached host base base :=
    ⟨fun _ => rfl,fun he => absurd (hbase.symm.trans he) (by simp)⟩
  exact Machine.run_invariant _ (fun _ _ _ hr ha => Reached.step hr ha) hstart h

/-- Two configurations of one build that are in one directory. -/
theorem Reached.same (h : Reached host base c) (h' : Reached host base c')
    (he : c.exec = c'.exec) : fixed c = fixed c' := by
  cases hx : c.exec with
  | false => exact (h.target hx).trans (h'.target (he ▸ hx)).symm
  | true => exact (h.tool hx).trans (h'.tool (he ▸ hx)).symm

theorem eq_of_fixed (h : fixed c = fixed c') (hm : c.compilationMode = c'.compilationMode) :
    c = { c' with
      cpu := c.cpu
      platform := c.platform
      constraints := c.constraints
      settings := c.settings
      affected := c.affected } := by
  cases c
  cases c'
  simp only [fixed, Configuration.mk.injEq] at h hm ⊢
  simp_all

end Runs

/-- A workspace with one text setting, `//:flag`. -/
def flagCtx : Ctx where
  target label := .ok (if label = ⟨"","","flag"⟩ then
    some (.rule "string_flag" none [("build_setting_default",.string "off")]) else none)
  buildSetting _ _ := .ok none
  platformConstraints _ := .ok ∅

def flagHost : Host := ⟨"linux","x86_64"⟩

/-- The default configuration with the flag set by a transition. -/
def flagOn : Configuration :=
  note (setSetting (.default flagHost) "//:flag" (.str "off") (.str "on")) "//:flag" (.str "off")
    (.str "on")

end BuildFiji.Analysis
