import BuildFiji.Exec.SchedulerReports
import BuildFiji.Lib.LongestChains
import Mathlib

/-!
# The ranks of actions and the critical path

Before a build each action gets the time that the longest chain of actions that starts at it is
expected to take, and after it the longest chain of what ran up to the requested outputs is
looked for.
-/

set_option autoImplicit false
set_option linter.all false

namespace BuildFiji.Exec
open Graph Relation Digraph LongestChains

section Expected

/-- What earlier builds have left about actions, by the path of the first output, and about
mnemonics. Times are in milliseconds. -/
structure ActionCache where
  actions : String → Option ℕ
  mnemonics : String → Option (ℕ × ℕ)

def ActionCache.duration (cache : ActionCache) (action : Action) : Option ℕ :=
  action.outputs.head?.bind fun first => cache.actions first.execPath

/-- The mean of those that ran at all. -/
def ActionCache.mnemonicMean (cache : ActionCache) (mnemonic : String) : Option ℕ :=
  ((cache.mnemonics mnemonic).filter fun m => 0 < m.1).map Prod.snd

def oneGuessUs : ℕ := 1000000

def guessUs (action : Action) : ℕ :=
  match action.kind with
  | .spawn .. =>
    if action.mnemonic = "Rustc" then 4 * oneGuessUs
    else if action.mnemonic ∈ ["CppCompile","CargoBuildScriptRun","CppLink"] then 3 * oneGuessUs
    else if action.mnemonic ∈ ["Clippy","Rustfmt"] then 2 * oneGuessUs
    else oneGuessUs
  | _ => 10000

/-- `d.as_micros().max(1) as u64` -/
def micros (millis : ℕ) : ℕ := max (millis * 1000) 1 % 2^64

def ActionCache.expected (cache : ActionCache) (action : Action) : ℕ :=
  (((cache.duration action).or (cache.mnemonicMean action.mnemonic)).map micros).getD (guessUs action)

end Expected

namespace Build

section Ranks

variable (b : Build)

/-- The actions that read what an action makes, and the number of actions an action waits for. -/
structure Waits where
  readers : ℕ → List ℕ
  waitingOn : ℕ → ℕ

def Waits.push (s : Waits) (id maker : ℕ) : Waits where
  readers := insertEdge s.readers maker id
  waitingOn := Function.update s.waitingOn id (s.waitingOn id + 1)

def waits : Waits :=
  (List.range b.actions.length).foldl (fun s id => (b.wait id).foldl (fun s maker => s.push id maker) s)
    ⟨fun _ => [],fun _ => 0⟩

def expected (cache : ActionCache) (id : ℕ) : ℕ := ((b.actions[id]?).map cache.expected).getD 0

def saturate (x : ℕ) : ℕ := min x (2^64 - 1)

def ranks (cache : ActionCache) : Option (ℕ → ℕ) :=
  let ids := List.range b.actions.length
  let w := b.waits
  (sweepLoop w.readers (ids.length + 1) 0 ⟨w.waitingOn,ids.filter fun id => w.waitingOn id = 0⟩).map
    (fill w.readers (b.expected cache) saturate)

end Ranks

section Path

variable (b : Build) (durations : List (String × ℕ)) (cachedOutputs : List String)

/-- Of several times for one output the last. -/
def took (path : String) : Option ℕ :=
  ((durations.filter fun e => e.1 ∉ cachedOutputs).reverse.find? fun e => e.1 = path).map Prod.snd

/-- The time an action that ran took. -/
def time (id : ℕ) : ℕ :=
  (((b.actions[id]?).bind fun action => action.outputs.head?).bind fun first =>
    took durations cachedOutputs first.execPath).getD 0

/-- The action itself is one of them, if it reads what it makes. -/
def makers (id : ℕ) : List ℕ := (b.inputs id).filterMap b.byOutput

/-- A `Duration` has fewer than `2^64` seconds. Times are in nanoseconds. -/
def durationLimit : ℕ := 2^64 * 10^9

def criticalPath (fuel : ℕ) : Option ℕ :=
  (walkLoop b.makers (b.time durations cachedOutputs) durationLimit fuel
    ⟨fun _ => none,(b.wanted.map (·,false)).reverse⟩).map fun chain => most (b.wanted.filterMap chain)

end Path

section Chains

variable (b : Build)

/-- The later action reads an output of the earlier. Of several actions that list it the last makes it. -/
def Reads (later earlier : ℕ) : Prop := ∃ input ∈ b.inputs later, b.byOutput input = some earlier

def Chain (l : List ℕ) : Prop := l.IsChain fun earlier later => b.Reads later earlier

/-- It ends at an action that was asked for. -/
def Requested (l : List ℕ) : Prop := b.Chain l ∧ ∃ r ∈ b.wanted, l.getLast? = some r

def NoCycle : Prop := ∀ id, ¬TransGen b.Reads id id

variable {b}

theorem edge_makers : Edge b.makers = b.Reads := by
  funext later earlier
  exact propext List.mem_filterMap

theorem byOutput_lt {artifact : Artifact} {id : ℕ} (h : b.byOutput artifact = some id) : id < b.actions.length := by
  obtain ⟨e,he,rfl⟩ := Option.map_eq_some_iff.mp h
  have hmem := List.mem_reverse.mp (List.mem_of_find?_eq_some he)
  exact List.snd_lt_of_mem_zipIdx hmem

theorem Reads.lt {later earlier : ℕ} (h : b.Reads later earlier) : earlier < b.actions.length := by
  obtain ⟨_,_,hmaker⟩ := h
  exact byOutput_lt hmaker

theorem Reads.of_wait {later earlier : ℕ} (h : earlier ∈ b.wait later) : b.Reads later earlier := (mem_wait.mp h).1

end Chains

section Readers

variable {b : Build}

theorem pushes_waitingOn {nodes makers : List ℕ} (hnodes : nodes.Nodup) (hmakers : ∀ maker ∈ makers, maker ∈ nodes)
    (id : ℕ) {s : Waits} (hs : ∀ c, s.waitingOn c = Ranks.incoming s.readers nodes c) (c : ℕ) :
    (makers.foldl (fun s maker => s.push id maker) s).waitingOn c =
      Ranks.incoming (makers.foldl (fun s maker => s.push id maker) s).readers nodes c := by
  induction makers generalizing s with
  | nil => exact hs c
  | cons maker makers ih =>
    rw [List.forall_mem_cons] at hmakers
    refine ih hmakers.2 (fun c => ?_)
    dsimp only [Waits.push]
    rw [incoming_insertEdge hnodes hmakers.1, ← hs]
    by_cases hc : c = id
    · rw [if_pos hc, hc, Function.update_self]
    · rw [if_neg hc, Function.update_of_ne hc, Nat.add_zero]

theorem pushes_readers {makers : List ℕ} {id c m : ℕ} {s : Waits} :
    c ∈ (makers.foldl (fun s maker => s.push id maker) s).readers m ↔ c ∈ s.readers m ∨ m ∈ makers ∧ c = id := by
  induction makers generalizing s with
  | nil => simp
  | cons maker makers ih =>
    have hpush : c ∈ (s.push id maker).readers m ↔ c ∈ s.readers m ∨ m = maker ∧ c = id := insertEdge_edge ..
    rw [List.foldl_cons, ih, hpush, List.mem_cons]
    tauto

theorem waits_readers {c m : ℕ} : c ∈ b.waits.readers m ↔ c < b.actions.length ∧ m ∈ b.wait c := by
  have hall : ∀ ids : List ℕ, ∀ s : Waits,
      c ∈ (ids.foldl (fun s id => (b.wait id).foldl (fun s maker => s.push id maker) s) s).readers m ↔
        c ∈ s.readers m ∨ c ∈ ids ∧ m ∈ b.wait c := by
    intro ids
    induction ids with
    | nil => simp
    | cons id ids ih =>
      intro s
      rw [List.foldl_cons, ih, pushes_readers, List.mem_cons, or_assoc]
      refine or_congr_right ?_
      constructor
      · rintro (⟨hm,rfl⟩|h)
        · exact ⟨.inl rfl,hm⟩
        · exact ⟨.inr h.1,h.2⟩
      · rintro ⟨rfl|hc,hm⟩
        · exact .inl ⟨hm,rfl⟩
        · exact .inr ⟨hc,hm⟩
  rw [waits, hall, List.mem_range]
  exact or_iff_right List.not_mem_nil

theorem waits_waitingOn (c : ℕ) :
    b.waits.waitingOn c = Ranks.incoming b.waits.readers (List.range b.actions.length) c := by
  have hall : ∀ ids : List ℕ, ∀ s : Waits,
      (∀ c, s.waitingOn c = Ranks.incoming s.readers (List.range b.actions.length) c) → ∀ c,
        (ids.foldl (fun s id => (b.wait id).foldl (fun s maker => s.push id maker) s) s).waitingOn c =
          Ranks.incoming (ids.foldl (fun s id => (b.wait id).foldl (fun s maker => s.push id maker) s) s).readers
            (List.range b.actions.length) c := by
    intro ids
    induction ids with
    | nil => exact fun s hs => hs
    | cons id ids ih =>
      refine fun s hs => ih _ (pushes_waitingOn List.nodup_range (fun maker hmaker => ?_) id hs)
      exact List.mem_range.mpr (Reads.of_wait hmaker).lt
  refine hall _ _ (fun c => ?_) c
  rw [Ranks.incoming, List.count_eq_zero.mpr (by simp)]

theorem readers_closed : ∀ m ∈ List.range b.actions.length, ∀ c ∈ b.waits.readers m, c ∈ List.range b.actions.length :=
  fun _ _ _ hc => List.mem_range.mpr (waits_readers.mp hc).1

/-- Without cycles no action reads what it makes. -/
theorem edge_readers (h : b.NoCycle) : Edge b.waits.readers = fun earlier later => b.Reads later earlier := by
  funext earlier later
  refine propext (waits_readers.trans ⟨fun hw => Reads.of_wait hw.2,fun hreads => ⟨?_,mem_wait.mpr ⟨hreads,?_⟩⟩⟩)
  · obtain ⟨input,hinput,_⟩ := hreads
    by_contra hlt
    rw [Build.inputs, List.getElem?_eq_none (Nat.le_of_not_lt hlt)] at hinput
    cases hinput
  · rintro rfl
    exact h _ (TransGen.single hreads)

theorem readers_acyclic (h : b.NoCycle) : Acyclic b.waits.readers := by
  intro id hcycle
  rw [edge_readers h] at hcycle
  exact h id (transGen_swap.mp hcycle)

end Readers

section Answers

variable {b : Build}

theorem saturate_mono : Monotone saturate := fun _ _ h => min_le_min_right _ h

theorem saturate_add (x y : ℕ) : saturate (x + saturate y) = saturate (x + y) := by
  unfold saturate
  omega

/-- The sweep ends on every list of actions. -/
theorem ranks_ends (b : Build) (cache : ActionCache) : ∃ order, b.ranks cache =
    some (fill b.waits.readers (b.expected cache) saturate order) ∧ order.Nodup ∧
      (order.Pairwise fun x y => x ∉ b.waits.readers y) ∧
      (Acyclic b.waits.readers → ∀ id ∈ List.range b.actions.length, id ∈ order) := by
  have hstart : Swept b.waits.readers (List.range b.actions.length) [] [] _ :=
    Swept.initial List.nodup_range waits_waitingOn
  obtain ⟨s,hloop,hend⟩ := sweepLoop_ends readers_closed hstart (Nat.lt_succ_self _)
  refine ⟨s.order,?_,hend.nodup,hend.sorted,fun hacyclic => hend.complete List.nodup_range hacyclic⟩
  exact congrArg (Option.map (fill b.waits.readers (b.expected cache) saturate)) hloop

/-- The rank of an action is the longest chain that starts at it. -/
theorem ranks_isGreatest (cache : ActionCache) {ranks : ℕ → ℕ} (hranks : b.ranks cache = some ranks) (h : b.NoCycle)
    {id : ℕ} (hid : id < b.actions.length) :
    IsGreatest {w | ∃ l, b.Chain l ∧ l.head? = some id ∧ w = saturate (l.map (b.expected cache)).sum} (ranks id) := by
  obtain ⟨order,heq,hnodup,hsorted,hall⟩ := b.ranks_ends cache
  obtain rfl := Option.some.inj (hranks.symm.trans heq)
  have hacyclic := readers_acyclic h
  have hgreatest : IsGreatest (weights b.waits.readers (b.expected cache) saturate id) _ :=
    fill_isGreatest saturate_mono saturate_add readers_closed hacyclic hnodup hsorted (hall hacyclic) id
      (List.mem_range.mpr hid)
  convert hgreatest using 1
  ext w
  rw [weights, edge_readers h]
  constructor
  · rintro ⟨l,hchain,hhead,rfl⟩
    obtain ⟨l,rfl⟩ := List.head?_eq_some_iff.mp hhead
    exact ⟨l,hchain,rfl⟩
  · rintro ⟨l,hchain,rfl⟩
    exact ⟨id::l,hchain,rfl,rfl⟩

/-- A chain to a requested action is walked from its end. -/
theorem requested_iff {own : ℕ → ℕ} {w : ℕ} : (∃ l, b.Requested l ∧ w = (l.map own).sum) ↔
    ∃ r ∈ b.wanted, w ∈ weights b.makers own id r := by
  have hreverse : ∀ l, b.Chain l ↔ l.reverse.IsChain b.Reads := fun l => List.isChain_reverse.symm
  constructor
  · rintro ⟨l,⟨hchain,r,hr,hlast⟩,rfl⟩
    rw [← List.head?_reverse] at hlast
    obtain ⟨l',hl'⟩ := List.head?_eq_some_iff.mp hlast
    refine ⟨r,hr,l',?_,?_⟩
    · rw [edge_makers, ← hl', ← hreverse]
      exact hchain
    · rw [← hl', List.map_reverse, List.sum_reverse]
      rfl
  · rintro ⟨r,hr,l,hchain,rfl⟩
    refine ⟨(r::l).reverse,⟨?_,r,hr,?_⟩,?_⟩
    · rw [hreverse, List.reverse_reverse, ← edge_makers]
      exact hchain
    · rw [List.getLast?_reverse]
      rfl
    · rw [List.map_reverse, List.sum_reverse]
      rfl

variable {durations : List (String × ℕ)} {cachedOutputs : List String}

theorem criticalPath_some {fuel d : ℕ} : b.criticalPath durations cachedOutputs fuel = some d ↔
    ∃ out, walkLoop b.makers (b.time durations cachedOutputs) durationLimit fuel
      ⟨fun _ => none,b.wanted.reverse.map (·,false)⟩ = some out ∧ most (b.wanted.filterMap out) = d := by
  rw [criticalPath, ← List.map_reverse]
  exact Option.map_eq_some_iff

theorem criticalPath_ends_iff : (∃ fuel d, b.criticalPath durations cachedOutputs fuel = some d) ↔
    (∀ r ∈ b.wanted, ∀ id, ReflTransGen b.Reads r id → ¬TransGen b.Reads id id) ∧
      ∀ l, b.Requested l → (l.map (b.time durations cachedOutputs)).sum < durationLimit := by
  have hends : (∃ fuel d, b.criticalPath durations cachedOutputs fuel = some d) ↔
      ∃ fuel out, walkLoop b.makers (b.time durations cachedOutputs) durationLimit fuel
        ⟨fun _ => none,b.wanted.reverse.map (·,false)⟩ = some out := by
    simp only [criticalPath_some]
    exact exists_congr fun fuel => ⟨fun ⟨_,out,h,_⟩ => ⟨out,h⟩,fun ⟨out,h⟩ => ⟨_,out,h,rfl⟩⟩
  have hin : ∀ later, ∀ earlier ∈ b.makers later, earlier ∈ List.range b.actions.length := fun later earlier h =>
    List.mem_range.mpr (Reads.lt (List.mem_filterMap.mp h))
  have hfits : (∀ l, b.Requested l → (l.map (b.time durations cachedOutputs)).sum < durationLimit) ↔
      ∀ r ∈ b.wanted, Fits b.makers (b.time durations cachedOutputs) durationLimit r := by
    constructor
    · intro h r hr w hw
      obtain ⟨l,hl,rfl⟩ := requested_iff.mpr ⟨r,hr,hw⟩
      exact h l hl
    · intro h l hl
      obtain ⟨r,hr,hw⟩ := requested_iff.mp ⟨l,hl,rfl⟩
      exact h r hr _ hw
  rw [hends, walkLoop_ends_iff, hfits, ← edge_makers]
  simp only [List.mem_reverse, acc_iff_no_cycle hin]
  exact ⟨fun h => ⟨fun r hr => (h r hr).1,fun r hr => (h r hr).2⟩,fun h r hr => ⟨h.1 r hr,h.2 r hr⟩⟩

/-- What the walk answers is the longest chain to what was requested. -/
theorem criticalPath_isGreatest {fuel d : ℕ} (h : b.criticalPath durations cachedOutputs fuel = some d) :
    IsGreatest (insert 0 {w | ∃ l, b.Requested l ∧ w = (l.map (b.time durations cachedOutputs)).sum}) d := by
  obtain ⟨out,hloop,rfl⟩ := criticalPath_some.mp h
  have hknown := walkLoop_known hloop
  simp only [List.mem_reverse] at hknown
  simp only [requested_iff]
  constructor
  · by_cases hnil : b.wanted.filterMap out = []
    · rw [hnil]
      exact .inl rfl
    · obtain ⟨r,hr,hout⟩ := List.mem_filterMap.mp (most_mem hnil)
      obtain ⟨v,hv,hgreatest⟩ := hknown r hr
      obtain rfl := Option.some.inj (hout.symm.trans hv)
      exact .inr ⟨r,hr,hgreatest.1⟩
  · rintro w (rfl|⟨r,hr,hw⟩)
    · exact Nat.zero_le _
    · obtain ⟨v,hv,hgreatest⟩ := hknown r hr
      exact (hgreatest.2 hw).trans (le_most (List.mem_filterMap.mpr ⟨r,hr,hv⟩))

/-- Both end with the longest chains exactly when what was requested leads back to no cycle. -/
theorem longest_chains_iff (b : Build) (cache : ActionCache) (durations : List (String × ℕ))
    (cachedOutputs : List String) :
    ((∃ ranks, b.ranks cache = some ranks ∧ (b.NoCycle → ∀ id < b.actions.length,
        IsGreatest {w | ∃ l, b.Chain l ∧ l.head? = some id ∧ w = saturate (l.map (b.expected cache)).sum}
          (ranks id))) ∧
      (∃ fuel d, b.criticalPath durations cachedOutputs fuel = some d) ∧
      (b.NoCycle → ∀ fuel d, b.criticalPath durations cachedOutputs fuel = some d →
        IsGreatest (insert 0 {w | ∃ l, b.Requested l ∧ w = (l.map (b.time durations cachedOutputs)).sum}) d)) ↔
      (∀ r ∈ b.wanted, ∀ id, ReflTransGen b.Reads r id → ¬TransGen b.Reads id id) ∧
        ∀ l, b.Requested l → (l.map (b.time durations cachedOutputs)).sum < durationLimit := by
  rw [← criticalPath_ends_iff]
  constructor
  · exact fun h => h.2.1
  · intro h
    obtain ⟨order,hranks,-⟩ := b.ranks_ends cache
    exact ⟨⟨_,hranks,fun hacyclic _ hid => ranks_isGreatest cache hranks hacyclic hid⟩,h,
      fun _ _ _ hpath => criticalPath_isGreatest hpath⟩

def madeAndRead : Artifact := ⟨⟨"bazel-out",false⟩,"a",false,false⟩

/-- An action that reads what it makes is run, as none waits for itself. -/
def readsItself : Build where
  actions := [⟨"Touch",.spawn ["touch","a"] .empty .empty [],[madeAndRead],[madeAndRead]⟩]
  requested := [madeAndRead]
  jobs := 1
  keepGoing := false
  rank := fun _ => 0

/-- After that build the critical path is looked for without end. -/
theorem readsItself_endless : readsItself.wait 0 = [] ∧ ¬∃ fuel d, readsItself.criticalPath [] [] fuel = some d := by
  have hself : readsItself.Reads 0 0 := ⟨madeAndRead,by decide,by decide⟩
  refine ⟨by decide,fun h => ?_⟩
  exact (criticalPath_ends_iff.mp h).1 0 (by decide) 0 .refl (TransGen.single hself)

end Answers

end Build

end BuildFiji.Exec
