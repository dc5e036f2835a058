import BuildFiji.Starlark.Loader

/-!
# Which loads are cycles

What a file comes to is settled by the load statements alone: it is good, or a
file that it loads fails by itself, or a load that is reached comes back. As long
as no thread follows the entry of one that has been notified and has not woken
up, a request fails with a cycle exactly where there is one. An entry that is
followed after that can close a ring that is none.
-/

set_option autoImplicit false
set_option linter.all false

namespace BuildFiji.Starlark.Loader

open BuildFiji.Chain Relation

variable {τ α : Type}

section Meaning
variable (graph : LoadGraph α)

/-- A file that can be loaded, with all that it loads. -/
inductive Good : α → Prop where
  | intro (file : α) (hloads : ∀ load ∈ graph.loads file, Good load)
    (hfails : graph.fails file = false) : Good file

/-- A file that fails because another fails by itself. -/
inductive FailsBy (culprit : α) : α → Prop where
  | itself (hloads : ∀ load ∈ graph.loads culprit, Good graph load)
    (hfails : graph.fails culprit = true) : FailsBy culprit culprit
  | load (file load : α) (before after : List α)
    (hloads : graph.loads file = before ++ load::after) (hbefore : ∀ l ∈ before, Good graph l)
    (hload : FailsBy culprit load) : FailsBy culprit file

/-- A load statement that is reached: those before it succeed. -/
def Reached (file load : α) : Prop :=
  ∃ before after, graph.loads file = before ++ load::after ∧ ∀ l ∈ before, Good graph l

def CycleReachable (file : α) : Prop :=
  ∃ turn, ReflTransGen (Reached graph) file turn ∧ TransGen (Reached graph) turn turn

end Meaning

section Exclusive
variable {graph : LoadGraph α} {file culprit : α}

theorem Good.not_failsBy (h : Good graph file) : ¬FailsBy graph culprit file := by
  induction h with
  | intro file hloads hfails ih =>
    intro hfailed
    cases hfailed with
    | itself _ hfails' =>
      rw [hfails] at hfails'
      cases hfails'
    | load _ load before after hsplit hbefore hload =>
      exact ih load (by rw [hsplit]; simp) hload

/-- No chain of loads from a good file goes on for ever. -/
theorem Good.ends (h : Good graph file) : Acc (fun b a => Reached graph a b) file := by
  induction h with
  | intro file hloads hfails ih =>
    refine ⟨file,fun load hreached => ?_⟩
    obtain ⟨before,after,hsplit,-⟩ := hreached
    exact ih load (by rw [hsplit]; simp)

theorem FailsBy.ends (h : FailsBy graph culprit file) :
    Acc (fun b a => Reached graph a b) file := by
  induction h with
  | itself hloads hfails =>
    refine ⟨culprit,fun load hreached => ?_⟩
    obtain ⟨before,after,hsplit,-⟩ := hreached
    exact (hloads load (by rw [hsplit]; simp)).ends
  | load file load before after hsplit hbefore hload ih =>
    refine ⟨file,fun load' hreached => ?_⟩
    obtain ⟨before',after',hsplit',hbefore'⟩ := hreached
    rw [hsplit] at hsplit'
    rcases List.append_eq_append_iff.mp hsplit' with ⟨between,rfl,hrest⟩ | ⟨between,rfl,hrest⟩
    · cases between with
      | nil =>
        rw [List.nil_append] at hrest
        cases hrest
        exact ih
      | cons l between =>
        rw [List.cons_append] at hrest
        cases hrest
        exact absurd hload (hbefore' load (by simp)).not_failsBy
    · cases between with
      | nil =>
        rw [List.nil_append] at hrest
        cases hrest
        exact ih
      | cons l between =>
        rw [List.cons_append] at hrest
        cases hrest
        exact (hbefore load' (by simp)).ends

theorem not_cycle_of_ends (h : Acc (fun b a => Reached graph a b) file) :
    ¬CycleReachable graph file := by
  rintro ⟨turn,hreach,hring⟩
  have hturn : Acc (fun b a => Reached graph a b) turn := by
    clear hring
    induction hreach with
    | refl => exact h
    | tail _ hstep ih => exact ih.inv hstep
  induction hturn with
  | intro turn _ ih =>
    obtain ⟨next,hnext,hback⟩ := TransGen.head'_iff.mp hring
    exact ih next hnext (hreach.tail hnext) (TransGen.tail' hback hnext)

end Exclusive

/-- What a result says of the file. -/
def Verdict (graph : LoadGraph α) (file : α) : Loaded α → Prop
  | .ok module => module = file ∧ Good graph file
  | .error (.cycle _ _) => CycleReachable graph file
  | .error (.own culprit) => FailsBy graph culprit file

def IsCycle : Loaded α → Prop
  | .error (.cycle _ _) => True
  | _ => False

theorem Verdict.iff {graph : LoadGraph α} {file : α} {result : Loaded α}
    (h : Verdict graph file result) : IsCycle result ↔ CycleReachable graph file := by
  cases result with
  | ok module => exact ⟨nofun,fun hc => not_cycle_of_ends h.2.ends hc⟩
  | error e =>
    cases e with
    | cycle path file' => exact ⟨fun _ => h,fun _ => trivial⟩
    | own culprit => exact ⟨nofun,fun hc => not_cycle_of_ends (FailsBy.ends h) hc⟩

/-- A file that has got as far as these loads. -/
def Loading (graph : LoadGraph α) (file : α) (next : List α) : Prop :=
  ∃ before, graph.loads file = before ++ next ∧ ∀ l ∈ before, Good graph l

/-- Each file on a stack has got as far as the one that it is loading. -/
def Onto (graph : LoadGraph α) : Option α → List (α × List α) → Prop
  | _, [] => True
  | asked, (file,loads)::stack => Loading graph file (asked.toList ++ loads) ∧
      Onto graph (some file) stack

def Thread.Sound (graph : LoadGraph α) (thread : Thread α) : Prop :=
  match thread.phase with
  | .ready => Onto graph none thread.stack
  | .asking file => Onto graph (some file) thread.stack
  | .asleep file => Onto graph (some file) thread.stack
  | .storing result =>
    match thread.stack with
    | [] => True
    | (file,_)::stack => Verdict graph file result ∧ Onto graph (some file) stack

section Stacks
variable {graph : LoadGraph α} {file : α} {stack : List (α × List α)}

theorem Loading.reached {load : α} {loads : List α} (h : Loading graph file (load::loads)) :
    Reached graph file load := by
  obtain ⟨before,hsplit,hbefore⟩ := h
  exact ⟨before,loads,hsplit,hbefore⟩

theorem Loading.next {load : α} {loads : List α} (h : Loading graph file (load::loads))
    (hload : Good graph load) : Loading graph file loads := by
  obtain ⟨before,hsplit,hbefore⟩ := h
  refine ⟨before ++ [load],by rw [hsplit]; simp,fun l hl => ?_⟩
  rcases List.mem_append.mp hl with hl | hl
  · exact hbefore l hl
  · rw [List.mem_singleton.mp hl]
    exact hload

theorem Loading.verdict {load : α} {loads : List α} (h : Loading graph file (load::loads))
    {e : Failure α} (hload : Verdict graph load (.error e)) : Verdict graph file (.error e) := by
  cases e with
  | cycle path turn =>
    obtain ⟨c,hreach,hring⟩ := hload
    exact ⟨c,hreach.head h.reached,hring⟩
  | own culprit =>
    obtain ⟨before,hsplit,hbefore⟩ := h
    exact .load file load before loads hsplit hbefore hload

/-- From every file that a thread evaluates, what it asks for is reached. -/
theorem Onto.reaches {asked : α} (h : Onto graph (some asked) stack) {x : α}
    (hx : x ∈ stack.map Prod.fst) : TransGen (Reached graph) x asked := by
  induction stack generalizing asked with
  | nil => cases hx
  | cons frame stack ih =>
    obtain ⟨hloading,honto⟩ := h
    rw [List.map_cons] at hx
    rcases List.mem_cons.mp hx with rfl | hx
    · exact .single hloading.reached
    · exact (ih honto hx).tail hloading.reached

theorem resume_sound {thread : Thread α} {result : Loaded α}
    (h : Onto graph (some file) thread.stack) (hverdict : Verdict graph file result) :
    (State.resume thread result).Sound graph := by
  obtain ⟨requests,stack,phase⟩ := thread
  cases stack with
  | nil => trivial
  | cons frame stack =>
    obtain ⟨hloading,honto⟩ := h
    cases result with
    | ok module => exact ⟨hloading.next hverdict.2,honto⟩
    | error e => exact ⟨hloading.verdict hverdict,honto⟩

end Stacks

namespace State

/-- A thread that has been notified, and has not left the table. -/
def Stale (s : State τ α) (t : τ) : Prop :=
  ∃ file result, (s.threads t).phase = .asleep file ∧ s.slots file = .done result

/-- A thread that comes back to itself through the table does not come through
a thread that has been notified. -/
def FreshLook (s : State τ α) (by' : τ × ℕ) : Prop :=
  ∀ file owner, (s.threads by'.1).phase = .asking file → s.slots file = .running owner →
    owner ≠ by'.1 → ∀ t, ReflTransGen (Next s.waiting) owner t →
      TransGen (Next s.waiting) t by'.1 → ¬s.Stale t

/-- What every result says is so. -/
structure Exact (graph : LoadGraph α) (s : State τ α) : Prop where
  slots : ∀ file result, s.slots file = .done result → Verdict graph file result
  threads : ∀ t, (s.threads t).Sound graph
  returned : ∀ r ∈ s.returned, Verdict graph r.2.1 r.2.2

theorem start_exact (graph : LoadGraph α) (requests : τ → List α) :
    Exact graph (start requests) :=
  ⟨nofun,fun _ => trivial,nofun⟩

section Steps
variable {graph : LoadGraph α} {s : State τ α}

theorem Exact.stack_reaches (h : s.Exact graph) {t : τ} {asked : α}
    (hphase : (s.threads t).phase = .asking asked ∨ (s.threads t).phase = .asleep asked) {x : α}
    (hx : x ∈ s.files t) : TransGen (Reached graph) x asked := by
  have ht := h.threads t
  rw [Thread.Sound] at ht
  rcases hphase with hphase | hphase
  · rw [hphase] at ht
    exact Onto.reaches ht hx
  · rw [hphase] at ht
    exact Onto.reaches ht hx

/-- Threads that wait one for another, none of them notified, load one another's
files. -/
theorem Exact.chain_reaches (h : s.Exact graph) (hs : s.Sound) {t me : τ}
    (hpath : TransGen (Next s.waiting) t me)
    (hfresh : ∀ u, ReflTransGen (Next s.waiting) t u → TransGen (Next s.waiting) u me →
      ¬s.Stale u) {x : α} (hx : x ∈ s.files t) :
    ∃ y ∈ s.files me, TransGen (Reached graph) x y := by
  have hone : ∀ {t u : τ} {x : α}, Next s.waiting t u → ¬s.Stale t → x ∈ s.files t →
      ∃ y ∈ s.files u, TransGen (Reached graph) x y := by
    intro t u x hnext hstale hx
    obtain ⟨asked,hphase⟩ := hs.awake t u hnext
    obtain ⟨v,hv,hslot⟩ := hs.asleep t asked hphase
    cases next_unique hnext hv
    rcases hslot with hrun | ⟨result,hdone⟩
    · exact ⟨asked,(hs.owner asked u).mp hrun,h.stack_reaches (.inr hphase) hx⟩
    · exact absurd ⟨asked,result,hphase,hdone⟩ hstale
  induction hpath using TransGen.head_induction_on generalizing x with
  | single hnext => exact hone hnext (hfresh _ .refl (.single hnext)) hx
  | head hnext hrest ih =>
    obtain ⟨y,hy,hxy⟩ := hone hnext (hfresh _ .refl (.head hnext hrest)) hx
    obtain ⟨z,hz,hyz⟩ := ih (fun u hu => hfresh u (.head hnext hu)) hy
    exact ⟨z,hz,hxy.trans hyz⟩

/-- A ring that is found without a notified thread is a ring of loads. -/
theorem Exact.ring (h : s.Exact graph) (hs : s.Sound) {me owner : τ} {file : α}
    (hphase : (s.threads me).phase = .asking file) (hslot : s.slots file = .running owner)
    (hpath : owner = me ∨ owner ≠ me ∧ TransGen (Next s.waiting) owner me)
    {fuel : ℕ} (hfresh : s.FreshLook (me,fuel)) : CycleReachable graph file := by
  have hfile := (hs.owner file owner).mp hslot
  rcases hpath with rfl | ⟨hne,hpath⟩
  · exact ⟨file,.refl,h.stack_reaches (.inl hphase) hfile⟩
  · obtain ⟨y,hy,hreach⟩ := h.chain_reaches hs hpath (hfresh file owner hphase hslot hne) hfile
    exact ⟨file,.refl,hreach.trans (h.stack_reaches (.inl hphase) hy)⟩

/-- The file that is asked for is the one that the innermost file loads. -/
theorem Exact.asking (h : s.Exact graph) {me : τ} {file : α}
    (hphase : (s.threads me).phase = .asking file) :
    Onto graph (some file) (s.threads me).stack := by
  have hme := h.threads me
  rw [Thread.Sound, hphase] at hme
  exact hme

theorem Exact.finish (h : s.Exact graph) {me : τ} {file : α} {stack : List (α × List α)}
    (hphase : (s.threads me).phase = .ready) (hstack : (s.threads me).stack = (file,[])::stack) :
    Verdict graph file (if graph.fails file then .error (.own file) else .ok file) ∧
      Onto graph (some file) stack := by
  have hme := h.threads me
  rw [Thread.Sound, hphase] at hme
  dsimp only at hme
  rw [hstack] at hme
  obtain ⟨⟨before,hsplit,hbefore⟩,honto⟩ := hme
  have hall : ∀ load ∈ graph.loads file, Good graph load := by
    rw [hsplit]
    simpa using hbefore
  refine ⟨?_,honto⟩
  cases hfails : graph.fails file with
  | true => exact .itself hall hfails
  | false => exact ⟨rfl,.intro file hall hfails⟩

variable [DecidableEq τ]

/-- A change of one thread, that keeps all results. -/
theorem Exact.withThread (h : s.Exact graph) (me : τ) (thread : Thread α)
    (hthread : thread.Sound graph) : Exact graph (s.withThread me thread) := by
  refine ⟨h.slots,fun t => ?_,h.returned⟩
  by_cases ht : t = me
  · subst ht
    rwa [withThread_self]
  · rw [withThread_of_ne ht]
    exact h.threads t

theorem Exact.give (h : s.Exact graph) {me : τ} {file : α} {result : Loaded α}
    (honto : Onto graph (some file) (s.threads me).stack)
    (hverdict : Verdict graph file result) : Exact graph (s.give me file result) := by
  have hthread := h.withThread me _ (resume_sound honto hverdict)
  refine ⟨hthread.slots,hthread.threads,fun r hr => ?_⟩
  rcases List.mem_append.mp hr with hr | hr
  · exact h.returned r hr
  · rw [List.mem_singleton.mp hr]
    exact hverdict

theorem Exact.stored (h : s.Exact graph) [DecidableEq α] {me : τ} {file : α} {loads : List α}
    {stack : List (α × List α)} {result : Loaded α}
    (hphase : (s.threads me).phase = .storing result)
    (hstack : (s.threads me).stack = (file,loads)::stack) :
    Exact graph ((s.stored me file stack result).give me file result) := by
  have hme := h.threads me
  rw [Thread.Sound, hphase] at hme
  dsimp only at hme
  rw [hstack] at hme
  obtain ⟨hverdict,honto⟩ := hme
  refine ⟨fun f r hslot => ?_,fun t => ?_,fun r hr => ?_⟩
  · by_cases hf : f = file
    · subst hf
      simp only [State.give, State.stored, withThread_slots, Function.update_self,
        SlotState.done.injEq] at hslot
      exact hslot ▸ hverdict
    · simp only [State.give, State.stored, withThread_slots, Function.update_of_ne hf] at hslot
      exact h.slots f r hslot
  · by_cases ht : t = me
    · subst ht
      simp only [State.give, withThread_self]
      apply resume_sound _ hverdict
      simpa [State.stored] using honto
    · simp only [State.give, State.stored, withThread_of_ne ht]
      exact h.threads t
  · rcases List.mem_append.mp hr with hr | hr
    · exact h.returned r hr
    · rw [List.mem_singleton.mp hr]
      exact hverdict

theorem Exact.stepped [DecidableEq α] (h : s.Exact graph) (hs : s.Sound) {me : τ} {fuel : ℕ}
    {s' : State τ α} (hfresh : s.FreshLook (me,fuel)) (hstep : Stepped graph s me s') :
    s'.Exact graph := by
  have hme := h.threads me
  rw [Thread.Sound] at hme
  cases hstep with
  | request file requests hphase hstack hrequests =>
    refine h.withThread me _ ?_
    rw [Thread.Sound]
    dsimp only
    rw [hstack]
    trivial
  | finish file stack hphase hstack =>
    refine h.withThread me _ ?_
    rw [Thread.Sound]
    dsimp only
    rw [hstack]
    exact h.finish hphase hstack
  | load file load loads stack hphase hstack =>
    rw [hphase] at hme
    dsimp only at hme
    rw [hstack] at hme
    exact h.withThread me _ ⟨hme.1,hme.2⟩
  | found file result hphase hslot => exact h.give (h.asking hphase) (h.slots file result hslot)
  | ring file owner hphase hslot hpath =>
    exact h.give (h.asking hphase) (h.ring hs hphase hslot hpath hfresh)
  | sleep file owner hphase hslot hne hpath =>
    have hthread := h.withThread me { s.threads me with phase := .asleep file }
      (h.asking hphase)
    exact ⟨hthread.slots,hthread.threads,hthread.returned⟩
  | begin file hphase hslot =>
    have hthread := h.withThread me { s.threads me with
      stack := (file,graph.loads file)::(s.threads me).stack, phase := .ready }
      ⟨⟨[],rfl,nofun⟩,h.asking hphase⟩
    refine ⟨fun f r hf => ?_,hthread.threads,hthread.returned⟩
    by_cases heq : f = file
    · subst heq
      simp only [Function.update_self] at hf
      cases hf
    · simp only [Function.update_of_ne heq] at hf
      exact h.slots f r hf
  | wake file hphase =>
    rw [hphase] at hme
    have hthread := h.withThread me { s.threads me with phase := .asking file } hme
    exact ⟨hthread.slots,hthread.threads,hthread.returned⟩
  | store file loads stack result hphase hstack =>
    rw [give_stored]
    exact h.stored hphase hstack

end Steps

end State

section Loader
variable [DecidableEq τ] [DecidableEq α]

/-- Whatever the threads ask for and in whatever order they go on, each file is
evaluated at most once, no threads wait in a ring, and while one is not finished
some thread that waits for none can go on. Where moreover no thread comes back to
itself through the entry of a thread that has been notified and has not left the
table, every request fails with a cycle exactly if there is one to be reached. -/
theorem loading_exact_when (graph : LoadGraph α) (requests : τ → List α)
    (schedule : List (τ × ℕ)) (s : State τ α)
    (hrun : Machine.run (State.step graph) (State.start requests) schedule = some s) :
    (∀ file, s.evaluations file ≤ 1) ∧ (∀ t, ¬TransGen s.WaitsFor t t) ∧
    (∀ t, ¬s.Finished t → ∃ u, (∀ v, ¬s.WaitsFor u v) ∧
      ∃ fuel s', State.step graph s (u,fuel) = some s') ∧
    (Machine.Guarded (State.step graph) State.FreshLook (State.start requests) schedule →
      ∀ t file result, (t,file,result) ∈ s.returned →
        (IsCycle result ↔ CycleReachable graph file)) := by
  have hsound := State.Sound.run hrun
  refine ⟨hsound.once,hsound.no_ring,fun t => hsound.progress,fun hfresh t file result hr => ?_⟩
  have hexact : s.Sound ∧ s.Exact graph := by
    refine @Machine.guarded_invariant _ _ (State.step graph) (fun s => s.Sound ∧ s.Exact graph)
      State.FreshLook ?_ _ _ _ ⟨State.start_sound requests,State.start_exact graph requests⟩ hfresh
      hrun
    intro s by' s' hs hlook hstep
    have hstepped := State.stepped_of_step hstep
    exact ⟨hs.1.stepped hstepped,hs.2.stepped hs.1 hlook hstepped⟩
  exact (hexact.2.returned _ hr).iff

end Loader

section TwoFiles

/-- The second file loads the first. -/
def twoFiles : LoadGraph ℕ where
  loads file := if file = 1 then [0] else []
  fails _ := false

def twoRequests (t : Bool) : List ℕ := if t then [1] else [0,1]

/-- The first thread begins the first file, and the second the second, and waits
for the first. The first stores its file and asks for the second, before the
second thread has woken up. -/
def tooSoon : List (Bool × ℕ) :=
  [(false,0),(false,0),(true,0),(true,0),(true,0),(true,1),(false,0),(false,0),(false,0),(false,1)]

theorem loading_exact_tooSoon : ∃ s,
    Machine.run (State.step twoFiles) (State.start twoRequests) tooSoon = some s ∧
    ∀ file, s.evaluations file ≤ 1 := by
  obtain ⟨s,hs⟩ := Option.isSome_iff_exists.mp (show
    (Machine.run (State.step twoFiles) (State.start twoRequests) tooSoon).isSome = true by decide)
  exact ⟨s,hs,(loading_exact_when twoFiles twoRequests tooSoon s hs).1⟩

theorem twoFiles_acyclic (file : ℕ) : ¬CycleReachable twoFiles file := by
  have hdown : ∀ {a b}, Reached twoFiles a b → b < a := by
    rintro a b ⟨before,after,hsplit,-⟩
    have hmem : b ∈ twoFiles.loads a := by
      rw [hsplit]
      simp
    unfold twoFiles at hmem
    dsimp only at hmem
    split at hmem
    · rw [List.mem_singleton.mp hmem]
      omega
    · cases hmem
  have hlt : ∀ {a b}, TransGen (Reached twoFiles) a b → b < a := by
    intro a b h
    induction h with
    | single hstep => exact hdown hstep
    | tail _ hstep ih => exact Nat.lt_trans (hdown hstep) ih
  rintro ⟨turn,-,hring⟩
  exact absurd (hlt hring) (Nat.lt_irrefl turn)

/-- No file loads itself, and a request fails with a cycle. -/
theorem false_cycle : ∃ s,
    Machine.run (State.step twoFiles) (State.start twoRequests) tooSoon = some s ∧
    (false,1,Except.error (Failure.cycle [1] 1)) ∈ s.returned ∧
    ∀ file, ¬CycleReachable twoFiles file := by
  have hreturned : (Machine.run (State.step twoFiles) (State.start twoRequests) tooSoon).map
      State.returned = some [(false,0,.ok 0),(false,1,.error (.cycle [1] 1))] := by decide
  obtain ⟨s,hs,hlist⟩ := Option.map_eq_some_iff.mp hreturned
  refine ⟨s,hs,?_,twoFiles_acyclic⟩
  rw [hlist]
  simp

end TwoFiles

end BuildFiji.Starlark.Loader
