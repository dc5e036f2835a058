import BuildFiji.Engine.MemoSound
import Mathlib.Data.Set.Finite.Lattice

/-!
# Evaluation ends

A key with a value from scratch depends, directly and indirectly, on finitely
many keys below each other. With more fuel than the depth of that tree the
evaluator gives an answer, whatever the memo holds: it only ever waits for
dependencies, and a node it waits for is not running, since every running
node is waiting for the one at hand.
-/

set_option autoImplicit false
set_option linter.all false

namespace BuildFiji.Engine.Memo

open BuildFiji.Digraph Relation

variable {K V C : Type*} [DecidableEq K] (compute : K → Comp K V C) (ext : K → C)

/-- Every running node waits, directly or not, for `k`. -/
def Chain (g : Graph K V) (k : K) : Prop := ∀ n, Running g n → ReflTransGen (Edge (adj g.waits)) n k

/-- A graph in which the computation of `k` may ask for a dependency. -/
structure Ready (S : K → Prop) (version : ℕ) (g : Graph K V) (k : K) : Prop where
  version : g.version = version
  coherent : Coherent compute ext g
  sound : Sound compute ext g
  region : Region compute ext S k
  noMissed : NoMissed S g
  chain : Chain g k

/-- The evaluator answers for `k` in every graph in which it may be asked. -/
def Answers (S : K → Prop) (version : ℕ) (eval : Graph K V → K → Answer K V) (k : K) : Prop :=
  ∀ g, Ready compute ext S version g k → ¬ Running g k → (∃ n, g.nodes k = some n) →
    ∃ a, eval g k = some a

variable {compute ext} {S : K → Prop}

theorem frame_path {g g' : Graph K V} (h : Frame g g') {a b : K}
    (hp : ReflTransGen (Edge (adj g.waits)) a b) : ReflTransGen (Edge (adj g'.waits)) a b := by
  refine ReflTransGen.mono (fun x y hxy => ?_) _ _ hp
  exact List.count_pos_iff.mp ((h.waits x y).symm ▸ List.count_pos_iff.mpr hxy)

section Loops
variable (debug : K → String) {eval : Graph K V → K → Answer K V} {version : ℕ} {k : K}

theorem Ready.step {g g' : Graph K V} (h : Ready compute ext S version g k) (hf : Frame g g')
    (hc : Coherent compute ext g') (hk : Kept compute ext S g g') :
    Ready compute ext S version g' k :=
  ⟨hf.version.trans h.version,hc,hk.1,h.region,hk.2 h.noMissed,
    fun n hn => frame_path hf (h.chain n ((hf.running_iff n).mp hn))⟩

/-- A dependency with a node is waited for and answers. -/
theorem asks {g : Graph K V} {d : K}
    (hans : Answers compute ext S version eval d) (h : Ready compute ext S version g k)
    (hd : Depends compute ext k d) (hn : ∃ n, g.nodes d = some n) :
    waitOn debug g.waits k d = .ok (pushWait g.waits k d) ∧
    ∃ a, eval { g with waits := pushWait g.waits k d } d = some a := by
  have hw := h.sound.not_refused h.region.acyclic debug hd
  have hno := ((waitOn_ok debug g.waits _ k d).mp hw).1
  have hedge : ∀ a b, Edge (adj g.waits) a b → Edge (adj (pushWait g.waits k d)) a b := by
    intro a b hab
    rw [adj_pushWait]
    exact (insertEdge_edge _ k d a b).mpr (.inl hab)
  have hlast : Edge (adj (pushWait g.waits k d)) k d := by
    rw [adj_pushWait]
    exact (insertEdge_edge _ k d k d).mpr (.inr ⟨rfl,rfl⟩)
  refine ⟨hw,hans _ ⟨h.version,h.coherent.waits _,h.sound.wait hd,h.region.dep hd,h.noMissed,fun n hr => ?_⟩ ?_ hn⟩
  · exact (ReflTransGen.mono hedge _ _ (h.chain n hr)).tail hlast
  · exact fun hr => hno (h.chain d hr)

theorem verify_answers (hev : EvalSpec compute ext version eval)
    (hans : ∀ d, Depends compute ext k d → Answers compute ext S version eval d)
    (rest pre : List (K × ℕ)) {g : Graph K V} (h : Ready compute ext S version g k)
    (hvf : Verifying g k pre rest) : ∃ a, verify debug eval k rest g = some a := by
  induction rest generalizing pre g with
  | nil => exact ⟨_,rfl⟩
  | cons q rest ih =>
    obtain ⟨d,c⟩ := q
    have hd := hvf.depends h.coherent h.sound
    obtain ⟨p,hp,hdeps⟩ := hvf.deps
    have hn : ∃ n, g.nodes d = some n := by
      obtain ⟨e,he,-⟩ := h.coherent.deps k p hp (d,c) (by simp [hdeps])
      obtain ⟨n,hn,-⟩ := Option.bind_eq_some_iff.mp he
      exact ⟨n,hn⟩
    obtain ⟨hw,⟨r,g1⟩,he⟩ := asks debug (hans d hd) h hd hn
    obtain ⟨hc1,hf1,hd1,hs1⟩ := asked hev h.version h.coherent hw he
    obtain ⟨hk1,e,rfl⟩ := hs1 h.region hd h.sound (.inl h.noMissed)
    simp only [verify, hw, he]
    split_ifs with hle
    · obtain ⟨hre,hve⟩ := hd1 e rfl
      exact ih _ (h.step hf1 hc1 hk1) (hvf.step hf1 ⟨e,hre,hve.trans hf1.version.symm,hle⟩)
    · exact ⟨_,rfl⟩

theorem Ready.node {g : Graph K V} (h : Ready compute ext S version g k) (d : K) :
    Ready compute ext S version (g.node d) k :=
  h.step (frame_node g d) (h.coherent.node d) (.node h.sound d)

theorem ctxGet_answers {d : K}
    (hans : Answers compute ext S version eval d) (hd : Depends compute ext k d) {g : Graph K V}
    (ctx : Ctx K) (h : Ready compute ext S version g k) :
    ∃ a, ctxGet debug eval k d ctx g = some a := by
  obtain ⟨hw,⟨r,g1⟩,he⟩ := asks debug hans (h.node d) hd (node_named g d)
  simp only [ctxGet, hw, he]
  cases r with
  | error text => exact ⟨_,rfl⟩
  | ok e => exact ⟨_,rfl⟩

theorem ctxGetAll_answers (hev : EvalSpec compute ext version eval)
    (hans : ∀ d, Depends compute ext k d → Answers compute ext S version eval d)
    (keys : List K) (hd : ∀ d ∈ keys, Depends compute ext k d) {g : Graph K V} (ctx : Ctx K)
    (h : Ready compute ext S version g k) : ∃ a, ctxGetAll debug eval k keys ctx g = some a := by
  induction keys generalizing g ctx with
  | nil => exact ⟨_,rfl⟩
  | cons d ds ih =>
    have hdd := hd d (by simp)
    obtain ⟨⟨⟨o,ctx1⟩,g1⟩,h1⟩ := ctxGet_answers debug (hans d hdd) hdd ctx h
    obtain ⟨tr,hask,-,hs1⟩ := ctxGet_ok hev h.version h.coherent h1
    obtain ⟨hk1,-⟩ := hs1 h.region hdd h.sound (.inl h.noMissed)
    obtain ⟨⟨⟨ws,ctx2⟩,g2⟩,h2⟩ := ih (fun x hx => hd x (by simp [hx])) ctx1
      (h.step hask.frame hask.coherent hk1)
    simp only [ctxGetAll, h1, h2]
    exact ⟨_,rfl⟩

theorem interpret_answers (hev : EvalSpec compute ext version eval)
    (hans : ∀ d, Depends compute ext k d → Answers compute ext S version eval d) (c : Comp K V C)
    (hd : ∀ d, Reads compute ext k c d → Depends compute ext k d) {g : Graph K V} (ctx : Ctx K)
    (hm : ctx.missed = false) (h : Ready compute ext S version g k) :
    ∃ a, interpret debug eval ext k c ctx g = some a := by
  induction c generalizing g ctx with
  | ret o => exact ⟨_,rfl⟩
  | cell cont ih => exact ih (ext k) (fun d h' => hd d (.cell h')) ctx hm h
  | get keys cont ih =>
    have hkeys : ∀ d ∈ keys, Depends compute ext k d := fun d h' => hd d (.here h')
    obtain ⟨⟨⟨ws,ctx1⟩,g1⟩,h1⟩ :=
      ctxGetAll_answers debug hev hans keys hkeys ctx h
    obtain ⟨tr,hask,hl,hz,hs1⟩ := ctxGetAll_ok hev keys h.version h.coherent h1
    obtain ⟨hk1,hm1⟩ := hs1 h.region hkeys h.sound (.inl h.noMissed)
    have hws : ∀ p ∈ keys.zip ws, Scratch compute ext p.1 p.2 := by
      intro p hp
      rw [← hz (hm1.trans hm)] at hp
      obtain ⟨t,ht,rfl⟩ := List.mem_map.mp hp
      exact hk1.1.reads (hask.current t ht)
    simp only [interpret, h1]
    exact ih ws (fun d h' => hd d (.next hl hws h')) ctx1 (hm1.trans hm)
      (h.step hask.frame hask.coherent hk1)

variable [DecidableEq V]

theorem recompute_answers (hev : EvalSpec compute ext version eval)
    (hans : ∀ d, Depends compute ext k d → Answers compute ext S version eval d)
    (previous : Option (Evaluated K V)) {g : Graph K V} (h : Ready compute ext S version g k) :
    ∃ a, recompute debug eval compute ext k previous version g = some a := by
  obtain ⟨⟨⟨o,ctx⟩,g1⟩,h1⟩ := interpret_answers debug hev hans (compute k) (fun _ hd => hd)
    ⟨[],false⟩ rfl h
  simp only [recompute, h1]
  exact ⟨_,rfl⟩

theorem run_answers (hev : EvalSpec compute ext version eval)
    (hans : ∀ d, Depends compute ext k d → Answers compute ext S version eval d)
    {previous : Option (Evaluated K V)} {dirty : Bool} {g : Graph K V}
    (h : Ready compute ext S version g k) (hst : Started g k previous dirty) :
    ∃ a, run debug eval compute ext k previous dirty version g = some a := by
  cases previous with
  | none => exact recompute_answers debug hev hans none h
  | some p =>
    cases dirty with
    | true => exact recompute_answers debug hev hans (some p) h
    | false =>
      have hf0 := mark_frame g k
      have hst0 := hst.frame hf0
      have h0 : Ready compute ext S version (mark g k) k :=
        h.step hf0 (h.coherent.congr rfl (fun _ => rfl) (fun _ => rfl) rfl)
          ⟨⟨h.sound.current,h.sound.waits⟩,id⟩
      have hvf := hst0.verifying (mark_recorded hst h.region.mem (.inl h.noMissed))
      obtain ⟨⟨r,g1⟩,h1⟩ := verify_answers debug hev hans p.deps [] h0 hvf
      obtain ⟨hc1,hf1,h2⟩ := verify_ok hev p.deps [] h0.version h0.coherent h1
      obtain ⟨hk1,b,rfl⟩ := (h2 hvf).2 h0.region h0.sound (.inl h0.noMissed)
      rw [run, ← mark]
      cases b with
      | true =>
        simp only [h1]
        exact ⟨_,rfl⟩
      | false =>
        simp only [h1]
        exact recompute_answers debug hev hans (some p) (h0.step hf1 hc1 hk1)

end Loops

section Evaluate
variable (debug : K → String) {version : ℕ} {k : K}

theorem Startable.ready {g : Graph K V} {previous : Option (Evaluated K V)} {dirty : Bool}
    (hst : Startable version g k previous dirty) (h : Ready compute ext S version g k) :
    Ready compute ext S version (start g k previous dirty) k := by
  refine ⟨h.version,?_,?_,h.region,
    fun n hS hn => (start_record hst n).2.trans (h.noMissed n hS hn),?_⟩
  · exact h.coherent.congr rfl (fun n => (start_record hst n).1) (fun n => (start_record hst n).2) rfl
  · exact h.sound.congr rfl (fun n => (start_record hst n).1) rfl fun _ _ hab => hab
  · rintro n ⟨p,d,di,hr⟩
    rw [start, set_nodes] at hr
    split at hr
    · next hn => exact hn ▸ .refl
    · exact h.chain n ⟨p,d,di,hr⟩

variable [DecidableEq V]

theorem evaluate_step {fuel : ℕ}
    (hans : ∀ d, Depends compute ext k d →
      Answers compute ext S version (evaluate debug compute ext version fuel) d) :
    Answers compute ext S version (evaluate debug compute ext version (fuel+1)) k := by
  intro g h hidle ⟨⟨state,dirty⟩,hn⟩
  have hgo : ∀ previous, Startable version g k previous dirty → ∃ a,
      run debug (evaluate debug compute ext version fuel) compute ext k previous dirty version
        (g.set k ⟨.running previous dirty,false⟩) = some a := fun previous hst =>
    run_answers debug (evaluate_ok fuel) hans (hst.ready h) (hst.started h.version h.coherent)
  simp only [evaluate, hn]
  cases state with
  | running p d => exact absurd ⟨p,d,dirty,hn⟩ hidle
  | empty =>
    obtain ⟨⟨r,g1⟩,h1⟩ := hgo none (.inl ⟨hn,rfl⟩)
    simp only [h1]
    exact ⟨_,rfl⟩
  | done e =>
    by_cases hc : version ≤ e.verifiedAt ∧ dirty = false
    · simp only [if_pos hc]
      exact ⟨_,rfl⟩
    · obtain ⟨⟨r,g1⟩,h1⟩ := hgo (some e) (.inr ⟨e,hn,rfl,fun hle => by simpa [hle] using hc⟩)
      simp only [if_neg hc, h1]
      exact ⟨_,rfl⟩

/-- Enough fuel for a key is one more than enough for each of the finitely
many keys it depends on. -/
theorem evaluate_answers {o : Outcome V}
    (hs : Scratch compute ext k o) : ∃ N, ∀ fuel, N ≤ fuel →
      ∀ version, Answers compute ext S version (evaluate debug compute ext version fuel) k := by
  have hacc := scratch_acc hs
  induction hacc generalizing o with
  | intro k _ ih =>
    have hex : ∀ d : K, ∃ N, Depends compute ext k d → ∀ fuel, N ≤ fuel → ∀ version,
        Answers compute ext S version (evaluate debug compute ext version fuel) d := by
      intro d
      by_cases hd : Depends compute ext k d
      · obtain ⟨w,hw⟩ := scratch_depends hs hd
        obtain ⟨N,hN⟩ := ih d hd hw
        exact ⟨N,fun _ => hN⟩
      · exact ⟨0,fun h => absurd h hd⟩
    choose N hN using hex
    obtain ⟨M,hM⟩ := ((evals_finite hs).image N).bddAbove
    refine ⟨M+1,fun fuel hf version => ?_⟩
    obtain ⟨fuel,rfl⟩ : ∃ f, fuel = f+1 := ⟨fuel-1,by omega⟩
    refine evaluate_step debug fun d hd => hN d hd fuel ?_ version
    have hle := hM ⟨d,hd,rfl⟩
    omega

end Evaluate

end BuildFiji.Engine.Memo
