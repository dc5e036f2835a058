import BuildFiji.Engine.MemoInvariant

/-!
# Evaluation keeps the memo sound

One spec is carried through the evaluator. Whatever happens, an evaluation
keeps the records coherent and leaves alone what it must. Where moreover the
external state is acyclic, every wait in progress is a dependency, and no
record with an unrecorded read is verified, no wait is refused and what is
verified at the version of the evaluation is the value from scratch.
-/

set_option autoImplicit false
set_option linter.all false

namespace BuildFiji.Engine.Memo

open BuildFiji.Digraph Relation

variable {K V C : Type*} [DecidableEq K] (compute : K → Comp K V C) (ext : K → C)

structure Sound (g : Graph K V) : Prop where
  current : ∀ n e, record g n = some e → e.verifiedAt = g.version →
    g.unrecorded n = false ∧ Scratch compute ext n e.outcome
  waits : ∀ a b, b ∈ adj g.waits a → Depends compute ext a b

/-- A set of keys that holds `k` and, with a key, the keys it depends on. -/
structure Region (S : K → Prop) (k : K) : Prop where
  acyclic : DepAcyclic compute ext
  closed : ∀ a b, S a → Depends compute ext a b → S b
  mem : S k

/-- Every node of the set with an unrecorded read is marked dirty. -/
def NoMissed (S : K → Prop) (g : Graph K V) : Prop :=
  ∀ n, S n → g.unrecorded n = true → stale g n = true

/-- From `g` to `g'` no node with an unrecorded read is verified: either none
was left unmarked at the start, or the end says so. -/
def Clear (S : K → Prop) (g g' : Graph K V) : Prop := NoMissed S g ∨ g'.reverified = false

/-- What an evaluation between two sound graphs has kept. -/
def Kept (S : K → Prop) (g g' : Graph K V) : Prop :=
  Sound compute ext g' ∧ (NoMissed S g → NoMissed S g')

structure EvalOk (g : Graph K V) (k : K) (r : Except String (Evaluated K V)) (g' : Graph K V) :
    Prop where
  coherent : Coherent compute ext g'
  frame : Frame g g'
  done : ∀ e, r = .ok e → record g' k = some e ∧ e.verifiedAt = g.version
  sound : ∀ {S : K → Prop}, Region compute ext S k → Sound compute ext g → Clear S g g' →
    Kept compute ext S g g' ∧ ∃ e, r = .ok e

def EvalSpec (version : ℕ) (eval : Graph K V → K → Answer K V) : Prop :=
  ∀ g k r g', g.version = version → Coherent compute ext g → eval g k = some (r,g') →
    EvalOk compute ext g k r g'

/-- What a piece of a computation has added to what was asked for. -/
structure Asked (g g' : Graph K V) (ctx ctx' : Ctx K) (tr : List (Read K V)) : Prop where
  coherent : Coherent compute ext g'
  frame : Frame g g'
  deps : ctx'.deps = ctx.deps ++ stamps tr
  missed : ctx'.missed = false → ctx.missed = false
  current : ∀ t ∈ tr, Current g' t

variable {compute ext} {S : K → Prop}

theorem Clear.left {g g' g'' : Graph K V} (h : Clear S g g'') (hf : Frame g' g'') : Clear S g g' :=
  h.imp id hf.reverified

theorem Clear.right {g g' g'' : Graph K V} (h : Clear S g g'') (hk : Kept compute ext S g g') :
    Clear S g' g'' := h.imp hk.2 id

theorem Kept.trans {g g' g'' : Graph K V} (h : Kept compute ext S g g')
    (h' : Kept compute ext S g' g'') : Kept compute ext S g g'' := ⟨h'.1,fun hm => h'.2 (h.2 hm)⟩

theorem Sound.congr {g g' : Graph K V} (h : Sound compute ext g) (hv : g'.version = g.version)
    (hr : ∀ n, record g' n = record g n) (hu : g'.unrecorded = g.unrecorded)
    (hw : ∀ a b, b ∈ adj g'.waits a → b ∈ adj g.waits a) : Sound compute ext g' := by
  refine ⟨fun n e he hve => ?_,fun a b hab => h.waits a b (hw a b hab)⟩
  rw [hr] at he
  rw [hu]
  exact h.current n e he (hve.trans hv)

theorem Sound.reads {g : Graph K V} (h : Sound compute ext g) {t : Read K V} (ht : Current g t) :
    Scratch compute ext t.1 t.2.2 := by
  obtain ⟨e,he,hv,-,ho⟩ := ht
  exact ho ▸ (h.current t.1 e he hv).2

theorem Sound.wait {g : Graph K V} (h : Sound compute ext g) {k d : K}
    (hd : Depends compute ext k d) : Sound compute ext { g with waits := pushWait g.waits k d } := by
  refine ⟨h.current,fun a b hab => ?_⟩
  rw [adj_pushWait] at hab
  rcases (insertEdge_edge (adj g.waits) k d a b).mp hab with hab | ⟨rfl,rfl⟩
  · exact h.waits a b hab
  · exact hd

theorem Sound.node {g : Graph K V} (h : Sound compute ext g) (d : K) :
    Sound compute ext (g.node d) := by
  refine h.congr (frame_node g d).version (node_record g d) (node_unrecorded g d) ?_
  rw [node_waits]
  exact fun _ _ hab => hab

theorem Kept.node {g : Graph K V} (h : Sound compute ext g) (d : K) :
    Kept compute ext S g (g.node d) := by
  refine ⟨h.node d,fun hm n hS hn => ?_⟩
  rw [node_unrecorded] at hn
  rw [node_stale]
  exact hm n hS hn

omit [DecidableEq K] in
theorem Region.dep {k d : K} (h : Region compute ext S k) (hd : Depends compute ext k d) :
    Region compute ext S d := ⟨h.acyclic,h.closed,h.closed k d h.mem hd⟩

/-- With the waits in progress all dependencies, a wait for a dependency is
never refused. -/
theorem Sound.not_refused (ha : DepAcyclic compute ext) {g : Graph K V}
    (h : Sound compute ext g) (debug : K → String) {k d : K} (hd : Depends compute ext k d) :
    waitOn debug g.waits k d = .ok (pushWait g.waits k d) := by
  refine (waitOn_ok debug g.waits _ k d).mpr ⟨fun hp => ?_,rfl⟩
  exact ha k (.head' hd (ReflTransGen.mono h.waits _ _ hp))

theorem unwait_kept {g g' : Graph K V} {k d : K} (hf : Frame g (g'.unwait k d))
    (hs : Sound compute ext g) (h : Kept compute ext S g g') : Kept compute ext S g (g'.unwait k d) := by
  refine ⟨⟨h.1.current,fun a b hab => hs.waits a b ?_⟩,h.2⟩
  have hc := List.count_pos_iff.mpr hab
  rw [hf.waits] at hc
  exact List.count_pos_iff.mp hc

section Loops
variable {debug : K → String} {eval : Graph K V → K → Answer K V} {version : ℕ}

/-- A wait, the evaluation it is for, and the end of the wait. -/
theorem asked (hev : EvalSpec compute ext version eval) {g g' : Graph K V} {k d : K} {w : Waits K}
    {r : Except String (Evaluated K V)} (hv : g.version = version) (hc : Coherent compute ext g)
    (hw : waitOn debug g.waits k d = .ok w) (h : eval { g with waits := w } d = some (r,g')) :
    Coherent compute ext (g'.unwait k d) ∧ Frame g (g'.unwait k d) ∧
    (∀ e, r = .ok e → record (g'.unwait k d) d = some e ∧ e.verifiedAt = g.version) ∧
    (∀ {S : K → Prop}, Region compute ext S k → Depends compute ext k d → Sound compute ext g →
      Clear S g (g'.unwait k d) → Kept compute ext S g (g'.unwait k d) ∧ ∃ e, r = .ok e) := by
  have ho : EvalOk compute ext { g with waits := w } d r g' := hev _ d r g' hv (hc.waits w) h
  have hf := frame_wait hw ho.frame
  refine ⟨ho.coherent.waits _,hf,ho.done,fun ha hd hs hcl => ?_⟩
  obtain ⟨-,rfl⟩ := (waitOn_ok debug g.waits w k d).mp hw
  obtain ⟨hk,hr⟩ := ho.sound (ha.dep hd) (hs.wait hd) hcl
  exact ⟨unwait_kept hf hs hk,hr⟩

/-- What makes the next dependency of a record a dependency from scratch: the
record lists all its reads, and those before it have been verified. -/
structure Verifying (g : Graph K V) (k : K) (pre rest : List (K × ℕ)) : Prop where
  running : Running g k
  stale : stale g k = false
  recorded : g.unrecorded k = false
  deps : ∃ p, record g k = some p ∧ p.deps = pre ++ rest
  observed : ∀ q ∈ pre, Observed g q

theorem Verifying.step {g g' : Graph K V} {k : K} {pre rest : List (K × ℕ)} {q : K × ℕ}
    (h : Verifying g k pre (q::rest)) (hf : Frame g g') (hq : Observed g' q) :
    Verifying g' k (pre++[q]) rest := by
  obtain ⟨p,hp,hd⟩ := h.deps
  refine ⟨(hf.running_iff k).mpr h.running,(hf.stale_running h.running).trans h.stale,
    (hf.running k h.running).2.trans h.recorded,
    ⟨p,(hf.record_running h.running).trans hp,by simp [hd]⟩,fun x hx => ?_⟩
  rcases List.mem_append.mp hx with hx | hx
  · exact hf.observed (h.observed x hx)
  · exact (List.mem_singleton.mp hx) ▸ hq

omit [DecidableEq K] in
/-- The reads of a record under verification, with the verified ones current. -/
theorem Verifying.reads {g : Graph K V} {k : K} {pre rest : List (K × ℕ)}
    (h : Verifying g k pre rest) (hc : Coherent compute ext g) :
    ∃ p tr tr', record g k = some p ∧ pre = stamps tr ∧ rest = stamps tr' ∧
      Replay (ext k) (compute k) (values (tr++tr')) p.outcome ∧ ∀ t ∈ tr, Current g t := by
  obtain ⟨p,hp,hd⟩ := h.deps
  obtain ⟨own,full,ht,hre,hown,ho⟩ := hc.replay k p hp h.recorded
  obtain ⟨tr,tr',rfl,h1,h2⟩ := List.map_eq_append_iff.mp (ht.symm.trans hd)
  have hown' : own = ext k := by simpa [h.stale] using hown
  refine ⟨p,tr,tr',hp,h1.symm,h2.symm,hown' ▸ hre,fun t htr => ?_⟩
  have hq : (t.1,t.2.1) ∈ pre := h1 ▸ List.mem_map_of_mem htr
  obtain ⟨e,he,hve,hle⟩ := h.observed _ hq
  obtain ⟨e',he',hge⟩ := hc.deps k p hp (t.1,t.2.1) (hd ▸ List.mem_append_left _ hq)
  obtain rfl : e = e' := Option.some.inj (he.symm.trans he')
  have heq : e.changedAt = t.2.1 := le_antisymm hle hge
  exact ⟨e,he,hve,heq,ho t (List.mem_append_left _ htr) e he heq⟩

theorem Verifying.depends {g : Graph K V} {k d : K} {c : ℕ} {pre rest : List (K × ℕ)}
    (h : Verifying g k pre ((d,c)::rest)) (hc : Coherent compute ext g)
    (hs : Sound compute ext g) : Depends compute ext k d := by
  obtain ⟨p,tr,tr',-,-,ht',hre,hcur⟩ := h.reads hc
  obtain ⟨t,tr'',rfl,htd,-⟩ := List.map_eq_cons_iff.mp ht'.symm
  obtain rfl : t.1 = d := congrArg Prod.fst htd
  have hsplit : values (tr ++ t::tr'') = values tr ++ (t.1,t.2.2)::values tr'' := by simp [values]
  refine replay_reads hre hsplit fun q hq => ?_
  obtain ⟨t',ht,rfl⟩ := List.mem_map.mp hq
  exact hs.reads (hcur t' ht)

theorem verify_ok (hev : EvalSpec compute ext version eval) {k : K} (rest : List (K × ℕ))
    (pre : List (K × ℕ)) {g g' : Graph K V} {r : Except String Bool} (hv : g.version = version)
    (hc : Coherent compute ext g) (h : verify debug eval k rest g = some (r,g')) :
    Coherent compute ext g' ∧ Frame g g' ∧
    (Verifying g k pre rest → (r = .ok true → Verifying g' k (pre++rest) []) ∧
      (∀ {S : K → Prop}, Region compute ext S k → Sound compute ext g → Clear S g g' →
        Kept compute ext S g g' ∧ ∃ b, r = .ok b)) := by
  induction rest generalizing pre g with
  | nil =>
    obtain ⟨rfl,rfl⟩ := Prod.mk.inj (Option.some.inj h)
    exact ⟨hc,.refl g,fun hvf => ⟨fun _ => by simpa using hvf,fun _ hs _ => ⟨⟨hs,id⟩,true,rfl⟩⟩⟩
  | cons q rest ih =>
    obtain ⟨d,c⟩ := q
    rw [verify] at h
    cases hw : waitOn debug g.waits k d with
    | error text =>
      simp only [hw] at h
      obtain ⟨rfl,rfl⟩ := Prod.mk.inj (Option.some.inj h)
      refine ⟨hc,.refl g,fun hvf => ⟨by simp,fun ha hs _ => ?_⟩⟩
      rw [hs.not_refused ha.acyclic debug (hvf.depends hc hs)] at hw
      cases hw
    | ok w =>
      simp only [hw] at h
      cases hr : eval { g with waits := w } d with
      | none => simp [hr] at h
      | some a =>
        obtain ⟨r1,g1⟩ := a
        obtain ⟨hc1,hf1,hd1,hs1⟩ := asked hev hv hc hw hr
        simp only [hr] at h
        cases r1 with
        | error text =>
          obtain ⟨rfl,rfl⟩ := Prod.mk.inj (Option.some.inj h)
          refine ⟨hc1,hf1,fun hvf => ⟨by simp,fun ha hs hcl => ?_⟩⟩
          obtain ⟨hk,e,he⟩ := hs1 ha (hvf.depends hc hs) hs hcl
          cases he
        | ok e =>
          simp only at h
          split at h
          · next hle =>
            obtain ⟨hc2,hf2,h2⟩ := ih (pre++[(d,c)]) (hf1.version.trans hv) hc1 h
            refine ⟨hc2,hf1.trans hf2,fun hvf => ?_⟩
            obtain ⟨hre,hve⟩ := hd1 e rfl
            obtain ⟨ht2,hs2⟩ := h2 (hvf.step hf1 ⟨e,hre,hve.trans hf1.version.symm,hle⟩)
            refine ⟨fun ht => by simpa using ht2 ht,fun ha hs hcl => ?_⟩
            obtain ⟨hk1,-⟩ := hs1 ha (hvf.depends hc hs) hs (hcl.left hf2)
            obtain ⟨hk2,hb⟩ := hs2 ha hk1.1 (hcl.right hk1)
            exact ⟨hk1.trans hk2,hb⟩
          · obtain ⟨rfl,rfl⟩ := Prod.mk.inj (Option.some.inj h)
            refine ⟨hc1,hf1,fun hvf => ⟨by simp,fun ha hs hcl => ?_⟩⟩
            obtain ⟨hk1,-⟩ := hs1 ha (hvf.depends hc hs) hs hcl
            exact ⟨hk1,false,rfl⟩

theorem ctxGet_ok (hev : EvalSpec compute ext version eval) {k d : K} {g g' : Graph K V}
    {ctx ctx' : Ctx K} {o : Outcome V} (hv : g.version = version) (hc : Coherent compute ext g)
    (h : ctxGet debug eval k d ctx g = some ((o,ctx'),g')) :
    ∃ tr, Asked compute ext g g' ctx ctx' tr ∧ (ctx'.missed = false → values tr = [(d,o)]) ∧
    (∀ {S : K → Prop}, Region compute ext S k → Depends compute ext k d → Sound compute ext g → Clear S g g' →
      Kept compute ext S g g' ∧ ctx'.missed = ctx.missed) := by
  have hfn := frame_node g d
  have hcn := hc.node d
  have hvn : (g.node d).version = version := hfn.version.trans hv
  simp only [ctxGet] at h
  cases hw : waitOn debug (g.node d).waits k d with
  | error text =>
    simp only [hw] at h
    obtain ⟨h1,rfl⟩ := Prod.mk.inj (Option.some.inj h)
    obtain ⟨rfl,rfl⟩ := Prod.mk.inj h1
    refine ⟨[],⟨hcn,hfn,by simp [stamps],by simp,by simp⟩,by simp,fun ha hd hs _ => ?_⟩
    rw [(hs.node d).not_refused ha.acyclic debug hd] at hw
    cases hw
  | ok w =>
    simp only [hw] at h
    cases hr : eval { g.node d with waits := w } d with
    | none => simp [hr] at h
    | some a =>
      obtain ⟨r1,g1⟩ := a
      obtain ⟨hc1,hf1,hd1,hs1⟩ := asked hev hvn hcn hw hr
      have hs2 : ∀ {S : K → Prop}, Region compute ext S k → Depends compute ext k d → Sound compute ext g →
          Clear S g (g1.unwait k d) → Kept compute ext S g (g1.unwait k d) ∧ ∃ e, r1 = .ok e := by
        intro S ha hd hs hcl
        obtain ⟨hk,he⟩ := hs1 ha hd (hs.node d) (hcl.right (.node hs d))
        exact ⟨.trans (.node hs d) hk,he⟩
      simp only [hr] at h
      cases r1 with
      | error text =>
        obtain ⟨h1,rfl⟩ := Prod.mk.inj (Option.some.inj h)
        obtain ⟨rfl,rfl⟩ := Prod.mk.inj h1
        refine ⟨[],⟨hc1,hfn.trans hf1,by simp [stamps],by simp,by simp⟩,by simp,
          fun ha hd hs hcl => ?_⟩
        obtain ⟨-,e,he⟩ := hs2 ha hd hs hcl
        cases he
      | ok e =>
        obtain ⟨h1,rfl⟩ := Prod.mk.inj (Option.some.inj h)
        obtain ⟨rfl,rfl⟩ := Prod.mk.inj h1
        obtain ⟨hre,hve⟩ := hd1 e rfl
        refine ⟨[(d,e.changedAt,e.outcome)],⟨hc1,hfn.trans hf1,rfl,id,?_⟩,fun _ => rfl,
          fun ha hd hs hcl => ⟨(hs2 ha hd hs hcl).1,rfl⟩⟩
        simpa using ⟨e,hre,hve.trans hf1.version.symm,rfl,rfl⟩

theorem Asked.trans {g g' g'' : Graph K V} {ctx ctx' ctx'' : Ctx K} {tr tr' : List (Read K V)}
    (h : Asked compute ext g g' ctx ctx' tr) (h' : Asked compute ext g' g'' ctx' ctx'' tr') :
    Asked compute ext g g'' ctx ctx'' (tr++tr') := by
  refine ⟨h'.coherent,h.frame.trans h'.frame,?_,fun hm => h.missed (h'.missed hm),fun t ht => ?_⟩
  · rw [h'.deps, h.deps, List.append_assoc, stamps, stamps, stamps, List.map_append]
  · rcases List.mem_append.mp ht with ht | ht
    · exact h'.frame.current (h.current t ht)
    · exact h'.current t ht

theorem ctxGetAll_ok (hev : EvalSpec compute ext version eval) {k : K} (keys : List K)
    {g g' : Graph K V} {ctx ctx' : Ctx K} {ws : List (Outcome V)} (hv : g.version = version)
    (hc : Coherent compute ext g) (h : ctxGetAll debug eval k keys ctx g = some ((ws,ctx'),g')) :
    ∃ tr, Asked compute ext g g' ctx ctx' tr ∧ ws.length = keys.length ∧
    (ctx'.missed = false → values tr = keys.zip ws) ∧
    (∀ {S : K → Prop}, Region compute ext S k → (∀ d ∈ keys, Depends compute ext k d) → Sound compute ext g →
      Clear S g g' → Kept compute ext S g g' ∧ ctx'.missed = ctx.missed) := by
  induction keys generalizing g ctx ws with
  | nil =>
    obtain ⟨h1,rfl⟩ := Prod.mk.inj (Option.some.inj h)
    obtain ⟨rfl,rfl⟩ := Prod.mk.inj h1
    exact ⟨[],⟨hc,.refl g,by simp [stamps],id,by simp⟩,rfl,fun _ => rfl,
      fun _ _ hs _ => ⟨⟨hs,id⟩,rfl⟩⟩
  | cons d ds ih =>
    rw [ctxGetAll] at h
    cases h1 : ctxGet debug eval k d ctx g with
    | none => simp [h1] at h
    | some a =>
      obtain ⟨⟨o,ctx1⟩,g1⟩ := a
      obtain ⟨tr1,ha1,hz1,hs1⟩ := ctxGet_ok hev hv hc h1
      simp only [h1] at h
      cases h2 : ctxGetAll debug eval k ds ctx1 g1 with
      | none => simp [h2] at h
      | some b =>
        obtain ⟨⟨ws',ctx2⟩,g2⟩ := b
        simp only [h2] at h
        obtain ⟨h3,rfl⟩ := Prod.mk.inj (Option.some.inj h)
        obtain ⟨rfl,rfl⟩ := Prod.mk.inj h3
        obtain ⟨tr2,ha2,hl2,hz2,hs2⟩ := ih (ha1.frame.version.trans hv) ha1.coherent h2
        refine ⟨tr1++tr2,ha1.trans ha2,by simp [hl2],fun hm => ?_,fun ha hd hs hcl => ?_⟩
        · have hz := hz1 (ha2.missed hm)
          have hz' := hz2 hm
          simp only [values, List.map_append, List.zip_cons_cons] at hz hz' ⊢
          rw [hz, hz', List.singleton_append]
        · obtain ⟨hk1,hm1⟩ := hs1 ha (hd d (by simp)) hs (hcl.left ha2.frame)
          obtain ⟨hk2,hm2⟩ := hs2 ha (fun x hx => hd x (by simp [hx])) hk1.1 (hcl.right hk1)
          exact ⟨hk1.trans hk2,hm2.trans hm1⟩

theorem interpret_ok (hev : EvalSpec compute ext version eval) {k : K} (c : Comp K V C)
    {g g' : Graph K V} {ctx ctx' : Ctx K} {o : Outcome V} (hv : g.version = version)
    (hc : Coherent compute ext g) (h : interpret debug eval ext k c ctx g = some ((o,ctx'),g')) :
    ∃ tr, Asked compute ext g g' ctx ctx' tr ∧
    (ctx'.missed = false → Replay (ext k) c (values tr) o) ∧
    (∀ {S : K → Prop}, Region compute ext S k → (∀ d, Reads compute ext k c d → Depends compute ext k d) →
      Sound compute ext g → Clear S g g' → ctx.missed = false →
      Kept compute ext S g g' ∧ ctx'.missed = false) := by
  induction c generalizing g ctx with
  | ret o' =>
    obtain ⟨h1,rfl⟩ := Prod.mk.inj (Option.some.inj h)
    obtain ⟨rfl,rfl⟩ := Prod.mk.inj h1
    exact ⟨[],⟨hc,.refl g,by simp [stamps],id,by simp⟩,fun _ => .ret _,
      fun _ _ hs _ hm => ⟨⟨hs,id⟩,hm⟩⟩
  | cell cont ih =>
    obtain ⟨tr,ha,hr,hs⟩ := ih (ext k) hv hc h
    exact ⟨tr,ha,fun hm => .cell (hr hm),fun hac hd => hs hac fun d h' => hd d (.cell h')⟩
  | get keys cont ih =>
    rw [interpret] at h
    cases h1 : ctxGetAll debug eval k keys ctx g with
    | none => simp [h1] at h
    | some a =>
      obtain ⟨⟨ws,ctx1⟩,g1⟩ := a
      simp only [h1] at h
      obtain ⟨tr1,ha1,hl1,hz1,hs1⟩ := ctxGetAll_ok hev keys hv hc h1
      obtain ⟨tr2,ha2,hr2,hs2⟩ := ih ws (ha1.frame.version.trans hv) ha1.coherent h
      refine ⟨tr1++tr2,ha1.trans ha2,fun hm => ?_,fun hac hd hs hcl hm => ?_⟩
      · have hz := hz1 (ha2.missed hm)
        rw [values, List.map_append]
        rw [values] at hz
        rw [hz]
        exact .get hl1 (hr2 hm)
      · obtain ⟨hk1,hm1⟩ := hs1 hac (fun d hd' => hd d (.here hd')) hs (hcl.left ha2.frame)
        have hm1' := hm1.trans hm
        have hws : ∀ p ∈ keys.zip ws, Scratch compute ext p.1 p.2 := by
          intro p hp
          rw [← hz1 hm1'] at hp
          obtain ⟨t,ht,rfl⟩ := List.mem_map.mp hp
          exact hk1.1.reads (ha1.current t ht)
        obtain ⟨hk2,hm2⟩ := hs2 hac (fun d h' => hd d (.next hl1 hws h')) hk1.1 (hcl.right hk1) hm1'
        exact ⟨hk1.trans hk2,hm2⟩

theorem Kept.finish {g : Graph K V} {k : K} {e : Evaluated K V} (hs : Sound compute ext g)
    (ho : Scratch compute ext k e.outcome) : Kept compute ext S g (finish g k e false) := by
  refine ⟨⟨fun n e' he hv => ?_,hs.waits⟩,fun hm n hS hn => ?_⟩
  · rw [finish_unrecorded]
    rw [finish_record] at he
    split at he
    · next hn =>
      obtain rfl := Option.some.inj he
      simpa [hn] using ho
    · next hn => simpa [hn] using hs.current n e' he hv
  · rw [finish_unrecorded] at hn
    rw [finish_stale]
    split at hn
    · cases hn
    · next hne =>
      rw [if_neg hne]
      exact hm n hS hn

theorem Sound.replay {g : Graph K V} {k : K} {tr : List (Read K V)} {o : Outcome V}
    (hs : Sound compute ext g) (hr : Replay (ext k) (compute k) (values tr) o)
    (ht : ∀ t ∈ tr, Current g t) : Scratch compute ext k o := by
  refine replay_evals hr fun q hq => ?_
  obtain ⟨t,htr,rfl⟩ := List.mem_map.mp hq
  exact hs.reads (ht t htr)

variable [DecidableEq V]

omit [DecidableEq K] in
theorem computed_supersedes {previous : Option (Evaluated K V)} {version : ℕ}
    (hold : ∀ p, previous = some p → p.changedAt < version) (o : Outcome V)
    (deps : List (K × ℕ)) : Supersedes previous (Evaluated.computed previous version o deps) := by
  rintro p rfl
  have hlt := hold p rfl
  by_cases ho : p.outcome = o
  · simp [Evaluated.computed, ho]
  · simp only [Evaluated.computed, if_neg ho]
    exact ⟨hlt.le,fun h => by omega⟩

omit [DecidableEq K] in
theorem computed_changedAt {previous : Option (Evaluated K V)} {version : ℕ}
    (hold : ∀ p, previous = some p → p.changedAt < version) (o : Outcome V)
    (deps : List (K × ℕ)) : (Evaluated.computed previous version o deps).changedAt ≤ version := by
  cases previous with
  | none => exact le_refl _
  | some p =>
    have hlt := hold p rfl
    simp only [Evaluated.computed]
    split_ifs
    · exact hlt.le
    · exact le_refl _

/-- How a run ends: refused, with nothing put in place, or with a record. -/
def Ended (g : Graph K V) (k : K) (r : Except String (Evaluated K V)) (g2 : Graph K V) : Prop :=
  ∃ g', Frame g g' ∧ ((∃ text, r = .error text) ∧ g2 = g' ∨
    ∃ e missed, r = .ok e ∧ g2 = finish g' k e missed ∧ e.verifiedAt = g.version)

/-- A running node together with what it was started from. -/
structure Started (g : Graph K V) (k : K) (previous : Option (Evaluated K V)) (dirty : Bool) : Prop where
  node : g.nodes k = some ⟨.running previous dirty,false⟩
  old : ∀ p, previous = some p → p.verifiedAt < g.version

omit [DecidableEq K] [DecidableEq V] in
theorem Started.record {g : Graph K V} {k : K} {previous : Option (Evaluated K V)} {dirty : Bool}
    (h : Started g k previous dirty) : record g k = previous := by
  simp [Memo.record, h.node, Node.record]

omit [DecidableEq V] in
theorem Started.frame {g g' : Graph K V} {k : K} {previous : Option (Evaluated K V)} {dirty : Bool}
    (h : Started g k previous dirty) (hf : Frame g g') : Started g' k previous dirty := by
  refine ⟨?_,fun p hp => hf.version ▸ h.old p hp⟩
  rw [(hf.running k ⟨_,_,_,h.node⟩).1, h.node]

omit [DecidableEq V] in
theorem Started.publish {g : Graph K V} {k : K} {previous : Option (Evaluated K V)} {dirty : Bool}
    (h : Started g k previous dirty) (e : Evaluated K V) :
    publish g k e = g.set k ⟨.done e,false⟩ := by
  simp [Memo.publish, h.node]

theorem recompute_ok (hev : EvalSpec compute ext version eval) {k : K} {g g2 : Graph K V}
    {previous : Option (Evaluated K V)} {dirty : Bool} {r : Except String (Evaluated K V)}
    (hv : g.version = version) (hc : Coherent compute ext g) (hst : Started g k previous dirty)
    (h : recompute debug eval compute ext k previous version g = some (r,g2)) :
    Coherent compute ext g2 ∧ Ended g k r g2 ∧
    (∀ {S : K → Prop}, Region compute ext S k → Sound compute ext g → Clear S g g2 →
      Kept compute ext S g g2 ∧ ∃ e, r = .ok e) := by
  rw [recompute] at h
  cases h1 : interpret debug eval ext k (compute k) ⟨[],false⟩ g with
  | none => simp [h1] at h
  | some a =>
    obtain ⟨⟨o,ctx⟩,g1⟩ := a
    obtain ⟨tr,ha,hre,hs⟩ := interpret_ok hev (compute k) hv hc h1
    have hst1 := hst.frame ha.frame
    simp only [h1, hst1.publish] at h
    obtain ⟨rfl,rfl⟩ := Prod.mk.inj (Option.some.inj h)
    have hdeps : ctx.deps = stamps tr := ha.deps.trans (List.nil_append _)
    have hold : ∀ p, previous = some p → p.changedAt < version := by
      intro p hp
      have hrec : record g k = some p := hst.record.trans hp
      exact hv ▸ lt_of_le_of_lt (hc.fresh k p hrec).1 (hst.old p hp)
    have hcur : ∀ t ∈ tr, ∀ e', record g1 t.1 = some e' → e'.changedAt = t.2.1 →
        e'.outcome = t.2.2 := by
      intro t ht e' he' _
      obtain ⟨e,he,-,-,ho⟩ := ha.current t ht
      obtain rfl : e = e' := Option.some.inj (he.symm.trans he')
      exact ho
    refine ⟨ha.coherent.finish ?_ (computed_changedAt hold o _) ?_ ?_ ?_,
      ⟨g1,ha.frame,.inr ⟨_,ctx.missed,rfl,rfl,hv.symm⟩⟩,fun hac hsd hcl => ?_⟩
    · rw [hst1.record]
      exact computed_supersedes hold o _
    · exact (ha.frame.version.trans hv).symm
    · intro q hq
      obtain ⟨t,ht,rfl⟩ := List.mem_map.mp (hdeps ▸ hq)
      obtain ⟨e,he,-,hce,-⟩ := ha.current t ht
      exact ⟨e,he,hce.ge⟩
    · exact fun hm => ⟨tr,hdeps,hre hm,hcur⟩
    · obtain ⟨hk,hm⟩ := hs hac (fun d hd => hd) hsd hcl rfl
      refine ⟨hk.trans ?_,_,rfl⟩
      rw [hm]
      exact .finish hk.1 (hk.1.replay (hre hm) ha.current)

omit [DecidableEq K] [DecidableEq V] in
theorem Started.verifying {g : Graph K V} {k : K} {p : Evaluated K V}
    (h : Started g k (some p) false) (hu : g.unrecorded k = false) : Verifying g k [] p.deps :=
  ⟨⟨_,_,_,h.node⟩,by simp [stale, h.node, Node.stale],hu,⟨p,h.record,rfl⟩,by simp⟩

omit [DecidableEq V] in
theorem verified_ok (hev : EvalSpec compute ext version eval) {k : K} {g g1 : Graph K V}
    {p : Evaluated K V} (hv : g.version = version) (hc : Coherent compute ext g)
    (hst : Started g k (some p) false)
    (h : verify debug eval k p.deps g = some (.ok true,g1)) :
    Coherent compute ext (finish g1 k (p.kept version) (g1.unrecorded k)) ∧
    (∀ {S : K → Prop}, Region compute ext S k → Sound compute ext g → g.unrecorded k = false → Clear S g g1 →
      Kept compute ext S g (finish g1 k (p.kept version) (g1.unrecorded k))) := by
  obtain ⟨hc1,hf1,h2⟩ := verify_ok hev p.deps [] hv hc h
  have hst1 := hst.frame hf1
  have hrec : record g1 k = some p := hst1.record
  have hfresh := hc1.fresh k p hrec
  have hu1 : g1.unrecorded k = g.unrecorded k := (hf1.running k ⟨_,_,_,hst.node⟩).2
  refine ⟨hc1.finish ?_ ?_ (hf1.version.trans hv).symm (hc1.deps k p hrec) fun hm => ?_,
    fun ha hs hu hcl => ?_⟩
  · intro p' hp'
    obtain rfl : p = p' := Option.some.inj (hrec.symm.trans hp')
    exact ⟨le_refl _,fun _ => rfl⟩
  · exact hfresh.1.trans (hfresh.2.1.trans_eq (hf1.version.trans hv))
  · obtain ⟨own,tr,ht,hre,hown,ho⟩ := hc1.replay k p hrec hm
    have hown' : own = ext k := by simpa [(hst1.verifying hm).stale] using hown
    exact ⟨tr,ht,hown' ▸ hre,ho⟩
  · obtain ⟨hverified,hsound⟩ := h2 (hst.verifying hu)
    obtain ⟨hk,-⟩ := hsound ha hs hcl
    obtain ⟨p',tr,tr',hp',-,ht',hre,hcur⟩ := (hverified rfl).reads hc1
    obtain rfl : p = p' := Option.some.inj (hrec.symm.trans hp')
    obtain rfl : tr' = [] := List.map_eq_nil_iff.mp ht'.symm
    rw [List.append_nil] at hre
    rw [hu1, hu]
    exact hk.trans (.finish hk.1 (hk.1.replay hre hcur))

omit [DecidableEq V] in
theorem Ended.frame {g g' g2 : Graph K V} {k : K} {r : Except String (Evaluated K V)}
    (hf : Frame g g') (h : Ended g' k r g2) : Ended g k r g2 := by
  obtain ⟨g1,hf1,h⟩ := h
  exact ⟨g1,hf.trans hf1,by rwa [hf.version] at h⟩

omit [DecidableEq V] in
theorem Ended.clear {g g' g2 : Graph K V} {k : K} {r : Except String (Evaluated K V)}
    (h : Ended g' k r g2) (hcl : Clear S g g2) : Clear S g g' := by
  obtain ⟨g1,hf1,⟨-,rfl⟩ | ⟨e,m,-,rfl,-⟩⟩ := h
  · exact hcl.left hf1
  · have hcl1 : Clear S g g1 := hcl
    exact hcl1.left hf1

def mark (g : Graph K V) (k : K) : Graph K V :=
  { g with reverified := g.reverified || g.unrecorded k }

omit [DecidableEq V] in
theorem mark_frame (g : Graph K V) (k : K) : Frame g (mark g k) := by
  refine ⟨rfl,fun _ _ => rfl,fun _ _ => ⟨rfl,rfl⟩,fun _ h => h,fun _ _ h _ => ⟨h,rfl⟩,fun h => ?_⟩
  exact (Bool.or_eq_false_iff.mp h).1

omit [DecidableEq K] [DecidableEq V] in
theorem mark_recorded {g : Graph K V} {k : K} {p : Evaluated K V} (h : Started g k (some p) false)
    (hk : S k) (hcl : Clear S g (mark g k)) : (mark g k).unrecorded k = false := by
  rcases hcl with hm | hr
  · refine Bool.eq_false_iff.mpr fun hu => ?_
    have hs := hm k hk hu
    simp [stale, h.node, Node.stale] at hs
  · exact (Bool.or_eq_false_iff.mp hr).2

theorem run_ok (hev : EvalSpec compute ext version eval) {k : K} {g g2 : Graph K V}
    {previous : Option (Evaluated K V)} {dirty : Bool} {r : Except String (Evaluated K V)}
    (hv : g.version = version) (hc : Coherent compute ext g) (hst : Started g k previous dirty)
    (h : run debug eval compute ext k previous dirty version g = some (r,g2)) :
    Coherent compute ext g2 ∧ Ended g k r g2 ∧
    (∀ {S : K → Prop}, Region compute ext S k → Sound compute ext g → Clear S g g2 →
      Kept compute ext S g g2 ∧ ∃ e, r = .ok e) := by
  cases previous with
  | none => exact recompute_ok hev hv hc hst h
  | some p =>
    cases dirty with
    | true => exact recompute_ok hev hv hc hst h
    | false =>
      have hc0 : Coherent compute ext (mark g k) :=
        hc.congr rfl (fun _ => rfl) (fun _ => rfl) rfl
      have hf0 := mark_frame g k
      have hv0 : (mark g k).version = version := hv
      have hs0 : Sound compute ext g → Sound compute ext (mark g k) :=
        fun hs => ⟨hs.current,hs.waits⟩
      have hk0 : ∀ {S : K → Prop}, Sound compute ext g → Kept compute ext S g (mark g k) :=
        fun hs => ⟨hs0 hs,id⟩
      have hst0 := hst.frame hf0
      rw [run, ← mark] at h
      cases h1 : verify debug eval k p.deps (mark g k) with
      | none => simp [h1] at h
      | some a =>
        obtain ⟨r1,g1⟩ := a
        obtain ⟨hc1,hf1,h2⟩ := verify_ok hev p.deps [] hv0 hc0 h1
        have hs1 : ∀ {S : K → Prop}, Region compute ext S k → Sound compute ext g → Clear S g g1 →
            Kept compute ext S g g1 ∧ ∃ b, r1 = .ok b := by
          intro S ha hs hcl
          obtain ⟨hk1,hb⟩ := (h2 (hst0.verifying (mark_recorded hst ha.mem (hcl.left hf1)))).2 ha
            (hs0 hs) (hcl.right (hk0 hs))
          exact ⟨(hk0 hs).trans hk1,hb⟩
        rcases r1 with text | b
        · simp only [h1] at h
          obtain ⟨rfl,rfl⟩ := Prod.mk.inj (Option.some.inj h)
          refine ⟨hc1,⟨g1,hf0.trans hf1,.inl ⟨⟨text,rfl⟩,rfl⟩⟩,fun ha hs hcl => ?_⟩
          obtain ⟨-,b,hb⟩ := hs1 ha hs hcl
          cases hb
        · cases b with
          | true =>
            simp only [h1, (hst0.frame hf1).publish] at h
            obtain ⟨hcf,hsf⟩ := verified_ok hev hv0 hc0 hst0 h1
            have hfin : finish g1 k (p.kept version) (g1.unrecorded k) =
                g1.set k ⟨.done (p.kept version),false⟩ := by
              simp [finish, Graph.set]
            obtain ⟨rfl,rfl⟩ := Prod.mk.inj (Option.some.inj h)
            rw [← hfin]
            have hend : Ended (mark g k) k (.ok (p.kept version))
                (finish g1 k (p.kept version) (g1.unrecorded k)) :=
              ⟨g1,hf1,.inr ⟨_,_,rfl,rfl,hv.symm⟩⟩
            refine ⟨hcf,hend.frame hf0,fun ha hs hcl => ?_⟩
            have hu := mark_recorded hst ha.mem (hend.clear hcl)
            exact ⟨(hk0 hs).trans (hsf ha (hs0 hs) hu (hcl.right (hk0 hs))),_,rfl⟩
          | false =>
            simp only [h1] at h
            obtain ⟨hc2,he2,hs2⟩ := recompute_ok hev (hf1.version.trans hv0) hc1
              (hst0.frame hf1) h
            refine ⟨hc2,he2.frame (hf0.trans hf1),fun ha hs hcl => ?_⟩
            obtain ⟨hk1,-⟩ := hs1 ha hs (he2.clear hcl)
            obtain ⟨hk2,he⟩ := hs2 ha hk1.1 (hcl.right hk1)
            exact ⟨hk1.trans hk2,he⟩

end Loops

section Evaluate
variable [DecidableEq V] {debug : K → String} {version : ℕ}

/-- A node that an evaluation starts, and what it starts it from. -/
def Startable (version : ℕ) (g : Graph K V) (k : K) (previous : Option (Evaluated K V))
    (dirty : Bool) : Prop :=
  (g.nodes k = some ⟨.empty,dirty⟩ ∧ previous = none) ∨
  ∃ e, g.nodes k = some ⟨.done e,dirty⟩ ∧ previous = some e ∧ (version ≤ e.verifiedAt → dirty = true)

theorem evaluate_cases {fuel : ℕ} {g g' : Graph K V} {k : K} {r : Except String (Evaluated K V)}
    (h : evaluate debug compute ext version (fuel+1) g k = some (r,g')) :
    (∃ e, g.nodes k = some ⟨.done e,false⟩ ∧ version ≤ e.verifiedAt ∧ r = .ok e ∧ g' = g) ∨
    ∃ previous dirty g2, Startable version g k previous dirty ∧
      run debug (evaluate debug compute ext version fuel) compute ext k previous dirty version
        (start g k previous dirty) = some (r,g2) ∧ g' = leave g2 k := by
  simp only [evaluate] at h
  split at h
  · cases h
  · cases h
  · next dirty hn =>
    split at h
    · cases h
    · next r2 g2 heq =>
      obtain ⟨rfl,rfl⟩ := Prod.mk.inj (Option.some.inj h)
      exact .inr ⟨none,dirty,g2,.inl ⟨hn,rfl⟩,heq,rfl⟩
  · next e dirty hn =>
    split at h
    · next hc =>
      obtain ⟨rfl,rfl⟩ := Prod.mk.inj (Option.some.inj h)
      exact .inl ⟨e,by rw [hn, hc.2],hc.1,rfl,rfl⟩
    · next hc =>
      split at h
      · cases h
      · next r2 g2 heq =>
        obtain ⟨rfl,rfl⟩ := Prod.mk.inj (Option.some.inj h)
        exact .inr ⟨some e,dirty,g2,.inr ⟨e,hn,rfl,fun hle => by simpa [hle] using hc⟩,heq,rfl⟩

omit [DecidableEq K] [DecidableEq V] in
theorem Startable.record {g : Graph K V} {k : K} {previous : Option (Evaluated K V)} {dirty : Bool}
    (h : Startable version g k previous dirty) : record g k = previous ∧ stale g k = dirty := by
  rcases h with ⟨h,rfl⟩ | ⟨e,h,rfl,-⟩
  · simp [Memo.record, stale, h, Node.record, Node.stale]
  · simp [Memo.record, stale, h, Node.record, Node.stale]

omit [DecidableEq K] [DecidableEq V] in
theorem Startable.idle {g : Graph K V} {k : K} {previous : Option (Evaluated K V)} {dirty : Bool}
    (h : Startable version g k previous dirty) : ¬ Running g k := by
  rintro ⟨p,d,di,hr⟩
  rcases h with ⟨h,-⟩ | ⟨e,h,-,-⟩ <;> simp [h] at hr

omit [DecidableEq V] in
theorem Startable.started {g : Graph K V} {k : K} {previous : Option (Evaluated K V)} {dirty : Bool}
    (h : Startable version g k previous dirty) (hv : g.version = version)
    (hc : Coherent compute ext g) : Started (start g k previous dirty) k previous dirty := by
  refine ⟨by simp [start, set_nodes],fun p hp => ?_⟩
  have hf := hc.fresh k p (h.record.1.trans hp)
  rcases h with ⟨-,rfl⟩ | ⟨e,hn,rfl,hd⟩
  · cases hp
  · obtain rfl := Option.some.inj hp
    by_contra hge
    have hver : version ≤ e.verifiedAt := by rw [← hv]; exact not_lt.mp hge
    have hst : stale g k = true := by simp [stale, hn, Node.stale, hd hver]
    exact hge (hf.2.2 hst)

omit [DecidableEq V] in
theorem start_record {g : Graph K V} {k : K} {previous : Option (Evaluated K V)} {dirty : Bool}
    (h : Startable version g k previous dirty) (n : K) :
    record (start g k previous dirty) n = record g n ∧
    stale (start g k previous dirty) n = stale g n := by
  obtain ⟨h1,h2⟩ := h.record
  rw [start, record_set, stale_set]
  by_cases hn : n = k
  · subst hn
    simp [h1, h2, Node.record, Node.stale]
  · simp [hn]

omit [DecidableEq V] in
theorem leave_refused {g : Graph K V} {k : K} {previous : Option (Evaluated K V)} {dirty : Bool}
    (h : g.nodes k = some ⟨.running previous dirty,false⟩) :
    ∃ x, leave g k = g.set k x ∧ x.record = previous ∧ x.stale = dirty ∧ ∀ p d di, x ≠ ⟨.running p d,di⟩ := by
  cases previous with
  | none => exact ⟨⟨.empty,dirty⟩,by simp [leave, h],rfl,rfl,by simp⟩
  | some p => exact ⟨⟨.done p,dirty⟩,by simp [leave, h],rfl,rfl,by simp⟩

omit [DecidableEq V] in
theorem leave_finish (g : Graph K V) (k : K) (e : Evaluated K V) (missed : Bool) :
    leave (finish g k e missed) k = finish g k e missed := by
  have hn : (finish g k e missed).nodes k = some ⟨.done e,false⟩ := by simp [finish, set_nodes]
  rw [leave, hn]

theorem evaluate_ok (fuel : ℕ) :
    EvalSpec compute ext version (evaluate debug compute ext version fuel) := by
  induction fuel with
  | zero =>
    intro g k r g' _ _ h
    cases h
  | succ fuel ih =>
    intro g k r g' hv hc h
    rcases evaluate_cases h with ⟨e,hn,hle,rfl,rfl⟩ | ⟨previous,dirty,g2,hst,hrun,rfl⟩
    · have hrec : record g' k = some e := by simp [record, hn, Node.record]
      have hver := (hc.fresh k e hrec).2.1
      refine ⟨hc,.refl g',fun e' he' => ?_,fun _ hs _ => ⟨⟨hs,id⟩,e,rfl⟩⟩
      cases he'
      exact ⟨hrec,by omega⟩
    · have hstd := hst.started hv hc
      have hold : ∀ e, record g k = some e → e.verifiedAt ≠ g.version :=
        fun e he => (hstd.old e (hst.record.1.symm.trans he)).ne
      have hc0 : Coherent compute ext (start g k previous dirty) :=
        hc.congr rfl (fun n => (start_record hst n).1) (fun n => (start_record hst n).2) rfl
      have hs0 : Sound compute ext g → Sound compute ext (start g k previous dirty) := fun hs =>
        hs.congr rfl (fun n => (start_record hst n).1) rfl fun _ _ h => h
      have hk0 : ∀ {S : K → Prop}, Sound compute ext g →
          Kept compute ext S g (start g k previous dirty) := fun hs =>
        ⟨hs0 hs,fun hm n hS hn => (start_record hst n).2.trans (hm n hS hn)⟩
      have hv0 : (start g k previous dirty).version = version := hv
      obtain ⟨hc2,⟨g1,hf1,hend⟩,hs2⟩ := run_ok ih hv0 hc0 hstd hrun
      rcases hend with ⟨⟨text,rfl⟩,rfl⟩ | ⟨e,missed,rfl,rfl,hve⟩
      · obtain ⟨x,hx,hxr,hxs,hxn⟩ := leave_refused (hstd.frame hf1).node
        have hrec : record g2 k = previous := (hstd.frame hf1).record
        have hsta : stale g2 k = dirty := by
          simp [stale, (hstd.frame hf1).node, Node.stale]
        rw [hx]
        refine ⟨hc2.congr rfl (fun n => ?_) (fun n => ?_) rfl,frame_close hf1 hst.idle ?_ hold ?_ rfl rfl rfl,
          by simp,fun ha hs hcl => ?_⟩
        · rw [record_set]
          split
          · next hn => rw [hn, hrec, hxr]
          · rfl
        · rw [stale_set]
          split
          · next hn => rw [hn, hsta, hxs]
          · rfl
        · rintro ⟨p,d,di,hr⟩
          rw [set_nodes, if_pos rfl] at hr
          exact hxn p d di (Option.some.inj hr)
        · exact fun n hne => ⟨by rw [set_nodes, if_neg hne],rfl⟩
        · obtain ⟨-,e,he⟩ := hs2 ha (hs0 hs) (Clear.right hcl (hk0 hs))
          cases he
      · rw [leave_finish]
        refine ⟨hc2,frame_close hf1 hst.idle ?_ hold ?_ rfl rfl rfl,fun e' he' => ?_,
          fun ha hs hcl => ?_⟩
        · rintro ⟨p,d,di,hr⟩
          simp [finish, set_nodes] at hr
        · exact fun n hne => ⟨by simp [finish, set_nodes, hne],by simp [finish_unrecorded, hne]⟩
        · cases he'
          exact ⟨by rw [finish_record, if_pos rfl],hve⟩
        · obtain ⟨hk,he⟩ := hs2 ha (hs0 hs) (hcl.right (hk0 hs))
          exact ⟨(hk0 hs).trans hk,he⟩

end Evaluate

end BuildFiji.Engine.Memo
