import BuildFiji.Analysis.RuleDeps
import Mathlib.Data.List.Dedup

/-!
# Which target an attribute shows

Under a label stands what its last edge leads to, with the results of all the
aspects that any edge to that target asks for. So each attribute shows its own
targets just when no edge has to share: the last edge of a label leads where every
plain one does, and of several edges to one target at most one asks for aspects.
-/

set_option autoImplicit false
set_option linter.all false

namespace BuildFiji.RuleDeps

open BuildFiji.Graph

variable {γ δ : Type} [DecidableEq γ] {r : Rule γ} {v : View γ δ}

section Infos

/-- The aspects that the edges to a target ask for, one edge after the other. -/
def asked (r : Rule γ) (key : ConfiguredTargetKey γ) : List AspectRef :=
  (deps r).flatMap fun d => if d.key = key then r.aspects d.edge.attr else []

def withAspects (v : View γ δ) (key : ConfiguredTargetKey γ) (aspects : List AspectRef) : δ :=
  aspects.foldl (fun info a => v.extend info key a) (v.info key)

theorem addAspect_map (f : Dep γ → δ) (k : ConfiguredTargetKey γ × AspectRef) :
    addAspect r v ((deps r).map f) k =
      (deps r).map fun d => if d.key = k.1 then v.extend (f d) k.1 k.2 else f d := by
  rw [addAspect, List.zipWith_map_right, List.zipWith_self]

theorem foldl_addAspect (f : Dep γ → δ) (ks : List (ConfiguredTargetKey γ × AspectRef)) :
    ks.foldl (addAspect r v) ((deps r).map f) = (deps r).map fun d =>
      ks.foldl (fun info k => if d.key = k.1 then v.extend info k.1 k.2 else info) (f d) := by
  induction ks generalizing f with
  | nil => rfl
  | cons k ks ih => rw [List.foldl_cons, addAspect_map, ih]; rfl

theorem foldl_other {key other : ConfiguredTargetKey γ} (h : key ≠ other) (aspects : List AspectRef)
    (info : δ) : (aspects.map fun a => (other,a)).foldl
      (fun info k => if key = k.1 then v.extend info k.1 k.2 else info) info = info := by
  induction aspects with
  | nil => rfl
  | cons a aspects ih =>
    rw [List.map_cons, List.foldl_cons, if_neg h]
    exact ih

theorem foldl_same (key : ConfiguredTargetKey γ) (aspects : List AspectRef) (info : δ) :
    (aspects.map fun a => (key,a)).foldl
      (fun info k => if key = k.1 then v.extend info k.1 k.2 else info) info =
      aspects.foldl (fun info a => v.extend info key a) info := by
  induction aspects generalizing info with
  | nil => rfl
  | cons a aspects ih =>
    rw [List.map_cons, List.foldl_cons, if_pos rfl, List.foldl_cons]
    exact ih _

theorem foldl_aspectKeys (key : ConfiguredTargetKey γ) (ds : List (Dep γ)) (info : δ) :
    (ds.flatMap fun d => (r.aspects d.edge.attr).map fun a => (d.key,a)).foldl
      (fun info k => if key = k.1 then v.extend info k.1 k.2 else info) info =
      (ds.flatMap fun d => if d.key = key then r.aspects d.edge.attr else []).foldl
        (fun info a => v.extend info key a) info := by
  induction ds generalizing info with
  | nil => rfl
  | cons d ds ih =>
    rw [List.flatMap_cons, List.flatMap_cons, List.foldl_append, List.foldl_append]
    by_cases h : d.key = key
    · rw [if_pos h, h, foldl_same]
      exact ih _
    · rw [if_neg h, foldl_other (Ne.symm h)]
      exact ih _

/-- Every edge has its target with what all of them ask for there. -/
theorem infos_eq : infos r v = (deps r).map fun d => withAspects v d.key (asked r d.key) := by
  rw [infos, foldl_addAspect]
  apply List.map_congr_left
  intro d _
  exact foldl_aspectKeys d.key (deps r) (v.info d.key)

end Infos

section Given

omit [DecidableEq γ]

/-- The last edge that names the label. -/
def lastNamed (ds : List (Dep γ)) (l : Label) : Option (Dep γ) :=
  ds.reverse.find? fun d => d.key.label == l

def branchTargets (f : Dep γ → δ) (ds : List (Dep γ)) (attr split : String) : List (Label × δ) :=
  (ds.filter fun d => d.edge.attr == attr && d.split == some split).map fun d => (d.key.label,f d)

def gather (f : Dep γ → δ) (ds : List (Dep γ)) : Given δ :=
  (ds.map fun d => (d,f d)).foldl give ⟨fun _ => none,fun _ => none⟩

theorem zip_map_self {α β : Type} (f : α → β) (as : List α) :
    as.zip (as.map f) = as.map fun a => (a,f a) := by
  induction as with
  | nil => rfl
  | cons a as ih => rw [List.map_cons, List.zip_cons_cons, ih, List.map_cons]

theorem gather_concat (f : Dep γ → δ) (ds : List (Dep γ)) (d : Dep γ) :
    gather f (ds ++ [d]) = give (gather f ds) (d,f d) := by
  rw [gather, List.map_append, List.foldl_append]
  rfl

theorem gather_deps (f : Dep γ → δ) (ds : List (Dep γ)) (l : Label) :
    (gather f ds).deps l = (lastNamed ds l).map f := by
  induction ds using List.reverseRecOn with
  | nil => rfl
  | append_singleton ds d ih =>
    rw [gather_concat, lastNamed, List.reverse_append, List.reverse_singleton, List.singleton_append,
      List.find?_cons]
    show (if l = d.key.label then some (f d) else (gather f ds).deps l) = _
    by_cases h : d.key.label = l
    · rw [if_pos h.symm, beq_iff_eq.mpr h]
      rfl
    · rw [if_neg (Ne.symm h), beq_eq_false_iff_ne.mpr h, ih]
      rfl

def branchOf {β : Type} (bs : List (String × List β)) (split : String) : List β :=
  ((bs.find? fun b => b.1 == split).map (·.2)).getD []

theorem branchOf_push (split other : String) (t : Label × δ) (bs : List (String × List (Label × δ))) :
    branchOf (pushTarget split t bs) other =
      branchOf bs other ++ if other = split then [t] else [] := by
  induction bs with
  | nil =>
    by_cases h : other = split
    · rw [if_pos h, h]
      simp [pushTarget, branchOf]
    · have h' : split ≠ other := Ne.symm h
      simp [pushTarget, branchOf, h, h']
  | cons b bs ih =>
    rw [pushTarget]
    by_cases hk : b.1 = split
    · rw [if_pos hk]
      by_cases h : other = split
      · rw [if_pos h, h]
        simp [branchOf, hk]
      · have h' : split ≠ other := Ne.symm h
        simp [branchOf, hk, h, h']
    · rw [if_neg hk]
      by_cases h : b.1 = other
      · have hne : other ≠ split := h ▸ hk
        simp [branchOf, h, hne]
      · have hf : (b.1 == other) = false := beq_eq_false_iff_ne.mpr h
        rw [branchOf, List.find?_cons, hf]
        show branchOf (pushTarget split t bs) other = _
        rw [ih, branchOf, branchOf, List.find?_cons, hf]

theorem splits_give (given : Given δ) (d : Dep γ) (info : δ) (attr split : String) :
    branchOf (((give given (d,info)).splits attr).getD []) split =
      branchOf ((given.splits attr).getD []) split ++
        if d.edge.attr = attr ∧ d.split = some split then [(d.key.label,info)] else [] := by
  unfold give
  cases hs : d.split with
  | none => simp
  | some k =>
    by_cases ha : attr = d.edge.attr
    · simp only [if_pos ha, Option.getD_some]
      rw [branchOf_push, ← ha]
      by_cases hk : split = k
      · simp [hk]
      · have hk' : k ≠ split := Ne.symm hk
        simp [hk, hk']
    · have ha' : d.edge.attr ≠ attr := Ne.symm ha
      simp [ha, ha']

theorem gather_branch (f : Dep γ → δ) (ds : List (Dep γ)) (attr split : String) :
    underBranch (gather f ds) attr split = branchTargets f ds attr split := by
  induction ds using List.reverseRecOn with
  | nil => rfl
  | append_singleton ds d ih =>
    rw [gather_concat, branchTargets, List.filter_append, List.map_append, ← branchTargets, ← ih]
    show branchOf (((give (gather f ds) (d,f d)).splits attr).getD []) split = _
    rw [splits_give]
    show underBranch (gather f ds) attr split ++ _ = _
    by_cases h : d.edge.attr = attr ∧ d.split = some split
    · rw [if_pos h]
      simp [h.1, h.2]
    · have hb : (d.edge.attr == attr && d.split == some split) = false := by simpa using h
      rw [if_neg h, List.filter_singleton, hb]
      rfl

theorem gather_split (f : Dep γ → δ) {ds : List (Dep γ)} {attr : String}
    (h : ∀ d ∈ ds, d.edge.attr = attr → d.split = none) : (gather f ds).splits attr = none := by
  induction ds using List.reverseRecOn with
  | nil => rfl
  | append_singleton ds d ih =>
    have hds := ih fun e he => h e (List.mem_append_left _ he)
    rw [gather_concat]
    unfold give
    cases hs : d.split with
    | none => exact hds
    | some k =>
      have ha : attr ≠ d.edge.attr := by
        intro he
        have hn := h d (List.mem_append_right _ List.mem_cons_self) he.symm
        rw [hs] at hn
        cases hn
      simp only [if_neg ha]
      exact hds

end Given

section Shown

theorem given_eq : given r v = gather (fun d => withAspects v d.key (asked r d.key)) (deps r) := by
  rw [given, infos_eq, zip_map_self]
  rfl

/-- What an edge asks to see. -/
def own (r : Rule γ) (v : View γ δ) (d : Dep γ) : δ :=
  withAspects v d.key (r.aspects d.edge.attr).dedup

/-- Every attribute shows, for every edge of its own, what that edge asks to see. -/
structure ShowsOwn (r : Rule γ) (v : View γ δ) : Prop where
  plain : ∀ d ∈ deps r, d.split = none →
    (given r v).splits d.edge.attr = none ∧ (given r v).deps d.edge.label = some (own r v d)
  branch : ∀ d ∈ deps r, ∀ split, d.split = some split →
    (d.edge.label,own r v d) ∈ underBranch (given r v) d.edge.attr split ∧
      ∀ t ∈ underBranch (given r v) d.edge.attr split, t.1 = d.edge.label → t.2 = own r v d

/-- Where an edge to a target asks for aspects it is the only one to that target,
the last edge of a label leads where every plain edge of the label does, and a label
has one target in a branch of an attribute. -/
structure Separate (r : Rule γ) : Prop where
  once : ∀ d ∈ deps r, (r.aspects d.edge.attr).Nodup
  alone : ∀ p d q, deps r = p ++ d::q → ∀ e ∈ p ++ q, e.key = d.key → r.aspects e.edge.attr = []
  last : ∀ d ∈ deps r, d.split = none →
    ∃ e, lastNamed (deps r) d.edge.label = some e ∧ e.key = d.key
  apart : ∀ d ∈ deps r, ∀ e ∈ deps r, d.edge.attr = e.edge.attr → d.split = e.split →
    d.split ≠ none → d.edge.label = e.edge.label → e.key = d.key

omit [DecidableEq γ] in
theorem key_label {d : Dep γ} (h : d ∈ deps r) : d.key.label = d.edge.label := by
  obtain ⟨e,-,h⟩ := List.mem_flatMap.mp h
  obtain ⟨b,-,rfl⟩ := List.mem_map.mp h
  rfl

omit [DecidableEq γ] in
/-- Only an attribute with a transition has branches. -/
theorem split_none_of {d e : Dep γ} (hd : d ∈ deps r) (he : e ∈ deps r)
    (hcfg : d.edge.cfg = e.edge.cfg) (h : d.split = none) : e.split = none := by
  obtain ⟨x,-,hd⟩ := List.mem_flatMap.mp hd
  obtain ⟨y,-,he⟩ := List.mem_flatMap.mp he
  obtain ⟨b,hb,rfl⟩ := List.mem_map.mp hd
  obtain ⟨c,hc,rfl⟩ := List.mem_map.mp he
  have hxy : x.cfg = y.cfg := hcfg
  unfold branches at hb hc
  cases hx : x.cfg with
  | target =>
    simp only [← hxy, hx, List.mem_singleton] at hc
    rw [hc]
  | exec =>
    simp only [← hxy, hx, List.mem_singleton] at hc
    rw [hc]
  | host =>
    simp only [← hxy, hx, List.mem_singleton] at hc
    rw [hc]
  | transition =>
    simp only [hx, List.mem_map] at hb
    obtain ⟨m,-,rfl⟩ := hb
    cases h

theorem addLabel_cfg {cfg : Cfg} {attr : String} {found : Found} {label : Label} {d : DepEdge}
    (h : d ∈ (addLabel cfg attr found label).edges) :
    d ∈ found.edges ∨ d.attr = attr ∧ d.cfg = cfg := by
  unfold addLabel at h
  split at h
  · exact Or.inl h
  · rcases List.mem_append.mp h with h | h
    · exact Or.inl h
    · rw [List.mem_singleton.mp h]
      exact Or.inr ⟨rfl,rfl⟩

theorem addLabels_cfg {cfg : Cfg} {attr : String} {labels : List Label} {found : Found} {d : DepEdge}
    (h : d ∈ (labels.foldl (addLabel cfg attr) found).edges) :
    d ∈ found.edges ∨ d.attr = attr ∧ d.cfg = cfg := by
  induction labels generalizing found with
  | nil => exact Or.inl h
  | cons l ls ih =>
    rcases ih h with h | h
    · exact addLabel_cfg h
    · exact Or.inr h

/-- The `cfg` of an edge is the one its attribute has. -/
theorem addAttr_cfg {schema : RuleSchema} {found : Found} {e : String × AttrValue} {d : DepEdge}
    (h : d ∈ (addAttr schema found e).edges) :
    d ∈ found.edges ∨ (schema.attr d.attr).map (·.cfg) = some d.cfg := by
  unfold addAttr at h
  split at h
  · exact Or.inl h
  · split at h
    · exact Or.inl h
    · rename_i attr hattr
      split at h
      · rcases addLabels_cfg h with h | ⟨ha,hc⟩
        · exact Or.inl h
        · rw [ha, hattr, hc]
          exact Or.inr rfl
      · exact Or.inl h

theorem labelsOfAttrs_cfg {schema : RuleSchema} {set : Attrs} {d : DepEdge}
    (h : d ∈ labelsOfAttrs schema set) : (schema.attr d.attr).map (·.cfg) = some d.cfg := by
  have run : ∀ (es : List (String × AttrValue)) (found : Found),
      d ∈ (es.foldl (addAttr schema) found).edges →
      d ∈ found.edges ∨ (schema.attr d.attr).map (·.cfg) = some d.cfg := by
    intro es
    induction es with
    | nil => exact fun _ h => Or.inl h
    | cons e es ih =>
      intro found h
      rcases ih _ h with h | h
      · exact addAttr_cfg h
      · exact Or.inr h
  rcases run _ _ h with h | h
  · cases h
  · exact h

omit [DecidableEq γ] in
theorem cfg_of_attr {d e : Dep γ} (hd : d ∈ deps r) (he : e ∈ deps r)
    (h : d.edge.attr = e.edge.attr) : d.edge.cfg = e.edge.cfg := by
  obtain ⟨x,hx,hd⟩ := List.mem_flatMap.mp hd
  obtain ⟨y,hy,he⟩ := List.mem_flatMap.mp he
  obtain ⟨b,-,rfl⟩ := List.mem_map.mp hd
  obtain ⟨c,-,rfl⟩ := List.mem_map.mp he
  have hxy : x.attr = y.attr := h
  apply Option.some.inj
  show some x.cfg = some y.cfg
  rw [← labelsOfAttrs_cfg hx, hxy, labelsOfAttrs_cfg hy]

/-- An edge has just the aspects it asks for where no other asks for any on its target. -/
theorem asked_eq_iff {p q : List (Dep γ)} {d : Dep γ} (h : deps r = p ++ d::q) :
    asked r d.key = (r.aspects d.edge.attr).dedup ↔ (r.aspects d.edge.attr).Nodup ∧
      ∀ e ∈ p ++ q, e.key = d.key → r.aspects e.edge.attr = [] := by
  let ask := fun e : Dep γ => if e.key = d.key then r.aspects e.edge.attr else []
  have hasked : asked r d.key = p.flatMap ask ++ (r.aspects d.edge.attr ++ q.flatMap ask) := by
    rw [asked, h, List.flatMap_append, List.flatMap_cons, if_pos rfl]
  rw [hasked]
  constructor
  · intro he
    have hlen := congrArg List.length he
    have hle := (List.dedup_sublist (r.aspects d.edge.attr)).length_le
    rw [List.length_append, List.length_append] at hlen
    have hp : p.flatMap ask = [] := List.eq_nil_of_length_eq_zero (by omega)
    have hq : q.flatMap ask = [] := List.eq_nil_of_length_eq_zero (by omega)
    rw [hp, hq, List.nil_append, List.append_nil] at he
    refine ⟨List.dedup_eq_self.mp he.symm,?_⟩
    intro e hmem hk
    have hnil : (p ++ q).flatMap ask = [] := by rw [List.flatMap_append, hp, hq, List.append_nil]
    have := List.flatMap_eq_nil_iff.mp hnil e hmem
    rwa [show ask e = r.aspects e.edge.attr from if_pos hk] at this
  · rintro ⟨hn,halone⟩
    have hnil : (p ++ q).flatMap ask = [] := by
      apply List.flatMap_eq_nil_iff.mpr
      intro e hmem
      by_cases hk : e.key = d.key
      · rw [show ask e = r.aspects e.edge.attr from if_pos hk]
        exact halone e hmem hk
      · exact if_neg hk
    rw [List.flatMap_append, List.append_eq_nil_iff] at hnil
    rw [hnil.1, hnil.2, List.nil_append, List.append_nil, List.dedup_eq_self.mpr hn]

/-- What is added to the target stays visible. -/
def trace : View γ (ConfiguredTargetKey γ × List AspectRef) where
  info := fun key => (key,[])
  extend := fun info _ a => (info.1,info.2 ++ [a])

omit [DecidableEq γ] in
theorem withAspects_trace (key : ConfiguredTargetKey γ) (aspects : List AspectRef) :
    withAspects trace key aspects = (key,aspects) := by
  induction aspects using List.reverseRecOn with
  | nil => rfl
  | append_singleton aspects a ih =>
    rw [withAspects, List.foldl_append, ← withAspects, ih]
    rfl

theorem given_deps (l : Label) : (given r v).deps l =
    (lastNamed (deps r) l).map fun e => withAspects v e.key (asked r e.key) := by
  rw [given_eq, gather_deps]

theorem mem_underBranch {attr split : String} {t : Label × δ} :
    t ∈ underBranch (given r v) attr split ↔ ∃ e ∈ deps r, e.edge.attr = attr ∧
      e.split = some split ∧ t = (e.edge.label,withAspects v e.key (asked r e.key)) := by
  rw [given_eq, gather_branch, branchTargets, List.mem_map]
  constructor
  · rintro ⟨e,he,rfl⟩
    obtain ⟨hmem,hb⟩ := List.mem_filter.mp he
    rw [Bool.and_eq_true, beq_iff_eq, beq_iff_eq] at hb
    exact ⟨e,hmem,hb.1,hb.2,by rw [key_label hmem]⟩
  · rintro ⟨e,hmem,ha,hs,rfl⟩
    refine ⟨e,List.mem_filter.mpr ⟨hmem,?_⟩,by rw [key_label hmem]⟩
    rw [ha, hs, beq_self_eq_true, beq_self_eq_true]
    rfl

/-- Every edge is in the list as an edge to its own target with its own aspects. -/
theorem shown_own {d : Dep γ} (hd : d ∈ deps r) (hsep : Separate r) :
    withAspects v d.key (asked r d.key) = own r v d := by
  obtain ⟨p,q,h⟩ := List.append_of_mem hd
  rw [own, (asked_eq_iff h).mpr ⟨hsep.once d hd,hsep.alone p d q h⟩]

theorem shows_of_separate (hsep : Separate r) (v : View γ δ) : ShowsOwn r v where
  plain := by
    intro d hd hs
    constructor
    · rw [given_eq]
      apply gather_split
      intro e he ha
      exact split_none_of hd he (cfg_of_attr hd he ha.symm) hs
    · obtain ⟨e,hlast,hk⟩ := hsep.last d hd hs
      rw [given_deps, hlast, Option.map_some, hk, shown_own hd hsep]
  branch := by
    intro d hd split hs
    constructor
    · rw [← shown_own hd hsep]
      exact mem_underBranch.mpr ⟨d,hd,rfl,hs,rfl⟩
    · intro t ht hl
      obtain ⟨e,he,ha,hse,rfl⟩ := mem_underBranch.mp ht
      have hne : d.split ≠ none := by rw [hs]; exact Option.some_ne_none _
      have hk := hsep.apart d hd e he ha.symm (hs.trans hse.symm) hne hl.symm
      show withAspects v e.key (asked r e.key) = _
      rw [hk, shown_own hd hsep]

/-- Where the aspects stay visible, what an edge shows tells which target it leads to
and which aspects it got. -/
theorem trace_shown {d e : Dep γ}
    (h : withAspects trace e.key (asked r e.key) = own r trace d) :
    e.key = d.key ∧ asked r d.key = (r.aspects d.edge.attr).dedup := by
  rw [own, withAspects_trace, withAspects_trace] at h
  have hk := congrArg Prod.fst h
  have ha := congrArg Prod.snd h
  have hk' : e.key = d.key := hk
  exact ⟨hk',hk' ▸ ha⟩

theorem trace_asked (hshows : ShowsOwn r trace) {d : Dep γ} (hd : d ∈ deps r) :
    asked r d.key = (r.aspects d.edge.attr).dedup := by
  cases hs : d.split with
  | none =>
    have h := (hshows.plain d hd hs).2
    rw [given_deps] at h
    obtain ⟨e,-,h⟩ := Option.map_eq_some_iff.mp h
    exact (trace_shown h).2
  | some split =>
    have h := (hshows.branch d hd split hs).2 _ (mem_underBranch.mpr ⟨d,hd,rfl,hs,rfl⟩) rfl
    exact (trace_shown h).2

theorem separate_of_shows (hshows : ShowsOwn r trace) : Separate r where
  once := by
    intro d hd
    obtain ⟨p,q,h⟩ := List.append_of_mem hd
    exact ((asked_eq_iff h).mp (trace_asked hshows hd)).1
  alone := by
    intro p d q h
    have hd : d ∈ deps r := by rw [h]; exact List.mem_append_right _ List.mem_cons_self
    exact ((asked_eq_iff h).mp (trace_asked hshows hd)).2
  last := by
    intro d hd hs
    have h := (hshows.plain d hd hs).2
    rw [given_deps] at h
    obtain ⟨e,hlast,h⟩ := Option.map_eq_some_iff.mp h
    exact ⟨e,hlast,(trace_shown h).1⟩
  apart := by
    intro d hd e he ha hse hs hl
    cases hsd : d.split with
    | none => exact absurd hsd hs
    | some split =>
      have hmem : (e.edge.label,withAspects trace e.key (asked r e.key)) ∈
          underBranch (given r trace) d.edge.attr split :=
        mem_underBranch.mpr ⟨e,he,ha.symm,hse.symm.trans hsd,rfl⟩
      exact (trace_shown ((hshows.branch d hd split hsd).2 _ hmem hl.symm)).1

end Shown

section Shared

def thing : Label := ⟨"","pkg","t"⟩

/-- One attribute wants the target as it is and the other one as a tool. -/
def twoKinds : Rule Bool where
  schema := ⟨[⟨"srcs",.labelList,none,false,false,.target⟩,⟨"tool",.label,none,false,false,.exec⟩],
    [],false⟩
  set := [("srcs",.labelList [thing]),("tool",.label thing)]
  configuration := false
  execConfiguration := true
  transition := fun _ => []
  aspects := fun _ => []
  binDir := fun _ => ""

end Shared

end BuildFiji.RuleDeps
