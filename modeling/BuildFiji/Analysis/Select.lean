import BuildFiji.Graph.Label
import BuildFiji.Lib.Fallible
import Mathlib.Data.Finset.Basic

/-!
# Selects

A branch matches if its `config_setting` does. Of several that match, the one whose setting
requires all that the others require, and more, is taken.
-/

set_option autoImplicit false
set_option linter.all false

namespace BuildFiji.Analysis

open BuildFiji.Graph

open BuildFiji.Fallible (toOption_eq_some)

/-- What a `config_setting` says of a configuration. -/
structure ConfigMatching where
  «matches» : Bool
  conditions : Finset String
deriving DecidableEq

/-- A `select()`. A branch without a value is `None`. -/
structure Selector (V : Type) where
  branches : List (Label × Option V)
  noMatchError : String

def defaultCondition : Label := ⟨"","conditions","default"⟩

section Messages
variable (me attr : String)

def notASetting (label : Label) : String :=
  labelText label ++ " is not a valid select() condition for " ++ me ++
    ".\nNote that only config_setting targets can be used as conditions"

def noMatch (noMatchError : String) : String :=
  "configurable attribute \"" ++ attr ++ "\" in " ++ me ++ " doesn't match this configuration" ++
    if noMatchError = "" then ". Would a default condition help?" else ": " ++ noMatchError

def ambiguous (labels : List Label) : String :=
  "Illegal ambiguous match on configurable attribute \"" ++ attr ++ "\" in " ++ me ++ ":\n" ++
    "\n".intercalate (labels.map labelText) ++
    "\nMultiple matches are not allowed unless one is unambiguously more specialized."

end Messages

section Choose
variable {V : Type}

/-- A branch that matches. -/
structure Matched (V : Type) where
  label : Label
  matching : ConfigMatching
  value : Option V

/-- `results` is what the analysis of a condition gives: a failure, or what it says if it is a
`config_setting`. -/
def matched (results : Label → Except String (Option ConfigMatching)) (me : String) :
    List (Label × Option V) → Except String (List (Matched V))
  | [] => .ok []
  | (label,value)::rest => do
    match ← results label with
    | none => throw (notASetting me label)
    | some matching =>
      let later ← matched results me rest
      return if matching.matches then ⟨label,matching,value⟩::later else later

/-- The branch's conditions contain every other's, and no other's are the same. -/
def dominant (many : List (Matched V)) (c : Matched V) : Bool :=
  ((many.filter fun other => other.matching ≠ c.matching).all fun other =>
    other.matching.conditions ⊆ c.matching.conditions) &&
    (many.filter fun other => other.matching = c.matching).length = 1

def choose (results : Label → Except String (Option ConfigMatching)) (me attr : String)
    (selector : Selector V) : Except String (Option V) := do
  let default := (selector.branches.filter fun b => b.1 = defaultCondition).getLast?
  let conditions := selector.branches.filter fun b => b.1 ≠ defaultCondition
  match ← matched results me conditions with
  | [] =>
    match default with
    | some b => return b.2
    | none => throw (noMatch me attr selector.noMatchError)
  | [m] => return m.value
  | many =>
    match many.find? (dominant many) with
    | some m => return m.value
    | none => throw (ambiguous me attr (many.map Matched.label))

end Choose

section Dominant
variable {V : Type} {many : List (Matched V)} {m : Matched V}

theorem eq_singleton_of_nodup {α : Type} {l : List α} {a : α} (hl : l.Nodup) (ha : a ∈ l)
    (h : ∀ x ∈ l, x = a) : l = [a] :=
  List.perm_singleton.mp ((List.perm_ext_iff_of_nodup hl (List.nodup_singleton a)).mpr fun x =>
    ⟨fun hx => List.mem_singleton.mpr (h x hx),fun hx => List.mem_singleton.mp hx ▸ ha⟩)

/-- Matching settings that require the same are the same. -/
theorem dominant_iff (hmatches : ∀ m ∈ many, m.matching.matches = true)
    (hlabels : (many.map Matched.label).Nodup) (hm : m ∈ many) : dominant many m = true ↔
      ∀ other ∈ many, other.label ≠ m.label → other.matching.conditions ⊂ m.matching.conditions := by
  have hsame : ∀ x ∈ many, ∀ y ∈ many, x.label = y.label → x = y := fun x hx y hy =>
    List.inj_on_of_nodup_map hlabels hx hy
  have hequal : ∀ x ∈ many, x.matching.conditions = m.matching.conditions → x.matching = m.matching := by
    intro x hx hconditions
    have hx' := hmatches x hx
    have hm' := hmatches m hm
    cases hxm : x.matching
    cases hmm : m.matching
    rw [hxm, hmm] at hconditions
    rw [hxm] at hx'
    rw [hmm] at hm'
    change _ = true at hx' hm'
    rw [ConfigMatching.mk.injEq]
    exact ⟨hx'.trans hm'.symm,hconditions⟩
  have hmine : m ∈ many.filter fun other => other.matching = m.matching :=
    List.mem_filter.mpr ⟨hm,decide_eq_true rfl⟩
  rw [dominant, Bool.and_eq_true, List.all_eq_true, decide_eq_true_iff]
  constructor
  · rintro ⟨hsub,hcount⟩ other hother hne
    obtain ⟨a,ha⟩ := List.length_eq_one_iff.mp hcount
    have hdiffer : other.matching ≠ m.matching := by
      intro heq
      have ho : other ∈ many.filter fun other => other.matching = m.matching :=
        List.mem_filter.mpr ⟨hother,decide_eq_true heq⟩
      rw [ha, List.mem_singleton] at ho hmine
      exact hne (by rw [ho, hmine])
    have h := hsub other (List.mem_filter.mpr ⟨hother,decide_eq_true hdiffer⟩)
    exact lt_of_le_of_ne (of_decide_eq_true h) fun heq => hdiffer (hequal other hother heq)
  · intro h
    refine ⟨fun other ho => ?_,?_⟩
    · obtain ⟨hother,hdiffer⟩ := List.mem_filter.mp ho
      have hdiffer := of_decide_eq_true hdiffer
      have hne : other.label ≠ m.label := fun heq => hdiffer (by rw [hsame other hother m hm heq])
      exact decide_eq_true (h other hother hne).subset
    · have hnodup : (many.filter fun other => other.matching = m.matching).Nodup :=
        (List.Nodup.of_map _ hlabels).filter _
      rw [eq_singleton_of_nodup hnodup hmine fun x hx => ?_]
      · rfl
      obtain ⟨hx,heq⟩ := List.mem_filter.mp hx
      refine hsame x hx m hm (by_contra fun hne => ?_)
      have hlt := h x hx hne
      rw [of_decide_eq_true heq] at hlt
      exact lt_irrefl _ hlt

end Dominant

section Decision
variable {V : Type}

/-- A branch whose condition matches. -/
def Matching (outcome : Label → ConfigMatching) (selector : Selector V) (b : Label × Option V) : Prop :=
  b ∈ selector.branches ∧ b.1 ≠ defaultCondition ∧ (outcome b.1).matches = true

/-- The branch requires all that every other branch that matches requires, and more. -/
def Specialized (outcome : Label → ConfigMatching) (selector : Selector V) (b : Label × Option V) : Prop :=
  Matching outcome selector b ∧ ∀ other, Matching outcome selector other → other ≠ b →
    (outcome other.1).conditions ⊂ (outcome b.1).conditions

variable {results : Label → Except String (Option ConfigMatching)} {outcome : Label → ConfigMatching}
variable {me attr : String} {selector : Selector V}

def asMatched (outcome : Label → ConfigMatching) (b : Label × Option V) : Matched V := ⟨b.1,outcome b.1,b.2⟩

theorem matched_ok {l : List (Label × Option V)} (h : ∀ b ∈ l, results b.1 = .ok (some (outcome b.1))) :
    matched results me l = .ok ((l.filter fun b => (outcome b.1).matches).map (asMatched outcome)) := by
  induction l with
  | nil => rfl
  | cons b l ih =>
    rw [matched, h b List.mem_cons_self, ih fun b hb => h b (List.mem_cons_of_mem _ hb)]
    rw [List.filter_cons]
    change Except.ok _ = _
    split <;> rfl

/-- The branches that match, in their order. -/
def matchedBranches (outcome : Label → ConfigMatching) (selector : Selector V) : List (Matched V) :=
  ((selector.branches.filter fun b => b.1 ≠ defaultCondition).filter fun b => (outcome b.1).matches).map
    (asMatched outcome)

theorem mem_matchedBranches {m : Matched V} : m ∈ matchedBranches outcome selector ↔
    ∃ b, Matching outcome selector b ∧ asMatched outcome b = m := by
  simp only [matchedBranches, Matching, List.mem_map, List.mem_filter, decide_eq_true_eq, and_assoc]

theorem matchedBranches_labels (hdistinct : (selector.branches.map Prod.fst).Nodup) :
    ((matchedBranches outcome selector).map Matched.label).Nodup := by
  rw [matchedBranches, List.map_map]
  exact hdistinct.sublist ((List.filter_sublist.trans List.filter_sublist).map Prod.fst)

theorem branch_eq (hdistinct : (selector.branches.map Prod.fst).Nodup) {b other : Label × Option V}
    (hb : b ∈ selector.branches) (ho : other ∈ selector.branches) (h : other.1 = b.1) : other = b :=
  List.inj_on_of_nodup_map hdistinct ho hb h

theorem dominant_specialized (hdistinct : (selector.branches.map Prod.fst).Nodup)
    {b : Label × Option V} (hb : Matching outcome selector b) :
    dominant (matchedBranches outcome selector) (asMatched outcome b) = true ↔
      Specialized outcome selector b := by
  rw [dominant_iff ?_ (matchedBranches_labels hdistinct) (mem_matchedBranches.mpr ⟨b,hb,rfl⟩)]
  · constructor
    · intro h
      refine ⟨hb,fun other ho hne => h _ (mem_matchedBranches.mpr ⟨other,ho,rfl⟩) fun heq => ?_⟩
      exact hne (branch_eq hdistinct hb.1 ho.1 heq)
    · intro h m hm hne
      obtain ⟨other,ho,rfl⟩ := mem_matchedBranches.mp hm
      exact h.2 other ho fun heq => hne (by rw [heq])
  · intro m hm
    obtain ⟨other,ho,rfl⟩ := mem_matchedBranches.mp hm
    exact ho.2.2

/-- Only one branch is more specialized than all the others. -/
theorem Specialized.eq {b other : Label × Option V} (hb : Specialized outcome selector b)
    (ho : Specialized outcome selector other) : other = b := by
  by_contra hne
  exact lt_asymm (hb.2 other ho.1 hne) (ho.2 b hb.1 (Ne.symm hne))

theorem default_iff (hdistinct : (selector.branches.map Prod.fst).Nodup) {v : Option V} :
    (selector.branches.filter fun b => b.1 = defaultCondition).getLast?.map Prod.snd = some v ↔
      (defaultCondition,v) ∈ selector.branches := by
  rw [Option.map_eq_some_iff]
  constructor
  · rintro ⟨b,hb,rfl⟩
    obtain ⟨hmem,heq⟩ := List.mem_filter.mp (List.mem_of_getLast? hb)
    rw [← of_decide_eq_true heq]
    exact hmem
  · intro hmem
    have hf : (defaultCondition,v) ∈ selector.branches.filter fun b => b.1 = defaultCondition :=
      List.mem_filter.mpr ⟨hmem,decide_eq_true rfl⟩
    obtain ⟨b,hb⟩ := Option.isSome_iff_exists.mp (List.getLast?_isSome.mpr (List.ne_nil_of_mem hf))
    obtain ⟨hmem',heq⟩ := List.mem_filter.mp (List.mem_of_getLast? hb)
    refine ⟨b,hb,?_⟩
    rw [branch_eq hdistinct hmem hmem' (of_decide_eq_true heq)]

theorem matched_branches (hresults : ∀ b ∈ selector.branches, b.1 ≠ defaultCondition →
      results b.1 = .ok (some (outcome b.1))) :
    matched results me (selector.branches.filter fun b => b.1 ≠ defaultCondition) =
      .ok (matchedBranches outcome selector) := by
  refine matched_ok fun b hb => ?_
  obtain ⟨hmem,hne⟩ := List.mem_filter.mp hb
  exact hresults b hmem (of_decide_eq_true hne)

/-- What is taken if there is a branch that matches. -/
theorem choose_matched (hresults : ∀ b ∈ selector.branches, b.1 ≠ defaultCondition →
      results b.1 = .ok (some (outcome b.1))) (hsome : matchedBranches outcome selector ≠ []) :
    choose results me attr selector =
      match (matchedBranches outcome selector).find? (dominant (matchedBranches outcome selector)) with
      | some m => .ok m.value
      | none => .error (ambiguous me attr ((matchedBranches outcome selector).map Matched.label)) := by
  rw [choose, matched_branches hresults]
  change (match matchedBranches outcome selector with | [] => _ | [m] => _ | many => _) = _
  cases hms : matchedBranches outcome selector with
  | nil => exact absurd hms hsome
  | cons m rest =>
    cases rest with
    | nil =>
      have hdominant : dominant [m] m = true := by simp [dominant]
      rw [List.find?_cons_of_pos hdominant]
      rfl
    | cons m' rest =>
      dsimp only
      cases (m::m'::rest).find? (dominant (m::m'::rest)) <;> rfl

theorem choose_ok (hdistinct : (selector.branches.map Prod.fst).Nodup)
    (hresults : ∀ b ∈ selector.branches, b.1 ≠ defaultCondition →
      results b.1 = .ok (some (outcome b.1))) (v : Option V) :
    choose results me attr selector = .ok v ↔
      (∀ b, ¬ Matching outcome selector b) ∧ (defaultCondition,v) ∈ selector.branches ∨
        ∃ b, Specialized outcome selector b ∧ b.2 = v := by
  by_cases hnone : matchedBranches outcome selector = []
  · have hno : ∀ b, ¬ Matching outcome selector b := by
      intro b hb
      have hmem := mem_matchedBranches.mpr ⟨b,hb,rfl⟩
      rw [hnone] at hmem
      cases hmem
    have hspecial : ¬ ∃ b, Specialized outcome selector b ∧ b.2 = v := fun ⟨b,hb,_⟩ => hno b hb.1
    rw [← default_iff hdistinct, choose, matched_branches hresults, hnone, or_iff_left hspecial,
      and_iff_right hno]
    cases (selector.branches.filter fun b => b.1 = defaultCondition).getLast? with
    | none => exact ⟨(fun h => nomatch h),(fun h => nomatch h)⟩
    | some b => exact ⟨fun h => congrArg some (Except.ok.inj h),fun h => congrArg Except.ok (Option.some.inj h)⟩
  · rw [choose_matched hresults hnone]
    have hsome : ¬ ((∀ b, ¬ Matching outcome selector b) ∧ (defaultCondition,v) ∈ selector.branches) := by
      rintro ⟨hno,-⟩
      obtain ⟨m,hm⟩ := List.exists_mem_of_ne_nil _ hnone
      obtain ⟨b,hb,-⟩ := mem_matchedBranches.mp hm
      exact hno b hb
    rw [or_iff_right hsome]
    cases hfind : (matchedBranches outcome selector).find? (dominant (matchedBranches outcome selector)) with
    | none =>
      refine ⟨(fun h => nomatch h),fun ⟨b,hb,_⟩ => ?_⟩
      have hmem := mem_matchedBranches.mpr ⟨b,hb.1,rfl⟩
      exact absurd ((dominant_specialized hdistinct hb.1).mpr hb) (List.find?_eq_none.mp hfind _ hmem)
    | some m =>
      obtain ⟨b,hb,rfl⟩ := mem_matchedBranches.mp (List.mem_of_find?_eq_some hfind)
      have hspecial := (dominant_specialized hdistinct hb).mp (List.find?_some hfind)
      constructor
      · exact fun h => ⟨b,hspecial,Except.ok.inj h⟩
      · rintro ⟨other,hother,rfl⟩
        rw [hspecial.eq hother]
        rfl

theorem choose_error (hdistinct : (selector.branches.map Prod.fst).Nodup)
    (hresults : ∀ b ∈ selector.branches, b.1 ≠ defaultCondition →
      results b.1 = .ok (some (outcome b.1))) :
    (∃ e, choose results me attr selector = .error e) ↔
      (∀ b, ¬ Specialized outcome selector b) ∧
        ((∃ b, Matching outcome selector b) ∨ defaultCondition ∉ selector.branches.map Prod.fst) := by
  have hok : ∀ v, choose results me attr selector = .ok v ↔ _ := choose_ok hdistinct hresults
  have herror : (∃ e, choose results me attr selector = .error e) ↔
      ∀ v, choose results me attr selector ≠ .ok v := by
    cases choose results me attr selector with
    | error e => exact ⟨(fun _ v h => nomatch h),fun _ => ⟨e,rfl⟩⟩
    | ok v => exact ⟨(fun ⟨e,h⟩ => nomatch h),fun h => absurd rfl (h v)⟩
  rw [herror]
  simp only [ne_eq, hok, not_or, not_and, not_exists]
  constructor
  · intro h
    refine ⟨fun b hb => (h b.2).2 b hb rfl,?_⟩
    by_cases hmatch : ∃ b, Matching outcome selector b
    · exact .inl hmatch
    · refine .inr fun hmem => ?_
      obtain ⟨b,hb,heq⟩ := List.mem_map.mp hmem
      exact (h b.2).1 (not_exists.mp hmatch) (heq ▸ hb)
  · rintro ⟨hno,hwhy⟩ v
    refine ⟨fun hnone hmem => ?_,fun b hb _ => hno b hb⟩
    rcases hwhy with ⟨b,hb⟩ | hdefault
    · exact hnone b hb
    · exact hdefault (List.mem_map_of_mem hmem)

theorem matching_perm {other : Selector V} (h : other.branches.Perm selector.branches)
    (b : Label × Option V) : Matching outcome other b ↔ Matching outcome selector b := by
  rw [Matching, Matching, h.mem_iff]

theorem choose_perm (hdistinct : (selector.branches.map Prod.fst).Nodup)
    (hresults : ∀ b ∈ selector.branches, b.1 ≠ defaultCondition →
      results b.1 = .ok (some (outcome b.1))) {other : Selector V}
    (hperm : other.branches.Perm selector.branches) :
    (choose results me attr other).toOption = (choose results me attr selector).toOption := by
  have hspecial : ∀ b, Specialized outcome other b ↔ Specialized outcome selector b := by
    intro b
    simp only [Specialized, matching_perm hperm]
  refine Option.ext fun v => ?_
  rw [toOption_eq_some, toOption_eq_some, choose_ok hdistinct hresults v,
    choose_ok ((hperm.map Prod.fst).nodup_iff.mpr hdistinct)
      (fun b hb => hresults b (hperm.mem_iff.mp hb)) v]
  simp only [matching_perm hperm, hspecial, hperm.mem_iff]

/-- The default is taken if nothing matches, and else the branch whose conditions strictly contain
those of every other that matches. Without such a branch it is an error. The order of the branches
does not matter. -/
theorem choose_specialized (hdistinct : (selector.branches.map Prod.fst).Nodup)
    (hresults : ∀ b ∈ selector.branches, b.1 ≠ defaultCondition →
      results b.1 = .ok (some (outcome b.1))) :
    (∀ v, choose results me attr selector = .ok v ↔
      (∀ b, ¬ Matching outcome selector b) ∧ (defaultCondition,v) ∈ selector.branches ∨
        ∃ b, Specialized outcome selector b ∧ b.2 = v) ∧
    ((∃ e, choose results me attr selector = .error e) ↔
      (∀ b, ¬ Specialized outcome selector b) ∧
        ((∃ b, Matching outcome selector b) ∨ defaultCondition ∉ selector.branches.map Prod.fst)) ∧
    ∀ other : Selector V, other.branches.Perm selector.branches →
      (choose results me attr other).toOption = (choose results me attr selector).toOption :=
  ⟨choose_ok hdistinct hresults,choose_error hdistinct hresults,
    fun _ hperm => choose_perm hdistinct hresults hperm⟩

def exampleOutcome (label : Label) : ConfigMatching :=
  if label.name = "linux_opt" then ⟨true,{"os","mode"}⟩ else ⟨label.name = "linux",{"os"}⟩

def exampleSelector : Selector ℕ where
  branches := [(⟨"","p","linux"⟩,some 1),(defaultCondition,none),(⟨"","p","linux_opt"⟩,some 2)]
  noMatchError := ""

def exampleResults (label : Label) : Except String (Option ConfigMatching) := .ok (some (exampleOutcome label))

theorem choose_specialized_linux :
    (choose exampleResults "//p:t" "deps" exampleSelector).toOption = some (some 2) := by
  have hresults : ∀ b ∈ exampleSelector.branches, b.1 ≠ defaultCondition →
    exampleResults b.1 = .ok (some (exampleOutcome b.1)) := fun _ _ _ => rfl
  rw [← (choose_specialized (by decide) hresults).2.2 ⟨exampleSelector.branches.reverse,""⟩
    (List.reverse_perm _)]
  decide

end Decision

end BuildFiji.Analysis
