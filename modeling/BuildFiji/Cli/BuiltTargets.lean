import BuildFiji.Cli.Closure

/-!
# Which targets are reported as built

A failure is held against a root by the label of what registered the action that
ran, if the walk over keys meets that label. So what is reported is right, whatever
fails and whatever is dropped, just when the walk meets the owner of everything that
the root's files are made from. A key that a transition moved is met by nobody.
-/

set_option autoImplicit false
set_option linter.all false

namespace BuildFiji.Cli

open BuildFiji.Graph BuildFiji.RuleDeps BuildFiji.Aspects BuildFiji.Worklist

section Making

/-- What makes one of the files, directly or through any chain of inputs. -/
inductive Making (makes : Artifact → Owned → Prop) (files : List Artifact) : Owned → Prop where
  | file {f : Artifact} {x : Owned} : f ∈ files → makes f x → Making makes files x
  | input {y : Owned} {f : Artifact} {x : Owned} : Making makes files y → f ∈ y.action.inputs →
      makes f x → Making makes files x

/-- Where each action that is met makes its files in the other way too, it is met there. -/
theorem Making.mono {makes makes' : Artifact → Owned → Prop} {files : List Artifact}
    (h : ∀ f y, Making makes' files y → makes' f y → ∀ x, makes f x → makes' f x)
    (hall : ∀ f x, makes f x → ∃ y, makes' f y) {x : Owned} (hx : Making makes files x) :
    Making makes' files x := by
  induction hx with
  | @file f x hf hm =>
    obtain ⟨y,hy⟩ := hall f x hm
    exact .file hf (h f y (.file hf hy) hy x hm)
  | @input y f x hy hi hm ih =>
    obtain ⟨z,hz⟩ := hall f x hm
    exact .input ih hi (h f z (.input ih hi hz) hz x hm)

end Making

section Built

variable {γ : Type} [DecidableEq γ] (a : Analysis γ) (root : Root a) (more : List Owned)

/-- The action is one that a target registered which the root was analysed from. -/
def Registered (x : Owned) : Prop :=
  ∃ n t, Relation.ReflTransGen (Step (reads a.value)) root.node n ∧ a.value n = some t ∧
    x ∈ t.actions

def registers (f : Artifact) (x : Owned) : Prop := Registered a root x ∧ f ∈ x.action.outputs

/-- What runs to make a file when the actions of some owners are dropped. -/
def runs (dropped : List Label) (f : Artifact) (x : Owned) : Prop :=
  maker (executed a.all dropped more) f = some x

/-- A root is kept only without anything dropped that makes its files, and reported as
built only with nothing dropped or failed. -/
structure BuiltRight : Prop where
  kept : ∀ dropped, needsDropped a.all dropped root.target = false →
    ∀ x, Making (registers a root) root.target.files x → x.owner ∉ dropped
  built : ∀ dropped failed, built a.all dropped failed root.target = true →
    (∀ x, Making (registers a root) root.target.files x → x.owner ∉ dropped) ∧
      ∀ x, Making (runs a more dropped) root.target.files x → x ∉ failed

/-- The root reaches a target that has the label by keys that are targets' own. -/
def Met (l : Label) : Prop := ∃ k, Reaches a.all root.target k ∧ labelText k.label = labelText l

structure Covered : Prop where
  registered : ∀ x, Making (registers a root) root.target.files x → Met a root x.owner
  executed : ∀ x, Making (runs a more []) root.target.files x →
    Met a root x.owner ∧ x.action.mnemonic ≠ "TestRunner"

variable {a root more}

theorem needsDropped_eq_false {dropped : List Label} :
    needsDropped a.all dropped root.target = false ↔ ∀ d ∈ dropped, ¬ Met a root d := by
  rw [needsDropped, List.any_eq_false]
  simp only [List.any_eq_true, beq_iff_eq, not_exists, not_and]
  constructor
  · rintro h d hd ⟨k,hk,hl⟩
    exact h _ (mem_neededLabels.mpr ⟨k,hk,hl⟩) d hd rfl
  · intro h needed hn d hd he
    rw [← he] at hn
    exact h d hd (mem_neededLabels.mp hn)

/-- Without anything to hold against it a root is built, and the walk is not made. -/
theorem built_iff {dropped : List Label} {failed : List Owned} :
    built a.all dropped failed root.target = true ↔
      (∀ f ∈ reported failed, ¬ Met a root f.owner) ∧ ∀ d ∈ dropped, ¬ Met a root d := by
  unfold built
  cases hf : reported failed with
  | nil =>
    cases dropped with
    | nil => simp
    | cons d ds =>
      simp only [List.isEmpty_nil, List.isEmpty_cons, Bool.and_false, Bool.false_eq_true, if_false,
        List.all_nil, Bool.true_and, List.all_eq_true, Bool.not_eq_true', List.contains_eq_mem,
        decide_eq_false_iff_not, mem_neededLabels]
      simp [Met]
  | cons f fs =>
    simp only [List.isEmpty_cons, Bool.false_and, Bool.false_eq_true, if_false, Bool.and_eq_true,
      List.all_eq_true, Bool.not_eq_true', List.contains_eq_mem, decide_eq_false_iff_not,
      mem_neededLabels]
    rfl

theorem find?_and_of_find? {α : Type} {p q : α → Bool} {l : List α} {x : α} (h : l.find? q = some x)
    (hp : p x = true) : (l.find? fun y => p y ∧ q y) = some x := by
  obtain ⟨hq,as,bs,rfl,has⟩ := List.find?_eq_some_iff_append.mp h
  apply List.find?_eq_some_iff_append.mpr
  refine ⟨by simp [hp, hq],as,bs,rfl,?_⟩
  intro y hy
  have hn := has y hy
  simp_all

theorem executed_nil : executed a.all [] more = a.all.flatMap (·.actions) ++ more := by
  have hall : ∀ l : List Owned, l.filter (fun x => decide (x.owner ∉ ([] : List Label))) = l := by
    intro l
    simp
  rw [executed, hall]

/-- What an owner that is not dropped makes, it still makes. -/
theorem runs_kept {dropped : List Label} {f : Artifact} {x : Owned} (hx : runs a more [] f x)
    (hkeep : x.owner ∉ dropped) : runs a more dropped f x := by
  unfold runs maker at hx ⊢
  rw [executed_nil, List.reverse_append, List.find?_append] at hx
  rw [executed, List.reverse_append, List.find?_append, ← List.filter_reverse]
  cases hm : more.reverse.find? fun x => decide (f ∈ x.action.outputs) with
  | some y =>
    rw [hm] at hx
    exact hx
  | none =>
    rw [hm, Option.none_or] at hx
    rw [Option.none_or, List.find?_filter]
    exact find?_and_of_find? hx (decide_eq_true hkeep)

/-- Where something is left to make a file, something made it before. -/
theorem runs_before {dropped : List Label} {f : Artifact} {x : Owned} (hx : runs a more dropped f x) :
    ∃ y, runs a more [] f y := by
  unfold runs maker at hx ⊢
  apply Option.isSome_iff_exists.mp
  rw [List.find?_isSome]
  have hf := List.find?_some hx
  refine ⟨x,?_,hf⟩
  have hmem := List.mem_reverse.mp (List.mem_of_find?_eq_some hx)
  rw [executed_nil, List.mem_reverse]
  rcases List.mem_append.mp hmem with hmem | hmem
  · exact List.mem_append_left _ (List.mem_of_mem_filter hmem)
  · exact List.mem_append_right _ hmem

theorem right_of_covered (h : Covered a root more) : BuiltRight a root more where
  kept := by
    intro dropped hkept x hx hd
    exact needsDropped_eq_false.mp hkept _ hd (h.registered x hx)
  built := by
    intro dropped failed hbuilt
    obtain ⟨hfailed,hdropped⟩ := built_iff.mp hbuilt
    refine ⟨fun x hx hd => hdropped _ hd (h.registered x hx),?_⟩
    intro x hx hf
    -- nothing that is met is dropped, so the same actions run as without the conflicts
    have hfull : Making (runs a more []) root.target.files x := by
      apply Making.mono _ (fun f x hx => runs_before hx) hx
      intro f y hy hm x hx
      have hkeep : y.owner ∉ dropped := fun hd => hdropped _ hd (h.executed y hy).1
      rwa [Option.some.inj ((runs_kept hm hkeep).symm.trans hx)] at hm
    obtain ⟨hmet,hkind⟩ := h.executed x hfull
    exact hfailed x (List.mem_filter.mpr ⟨hf,bne_iff_ne.mpr hkind⟩) hmet

theorem covered_of_right (h : BuiltRight a root more) : Covered a root more where
  registered := by
    intro x hx
    by_contra hmet
    apply h.kept [x.owner] _ x hx List.mem_cons_self
    apply needsDropped_eq_false.mpr
    intro d hd
    rw [List.mem_singleton.mp hd]
    exact hmet
  executed := by
    intro x hx
    by_contra hno
    apply (h.built [] [x] _).2 x hx List.mem_cons_self
    apply built_iff.mpr
    refine ⟨?_,fun d hd => nomatch hd⟩
    intro f hf hmet
    obtain ⟨hf,hkind⟩ := List.mem_filter.mp hf
    rw [List.mem_singleton.mp hf] at hmet hkind
    exact hno ⟨hmet,bne_iff_ne.mp hkind⟩

variable (a root more)

end Built

section Moved

def libLabel : Label := ⟨"","pkg","lib"⟩

def libFile : Artifact := ⟨⟨"bazel-out/opt/bin",false⟩,"pkg/lib.txt",false,false⟩

def libAction : Owned := ⟨libLabel,⟨"FileWrite",.writeFile [] false,[],[libFile]⟩⟩

/-- A library that moves itself to another configuration, which is what stands for it
under the key that it was asked for with. -/
def movedLib : Analysed Bool := ⟨libLabel,true,[libFile],[libAction],[],[]⟩

def usesLib : Analysed Bool := ⟨⟨"","pkg","all"⟩,false,[libFile],[],[⟨libLabel,false⟩],[]⟩

def movedValue (n : Node Bool) : Option (Analysed Bool) :=
  if n = .target ⟨⟨"","pkg","all"⟩,false⟩ then some usesLib
  else if n = .target ⟨libLabel,false⟩ ∨ n = .target ⟨libLabel,true⟩ then some movedLib
  else none

def movedAnalysis : Analysis Bool where
  value := movedValue
  roots := [.target ⟨⟨"","pkg","all"⟩,false⟩]
  nodes := [.target ⟨⟨"","pkg","all"⟩,false⟩,.target ⟨libLabel,false⟩]
  walked := ⟨5,by decide⟩

def movedRoot : Root movedAnalysis :=
  ⟨.target ⟨⟨"","pkg","all"⟩,false⟩,usesLib,List.mem_cons_self,rfl⟩

end Moved

end BuildFiji.Cli
