import BuildFiji.Lib.FirstOccurrence
import BuildFiji.Query.Reach

/-!
# The order of a result

A configured query lists its result in the order its operands give. The patterns are read
anew for it, straight from the graph: its evaluator has no universe and skips no pattern.
-/

set_option autoImplicit false
set_option linter.all false

namespace BuildFiji.Query

open BuildFiji.Graph BuildFiji.FirstOccurrence

namespace Evaluator

section Ordered
variable (e : Evaluator) (chars : CharClass) (fuel : ℕ)
  (regex : String → Except String (String → Bool)) (suiteTests : Label → Option (List Label))

/-- The targets of a pattern, in the order of their labels. -/
def patternOrdered (word : String) : Result (List Label) := do
  return (Std.ExtTreeSet.ofList (← said (e.graph.pattern word)) compare).toList

/-- A union keeps the order of its operands, the other operators that of the left one. -/
def evalOrdered : Expr → Result (List Label)
  | .word w => return addAll [] (← patternOrdered e w)
  | .set words => words.foldlM (fun out w => return addAll out (← patternOrdered e w)) []
  | .binary .union l r => do
    let left ← evalOrdered l
    let right ← evalOrdered r
    return addAll (addAll [] left) right
  | .binary op l r => do
    let right ← eval e chars fuel regex suiteTests r
    let left ← evalOrdered l
    return addAll [] (left.filter fun label => right.contains label = (op = .intersect))
  | other => return addAll [] (← eval e chars fuel regex suiteTests other).toList

end Ordered

/-- Both fail, or the list has every element of the set once and nothing else. -/
inductive Lists : Result (List Label) → Result Targets → Prop
  | ok {l : List Label} {s : Targets} (once : l.Nodup) (same : ∀ x, x ∈ l ↔ x ∈ s) : Lists (.ok l) (.ok s)
  | error {a b : Stop} : Lists (.error a) (.error b)

/-- What the graph reads for a pattern is what the evaluator makes of it. -/
inductive Alike : Except String (List Label) → Result Targets → Prop
  | ok {l : List Label} {s : Targets} (same : ∀ x, x ∈ l ↔ x ∈ s) : Alike (.ok l) (.ok s)
  | error {a : String} {b : Stop} : Alike (.error a) (.error b)

/-- Every pattern that is read anew is read alike. -/
def Reads (e : Evaluator) : Expr → Prop
  | .word w => Alike (e.graph.pattern w) (evalWord e w)
  | .set words => ∀ w ∈ words, Alike (e.graph.pattern w) (said (e.pattern w))
  | .binary .union l r => e.Reads l ∧ e.Reads r
  | .binary _ l _ => e.Reads l
  | _ => True

section Lists
variable {e : Evaluator} {chars : CharClass} {fuel : ℕ}
  {regex : String → Except String (String → Bool)} {suiteTests : Label → Option (List Label)}

theorem mem_ofList {labels : List Label} {x : Label} :
    x ∈ Std.ExtTreeSet.ofList labels compare ↔ x ∈ labels := by
  simp [Std.ExtTreeSet.mem_ofList]

theorem mem_patternOrdered {word : String} {labels : List Label} (h : e.graph.pattern word = .ok labels) :
    ∃ l, patternOrdered e word = .ok l ∧ ∀ x, x ∈ l ↔ x ∈ labels := by
  refine ⟨(Std.ExtTreeSet.ofList labels compare).toList,?_,fun x => ?_⟩
  · unfold patternOrdered
    rw [h]
    rfl
  · rw [Std.ExtTreeSet.mem_toList, mem_ofList]

theorem patternOrdered_error {word error : String} (h : e.graph.pattern word = .error error) :
    patternOrdered e word = .error (.error error) := by
  unfold patternOrdered
  rw [h]
  rfl

theorem Lists.word {word : String} (h : Alike (e.graph.pattern word) (evalWord e word)) :
    Lists (do return addAll [] (← patternOrdered e word)) (evalWord e word) := by
  generalize hread : e.graph.pattern word = read at h
  generalize evalWord e word = value at h
  cases h with
  | error =>
    rw [patternOrdered_error hread]
    exact .error
  | ok same =>
    obtain ⟨l,hl,hmem⟩ := mem_patternOrdered hread
    rw [hl]
    refine .ok (nodup_addAll List.nodup_nil _) fun x => ?_
    rw [mem_addAll, hmem, same]
    simp

theorem Lists.words {words : List String} {out : List Label} {before : Targets}
    (h : ∀ w ∈ words, Alike (e.graph.pattern w) (said (e.pattern w))) (ho : out.Nodup)
    (hb : ∀ x, x ∈ out ↔ x ∈ before) :
    Lists (words.foldlM (fun out w => return addAll out (← patternOrdered e w)) out)
      (words.foldlM (fun out word => return union out (← said ((e.pattern word).mapError fun error =>
        if e.universeTargets.isSome then subqueryFailed word error else error))) before) := by
  induction words generalizing out before with
  | nil => exact .ok ho hb
  | cons w words ih =>
    have hw := h w List.mem_cons_self
    rw [List.foldlM_cons, List.foldlM_cons]
    generalize hread : e.graph.pattern w = read at hw
    cases hpattern : e.pattern w with
    | error error =>
      rw [hpattern] at hw
      cases hw
      rw [patternOrdered_error hread]
      exact .error
    | ok s =>
      rw [hpattern] at hw
      cases hw with
      | ok same =>
        obtain ⟨l,hl,hmem⟩ := mem_patternOrdered hread
        rw [hl]
        refine ih (fun v hv => h v (List.mem_cons_of_mem _ hv)) (nodup_addAll ho l) fun x => ?_
        rw [mem_addAll, hb, hmem, same, union, Std.ExtTreeSet.mem_union_iff]

/-- The value of a whole query is that of its expression, but for the text of an error. -/
theorem eval_cases (written : Expr) :
    (∃ s, eval e chars fuel regex suiteTests written = .ok s ∧
      evalIn e chars fuel regex suiteTests [] written = .ok s) ∨
    ∃ a b, eval e chars fuel regex suiteTests written = .error a ∧
      evalIn e chars fuel regex suiteTests [] written = .error b := by
  unfold eval
  cases evalIn e chars fuel regex suiteTests [] written with
  | ok s =>
    refine .inl ⟨s,?_,rfl⟩
    cases written <;> rfl
  | error b =>
    refine .inr ?_
    split
    · dsimp only
      split
      · exact ⟨_,_,rfl,rfl⟩
      · exact ⟨_,_,rfl,rfl⟩
    · exact ⟨_,_,rfl,rfl⟩

theorem lists_eval {listed : Result (List Label)} {written : Expr} :
    Lists listed (eval e chars fuel regex suiteTests written) ↔
      Lists listed (evalIn e chars fuel regex suiteTests [] written) := by
  obtain ⟨s,heval,hvalue⟩ | ⟨a,b,heval,hvalue⟩ := @eval_cases e chars fuel regex suiteTests written
  · rw [heval, hvalue]
  · rw [heval, hvalue]
    constructor
    · rintro ⟨⟩
      exact .error
    · rintro ⟨⟩
      exact .error

theorem Lists.result (value : Result Targets) : Lists (do return addAll [] (← value).toList) value := by
  cases value with
  | error => exact .error
  | ok s =>
    refine .ok (nodup_addAll List.nodup_nil _) fun x => ?_
    rw [mem_addAll, Std.ExtTreeSet.mem_toList]
    simp

theorem Lists.union {left right : Result (List Label)} {a b : Result Targets} (ha : Lists left a)
    (hb : Lists right b) :
    Lists (do return addAll (addAll [] (← left)) (← right))
      (do let r ← b; let l ← a; return evalOp l r .union) := by
  cases ha with
  | error => cases hb <;> exact .error
  | ok once same =>
    cases hb with
    | error => exact .error
    | ok once' same' =>
      refine .ok (nodup_addAll (nodup_addAll List.nodup_nil _) _) fun x => ?_
      rw [mem_addAll, mem_addAll, same, same', evalOp, Evaluator.union, Std.ExtTreeSet.mem_union_iff]
      simp

theorem Lists.other {op : Op} (hop : op ≠ .union) {left : Result (List Label)} {a b c : Result Targets}
    (ha : Lists left a) (hbc : (∃ s, b = .ok s ∧ c = .ok s) ∨ ∃ x y, b = .error x ∧ c = .error y) :
    Lists (do
        let right ← b
        return addAll [] ((← left).filter fun label => right.contains label = (op = .intersect)))
      (do let r ← c; let l ← a; return evalOp l r op) := by
  obtain ⟨right,rfl,rfl⟩ | ⟨x,y,rfl,rfl⟩ := hbc
  · cases ha with
    | error => exact .error
    | ok once same =>
      refine .ok (nodup_addAll List.nodup_nil _) fun x => ?_
      rw [mem_addAll, List.mem_filter, same]
      cases op with
      | union => exact absurd rfl hop
      | intersect =>
        rw [evalOp, mem_filter]
        simp
      | except =>
        rw [evalOp, mem_filter]
        cases right.contains x <;> simp
  · exact .error

variable (e chars fuel regex suiteTests) in
theorem evalOrdered_lists : (written : Expr) → e.Reads written →
    Lists (evalOrdered e chars fuel regex suiteTests written)
      (evalIn e chars fuel regex suiteTests [] written)
  | .word w, h => by
    rw [evalOrdered, evalIn]
    exact .word h
  | .set words, h => by
    rw [evalOrdered, evalIn]
    exact Lists.words h List.nodup_nil (by simp)
  | .binary .union l r, h => by
    rw [evalOrdered, evalIn]
    exact (evalOrdered_lists l h.1).union (evalOrdered_lists r h.2)
  | .binary .intersect l r, h => by
    rw [evalOrdered, evalIn]
    · exact (evalOrdered_lists l h).other (by decide) (eval_cases r)
    · intro hop
      cases hop
  | .binary .except l r, h => by
    rw [evalOrdered, evalIn]
    · exact (evalOrdered_lists l h).other (by decide) (eval_cases r)
    · intro hop
      cases hop
  | .variable _, _ => lists_eval.mp (.result _)
  | .letIn _ _ _, _ => lists_eval.mp (.result _)
  | .call _ _, _ => lists_eval.mp (.result _)

section Plain
variable (hk : e.options.keepGoing = false) (hu : e.universeTargets = none)
include hk hu

theorem pattern_plain (w : String) : e.pattern w =
    (e.graph.pattern w).map fun labels => Std.ExtTreeSet.ofList labels compare := by
  unfold Evaluator.pattern
  simp only [hk, hu]
  cases e.graph.pattern w <;> rfl

theorem alike_plain (w : String) : Alike (e.graph.pattern w) (evalWord e w) ∧
    Alike (e.graph.pattern w) (said (e.pattern w)) := by
  unfold evalWord
  rw [pattern_plain hk hu]
  simp only [hk, hu]
  cases e.graph.pattern w with
  | error error => exact ⟨.error,.error⟩
  | ok labels => exact ⟨.ok fun x => mem_ofList.symm,.ok fun x => mem_ofList.symm⟩

/-- Without `keep_going` and without a universe every pattern is read alike. -/
theorem reads_plain : (written : Expr) → e.Reads written
  | .word w => (alike_plain hk hu w).1
  | .set _ => fun w _ => (alike_plain hk hu w).2
  | .binary .union l r => ⟨reads_plain l,reads_plain r⟩
  | .binary .intersect l _ => reads_plain l
  | .binary .except l _ => reads_plain l
  | .variable _ => trivial
  | .letIn _ _ _ => trivial
  | .call _ _ => trivial

end Plain

end Lists

section Agrees
variable (e : Evaluator) (chars : CharClass) (fuel : ℕ)
  (regex : String → Except String (String → Bool)) (suiteTests : Label → Option (List Label))

/-- The listing has the targets of the value, each once, when every pattern that is read anew for
it is read alike, as it is without `keep_going` and without a universe. -/
theorem evalOrdered_agrees (written : Expr) :
    (e.options.keepGoing = false → e.universeTargets = none → e.Reads written) ∧
    (e.Reads written →
      ((∃ l, evalOrdered e chars fuel regex suiteTests written = .ok l) ↔
        ∃ s, eval e chars fuel regex suiteTests written = .ok s) ∧
      ∀ l s, evalOrdered e chars fuel regex suiteTests written = .ok l →
        eval e chars fuel regex suiteTests written = .ok s → l.Nodup ∧ ∀ x, x ∈ l ↔ x ∈ s) := by
  refine ⟨fun hk hu => reads_plain hk hu written,fun h => ?_⟩
  have hlists := lists_eval.mpr (evalOrdered_lists e chars fuel regex suiteTests written h)
  generalize evalOrdered e chars fuel regex suiteTests written = listed at hlists ⊢
  generalize eval e chars fuel regex suiteTests written = value at hlists ⊢
  cases hlists with
  | error =>
    refine ⟨⟨?_,?_⟩,?_⟩
    · rintro ⟨l,hl⟩
      cases hl
    · rintro ⟨s,hs⟩
      cases hs
    · intro l s hl
      cases hl
  | ok once same =>
    refine ⟨⟨fun _ => ⟨_,rfl⟩,fun _ => ⟨_,rfl⟩⟩,?_⟩
    rintro l s ⟨⟩ ⟨⟩
    exact ⟨once,same⟩

end Agrees

/-- One package with one target; another pattern is no package. -/
def oneTarget : TargetGraph where
  pattern w := if w = "//a:x" then .ok [⟨"","a","x"⟩] else .error "no such package"
  patternLenient w := if w = "//a:x" then ⟨[⟨"","a","x"⟩],none,false⟩ else ⟨[],some "no such package",false⟩
  node _ := .ok ⟨.sourceFile,"",[],[]⟩
  siblings _ := .ok []
  buildFiles _ := .ok []
  loadFiles _ := .ok []
  visible _ _ := .ok true
  isConfiguration _ := true
  inConfiguration _ _ := true
  display := labelText

theorem evalOrdered_agrees_oneTarget :
    ∃ l, evalOrdered (new oneTarget ⟨true,true,true,false⟩) .asciiOnly 0 (fun _ => .error "") (fun _ => none)
      (.binary .union (.word "//a:x") (.word "//a:x")) = .ok l ∧ l.Nodup := by
  have h := evalOrdered_agrees (new oneTarget ⟨true,true,true,false⟩) .asciiOnly 0 (fun _ => .error "")
    (fun _ => none) (.binary .union (.word "//a:x") (.word "//a:x"))
  have hreads := h.1 rfl rfl
  obtain ⟨l,hl⟩ := (h.2 hreads).1.mpr ⟨_,rfl⟩
  exact ⟨l,hl,((h.2 hreads).2 l _ hl rfl).1⟩

/-- With `keep_going` a pattern that fails is skipped by the one and fails the other, and a pattern
outside the universe fails the one and is listed by the other. -/
theorem evalOrdered_differs :
    (¬ ∀ (e : Evaluator) (written : Expr), e.universeTargets = none →
      ((∃ l, evalOrdered e .asciiOnly 0 (fun _ => .error "") (fun _ => none) written = .ok l) ↔
        ∃ s, eval e .asciiOnly 0 (fun _ => .error "") (fun _ => none) written = .ok s)) ∧
    ¬ ∀ (e : Evaluator) (written : Expr), e.options.keepGoing = false →
      ((∃ l, evalOrdered e .asciiOnly 0 (fun _ => .error "") (fun _ => none) written = .ok l) ↔
        ∃ s, eval e .asciiOnly 0 (fun _ => .error "") (fun _ => none) written = .ok s) := by
  constructor
  · intro h
    obtain ⟨l,hl⟩ := (h (new oneTarget ⟨true,true,true,true⟩) (.word "//b:y") rfl).mpr ⟨∅,rfl⟩
    cases hl
  · intro h
    obtain ⟨s,hs⟩ := (h { new oneTarget ⟨true,true,true,false⟩ with universeTargets := some ∅ }
      (.word "//a:x") rfl).mp ⟨_,rfl⟩
    have hok : (eval { new oneTarget ⟨true,true,true,false⟩ with universeTargets := some ∅ } .asciiOnly 0
      (fun _ => .error "") (fun _ => none) (.word "//a:x")).isOk = false := by decide +kernel
    rw [hs] at hok
    cases hok

end Evaluator

end BuildFiji.Query
