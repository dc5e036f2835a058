import BuildFiji.Query.Pieces

/-!
# The parser ends

Each call of the parser either takes a token or is nested in one that has, so a
multiple of the number of tokens is fuel enough for every input.
-/

set_option autoImplicit false
set_option linter.all false

namespace BuildFiji.Query

open BuildFiji.Fallible

/-- A parser that has the fuel it asks for, and leaves fewer tokens than a bound. -/
structure Settles {α : Type} (x : Result (α × List Token)) (n : ℕ) : Prop where
  fuelled : x ≠ .error .outOfFuel
  shorter : ∀ a rest, x = .ok (a,rest) → rest.length < n

section Settles
variable {α β : Type} {n m : ℕ}

theorem Settles.error {text : String} : Settles (.error (.error text) : Result (α × List Token)) n :=
  ⟨by simp,by simp⟩

theorem Settles.ok {a : α} {rest : List Token} (h : rest.length < n) : Settles (.ok (a,rest)) n := by
  refine ⟨by simp,fun b r heq => ?_⟩
  obtain ⟨-,rfl⟩ := Prod.mk.inj (Except.ok.inj heq)
  exact h

theorem Settles.bind {x : Result (α × List Token)} {f : α × List Token → Result (β × List Token)}
    (h : Settles x m) (k : ∀ a rest, rest.length < m → Settles (f (a,rest)) n) :
    Settles (x >>= f) n := by
  cases x with
  | error stop =>
    have herror : (Except.error stop >>= f) = .error stop := rfl
    rw [herror]
    refine ⟨fun heq => h.fuelled ?_,fun a rest heq => by cases heq⟩
    rw [Except.error.inj heq]
  | ok found => exact k found.1 found.2 (h.shorter found.1 found.2 rfl)

theorem Settles.mono {x : Result (α × List Token)} (h : Settles x m) (hmn : m ≤ n) : Settles x n :=
  ⟨h.fuelled,fun a rest heq => (h.shorter a rest heq).trans_le hmn⟩

theorem Settles.expect {want : Token} {ts : List Token} {f : List Token → Result (β × List Token)}
    (k : ∀ rest, rest.length < ts.length → Settles (f rest) n) : Settles (expect want ts >>= f) n := by
  cases ts with
  | nil => exact .error
  | cons t ts =>
    rw [Query.expect]
    split
    · exact k ts (by simp)
    · exact .error

theorem setWords_settles (ts : List Token) : Settles (setWords ts) ts.length := by
  induction ts with
  | nil => exact .error
  | cons t ts ih =>
    have hword : ∀ w : String, Settles (setWords ts >>= fun read => return (w::read.1,read.2))
        (ts.length+1) := fun w => ih.bind fun words rest hlt => .ok (by dsimp only; omega)
    cases t with
    | word w => exact hword w
    | int m => exact hword (toString m)
    | closeParen => exact .ok (by simp)
    | _ => exact .error

theorem argument_word_settles (ts : List Token) : Settles (wordArgument ts) ts.length := by
  match ts with
  | [] => exact .error
  | t::ts => cases t <;> first | exact .ok (by simp) | exact .error

theorem argument_int_settles (ts : List Token) : Settles (intArgument ts) ts.length := by
  match ts with
  | [] => exact .error
  | t::ts => cases t <;> first | exact .ok (by simp) | exact .error

end Settles

/-- Three for each token, and some for the function itself, is fuel enough. -/
structure Fuelled (dialect : Dialect) (fuel : ℕ) : Prop where
  expression : ∀ ts : List Token, 3*ts.length+2 ≤ fuel →
    Settles (expression dialect fuel ts) ts.length
  operators : ∀ (left : Expr) (ts : List Token), 3*ts.length+1 ≤ fuel →
    Settles (operators dialect fuel left ts) (ts.length+1)
  primary : ∀ ts : List Token, 3*ts.length+1 ≤ fuel → Settles (primary dialect fuel ts) ts.length
  call : ∀ (name : String) (ts : List Token), 3*ts.length+5 ≤ fuel →
    Settles (call dialect fuel name ts) (ts.length+1)
  arguments : ∀ (name : String) (kinds : List ArgKind) (ts : List Token), kinds ≠ [] →
    3*ts.length+4 ≤ fuel → Settles (arguments dialect fuel name kinds ts) ts.length
  argument : ∀ (kind : ArgKind) (ts : List Token), 3*ts.length+3 ≤ fuel →
    Settles (argument dialect fuel kind ts) ts.length

theorem kinds_ne_nil (f : Function) : kinds f ≠ [] := by
  cases f <;> decide

theorem fuelled (dialect : Dialect) (fuel : ℕ) : Fuelled dialect fuel := by
  induction fuel with
  | zero => constructor <;> intros <;> omega
  | succ fuel ih =>
    constructor
    · intro ts hf
      exact (ih.primary ts (by omega)).bind fun left rest hlt =>
        (ih.operators left rest (by omega)).mono hlt
    · intro left ts hf
      rw [operators]
      cases hop : ts.head?.bind operatorOf with
      | none => exact .ok (by omega)
      | some op =>
        cases ts with
        | nil => simp at hop
        | cons t ts =>
          simp only [List.length_cons, List.tail_cons] at hf ⊢
          exact (ih.primary ts (by omega)).bind fun right rest hlt =>
            (ih.operators _ rest (by omega)).mono (by omega)
    · intro ts hf
      cases ts with
      | nil => exact .error
      | cons t ts =>
        simp only [List.length_cons] at hf ⊢
        cases t with
        | word w =>
          rw [primary]
          split
          · next hopen =>
            cases ts with
            | nil => simp at hopen
            | cons t ts =>
              simp only [List.length_cons, List.tail_cons] at hf ⊢
              exact (ih.call w ts (by omega)).mono (by omega)
          · exact .ok (by omega)
        | int n => exact .ok (by omega)
        | openParen =>
          exact (ih.expression ts (by omega)).bind fun inner rest hlt =>
            .expect fun rest' hlt' => .ok (by omega)
        | letWord =>
          cases ts with
          | nil => exact .error
          | cons t ts =>
            simp only [List.length_cons] at hf ⊢
            cases t with
            | word name =>
              exact .expect fun r₁ h₁ => (ih.expression r₁ (by omega)).bind fun value r₂ h₂ =>
                .expect fun r₃ h₃ => (ih.expression r₃ (by omega)).bind fun body r₄ h₄ =>
                  .ok (by omega)
            | _ => exact .error
        | setWord =>
          exact .expect fun r₁ h₁ => (setWords_settles r₁).bind fun words r₂ h₂ => .ok (by omega)
        | _ => exact .error
    · intro name ts hf
      rw [call]
      cases Function.named name dialect with
      | none => exact .error
      | some f =>
        have htail : ∀ (args : List Arg) (rest : List Token), rest.length < ts.length+1 →
            Settles (do
              if args.length < f.signature.1.length ∧ rest.head? = some .closeParen then
                throw (wrongCount "few" name rest)
              return (Expr.call f args,← expect .closeParen rest)) (ts.length+1) := by
          intro args rest hlt
          by_cases hfew : args.length < f.signature.1.length ∧ rest.head? = some .closeParen
          · rw [if_pos hfew]
            exact .error
          · rw [if_neg hfew]
            exact .expect fun rest' hlt' => .ok (show rest'.length < ts.length+1 by omega)
        by_cases hclose : ts.head? = some .closeParen
        · simp only [if_pos hclose]
          exact htail [] ts (by omega)
        · simp only [if_neg hclose]
          exact (ih.arguments name (kinds f) ts (kinds_ne_nil f) (by omega)).bind
            fun args rest hlt => htail args rest (by omega)
    · intro name kinds ts hne hf
      cases kinds with
      | nil => exact absurd rfl hne
      | cons kind kinds =>
        rw [arguments]
        refine (ih.argument kind ts (by omega)).bind fun arg rest hlt => ?_
        by_cases hcomma : rest.head? = some .comma
        · by_cases hkinds : kinds = []
          · simp only [hcomma, hkinds]
            exact .error
          · obtain ⟨rest,rfl⟩ := List.head?_eq_some_iff.mp hcomma
            simp only [List.length_cons] at hlt
            simp only [List.head?_cons, ne_eq, not_true, if_false, if_neg hkinds, List.tail_cons]
            exact (ih.arguments name kinds rest hkinds (by omega)).bind fun args r hr =>
              .ok (show r.length < ts.length by omega)
        · simp only [ne_eq, hcomma, not_false_eq_true, if_true]
          exact .ok hlt
    · intro kind ts hf
      cases kind with
      | expr => exact (ih.expression ts (by omega)).bind fun e rest hlt => .ok hlt
      | word => exact argument_word_settles ts
      | int => exact argument_int_settles ts

theorem wordToken_fuelled (word : List Char) : wordToken word ≠ .error .outOfFuel := by
  rw [wordToken]
  split
  · simp
  · split
    · split <;> simp
    · simp

theorem lexFrom_fuelled (chars : CharClass) (n : ℕ) (cs : List Char) :
    lexFrom chars n cs ≠ .error .outOfFuel := by
  induction cs generalizing n with
  | nil => simp [lexFrom_nil]
  | cons c cs ih =>
    have htail : ∀ (t : Token) (k : ℕ),
        (do return t::(← lexFrom chars k cs)) ≠ (.error .outOfFuel : Result (List Token)) := by
      intro t k heq
      rcases bind_error.mp heq with h | ⟨ts,-,h⟩
      · exact ih k h
      · exact pure_ne_error h
    cases n with
    | succ n => exact ih n
    | zero =>
      rw [lexFrom]
      split
      · exact ih 0
      · split
        · exact htail _ 0
        · split
          · split
            · simp
            · exact htail _ _
          · split
            · intro heq
              rcases bind_error.mp heq with h | ⟨t,-,h⟩
              · exact wordToken_fuelled _ h
              · exact htail t _ h
            · simp

/-- The fuel of the parser is enough for every input. -/
theorem parseIn_fuelled (dialect : Dialect) (chars : CharClass) (input : String) :
    parseIn dialect chars input ≠ .error .outOfFuel := by
  intro heq
  rcases bind_error.mp heq with h | ⟨ts,-,h⟩
  · exact lexFrom_fuelled chars 0 _ h
  · rcases bind_error.mp h with h | ⟨⟨e,rest⟩,-,h⟩
    · exact ((fuelled dialect _).expression ts (le_refl _)).fuelled h
    · cases rest with
      | nil => exact pure_ne_error h
      | cons t rest => simp [throw, throwThe, MonadExceptOf.throw] at h

end BuildFiji.Query
