import BuildFiji.Query.Print

/-!
# Parsing what was written

The parser gives back of a written expression what is read of it, and refuses it
where nothing is. The induction follows the tree; the fuel is that the tokens
ask for.
-/

set_option autoImplicit false
set_option linter.all false

namespace BuildFiji.Query

open BuildFiji.Fallible

/-- A parser gives what is wanted and leaves the rest, or fails where nothing is
wanted. -/
def Yields {α : Type} (x : Result (α × List Token)) (want : Option α) (rest : List Token) : Prop :=
  match want with
  | some a => x = .ok (a,rest)
  | none => ∃ stop, x = .error stop

/-- What may follow an expression: nothing that goes on with it. -/
def Follows (rest : List Token) : Prop :=
  ∀ t ∈ rest.head?, t = .closeParen ∨ t = .comma ∨ t = .inWord

section Yields
variable {α β : Type} {rest rest' : List Token}

theorem Yields.bind {x : Result (α × List Token)} {want : Option α}
    {f : α × List Token → Result (β × List Token)} {g : α → Option β} (h : Yields x want rest)
    (k : ∀ a, Yields (f (a,rest)) (g a) rest') : Yields (x >>= f) (want >>= g) rest' := by
  cases want with
  | none =>
    obtain ⟨stop,rfl⟩ := h
    exact ⟨stop,rfl⟩
  | some a =>
    have hx : x = .ok (a,rest) := h
    rw [hx]
    exact k a

theorem Yields.ok {a : α} : Yields (.ok (a,rest)) (some a) rest := rfl

theorem yields_iff {x : Result (α × List Token)} {want : Option α} (h : Yields x want rest) (a : α)
    (r : List Token) : x = .ok (a,r) ↔ want = some a ∧ r = rest := by
  cases want with
  | none =>
    obtain ⟨stop,rfl⟩ := h
    simp
  | some b =>
    have hx : x = .ok (b,rest) := h
    simp only [hx, Except.ok.injEq, Prod.mk.injEq, Option.some.injEq, eq_comm]

end Yields

section Steps
variable {dialect : Dialect} {fuel : ℕ} {rest ts : List Token}

theorem Follows.not_open (h : Follows rest) : rest.head? ≠ some .openParen := by
  intro hhead
  rcases h _ hhead with h | h | h <;> cases h

theorem follows_close (rest : List Token) : Follows (.closeParen::rest) := by
  intro t ht
  exact .inl (by simpa [eq_comm] using ht)

theorem operators_done (h : Follows rest) (hf : 1 ≤ fuel) (left : Expr) :
    operators dialect fuel left rest = .ok (left,rest) := by
  obtain ⟨fuel,rfl⟩ : ∃ n, fuel = n+1 := ⟨fuel-1,by omega⟩
  have hno : rest.head?.bind operatorOf = none := by
    cases hrest : rest.head? with
    | none => rfl
    | some t => rcases h t hrest with rfl | rfl | rfl <;> rfl
  rw [operators, hno]

theorem expression_of_primary {want : Option Expr} (hf : 1 ≤ fuel)
    (h : Yields (primary dialect fuel ts) want rest) (hrest : Follows rest) :
    Yields (expression dialect (fuel+1) ts) want rest := by
  have hbind := h.bind (f := fun found => operators dialect fuel found.1 found.2)
    (g := some) fun left => by
      rw [operators_done hrest hf]
      exact .ok
  simpa [expression] using hbind

theorem primary_parenthesized {want : Option Expr}
    (h : Yields (expression dialect fuel ts) want (.closeParen::rest)) :
    Yields (primary dialect (fuel+1) (.openParen::ts)) want rest := by
  rw [primary]
  have hbind : Yields (expression dialect fuel ts >>= fun found => do
      return (found.1,← expect .closeParen found.2)) (want >>= some) rest := h.bind fun _ => rfl
  simpa using hbind

theorem operators_step {op : Op} {token : Token} (htoken : operatorOf token = some op) {left : Expr}
    {want : Option Expr} (hf : 1 ≤ fuel) (h : Yields (primary dialect fuel ts) want rest)
    (hrest : Follows rest) : Yields (operators dialect (fuel+1) left (token::ts))
      (want >>= fun right => some (.binary op left right)) rest := by
  rw [operators, List.head?_cons, Option.bind_some, htoken]
  refine h.bind (f := fun found => operators dialect fuel (.binary op left found.1) found.2) ?_
  intro right
  rw [operators_done hrest hf]
  exact .ok

end Steps

/-- The tokens of items with something between them. -/
theorem tokens_separate (between : List Piece) (bs : List Token) (hb : tokensOf between = .ok bs)
    {item : List Piece} {items : List (List Piece)} (hne : items ≠ []) {ts : List Token} :
    tokensOf (separate between (item::items)) = .ok ts ↔ ∃ us vs, tokensOf item = .ok us ∧
      tokensOf (separate between items) = .ok vs ∧ ts = us ++ (bs ++ vs) := by
  cases items with
  | nil => exact absurd rfl hne
  | cons item' items =>
    rw [separate, List.append_assoc, tokensOf_append_ok]
    simp only [tokensOf_append_ok, hb, Except.ok.injEq]
    constructor
    · rintro ⟨us,-,hus,⟨-,vs,rfl,hvs,rfl⟩,rfl⟩
      exact ⟨us,vs,hus,hvs,rfl⟩
    · rintro ⟨us,vs,hus,hvs,rfl⟩
      exact ⟨us,_,hus,⟨bs,vs,rfl,hvs,rfl⟩,rfl⟩

section Words
variable {chars : CharClass}

theorem word_primary {s : Spelling} (h : s.Allowed chars) {ts : List Token}
    (hts : tokensOf [s.piece] = .ok ts) {dialect : Dialect} {fuel : ℕ} (hf : 1 ≤ fuel)
    {rest : List Token} (hrest : Follows rest) :
    Yields (primary dialect fuel (ts ++ rest)) (some (wordExpr s.seen)) rest := by
  obtain ⟨fuel,rfl⟩ : ∃ n, fuel = n+1 := ⟨fuel-1,by omega⟩
  rcases spelling_token h hts with ⟨rfl,hseen,-⟩ | ⟨n,-,rfl,hseen,-⟩
  · rw [List.singleton_append, primary, if_neg hrest.not_open, hseen]
    exact .ok
  · rw [List.singleton_append, primary, hseen, wordExpr_numeral]
    exact .ok

theorem word_argument {s : Spelling} (h : s.Allowed chars) {ts : List Token}
    (hts : tokensOf [s.piece] = .ok ts) (rest : List Token) :
    wordArgument (ts ++ rest) = .ok (.word s.seen,rest) := by
  rcases spelling_token h hts with ⟨rfl,hseen,-⟩ | ⟨n,-,rfl,hseen,-⟩
  · rw [hseen]
    rfl
  · rw [hseen]
    rfl

theorem word_setWords {s : Spelling} (h : s.Allowed chars) {ts : List Token}
    (hts : tokensOf [s.piece] = .ok ts) {words : List String} {tail rest : List Token}
    (htail : setWords tail = .ok (words,rest)) :
    setWords (ts ++ tail) = .ok (s.seen::words,rest) := by
  rcases spelling_token h hts with ⟨rfl,hseen,-⟩ | ⟨n,-,rfl,hseen,-⟩
  · rw [List.singleton_append, setWords, htail, hseen]
    rfl
  · rw [List.singleton_append, setWords, htail, hseen]
    rfl

theorem setWords_all {words : List Spelling} (h : ∀ s ∈ words, s.Allowed chars) {ts : List Token}
    (hts : tokensOf (separate [.fixed ' '] (words.map fun s => [s.piece])) = .ok ts)
    (rest : List Token) :
    setWords (ts ++ .closeParen::rest) = .ok (words.map Spelling.seen,rest) := by
  induction words generalizing ts with
  | nil =>
    obtain rfl : [] = ts := by simpa [separate, tokensOf] using hts
    rfl
  | cons s words ih =>
    obtain ⟨hs,hwords⟩ := List.forall_mem_cons.mp h
    by_cases hne : words = []
    · subst hne
      exact word_setWords hs hts rfl
    · rw [List.map_cons, tokens_separate [.fixed ' '] [] rfl (by simpa using hne)] at hts
      obtain ⟨us,vs,hus,hvs,rfl⟩ := hts
      rw [List.append_assoc]
      exact word_setWords hs hus (ih hwords hvs)

theorem numeral_allowed (n : ℕ) : Spelling.Allowed .asciiOnly ⟨toString n,false⟩ := by
  refine ⟨numeral_sound _ n,fun _ hmem => ?_⟩
  have hall : (keywords.all fun word => !isNumeral word) = true := by decide
  have hno := List.all_eq_true.mp hall _ hmem
  dsimp only at hno
  rw [isNumeral_toString] at hno
  cases hno

/-- The tokens of an integer: a sign is a token of its own. -/
theorem intPieces_tokens {n : ℤ} {ts : List Token} (hts : tokensOf (intPieces n) = .ok ts) :
    if n < 0 then ∃ us, ts = .minus::us else ts = [.int n] := by
  rw [intPieces] at hts
  split
  · next hneg =>
    rw [if_pos hneg, tokensOf_fixed_ok] at hts
    obtain ⟨vs,-,rfl⟩ := hts
    exact ⟨vs,rfl⟩
  · next hpos =>
    rw [if_neg hpos] at hts
    rcases spelling_token (numeral_allowed n.natAbs) hts with
      ⟨-,-,hno⟩ | ⟨m,-,rfl,-,-,-,hm⟩
    · exact absurd ⟨rfl,isNumeral_toString n.natAbs⟩ hno
    · dsimp only at hm
      rw [hm, decimal_toString]
      have habs : ((n.natAbs : ℕ) : ℤ) = n := by omega
      rw [habs]

end Words

section Heads
variable {chars : CharClass} {dialect : Dialect}

theorem name_token (f : Function) : (Piece.bare f.name).tokens = .ok [.word f.name] := by
  cases f <;> decide

/-- What an argument may start with. -/
def Opens (ts : List Token) : Prop := ∃ t us, ts = t::us ∧ t ≠ .closeParen

theorem spelling_opens {s : Spelling} (h : s.Allowed chars) {ts : List Token}
    (hts : tokensOf [s.piece] = .ok ts) : Opens ts := by
  rcases spelling_token h hts with ⟨rfl,-⟩ | ⟨n,-,rfl,-⟩
  · exact ⟨_,[],rfl,by simp⟩
  · exact ⟨_,[],rfl,by simp⟩

/-- No argument starts with a closing parenthesis. -/
theorem arg_opens {arg : WrittenArg} (h : arg.Allowed chars dialect) {ts : List Token}
    (hts : tokensOf arg.pieces = .ok ts) : Opens ts := by
  have htoken : ∀ {p : Piece} {t : Token} {ps : List Piece}, p.tokens = .ok [t] →
      t ≠ .closeParen → tokensOf (p::ps) = .ok ts → Opens ts := by
    intro p t ps hp ht hps
    obtain ⟨vs,-,rfl⟩ := (tokensOf_token_ok hp).mp hps
    exact ⟨t,vs,rfl,ht⟩
  cases arg with
  | word s => exact spelling_opens h hts
  | int n =>
    have htokens := intPieces_tokens hts
    split at htokens
    · obtain ⟨us,rfl⟩ := htokens
      exact ⟨_,us,rfl,by simp⟩
    · exact ⟨_,[],htokens,by simp⟩
  | expr e =>
    cases e with
    | word s => exact spelling_opens h hts
    | «variable» name quoted => exact spelling_opens h hts
    | set words => exact htoken (t := .setWord) rfl (by decide) hts
    | binary op l r => exact htoken (t := .openParen) rfl (by decide) hts
    | letIn name value body => exact htoken (t := .letWord) rfl (by decide) hts
    | call f args => exact htoken (name_token f) (by simp) hts

end Heads

section Shapes

def Op.token : Op → Token
  | .union => .plus
  | .intersect => .caret
  | .except => .minus

theorem op_punctuation (op : Op) : punctuation op.char = some op.token := by
  cases op <;> rfl

theorem op_operator (op : Op) : operatorOf op.token = some op := by
  cases op <;> rfl

theorem tokensOf_nil_ok {ts : List Token} : tokensOf [] = .ok ts ↔ ts = [] := by
  simp [tokensOf, eq_comm]

theorem tokens_set {words : List Spelling} {ts : List Token} :
    tokensOf (Written.set words).pieces = .ok ts ↔
      ∃ us, tokensOf (separate [.fixed ' '] (words.map fun s => [s.piece])) = .ok us ∧
        ts = .setWord::.openParen::(us ++ [.closeParen]) := by
  rw [Written.pieces, tokensOf_token_ok (t := .setWord) rfl]
  simp only [tokensOf_fixed_ok, tokensOf_append_ok, tokensOf_nil_ok]
  simp [punctuation]

theorem tokens_binary {op : Op} {l r : Written} {ts : List Token} :
    tokensOf (Written.binary op l r).pieces = .ok ts ↔
      ∃ us vs, tokensOf l.pieces = .ok us ∧ tokensOf r.pieces = .ok vs ∧
        ts = .openParen::(us ++ .closeParen::op.token::.openParen::(vs ++ [.closeParen])) := by
  rw [Written.pieces]
  simp only [tokensOf_fixed_ok, tokensOf_append_ok, tokensOf_nil_ok, op_punctuation]
  simp [punctuation, and_assoc]

theorem tokens_letIn {name : Spelling} {value body : Written} {ts : List Token} :
    tokensOf (Written.letIn name value body).pieces = .ok ts ↔
      ∃ ns us vs, tokensOf [name.piece] = .ok ns ∧ tokensOf value.pieces = .ok us ∧
        tokensOf body.pieces = .ok vs ∧ ts = .letWord::(ns ++ .equals::(us ++ .inWord::vs)) := by
  have hname : ∀ ps : List Piece, name.piece::ps = [name.piece] ++ ps := fun _ => rfl
  rw [Written.pieces, tokensOf_token_ok (t := .letWord) rfl]
  simp only [tokensOf_fixed_ok]
  rw [hname]
  simp only [tokensOf_fixed_ok, tokensOf_append_ok, tokensOf_token_ok (p := .bare "in") (t := .inWord) rfl]
  simp [punctuation, and_assoc]

theorem tokens_call {f : Function} {args : List WrittenArg} {ts : List Token} :
    tokensOf (Written.call f args).pieces = .ok ts ↔
      ∃ us, tokensOf (separate [.fixed ',',.fixed ' '] (WrittenArg.allPieces args)) = .ok us ∧
        ts = .word f.name::.openParen::(us ++ [.closeParen]) := by
  rw [Written.pieces, tokensOf_token_ok (name_token f)]
  simp only [tokensOf_fixed_ok, tokensOf_append_ok, tokensOf_nil_ok]
  simp [punctuation]

/-- The tokens of two arguments or more. -/
theorem tokens_args {arg : WrittenArg} {args : List WrittenArg} (hne : args ≠ []) {ts : List Token} :
    tokensOf (separate [.fixed ',',.fixed ' '] (WrittenArg.allPieces (arg::args))) = .ok ts ↔
      ∃ us vs, tokensOf arg.pieces = .ok us ∧
        tokensOf (separate [.fixed ',',.fixed ' '] (WrittenArg.allPieces args)) = .ok vs ∧
        ts = us ++ .comma::vs := by
  have hpieces : WrittenArg.allPieces args ≠ [] := by
    cases args with
    | nil => exact absurd rfl hne
    | cons arg' args => simp [WrittenArg.allPieces]
  rw [WrittenArg.allPieces]
  exact tokens_separate _ [.comma] rfl hpieces

end Shapes

section Parsing
variable {chars : CharClass} {dialect : Dialect}

theorem readAll_length {args : List WrittenArg} {found : List Arg}
    (h : WrittenArg.readAll args = some found) : found.length = args.length := by
  induction args generalizing found with
  | nil =>
    obtain rfl : [] = found := by simpa [WrittenArg.readAll] using h
    rfl
  | cons arg args ih =>
    simp only [WrittenArg.readAll, Option.bind_eq_bind, Option.bind_eq_some_iff, Option.pure_def,
      Option.some.injEq] at h
    obtain ⟨a,-,as,has,rfl⟩ := h
    rw [List.length_cons, List.length_cons, ih has]

/-- A call is what its arguments make it. -/
theorem call_yields {f : Function} (hf : f.isIn dialect) {args : List WrittenArg} {fuel : ℕ}
    {ts rest : List Token} (hsig : signatureAllows f args) (hopens : Opens ts)
    (h : Yields (arguments dialect fuel f.name (kinds f) (ts ++ .closeParen::rest))
      (WrittenArg.readAll args) (.closeParen::rest)) :
    Yields (call dialect (fuel+1) f.name (ts ++ .closeParen::rest))
      (WrittenArg.readAll args >>= fun found => some (.call f found)) rest := by
  have hstart : (ts ++ .closeParen::rest).head? ≠ some .closeParen := by
    obtain ⟨t,us,rfl,ht⟩ := hopens
    simpa using ht
  rw [call, Function.named_name hf]
  simp only [if_neg hstart]
  cases hread : WrittenArg.readAll args with
  | none =>
    rw [hread] at h
    obtain ⟨stop,hstop⟩ := h
    exact ⟨stop,by rw [hstop]; rfl⟩
  | some found =>
    rw [hread] at h
    have hok : arguments dialect fuel f.name (kinds f) (ts ++ .closeParen::rest) =
        .ok (found,.closeParen::rest) := h
    have hcount : ¬ (found.length < f.signature.1.length ∧
        (Token.closeParen::rest).head? = some .closeParen) := by
      rw [readAll_length hread]
      exact fun hlt => absurd hsig.1 (not_le.mpr hlt.1)
    rw [hok]
    show (do
      if found.length < f.signature.1.length ∧ (Token.closeParen::rest).head? = some .closeParen then
        throw (wrongCount "few" f.name (.closeParen::rest))
      return (Expr.call f found,← expect .closeParen (.closeParen::rest)) : Result (Expr × List Token)) = _
    rw [if_neg hcount]
    rfl

theorem args_open {args : List WrittenArg} (h : WrittenArg.AllAllowed chars dialect args)
    (hne : args ≠ []) {ts : List Token}
    (hts : tokensOf (separate [.fixed ',',.fixed ' '] (WrittenArg.allPieces args)) = .ok ts) :
    Opens ts := by
  cases args with
  | nil => exact absurd rfl hne
  | cons arg args =>
    by_cases hargs : args = []
    · subst hargs
      exact arg_opens h.1 hts
    · obtain ⟨us,vs,hus,-,rfl⟩ := (tokens_args hargs).mp hts
      obtain ⟨t,us,rfl,ht⟩ := arg_opens h.1 hus
      exact ⟨t,us ++ .comma::vs,rfl,ht⟩

mutual

/-- An expression parses as what is read of it. -/
theorem Written.parses (w : Written) (h : w.Allowed chars dialect) {ts : List Token}
    (hts : tokensOf w.pieces = .ok ts) (fuel : ℕ) (hf : 3*ts.length+2 ≤ fuel) {rest : List Token}
    (hrest : Follows rest) : Yields (expression dialect fuel (ts ++ rest)) w.read rest := by
  obtain ⟨fuel,rfl⟩ : ∃ n, fuel = n+2 := ⟨fuel-2,by omega⟩
  match w, h, hts with
  | .word s, h, hts => exact expression_of_primary (by omega) (word_primary h hts (by omega) hrest) hrest
  | .variable name quoted, h, hts =>
    exact expression_of_primary (by omega) (word_primary h hts (by omega) hrest) hrest
  | .set words, h, hts =>
    obtain ⟨us,hus,rfl⟩ := tokens_set.mp hts
    refine expression_of_primary (by omega) ?_ hrest
    have hset := setWords_all h hus rest
    simp only [List.cons_append, List.append_assoc, List.nil_append, primary, expect, if_true]
    change Yields (do
      let found ← setWords (us ++ .closeParen::rest)
      pure (Expr.set found.1,found.2)) _ _
    rw [hset]
    exact .ok
  | .binary op l r, h, hts =>
    obtain ⟨us,vs,hus,hvs,rfl⟩ := tokens_binary.mp hts
    simp only [List.length_cons, List.length_append, List.length_nil] at hf
    obtain ⟨fuel,rfl⟩ : ∃ n, fuel = n+1 := ⟨fuel-1,by omega⟩
    have hleft := primary_parenthesized (Written.parses l h.1 hus (fuel+1) (by omega)
      (follows_close (op.token::.openParen::(vs ++ .closeParen::rest))))
    have hright := primary_parenthesized (Written.parses r h.2 hvs fuel (by omega)
      (follows_close rest))
    simp only [List.cons_append, List.append_assoc, List.nil_append]
    rw [expression]
    refine hleft.bind (f := fun found => operators dialect (fuel+2) found.1 found.2) fun left => ?_
    exact operators_step (op_operator op) (by omega) hright hrest
  | .letIn name value body, h, hts =>
    obtain ⟨ns,us,vs,hns,hus,hvs,rfl⟩ := tokens_letIn.mp hts
    simp only [List.length_cons, List.length_append] at hf
    refine expression_of_primary (by omega) ?_ hrest
    simp only [List.cons_append, List.append_assoc]
    rcases spelling_token h.1 hns with ⟨rfl,hseen,hno⟩ | ⟨n,-,rfl,-,hquoted,hnum,-⟩
    · have hin : Follows (.inWord::(vs ++ rest)) := by
        intro t ht
        exact .inr (.inr (by simpa [eq_comm] using ht))
      have hvalue := Written.parses value h.2.1 hus fuel (by omega) hin
      have hbody := Written.parses body h.2.2 hvs fuel (by omega) hrest
      rw [Written.read, if_neg hno, List.singleton_append, primary]
      exact hvalue.bind (f := fun found => do
        let rest ← expect .inWord found.2
        let (body,rest) ← expression dialect fuel rest
        return (Expr.letIn name.word found.1 body,rest)) fun found => hbody.bind
          (f := fun body => .ok (Expr.letIn name.word found body.1,body.2))
          (g := fun body => some (Expr.letIn name.word found body)) fun _ => .ok
    · rw [Written.read, if_pos ⟨hquoted,hnum⟩, List.singleton_append]
      refine ⟨syntaxError (.int n::.equals::(us ++ .inWord::(vs ++ rest))),?_⟩
      rw [primary] <;> simp
  | .call f args, h, hts =>
    obtain ⟨us,hus,rfl⟩ := tokens_call.mp hts
    simp only [List.length_cons, List.length_append, List.length_nil] at hf
    obtain ⟨fuel,rfl⟩ : ∃ n, fuel = n+2 := ⟨fuel-2,by omega⟩
    refine expression_of_primary (by omega) ?_ hrest
    have hne : args ≠ [] := by
      rintro rfl
      have hle := h.2.1.1
      revert hle
      cases f <;> decide
    have hargs := WrittenArg.allParses args h.2.2 hne hus (fuel+1) (by omega) f.name h.2.1.2 rest
    have hcall := call_yields h.1 h.2.1 (args_open h.2.2 hne hus) hargs
    have hprimary : primary dialect (fuel+3)
        (.word f.name::.openParen::(us ++ [.closeParen]) ++ rest) =
        call dialect (fuel+2) f.name (us ++ .closeParen::rest) := by simp [primary]
    rw [hprimary]
    exact hcall

theorem WrittenArg.parses (arg : WrittenArg) (h : arg.Allowed chars dialect) {ts : List Token}
    (hts : tokensOf arg.pieces = .ok ts) (fuel : ℕ) (hf : 3*ts.length+3 ≤ fuel) {rest : List Token}
    (hrest : Follows rest) : Yields (argument dialect fuel arg.kind (ts ++ rest)) arg.read rest := by
  obtain ⟨fuel,rfl⟩ : ∃ n, fuel = n+1 := ⟨fuel-1,by omega⟩
  match arg, h, hts with
  | .expr e, h, hts =>
    have he := Written.parses e h hts fuel (by omega) hrest
    exact he.bind (f := fun found => .ok (Arg.expr found.1,found.2)) (g := fun found => some (Arg.expr found))
      fun _ => .ok
  | .word s, h, hts =>
    have hword := word_argument h hts rest
    exact hword
  | .int n, _, hts =>
    have htokens := intPieces_tokens hts
    rw [WrittenArg.read]
    split at htokens
    · next hneg =>
      obtain ⟨us,rfl⟩ := htokens
      rw [if_pos hneg]
      exact ⟨_,rfl⟩
    · next hpos =>
      rw [if_neg hpos, htokens]
      exact .ok

theorem WrittenArg.allParses (args : List WrittenArg) (h : WrittenArg.AllAllowed chars dialect args)
    (hne : args ≠ []) {ts : List Token}
    (hts : tokensOf (separate [.fixed ',',.fixed ' '] (WrittenArg.allPieces args)) = .ok ts) (fuel : ℕ)
    (hf : 3*ts.length+4 ≤ fuel) (name : String) {kinds : List ArgKind}
    (hk : args.map WrittenArg.kind <+: kinds) (rest : List Token) :
    Yields (arguments dialect fuel name kinds (ts ++ .closeParen::rest)) (WrittenArg.readAll args)
      (.closeParen::rest) := by
  obtain ⟨fuel,rfl⟩ : ∃ n, fuel = n+1 := ⟨fuel-1,by omega⟩
  match args, h, hts with
  | [], _, _ => exact absurd rfl hne
  | arg::args, h, hts =>
    obtain ⟨kinds,rfl⟩ : ∃ more, kinds = arg.kind::more := by
      obtain ⟨tail,rfl⟩ := hk
      exact ⟨_,rfl⟩
    have hk : args.map WrittenArg.kind <+: kinds := (List.cons_prefix_cons.mp hk).2
    rw [arguments]
    by_cases hargs : args = []
    · subst hargs
      have harg := WrittenArg.parses arg h.1 hts fuel (by omega) (follows_close rest)
      exact harg.bind (f := fun found => do
        if found.2.head? ≠ some .comma then return ([found.1],found.2)
        if kinds = [] then throw (wrongCount "many" name found.2)
        let (args,rest) ← arguments dialect fuel name kinds found.2.tail
        return (found.1::args,rest)) (g := fun found => some [found]) fun _ => .ok
    · obtain ⟨us,vs,hus,hvs,rfl⟩ := (tokens_args hargs).mp hts
      simp only [List.length_append, List.length_cons] at hf
      have hcomma : Follows (.comma::(vs ++ .closeParen::rest)) := by
        intro t ht
        exact .inr (.inl (by simpa [eq_comm] using ht))
      have harg := WrittenArg.parses arg h.1 hus fuel (by omega) hcomma
      have hrest := WrittenArg.allParses args h.2 hargs hvs fuel (by omega) name hk rest
      have hkinds : kinds ≠ [] := by
        rintro rfl
        exact hargs (List.map_eq_nil_iff.mp (List.prefix_nil.mp hk))
      rw [List.append_assoc, List.cons_append]
      refine harg.bind (f := fun found => do
        if found.2.head? ≠ some .comma then return ([found.1],found.2)
        if kinds = [] then throw (wrongCount "many" name found.2)
        let (args,rest) ← arguments dialect fuel name kinds found.2.tail
        return (found.1::args,rest)) (g := fun found => do
        return found::(← WrittenArg.readAll args)) fun found => ?_
      simp only [List.head?_cons, ne_eq, not_true, if_false, if_neg hkinds]
      exact hrest.bind (f := fun more => .ok (found::more.1,more.2)) (g := fun more => some (found::more))
        fun _ => .ok

end

theorem written_yields {w : Written} (h : w.Allowed chars dialect) {ts : List Token}
    (hts : tokensOf w.pieces = .ok ts) :
    Yields (expression dialect (3*ts.length+2) ts) w.read [] := by
  have hend : Follows [] := by simp [Follows]
  simpa using Written.parses w h hts (3*ts.length+2) (le_refl _) hend

/-- What the parser gives for a written expression. -/
theorem parseIn_text {w : Written} (h : w.Allowed chars dialect) (e : Expr) :
    parseIn dialect chars w.text = .ok e ↔ (∃ ts, tokensOf w.pieces = .ok ts) ∧ w.read = some e := by
  rw [parseIn, lex_text h, bind_ok]
  constructor
  · rintro ⟨ts,hts,hparse⟩
    obtain ⟨⟨found,rest⟩,hfound,hparse⟩ := bind_ok.mp hparse
    have hyields := written_yields h hts
    obtain ⟨hread,rfl⟩ := (yields_iff hyields found rest).mp hfound
    obtain rfl := pure_ok.mp hparse
    exact ⟨⟨ts,hts⟩,hread⟩
  · rintro ⟨⟨ts,hts⟩,hread⟩
    have hyields := written_yields h hts
    exact ⟨ts,hts,bind_ok.mpr ⟨(e,[]),(yields_iff hyields e []).mpr ⟨hread,rfl⟩,rfl⟩⟩

end Parsing

section Faithful
variable {chars : CharClass} {dialect : Dialect}

theorem set_kept {words : List Spelling} (h : ∀ s ∈ words, s.Allowed chars) :
    (∀ s ∈ words, s.Kept) ↔
      (∃ ts, tokensOf (separate [.fixed ' '] (words.map fun s => [s.piece])) = .ok ts) ∧
        words.map Spelling.seen = words.map Spelling.word := by
  induction words with
  | nil => simp [separate, tokensOf]
  | cons s words ih =>
    obtain ⟨hs,hwords⟩ := List.forall_mem_cons.mp h
    rw [List.forall_mem_cons, kept_iff hs, ih hwords]
    by_cases hne : words = []
    · subst hne
      simp [separate, tokensOf]
    · have hmap : (words.map fun s => [s.piece]) ≠ [] := by simpa using hne
      simp only [List.map_cons, List.cons.injEq, tokens_separate [.fixed ' '] [] rfl hmap]
      constructor
      · rintro ⟨⟨⟨us,hus⟩,hseen⟩,⟨vs,hvs⟩,hrest⟩
        exact ⟨⟨_,us,vs,hus,hvs,rfl⟩,hseen,hrest⟩
      · rintro ⟨⟨-,us,vs,hus,hvs,-⟩,hseen,hrest⟩
        exact ⟨⟨⟨us,hus⟩,hseen⟩,⟨vs,hvs⟩,hrest⟩

theorem int_kept (n : ℤ) : (0 ≤ n ∧ n < 2^63) ↔ (∃ ts, tokensOf (intPieces n) = .ok ts) ∧ ¬ n < 0 := by
  rw [intPieces]
  by_cases hneg : n < 0
  · rw [if_pos hneg]
    exact iff_of_false (by omega) (by simp [hneg])
  · have hkept := kept_iff (numeral_allowed n.natAbs)
    have hword : Spelling.Kept ⟨toString n.natAbs,false⟩ ↔ n.natAbs < 2^63 := by
      constructor
      · rintro (h | h | ⟨m,hm,heq⟩)
        · cases h
        · dsimp only at h
          rw [isNumeral_toString] at h
          cases h
        · dsimp only at heq
          rw [← decimal_toString n.natAbs, heq, decimal_toString]
          exact hm
      · exact fun h => .inr (.inr ⟨_,h,rfl⟩)
    have hseen : Spelling.seen ⟨toString n.natAbs,false⟩ = toString n.natAbs := by
      rw [Spelling.seen, if_pos ⟨rfl,isNumeral_toString _⟩, decimal_toString]
    rw [hword, hseen] at hkept
    rw [if_neg hneg]
    have hpiece : Spelling.piece ⟨toString n.natAbs,false⟩ = .bare (toString n.natAbs) := rfl
    rw [hpiece] at hkept
    constructor
    · intro h
      exact ⟨(hkept.mp (by omega)).1,hneg⟩
    · intro h
      have hlt := hkept.mpr ⟨h.1,rfl⟩
      omega

mutual

/-- A written expression is faithful if it has tokens and reads as it is. -/
theorem Written.faithful_iff (w : Written) (h : w.Allowed chars dialect) :
    w.Faithful ↔ (∃ ts, tokensOf w.pieces = .ok ts) ∧ w.read = some w.tree := by
  match w, h with
  | .word s, h =>
    have hiff := kept_iff (s := s) h
    rw [Written.Faithful, hiff, Written.read, Written.tree, Written.pieces, Option.some.injEq,
      wordExpr_eq_word]
    constructor
    · rintro ⟨⟨hts,hseen⟩,hno⟩
      exact ⟨hts,hseen,hseen ▸ hno⟩
    · rintro ⟨hts,hseen,hno⟩
      exact ⟨⟨hts,hseen⟩,hseen ▸ hno⟩
  | .variable name quoted, h =>
    obtain ⟨hseen,hno⟩ := variableSpelling_seen name quoted
    have hkept : (variableSpelling name quoted).Kept := by
      by_cases hq : quoted = true
      · exact .inl hq
      · refine .inr (.inl ?_)
        simpa [variableSpelling, hq] using hno
    rw [Written.Faithful, Written.read, Written.tree, Written.pieces, Option.some.injEq, hseen,
      wordExpr_eq_variable]
    exact ⟨fun hne => ⟨((kept_iff h).mp hkept).1,rfl,hne⟩,fun hor => hor.2.2⟩
  | .set words, h =>
    rw [Written.Faithful, set_kept h, Written.read, Written.tree]
    simp only [tokens_set, Option.some.injEq, Expr.set.injEq]
    refine and_congr_left fun _ => ⟨fun ⟨us,hus⟩ => ⟨_,us,hus,rfl⟩,fun ⟨_,us,hus,_⟩ => ⟨us,hus⟩⟩
  | .binary op l r, h =>
    rw [Written.Faithful, Written.faithful_iff l h.1, Written.faithful_iff r h.2, Written.read,
      Written.tree]
    simp only [tokens_binary]
    constructor
    · rintro ⟨⟨⟨us,hus⟩,hl⟩,⟨vs,hvs⟩,hr⟩
      exact ⟨⟨_,us,vs,hus,hvs,rfl⟩,by rw [hl, hr]; rfl⟩
    · rintro ⟨⟨-,us,vs,hus,hvs,-⟩,hread⟩
      obtain ⟨l',hl,hread⟩ := Option.bind_eq_some_iff.mp hread
      obtain ⟨r',hr,hread⟩ := Option.bind_eq_some_iff.mp hread
      obtain ⟨-,rfl,rfl⟩ := Expr.binary.inj (Option.some.inj hread)
      exact ⟨⟨⟨us,hus⟩,hl⟩,⟨vs,hvs⟩,hr⟩
  | .letIn name value body, h =>
    rw [Written.Faithful, Written.faithful_iff value h.2.1, Written.faithful_iff body h.2.2,
      Written.read, Written.tree]
    simp only [tokens_letIn]
    by_cases hnum : name.quoted = false ∧ isNumeral name.word
    · rw [if_pos hnum]
      refine iff_of_false (fun hf => ?_) (by simp)
      rcases hf.1 with hq | hn
      · exact absurd hnum.1 (by simp [hq])
      · exact absurd hnum.2 (by simp [hn])
    · rw [if_neg hnum]
      have hname : name.quoted = true ∨ isNumeral name.word = false := by
        by_contra hno
        simp only [not_or, Bool.not_eq_true, Bool.not_eq_false] at hno
        exact hnum hno
      have hns := ((kept_iff h.1).mp (hname.imp id .inl)).1
      constructor
      · rintro ⟨-,⟨⟨us,hus⟩,hv⟩,⟨vs,hvs⟩,hb⟩
        obtain ⟨ns,hns⟩ := hns
        exact ⟨⟨_,ns,us,vs,hns,hus,hvs,rfl⟩,by rw [hv, hb]; rfl⟩
      · rintro ⟨⟨-,-,us,vs,-,hus,hvs,-⟩,hread⟩
        obtain ⟨v',hv,hread⟩ := Option.bind_eq_some_iff.mp hread
        obtain ⟨b',hb,hread⟩ := Option.bind_eq_some_iff.mp hread
        obtain ⟨-,rfl,rfl⟩ := Expr.letIn.inj (Option.some.inj hread)
        exact ⟨hname,⟨⟨us,hus⟩,hv⟩,⟨vs,hvs⟩,hb⟩
  | .call f args, h =>
    rw [Written.Faithful, WrittenArg.allFaithful_iff args h.2.2, Written.read, Written.tree]
    simp only [tokens_call]
    constructor
    · rintro ⟨⟨us,hus⟩,hread⟩
      exact ⟨⟨_,us,hus,rfl⟩,by rw [hread]; rfl⟩
    · rintro ⟨⟨-,us,hus,-⟩,hread⟩
      obtain ⟨as,has,hread⟩ := Option.bind_eq_some_iff.mp hread
      obtain ⟨-,rfl⟩ := Expr.call.inj (Option.some.inj hread)
      exact ⟨⟨us,hus⟩,has⟩

theorem WrittenArg.faithful_iff (arg : WrittenArg) (h : arg.Allowed chars dialect) :
    arg.Faithful ↔ (∃ ts, tokensOf arg.pieces = .ok ts) ∧ arg.read = some arg.tree := by
  match arg, h with
  | .expr e, h =>
    rw [WrittenArg.Faithful, Written.faithful_iff e h, WrittenArg.read, WrittenArg.tree]
    refine and_congr_right fun _ => ⟨fun he => by rw [he]; rfl,fun hread => ?_⟩
    obtain ⟨e',he,hread⟩ := Option.bind_eq_some_iff.mp hread
    obtain rfl := Arg.expr.inj (Option.some.inj hread)
    exact he
  | .word s, h =>
    rw [WrittenArg.Faithful, kept_iff h, WrittenArg.read, WrittenArg.tree, Option.some.injEq,
      Arg.word.injEq]
    rfl
  | .int n, _ =>
    rw [WrittenArg.Faithful, int_kept, WrittenArg.read, WrittenArg.tree]
    refine and_congr_right fun _ => ?_
    by_cases hneg : n < 0 <;> simp [hneg]

theorem WrittenArg.allFaithful_iff (args : List WrittenArg)
    (h : WrittenArg.AllAllowed chars dialect args) : WrittenArg.AllFaithful args ↔
      (∃ ts, tokensOf (separate [.fixed ',',.fixed ' '] (WrittenArg.allPieces args)) = .ok ts) ∧
        WrittenArg.readAll args = some (WrittenArg.trees args) := by
  match args, h with
  | [], _ =>
    simp [WrittenArg.AllFaithful, WrittenArg.allPieces, separate, tokensOf, WrittenArg.readAll,
      WrittenArg.trees]
  | arg::args, h =>
    rw [WrittenArg.AllFaithful, WrittenArg.faithful_iff arg h.1, WrittenArg.allFaithful_iff args h.2,
      WrittenArg.readAll, WrittenArg.trees]
    have hread : ((do return (← arg.read)::(← WrittenArg.readAll args)) =
        some (arg.tree::WrittenArg.trees args)) ↔
        arg.read = some arg.tree ∧ WrittenArg.readAll args = some (WrittenArg.trees args) := by
      simp [Option.bind_eq_some_iff]
    rw [hread]
    by_cases hargs : args = []
    · subst hargs
      simp [WrittenArg.allPieces, separate, tokensOf, and_assoc]
    · simp only [tokens_args hargs]
      constructor
      · rintro ⟨⟨⟨us,hus⟩,ha⟩,⟨vs,hvs⟩,hrest⟩
        exact ⟨⟨_,us,vs,hus,hvs,rfl⟩,ha,hrest⟩
      · rintro ⟨⟨-,us,vs,hus,hvs,-⟩,ha,hrest⟩
        exact ⟨⟨⟨us,hus⟩,ha⟩,⟨vs,hvs⟩,hrest⟩

end

/-- The parser gives back a written tree unless a numeral without quotes is
changed by being read as a number, or the syntax has no such tree. -/
theorem parse_inverts_writing_iff (w : Written) (h : w.Allowed chars dialect) :
    parseIn dialect chars w.text = .ok w.tree ↔ w.Faithful :=
  (parseIn_text h w.tree).trans (Written.faithful_iff w h).symm

/-- `deps((//a:b) - ("x y"), 2)`. -/
def writtenDeps : Written :=
  .call .deps [.expr (.binary .except (.word ⟨"//a:b",false⟩) (.word ⟨"x y",true⟩)),.int 2]

theorem writtenDeps_allowed : writtenDeps.Allowed .asciiOnly .query := by
  have hlabel : (Piece.bare "//a:b").Sound .asciiOnly :=
    ascii_word_sound (by decide) (by decide) (by decide)
  have hquoted : ("x y".toList.all fun c => c != '"' && c != '\\') = true := by decide
  refine ⟨rfl,⟨by decide,by decide⟩,⟨⟨hlabel,fun _ => by decide⟩,⟨fun c hc => ?_,by simp⟩⟩,trivial,trivial⟩
  simpa using List.all_eq_true.mp hquoted c hc

theorem parse_inverts_writing_deps :
    parseIn .query .asciiOnly writtenDeps.text = .ok writtenDeps.tree := by
  refine (parse_inverts_writing_iff writtenDeps writtenDeps_allowed).mpr ?_
  exact ⟨⟨⟨.inr (.inl (by decide)),by decide⟩,.inl rfl,by decide⟩,⟨by decide,by decide⟩,trivial⟩

def writtenZeros : Written := .word ⟨"007",false⟩

theorem writtenZeros_allowed : writtenZeros.Allowed .asciiOnly .query :=
  ⟨ascii_word_sound (by decide) (by decide) (by decide),fun _ => by decide⟩

/-- A word of digits loses its zeros. -/
theorem numeral_loses_zeros :
    writtenZeros.Allowed .asciiOnly .query ∧ writtenZeros.text = "007" ∧
      parseIn .query .asciiOnly writtenZeros.text = .ok (.word "7") ∧
      parseIn .query .asciiOnly writtenZeros.text ≠ .ok writtenZeros.tree := by
  have hread := (parseIn_text writtenZeros_allowed (.word "7")).mpr ⟨⟨_,rfl⟩,rfl⟩
  refine ⟨writtenZeros_allowed,rfl,hread,fun heq => ?_⟩
  have hword := Expr.word.inj (Except.ok.inj (hread.symm.trans heq))
  exact absurd hword (by decide)

end Faithful

end BuildFiji.Query
