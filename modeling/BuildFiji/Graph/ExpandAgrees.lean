import BuildFiji.Graph.Expand

/-!
# Where the two readers of variables agree

Both readers take a text apart in the same way, and differ in what they refuse: one that
is given a lookup refuses `$x` for every character but three, and a name with whitespace
in it, whatever the lookup has; that of a rule looks both up.
-/

set_option autoImplicit false
set_option linter.all false

namespace BuildFiji.Graph

open BuildFiji.Text (isWhitespace)

/-- What stands in a text, up to where it cannot be read further. -/
inductive Piece where
  | char (c : Char)
  | call (inner : List Char)
  | single (c : Char)
  | unterminated
  deriving DecidableEq

def pieces : List Char → List Piece
  | [] => []
  | c::rest =>
    if c ≠ '$' then .char c :: pieces rest
    else
      match rest with
      | [] => [.unterminated]
      | next::rest =>
        if next = '$' then .char '$' :: pieces rest
        else if next = '(' then
          match _h : splitOnce ')' rest with
          | none => [.unterminated]
          | some (inner,after) => .call inner :: pieces after
        else .single next :: pieces rest
termination_by text => text.length
decreasing_by
  all_goals simp only [List.length_cons]
  · omega
  · omega
  · have := splitOnce_length ‹_›
    omega
  · omega

/-- What the pieces stand for, if each stands for something. -/
def written (value : Piece → Option (List Char)) : List Piece → Option (List Char)
  | [] => some []
  | p::ps => (value p).bind fun out => (written value ps).map (out ++ ·)

section Values
variable {value value' : Piece → Option (List Char)} {ps : List Piece}

theorem written_eq_none : written value ps = none ↔ ∃ p ∈ ps, value p = none := by
  induction ps with
  | nil => simp [written]
  | cons p ps ih =>
    rw [written, List.exists_mem_cons_iff, ← ih]
    cases value p with
    | none => simp
    | some out => simp

theorem written_congr (h : ∀ p ∈ ps, value p = value' p) : written value ps = written value' ps := by
  induction ps with
  | nil => rfl
  | cons p ps ih =>
    rw [written, written, h p List.mem_cons_self, ih fun q hq => h q (List.mem_cons_of_mem _ hq)]

end Values

theorem toOption_emit {ε : Type} (out : List Char) (rest : Except ε (List Char)) :
    (emit out rest).toOption = rest.toOption.map (out ++ ·) := by
  cases rest <;> rfl

/-- What a piece is for the reader of a rule. -/
def Expander.value (e : Expander) : Piece → Option (List Char)
  | .char c => some [c]
  | .call inner => (e.reference inner).toOption.map String.toList
  | .single c => (e.variable (.ofList [c])).toOption.map String.toList
  | .unterminated => none

theorem Expander.expandFrom_char (e : Expander) {c : Char} (hc : c ≠ '$') (rest : List Char) :
    e.expandFrom (c::rest) = emit [c] (e.expandFrom rest) := by
  rw [expandFrom.eq_def]
  exact if_pos hc

theorem Expander.expandFrom_pieces (e : Expander) (text : List Char) :
    (e.expandFrom text).toOption = written e.value (pieces text) := by
  fun_induction pieces text with
  | case1 =>
    rw [expandFrom]
    rfl
  | case2 c rest hc ih =>
    rw [e.expandFrom_char hc, toOption_emit, ih]
    rfl
  | case3 c hc =>
    rw [expandFrom, if_neg hc]
    rfl
  | case4 c hc rest ih =>
    rw [expandFrom, if_neg hc, if_pos rfl, toOption_emit, ih]
    rfl
  | case5 c hc rest hsplit hne =>
    rw [expandFrom, if_neg hc, if_neg hne, if_pos rfl]
    split
    · rfl
    · next h =>
      rw [hsplit] at h
      cases h
  | case6 c hc rest inner after hsplit hne ih =>
    rw [expandFrom, if_neg hc, if_neg hne, if_pos rfl, written, value, ← ih]
    split
    · next h =>
      rw [hsplit] at h
      cases h
    · next h =>
      rw [hsplit] at h
      cases h
      cases e.reference inner with
      | ok value => exact toOption_emit _ _
      | error reason => rfl
  | case7 c hc next rest hne hopen ih =>
    rw [expandFrom, if_neg hc, if_neg hne, if_neg hopen, written, value, ← ih]
    cases e.variable (.ofList [next]) with
    | ok value => exact toOption_emit _ _
    | error reason => rfl

/-- What a piece is for the reader that is given a lookup. -/
def makeValue (lookup : String → Option String) : Piece → Option (List Char)
  | .char c => some [c]
  | .call inner =>
    if inner.any isWhitespace then none else (lookup (.ofList inner)).map String.toList
  | .single c =>
    if ['@','<','^'].contains c then (lookup (.ofList [c])).map String.toList else none
  | .unterminated => none

theorem splitWhitespace_eq_none {name : List Char} :
    splitWhitespace name = none ↔ name.any isWhitespace = false := by
  induction name with
  | nil => simp [splitWhitespace]
  | cons c name ih =>
    rw [splitWhitespace, List.any_cons]
    cases isWhitespace c with
    | true => simp
    | false => simpa using ih

theorem expandMakeFrom_char (lookup : String → Option String) {c : Char} (hc : c ≠ '$')
    (rest : List Char) : expandMakeFrom lookup (c::rest) = emit [c] (expandMakeFrom lookup rest) := by
  rw [expandMakeFrom.eq_def]
  exact if_pos hc

theorem expandMakeFrom_pieces (lookup : String → Option String) (text : List Char) :
    (expandMakeFrom lookup text).toOption = written (makeValue lookup) (pieces text) := by
  fun_induction pieces text with
  | case1 =>
    rw [expandMakeFrom]
    rfl
  | case2 c rest hc ih =>
    rw [expandMakeFrom_char lookup hc, toOption_emit, ih]
    rfl
  | case3 c hc =>
    rw [expandMakeFrom, if_neg hc]
    rfl
  | case4 c hc rest ih =>
    rw [expandMakeFrom, if_neg hc, if_pos rfl, toOption_emit, ih]
    rfl
  | case5 c hc rest hsplit hne =>
    rw [expandMakeFrom, if_neg hc, if_neg hne, if_pos (.inl rfl)]
    split
    · rfl
    · next h =>
      rw [if_pos rfl, hsplit] at h
      cases h
  | case6 c hc rest inner after hsplit hne ih =>
    rw [expandMakeFrom, if_neg hc, if_neg hne, if_pos (.inl rfl), written, makeValue, ← ih]
    split
    · next h =>
      rw [if_pos rfl, hsplit] at h
      cases h
    · next h =>
      rw [if_pos rfl, hsplit] at h
      cases h
      rw [if_neg (by decide)]
      cases hspace : splitWhitespace inner with
      | some parts =>
        have hany : inner.any isWhitespace = true := by
          rw [← Bool.not_eq_false, ← splitWhitespace_eq_none, hspace]
          exact Option.some_ne_none parts
        rw [if_pos hany]
        rfl
      | none =>
        rw [if_neg (by rw [splitWhitespace_eq_none.mp hspace]; exact Bool.false_ne_true)]
        cases lookup (.ofList inner) with
        | some value => exact toOption_emit _ _
        | none => rfl
  | case7 c hc next rest hne hopen ih =>
    rw [expandMakeFrom, if_neg hc, if_neg hne, written, makeValue, ← ih]
    by_cases hbrace : next = '\x7b'
    · subst hbrace
      rw [if_pos (.inr rfl)]
      split
      · rfl
      · rfl
    · rw [if_neg (not_or.mpr ⟨hopen,hbrace⟩)]
      split
      · cases lookup (.ofList [next]) with
        | some value => exact toOption_emit _ _
        | none => rfl
      · rfl

/-- What the reader of a rule refuses: a reference that is not closed, or of what is not a
variable. -/
def Expander.Refuses (e : Expander) : Piece → Prop
  | .char _ => False
  | .call name => (e.variable (.ofList name)).toOption = none
  | .single c => (e.variable (.ofList [c])).toOption = none
  | .unterminated => True

/-- Neither `$x` for any other character nor a name with whitespace in it. -/
def Piece.Shared : Piece → Prop
  | .call name => name.any isWhitespace = false
  | .single c => ['@','<','^'].contains c = true
  | _ => True

instance (e : Expander) (p : Piece) : Decidable (e.Refuses p) := by
  cases p <;> unfold Expander.Refuses <;> infer_instance

instance (p : Piece) : Decidable p.Shared := by
  cases p <;> unfold Piece.Shared <;> infer_instance

/-- A call of the `$(location ...)` family. -/
def Piece.isLocation : Piece → Bool
  | .call inner => (Expander.callOf inner).isSome
  | _ => false

/-- The variables of a rule as a lookup. -/
def Expander.lookup (e : Expander) (name : String) : Option String := (e.variable name).toOption

section Agreement
variable {e : Expander} {p : Piece}

theorem Expander.reference_of_none {inner : List Char} (h : (Piece.call inner).isLocation = false) :
    e.reference inner = e.variable (.ofList inner) := by
  have hnone : callOf inner = none := Option.isNone_iff_eq_none.mp (Option.isSome_eq_false_iff.mp h)
  rw [reference, hnone]

theorem Expander.value_eq_none (h : p.isLocation = false) : e.value p = none ↔ e.Refuses p := by
  cases p with
  | char c => simp [value, Refuses]
  | call inner => rw [value, Refuses, reference_of_none h, Option.map_eq_none_iff]
  | single c => rw [value, Refuses, Option.map_eq_none_iff]
  | unterminated => simp [value, Refuses]

theorem makeValue_of_shared (h : p.isLocation = false) (hshared : p.Shared) :
    e.value p = makeValue e.lookup p := by
  cases p with
  | char c => rfl
  | call inner =>
    have hname : inner.any isWhitespace = false := hshared
    rw [Expander.value, makeValue, Expander.reference_of_none h, hname]
    rfl
  | single c =>
    have hname : ['@','<','^'].contains c = true := hshared
    rw [Expander.value, makeValue, hname]
    rfl
  | unterminated => rfl

theorem shared_of_makeValue {lookup : String → Option String} (h : makeValue lookup p ≠ none) :
    p.Shared := by
  cases p with
  | call inner =>
    show inner.any isWhitespace = false
    rw [← Bool.not_eq_true]
    intro hspace
    rw [makeValue, if_pos hspace] at h
    exact h rfl
  | single c =>
    show ['@','<','^'].contains c = true
    by_contra hother
    rw [makeValue, if_neg hother] at h
    exact h rfl
  | _ => trivial

/-- Whether the readers agree on what the pieces stand for. -/
theorem written_eq_iff {ps : List Piece} (h : ∀ p ∈ ps, p.isLocation = false) :
    written e.value ps = written (makeValue e.lookup) ps ↔
      (∃ p ∈ ps, e.Refuses p) ∨ ∀ p ∈ ps, p.Shared := by
  constructor
  · intro heq
    by_cases hnone : written e.value ps = none
    · obtain ⟨p,hp,hvalue⟩ := written_eq_none.mp hnone
      exact .inl ⟨p,hp,(Expander.value_eq_none (h p hp)).mp hvalue⟩
    · right
      intro p hp
      refine shared_of_makeValue fun hvalue : makeValue e.lookup p = none => ?_
      rw [heq] at hnone
      exact hnone (written_eq_none.mpr ⟨p,hp,hvalue⟩)
  · rintro (⟨p,hp,hrefuses⟩ | hshared)
    · have hvalue := (Expander.value_eq_none (h p hp)).mpr hrefuses
      have hmake : makeValue e.lookup p = none := by
        by_contra hsome
        rw [← makeValue_of_shared (h p hp) (shared_of_makeValue hsome)] at hsome
        exact hsome hvalue
      rw [written_eq_none.mpr ⟨p,hp,hvalue⟩, written_eq_none.mpr ⟨p,hp,hmake⟩]
    · exact written_congr fun p hp => makeValue_of_shared (h p hp) (hshared p hp)

end Agreement

def doubled (s : String) : String :=
  .ofList (s.toList.flatMap fun c => if c = '$' then ['$','$'] else [c])

theorem pieces_doubled (s : List Char) :
    pieces (s.flatMap fun c => if c = '$' then ['$','$'] else [c]) = s.map .char := by
  induction s with
  | nil =>
    rw [List.flatMap_nil, pieces]
    rfl
  | cons c s ih =>
    rw [List.flatMap_cons, List.map_cons, ← ih]
    by_cases hc : c = '$'
    · subst hc
      rw [if_pos rfl, List.cons_append, List.cons_append, List.nil_append, pieces, if_neg (by simp),
        if_pos rfl]
    · rw [if_neg hc, List.cons_append, List.nil_append, pieces.eq_def]
      exact if_pos hc

theorem written_chars {value : Piece → Option (List Char)} (h : ∀ c, value (.char c) = some [c])
    (s : List Char) : written value (s.map .char) = some s := by
  induction s with
  | nil => rfl
  | cons c s ih =>
    rw [List.map_cons, written, h, ih]
    rfl

/-- The readers agree on a text without a call of the location family just if both refuse
a reference in it or neither is the only one to know one's form. -/
theorem expand_agrees_iff (e : Expander) (text : String)
    (hlocation : ∀ p ∈ pieces text.toList, p.isLocation = false) :
    ((e.expand text).toOption =
        (expandMakeVariables (fun name => (e.variable name).toOption) text).toOption ↔
      (∃ p ∈ pieces text.toList, e.Refuses p) ∨ ∀ p ∈ pieces text.toList, p.Shared) ∧
    ∀ s, e.expand (doubled s) = .ok s ∧ ∀ lookup, expandMakeVariables lookup (doubled s) = .ok s := by
  constructor
  · rw [← written_eq_iff hlocation, Expander.expand, expandMakeVariables, Fallible.toOption_map,
      Fallible.toOption_map,
      e.expandFrom_pieces, expandMakeFrom_pieces]
    exact (Option.map_injective fun _ _ h => String.ofList_injective h).eq_iff
  · intro s
    constructor
    · apply Fallible.toOption_eq_some.mp
      rw [Expander.expand, Fallible.toOption_map, e.expandFrom_pieces, doubled, String.toList_ofList,
        pieces_doubled, written_chars fun _ => rfl, Option.map_some, String.ofList_toList]
    · intro lookup
      apply Fallible.toOption_eq_some.mp
      rw [expandMakeVariables, Fallible.toOption_map, expandMakeFrom_pieces, doubled, String.toList_ofList,
        pieces_doubled, written_chars fun _ => rfl, Option.map_some, String.ofList_toList]

/-- The rule `//:t` with `--define x=1`. -/
def defineX : Expander where
  ruleClass := "genrule"
  «attribute» := "cmd"
  label := ⟨"","","t"⟩
  srcs := []
  outs := []
  prerequisites := []
  binDir := "bazel-out/k8-fastbuild/bin"
  targetCpu := "x86_64"
  compilationMode := "fastbuild"
  defines := ⟨[("x","1")],by simp [SortedAssoc.Sorted]⟩
  toolchainVariables := []
  mainRepoName := "_main"
  context := ⟨"",""⟩

theorem expand_agrees_defined : (defineX.expand "$(x) $$").toOption =
    (expandMakeVariables (fun name => (defineX.variable name).toOption) "$(x) $$").toOption := by
  refine (expand_agrees_iff defineX "$(x) $$" ?_).1.mpr (.inr ?_)
  · decide +kernel
  · decide +kernel

theorem expand_single_differs : (∀ p ∈ pieces "$x".toList, p.isLocation = false) ∧
    defineX.expand "$x" = .ok "1" ∧
    expandMakeVariables (fun name => (defineX.variable name).toOption) "$x" =
      .error (notSupported ['x'] ['x']) := by
  decide +kernel

end BuildFiji.Graph
