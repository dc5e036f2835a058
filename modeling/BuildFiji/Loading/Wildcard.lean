import Mathlib.Data.List.Infix
import Mathlib.Data.String.Basic
import Mathlib.Data.Prod.Lex

/-!
# Names and wildcards

A name is matched in one pass that keeps only the last `*` it has met. When the pass
is stuck, that star takes one character more. The stars before it are never needed
again: what they would skip, the last one can skip as well.
-/

set_option autoImplicit false
set_option linter.all false

namespace BuildFiji.Wildcard

variable (question : Bool)

/-- A character of the pattern that is no star stands for this one. -/
def fits (c x : Char) : Bool := c = x || (question && c = '?')

section Meaning

/-- The name is split to match the pattern. -/
inductive Matches : List Char → List Char → Prop where
  | nil : Matches [] []
  | star {pattern name : List Char} (run : List Char) :
      Matches pattern name → Matches ('*'::pattern) (run ++ name)
  | char {c x : Char} {pattern name : List Char} :
      c ≠ '*' → fits question c x = true → Matches pattern name → Matches (c::pattern) (x::name)

variable {question} {pattern name : List Char}

theorem matches_nil_left : Matches question [] name ↔ name = [] := by
  constructor
  · intro h
    cases h
    rfl
  · rintro rfl
    exact .nil

theorem matches_star : Matches question ('*'::pattern) name ↔ ∃ rest, rest <:+ name ∧ Matches question pattern rest := by
  constructor
  · intro h
    cases h with
    | star run h => exact ⟨_,List.suffix_append run _,h⟩
    | char hc _ _ => exact absurd rfl hc
  · rintro ⟨rest,⟨run,rfl⟩,h⟩
    exact .star run h

theorem matches_char {c x : Char} (hc : c ≠ '*') : Matches question (c::pattern) (x::name) ↔
    fits question c x = true ∧ Matches question pattern name := by
  constructor
  · intro h
    generalize hl : x::name = l at h
    cases h with
    | star run h => exact absurd rfl hc
    | char _ hfits h =>
      cases hl
      exact ⟨hfits,h⟩
  · exact fun h => .char hc h.1 h.2

theorem not_matches_short {c : Char} (hc : c ≠ '*') : ¬Matches question (c::pattern) [] := by
  intro h
  generalize hl : ([] : List Char) = l at h
  cases h with
  | star run h => exact hc rfl
  | char _ _ _ => cases hl

theorem matches_stars : Matches question pattern [] ↔ (pattern.all fun c => c = '*') = true := by
  induction pattern with
  | nil => exact iff_of_true .nil rfl
  | cons c pattern ih =>
    rw [List.all_cons, Bool.and_eq_true, decide_eq_true_iff, ← ih]
    by_cases hc : c = '*'
    · subst hc
      rw [matches_star, and_iff_right rfl]
      simp
    · exact iff_of_false (not_matches_short hc) fun h => hc h.1

/-- A part of the pattern without stars takes as many characters as it has. -/
theorem matches_literal {mid : List Char} (hmid : '*' ∉ mid) (h : Matches question (mid ++ pattern) name) :
    ∃ taken rest, name = taken ++ rest ∧ taken.length = mid.length ∧ Matches question pattern rest := by
  induction mid generalizing name with
  | nil => exact ⟨[],name,rfl,rfl,h⟩
  | cons c mid ih =>
    rw [List.mem_cons, not_or] at hmid
    rw [List.cons_append] at h
    cases name with
    | nil => exact absurd h (not_matches_short (Ne.symm hmid.1))
    | cons x name =>
      obtain ⟨taken,rest,rfl,hlength,hrest⟩ := ih hmid.2 ((matches_char (Ne.symm hmid.1)).mp h).2
      exact ⟨x::taken,rest,rfl,congrArg (· + 1) hlength,hrest⟩

end Meaning

/-- How far the pass has come, with what stands after the last star and what that star has
not swallowed yet. Since that star it has taken characters of the pattern one by one. -/
structure Scan where
  pattern : List Char
  name : List Char
  star : Option (List Char × List Char)
  since : ∀ e ∈ star, ∃ mid run, e.1 = mid ++ pattern ∧ e.2 = run ++ name ∧ run.length = mid.length ∧ '*' ∉ mid

inductive Outcome where
  | done (answer : Bool)
  | go (s : Scan)

namespace Scan

def start (pattern name : List Char) : Scan := ⟨pattern,name,none,nofun⟩

/-- The star at hand has swallowed nothing. -/
def meet (pattern name : List Char) : Scan :=
  ⟨pattern,name,some (pattern,name),fun _ he => Option.mem_some.mp he ▸ ⟨[],[],rfl,rfl,rfl,List.not_mem_nil⟩⟩

def advance (s : Scan) {c x : Char} {p n : List Char} (hp : s.pattern = c::p) (hn : s.name = x::n) (hc : c ≠ '*') :
    Scan where
  pattern := p
  name := n
  star := s.star
  since e he := by
    obtain ⟨mid,run,hafter,hleft,hlength,hmid⟩ := s.since e he
    refine ⟨mid ++ [c],run ++ [x],?_,?_,?_,?_⟩
    · rw [hafter, hp, List.append_assoc, List.singleton_append]
    · rw [hleft, hn, List.append_assoc, List.singleton_append]
    · rw [List.length_append, List.length_append, hlength]
      rfl
    · simp [hmid, Ne.symm hc]

/-- The last star takes one character more. -/
def retry (s : Scan) : Outcome :=
  match s.star with
  | some (after,swallowed) => .go (meet after swallowed.tail)
  | none => .done false

def next (s : Scan) : Outcome :=
  match hn : s.name, hp : s.pattern with
  | [],pattern => .done (pattern.all fun c => c = '*')
  | _::_,[] => s.retry
  | x::_,c::p =>
    if hc : c = '*' then .go (meet p s.name)
    else if fits question c x then .go (s.advance hp hn hc)
    else s.retry

/-- Without a star the pattern only gets shorter. With one, the pattern behind it does, or the
star has less left to swallow, or the pass goes on. -/
def remaining (s : Scan) : Nat ×ₗ Nat ×ₗ Nat :=
  match s.star with
  | none => toLex (s.pattern.length + 1,toLex (0,0))
  | some (after,swallowed) => toLex (after.length,toLex (swallowed.length,s.name.length))

section Step

variable {question} {s : Scan}

theorem remaining_none (h : s.star = none) : s.remaining = toLex (s.pattern.length + 1,toLex (0,0)) := by
  rw [remaining, h]

theorem remaining_some {e : List Char × List Char} (h : s.star = some e) :
    s.remaining = toLex (e.1.length,toLex (e.2.length,s.name.length)) := by
  rw [remaining, h]

theorem meet_remaining (pattern name : List Char) :
    (meet pattern name).remaining = toLex (pattern.length,toLex (name.length,name.length)) :=
  remaining_some (s := meet pattern name) rfl

theorem exists_suffix_iff {α : Type*} {P : List α → Prop} {l : List α} :
    (∃ rest, rest <:+ l ∧ P rest) ↔ P l ∨ ∃ rest, rest <:+ l.tail ∧ P rest := by
  constructor
  · rintro ⟨rest,hrest,h⟩
    cases l with
    | nil => exact .inl (List.suffix_nil.mp hrest ▸ h)
    | cons a l =>
      rcases List.suffix_cons_iff.mp hrest with rfl|hrest
      · exact .inl h
      · exact .inr ⟨rest,hrest,h⟩
  · rintro (h|⟨rest,hrest,h⟩)
    · exact ⟨l,List.suffix_rfl,h⟩
    · exact ⟨rest,hrest.trans (List.tail_suffix l),h⟩

variable (question) in
/-- The name can still match, here or after the last star has taken more. -/
def Result (s : Scan) : Prop :=
  Matches question s.pattern s.name ∨ ∃ e ∈ s.star, ∃ rest, rest <:+ e.2.tail ∧ Matches question e.1 rest

variable (question) in
/-- A step answers for its scan, or hands it on with less to do. -/
def Keeps (s : Scan) : Outcome → Prop
  | .done answer => answer = true ↔ s.Result question
  | .go t => t.remaining < s.remaining ∧ (t.Result question ↔ s.Result question)

/-- What the last star could win by taking more lies to the right of where the pass stands. -/
theorem match_to_the_right (h : ∃ e ∈ s.star, ∃ rest, rest <:+ e.2.tail ∧ Matches question e.1 rest) :
    ∃ rest, rest <:+ s.name.tail ∧ Matches question s.pattern rest := by
  obtain ⟨e,he,_,hsuffix,hmatches⟩ := h
  obtain ⟨mid,run,hafter,hleft,hlength,hmid⟩ := s.since e he
  rw [hafter] at hmatches
  obtain ⟨taken,rest,rfl,htaken,hrest⟩ := matches_literal hmid hmatches
  refine ⟨rest,List.suffix_of_suffix_length_le ?_ ((List.tail_suffix _).trans (List.suffix_append run _)) ?_,hrest⟩
  · rw [← hleft]
    exact (List.suffix_append taken rest).trans (hsuffix.trans (List.tail_suffix _))
  · have hle := hsuffix.length_le
    rw [hleft, List.length_tail, List.length_append, List.length_append] at hle
    rw [List.length_tail]
    omega

theorem meet_result (pattern name : List Char) :
    (meet pattern name).Result question ↔ ∃ rest, rest <:+ name ∧ Matches question pattern rest := by
  rw [exists_suffix_iff]
  simp [Result, meet]

theorem meet_keeps {p : List Char} (hp : s.pattern = '*'::p) : Keeps question s (.go (meet p s.name)) := by
  constructor
  · cases hstar : s.star with
    | none =>
      rw [meet_remaining, remaining_none hstar, Prod.Lex.toLex_lt_toLex]
      refine .inl ?_
      simp only [hp, List.length_cons]
      omega
    | some e =>
      obtain ⟨mid,_,hafter,_⟩ := s.since e hstar
      rw [meet_remaining, remaining_some hstar, Prod.Lex.toLex_lt_toLex]
      refine .inl ?_
      rw [hafter, hp, List.length_append, List.length_cons]
      omega
  · rw [meet_result, ← matches_star, ← hp]
    refine ⟨.inl,?_⟩
    rintro (h|h)
    · exact h
    · obtain ⟨rest,hrest,h⟩ := match_to_the_right h
      rw [hp, matches_star] at h ⊢
      obtain ⟨rest',hrest',h⟩ := h
      exact ⟨rest',hrest'.trans (hrest.trans (List.tail_suffix _)),h⟩

theorem advance_keeps {c x : Char} {p n : List Char} (hp : s.pattern = c::p) (hn : s.name = x::n) (hc : c ≠ '*')
    (hfits : fits question c x = true) : Keeps question s (.go (s.advance hp hn hc)) := by
  constructor
  · cases hstar : s.star with
    | none =>
      rw [remaining_none (s := s.advance hp hn hc) hstar, remaining_none hstar, Prod.Lex.toLex_lt_toLex]
      refine .inl ?_
      simp [advance, hp]
    | some e =>
      rw [remaining_some (s := s.advance hp hn hc) hstar, remaining_some hstar, Prod.Lex.toLex_lt_toLex,
        Prod.Lex.toLex_lt_toLex]
      refine .inr ⟨rfl,.inr ⟨rfl,?_⟩⟩
      simp [advance, hn]
  · rw [Result, Result, hp, hn, matches_char hc, and_iff_right hfits]
    rfl

/-- Where the pass is stuck, nothing matches but what the last star wins. -/
theorem retry_keeps (hn : s.name ≠ []) (hstuck : ¬Matches question s.pattern s.name) : Keeps question s s.retry := by
  unfold retry
  cases hstar : s.star with
  | none =>
    refine iff_of_false Bool.false_ne_true ?_
    rw [Result, hstar]
    simpa using hstuck
  | some e =>
    obtain ⟨_,run,_,hleft,_⟩ := s.since e hstar
    constructor
    · rw [meet_remaining, remaining_some hstar, Prod.Lex.toLex_lt_toLex, Prod.Lex.toLex_lt_toLex]
      refine .inr ⟨rfl,.inl ?_⟩
      have hne : e.2 ≠ [] := by
        rw [hleft]
        exact List.append_ne_nil_of_right_ne_nil run hn
      exact (List.length_tail ▸ Nat.sub_lt (List.length_pos_iff.mpr hne) Nat.one_pos)
    · rw [meet_result, Result, hstar, or_iff_right hstuck]
      simp

variable (question s) in
theorem next_keeps : Keeps question s (s.next question) := by
  unfold next
  split
  case h_1 hn =>
    rw [Keeps, Result, ← matches_stars, hn]
    refine ⟨.inl,?_⟩
    rintro (h|h)
    · exact h
    · obtain ⟨rest,hrest,h⟩ := match_to_the_right h
      rw [hn, List.tail_nil, List.suffix_nil] at hrest
      exact hrest ▸ h
  case h_2 hn hp =>
    refine retry_keeps (by simp [hn]) ?_
    rw [hn, hp, matches_nil_left]
    exact List.cons_ne_nil _ _
  case h_3 x n c p hn hp =>
    split
    · rename_i hc
      exact meet_keeps (hc ▸ hp)
    · rename_i hc
      split
      · rename_i hfits
        exact advance_keeps hp hn hc hfits
      · rename_i hfits
        refine retry_keeps (by simp [hn]) ?_
        rw [hn, hp, matches_char hc]
        exact fun h => hfits h.1

end Step

/-- The pass steps until it has an answer. -/
def loop (s : Scan) : Bool :=
  match h : s.next question with
  | .done answer => answer
  | .go t => loop t
termination_by s.remaining
decreasing_by
  have hkeeps := s.next_keeps question
  rw [h] at hkeeps
  exact hkeeps.1

theorem loop_iff (s : Scan) : s.loop question = true ↔ s.Result question := by
  fun_induction s.loop question with
  | case1 s answer h =>
    have hkeeps := s.next_keeps question
    rwa [h] at hkeeps
  | case2 s t h ih =>
    have hkeeps := s.next_keeps question
    rw [h] at hkeeps
    exact ih.trans hkeeps.2

end Scan

section Names

/-- A leading dot is met by no star but one that stands alone. -/
def hides (pattern name : String) : Prop :=
  name.toList.head? = some '.' ∧ pattern.toList.head? = some '*' ∧ pattern ≠ "*"

instance (pattern name : String) : Decidable (hides pattern name) :=
  inferInstanceAs (Decidable (_ ∧ _))

def wildcardMatchWith (pattern name : String) : Bool :=
  if hides pattern name then false
  else (Scan.start pattern.toList name.toList).loop question

theorem start_result (pattern name : List Char) :
    (Scan.start pattern name).Result question ↔ Matches question pattern name := by
  refine or_iff_left ?_
  rintro ⟨e,he,_⟩
  exact Option.not_mem_none e he

/-- The one star remembered is enough. -/
theorem wildcardMatchWith_iff (pattern name : String) : wildcardMatchWith question pattern name = true ↔
    (name.toList.head? ≠ some '.' ∨ pattern.toList.head? ≠ some '*' ∨ pattern = "*") ∧
      Matches question pattern.toList name.toList := by
  have hvisible : (name.toList.head? ≠ some '.' ∨ pattern.toList.head? ≠ some '*' ∨ pattern = "*") ↔
      ¬hides pattern name := by
    rw [hides, not_and_or, not_and_or, not_not]
  rw [hvisible, wildcardMatchWith]
  split
  · rename_i hhides
    exact iff_of_false Bool.false_ne_true fun h => h.1 hhides
  · rename_i hhides
    rw [Scan.loop_iff, start_result, and_iff_right hhides]

end Names

end BuildFiji.Wildcard
