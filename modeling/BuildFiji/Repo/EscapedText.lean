import BuildFiji.Repo.RecordedInputs
import Mathlib.Data.List.Basic

/-!
# Escaped values

A value comes back from its escaped form with a space for an `s` and a newline for an
`n` that stood after a backslash, and otherwise as it was.
-/

set_option autoImplicit false
set_option linter.all false

namespace BuildFiji.Recorded

section Escapes

variable {a b : Char} {into : Text}

example : replacePair a b into [] = [] := by simp [replacePair]

theorem replacePair_other {x : Char} (h : x ≠ a) (t : Text) :
    replacePair a b into (x::t) = x::replacePair a b into t := by
  cases t with
  | nil => rfl
  | cons y t => rw [replacePair, if_neg fun hab => h hab.1]

theorem replacePair_hit (t : Text) :
    replacePair a b into (a::b::t) = into ++ replacePair a b into t := by
  rw [replacePair, if_pos ⟨rfl,rfl⟩]

theorem replacePair_miss {y : Char} (h : y ≠ b) (t : Text) :
    replacePair a b into (a::y::t) = a::replacePair a b into (y::t) := by
  rw [replacePair, if_neg fun hab => h hab.2]

theorem replacePair_alone {a b : Char} {into t : Text} (h : ∀ w, t ≠ b::w) :
    replacePair a b into (a::t) = a::replacePair a b into t := by
  cases t with
  | nil => rfl
  | cons y t => rw [replacePair_miss fun he => h t (by rw [he])]

theorem replace_append (c : Char) (t u : Text) :
    replace c into (t ++ u) = replace c into t ++ replace c into u := List.flatMap_append

end Escapes

section Mangled

/-- A value after it was escaped and unescaped. -/
def mangled : Text → Text
  | '\\' :: 's' :: rest => '\\' :: ' ' :: mangled rest
  | '\\' :: 'n' :: rest => '\\' :: '\n' :: mangled rest
  | c::rest => c::mangled rest
  | [] => []

/-- No backslash stands before an `s` or an `n`. -/
def Bare (v : Text) : Prop := ¬['\\','s'] <:+: v ∧ ¬['\\','n'] <:+: v

instance (v : Text) : Decidable (Bare v) := inferInstanceAs (Decidable (_ ∧ _))

theorem mangled_length (v : Text) : (mangled v).length = v.length := by
  induction v using mangled.induct with
  | case1 rest ih => simp [mangled, ih]
  | case2 rest ih => simp [mangled, ih]
  | case3 c rest hs hn ih =>
    rw [mangled]
    · simp [ih]
    · exact hs
    · exact hn
  | case4 => rfl

theorem mangled_eq_iff (v : Text) : mangled v = v ↔ Bare v := by
  induction v using mangled.induct with
  | case1 rest =>
    constructor
    · intro h
      rw [mangled] at h
      have hc : ' ' = 's' := (List.cons.inj (List.cons.inj h).2).1
      exact absurd hc (by decide)
    · exact fun h => absurd (List.prefix_append ['\\','s'] rest).isInfix h.1
  | case2 rest =>
    constructor
    · intro h
      rw [mangled] at h
      have hc : '\n' = 'n' := (List.cons.inj (List.cons.inj h).2).1
      exact absurd hc (by decide)
    · exact fun h => absurd (List.prefix_append ['\\','n'] rest).isInfix h.2
  | case3 c rest hs hn ih =>
    have hsp : ¬['\\','s'] <+: c::rest := by
      rintro ⟨t,ht⟩
      obtain ⟨rfl,rfl⟩ := List.cons.inj ht
      exact hs t rfl rfl
    have hnp : ¬['\\','n'] <+: c::rest := by
      rintro ⟨t,ht⟩
      obtain ⟨rfl,rfl⟩ := List.cons.inj ht
      exact hn t rfl rfl
    have hm : mangled (c::rest) = c::mangled rest := by
      rw [mangled]
      · exact hs
      · exact hn
    rw [hm, List.cons.injEq, Bare, List.infix_cons_iff, List.infix_cons_iff, ih, Bare]
    tauto
  | case4 => exact ⟨fun _ => by decide,fun _ => rfl⟩

theorem escape_append (u v : Text) : escape (u ++ v) = escape u ++ escape v := by
  simp only [escape, replace_append]

theorem escape_cons (c : Char) (v : Text) : escape (c::v) = escape [c] ++ escape v :=
  escape_append [c] v

theorem escape_plain {c : Char} (hb : c ≠ '\\') (hs : c ≠ ' ') (hn : c ≠ '\n') : escape [c] = [c] := by
  simp [escape, replace, hb, hs, hn]

/-- The first character is that of the value, or a backslash. -/
theorem escape_head {d : Char} (hd : d ≠ '\\') {v t : Text} (h : escape v = d::t) :
    ∃ w, v = d::w := by
  cases v with
  | nil => cases h
  | cons c v =>
    rw [escape_cons] at h
    by_cases hb : c = '\\'
    · subst hb
      exact absurd (List.cons.inj h).1.symm hd
    by_cases hs : c = ' '
    · subst hs
      exact absurd (List.cons.inj h).1.symm hd
    by_cases hn : c = '\n'
    · subst hn
      exact absurd (List.cons.inj h).1.symm hd
    rw [escape_plain hb hs hn] at h
    exact ⟨v,by rw [(List.cons.inj h).1]⟩

/-- After the spaces came back. -/
def spaced : Text → Text
  | '\\' :: 's' :: rest => '\\' :: ' ' :: spaced rest
  | '\\'::rest => '\\' :: '\\' :: spaced rest
  | '\n'::rest => '\\' :: 'n' :: spaced rest
  | c::rest => c::spaced rest
  | [] => []

/-- After the newlines came back too. -/
def broken : Text → Text
  | '\\' :: 's' :: rest => '\\' :: ' ' :: broken rest
  | '\\' :: 'n' :: rest => '\\' :: '\n' :: broken rest
  | '\\'::rest => '\\' :: '\\' :: broken rest
  | c::rest => c::broken rest
  | [] => []

theorem spaced_other {c : Char} (hb : c ≠ '\\') (hn : c ≠ '\n') (v : Text) :
    spaced (c::v) = c::spaced v := by
  rw [spaced]
  · exact fun _ he => absurd he hb
  · exact hb
  · exact hn

theorem spaced_escape (v : Text) : replacePair '\\' 's' [' '] (escape v) = spaced v := by
  induction v using spaced.induct with
  | case1 rest ih =>
    show replacePair '\\' 's' [' '] ('\\' :: '\\' :: 's' :: escape rest) = _
    rw [replacePair_miss (by decide), replacePair_hit, ih]
    rfl
  | case2 rest hs ih =>
    have hne : ∀ w, escape rest ≠ 's'::w := by
      intro w hw
      obtain ⟨w,rfl⟩ := escape_head (by decide) hw
      exact hs w rfl
    show replacePair '\\' 's' [' '] ('\\' :: '\\' :: escape rest) = _
    rw [replacePair_miss (by decide), replacePair_alone hne, ih, spaced]
    exact hs
  | case3 rest ih =>
    show replacePair '\\' 's' [' '] ('\\' :: 'n' :: escape rest) = _
    rw [replacePair_miss (by decide), replacePair_other (by decide), ih]
    rfl
  | case4 c rest _ hb hn ih =>
    have hb : c ≠ '\\' := hb
    have hn : c ≠ '\n' := hn
    rw [spaced_other hb hn, escape_cons]
    by_cases hs : c = ' '
    · subst hs
      show replacePair '\\' 's' [' '] ('\\' :: 's' :: escape rest) = _
      rw [replacePair_hit, ih]
      rfl
    · rw [escape_plain hb hs hn, List.singleton_append, replacePair_other hb, ih]
  | case5 => rfl

theorem spaced_head {d : Char} (hd : d ≠ '\\') {v t : Text} (h : spaced v = d::t) : ∃ w, v = d::w := by
  cases v with
  | nil => cases h
  | cons c v =>
    by_cases hb : c = '\\'
    · subst hb
      cases v with
      | nil => exact absurd (List.cons.inj h).1.symm hd
      | cons e v =>
        by_cases hs : e = 's'
        · subst hs
          exact absurd (List.cons.inj h).1.symm hd
        · rw [spaced] at h
          · exact absurd (List.cons.inj h).1.symm hd
          · intro w hw
            exact hs (List.cons.inj hw).1
    by_cases hn : c = '\n'
    · subst hn
      exact absurd (List.cons.inj h).1.symm hd
    rw [spaced_other hb hn] at h
    exact ⟨v,by rw [(List.cons.inj h).1]⟩

theorem broken_spaced (v : Text) : replacePair '\\' 'n' ['\n'] (spaced v) = broken v := by
  induction v using broken.induct with
  | case1 rest ih =>
    show replacePair '\\' 'n' ['\n'] ('\\' :: ' ' :: spaced rest) = _
    rw [replacePair_miss (by decide), replacePair_other (by decide), ih]
    rfl
  | case2 rest ih =>
    show replacePair '\\' 'n' ['\n'] ('\\' :: '\\' :: 'n' :: spaced rest) = _
    rw [replacePair_miss (by decide), replacePair_hit, ih]
    rfl
  | case3 rest hs hn ih =>
    have hne : ∀ w, spaced rest ≠ 'n'::w := by
      intro w hw
      obtain ⟨w,rfl⟩ := spaced_head (by decide) hw
      exact hn w rfl
    have hm : spaced ('\\'::rest) = '\\' :: '\\' :: spaced rest := by
      rw [spaced]
      exact hs
    rw [hm, replacePair_miss (by decide), replacePair_alone hne, ih, broken]
    · exact hs
    · exact hn
  | case4 c rest _ _ hb ih =>
    have hb : c ≠ '\\' := hb
    have hm : broken (c::rest) = c::broken rest := by
      rw [broken]
      · exact fun _ he => absurd he hb
      · exact fun _ he => absurd he hb
      · exact hb
    by_cases hn : c = '\n'
    · subst hn
      show replacePair '\\' 'n' ['\n'] ('\\' :: 'n' :: spaced rest) = _
      rw [replacePair_hit, ih, hm]
      rfl
    · rw [spaced_other hb hn, replacePair_other hb, ih, hm]
  | case5 => rfl

theorem mangled_broken (v : Text) : replacePair '\\' '\\' ['\\'] (broken v) = mangled v := by
  induction v using broken.induct with
  | case1 rest ih =>
    show replacePair '\\' '\\' ['\\'] ('\\' :: ' ' :: broken rest) = _
    rw [replacePair_miss (by decide), replacePair_other (by decide), ih]
    rfl
  | case2 rest ih =>
    show replacePair '\\' '\\' ['\\'] ('\\' :: '\n' :: broken rest) = _
    rw [replacePair_miss (by decide), replacePair_other (by decide), ih]
    rfl
  | case3 rest hs hn ih =>
    have hm : broken ('\\'::rest) = '\\' :: '\\' :: broken rest := by
      rw [broken]
      · exact hs
      · exact hn
    rw [hm, replacePair_hit, ih, mangled]
    · rfl
    · exact fun w _ hw => hs w hw
    · exact fun w _ hw => hn w hw
  | case4 c rest _ _ hb ih =>
    have hb : c ≠ '\\' := hb
    rw [broken, mangled, replacePair_other hb, ih]
    · exact fun _ he => absurd he hb
    · exact fun _ he => absurd he hb
    · exact fun _ he => absurd he hb
    · exact fun _ he => absurd he hb
    · exact hb
  | case5 => rfl

theorem unescape_escape_mangled (v : Text) : unescape (escape v) = mangled v := by
  rw [unescape, spaced_escape, broken_spaced, mangled_broken]

theorem escape_single_last (c : Char) :
    ∃ d, (escape [c]).getLast? = some d ∧ (d = '\r' ↔ c = '\r') := by
  by_cases hb : c = '\\'
  · subst hb
    exact ⟨'\\',by decide,by decide⟩
  by_cases hs : c = ' '
  · subst hs
    exact ⟨'s',by decide,by decide⟩
  by_cases hn : c = '\n'
  · subst hn
    exact ⟨'n',by decide,by decide⟩
  rw [escape_plain hb hs hn]
  exact ⟨c,rfl,Iff.rfl⟩

theorem escape_last {v : Text} : (escape v).getLast? = some '\r' ↔ v.getLast? = some '\r' := by
  rcases List.eq_nil_or_concat v with rfl | ⟨u,c,rfl⟩
  · exact Iff.rfl
  · obtain ⟨d,hd,hiff⟩ := escape_single_last c
    rw [List.concat_eq_append, escape_append, List.getLast?_append, hd, List.getLast?_concat, Option.some_or,
      Option.some.injEq, Option.some.injEq]
    exact hiff

/-- No value is written as one that is not set. -/
theorem escape_ne_unset (v : Text) : escape v ≠ "\\0".toList := by
  intro h
  cases v with
  | nil => cases h
  | cons c v =>
    rw [escape_cons] at h
    by_cases hb : c = '\\'
    · subst hb
      exact absurd (List.cons.inj (List.cons.inj h).2).1 (by decide)
    by_cases hs : c = ' '
    · subst hs
      exact absurd (List.cons.inj (List.cons.inj h).2).1 (by decide)
    by_cases hn : c = '\n'
    · subst hn
      exact absurd (List.cons.inj (List.cons.inj h).2).1 (by decide)
    rw [escape_plain hb hs hn] at h
    exact hb (List.cons.inj h).1

end Mangled

end BuildFiji.Recorded
