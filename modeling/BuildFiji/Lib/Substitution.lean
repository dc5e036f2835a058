import Mathlib.Data.List.Infix
import Mathlib.Data.List.Nodup
import Mathlib.Data.List.Perm.Subperm
import Mathlib.Logic.Relation

/-!
# Substitution of names

A text has plain pieces and names; a table says what a name stands for, which may
name others. Expanding puts the text of a name in its place. A run that keeps the
names it is inside of stops at a name it is already inside of; one that does not
may never end.
-/

set_option autoImplicit false
set_option linter.all false

namespace BuildFiji.Substitution

open Relation

inductive Piece (F N : Type*) where
  | plain (flag : F)
  | name (name : N)
  deriving DecidableEq

variable {F G N ε : Type*}

section Meaning

variable (table : N → Option (List (Piece F N)))

inductive Expands : List (Piece F N) → List F → Prop
  | nil : Expands [] []
  | plain (f : F) {ps : List (Piece F N)} {r : List F} :
      Expands ps r → Expands (.plain f::ps) (f::r)
  | name (n : N) {body ps : List (Piece F N)} {e r : List F} :
      table n = some body → Expands body e → Expands ps r → Expands (.name n::ps) (e ++ r)

def Calls (m n : N) : Prop := ∃ body, table m = some body ∧ .name n ∈ body

/-- Met while expanding the text. -/
def Met (ps : List (Piece F N)) (n : N) : Prop :=
  ∃ m, .name m ∈ ps ∧ ReflTransGen (Calls table) m n

/-- Every name that is met is defined, and none is met inside itself. -/
def Clean (ps : List (Piece F N)) : Prop :=
  ∀ n, Met table ps n → table n ≠ none ∧ ¬TransGen (Calls table) n n

variable {table}
variable {ps qs body : List (Piece F N)} {r s : List F} {m n : N}

theorem met_of_mem (h : .name n ∈ ps) : Met table ps n := ⟨n,h,.refl⟩

theorem Met.mono (h : Met table ps n) (hsub : ∀ m, .name m ∈ ps → .name m ∈ qs) :
    Met table qs n := by
  obtain ⟨m,hm,hpath⟩ := h
  exact ⟨m,hsub m hm,hpath⟩

theorem met_append : Met table (ps ++ qs) n ↔ Met table ps n ∨ Met table qs n := by
  constructor
  · rintro ⟨m,hm,hpath⟩
    rcases List.mem_append.mp hm with hm | hm
    · exact .inl ⟨m,hm,hpath⟩
    · exact .inr ⟨m,hm,hpath⟩
  · rintro (h | h)
    · exact h.mono fun m hm => List.mem_append_left _ hm
    · exact h.mono fun m hm => List.mem_append_right _ hm

theorem met_plain {f : F} : Met table (.plain f::ps) n ↔ Met table ps n := by
  constructor
  · rintro ⟨m,hm,hpath⟩
    exact ⟨m,by simpa using hm,hpath⟩
  · exact fun h => h.mono fun m hm => List.mem_cons_of_mem _ hm

theorem met_cons (hbody : table m = some body) :
    Met table (.name m::ps) n ↔ n = m ∨ Met table body n ∨ Met table ps n := by
  constructor
  · rintro ⟨k,hk,hpath⟩
    rcases List.mem_cons.mp hk with heq | hk
    · cases heq
      rcases hpath.cases_head with rfl | ⟨l,⟨b,hb,hl⟩,hrest⟩
      · exact .inl rfl
      · rw [hbody,Option.some.injEq] at hb
        subst hb
        exact .inr (.inl ⟨l,hl,hrest⟩)
    · exact .inr (.inr ⟨k,hk,hpath⟩)
  · rintro (rfl | ⟨l,hl,hrest⟩ | h)
    · exact met_of_mem (List.mem_cons_self ..)
    · exact ⟨m,List.mem_cons_self ..,.head ⟨body,hbody,hl⟩ hrest⟩
    · exact h.mono fun k hk => List.mem_cons_of_mem _ hk

theorem Clean.append_iff :
    Clean table (ps ++ qs) ↔ Clean table ps ∧ Clean table qs := by
  constructor
  · intro h
    exact ⟨fun n hn => h n (met_append.mpr (.inl hn)),
      fun n hn => h n (met_append.mpr (.inr hn))⟩
  · rintro ⟨hp,hq⟩ n hn
    exact (met_append.mp hn).elim (hp n) (hq n)

/-- A text has one expansion at most. -/
theorem Expands.det (hr : Expands table ps r) (hs : Expands table ps s) : r = s := by
  induction hr generalizing s with
  | nil =>
    cases hs
    rfl
  | plain f _ ih =>
    cases hs with
    | plain _ hs => rw [ih hs]
  | name n hbody _ _ ihe ihr =>
    cases hs with
    | name _ hbody' he' hr' =>
      rw [hbody,Option.some.injEq] at hbody'
      subst hbody'
      rw [ihe he',ihr hr']

/-- What has an expansion is clean: a name met inside itself would be met inside its
own text, which is shorter by that name. -/
theorem Expands.clean (h : Expands table ps r) : Clean table ps := by
  induction h with
  | nil =>
    rintro n ⟨m,hm,-⟩
    exact absurd hm List.not_mem_nil
  | plain f _ ih => exact fun n hn => ih n (met_plain.mp hn)
  | @name m body ps e r hbody _ _ ihe ihr =>
    intro n hn
    rcases (met_cons hbody).mp hn with rfl | hn | hn
    · refine ⟨by simp [hbody],fun hcycle => ?_⟩
      obtain ⟨k,⟨b,hb,hk⟩,hpath⟩ := TransGen.head'_iff.mp hcycle
      rw [hbody,Option.some.injEq] at hb
      subst hb
      exact (ihe n ⟨k,hk,hpath⟩).2 hcycle
    · exact ihe n hn
    · exact ihr n hn

/-- What an expansion consists of: the plain pieces of the text and of the names met. -/
theorem Expands.mem_iff (h : Expands table ps r) (f : F) :
    f ∈ r ↔ .plain f ∈ ps ∨ ∃ n body, Met table ps n ∧ table n = some body ∧ .plain f ∈ body := by
  induction h with
  | nil => simp [Met]
  | plain g _ ih =>
    simp only [List.mem_cons,ih,met_plain,Piece.plain.injEq]
    tauto
  | @name m body ps e r hbody _ _ ihe ihr =>
    rw [List.mem_append,ihe,ihr]
    constructor
    · rintro ((h | ⟨n,b,hn,hb,h⟩) | h | ⟨n,b,hn,hb,h⟩)
      · exact .inr ⟨m,body,met_of_mem (List.mem_cons_self ..),hbody,h⟩
      · exact .inr ⟨n,b,(met_cons hbody).mpr (.inr (.inl hn)),hb,h⟩
      · exact .inl (List.mem_cons_of_mem _ h)
      · exact .inr ⟨n,b,(met_cons hbody).mpr (.inr (.inr hn)),hb,h⟩
    · rintro (h | ⟨n,b,hn,hb,h⟩)
      · exact .inr (.inl (by simpa using h))
      · rcases (met_cons hbody).mp hn with rfl | hn | hn
        · rw [hbody,Option.some.injEq] at hb
          subst hb
          exact .inl (.inl h)
        · exact .inl (.inr ⟨n,b,hn,hb,h⟩)
        · exact .inr (.inr ⟨n,b,hn,hb,h⟩)

/-- The expansion of a name that is met stands in that of the text. -/
theorem Expands.infix_of_met (h : Expands table ps r) (hn : Met table ps n) :
    ∃ body e, table n = some body ∧ Expands table body e ∧ e <:+: r := by
  induction h with
  | nil =>
    obtain ⟨m,hm,-⟩ := hn
    exact absurd hm List.not_mem_nil
  | plain f _ ih =>
    obtain ⟨body,e,hbody,he,hin⟩ := ih (met_plain.mp hn)
    exact ⟨body,e,hbody,he,hin.trans (List.suffix_cons ..).isInfix⟩
  | @name m body ps e r hbody he _ ihe ihr =>
    rcases (met_cons hbody).mp hn with rfl | hn | hn
    · exact ⟨body,e,hbody,he,(List.prefix_append ..).isInfix⟩
    · obtain ⟨b,e',hb,he',hin⟩ := ihe hn
      exact ⟨b,e',hb,he',hin.trans (List.prefix_append ..).isInfix⟩
    · obtain ⟨b,e',hb,he',hin⟩ := ihr hn
      exact ⟨b,e',hb,he',hin.trans (List.suffix_append ..).isInfix⟩

end Meaning

section Runs

/-- What is put out or the error that stops it, none when the fuel is spent. -/
abbrev Run (ε F : Type*) := Option (Except ε (List F))

/-- One run after another, which is not begun if the first gives an error. -/
def Run.append : Run ε F → Run ε F → Run ε F
  | some (.ok a),some (.ok b) => some (.ok (a ++ b))
  | some (.ok _),r => r
  | r,_ => r

def Run.all : List (Run ε F) → Run ε F
  | [] => some (.ok [])
  | a::as => a.append (Run.all as)

def expandPiece (expand : N → Run ε F) : Piece F N → Run ε F
  | .plain f => some (.ok [f])
  | .name n => expand n

def expandPieces (expand : N → Run ε F) : List (Piece F N) → Run ε F
  | [] => some (.ok [])
  | p::ps => (expandPiece expand p).append (expandPieces expand ps)

/-- The text of a name, unless the run is inside it. -/
def expandName [DecidableEq N] (table : N → Option (List (Piece F N)))
    (cycle : List N → N → ε) (undefined : N → ε) : ℕ → List N → N → Run ε F
  | 0,_,_ => none
  | fuel+1,active,n =>
    if n ∈ active then some (.error (cycle active n))
    else
      match table n with
      | some body => expandPieces (expandName table cycle undefined fuel (active ++ [n])) body
      | none => some (.error (undefined n))

/-- The same with no check and no error. -/
def expandFreely (texts : N → List (Piece F N)) : ℕ → N → Run ε F
  | 0,_ => none
  | fuel+1,n => expandPieces (expandFreely texts fuel) (texts n)

variable {a b c : Run ε F} {r : List F} {ps qs : List (Piece F N)} {expand expand' : N → Run ε F}

@[simp] theorem Run.ok_append_ok {x y : List F} :
    Run.append (some (.ok x)) (some (.ok y) : Run ε F) = some (.ok (x ++ y)) := rfl

@[simp] theorem Run.ok_append_error {x : List F} {e : ε} :
    Run.append (some (.ok x)) (some (.error e) : Run ε F) = some (.error e) := rfl

@[simp] theorem Run.ok_append_none {x : List F} : Run.append (some (.ok x)) (none : Run ε F) = none := rfl

@[simp] theorem Run.error_append {e : ε} : Run.append (some (.error e)) b = some (.error e) := rfl

@[simp] theorem Run.none_append : Run.append none b = none := rfl

theorem Run.append_ok :
    a.append b = some (.ok r) ↔ ∃ x y, a = some (.ok x) ∧ b = some (.ok y) ∧ r = x ++ y := by
  rcases a with - | (_ | x) <;> rcases b with - | (_ | y) <;> simp [eq_comm]

theorem Run.append_error {e : ε} :
    a.append b = some (.error e) ↔
      a = some (.error e) ∨ ∃ x, a = some (.ok x) ∧ b = some (.error e) := by
  rcases a with - | (_ | x) <;> rcases b with - | (_ | y) <;> simp

theorem Run.append_ne_none (ha : a ≠ none) (hb : b ≠ none) : a.append b ≠ none := by
  rcases a with - | (_ | x) <;> rcases b with - | (_ | y) <;> simp_all

theorem Run.append_assoc : (a.append b).append c = a.append (b.append c) := by
  rcases a with - | (_ | x) <;> rcases b with - | (_ | y) <;> rcases c with - | (_ | z) <;>
    simp

@[simp] theorem Run.nil_append : Run.append (some (.ok [])) b = b := by
  rcases b with - | (_ | y) <;> simp

@[simp] theorem Run.append_nil : a.append (some (.ok [])) = a := by
  rcases a with - | (_ | y) <;> simp

theorem expandPieces_append (expand : N → Run ε F) (ps qs : List (Piece F N)) :
    expandPieces expand (ps ++ qs) = (expandPieces expand ps).append (expandPieces expand qs) := by
  induction ps with
  | nil => simp [expandPieces]
  | cons p ps ih => simp [expandPieces,ih,Run.append_assoc]

theorem expandPieces_flatMap {A : Type*} (expand : N → Run ε F) (f : A → List (Piece F N))
    (as : List A) :
    expandPieces expand (as.flatMap f) = Run.all (as.map fun a => expandPieces expand (f a)) := by
  induction as with
  | nil => rfl
  | cons a as ih => rw [List.flatMap_cons,expandPieces_append,ih,List.map_cons,Run.all]

theorem expandPieces_map {A : Type*} (expand : N → Run ε F) (f : A → Piece F N) (as : List A) :
    expandPieces expand (as.map f) = Run.all (as.map fun a => expandPiece expand (f a)) := by
  induction as with
  | nil => rfl
  | cons a as ih => rw [List.map_cons,expandPieces,ih,List.map_cons,Run.all]

theorem expandPieces_terminates (h : ∀ n, .name n ∈ ps → expand n ≠ none) :
    expandPieces expand ps ≠ none := by
  induction ps with
  | nil => simp [expandPieces]
  | cons p ps ih =>
    refine Run.append_ne_none ?_ (ih fun n hn => h n (List.mem_cons_of_mem _ hn))
    cases p with
    | plain f => simp [expandPiece]
    | name n => exact h n (List.mem_cons_self ..)

theorem expandPieces_mono (h : ∀ n x, expand n = some x → expand' n = some x)
    {x : Except ε (List F)} (hx : expandPieces expand ps = some x) :
    expandPieces expand' ps = some x := by
  have hpiece (p : Piece F N) {y : Except ε (List F)} (hy : expandPiece expand p = some y) :
      expandPiece expand' p = some y := by
    cases p with
    | plain f => exact hy
    | name n => exact h n y hy
  induction ps generalizing x with
  | nil => exact hx
  | cons p ps ih =>
    rw [expandPieces] at hx ⊢
    cases x with
    | error e =>
      rw [Run.append_error] at hx ⊢
      rcases hx with hp | ⟨y,hy,hps⟩
      · exact .inl (hpiece p hp)
      · exact .inr ⟨y,hpiece p hy,ih hps⟩
    | ok r =>
      rw [Run.append_ok] at hx ⊢
      obtain ⟨y,z,hy,hz,hr⟩ := hx
      exact ⟨y,z,hpiece p hy,ih hz,hr⟩

/-- The names of the text are all expanded when it is. -/
theorem expandPieces_ok_iff :
    (∃ r, expandPieces expand ps = some (.ok r)) ↔
      ∀ n, .name n ∈ ps → ∃ e, expand n = some (.ok e) := by
  induction ps with
  | nil => simp [expandPieces]
  | cons p ps ih =>
    have hstep : (∃ r, expandPieces expand (p::ps) = some (.ok r)) ↔
        (∀ n, .name n = p → ∃ e, expand n = some (.ok e)) ∧
          ∃ r, expandPieces expand ps = some (.ok r) := by
      cases p <;> simp [expandPieces,expandPiece,Run.append_ok]
    simp only [hstep,ih,List.mem_cons,or_imp,forall_and]

/-- An error is that of one of the names. -/
theorem expandPieces_error {e : ε} (h : expandPieces expand ps = some (.error e)) :
    ∃ n, .name n ∈ ps ∧ expand n = some (.error e) := by
  induction ps with
  | nil => simp [expandPieces] at h
  | cons p ps ih =>
    obtain hp | ⟨x,-,hps⟩ := Run.append_error.mp h
    · cases p with
      | plain f => simp [expandPiece] at hp
      | name n => exact ⟨n,List.mem_cons_self ..,hp⟩
    · obtain ⟨n,hn,hen⟩ := ih hps
      exact ⟨n,List.mem_cons_of_mem _ hn,hen⟩

theorem expandPieces_expands {table : N → Option (List (Piece F N))}
    (h : ∀ n e, expand n = some (.ok e) → ∃ body, table n = some body ∧ Expands table body e)
    (hr : expandPieces expand ps = some (.ok r)) : Expands table ps r := by
  induction ps generalizing r with
  | nil =>
    simp only [expandPieces,Option.some.injEq,Except.ok.injEq] at hr
    rw [← hr]
    exact .nil
  | cons p ps ih =>
    rw [expandPieces,Run.append_ok] at hr
    obtain ⟨x,y,hx,hy,rfl⟩ := hr
    cases p with
    | plain f =>
      simp only [expandPiece,Option.some.injEq,Except.ok.injEq] at hx
      rw [← hx]
      exact .plain f (ih hy)
    | name n =>
      obtain ⟨body,hbody,hx⟩ := h n x hx
      exact .name n hbody hx (ih hy)

end Runs

section Checked

variable [DecidableEq N] {table : N → Option (List (Piece F N))} {cycle : List N → N → ε}
  {undefined : N → ε}

section Steps

variable {active : List N} {n : N} {fuel : ℕ}

example : expandName table cycle undefined 0 active n = none := by rw [expandName]

theorem expandName_none (ha : n ∉ active) (h : table n = none) :
    expandName table cycle undefined (fuel+1) active n = some (.error (undefined n)) := by
  simp [expandName,ha,h]

theorem expandName_some {body : List (Piece F N)} (ha : n ∉ active) (h : table n = some body) :
    expandName table cycle undefined (fuel+1) active n =
      expandPieces (expandName table cycle undefined fuel (active ++ [n])) body := by
  simp [expandName,ha,h]

end Steps

theorem expandName_mono {fuel : ℕ} {active : List N} {n : N} {x : Except ε (List F)}
    (h : expandName table cycle undefined fuel active n = some x) :
    expandName table cycle undefined (fuel+1) active n = some x := by
  induction fuel generalizing active n x with
  | zero => simp [expandName] at h
  | succ fuel ih =>
    rw [expandName] at h ⊢
    split at h
    · next ha => rwa [if_pos ha]
    · next ha =>
      rw [if_neg ha]
      cases hbody : table n with
      | none => simpa [hbody] using h
      | some body =>
        simp only [hbody] at h ⊢
        exact expandPieces_mono (fun m y hy => ih hy) h

/-- A run is inside defined names only, each once: there is fuel enough if there is more
than there are names it is not inside of. -/
theorem expandName_terminates {defined : List N} (hdef : ∀ n, table n ≠ none → n ∈ defined)
    {fuel : ℕ} {active : List N} (n : N) (hnd : active.Nodup) (hsub : active ⊆ defined)
    (hfuel : defined.length < fuel+active.length) :
    expandName table cycle undefined fuel active n ≠ none := by
  induction fuel generalizing active n with
  | zero =>
    have hle := (hnd.subperm hsub).length_le
    omega
  | succ fuel ih =>
    by_cases ha : n ∈ active
    · simp [expandName,ha]
    cases hbody : table n with
    | none => simp [expandName_none ha hbody]
    | some body =>
      rw [expandName_some ha hbody]
      refine expandPieces_terminates fun m _ => ih m ?_ ?_ ?_
      · exact List.Nodup.append hnd (List.nodup_singleton n) (by simpa using ha)
      · intro k hk
        rcases List.mem_append.mp hk with hk | hk
        · exact hsub hk
        · rw [List.mem_singleton.mp hk]
          exact hdef n (by simp [hbody])
      · simp only [List.length_append,List.length_singleton]
        omega

theorem expandName_expands {fuel : ℕ} {active : List N} {n : N} {e : List F}
    (h : expandName table cycle undefined fuel active n = some (.ok e)) :
    ∃ body, table n = some body ∧ Expands table body e := by
  induction fuel generalizing active n e with
  | zero => simp [expandName] at h
  | succ fuel ih =>
    by_cases ha : n ∈ active
    · simp [expandName,ha] at h
    cases hbody : table n with
    | none => simp [expandName_none ha hbody] at h
    | some body =>
      rw [expandName_some ha hbody] at h
      exact ⟨body,rfl,expandPieces_expands (fun m x hx => ih hx) h⟩

/-- An error comes from a name that nothing defines or that is met inside itself: the names
a run is inside of all lead to the one it expands. -/
theorem expandName_error {fuel : ℕ} {active : List N} {n : N} {e : ε}
    (hactive : ∀ a ∈ active, TransGen (Calls table) a n)
    (h : expandName table cycle undefined fuel active n = some (.error e)) :
    ∃ m, ReflTransGen (Calls table) n m ∧ (table m = none ∨ TransGen (Calls table) m m) := by
  induction fuel generalizing active n with
  | zero => simp [expandName] at h
  | succ fuel ih =>
    by_cases ha : n ∈ active
    · exact ⟨n,.refl,.inr (hactive n ha)⟩
    cases hbody : table n with
    | none => exact ⟨n,.refl,.inl hbody⟩
    | some body =>
      rw [expandName_some ha hbody] at h
      obtain ⟨m,hm,hem⟩ := expandPieces_error h
      have hcall : Calls table n m := ⟨body,hbody,hm⟩
      obtain ⟨k,hk,hbad⟩ := ih (fun a hain => by
        rcases List.mem_append.mp hain with hain | hain
        · exact (hactive a hain).tail hcall
        · rw [List.mem_singleton.mp hain]
          exact .single hcall) hem
      exact ⟨k,.head hcall hk,hbad⟩

section Texts

variable {defined : List N} {fuel : ℕ} {ps : List (Piece F N)} {r : List F}

theorem expandPieces_fuel (hdef : ∀ n, table n ≠ none → n ∈ defined)
    (hfuel : defined.length < fuel) :
    expandPieces (expandName table cycle undefined fuel []) ps ≠ none := by
  refine expandPieces_terminates fun n _ => ?_
  exact expandName_terminates hdef n List.nodup_nil (List.nil_subset _) (by simpa using hfuel)

theorem expandPieces_succ {x : Except ε (List F)}
    (h : expandPieces (expandName table cycle undefined fuel []) ps = some x) :
    expandPieces (expandName table cycle undefined (fuel+1) []) ps = some x :=
  expandPieces_mono (fun _ _ hy => expandName_mono hy) h

/-- More fuel than enough changes nothing. -/
theorem expandPieces_settles (hdef : ∀ n, table n ≠ none → n ∈ defined)
    (hfuel : defined.length < fuel) :
    expandPieces (expandName table cycle undefined fuel []) ps =
      expandPieces (expandName table cycle undefined (defined.length+1) []) ps := by
  obtain ⟨more,rfl⟩ := Nat.exists_eq_add_of_le hfuel
  induction more with
  | zero => rfl
  | succ more ih =>
    rw [← ih (by omega)]
    cases h : expandPieces (expandName table cycle undefined (defined.length.succ+more) []) ps with
    | none => exact absurd h (expandPieces_fuel hdef (by omega))
    | some x => exact expandPieces_succ h

/-- A run with fuel enough expands what is clean. -/
theorem Clean.runs (cycle : List N → N → ε) (undefined : N → ε) (h : Clean table ps)
    (hdef : ∀ n, table n ≠ none → n ∈ defined) (hfuel : defined.length < fuel) :
    ∃ r, expandPieces (expandName table cycle undefined fuel []) ps = some (.ok r) := by
  cases hrun : expandPieces (expandName table cycle undefined fuel []) ps with
  | none => exact absurd hrun (expandPieces_fuel hdef hfuel)
  | some x =>
    cases x with
    | ok r => exact ⟨r,rfl⟩
    | error e =>
      obtain ⟨n,hn,hen⟩ := expandPieces_error hrun
      obtain ⟨m,hm,hbad⟩ := expandName_error (by simp) hen
      obtain ⟨hsome,hacyclic⟩ := h m ⟨n,hn,hm⟩
      exact absurd hbad (by simp [hsome,hacyclic])

/-- A run with fuel enough gives the expansion, if there is one. -/
theorem run_iff_expands (hdef : ∀ n, table n ≠ none → n ∈ defined)
    (hfuel : defined.length < fuel) :
    expandPieces (expandName table cycle undefined fuel []) ps = some (.ok r) ↔
      Expands table ps r := by
  have hexpands {s : List F}
      (h : expandPieces (expandName table cycle undefined fuel []) ps = some (.ok s)) :
      Expands table ps s := expandPieces_expands (fun _ _ hx => expandName_expands hx) h
  constructor
  · exact hexpands
  · intro h
    obtain ⟨s,hs⟩ := h.clean.runs cycle undefined hdef hfuel
    rw [hs,(hexpands hs).det h]

theorem clean_iff_expands (hdef : ∀ n, table n ≠ none → n ∈ defined) :
    Clean table ps ↔ ∃ r, Expands table ps r := by
  constructor
  · intro h
    obtain ⟨r,hr⟩ := h.runs (fun _ _ => ()) (fun _ => ()) hdef (Nat.lt_succ_self _)
    exact ⟨r,(run_iff_expands hdef (Nat.lt_succ_self _)).mp hr⟩
  · rintro ⟨r,hr⟩
    exact hr.clean

end Texts

end Checked

section Unchecked

variable {texts : N → List (Piece G N)}

theorem expandFreely_expands {fuel : ℕ} {n : N} {e : List G}
    (h : expandFreely (ε := ε) texts fuel n = some (.ok e)) :
    Expands (fun n => some (texts n)) (texts n) e := by
  induction fuel generalizing n e with
  | zero => simp [expandFreely] at h
  | succ fuel ih => exact expandPieces_expands (fun m x hx => ⟨texts m,rfl,ih hx⟩) h

/-- Where the checked run comes to an end, one without the check does that meets no other
names. -/
theorem expandFreely_ok [DecidableEq N] {ε' : Type*} {table : N → Option (List (Piece F N))}
    {cycle : List N → N → ε} {undefined : N → ε}
    (hsub : ∀ n body, table n = some body → ∀ m, .name m ∈ texts n → .name m ∈ body)
    {fuel : ℕ} {active : List N} {n : N} {e : List F}
    (h : expandName table cycle undefined fuel active n = some (.ok e)) :
    ∃ e', expandFreely (ε := ε') texts fuel n = some (.ok e') := by
  induction fuel generalizing active n e with
  | zero => simp [expandName] at h
  | succ fuel ih =>
    by_cases ha : n ∈ active
    · simp [expandName,ha] at h
    cases hbody : table n with
    | none => simp [expandName_none ha hbody] at h
    | some body =>
      rw [expandName_some ha hbody] at h
      refine expandPieces_ok_iff.mpr fun m hm => ?_
      obtain ⟨x,hx⟩ := expandPieces_ok_iff.mp ⟨e,h⟩ m (hsub n body hbody m hm)
      exact ih hx

end Unchecked

end BuildFiji.Substitution
