import Mathlib.Data.List.Basic
import Mathlib.Data.List.Infix

/-!
# Paths resolved by their text

A path is a list of steps, down into a directory by its name or up out of one,
and leads from one place to another without anything being looked at on a disk.
-/

set_option autoImplicit false
set_option linter.all false

namespace BuildFiji.Lexical

variable {α : Type*}

inductive Step (α : Type*) where
  | up
  | down (name : α)
  deriving DecidableEq

/-- So many directories above where it starts, and down from there. -/
@[ext] structure Place (α : Type*) where
  above : ℕ
  names : List α
  deriving DecidableEq

namespace Place

def origin : Place α := ⟨0,[]⟩

def go (p : Place α) : Step α → Place α
  | .down name => ⟨p.above,p.names ++ [name]⟩
  | .up =>
    match p.names with
    | [] => ⟨p.above+1,[]⟩
    | _::_ => ⟨p.above,p.names.dropLast⟩

def walk (p : Place α) (path : List (Step α)) : Place α := path.foldl go p

/-- The shortest path that leads there. -/
def path (p : Place α) : List (Step α) := List.replicate p.above .up ++ p.names.map .down

theorem walk_nil (p : Place α) : p.walk [] = p := rfl

theorem walk_cons (p : Place α) (x : Step α) (path : List (Step α)) :
    p.walk (x::path) = (p.go x).walk path := rfl

theorem walk_append (p : Place α) (s t : List (Step α)) : p.walk (s ++ t) = (p.walk s).walk t :=
  List.foldl_append

theorem walk_singleton (p : Place α) (x : Step α) : p.walk [x] = p.go x := rfl

theorem go_down (p : Place α) (name : α) : p.go (.down name) = ⟨p.above,p.names ++ [name]⟩ := rfl

theorem go_up_top (n : ℕ) : go (⟨n,[]⟩ : Place α) .up = ⟨n+1,[]⟩ := rfl

theorem go_up (n : ℕ) (names : List α) (name : α) : go ⟨n,names ++ [name]⟩ .up = ⟨n,names⟩ := by
  have h : (names ++ [name]).dropLast = names := List.dropLast_concat
  cases names with
  | nil => rfl
  | cons first names => exact congrArg (Place.mk n) h

theorem go_down_up (p : Place α) (name : α) : (p.go (.down name)).go .up = p := by
  rw [go_down, go_up]

theorem walk_downs (p : Place α) (names : List α) :
    p.walk (names.map .down) = ⟨p.above,p.names ++ names⟩ := by
  induction names generalizing p with
  | nil => rw [List.map_nil, walk_nil, List.append_nil]
  | cons name names ih =>
    rw [List.map_cons, walk_cons, ih]
    simp [go]

theorem path_go_down (p : Place α) (name : α) : (p.go (.down name)).path = p.path ++ [.down name] := by
  simp only [path, go, List.map_append, List.map_singleton, List.append_assoc]

theorem walk_path_go (p q : Place α) (x : Step α) :
    p.walk (q.go x).path = (p.walk q.path).go x := by
  cases x with
  | down name => rw [path_go_down, walk_append, walk_singleton]
  | up =>
    obtain ⟨n,names⟩ := q
    rcases List.eq_nil_or_concat names with rfl | ⟨names,name,rfl⟩
    · have h : (go ⟨n,[]⟩ .up : Place α).path = path ⟨n,[]⟩ ++ [.up] := by
        simp only [path, go, List.map_nil, List.append_nil, List.replicate_succ']
      rw [h, walk_append, walk_singleton]
    · rw [List.concat_eq_append, show (⟨n,names ++ [name]⟩ : Place α) = go ⟨n,names⟩ (.down name) from rfl,
        go_down_up, path_go_down, walk_append, walk_singleton, go_down_up]

/-- A path may be folded before it is followed, wherever it is followed from. -/
theorem walk_folded (p : Place α) (s : List (Step α)) : p.walk (origin.walk s).path = p.walk s := by
  induction s using List.reverseRecOn with
  | nil => rfl
  | append_singleton s x ih =>
    rw [walk_append, walk_append, walk_singleton, walk_singleton, walk_path_go, ih]

end Place

section Under

open Place

/-- The directory, or somewhere below it. -/
def Under (d p : Place α) : Prop := p.above = d.above ∧ d.names <+: p.names

def Inside (d p : Place α) : Prop := Under d p ∧ p ≠ d

instance [DecidableEq α] (d p : Place α) : Decidable (Under d p) :=
  inferInstanceAs (Decidable (_ ∧ _))

instance [DecidableEq α] (d p : Place α) : Decidable (Inside d p) :=
  inferInstanceAs (Decidable (_ ∧ _))

/-- In the directory that the path `own` leads to, or one that `own` leads through. -/
def Beside (own : List (Step α)) (p : Place α) : Prop :=
  Under (origin.walk own) p ∨ ∃ s, s <+: own ∧ p = origin.walk s

/-- The path ends inside the directory and never leaves the way to it. -/
def Keeps (own path : List (Step α)) : Prop :=
  Inside (origin.walk own) (origin.walk path) ∧ ∀ s, s <+: path → Beside own (origin.walk s)

variable {d p q : Place α} {own s t : List (Step α)}

theorem Under.refl (d : Place α) : Under d d := ⟨rfl,List.prefix_rfl⟩

theorem Under.trans (h : Under d p) (k : Under p q) : Under d q := ⟨k.1.trans h.1,h.2.trans k.2⟩

theorem inside_iff : Inside d p ↔ p.above = d.above ∧ ∃ rest, rest ≠ [] ∧ p.names = d.names ++ rest := by
  constructor
  · rintro ⟨⟨ha,rest,hr⟩,hne⟩
    refine ⟨ha,rest,?_,hr.symm⟩
    rintro rfl
    exact hne (Place.ext ha (by rw [← hr, List.append_nil]))
  · rintro ⟨ha,rest,hne,hr⟩
    refine ⟨⟨ha,rest,hr.symm⟩,?_⟩
    rintro rfl
    exact hne (List.append_right_eq_self.mp hr.symm)

theorem Under.go_down (h : Under d p) (name : α) : Inside d (p.go (.down name)) := by
  obtain ⟨ha,rest,hr⟩ := h
  exact inside_iff.mpr ⟨ha,rest ++ [name],by simp,by simp [Place.go_down,← hr]⟩

/-- Where one step ends inside a directory, every step down from there does. -/
theorem Inside.other {x : Step α} (h : Inside d (p.go x)) (name : α) : Inside d (p.go (.down name)) := by
  apply Under.go_down
  obtain ⟨ha,rest,hne,hr⟩ := inside_iff.mp h
  obtain ⟨n,names⟩ := p
  cases x with
  | down other =>
    rcases List.eq_nil_or_concat rest with rfl | ⟨rest,last,rfl⟩
    · exact absurd rfl hne
    · rw [List.concat_eq_append, ← List.append_assoc] at hr
      exact ⟨ha,rest,(List.append_inj' hr rfl).1.symm⟩
  | up =>
    rcases List.eq_nil_or_concat names with rfl | ⟨names,name,rfl⟩
    · rw [go_up_top] at hr
      simp only [List.nil_eq, List.append_eq_nil_iff] at hr
      exact absurd hr.2 hne
    · rw [List.concat_eq_append] at ha hr ⊢
      rw [go_up] at ha hr
      have hd : d.names <+: names := ⟨rest,hr.symm⟩
      exact ⟨ha,hd.trans (List.prefix_append _ _)⟩

/-- The way to a place goes through every directory it is in. -/
theorem passes (own : List (Step α)) (h : Under p (origin.walk own)) :
    ∃ s, s <+: own ∧ p = origin.walk s := by
  induction own using List.reverseRecOn with
  | nil =>
    refine ⟨[],List.prefix_rfl,?_⟩
    exact Place.ext h.1.symm (List.prefix_nil.mp h.2)
  | append_singleton own x ih =>
    have shorter : Under p (origin.walk own) → ∃ s, s <+: own ++ [x] ∧ p = origin.walk s := by
      intro hp
      obtain ⟨s,hs,rfl⟩ := ih hp
      exact ⟨s,hs.trans (List.prefix_append _ _),rfl⟩
    have whole : p = origin.walk (own ++ [x]) → ∃ s, s <+: own ++ [x] ∧ p = origin.walk s :=
      fun hp => ⟨_,List.prefix_rfl,hp⟩
    rw [walk_append, walk_singleton] at h whole
    generalize origin.walk own = w at *
    obtain ⟨n,names⟩ := w
    cases x with
    | down name =>
      rcases List.prefix_concat_iff.mp h.2 with hp | hp
      · exact whole (Place.ext h.1.symm hp)
      · exact shorter ⟨h.1,hp⟩
    | up =>
      rcases List.eq_nil_or_concat names with rfl | ⟨names,name,rfl⟩
      · exact whole (Place.ext h.1.symm (List.prefix_nil.mp h.2))
      · rw [List.concat_eq_append] at h shorter
        rw [go_up] at h
        exact shorter ⟨h.1,h.2.trans (List.prefix_append _ _)⟩

theorem beside_of_under (h : Under p (origin.walk own)) : Beside own p := .inr (passes own h)

theorem keeps_append : Keeps own (own ++ t) ↔
    Inside (origin.walk own) ((origin.walk own).walk t) ∧
      ∀ s, s <+: t → Beside own ((origin.walk own).walk s) := by
  unfold Keeps
  rw [walk_append]
  refine and_congr_right fun _ => ?_
  constructor
  · intro h s hs
    rw [← walk_append]
    exact h _ ((List.prefix_append_right_inj own).mpr hs)
  · intro h s hs
    rcases List.prefix_or_prefix_of_prefix hs (List.prefix_append own t) with ho | ⟨u,rfl⟩
    · exact .inr ⟨s,ho,rfl⟩
    · rw [walk_append]
      exact h u ((List.prefix_append_right_inj own).mp hs)

theorem walk_ups_above (p : Place α) (n : ℕ) : p.above ≤ (p.walk (List.replicate n .up)).above := by
  induction n generalizing p with
  | zero => exact le_rfl
  | succ n ih =>
    rw [List.replicate_succ, walk_cons]
    apply le_trans _ (ih _)
    obtain ⟨m,names⟩ := p
    cases names with
    | nil => exact Nat.le_succ m
    | cons first names => exact Nat.le_refl m

theorem under_walk_ups (p : Place α) (n : ℕ)
    (h : (p.walk (List.replicate n .up)).above = p.above) : Under (p.walk (List.replicate n .up)) p := by
  induction n generalizing p with
  | zero => exact Under.refl p
  | succ n ih =>
    rw [List.replicate_succ, walk_cons] at h ⊢
    have hle := walk_ups_above (p.go .up) n
    obtain ⟨m,names⟩ := p
    rcases List.eq_nil_or_concat names with rfl | ⟨names,name,rfl⟩
    · rw [go_up_top] at h hle
      simp only at h hle
      omega
    · rw [List.concat_eq_append] at h ⊢
      rw [go_up] at h ⊢
      exact (ih _ h).trans ⟨rfl,List.prefix_append _ _⟩

/-- The shortest path goes up first, so that where it ends inside a directory it
was never away from it. -/
theorem on_shortest (f : Place α) (h : Inside d (d.walk f.path)) (hs : s <+: f.path) :
    Under d (d.walk s) ∨ Under (d.walk s) d := by
  obtain ⟨⟨ha,hn⟩,-⟩ := h
  rw [path, walk_append, walk_downs] at ha hn
  rcases List.prefix_or_prefix_of_prefix hs (List.prefix_append _ _) with hu | ⟨u,hu⟩
  · right
    obtain ⟨k,hk⟩ := hu
    obtain ⟨hl,hs,hk⟩ := List.append_eq_replicate_iff.mp hk
    have h1 := walk_ups_above d s.length
    have h2 := walk_ups_above (d.walk (List.replicate s.length .up)) k.length
    rw [← walk_append, List.replicate_append_replicate, hl] at h2
    simp only at ha
    rw [hs]
    exact under_walk_ups d s.length (by omega)
  · rw [← hu] at hs ⊢
    obtain ⟨v,hv⟩ := (List.prefix_append_right_inj _).mp hs
    obtain ⟨names,rest,hnames,rfl,-⟩ := List.map_eq_append_iff.mp hv.symm
    rw [walk_append, walk_downs]
    rw [hnames, ← List.append_assoc] at hn
    rcases List.prefix_or_prefix_of_prefix hn (List.prefix_append _ _) with hp | hp
    · exact .inl ⟨ha,hp⟩
    · exact .inr ⟨ha.symm,hp⟩

theorem keeps_folded : Keeps own (own ++ (origin.walk t).path) ↔
    Inside (origin.walk own) ((origin.walk own).walk t) := by
  rw [keeps_append, walk_folded, and_iff_left_iff_imp]
  intro h s hs
  have hshort : Inside (origin.walk own) ((origin.walk own).walk (origin.walk t).path) := by
    rw [walk_folded]
    exact h
  rcases on_shortest _ hshort hs with hu | hu
  · exact .inl hu
  · exact beside_of_under hu

/-- A name beside one that the directory keeps. -/
theorem Keeps.sibling {x : Step α} (h : Keeps own (s ++ [x])) (name : α) :
    Keeps own (s ++ [.down name]) := by
  have hin := h.1
  rw [walk_append, walk_singleton] at hin
  refine ⟨?_,?_⟩
  · rw [walk_append, walk_singleton]
    exact hin.other name
  · intro r hr
    rcases List.prefix_concat_iff.mp hr with rfl | hr
    · rw [walk_append, walk_singleton]
      exact .inl (hin.other name).1
    · exact h.2 r (hr.trans (List.prefix_append _ _))

theorem Keeps.down (h : Keeps own s) (name : α) : Keeps own (s ++ [.down name]) := by
  refine ⟨?_,?_⟩
  · rw [walk_append, walk_singleton]
    exact h.1.1.go_down name
  · intro r hr
    rcases List.prefix_concat_iff.mp hr with rfl | hr
    · rw [walk_append, walk_singleton]
      exact .inl (h.1.1.go_down name).1
    · exact h.2 r hr

end Under

end BuildFiji.Lexical
