import Mathlib.Data.List.Infix
import BuildFiji.Lib.FirstOccurrence

/-!
# Files and symbolic links

A path is followed from the top, through at most so many links. What is made or removed is a
name in the directory that the rest of its path leads to, and the place of each change is noted.
-/

set_option autoImplicit false
set_option linter.all false

namespace BuildFiji.Links

inductive Step (α : Type) where
  | here
  | up
  | name (c : α)
deriving DecidableEq

inductive Node (α β : Type) where
  | dir
  | file (data : β)
  | link (absolute : Bool) (target : List (Step α))
deriving DecidableEq

/-- Everything that is there is in a directory that is there. -/
structure Files (α β : Type) where
  node : List α → Option (Node α β)
  listed : List (List α)
  top : node [] = some .dir
  closed : ∀ place c, node (place ++ [c]) ≠ none → node place = some .dir
  complete : ∀ place, node place ≠ none → place ∈ listed

/-- Nothing but the top. -/
def Files.bare {α β : Type} : Files α β where
  node
    | [] => some .dir
    | _::_ => none
  listed := [[]]
  top := rfl
  closed := by
    intro place c h
    cases place <;> exact absurd rfl h
  complete := by
    intro place h
    cases place with
    | nil => exact List.mem_singleton_self _
    | cons c place => exact absurd rfl h

inductive Errno where
  | notFound
  | notDirectory
  | isDirectory
  | alreadyExists
  | tooManyLinks
  | invalidInput
deriving DecidableEq

section Follow

variable {α β : Type}

/-- Where a walk ends: at a place, at a link with the steps after it, or nowhere. -/
inductive Walk (α : Type) where
  | ends (place : List α)
  | link (dir : List α) (absolute : Bool) (target rest : List (Step α))
  | fails (e : Errno)

variable (t : Files α β)

def IsDirAt (place : List α) : Prop := t.node place = some .dir

instance (place : List α) : Decidable (IsDirAt t place) :=
  match h : t.node place with
  | some .dir => isTrue h
  | some (.file _) => isFalse fun h' => by rw [IsDirAt, h] at h'; cases h'
  | some (.link _ _) => isFalse fun h' => by rw [IsDirAt, h] at h'; cases h'
  | none => isFalse fun h' => by rw [IsDirAt, h] at h'; cases h'

/-- From a place to the first link. -/
def walk : List α → List (Step α) → Walk α
  | place, [] => .ends place
  | place, .here::rest => if IsDirAt t place then walk place rest else .fails .notDirectory
  | place, .up::rest => if IsDirAt t place then walk place.dropLast rest else .fails .notDirectory
  | place, .name c::rest =>
    if IsDirAt t place then
      match t.node (place ++ [c]) with
      | none => .fails .notFound
      | some (.link absolute target) => .link place absolute target rest
      | some _ => walk (place ++ [c]) rest
    else .fails .notDirectory

/-- Where a link leads from the directory that it is in. -/
def linkStart (dir : List α) (absolute : Bool) : List α := if absolute then [] else dir

/-- From a place through at most so many links, with how many are left. -/
def follow : ℕ → List α → List (Step α) → Except Errno (List α × ℕ)
  | 0, place, path =>
    match walk t place path with
    | .ends place => .ok (place,0)
    | .link _ _ _ _ => .error .tooManyLinks
    | .fails e => .error e
  | n+1, place, path =>
    match walk t place path with
    | .ends place => .ok (place,n+1)
    | .link dir absolute target rest => follow n (linkStart dir absolute) (target ++ rest)
    | .fails e => .error e

variable (limit : ℕ)

/-- Whether something stands where the path leads. -/
def there (path : List (Step α)) : Bool :=
  match follow t limit [] path with
  | .ok _ => true
  | .error _ => false

def isDir (path : List (Step α)) : Bool :=
  match follow t limit [] path with
  | .ok (place,_) => IsDirAt t place
  | .error _ => false

/-- A name in a directory that is there. -/
structure Spot where
  dir : List α
  name : α
  isDir : IsDirAt t dir

variable {t}

def Spot.place (s : Spot t) : List α := s.dir ++ [s.name]

variable (t)

/-- What a path names, the last name not followed. -/
def spot (path : List (Step α)) : Except Errno (Spot t) :=
  match follow t limit [] path.dropLast with
  | .error e => .error e
  | .ok (dir,_) =>
    if h : IsDirAt t dir then
      match path.getLast? with
      | some (.name c) => .ok ⟨dir,c,h⟩
      | _ => .error .alreadyExists
    else .error .notDirectory

end Follow

section Operations

variable {α β : Type} [DecidableEq α]

/-- With something else where no directory is. -/
def Files.set (t : Files α β) (s : Spot t) (v : Option (Node α β)) (h : ¬ IsDirAt t s.place) : Files α β where
  node q := if q = s.place then v else t.node q
  listed := s.place::t.listed
  top := by
    rw [if_neg fun he => List.append_ne_nil_of_right_ne_nil s.dir (List.cons_ne_nil _ _) he.symm]
    exact t.top
  closed := by
    intro q c hne
    have hdir : t.node q = some .dir := by
      by_cases hq : q ++ [c] = s.place
      · rw [(List.append_inj' hq rfl).1]
        exact s.isDir
      · rw [if_neg hq] at hne
        exact t.closed q c hne
    have hne' : q ≠ s.place := by
      rintro rfl
      exact h hdir
    rw [if_neg hne']
    exact hdir
  complete := by
    intro q hne
    by_cases hq : q = s.place
    · exact hq ▸ List.mem_cons_self
    · rw [if_neg hq] at hne
      exact List.mem_cons_of_mem _ (t.complete q hne)

@[simp] theorem Files.set_node {t : Files α β} (s : Spot t) (v : Option (Node α β)) (h : ¬ IsDirAt t s.place)
    (q : List α) : (t.set s v h).node q = if q = s.place then v else t.node q := rfl

variable (t : Files α β)

/-- The names in a directory. -/
def entries (place : List α) : List α :=
  (t.listed.filterMap fun p =>
    if p.dropLast = place ∧ (t.node p).isSome then p.getLast? else none).eraseDups

theorem mem_entries {place : List α} {c : α} : c ∈ entries t place ↔ t.node (place ++ [c]) ≠ none := by
  rw [entries, List.mem_eraseDups, List.mem_filterMap]
  constructor
  · rintro ⟨p,-,hp⟩
    split at hp
    · next h =>
      rw [← h.1, List.dropLast_append_getLast? c hp]
      exact Option.isSome_iff_ne_none.mp h.2
    · cases hp
  · intro h
    refine ⟨place ++ [c],t.complete _ h,?_⟩
    rw [if_pos ⟨List.dropLast_concat,Option.isSome_iff_ne_none.mpr h⟩, List.getLast?_concat]

theorem nodup_entries (place : List α) : (entries t place).Nodup := FirstOccurrence.nodup_eraseDups _

variable (limit : ℕ)

def readDir (path : List (Step α)) : Except Errno (List α) :=
  match follow t limit [] path with
  | .error e => .error e
  | .ok (place,_) => if IsDirAt t place then .ok (entries t place) else .error .notDirectory

def readLink (path : List (Step α)) : Except Errno (Bool × List (Step α)) :=
  match spot t limit path with
  | .error e => .error e
  | .ok s =>
    match t.node s.place with
    | none => .error .notFound
    | some (.link absolute target) => .ok (absolute,target)
    | some _ => .error .invalidInput

variable (s : Spot t)

def mkdirAt : Except Errno (Files α β) :=
  match h : t.node s.place with
  | none => .ok (t.set s (some .dir) fun hd => by rw [IsDirAt, h] at hd; cases hd)
  | some _ => .error .alreadyExists

def removeAt : Except Errno (Files α β) :=
  if h : IsDirAt t s.place then .error .isDirectory
  else match t.node s.place with
    | none => .error .notFound
    | some _ => .ok (t.set s none h)

def symlinkAt (absolute : Bool) (target : List (Step α)) : Except Errno (Files α β) :=
  match h : t.node s.place with
  | none => .ok (t.set s (some (.link absolute target)) fun hd => by rw [IsDirAt, h] at hd; cases hd)
  | some _ => .error .alreadyExists

end Operations

section World

variable {α β : Type} [DecidableEq α]

/-- Something that was made or removed: its path as it was said, and where it is. -/
structure Change (α : Type) where
  path : List (Step α)
  place : List α
deriving DecidableEq

structure World (α β : Type) where
  files : Files α β
  changes : List (Change α)

abbrev Outcome (α β : Type) := Except Errno Unit × World α β

variable (limit : ℕ)

/-- Of what a path names. -/
def act (path : List (Step α)) (op : ∀ t : Files α β, Spot t → Except Errno (Files α β)) (w : World α β) :
    Outcome α β :=
  match spot w.files limit path with
  | .error e => (.error e,w)
  | .ok s =>
    match op w.files s with
    | .error e => (.error e,w)
    | .ok files => (.ok (),⟨files,w.changes ++ [⟨path,s.place⟩]⟩)

def mkdir (path : List (Step α)) : World α β → Outcome α β := act limit path mkdirAt

def removeFile (path : List (Step α)) : World α β → Outcome α β := act limit path removeAt

def symlink (absolute : Bool) (target path : List (Step α)) : World α β → Outcome α β :=
  act limit path fun t s => symlinkAt t s absolute target

def orIsDir (path : List (Step α)) : Outcome α β → Outcome α β
  | (.error e,w) => if isDir w.files limit path then (.ok (),w) else (.error e,w)
  | (.ok (),w) => (.ok (),w)

/-- The path is given from its end. -/
def createDirAllFrom : List (Step α) → World α β → Outcome α β
  | [], w => (.ok (),w)
  | c::above, w =>
    match mkdir limit (c::above).reverse w with
    | (.error .notFound,w) =>
      match createDirAllFrom above w with
      | (.ok (),w) => orIsDir limit (c::above).reverse (mkdir limit (c::above).reverse w)
      | (.error e,w) => (.error e,w)
    | r => orIsDir limit (c::above).reverse r

def createDirAll (path : List (Step α)) (w : World α β) : Outcome α β :=
  createDirAllFrom limit path.reverse w

end World

section Laws

variable {α β : Type} {t : Files α β} {place : List α} {n : ℕ}

/-- What is above something that is there is a directory. -/
theorem Files.above (t : Files α β) {p q : List α} (h : t.node (p ++ q) ≠ none) (hq : q ≠ []) :
    IsDirAt t p := by
  induction q using List.reverseRecOn with
  | nil => exact absurd rfl hq
  | append_singleton q c ih =>
    rw [← List.append_assoc] at h
    have hdir := t.closed _ _ h
    cases q with
    | nil => rwa [List.append_nil] at hdir
    | cons d q => exact ih (by rw [hdir]; exact Option.some_ne_none _) (List.cons_ne_nil _ _)

theorem Files.isDirAt_of_prefix (t : Files α β) {p q : List α} (h : IsDirAt t q) (hp : p <+: q) :
    IsDirAt t p := by
  obtain ⟨rest,rfl⟩ := hp
  cases rest with
  | nil => rwa [List.append_nil] at h
  | cons c rest => exact t.above (by rw [h]; exact Option.some_ne_none _) (List.cons_ne_nil _ _)

example : follow t 0 place [] = .ok (place,0) := by rw [follow, walk]

theorem walk_append (a b : List (Step α)) : walk t place (a ++ b) = match walk t place a with
    | .ends p => walk t p b
    | .link dir absolute target rest => .link dir absolute target (rest ++ b)
    | .fails e => .fails e := by
  induction a generalizing place with
  | nil => rfl
  | cons c a ih =>
    cases c with
    | here =>
      rw [List.cons_append, walk, walk]
      split
      · exact ih
      · rfl
    | up =>
      rw [List.cons_append, walk, walk]
      split
      · exact ih
      · rfl
    | name c =>
      rw [List.cons_append, walk, walk]
      split
      · cases t.node (place ++ [c]) with
        | none => rfl
        | some v =>
          cases v with
          | dir => exact ih
          | file data => exact ih
          | link absolute target => rfl
      · rfl

/-- A path is followed as its beginning and then the rest. -/
theorem follow_append (a b : List (Step α)) :
    follow t n place (a ++ b) = (follow t n place a).bind fun r => follow t r.2 r.1 b := by
  induction n generalizing place a with
  | zero =>
    rw [follow, follow, walk_append]
    cases walk t place a with
    | ends p => rfl
    | link dir absolute target rest => rfl
    | fails e => rfl
  | succ n ih =>
    rw [follow, follow, walk_append]
    cases walk t place a with
    | ends p => rfl
    | link dir absolute target rest =>
      dsimp only
      rw [← List.append_assoc, ih]
    | fails e => rfl

theorem follow_of_ends {path : List (Step α)} {p : List α} (h : walk t place path = .ends p) :
    follow t n place path = .ok (p,n) := by
  cases n with
  | zero => rw [follow, h]
  | succ n => rw [follow, h]

theorem follow_of_fails {path : List (Step α)} {e : Errno} (h : walk t place path = .fails e) :
    follow t n place path = .error e := by
  cases n with
  | zero => rw [follow, h]
  | succ n => rw [follow, h]

/-- The path of a place, name by name. -/
def plain (place : List α) : List (Step α) := place.map .name

@[simp] theorem plain_append (a b : List α) : plain (a ++ b) = plain a ++ plain b := List.map_append

@[simp] theorem plain_singleton (c : α) : plain [c] = [.name c] := rfl

/-- Directories without links in between are walked to where they are. -/
theorem walk_plain (place : List α) {names : List α} (h : IsDirAt t (place ++ names)) :
    walk t place (plain names) = .ends (place ++ names) := by
  induction names generalizing place with
  | nil => rw [List.append_nil]; rfl
  | cons c names ih =>
    have hsplit : place ++ c::names = (place ++ [c]) ++ names := by rw [List.append_assoc]; rfl
    have hnext : t.node (place ++ [c]) = some .dir := t.isDirAt_of_prefix h (hsplit ▸ List.prefix_append _ _)
    have hplace : IsDirAt t place := t.isDirAt_of_prefix h (List.prefix_append _ _)
    rw [hsplit] at h ⊢
    rw [plain, List.map_cons, walk, if_pos hplace, hnext]
    exact ih _ h

theorem follow_plain {names : List α} (h : IsDirAt t names) : follow t n [] (plain names) = .ok (names,n) :=
  follow_of_ends (walk_plain [] h)

theorem isDir_plain {names : List α} (h : IsDirAt t names) : isDir t n (plain names) = true := by
  rw [isDir, follow_plain h]
  exact decide_eq_true h

/-- Of directories and nothing else, up to where something is missing. -/
theorem walk_missing (place rest : List α) {names : List α} (hgap : t.node (place ++ names) = none)
    (hdirs : ∀ p, p <+: names → IsDirAt t (place ++ p) ∨ t.node (place ++ p) = none) (hplace : IsDirAt t place) :
    walk t place (plain (names ++ rest)) = .fails .notFound := by
  induction names generalizing place with
  | nil =>
    rw [List.append_nil] at hgap
    rw [IsDirAt, hgap] at hplace
    cases hplace
  | cons c names ih =>
    have hsplit : ∀ p : List α, place ++ c::p = (place ++ [c]) ++ p := fun p => by rw [List.append_assoc]; rfl
    rw [List.cons_append, plain, List.map_cons, walk, if_pos hplace]
    rcases hdirs [c] ⟨names,rfl⟩ with hdir | hnone
    · rw [show t.node (place ++ [c]) = some .dir from hdir]
      refine ih _ (hsplit names ▸ hgap) (fun p hp => ?_) hdir
      rw [← hsplit]
      exact hdirs _ (List.cons_prefix_cons.mpr ⟨rfl,hp⟩)
    · rw [hnone]

theorem spot_plain {dir : List α} (h : IsDirAt t dir) (c : α) :
    spot t n (plain (dir ++ [c])) = .ok ⟨dir,c,h⟩ := by
  have hlast : (plain (dir ++ [c])).getLast? = some (.name c) := by simp
  have hdrop : (plain (dir ++ [c])).dropLast = plain dir := by simp
  rw [spot, hdrop, hlast, follow_plain h]
  exact dif_pos h

/-- All that was there is there as it was. -/
def Kept (t t' : Files α β) : Prop := ∀ q v, t.node q = some v → t'.node q = some v

theorem walk_kept {t' : Files α β} (h : Kept t t') {path : List (Step α)} :
    (∀ p, walk t place path = .ends p → walk t' place path = .ends p) ∧
    ∀ d absolute target rest, walk t place path = .link d absolute target rest →
      walk t' place path = .link d absolute target rest := by
  induction path generalizing place with
  | nil => exact ⟨fun _ hp => hp,fun _ _ _ _ hp => hp⟩
  | cons c path ih =>
    by_cases hdir : IsDirAt t place
    · have hdir' : IsDirAt t' place := h _ _ hdir
      cases c with
      | here =>
        rw [walk, walk, if_pos hdir, if_pos hdir']
        exact ih
      | up =>
        rw [walk, walk, if_pos hdir, if_pos hdir']
        exact ih
      | name c =>
        rw [walk, walk, if_pos hdir, if_pos hdir']
        cases hnode : t.node (place ++ [c]) with
        | none => exact ⟨nofun,nofun⟩
        | some v =>
          rw [h _ _ hnode]
          cases v with
          | dir => exact ih
          | file data => exact ih
          | link absolute target => exact ⟨fun _ hp => hp,fun _ _ _ _ hp => hp⟩
    · have hfails : walk t place (c::path) = .fails .notDirectory := by
        cases c <;> rw [walk, if_neg hdir]
      rw [hfails]
      exact ⟨nofun,nofun⟩

theorem follow_kept {t' : Files α β} (h : Kept t t') {path : List (Step α)} {r : List α × ℕ}
    (hr : follow t n place path = .ok r) : follow t' n place path = .ok r := by
  induction n generalizing place path with
  | zero =>
    rw [follow] at hr ⊢
    cases hw : walk t place path with
    | ends p =>
      rw [hw] at hr
      rw [(walk_kept h).1 p hw]
      exact hr
    | link dir absolute target rest =>
      rw [hw] at hr
      cases hr
    | fails e =>
      rw [hw] at hr
      cases hr
  | succ n ih =>
    rw [follow] at hr ⊢
    cases hw : walk t place path with
    | ends p =>
      rw [hw] at hr
      rw [(walk_kept h).1 p hw]
      exact hr
    | link dir absolute target rest =>
      rw [hw] at hr
      rw [(walk_kept h).2 dir absolute target rest hw]
      exact ih hr
    | fails e =>
      rw [hw] at hr
      cases hr

end Laws

section Worlds

variable {α β : Type} {limit : ℕ} {w w' w'' : World α β} {P Q : List α → Prop}

/-- Every change is at a place of this kind, and nothing differs anywhere else. -/
def ChangedAt (P : List α → Prop) (w w' : World α β) : Prop :=
  ∃ made, w'.changes = w.changes ++ made ∧ (∀ c ∈ made, P c.place) ∧
    ∀ q, ¬ P q → w'.files.node q = w.files.node q

theorem ChangedAt.refl (P : List α → Prop) (w : World α β) : ChangedAt P w w :=
  ⟨[],(List.append_nil _).symm,fun _ h => (List.not_mem_nil h).elim,fun _ _ => rfl⟩

theorem ChangedAt.trans (h : ChangedAt P w w') (h' : ChangedAt P w' w'') : ChangedAt P w w'' := by
  obtain ⟨made,hmade,hplaces,hkept⟩ := h
  obtain ⟨made',hmade',hplaces',hkept'⟩ := h'
  refine ⟨made ++ made',by rw [hmade', hmade, List.append_assoc],fun c hc => ?_,fun q hq => ?_⟩
  · exact (List.mem_append.mp hc).elim (hplaces c) (hplaces' c)
  · rw [hkept' q hq, hkept q hq]

theorem ChangedAt.mono (h : ChangedAt P w w') (hPQ : ∀ q, P q → Q q) : ChangedAt Q w w' := by
  obtain ⟨made,hmade,hplaces,hkept⟩ := h
  exact ⟨made,hmade,fun c hc => hPQ _ (hplaces c hc),fun q hq => hkept q fun hp => hq (hPQ q hp)⟩

theorem ChangedAt.node {q : List α} (h : ChangedAt P w w') (hq : ¬ P q) :
    w'.files.node q = w.files.node q := h.choose_spec.2.2 q hq

theorem ChangedAt.isDirAt {q : List α} (h : ChangedAt P w w') (hq : ¬ P q) (hdir : IsDirAt w.files q) :
    IsDirAt w'.files q := (h.node hq).trans hdir

variable {dir : List α} {c : α} {op : ∀ t : Files α β, Spot t → Except Errno (Files α β)}

theorem act_fails (h : IsDirAt w.files dir) {e : Errno} (hop : op w.files ⟨dir,c,h⟩ = .error e) :
    act limit (plain (dir ++ [c])) op w = (.error e,w) := by
  rw [act, spot_plain h]
  dsimp only
  rw [hop]

theorem not_isDirAt_of {q : List α} {t : Files α β} {v : Option (Node α β)} (h : t.node q = v)
    (hv : v ≠ some .dir) : ¬ IsDirAt t q := fun hd => hv (h.symm.trans hd)

variable [DecidableEq α]

/-- An operation that puts something else where a name of a real directory stands. -/
theorem act_plain (h : IsDirAt w.files dir) {v : Option (Node α β)} (hnot : ¬ IsDirAt w.files (dir ++ [c]))
    (hop : op w.files ⟨dir,c,h⟩ = .ok (w.files.set ⟨dir,c,h⟩ v hnot)) :
    ∃ w', act limit (plain (dir ++ [c])) op w = (.ok (),w') ∧ ChangedAt (· = dir ++ [c]) w w' ∧
      w'.files.node (dir ++ [c]) = v := by
  refine ⟨⟨w.files.set ⟨dir,c,h⟩ v hnot,w.changes ++ [⟨plain (dir ++ [c]),dir ++ [c]⟩]⟩,?_,⟨_,rfl,?_,?_⟩,?_⟩
  · rw [act, spot_plain h]
    dsimp only
    rw [hop]
    rfl
  · exact fun c hc => by rw [List.mem_singleton.mp hc]
  · exact fun q hq => if_neg hq
  · exact if_pos rfl

theorem mkdir_plain (limit : ℕ) (h : IsDirAt w.files dir) (hnone : w.files.node (dir ++ [c]) = none) :
    ∃ w', mkdir limit (plain (dir ++ [c])) w = (.ok (),w') ∧ ChangedAt (· = dir ++ [c]) w w' ∧
      w'.files.node (dir ++ [c]) = some .dir := by
  refine act_plain h (not_isDirAt_of hnone (by simp)) ?_
  unfold mkdirAt
  split
  · rfl
  · next hsome => exact absurd (hnone.symm.trans hsome) (by simp)

theorem mkdir_there (h : IsDirAt w.files dir) (hsome : w.files.node (dir ++ [c]) ≠ none) :
    mkdir limit (plain (dir ++ [c])) w = (.error .alreadyExists,w) := by
  refine act_fails h ?_
  unfold mkdirAt
  split
  · next hnone => exact absurd hnone hsome
  · rfl

theorem removeFile_plain (limit : ℕ) (h : IsDirAt w.files dir) {absolute : Bool} {target : List (Step α)}
    (hlink : w.files.node (dir ++ [c]) = some (.link absolute target)) :
    ∃ w', removeFile limit (plain (dir ++ [c])) w = (.ok (),w') ∧ ChangedAt (· = dir ++ [c]) w w' ∧
      w'.files.node (dir ++ [c]) = none := by
  have hnot : ¬ IsDirAt w.files (dir ++ [c]) := not_isDirAt_of hlink (by simp)
  refine act_plain h hnot ?_
  unfold removeAt
  split
  · next hdir => exact absurd hdir hnot
  · split
    · next hnone => exact absurd (hlink.symm.trans hnone) (by simp)
    · rfl

theorem symlink_plain (limit : ℕ) (h : IsDirAt w.files dir) (hnone : w.files.node (dir ++ [c]) = none) (absolute : Bool)
    (target : List (Step α)) :
    ∃ w', symlink limit absolute target (plain (dir ++ [c])) w = (.ok (),w') ∧
      ChangedAt (· = dir ++ [c]) w w' ∧ w'.files.node (dir ++ [c]) = some (.link absolute target) := by
  refine act_plain h (not_isDirAt_of hnone (by simp)) ?_
  unfold symlinkAt
  split
  · rfl
  · next hsome => exact absurd (hnone.symm.trans hsome) (by simp)

omit [DecidableEq α] in
theorem readLink_plain {t : Files α β} (h : IsDirAt t dir) (c : α) : readLink t limit (plain (dir ++ [c])) =
    match t.node (dir ++ [c]) with
    | none => .error .notFound
    | some (.link absolute target) => .ok (absolute,target)
    | some _ => .error .invalidInput := by
  rw [readLink, spot_plain h]
  rfl

theorem readDir_plain {t : Files α β} (h : IsDirAt t dir) : readDir t limit (plain dir) = .ok (entries t dir) := by
  rw [readDir, follow_plain h]
  exact if_pos h

/-- Where nothing but directories stands in the way they are made. -/
theorem createDirAll_plain (limit : ℕ) {p : List α} (h : ∀ q, q <+: p → IsDirAt w.files q ∨ w.files.node q = none) :
    ∃ w', createDirAll limit (plain p) w = (.ok (),w') ∧ IsDirAt w'.files p ∧
      ChangedAt (fun q => q <+: p ∧ w.files.node q = none) w w' := by
  induction p using List.reverseRecOn with
  | nil => exact ⟨w,rfl,w.files.top,.refl _ w⟩
  | append_singleton p c ih =>
    have hrev : (plain (p ++ [c])).reverse = .name c::(plain p).reverse := by simp
    have hback : (Step.name c::(plain p).reverse).reverse = plain (p ++ [c]) := by simp
    obtain ⟨w',hw',hdir,hchanged⟩ := ih fun q hq => h q (hq.trans (List.prefix_append _ _))
    rw [createDirAll, hrev, createDirAllFrom, hback]
    rcases h p (List.prefix_append _ _) with hp | hp
    · rcases h (p ++ [c]) List.prefix_rfl with hpc | hpc
      · refine ⟨w,?_,hpc,.refl _ w⟩
        rw [mkdir_there hp (by rw [hpc]; simp)]
        exact if_pos (isDir_plain hpc)
      · obtain ⟨w₁,hmade,hchanged₁,hnode⟩ := mkdir_plain limit hp hpc
        refine ⟨w₁,by rw [hmade]; rfl,hnode,hchanged₁.mono ?_⟩
        rintro q rfl
        exact ⟨List.prefix_rfl,hpc⟩
    · have hgap : follow w.files limit [] (plain p) = .error .notFound := by
        have hmissing := walk_missing [] [] hp
          (fun q hq => h q (hq.trans (List.prefix_append _ _))) w.files.top
        rw [List.append_nil] at hmissing
        exact follow_of_fails hmissing
      have hfails : mkdir limit (plain (p ++ [c])) w = (.error .notFound,w) := by
        have hdrop : (plain (p ++ [c])).dropLast = plain p := by simp
        rw [mkdir, act, spot, hdrop, hgap]
      have hnone : w.files.node (p ++ [c]) = none := by
        rcases h (p ++ [c]) List.prefix_rfl with hpc | hpc
        · exact absurd ((w.files.isDirAt_of_prefix hpc (List.prefix_append _ _)).symm.trans hp) (by simp)
        · exact hpc
      have hnone' : w'.files.node (p ++ [c]) = none := by
        rw [hchanged.node, hnone]
        exact fun hq => absurd hq.1.length_le (by simp)
      obtain ⟨w₁,hmade,hchanged₁,hnode⟩ := mkdir_plain limit hdir hnone'
      refine ⟨w₁,?_,hnode,(hchanged.mono ?_).trans (hchanged₁.mono ?_)⟩
      · rw [hfails]
        dsimp only
        rw [← createDirAll, hw']
        dsimp only
        rw [hmade]
        rfl
      · exact fun q hq => ⟨hq.1.trans (List.prefix_append _ _),hq.2⟩
      · rintro q rfl
        exact ⟨List.prefix_rfl,hnone⟩

end Worlds

end BuildFiji.Links
