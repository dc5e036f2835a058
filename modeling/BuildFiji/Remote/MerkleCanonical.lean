import BuildFiji.Remote.MerkleTree

/-!
# What the input tree holds

A tree holds the inputs put into it: files and symlinks at their paths, and a
directory wherever a path goes on. An input is refused over a component of its
own, a directory at its path or an input of its kind there, so that which list
is accepted depends on the order in which a path and one below it come, and an
input of the other kind at the same path is never noticed.
-/

set_option autoImplicit false
set_option linter.all false

namespace BuildFiji.Remote

open SortedAssoc

inductive Slot where
  | file
  | symlink
  | dir
deriving DecidableEq

def InputKind.slot : InputKind → Slot
  | .file _ _ => .file
  | .symlink _ => .symlink

/-- One path goes on below the other. -/
def Below (p q : List String) : Prop := p <+: q ∧ p ≠ q

namespace Tree

/-- Something of the kind stands at the path. -/
def has (s : Slot) : List String → Tree → Bool
  | [], _ => false
  | [c], .node files symlinks dirs =>
    match s with
    | .file => (find c files).isSome
    | .symlink => (find c symlinks).isSome
    | .dir => (find c dirs).isSome
  | c::next::rest, .node _ _ dirs =>
    match find c dirs with
    | none => false
    | some sub => has s (next::rest) sub

theorem has_empty (s : Slot) (p : List String) : has s p empty = false := by
  match p with
  | [] => rfl
  | [c] => cases s <;> rfl
  | c::next::rest => rfl

theorem has_getD {s : Slot} {c next : String} {rest : List String} {files : List (String × FileNode)}
    {symlinks : List (String × SymlinkNode)} {dirs : List (String × Tree)} :
    has s (next::rest) ((find c dirs).getD empty) =
      has s (c::next::rest) (.node files symlinks dirs) := by
  rw [has]
  cases find c dirs with
  | none => exact has_empty s _
  | some sub => rfl

theorem addLeaf_ok_iff (head : String) (kind : InputKind) (t : Tree) :
    (∃ t', addLeaf head kind t = .ok t') ↔
      has .dir [head] t = false ∧ has kind.slot [head] t = false := by
  obtain ⟨files,symlinks,dirs⟩ := t
  simp only [addLeaf, has]
  cases find head dirs with
  | some sub => simp
  | none =>
    cases kind with
    | file digest executable => cases find head files <;> simp [InputKind.slot]
    | symlink target => cases find head symlinks <;> simp [InputKind.slot]

/-- When an input is taken. -/
theorem insertAt_ok_iff (kind : InputKind) (p : List String) (t : Tree) :
    (∃ t', insertAt kind p t = .ok t') ↔
      p ≠ [] ∧ (∀ c ∈ p, validComponent c = true) ∧ has .dir p t = false ∧
        has kind.slot p t = false := by
  induction p generalizing t with
  | nil => simp [insertAt]
  | cons head p ih =>
    cases p with
    | nil =>
      rw [insertAt]
      cases hv : validComponent head with
      | false => simp [hv]
      | true => simpa [hv] using addLeaf_ok_iff head kind t
    | cons next rest =>
      obtain ⟨files,symlinks,dirs⟩ := t
      rw [insertAt]
      cases hv : validComponent head with
      | false => simp [hv]
      | true =>
        have hsub := ih ((find head dirs).getD empty)
        rw [@has_getD _ _ _ _ files symlinks, @has_getD _ _ _ _ files symlinks] at hsub
        cases hi : insertAt kind (next::rest) ((find head dirs).getD empty) with
        | error e =>
          rw [hi] at hsub
          simp only [reduceCtorEq, exists_false, false_iff] at hsub
          simpa [hv] using hsub
        | ok sub =>
          rw [hi] at hsub
          have htrue := hsub.mp ⟨sub,rfl⟩
          simpa [hv] using htrue.2

theorem below_cons {c d : String} {p q : List String} :
    Below (c::p) (d::q) ↔ c = d ∧ Below p q := by
  simp only [Below, List.cons_prefix_cons, ne_eq, List.cons.injEq, not_and]
  constructor
  · rintro ⟨⟨rfl,hp⟩,hne⟩
    exact ⟨rfl,hp,hne rfl⟩
  · rintro ⟨rfl,hp,hne⟩
    exact ⟨⟨rfl,hp⟩,fun _ => hne⟩

theorem not_below_nil {p : List String} : ¬Below p [] := by
  rintro ⟨hp,hne⟩
  exact hne (List.prefix_nil.mp hp)

section Leaf
variable {head : String} {files : List (String × FileNode)} {symlinks : List (String × SymlinkNode)}
  {dirs : List (String × Tree)} {t' : Tree}

theorem addLeaf_file {digest : Digest} {executable : Bool}
    (h : addLeaf head (.file digest executable) (.node files symlinks dirs) = .ok t') :
    find head files = none ∧
      t' = .node (put head ⟨head,digest,executable⟩ files) symlinks dirs := by
  simp only [addLeaf] at h
  split at h
  · cases h
  · split at h
    · cases h
    · next hf =>
      cases h
      exact ⟨by simpa using hf,rfl⟩

theorem addLeaf_symlink {target : String}
    (h : addLeaf head (.symlink target) (.node files symlinks dirs) = .ok t') :
    find head symlinks = none ∧ t' = .node files (put head ⟨head,target⟩ symlinks) dirs := by
  simp only [addLeaf] at h
  split at h
  · cases h
  · split at h
    · cases h
    · next hf =>
      cases h
      exact ⟨by simpa using hf,rfl⟩

end Leaf

theorem insertAt_leaf {kind : InputKind} {head : String} {t t' : Tree}
    (h : insertAt kind [head] t = .ok t') : addLeaf head kind t = .ok t' := by
  rw [insertAt] at h
  split at h
  · cases h
  · exact h

theorem insertAt_descend {kind : InputKind} {head next : String} {rest : List String}
    {files : List (String × FileNode)} {symlinks : List (String × SymlinkNode)}
    {dirs : List (String × Tree)} {t' : Tree}
    (h : insertAt kind (head::next::rest) (.node files symlinks dirs) = .ok t') :
    ∃ sub, insertAt kind (next::rest) ((find head dirs).getD empty) = .ok sub ∧
      t' = .node files symlinks (put head sub dirs) := by
  rw [insertAt] at h
  split at h
  · cases h
  · split at h
    · cases h
    · next sub hsub =>
      cases h
      exact ⟨sub,hsub,rfl⟩

theorem isSome_find_put {β : Type} (head : String) (v : β) (l : List (String × β)) (c : String) :
    (find c (put head v l)).isSome = true ↔ (find c l).isSome = true ∨ c = head := by
  by_cases hc : c = head
  · simp [hc, find_put_self]
  · simp [hc, find_put_ne hc]

theorem addLeaf_has {head : String} {kind : InputKind} {t t' : Tree}
    (h : addLeaf head kind t = .ok t') (s : Slot) (q : List String) :
    has s q t' = true ↔ has s q t = true ∨ (q = [head] ∧ s = kind.slot) := by
  obtain ⟨files,symlinks,dirs⟩ := t
  match q with
  | [] => simp [has]
  | [c] =>
    cases kind with
    | file digest executable =>
      obtain ⟨-,rfl⟩ := addLeaf_file h
      cases s <;> simp [has, isSome_find_put, InputKind.slot]
    | symlink target =>
      obtain ⟨-,rfl⟩ := addLeaf_symlink h
      cases s <;> simp [has, isSome_find_put, InputKind.slot]
  | c::next::rest =>
    cases kind with
    | file digest executable =>
      obtain ⟨-,rfl⟩ := addLeaf_file h
      simp [has]
    | symlink target =>
      obtain ⟨-,rfl⟩ := addLeaf_symlink h
      simp [has]

/-- What an input adds: itself, and the directories above it. -/
theorem insertAt_has {kind : InputKind} {p : List String} {t t' : Tree}
    (h : insertAt kind p t = .ok t') (s : Slot) (q : List String) :
    has s q t' = true ↔ has s q t = true ∨ (q = p ∧ s = kind.slot) ∨
      (s = .dir ∧ q ≠ [] ∧ Below q p) := by
  induction p generalizing t t' q with
  | nil => cases h
  | cons head p ih =>
    cases p with
    | nil =>
      rw [addLeaf_has (insertAt_leaf h)]
      have hno : ¬(q ≠ [] ∧ Below q [head]) := by
        rintro ⟨hne,hq⟩
        cases q with
        | nil => exact hne rfl
        | cons c q => exact not_below_nil (below_cons.mp hq).2
      simp [hno]
    | cons next rest =>
      obtain ⟨files,symlinks,dirs⟩ := t
      obtain ⟨sub,hsub,rfl⟩ := insertAt_descend h
      match q with
      | [] => simp [has]
      | [c] =>
        by_cases hc : c = head
        · subst hc
          cases s <;> simp [has, find_put_self, Below]
        · cases s <;> simp [has, find_put_ne hc, below_cons, hc]
      | c::d::q =>
        by_cases hc : c = head
        · subst hc
          have hmore := ih hsub (d::q)
          rw [@has_getD _ _ _ _ files symlinks] at hmore
          have hnew : has s (c::d::q) (.node files symlinks (put c sub dirs)) = has s (d::q) sub := by
            rw [has, find_put_self]
          rw [hnew, hmore]
          simp [below_cons]
        · simp [has, find_put_ne hc, below_cons, hc]

/-- The entries of every directory are sorted by their names. -/
inductive Ordered : Tree → Prop where
  | node {files : List (String × FileNode)} {symlinks : List (String × SymlinkNode)}
      {dirs : List (String × Tree)} (hfiles : Sorted files) (hsymlinks : Sorted symlinks)
      (hdirs : Sorted dirs) (hnamed : ∀ e ∈ files, e.2.name = e.1)
      (hnamed' : ∀ e ∈ symlinks, e.2.name = e.1) (hsub : ∀ e ∈ dirs, Ordered e.2) :
      Ordered (.node files symlinks dirs)

theorem ordered_empty : Ordered empty := .node .nil .nil .nil nofun nofun nofun

theorem Ordered.getD {dirs : List (String × Tree)} (hdirs : Sorted dirs)
    (hsub : ∀ e ∈ dirs, Ordered e.2) (c : String) : Ordered ((find c dirs).getD empty) := by
  cases hf : find c dirs with
  | none => exact ordered_empty
  | some sub => exact hsub _ (hdirs.find_eq.mp hf)

theorem Ordered.addLeaf {head : String} {kind : InputKind} {t t' : Tree} (ht : Ordered t)
    (h : Tree.addLeaf head kind t = .ok t') : Ordered t' := by
  cases ht with
  | node hfiles hsymlinks hdirs hnamed hnamed' hsub =>
    cases kind with
    | file digest executable =>
      obtain ⟨-,rfl⟩ := addLeaf_file h
      refine .node (hfiles.put _ _) hsymlinks hdirs (fun e he => ?_) hnamed' hsub
      rcases mem_put he with rfl | he
      · rfl
      · exact hnamed e he
    | symlink target =>
      obtain ⟨-,rfl⟩ := addLeaf_symlink h
      refine .node hfiles (hsymlinks.put _ _) hdirs hnamed (fun e he => ?_) hsub
      rcases mem_put he with rfl | he
      · rfl
      · exact hnamed' e he

theorem Ordered.insertAt {kind : InputKind} {p : List String} {t t' : Tree} (ht : Ordered t)
    (h : Tree.insertAt kind p t = .ok t') : Ordered t' := by
  induction p generalizing t t' with
  | nil => cases h
  | cons head p ih =>
    cases p with
    | nil => exact ht.addLeaf (insertAt_leaf h)
    | cons next rest =>
      cases ht with
      | node hfiles hsymlinks hdirs hnamed hnamed' hsub =>
        obtain ⟨sub,hin,rfl⟩ := insertAt_descend h
        refine .node hfiles hsymlinks (hdirs.put _ _) hnamed hnamed' fun e he => ?_
        rcases mem_put he with rfl | he
        · exact ih (Ordered.getD hdirs hsub head) hin
        · exact hsub e he

theorem ne_of_find_put {β : Type} {c d : String} {v : β} {l : List (String × β)}
    (h : find c (put d v l) = none) : c ≠ d := by
  rintro rfl
  rw [find_put_self] at h
  cases h

/-- Two leaves that are both taken, in either order. -/
theorem addLeaf_comm {head head' : String} {kind kind' : InputKind} {t t1 t2 t12 t21 : Tree}
    (ht : Ordered t) (h1 : addLeaf head kind t = .ok t1) (h12 : addLeaf head' kind' t1 = .ok t12)
    (h2 : addLeaf head' kind' t = .ok t2) (h21 : addLeaf head kind t2 = .ok t21) : t12 = t21 := by
  cases ht with
  | node hfiles hsymlinks hdirs hnamed hnamed' hsub =>
    cases kind with
    | file digest executable =>
      obtain ⟨-,rfl⟩ := addLeaf_file h1
      cases kind' with
      | file digest' executable' =>
        obtain ⟨-,rfl⟩ := addLeaf_file h2
        obtain ⟨hf,rfl⟩ := addLeaf_file h12
        obtain ⟨-,rfl⟩ := addLeaf_file h21
        rw [put_comm hfiles (ne_of_find_put hf)]
      | symlink target' =>
        obtain ⟨-,rfl⟩ := addLeaf_symlink h2
        obtain ⟨-,rfl⟩ := addLeaf_symlink h12
        obtain ⟨-,rfl⟩ := addLeaf_file h21
        rfl
    | symlink target =>
      obtain ⟨-,rfl⟩ := addLeaf_symlink h1
      cases kind' with
      | file digest' executable' =>
        obtain ⟨-,rfl⟩ := addLeaf_file h2
        obtain ⟨-,rfl⟩ := addLeaf_file h12
        obtain ⟨-,rfl⟩ := addLeaf_symlink h21
        rfl
      | symlink target' =>
        obtain ⟨-,rfl⟩ := addLeaf_symlink h2
        obtain ⟨hf,rfl⟩ := addLeaf_symlink h12
        obtain ⟨-,rfl⟩ := addLeaf_symlink h21
        rw [put_comm hsymlinks (ne_of_find_put hf)]

/-- A leaf and a path that goes on touch different parts of a directory. -/
theorem addLeaf_descend_comm {head head' next : String} {rest : List String} {kind kind' : InputKind}
    {t t1 t2 t12 t21 : Tree} (h1 : addLeaf head kind t = .ok t1)
    (h12 : insertAt kind' (head'::next::rest) t1 = .ok t12)
    (h2 : insertAt kind' (head'::next::rest) t = .ok t2) (h21 : addLeaf head kind t2 = .ok t21) :
    t12 = t21 := by
  obtain ⟨files,symlinks,dirs⟩ := t
  obtain ⟨sub,hsub,rfl⟩ := insertAt_descend h2
  cases kind with
  | file digest executable =>
    obtain ⟨-,rfl⟩ := addLeaf_file h1
    obtain ⟨-,rfl⟩ := addLeaf_file h21
    obtain ⟨sub',hsub',rfl⟩ := insertAt_descend h12
    cases hsub.symm.trans hsub'
    rfl
  | symlink target =>
    obtain ⟨-,rfl⟩ := addLeaf_symlink h1
    obtain ⟨-,rfl⟩ := addLeaf_symlink h21
    obtain ⟨sub',hsub',rfl⟩ := insertAt_descend h12
    cases hsub.symm.trans hsub'
    rfl

/-- Inputs that are both taken, in either order. -/
theorem insertAt_comm {kind kind' : InputKind} {p q : List String} {t t1 t2 t12 t21 : Tree}
    (ht : Ordered t) (h1 : insertAt kind p t = .ok t1) (h12 : insertAt kind' q t1 = .ok t12)
    (h2 : insertAt kind' q t = .ok t2) (h21 : insertAt kind p t2 = .ok t21) : t12 = t21 := by
  induction p generalizing q t t1 t2 t12 t21 with
  | nil => cases h1
  | cons head p ih =>
    match p, q with
    | _, [] => cases h2
    | [], [head'] =>
      exact addLeaf_comm ht (insertAt_leaf h1) (insertAt_leaf h12) (insertAt_leaf h2)
        (insertAt_leaf h21)
    | [], head'::next'::rest' => exact addLeaf_descend_comm (insertAt_leaf h1) h12 h2 (insertAt_leaf h21)
    | next::rest, [head'] =>
      exact (addLeaf_descend_comm (insertAt_leaf h2) h21 h1 (insertAt_leaf h12)).symm
    | next::rest, head'::next'::rest' =>
      cases ht with
      | node hfiles hsymlinks hdirs hnamed hnamed' hsub =>
        obtain ⟨sub1,hsub1,rfl⟩ := insertAt_descend h1
        obtain ⟨sub2,hsub2,rfl⟩ := insertAt_descend h2
        obtain ⟨sub12,hsub12,rfl⟩ := insertAt_descend h12
        obtain ⟨sub21,hsub21,rfl⟩ := insertAt_descend h21
        by_cases hne : head = head'
        · subst hne
          rw [find_put_self] at hsub12 hsub21
          rw [ih (Ordered.getD hdirs hsub head) hsub1 hsub12 hsub2 hsub21, put_put hdirs,
            put_put hdirs]
        · rw [find_put_ne (Ne.symm hne)] at hsub12
          rw [find_put_ne hne] at hsub21
          cases hsub1.symm.trans hsub21
          cases hsub2.symm.trans hsub12
          rw [put_comm hdirs (Ne.symm hne)]

end Tree

section Inputs

/-- A path whose components are all valid. -/
def ValidPath (path : String) : Prop := ∀ c ∈ components path, validComponent c = true

/-- The second input is refused once the first is in the tree. -/
def Clash (x y : Input) : Prop :=
  Below (components y.path) (components x.path) ∨
    components y.path = components x.path ∧ y.kind.slot = x.kind.slot

/-- The tree holds the inputs, and the directories above them. -/
def Holds (t : Tree) (xs : List Input) : Prop :=
  ∀ s p, Tree.has s p t = true ↔ ∃ x ∈ xs, (p = components x.path ∧ s = x.kind.slot) ∨
    (s = .dir ∧ p ≠ [] ∧ Below p (components x.path))

theorem components_ne_nil (path : String) : components path ≠ [] := by
  simp [components]

theorem slot_ne_dir (kind : InputKind) : kind.slot ≠ .dir := by
  cases kind <;> simp [InputKind.slot]

theorem holds_empty : Holds Tree.empty [] := by
  intro s p
  simp [Tree.has_empty]

theorem Holds.clash {t : Tree} {xs : List Input} (h : Holds t xs) (y : Input) :
    (Tree.has .dir (components y.path) t = false ∧ Tree.has y.kind.slot (components y.path) t = false)
      ↔ ∀ x ∈ xs, ¬Clash x y := by
  rw [← Bool.not_eq_true, ← Bool.not_eq_true, h, h]
  simp only [Clash, not_exists, not_and, not_or]
  constructor
  · rintro ⟨hdir,hslot⟩ x hx
    refine ⟨(hdir x hx).2 trivial (components_ne_nil _),fun hp hs => (hslot x hx).1 hp hs⟩
  · intro hno
    refine ⟨fun x hx => ⟨fun _ hs => slot_ne_dir _ hs.symm,fun _ _ => (hno x hx).1⟩,
      fun x hx => ⟨(hno x hx).2,fun hs => absurd hs (slot_ne_dir _)⟩⟩

theorem Holds.insert {t t' : Tree} {xs : List Input} (h : Holds t xs) {y : Input}
    (hy : t.insert y = .ok t') : Holds t' (xs ++ [y]) := by
  intro s p
  rw [Tree.insertAt_has hy, h]
  simp only [List.mem_append, List.mem_singleton, or_and_right, exists_or, exists_eq_left]

theorem Holds.insert_ok_iff {t : Tree} {xs : List Input} (h : Holds t xs) (y : Input) :
    (∃ t', t.insert y = .ok t') ↔ ValidPath y.path ∧ ∀ x ∈ xs, ¬Clash x y := by
  unfold Tree.insert
  rw [Tree.insertAt_ok_iff, h.clash]
  simp [components_ne_nil, ValidPath]

theorem Holds.foldlM {xs : List Input} {t t' : Tree} {done : List Input} (h : Holds t done)
    (hf : xs.foldlM Tree.insert t = .ok t') : Holds t' (done ++ xs) := by
  induction xs generalizing t done with
  | nil =>
    rw [List.foldlM_nil, Fallible.pure_ok] at hf
    rw [List.append_nil, ← hf]
    exact h
  | cons x xs ih =>
    rw [List.foldlM_cons, Fallible.bind_ok] at hf
    obtain ⟨u,hu,hf⟩ := hf
    have := ih (h.insert hu) hf
    rwa [List.append_assoc] at this

/-- Which lists are accepted, after some inputs. -/
theorem Holds.foldlM_ok_iff (xs : List Input) {t : Tree} {done : List Input} (h : Holds t done) :
    (∃ t', xs.foldlM Tree.insert t = .ok t') ↔
      (∀ x ∈ xs, ValidPath x.path) ∧ (∀ x ∈ done, ∀ y ∈ xs, ¬Clash x y) ∧
        xs.Pairwise fun x y => ¬Clash x y := by
  induction xs generalizing t done with
  | nil => simp [pure, Except.pure]
  | cons y xs ih =>
    have hy := h.insert_ok_iff y
    simp only [List.foldlM_cons, Fallible.bind_ok, List.forall_mem_cons, List.pairwise_cons]
    constructor
    · rintro ⟨t',u,hu,hf⟩
      obtain ⟨hv,hno⟩ := hy.mp ⟨u,hu⟩
      obtain ⟨hvs,hnos,hpair⟩ := (ih (h.insert hu)).mp ⟨t',hf⟩
      exact ⟨⟨hv,hvs⟩,fun x hx => ⟨hno x hx,hnos x (List.mem_append_left _ hx)⟩,
        hnos y (by simp),hpair⟩
    · rintro ⟨⟨hv,hvs⟩,hno,hhead,hpair⟩
      obtain ⟨u,hu⟩ := hy.mpr ⟨hv,fun x hx => (hno x hx).1⟩
      obtain ⟨t',hf⟩ := (ih (h.insert hu)).mpr ⟨hvs,fun x hx => by
        rcases List.mem_append.mp hx with hx | hx
        · exact (hno x hx).2
        · rw [List.mem_singleton.mp hx]
          exact hhead,hpair⟩
      exact ⟨t',u,hu,hf⟩

theorem foldlM_ordered {xs : List Input} {t t' : Tree} (h : t.Ordered)
    (hf : xs.foldlM Tree.insert t = .ok t') : t'.Ordered := by
  induction xs generalizing t with
  | nil =>
    rw [List.foldlM_nil, Fallible.pure_ok] at hf
    exact hf ▸ h
  | cons x xs ih =>
    rw [List.foldlM_cons, Fallible.bind_ok] at hf
    obtain ⟨u,hu,hf⟩ := hf
    exact ih (Tree.Ordered.insertAt h hu) hf

end Inputs

end BuildFiji.Remote
