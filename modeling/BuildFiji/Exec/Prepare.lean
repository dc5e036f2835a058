import BuildFiji.Graph.Paths

/-!
# Where actions write

Before an action runs, what stands at its outputs is removed and the directories
they are in are made, and those that stand for a tree.
-/

set_option autoImplicit false
set_option linter.all false

namespace BuildFiji.Exec

open BuildFiji.Graph Lexical

inductive Effect where
  | remove (path : Path)
  /-- The directory with all that it is in. -/
  | makeDirs (path : Path)

def ActionKind.isSymlink : ActionKind → Bool
  | .symlink _ => true
  | _ => false

def prepareOutput (kind : ActionKind) (out : Artifact) : List Effect :=
  let path := components out.execPath.toList
  [.remove path,.makeDirs path.dropLast] ++
    if out.tree ∧ ¬ActionKind.isSymlink kind then [.makeDirs path] else []

/-- What a runfiles tree makes is not its own. -/
def prepare (a : Action) : List Effect :=
  match a.kind with
  | .runfilesTree => []
  | kind => a.outputs.flatMap (prepareOutput kind)

def Effect.Within (own : Path) : Effect → Prop
  | .remove path => Inside (Place.origin.walk own) (Place.origin.walk path)
  | .makeDirs path => ∀ s, s <+: path → Beside own (Place.origin.walk s)

structure OutputWithin (own : Path) (out : Artifact) : Prop where
  derived : out.root.source = false
  relative : out.execPath.toList.head? ≠ some '/'
  inside : Inside (Place.origin.walk own) (place out.execPath)

/-- The outputs are inside the directory, and preparing removes and makes nothing
outside but the directories it is in. -/
structure ActionWithin (own : Path) (a : Action) : Prop where
  outputs : ∀ out ∈ a.outputs, OutputWithin own out
  prepared : ∀ e ∈ prepare a, e.Within own

def Kept (own : Path) (out : Artifact) : Prop :=
  out.root.source = false ∧ Keeps own (components out.execPath.toList)

section Action

variable {own : Path} {a : Action} {out : Artifact}

theorem Keeps.effects (h : Keeps own (components out.execPath.toList)) (kind : ActionKind) :
    ∀ e ∈ prepareOutput kind out, e.Within own := by
  intro e he
  rw [prepareOutput] at he
  rcases List.mem_append.mp he with he | he
  · rcases List.mem_cons.mp he with rfl | he
    · exact h.1
    · cases List.mem_singleton.mp he
      exact fun s hs => h.2 s (hs.trans (List.dropLast_prefix _))
  · split at he
    · cases List.mem_singleton.mp he
      exact h.2
    · cases he

theorem keeps_of_effects {kind : ActionKind} (h : ∀ e ∈ prepareOutput kind out, e.Within own) :
    Keeps own (components out.execPath.toList) := by
  have hin : Effect.Within own (.remove (components out.execPath.toList)) := by
    apply h
    simp [prepareOutput]
  have hdirs : Effect.Within own (.makeDirs (components out.execPath.toList).dropLast) := by
    apply h
    simp [prepareOutput]
  refine ⟨hin,fun s hs => ?_⟩
  rcases List.eq_nil_or_concat (components out.execPath.toList) with hnil | ⟨path,last,hpath⟩
  · rw [hnil] at hs
    exact hdirs s (by rw [hnil]; exact hs)
  · rw [hpath, List.concat_eq_append] at hs
    rcases List.prefix_concat_iff.mp hs with rfl | hs
    · rw [← List.concat_eq_append, ← hpath]
      exact .inl hin.1
    · apply hdirs
      rw [hpath, List.concat_eq_append, List.dropLast_concat]
      exact hs

theorem rooted_relative (hroot : Rooted out.root) (hd : out.root.source = false) :
    out.execPath.toList.head? ≠ some '/' := by
  obtain ⟨hne,hhead⟩ := hroot.resolve_left (by rw [hd]; exact Bool.false_ne_true)
  rw [Artifact.execPath, join, if_neg hne]
  split
  · exact hhead
  · rw [String.toList_append, String.toList_append, List.append_assoc, List.head?_append_of_ne_nil]
    · exact hhead
    · exact fun h => hne (String.toList_eq_nil_iff.mp h)

theorem prepare_eq (hkind : a.kind ≠ .runfilesTree) :
    prepare a = a.outputs.flatMap (prepareOutput a.kind) := by
  unfold prepare
  split
  · next h => exact absurd h hkind
  · rfl

theorem actionWithin_iff (hkind : a.kind ≠ .runfilesTree) (hroot : ∀ out ∈ a.outputs, Rooted out.root) :
    ActionWithin own a ↔ ∀ out ∈ a.outputs, Kept own out := by
  constructor
  · intro h out hout
    refine ⟨(h.outputs out hout).derived,?_⟩
    apply @keeps_of_effects _ _ a.kind
    intro e he
    apply h.prepared
    rw [prepare_eq hkind]
    exact List.mem_flatMap.mpr ⟨out,hout,he⟩
  · intro h
    refine ⟨fun out hout => ?_,fun e he => ?_⟩
    · obtain ⟨hd,hk⟩ := h out hout
      exact ⟨hd,rooted_relative (hroot out hout) hd,hk.1⟩
    · rw [prepare_eq hkind] at he
      obtain ⟨out,hout,he⟩ := List.mem_flatMap.mp he
      exact Keeps.effects (h out hout).2 a.kind e he

end Action

end BuildFiji.Exec
