import BuildFiji.Exec.Prepare
import BuildFiji.Starlark.Actions
import Mathlib

/-!
# What the files of a rule are named

Folding a name does not change where it leads. A parameter file stands next to
the first output, so it is where that is. So the names that files are declared
by decide where the actions of a rule write.
-/

set_option autoImplicit false
set_option linter.all false

namespace BuildFiji.Starlark.Actions

open BuildFiji.Graph BuildFiji.Exec Lexical

section Normalized

def dots : List Char := ['.','.']

/-- The parts of a folded path are the way to its place. -/
structure Folded (parts : List (List Char)) (p : Place (List Char)) : Prop where
  parts : parts = List.replicate p.above dots ++ p.names
  names : ∀ name ∈ p.names, component name = some (.down name) ∧ '/' ∉ name

theorem component_cases (part : List Char) :
    (component part = none ∧ (part = [] ∨ part = ['.'])) ∨
    (component part = some .up ∧ part = dots) ∨
    (component part = some (.down part) ∧ part ≠ [] ∧ part ≠ ['.'] ∧ part ≠ dots) := by
  unfold component
  split
  · exact .inl ⟨rfl,.inl rfl⟩
  · exact .inl ⟨rfl,.inr rfl⟩
  · exact .inr (.inl ⟨rfl,rfl⟩)
  · next h1 h2 h3 => exact .inr (.inr ⟨rfl,h1,h2,h3⟩)

theorem component_dots : component dots = some .up := by rfl

theorem ne_dots_of_down {name : List Char} (h : component name = some (.down name)) : name ≠ dots := by
  rintro rfl
  rw [component_dots] at h
  cases h

theorem Folded.down {parts : List (List Char)} {p : Place (List Char)} (h : Folded parts p)
    {part : List Char} (hc : component part = some (.down part)) (hs : '/' ∉ part) :
    Folded (parts ++ [part]) (p.go (.down part)) := by
  constructor
  · rw [h.parts, List.append_assoc]
    rfl
  · intro name hname
    rcases List.mem_append.mp hname with hname | hname
    · exact h.names name hname
    · cases List.mem_singleton.mp hname
      exact ⟨hc,hs⟩

theorem Folded.up {parts : List (List Char)} {p : Place (List Char)} (h : Folded parts p) :
    Folded (foldPart parts dots) (p.go .up) := by
  obtain ⟨n,names⟩ := p
  have hparts := h.parts
  have hd : ¬(dots = [] ∨ dots = ['.']) := by decide
  rw [foldPart, if_neg hd]
  rcases List.eq_nil_or_concat names with rfl | ⟨names,name,rfl⟩
  · have hlast : ¬(dots = ['.','.'] ∧ parts.getLast? ≠ none ∧ parts.getLast? ≠ some ['.','.']) := by
      rintro ⟨-,hsome,hne⟩
      simp only [List.append_nil] at hparts
      cases n with
      | zero => exact hsome (by rw [hparts]; rfl)
      | succ n =>
        rw [hparts, List.replicate_succ', List.getLast?_concat] at hne
        exact hne rfl
    rw [if_neg hlast, Place.go_up_top]
    refine ⟨?_,nofun⟩
    simp only [List.append_nil] at hparts ⊢
    rw [hparts, List.replicate_succ']
  · rw [List.concat_eq_append] at h hparts ⊢
    have hname := h.names name (List.mem_append_right _ List.mem_cons_self)
    simp only at hparts
    rw [← List.append_assoc] at hparts
    have hlast : dots = ['.','.'] ∧ parts.getLast? ≠ none ∧ parts.getLast? ≠ some ['.','.'] := by
      rw [hparts, List.getLast?_concat]
      refine ⟨rfl,nofun,?_⟩
      intro he
      exact ne_dots_of_down hname.1 (Option.some.inj he)
    rw [if_pos hlast, Place.go_up, hparts, List.dropLast_concat]
    exact ⟨rfl,fun other ho => h.names other (List.mem_append_left _ ho)⟩

theorem foldPart_down {parts : List (List Char)} {part : List Char}
    (h : part ≠ [] ∧ part ≠ ['.'] ∧ part ≠ dots) : foldPart parts part = parts ++ [part] := by
  rw [foldPart, if_neg, if_neg]
  · exact fun hd => h.2.2 hd.1
  · exact fun hd => hd.elim h.1 h.2.1

theorem Folded.fold {rest parts : List (List Char)} {p : Place (List Char)} (h : Folded parts p)
    (hrest : ∀ part ∈ rest, '/' ∉ part) :
    Folded (rest.foldl foldPart parts) (p.walk (rest.filterMap component)) := by
  induction rest generalizing parts p with
  | nil => exact h
  | cons part rest ih =>
    have htail := fun q hq => hrest q (List.mem_cons_of_mem _ hq)
    rw [List.foldl_cons]
    rcases component_cases part with ⟨hc,hp⟩ | ⟨hc,rfl⟩ | ⟨hc,hp⟩
    · rw [List.filterMap_cons_none hc, foldPart, if_pos hp]
      exact ih h htail
    · rw [List.filterMap_cons_some hc, Place.walk_cons]
      exact ih h.up htail
    · rw [List.filterMap_cons_some hc, Place.walk_cons, foldPart_down hp]
      exact ih (h.down hc (hrest part List.mem_cons_self)) htail

theorem Folded.components {parts : List (List Char)} {p : Place (List Char)} (h : Folded parts p) :
    Graph.components (['/'].intercalate parts) = p.path := by
  have hmap : parts.filterMap component = p.path := by
    rw [h.parts, List.filterMap_append, List.filterMap_replicate, component_dots, Place.path]
    congr 1
    rw [List.filterMap_congr fun name hname => (h.names name hname).1]
    exact congrFun List.filterMap_eq_map p.names
  by_cases hne : parts = []
  · rw [← hmap, hne]
    rfl
  · rw [Graph.components, splitOn_intercalate hne, hmap]
    intro part hpart
    rw [h.parts] at hpart
    rcases List.mem_append.mp hpart with hpart | hpart
    · rw [List.eq_of_mem_replicate hpart]
      decide
    · exact (h.names part hpart).2

theorem components_normalized (path : String) :
    components (normalized path).toList = (Place.origin.walk (components path.toList)).path := by
  have h : Folded [] (Place.origin : Place (List Char)) := ⟨rfl,nofun⟩
  have hfold := @Folded.fold (splitOn '/' path.toList) [] Place.origin h fun _ => not_mem_splitOn
  rw [normalized, String.toList_ofList]
  exact hfold.components

end Normalized

section Stays

namespace Held

variable (ctx : CtxState)

/-- The first file of the chain of siblings is one that an action makes. -/
def isDerived : Held → Prop
  | .given file _ => file.root.source = false
  | .output _ => True
  | .declared .. => True
  | .nextTo _ _ sibling => isDerived sibling

/-- The directory of the package of the rule. -/
def ownDir : Path := packageDir ctx.binDir ctx.label.repo ctx.label.package

/-- Where a name that is declared next to the file starts. -/
def siblingDir (file : Artifact) : Path :=
  components file.root.rootPrefix.toList ++ parents file.path.toList

/-- The name leads into the directory: a folded one from there, any other without
being elsewhere on the way. -/
def Stays : Held → Prop
  | .given file _ => file.root.source = false ∧ Keeps (ownDir ctx) (components file.execPath.toList)
  | .output name => Keeps (ownDir ctx) (ownDir ctx ++ components name.toList)
  | .declared .directory name => Keeps (ownDir ctx) (ownDir ctx ++ components name.toList)
  | .declared _ name =>
    Inside (Place.origin.walk (ownDir ctx)) ((Place.origin.walk (ownDir ctx)).walk (components name.toList))
  | .nextTo _ name sibling => isDerived sibling ∧
    Keeps (ownDir ctx) (siblingDir (sibling.artifact ctx) ++ components name.toList)

variable {ctx}

theorem mark_execPath (function : Declare) (a : Artifact) : (function.mark a).execPath = a.execPath := rfl

theorem components_nextTo (sibling : Artifact) (name : String) :
    components (derivedNextTo sibling name).execPath.toList =
      siblingDir sibling ++ components name.toList := by
  rw [Artifact.components_execPath, siblingDir, List.append_assoc]
  apply congrArg (components sibling.root.rootPrefix.toList ++ ·)
  show components (String.ofList (Graph.nextTo _ _)).toList = _
  rw [String.toList_ofList, Graph.components_nextTo]

theorem components_execPath (file : Artifact) : components file.execPath.toList =
    siblingDir file ++ (component (lastPart file.path.toList)).toList := by
  rw [Artifact.components_execPath, siblingDir, List.append_assoc, ← components_eq]

theorem source_iff (f : Held) : (f.artifact ctx).root.source = false ↔ isDerived f := by
  induction f with
  | given file rooted => exact Iff.rfl
  | output name => exact iff_of_true rfl trivial
  | declared function name => exact iff_of_true rfl trivial
  | nextTo function name sibling ih => exact ih

theorem binDir_rooted : Rooted (Root.derived ctx.binDir) := by
  have h : (Root.derived ctx.binDir).rootPrefix.toList.head? = some 'b' := by
    show (("bazel-out/" ++ ctx.mnemonic) ++ "/bin").toList.head? = _
    rw [String.toList_append, String.toList_append]
    rfl
  refine .inr ⟨?_,?_⟩
  · intro hnil
    rw [hnil] at h
    cases h
  · rw [h]
    decide

theorem rooted (f : Held) : Rooted (f.artifact ctx).root := by
  induction f with
  | given file rooted => exact rooted
  | output name => exact binDir_rooted
  | declared function name => exact binDir_rooted
  | nextTo function name sibling ih => exact ih

theorem kept_iff (f : Held) : Kept (ownDir ctx) (f.artifact ctx) ↔ f.Stays ctx := by
  rw [Kept, source_iff]
  cases f with
  | given file rooted => exact Iff.rfl
  | output name =>
    rw [isDerived, true_and, artifact, CtxState.derived, Artifact.components_derived]
    exact Iff.rfl
  | declared function name =>
    rw [isDerived, true_and, artifact, mark_execPath, CtxState.derived, Artifact.components_derived]
    cases function with
    | directory => exact Iff.rfl
    | file =>
      rw [show Declare.file.name name = normalized name from rfl, components_normalized]
      exact keeps_folded
    | symlink =>
      rw [show Declare.symlink.name name = normalized name from rfl, components_normalized]
      exact keeps_folded
  | nextTo function name sibling =>
    rw [artifact, mark_execPath, components_nextTo]
    exact Iff.rfl

end Held

end Stays

section ParamFile

variable {ctx : CtxState} {first : Held}

theorem paramFile_name (path : List Char) (n : ℕ) :
    components (lastPart path ++ '-'::(Nat.toDigits 10 n ++ ".params".toList)) =
      [.down (lastPart path ++ '-'::(Nat.toDigits 10 n ++ ".params".toList))] := by
  rw [components_name, component_long]
  · rfl
  · simp only [List.length_append, List.length_cons]
    have h : ".params".toList.length = 7 := by decide
    omega
  · intro h
    rcases List.mem_append.mp h with h | h
    · exact not_mem_lastPart path h
    · rcases List.mem_cons.mp h with h | h
      · exact absurd h (by decide)
      · rcases List.mem_append.mp h with h | h
        · exact absurd (Nat.isDigit_of_mem_toDigits (by decide) (by decide) h) (by decide)
        · exact absurd h (by decide)

/-- A parameter file is where the first output is. -/
theorem kept_paramFile (h : Kept (Held.ownDir ctx) (first.artifact ctx)) (n : ℕ) :
    Kept (Held.ownDir ctx) (paramFile (first.artifact ctx) n) := by
  refine ⟨h.1,?_⟩
  have hk := h.2
  rw [Held.components_execPath] at hk
  rw [paramFile, Held.components_nextTo, String.toList_ofList, paramFile_name]
  cases hc : component (lastPart (first.artifact ctx).path.toList) with
  | none =>
    rw [hc, Option.toList_none, List.append_nil] at hk
    exact hk.down _
  | some x =>
    rw [hc, Option.toList_some] at hk
    exact hk.sibling _

/-- What an argument writes is a parameter file next to the first output. -/
def Beside (first : Artifact) (a : Action) : Prop :=
  a.kind ≠ .runfilesTree ∧ ∃ n, a.outputs = [paramFile first n]

theorem fileKind_ne (a : ArgsState) (format : ParamFormat) (isExecutable : Bool) :
    a.fileKind format isExecutable ≠ .runfilesTree := by
  rw [ArgsState.fileKind]
  split <;> nofun

theorem add_beside {first : Artifact} {tooLong : Bool} {s : Spawning} (argument : Argument)
    (h : ∀ a ∈ s.actions, Beside first a) : ∀ a ∈ (s.add first tooLong argument).actions, Beside first a := by
  cases argument with
  | text word => exact h
  | file file => exact h
  | args args =>
    rw [Spawning.add]
    split
    · split
      · intro a ha
        rcases List.mem_append.mp ha with ha | ha
        · exact h a ha
        · cases List.mem_singleton.mp ha
          exact ⟨fileKind_ne _ _ _,_,rfl⟩
      · exact h
    · exact h

theorem made_beside (c : Spawn) (first : Artifact) : ∀ a ∈ (c.made first).actions, Beside first a := by
  rw [Spawn.made]
  generalize hs : (⟨[],[],0,c.inputs ++ c.tools,[]⟩ : Spawning) = s
  have h : ∀ a ∈ s.actions, Beside first a := by
    rw [← hs]
    nofun
  clear hs
  induction c.arguments generalizing s with
  | nil => exact h
  | cons argument rest ih => exact ih _ (add_beside argument h)

end ParamFile

section Calls

def Call.outputs : Call → List Held
  | .declare .. => []
  | .write output .. => [output]
  | .run c => c.outputs
  | .symlink output .. => [output]
  | .expandTemplate _ output .. => [output]

variable {ctx : CtxState}

/-- The actions of a call stay inside just when the files that it was passed as
outputs do. -/
structure Registers (ctx : CtxState) (files : List Held) (new : List Action) : Prop where
  stays : (∀ a ∈ new, ActionWithin (Held.ownDir ctx) a) ↔ ∀ f ∈ files, f.Stays ctx

theorem actionWithin_held {a : Action} {files : List Held} (hkind : a.kind ≠ .runfilesTree)
    (hout : a.outputs = files.map (Held.artifact ctx)) :
    ActionWithin (Held.ownDir ctx) a ↔ ∀ f ∈ files, f.Stays ctx := by
  rw [actionWithin_iff hkind]
  · rw [hout]
    simp only [List.forall_mem_map, Held.kept_iff]
  · rw [hout]
    simp only [List.forall_mem_map]
    exact fun f _ => Held.rooted f

theorem registers_one {a : Action} {output : Held} (hkind : a.kind ≠ .runfilesTree)
    (hout : a.outputs = [output.artifact ctx]) : Registers ctx [output] [a] := by
  constructor
  rw [List.forall_mem_singleton]
  exact actionWithin_held hkind hout

theorem registers_spawn {c : Spawn} {first : Held} {rest : List Held} (hc : c.outputs = first::rest) :
    Registers ctx c.outputs ((c.made (first.artifact ctx)).actions ++
      [c.action ctx (c.made (first.artifact ctx))]) := by
  have hown : ActionWithin (Held.ownDir ctx) (c.action ctx (c.made (first.artifact ctx))) ↔
      ∀ f ∈ c.outputs, f.Stays ctx := actionWithin_held (by simp [Spawn.action]) rfl
  constructor
  rw [List.forall_mem_append, List.forall_mem_singleton, hown, and_iff_right_iff_imp]
  intro h a ha
  obtain ⟨hkind,n,hn⟩ := made_beside c _ a ha
  rw [actionWithin_iff hkind]
  · rw [hn]
    intro out hout
    cases List.mem_singleton.mp hout
    apply kept_paramFile
    exact (Held.kept_iff first).mpr (h first (hc ▸ List.mem_cons_self))
  · rw [hn]
    intro out hout
    cases List.mem_singleton.mp hout
    exact Held.rooted first

theorem call_registers {s s' : Analysis} {c : Call} (h : s.call ctx c = .ok s') :
    ∃ new, s'.actions = s.actions ++ new ∧ Registers ctx c.outputs new := by
  cases c with
  | declare function filename sibling =>
    refine ⟨[],?_,⟨iff_of_true (by simp) (by simp [Call.outputs])⟩⟩
    rw [Analysis.call] at h
    unfold Analysis.declare at h
    rw [List.append_nil]
    split at h
    · cases h
      rfl
    · split at h
      · cases h
      · cases h
        rfl
  | write output content isExecutable mnemonic =>
    cases h
    refine ⟨_,rfl,registers_one ?_ rfl⟩
    cases content with
    | text content => simp [Content.kind]
    | args args => exact fileKind_ne _ _ _
  | run c =>
    rw [Analysis.call, spawn] at h
    split at h
    · cases h
    · split at h
      · cases h
      · next first rest hc =>
        cases h
        exact ⟨_,rfl,registers_spawn hc⟩
  | symlink output targetFile targetPath isExecutable =>
    cases targetFile with
    | none =>
      cases targetPath with
      | none => cases h
      | some path =>
        cases h
        exact ⟨_,rfl,registers_one (by simp) rfl⟩
    | some target =>
      cases targetPath with
      | some path => cases h
      | none =>
        cases h
        exact ⟨_,rfl,registers_one (by simp) rfl⟩
  | expandTemplate template output substitutions computed isExecutable =>
    cases h
    exact ⟨_,rfl,registers_one (by simp) rfl⟩

theorem calls_registers {calls : List Call} {s s' : Analysis}
    (h : calls.foldlM (Analysis.call ctx) s = .ok s') :
    ∃ new, s'.actions = s.actions ++ new ∧ Registers ctx (calls.flatMap Call.outputs) new := by
  induction calls generalizing s with
  | nil =>
    cases h
    exact ⟨[],(List.append_nil _).symm,⟨iff_of_true nofun nofun⟩⟩
  | cons c calls ih =>
    rw [List.foldlM_cons, Fallible.bind_ok] at h
    obtain ⟨t,hc,hrest⟩ := h
    obtain ⟨new,hnew,hn⟩ := call_registers hc
    obtain ⟨more,hmore,hm⟩ := ih hrest
    refine ⟨new ++ more,?_,⟨?_⟩⟩
    · rw [hmore, hnew, List.append_assoc]
    · rw [List.flatMap_cons, List.forall_mem_append, List.forall_mem_append, hn.stays, hm.stays]

theorem execute_ok {outputs : List String} {calls : List Call} {actions : List Action}
    (h : execute ctx outputs calls = .ok actions) :
    ∃ s, calls.foldlM (Analysis.call ctx) ⟨outputs.map fun name => (ctx.derived name).execPath,[]⟩ = .ok s ∧
      ∀ a, a ∈ actions ↔ a ∈ s.actions := by
  rw [execute, Fallible.bind_ok] at h
  obtain ⟨s,hs,h⟩ := h
  refine ⟨s,hs,?_⟩
  simp only at h
  split at h
  · rw [Fallible.pure_ok] at h
    intro a
    rw [← h, distinctActions, FirstOccurrence.mem_addAll]
    simp
  · cases h

/-- Of the rule whose code makes these calls, once it has succeeded. -/
theorem writes_within_iff {outputs : List String} {calls : List Call} {actions : List Action}
    (h : execute ctx outputs calls = .ok actions) :
    (∀ a ∈ actions, ActionWithin (Held.ownDir ctx) a) ↔
      ∀ c ∈ calls, ∀ f ∈ c.outputs, f.Stays ctx := by
  obtain ⟨s,hs,hmem⟩ := execute_ok h
  obtain ⟨new,hnew,hr⟩ := calls_registers hs
  have hactions : ∀ a, a ∈ actions ↔ a ∈ new := by
    intro a
    rw [hmem, hnew, List.nil_append]
  simp only [hactions]
  rw [hr.stays]
  constructor
  · exact fun hall c hc f hf => hall f (List.mem_flatMap.mpr ⟨c,hc,hf⟩)
  · intro hall f hf
    obtain ⟨c,hc,hf⟩ := List.mem_flatMap.mp hf
    exact hall c hc f hf

/-- The rule `//pkg:x`. -/
def packageCtx : CtxState := ⟨⟨"","pkg","x"⟩,"k8-fastbuild",some [],.empty,fun _ => none⟩

def declareAndWrite (filename : String) : List Call :=
  [.declare .file filename none,.write (.declared .file filename) (.text "") false none]

theorem declareAndWrite_ok (filename : String)
    (h : (execute packageCtx [] (declareAndWrite filename)).isOk = true) :
    ∃ actions, execute packageCtx [] (declareAndWrite filename) = .ok actions ∧
      ∃ a ∈ actions, a.outputs = [(Held.declared .file filename).artifact packageCtx] := by
  cases hrun : execute packageCtx [] (declareAndWrite filename) with
  | error e =>
    rw [hrun] at h
    cases h
  | ok actions =>
    obtain ⟨s,hs,hmem⟩ := execute_ok hrun
    rw [declareAndWrite, List.foldlM_cons, Fallible.bind_ok] at hs
    obtain ⟨t,ht,hs⟩ := hs
    cases hs
    exact ⟨actions,rfl,_,(hmem _).mpr (List.mem_append_right _ List.mem_cons_self),rfl⟩

theorem writes_within_nested : ∃ actions, execute packageCtx [] (declareAndWrite "./a/../b/x") = .ok actions ∧
    ∀ a ∈ actions, ActionWithin (Held.ownDir packageCtx) a := by
  obtain ⟨actions,h,-⟩ := declareAndWrite_ok "./a/../b/x" (by decide)
  refine ⟨actions,h,(writes_within_iff h).mpr ?_⟩
  intro c hc f hf
  rcases List.mem_cons.mp hc with rfl | hc
  · cases hf
  · cases List.mem_singleton.mp hc
    cases List.mem_singleton.mp hf
    show Inside _ _
    decide

theorem writes_outside : ∃ actions, execute packageCtx [] (declareAndWrite "../other/x") = .ok actions ∧
    ¬∀ a ∈ actions, ActionWithin (Held.ownDir packageCtx) a := by
  obtain ⟨actions,h,a,ha,hout⟩ := declareAndWrite_ok "../other/x" (by decide)
  refine ⟨actions,h,fun hall => ?_⟩
  have hin := ((hall a ha).outputs _ (hout ▸ List.mem_cons_self)).inside
  revert hin
  decide

end Calls

end BuildFiji.Starlark.Actions
