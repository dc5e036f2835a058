import BuildFiji.Graph.Action
import BuildFiji.Graph.Label
import BuildFiji.Lib.PrefixOrder

/-!
# Conflicting actions

Two actions that make the same file but differ cannot both be in a build, nor can two of which
one makes a file where the other makes a directory.
-/

set_option autoImplicit false
set_option linter.all false

namespace BuildFiji.Conflicts

open BuildFiji.Graph BuildFiji.SortedAssoc

/-- An action with what a message says of it. -/
structure RegisteredAction extends Action where
  owner : Label
  ownerKind : String
  progressMessage : Option String

structure Conflict where
  message : String
  losers : List Label
deriving DecidableEq

/-- They differ at most in the target that registered them. -/
def shared (a b : RegisteredAction) : Bool :=
  a.mnemonic = b.mnemonic ∧ a.progressMessage = b.progressMessage ∧ a.kind = b.kind ∧
    a.inputs = b.inputs ∧ a.outputs = b.outputs

section ByOutput

/-- An action and its place in the list, which tells it from one that is equal to it. -/
abbrev Placed := RegisteredAction × ℕ

def addOutput (action : Placed) (m : List (String × List Placed)) (output : Artifact) :
    List (String × List Placed) :=
  let «at» := (find output.execPath m).getD []
  if «at».any fun earlier => earlier.2 = action.2 then m else put output.execPath («at» ++ [action]) m

/-- The actions that make each output. -/
def byOutput (actions : List RegisteredAction) : List (String × List Placed) :=
  actions.zipIdx.foldl (fun m action => action.1.outputs.foldl (addOutput action) m) []

end ByOutput

section SameFile

def unique (items : List String) : String := ", ".intercalate items.eraseDups

/-- `mnemonics.contains(", ")` -/
def holds (part text : List Char) : Bool := text.tails.any part.isPrefixOf

/-- The newest first, and the targets last in order first. -/
def newestFirst (madeBy : List RegisteredAction) : List RegisteredAction :=
  madeBy.reverse.mergeSort fun a b => decide (labelText b.owner ≤ labelText a.owner)

def sameFileText (output : Artifact) (first : RegisteredAction) (madeBy : List RegisteredAction) : String :=
  let newest := newestFirst madeBy
  let mnemonics := unique (newest.map fun a => a.mnemonic)
  let progress := unique (newest.filterMap RegisteredAction.progressMessage)
  let say (equal : Bool) := if equal then "are equal" else "differ"
  "file '" ++ output.path ++ "' is generated by these conflicting actions:\nLabel: " ++
    unique (newest.map fun a => labelText a.owner) ++ "\nRuleClass: " ++
    unique (newest.map fun a => a.ownerKind ++ " rule") ++ "\nMnemonic: " ++ mnemonics ++ "\n" ++
    (if holds ", ".toList mnemonics.toList then "" else "IsShareable: true\n") ++
    (if progress = "" then "" else "Progress message: " ++ progress ++ "\n") ++
    "PrimaryOutput: File:[[<execution_root>]" ++ output.root.rootPrefix ++ "]" ++ output.path ++ "\n" ++
    "MandatoryInputs: " ++ say (madeBy.all fun a => a.inputs = first.inputs) ++
    "\nOutputs: " ++ say (madeBy.all fun a => a.outputs = first.outputs)

/-- The owners of all but the last, if they are not the owner of the last. -/
def sameFileLosers (madeBy : List RegisteredAction) : List Label :=
  let newest := newestFirst madeBy
  let losers := (newest.dropLast.map RegisteredAction.owner).eraseDups
  match newest.getLast? with
  | some last => losers.filter fun l => l ≠ last.owner
  | none => losers

/-- What is said of a file, if its actions are not all one. -/
def sameFileConflict (path : String) (madeBy : List RegisteredAction) : Option Conflict :=
  match madeBy with
  | [] => none
  | first::_ =>
    if madeBy.all (shared first) then none
    else
      (first.outputs.find? fun o => o.execPath = path).map fun output =>
        ⟨sameFileText output first madeBy,sameFileLosers madeBy⟩

def sameFile (actions : List RegisteredAction) : List (String × Conflict) :=
  (byOutput actions).filterMap fun e =>
    (sameFileConflict e.1 (e.2.map Prod.fst)).map fun conflict => (e.1,conflict)

end SameFile

section Inside

def isTree (a : RegisteredAction) : Bool :=
  match a.kind with
  | .runfilesTree | .symlinkTree _ _ _ _ _ _ => true
  | _ => false

/-- `inner.strip_prefix(outer)` -/
def stripPrefix (outer inner : String) : Option (List Char) :=
  if outer.toList.isPrefixOf inner.toList then some (inner.toList.drop outer.toList.length) else none

def insideConflict (outer inner : String × List Placed) : Conflict :=
  let owner (e : String × List Placed) := (e.2.head?.map fun a => labelText a.1.owner).getD ""
  ⟨"One of the output paths '" ++ inner.1 ++ "' (belonging to " ++ owner inner ++ ") and '" ++ outer.1 ++
      "' (belonging to " ++ owner outer ++ ") is a prefix of the other. These actions cannot be " ++
      "simultaneously present; please rename one of the output files or build just one of them",
    (inner.2.head?.map fun a => a.1.owner).toList⟩

/-- The paths after `outer`, up to the first that does not begin with it. -/
def insideOf (outer : String × List Placed) :
    List (String × List Placed) → List ((String × String) × Conflict)
  | [] => []
  | inner::rest =>
    match stripPrefix outer.1 inner.1 with
    | none => []
    | some tail =>
      if tail.head? ≠ some '/' then insideOf outer rest
      else if outer.2.any fun a => isTree a.1 then insideOf outer rest
      else ((outer.1,inner.1),insideConflict outer inner)::insideOf outer rest

def inside : List (String × List Placed) → List ((String × String) × Conflict)
  | [] => []
  | outer::rest => insideOf outer rest ++ inside rest

end Inside

/-- The conflicts of some actions. -/
def found (actions : List RegisteredAction) : List Conflict :=
  (sameFile actions).map Prod.snd ++ (inside (byOutput actions)).map Prod.snd

section Made

def declares (path : String) (a : RegisteredAction) : Bool := a.outputs.any fun o => o.execPath = path

def madeAt (m : List (String × List Placed)) (path : String) : List Placed := (find path m).getD []

theorem addOutput_at (action : Placed) (m : List (String × List Placed)) (output : Artifact)
    (path : String) : madeAt (addOutput action m output) path =
      if output.execPath = path ∧ ((madeAt m path).any fun earlier => earlier.2 = action.2) = false
      then madeAt m path ++ [action] else madeAt m path := by
  rw [addOutput]
  change madeAt (if ((madeAt m output.execPath).any _) = true then m
    else put output.execPath (madeAt m output.execPath ++ [action]) m) path = _
  by_cases hpath : output.execPath = path
  · subst hpath
    cases hold : (madeAt m output.execPath).any fun earlier => earlier.2 = action.2 with
    | true => rw [if_pos rfl, if_neg (by simp)]
    | false =>
      rw [if_neg Bool.false_ne_true, if_pos ⟨rfl,rfl⟩, madeAt, find_put_self]
      rfl
  · rw [if_neg fun h : _ ∧ _ => hpath h.1]
    split
    · rfl
    · rw [madeAt, find_put_ne (Ne.symm hpath)]
      rfl

/-- An action is added once to each output that it declares. -/
theorem addOutputs_at {action : Placed} {m : List (String × List Placed)} {path : String}
    (hnew : ((madeAt m path).any fun earlier => earlier.2 = action.2) = false)
    (outputs : List Artifact) : madeAt (outputs.foldl (addOutput action) m) path =
      madeAt m path ++ if outputs.any fun o => o.execPath = path then [action] else [] := by
  have hold : ∀ (outputs : List Artifact) (m : List (String × List Placed)),
      ((madeAt m path).any fun earlier => earlier.2 = action.2) = true →
        madeAt (outputs.foldl (addOutput action) m) path = madeAt m path := by
    intro outputs
    induction outputs with
    | nil => exact fun _ _ => rfl
    | cons o outputs ih =>
      intro m hm
      have hsame : madeAt (addOutput action m o) path = madeAt m path := by
        rw [addOutput_at, if_neg (by rw [hm]; simp)]
      rw [List.foldl_cons, ih _ (by rw [hsame]; exact hm), hsame]
  induction outputs generalizing m with
  | nil => exact (List.append_nil _).symm
  | cons o outputs ih =>
    rw [List.foldl_cons, List.any_cons]
    by_cases hpath : o.execPath = path
    · have hadded : madeAt (addOutput action m o) path = madeAt m path ++ [action] := by
        rw [addOutput_at, if_pos ⟨hpath,hnew⟩]
      rw [hold _ _ (by rw [hadded]; simp), hadded, decide_eq_true hpath, Bool.true_or, if_pos rfl]
    · have hsame : madeAt (addOutput action m o) path = madeAt m path := by
        rw [addOutput_at, if_neg fun h => hpath h.1]
      rw [ih (by rw [hsame]; exact hnew), hsame, decide_eq_false hpath, Bool.false_or]

theorem byOutputs_at {actions : List Placed} {m : List (String × List Placed)} {path : String}
    (hnodup : (actions.map Prod.snd).Nodup)
    (hnew : ∀ a ∈ actions, ((madeAt m path).any fun earlier => earlier.2 = a.2) = false) :
    madeAt (actions.foldl (fun m action => action.1.outputs.foldl (addOutput action) m) m) path =
      madeAt m path ++ actions.filter fun a => declares path a.1 := by
  induction actions generalizing m with
  | nil => exact (List.append_nil _).symm
  | cons a actions ih =>
    obtain ⟨ha,hrest⟩ := List.nodup_cons.mp hnodup
    have hadded := addOutputs_at (hnew a List.mem_cons_self) a.1.outputs
    rw [List.foldl_cons, ih hrest, hadded, List.filter_cons, declares, List.append_assoc]
    · split <;> rfl
    · intro b hb
      rw [hadded, List.any_append, hnew b (List.mem_cons_of_mem _ hb), Bool.false_or]
      split
      · rw [List.any_cons, List.any_nil, Bool.or_false, decide_eq_false_iff_not]
        exact fun heq => ha (heq ▸ List.mem_map_of_mem hb)
      · rfl

theorem byOutput_at (actions : List RegisteredAction) (path : String) :
    madeAt (byOutput actions) path = actions.zipIdx.filter fun a => declares path a.1 := by
  rw [byOutput, byOutputs_at]
  · rfl
  · rw [List.zipIdx_map_snd]
    exact List.nodup_range'
  · exact fun _ _ => rfl

/-- The outputs are sorted, and each has been made. -/
theorem byOutput_sorted (actions : List RegisteredAction) :
    Sorted (byOutput actions) ∧ ∀ e ∈ byOutput actions, e.2 ≠ [] := by
  have hone : ∀ (action : Placed) (outputs : List Artifact) (m : List (String × List Placed)),
      Sorted m ∧ (∀ e ∈ m, e.2 ≠ []) → Sorted (outputs.foldl (addOutput action) m) ∧
        ∀ e ∈ outputs.foldl (addOutput action) m, e.2 ≠ [] := by
    intro action outputs
    induction outputs with
    | nil => exact fun _ h => h
    | cons o outputs ih =>
      intro m h
      refine ih _ ?_
      rw [addOutput]
      split
      · exact h
      · refine ⟨h.1.put _ _,fun e he => ?_⟩
        rcases mem_put he with rfl | he
        · exact List.append_ne_nil_of_right_ne_nil _ (List.cons_ne_nil _ _)
        · exact h.2 e he
  have hall : ∀ (actions : List Placed) (m : List (String × List Placed)),
      Sorted m ∧ (∀ e ∈ m, e.2 ≠ []) →
        Sorted (actions.foldl (fun m action => action.1.outputs.foldl (addOutput action) m) m) ∧
          ∀ e ∈ actions.foldl (fun m action => action.1.outputs.foldl (addOutput action) m) m, e.2 ≠ [] := by
    intro actions
    induction actions with
    | nil => exact fun _ h => h
    | cons a actions ih => exact fun m h => ih _ (hone a a.1.outputs m h)
  exact hall _ _ ⟨List.Pairwise.nil,fun _ he => nomatch he⟩

/-- What stands in the table. -/
theorem mem_byOutput {actions : List RegisteredAction} {e : String × List Placed} :
    e ∈ byOutput actions ↔ e.2 = (actions.zipIdx.filter fun a => declares e.1 a.1) ∧ e.2 ≠ [] := by
  obtain ⟨hsorted,hnonempty⟩ := byOutput_sorted actions
  rw [← byOutput_at, madeAt]
  constructor
  · intro he
    rw [hsorted.find_eq.mpr he]
    exact ⟨rfl,hnonempty e he⟩
  · rintro ⟨heq,hne⟩
    cases hfind : find e.1 (byOutput actions) with
    | none =>
      rw [hfind] at heq
      exact absurd heq hne
    | some placed =>
      rw [hfind] at heq
      exact hsorted.find_eq.mp (by rw [hfind, heq]; rfl)

theorem made_actions {actions : List RegisteredAction} {e : String × List Placed}
    (he : e ∈ byOutput actions) : e.2.map Prod.fst = actions.filter (declares e.1) := by
  have hfst : actions.zipIdx.map Prod.fst = actions := List.zipIdx_map_fst 0 actions
  rw [(mem_byOutput.mp he).1, ← congrArg (List.filter (declares e.1)) hfst, List.filter_map]
  rfl

/-- An output stands in the table if an action declares it. -/
theorem declared_iff {actions : List RegisteredAction} {path : String} :
    (∃ e ∈ byOutput actions, e.1 = path) ↔ ∃ a ∈ actions, declares path a = true := by
  constructor
  · rintro ⟨e,he,rfl⟩
    have hmade := made_actions he
    obtain ⟨placed,hplaced⟩ := List.exists_mem_of_ne_nil _ (mem_byOutput.mp he).2
    have hmem := List.mem_map_of_mem (f := Prod.fst) hplaced
    rw [hmade, List.mem_filter] at hmem
    exact ⟨_,hmem⟩
  · rintro ⟨a,ha,hdeclares⟩
    refine ⟨(path,actions.zipIdx.filter fun a => declares path a.1),mem_byOutput.mpr ⟨rfl,?_⟩,rfl⟩
    have hfst : actions.zipIdx.map Prod.fst = actions := List.zipIdx_map_fst 0 actions
    rw [← hfst] at ha
    obtain ⟨placed,hplaced,rfl⟩ := List.mem_map.mp ha
    exact List.ne_nil_of_mem (List.mem_filter.mpr ⟨hplaced,hdeclares⟩)

end Made

section SameFileFound
variable {actions : List RegisteredAction} {path : String}

theorem shared_iff {a b : RegisteredAction} : shared a b = true ↔
    (a.mnemonic,a.progressMessage,a.kind,a.inputs,a.outputs) =
      (b.mnemonic,b.progressMessage,b.kind,b.inputs,b.outputs) := by
  simp only [shared, decide_eq_true_eq, Prod.mk.injEq]

theorem all_shared_iff {first : RegisteredAction} {madeBy : List RegisteredAction} (h : first ∈ madeBy) :
    madeBy.all (shared first) = true ↔ ∀ a ∈ madeBy, ∀ b ∈ madeBy, shared a b = true := by
  rw [List.all_eq_true]
  constructor
  · intro hall a ha b hb
    exact shared_iff.mpr ((shared_iff.mp (hall a ha)).symm.trans (shared_iff.mp (hall b hb)))
  · exact fun hall b hb => hall first h b hb

/-- A file has a conflict if two actions that declare it are not one. -/
theorem sameFile_iff : (∃ c, (path,c) ∈ sameFile actions) ↔ ∃ a ∈ actions, ∃ b ∈ actions,
    declares path a = true ∧ declares path b = true ∧ shared a b = false := by
  have hmem : (∃ c, (path,c) ∈ sameFile actions) ↔
      ∃ e ∈ byOutput actions, e.1 = path ∧ (sameFileConflict e.1 (e.2.map Prod.fst)).isSome = true := by
    simp only [sameFile, List.mem_filterMap, Option.map_eq_some_iff, Prod.mk.injEq, Option.isSome_iff_exists]
    constructor
    · rintro ⟨c,e,he,c',hc',hpath,-⟩
      exact ⟨e,he,hpath,c',hc'⟩
    · rintro ⟨e,he,hpath,c,hc⟩
      exact ⟨c,e,he,c,hc,hpath,rfl⟩
  have hconflict : ∀ e ∈ byOutput actions, (sameFileConflict e.1 (e.2.map Prod.fst)).isSome = true ↔
      ∃ a ∈ actions, ∃ b ∈ actions, declares e.1 a = true ∧ declares e.1 b = true ∧ shared a b = false := by
    intro e he
    rw [made_actions he]
    have hdeclared : ∀ a, a ∈ actions.filter (declares e.1) ↔ a ∈ actions ∧ declares e.1 a = true :=
      fun a => List.mem_filter
    cases hmade : actions.filter (declares e.1) with
    | nil =>
      have hsome := (mem_byOutput.mp he).2
      rw [← made_actions he, List.map_eq_nil_iff] at hmade
      exact absurd hmade hsome
    | cons first rest =>
      rw [hmade] at hdeclared
      obtain ⟨-,hfirst⟩ := (hdeclared first).mp List.mem_cons_self
      obtain ⟨o,ho,hpath⟩ := List.any_eq_true.mp hfirst
      have hfind : (first.outputs.find? fun o => o.execPath = e.1).isSome = true :=
        List.find?_isSome.mpr ⟨o,ho,hpath⟩
      have hsome : (sameFileConflict e.1 (first::rest)).isSome = true ↔
          ¬ (first::rest).all (shared first) = true := by
        rw [sameFileConflict]
        split
        · next hall => exact iff_of_false (by simp) (not_not.mpr hall)
        · next hall =>
          rw [Option.isSome_map]
          exact iff_of_true hfind hall
      rw [hsome, all_shared_iff List.mem_cons_self]
      push Not
      simp only [hdeclared, Bool.not_eq_true]
      constructor
      · rintro ⟨a,⟨ha,hda⟩,b,⟨hb,hdb⟩,hshared⟩
        exact ⟨a,ha,b,hb,hda,hdb,hshared⟩
      · rintro ⟨a,ha,b,hb,hda,hdb,hshared⟩
        exact ⟨a,⟨ha,hda⟩,b,⟨hb,hdb⟩,hshared⟩
  rw [hmem]
  constructor
  · rintro ⟨e,he,rfl,hsome⟩
    exact (hconflict e he).mp hsome
  · rintro ⟨a,ha,b,hb,hda,hdb,hshared⟩
    obtain ⟨e,he,rfl⟩ := declared_iff.mpr ⟨a,ha,hda⟩
    exact ⟨e,he,rfl,(hconflict e he).mpr ⟨a,ha,b,hb,hda,hdb,hshared⟩⟩

end SameFileFound

section InsideFound
variable {outer inner : String}

/-- The one path is the other, `/`, and more. -/
def Within (outer inner : String) : Prop := ∃ rest, inner = outer ++ "/" ++ rest

theorem within_iff : Within outer inner ↔
    ∃ tail, stripPrefix outer inner = some tail ∧ tail.head? = some '/' := by
  have hstrip : ∀ tail, stripPrefix outer inner = some tail ↔ inner.toList = outer.toList ++ tail := by
    intro tail
    rw [stripPrefix]
    split
    · next hprefix =>
      obtain ⟨t,ht⟩ := List.isPrefixOf_iff_prefix.mp hprefix
      rw [← ht, List.drop_left, Option.some.injEq, List.append_right_inj]
    · next hno =>
      refine iff_of_false (by simp) fun heq => hno (List.isPrefixOf_iff_prefix.mpr ⟨tail,heq.symm⟩)
  simp only [hstrip]
  constructor
  · rintro ⟨rest,rfl⟩
    exact ⟨'/'::rest.toList,by simp,rfl⟩
  · rintro ⟨tail,htail,hhead⟩
    cases tail with
    | nil => cases hhead
    | cons c rest =>
      obtain rfl := Option.some.inj hhead
      exact ⟨.ofList rest,String.toList_injective (by rw [htail]; simp)⟩

theorem within_lt (h : Within outer inner) : outer < inner := by
  obtain ⟨rest,rfl⟩ := h
  rw [String.lt_iff_toList_lt]
  have hlist : (outer ++ "/" ++ rest).toList = outer.toList ++ '/'::rest.toList := by simp
  rw [hlist]
  exact PrefixOrder.lt_append_cons _ _ _

theorem stripPrefix_none : stripPrefix outer inner = none ↔ ¬ outer.toList <+: inner.toList := by
  rw [stripPrefix, ← List.isPrefixOf_iff_prefix]
  split
  · next h => exact iff_of_false (by simp) (not_not.mpr h)
  · next h => exact iff_of_true rfl h

/-- The first path that begins otherwise has no path inside after it. -/
theorem mem_insideOf {o : String × List Placed} {rest : List (String × List Placed)}
    (hsorted : Sorted (o::rest)) {p : (String × String) × Conflict} : p ∈ insideOf o rest ↔
      ∃ i ∈ rest, Within o.1 i.1 ∧ (o.2.any fun a => isTree a.1) = false ∧
        p = ((o.1,i.1),insideConflict o i) := by
  induction rest with
  | nil => exact iff_of_false (fun h => nomatch h) fun ⟨_,h,_⟩ => nomatch h
  | cons i rest ih =>
    obtain ⟨hafter,hrest⟩ := List.pairwise_cons.mp hsorted
    obtain ⟨hi,hlater⟩ := List.pairwise_cons.mp hrest
    have ih := ih (List.pairwise_cons.mpr ⟨fun e he => hafter e (List.mem_cons_of_mem _ he),hlater⟩)
    rw [insideOf]
    simp only [List.exists_mem_cons_iff]
    cases hstrip : stripPrefix o.1 i.1 with
    | none =>
      have hno : ∀ e ∈ i::rest, ¬ Within o.1 e.1 := by
        intro e he hwithin
        obtain ⟨tail,htail,-⟩ := within_iff.mp hwithin
        have hprefix : o.1.toList <+: e.1.toList := by
          by_contra hcontra
          rw [stripPrefix_none.mpr hcontra] at htail
          cases htail
        rcases List.mem_cons.mp he with rfl | he
        · exact stripPrefix_none.mp hstrip hprefix
        · exact PrefixOrder.not_prefix_of_lt (String.lt_iff_toList_lt.mp (hafter i List.mem_cons_self))
            (String.lt_iff_toList_lt.mp (hi e he)) (stripPrefix_none.mp hstrip) hprefix
      refine iff_of_false (fun h => nomatch h) ?_
      rintro (⟨hwithin,-⟩ | ⟨e,he,hwithin,-⟩)
      · exact hno i List.mem_cons_self hwithin
      · exact hno e (List.mem_cons_of_mem _ he) hwithin
    | some tail =>
      dsimp only
      have hwithin : Within o.1 i.1 ↔ tail.head? = some '/' := by
        rw [within_iff, hstrip]
        simp
      split
      · next hhead =>
        rw [ih, hwithin]
        exact (or_iff_right fun h => hhead h.1).symm
      · next hhead =>
        rw [not_not] at hhead
        split
        · next htree =>
          rw [ih, htree]
          simp
        · next htree =>
          rw [Bool.not_eq_true] at htree
          rw [List.mem_cons, ih, hwithin, htree]
          simp [hhead]

/-- What is found inside is what is inside. -/
theorem mem_inside {l : List (String × List Placed)} (hsorted : Sorted l)
    {p : (String × String) × Conflict} : p ∈ inside l ↔ ∃ o ∈ l, ∃ i ∈ l, Within o.1 i.1 ∧
      (o.2.any fun a => isTree a.1) = false ∧ p = ((o.1,i.1),insideConflict o i) := by
  induction l with
  | nil => exact iff_of_false (fun h => nomatch h) fun ⟨_,h,_⟩ => nomatch h
  | cons e l ih =>
    obtain ⟨hafter,hrest⟩ := List.pairwise_cons.mp hsorted
    rw [inside, List.mem_append, mem_insideOf hsorted, ih hrest]
    constructor
    · rintro (⟨i,hi,h⟩ | ⟨o,ho,i,hi,h⟩)
      · exact ⟨e,List.mem_cons_self,i,List.mem_cons_of_mem _ hi,h⟩
      · exact ⟨o,List.mem_cons_of_mem _ ho,i,List.mem_cons_of_mem _ hi,h⟩
    · rintro ⟨o,ho,i,hi,h⟩
      have hlt := within_lt h.1
      rcases List.mem_cons.mp hi with rfl | hi'
      · rcases List.mem_cons.mp ho with rfl | ho'
        · exact absurd hlt (lt_irrefl _)
        · exact absurd hlt (hafter o ho').asymm
      · rcases List.mem_cons.mp ho with rfl | ho'
        · exact .inl ⟨i,hi',h⟩
        · exact .inr ⟨o,ho',i,hi',h⟩

end InsideFound

section Complete
variable (actions : List RegisteredAction)

/-- A pair of outputs is in conflict if the one is inside the other, unless the outer one is a tree. -/
theorem inside_iff {outer inner : String} : (∃ c, ((outer,inner),c) ∈ inside (byOutput actions)) ↔
    (∃ a ∈ actions, declares outer a = true) ∧ (∃ a ∈ actions, declares inner a = true) ∧
      Within outer inner ∧ ¬ ∃ a ∈ actions, declares outer a = true ∧ isTree a = true := by
  have htree : ∀ o ∈ byOutput actions, (o.2.any fun a => isTree a.1) = false ↔
      ¬ ∃ a ∈ actions, declares o.1 a = true ∧ isTree a = true := by
    intro o ho
    have hmade := made_actions ho
    have hmap : (o.2.any fun a => isTree a.1) = (o.2.map Prod.fst).any isTree := by
      rw [List.any_map]
      rfl
    rw [hmap, hmade, ← Bool.not_eq_true, List.any_eq_true]
    simp only [List.mem_filter, and_assoc]
  simp only [mem_inside (byOutput_sorted actions).1, Prod.mk.injEq]
  constructor
  · rintro ⟨c,o,ho,i,hi,hwithin,hno,⟨rfl,rfl⟩,-⟩
    exact ⟨declared_iff.mp ⟨o,ho,rfl⟩,declared_iff.mp ⟨i,hi,rfl⟩,hwithin,(htree o ho).mp hno⟩
  · rintro ⟨houter,hinner,hwithin,hno⟩
    obtain ⟨o,ho,rfl⟩ := declared_iff.mpr houter
    obtain ⟨i,hi,rfl⟩ := declared_iff.mpr hinner
    exact ⟨_,o,ho,i,hi,hwithin,(htree o ho).mpr hno,⟨rfl,rfl⟩,rfl⟩

theorem sameFile_once : ((sameFile actions).map Prod.fst).Nodup := by
  have hsub : ∀ l : List (String × List Placed), ((l.filterMap fun e =>
      (sameFileConflict e.1 (e.2.map Prod.fst)).map fun conflict => (e.1,conflict)).map
        Prod.fst).Sublist (l.map Prod.fst) := by
    intro l
    induction l with
    | nil => exact List.Sublist.refl _
    | cons e l ih =>
      rw [List.filterMap_cons]
      cases sameFileConflict e.1 (e.2.map Prod.fst) with
      | none => exact ih.cons _
      | some c => exact ih.cons_cons e.1
  refine List.Nodup.sublist (hsub _) ?_
  exact List.pairwise_map.mpr ((byOutput_sorted actions).1.imp ne_of_lt)

theorem insideOf_sublist (o : String × List Placed) (l : List (String × List Placed)) :
    ((insideOf o l).map Prod.fst).Sublist (l.map fun i => (o.1,i.1)) := by
  induction l with
  | nil => exact List.Sublist.refl _
  | cons i l ih =>
    rw [insideOf]
    split
    · exact List.nil_sublist _
    · split
      · exact ih.cons _
      · split
        · exact ih.cons _
        · exact ih.cons_cons _

theorem inside_once {l : List (String × List Placed)} (hsorted : Sorted l) :
    ((inside l).map Prod.fst).Nodup := by
  induction l with
  | nil => exact List.nodup_nil
  | cons o l ih =>
    obtain ⟨hafter,hrest⟩ := List.pairwise_cons.mp hsorted
    rw [inside, List.map_append, List.nodup_append]
    refine ⟨(insideOf_sublist o l).nodup ?_,ih hrest,?_⟩
    · refine List.pairwise_map.mpr (hrest.imp fun hlt heq => ?_)
      exact absurd (Prod.mk.inj heq).2 (ne_of_lt hlt)
    · intro p hp q hq heq
      obtain ⟨i,-,rfl⟩ := List.mem_map.mp ((insideOf_sublist o l).subset hp)
      obtain ⟨c,hc,rfl⟩ := List.mem_map.mp hq
      obtain ⟨o',ho',i',-,-,-,rfl⟩ := (mem_inside hrest).mp hc
      exact absurd (Prod.mk.inj heq).1 (ne_of_lt (hafter o' ho'))

/-- The conflicts are those of the files that two different actions declare, and those of the
pairs of outputs of which one is inside the other, unless the outer one is a tree: each once. -/
theorem found_complete :
    found actions = (sameFile actions).map Prod.snd ++ (inside (byOutput actions)).map Prod.snd ∧
    ((sameFile actions).map Prod.fst).Nodup ∧ ((inside (byOutput actions)).map Prod.fst).Nodup ∧
    (∀ path, (∃ c, (path,c) ∈ sameFile actions) ↔ ∃ a ∈ actions, ∃ b ∈ actions,
      declares path a = true ∧ declares path b = true ∧
        ¬ (a.mnemonic = b.mnemonic ∧ a.progressMessage = b.progressMessage ∧ a.kind = b.kind ∧
          a.inputs = b.inputs ∧ a.outputs = b.outputs)) ∧
    ∀ outer inner, (∃ c, ((outer,inner),c) ∈ inside (byOutput actions)) ↔
      (∃ a ∈ actions, declares outer a = true) ∧ (∃ a ∈ actions, declares inner a = true) ∧
        Within outer inner ∧ ¬ ∃ a ∈ actions, declares outer a = true ∧ isTree a = true := by
  refine ⟨rfl,sameFile_once actions,inside_once (byOutput_sorted actions).1,fun path => ?_,
    fun outer inner => inside_iff actions⟩
  rw [sameFile_iff]
  simp only [shared, decide_eq_false_iff_not]

end Complete

end BuildFiji.Conflicts
