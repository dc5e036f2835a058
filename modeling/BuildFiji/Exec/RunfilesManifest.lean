import BuildFiji.Analysis.RunfilesTree
import BuildFiji.Exec.Scheduler
import Mathlib

/-!
# The manifest of a runfiles tree

A line for each path of the tree, with where it leads. A path that holds a space, a newline or a
backslash is escaped, and what is written after it is not.
-/

set_option autoImplicit false
set_option linter.all false

namespace BuildFiji.Runfiles
open Graph

section Reading

/-- A newline ends a line; what stands after the last of them is one as well. -/
def lines : List Char → List (List Char)
  | [] => []
  | c::rest =>
    if c = '\n' then [] :: lines rest
    else
      match lines rest with
      | [] => [[c]]
      | line::others => (c::line)::others

/-- Before and after the first space. -/
def atSpace (line : List Char) : List Char × List Char :=
  (line.takeWhile (· ≠ ' '),(line.dropWhile (· ≠ ' ')).tail)

/-- Some characters after a backslash stand for another, in one pass. -/
def unescape (meant : Char → Option Char) : List Char → List Char
  | [] => []
  | [c] => [c]
  | c::d::rest =>
    if c = '\\' then
      match meant d with
      | some x => x :: unescape meant rest
      | none => c :: unescape meant (d::rest)
    else c :: unescape meant (d::rest)

def inTarget (c : Char) : Option Char :=
  if c = 'n' then some '\n' else if c = 'b' then some '\\' else none

def inPath (c : Char) : Option Char := if c = 's' then some ' ' else inTarget c

/-- A line that begins with a space is escaped. -/
def readLine (line : List Char) : String × String :=
  if line.head? = some ' ' then
    let parts := atSpace line.tail
    (.ofList (unescape inPath parts.1),.ofList (unescape inTarget parts.2))
  else
    let parts := atSpace line
    (.ofList parts.1,.ofList parts.2)

def readManifest (text : String) : List (String × String) := (lines text.toList).map readLine

end Reading

section Writing

def replace (c : Char) (into l : List Char) : List Char := l.flatMap fun x => if x = c then into else [x]

def escape (path : String) : List Char :=
  replace '\n' ['\\','n'] (replace ' ' ['\\','s'] (replace '\\' ['\\','b'] path.toList))

def special (path : String) : Bool := path.toList.any fun c => c = ' ' || c = '\n' || c = '\\'

def lineOf (e : String × String) : List Char :=
  if special e.1 then ' ' :: (escape e.1 ++ ' ' :: (e.2.toList ++ ['\n']))
  else e.1.toList ++ ' ' :: (e.2.toList ++ ['\n'])

variable (b : Exec.Build) (resolve : Artifact → String) (mappingAt : String)

/-- A link that is not to be followed is listed as it reads. -/
def unresolvedTarget (artifact : Artifact) : Option String :=
  match ((b.byOutput artifact).bind fun i => b.actions[i]?).map Action.kind with
  | some (.unresolvedSymlink target) => some target
  | _ => none

/-- Each path with where it leads, an empty file with nothing. -/
def listed (entries : List (String × Artifact)) (emptyFiles : List String) : List (String × String) :=
  entries.map (fun e => (e.1,(unresolvedTarget b e.2).getD (resolve e.2))) ++
    emptyFiles.map (fun path => (path,"")) ++ [("_repo_mapping",mappingAt)]

def manifestText (entries : List (String × Artifact)) (emptyFiles : List String) : String :=
  .ofList (((listed b resolve mappingAt entries emptyFiles).mergeSort fun a b => toLex a ≤ toLex b).flatMap lineOf)

end Writing

section Lines

theorem lines_append {l : List Char} (h : '\n' ∉ l) (rest : List Char) : lines (l ++ '\n'::rest) = l :: lines rest := by
  induction l with
  | nil => rw [List.nil_append, lines, if_pos rfl]
  | cons c l ih =>
    rw [List.mem_cons, not_or] at h
    rw [List.cons_append, lines, if_neg (Ne.symm h.1), ih h.2]

theorem lines_length (l rest : List Char) :
    (lines (l ++ '\n'::rest)).length = l.count '\n' + 1 + (lines rest).length := by
  induction l with
  | nil => rw [List.nil_append, lines, if_pos rfl, List.length_cons, List.count_nil, Nat.zero_add, Nat.add_comm]
  | cons c l ih =>
    rw [List.cons_append, lines]
    split
    · next hc =>
      rw [hc, List.length_cons, ih, List.count_cons_self]
      omega
    · next hc =>
      rw [List.count_cons_of_ne hc, ← ih]
      cases hl : lines (l ++ '\n'::rest) with
      | nil =>
        rw [hl, List.length_nil] at ih
        omega
      | cons line others => rfl

theorem atSpace_append {l : List Char} (h : ' ' ∉ l) (rest : List Char) : atSpace (l ++ ' '::rest) = (l,rest) := by
  have hall : ∀ c ∈ l, decide (c ≠ ' ') = true := fun c hc => decide_eq_true fun heq => h (heq ▸ hc)
  rw [atSpace, List.takeWhile_append_of_pos hall, List.dropWhile_append_of_pos hall]
  simp

theorem unescape_cons {meant : Char → Option Char} {c : Char} (hc : c ≠ '\\') (rest : List Char) :
    unescape meant (c::rest) = c :: unescape meant rest := by
  cases rest with
  | nil => rfl
  | cons d rest => rw [unescape, if_neg hc]

theorem unescape_length (meant : Char → Option Char) (l : List Char) : (unescape meant l).length ≤ l.length := by
  fun_induction unescape meant l with
  | case1 => exact le_rfl
  | case2 c => exact le_rfl
  | case3 d rest x hx ih => exact (Nat.succ_le_succ ih).trans (Nat.le_succ _)
  | case4 d rest hx ih => exact Nat.succ_le_succ ih
  | case5 c d rest hc ih => exact Nat.succ_le_succ ih

theorem pair_infix_cons {c d x : Char} {l : List Char} : [c,d] <:+: x::l ↔ (x = c ∧ l.head? = some d) ∨ [c,d] <:+: l := by
  rw [List.infix_cons_iff]
  refine or_congr_left ?_
  cases l with
  | nil => simp
  | cons y l => simp [eq_comm]

/-- A text means itself exactly when nothing in it means something else. -/
theorem unescape_eq_iff {meant : Char → Option Char} {l : List Char} : unescape meant l = l ↔
    ∀ d x, meant d = some x → ¬['\\',d] <:+: l := by
  fun_induction unescape meant l with
  | case1 => exact iff_of_true rfl fun d x _ h => by simpa using h.length_le
  | case2 c => exact iff_of_true rfl fun d x _ h => by simpa using h.length_le
  | case3 d rest x hx ih =>
    refine iff_of_false (fun heq => ?_) fun h => h d x hx ⟨[],rest,rfl⟩
    have hlength := congrArg List.length heq
    have := unescape_length meant rest
    simp only [List.length_cons] at hlength
    omega
  | case4 d rest hx ih =>
    rw [List.cons_inj_right, ih]
    refine forall_congr' fun e => forall_congr' fun x => imp_congr_right fun he => not_congr ?_
    rw [pair_infix_cons (x := '\\')]
    refine (or_iff_right fun h => ?_).symm
    rw [List.head?_cons, Option.some_inj] at h
    rw [h.2, he] at hx
    cases hx
  | case5 c d rest hc ih =>
    rw [List.cons_inj_right, ih]
    refine forall_congr' fun e => forall_congr' fun x => imp_congr_right fun he => not_congr ?_
    rw [pair_infix_cons (x := c)]
    exact (or_iff_right fun h => hc h.1).symm

end Lines

section Escapes

def escaped (c : Char) : List Char :=
  if c = '\\' then ['\\','b'] else if c = ' ' then ['\\','s'] else if c = '\n' then ['\\','n'] else [c]

theorem replace_append (c : Char) (into l m : List Char) :
    replace c into (l ++ m) = replace c into l ++ replace c into m :=
  List.flatMap_append

/-- The three replacements come to one of each character: none replaces what another has put. -/
theorem escape_eq (path : String) : escape path = path.toList.flatMap escaped := by
  unfold escape
  induction path.toList with
  | nil => rfl
  | cons c l ih =>
    have hcons : ∀ d into, replace d into (c::l) = replace d into [c] ++ replace d into l := fun d into =>
      replace_append d into [c] l
    rw [hcons, replace_append, replace_append, ih, List.flatMap_cons]
    refine congrArg (· ++ l.flatMap escaped) ?_
    unfold escaped
    split
    · next hc => subst hc; rfl
    · next hback =>
      split
      · next hc => subst hc; rfl
      · next hspace =>
        split
        · next hc => subst hc; rfl
        · next hline => simp [replace, hback, hspace, hline]

theorem mem_escape {path : String} {c : Char} (h : c ∈ escape path) : c ≠ ' ' ∧ c ≠ '\n' := by
  rw [escape_eq] at h
  obtain ⟨x,-,hx⟩ := List.mem_flatMap.mp h
  unfold escaped at hx
  split at hx
  · simp only [List.mem_cons, List.not_mem_nil, or_false] at hx
    rcases hx with rfl|rfl <;> decide
  · split at hx
    · simp only [List.mem_cons, List.not_mem_nil, or_false] at hx
      rcases hx with rfl|rfl <;> decide
    · split at hx
      · simp only [List.mem_cons, List.not_mem_nil, or_false] at hx
        rcases hx with rfl|rfl <;> decide
      · next hspace hline =>
        rw [List.mem_singleton] at hx
        exact ⟨hx ▸ hspace,hx ▸ hline⟩

theorem unescape_escape (path : String) : unescape inPath (escape path) = path.toList := by
  rw [escape_eq]
  induction path.toList with
  | nil => rfl
  | cons c l ih =>
    rw [List.flatMap_cons, escaped]
    split
    · next hc =>
      rw [hc, List.cons_append, List.cons_append, List.nil_append, unescape, if_pos rfl]
      exact congrArg (_ :: ·) ih
    · next hback =>
      split
      · next hc =>
        rw [hc, List.cons_append, List.cons_append, List.nil_append, unescape, if_pos rfl]
        exact congrArg (_ :: ·) ih
      · split
        · next hc =>
          rw [hc, List.cons_append, List.cons_append, List.nil_append, unescape, if_pos rfl]
          exact congrArg (_ :: ·) ih
        · rw [List.singleton_append, unescape_cons hback, ih]

end Escapes

section Back

def body (e : String × String) : List Char :=
  if special e.1 then ' ' :: (escape e.1 ++ ' ' :: e.2.toList) else e.1.toList ++ ' ' :: e.2.toList

/-- What a reader takes an entry for. -/
def taken (e : String × String) : String × String :=
  (e.1,if special e.1 then .ofList (unescape inTarget e.2.toList) else e.2)

theorem lineOf_eq (e : String × String) : lineOf e = body e ++ ['\n'] := by
  unfold lineOf body
  split <;> simp

theorem not_mem_of_not_special {path : String} (h : ¬special path = true) {c : Char} (hc : c ∈ path.toList) :
    c ≠ ' ' ∧ c ≠ '\n' := by
  have hplain : ¬(decide (c = ' ') || decide (c = '\n') || decide (c = '\\')) = true := fun hany =>
    h (List.any_eq_true.mpr ⟨c,hc,hany⟩)
  simp only [Bool.or_eq_true, decide_eq_true_eq, not_or] at hplain
  exact hplain.1

theorem count_body (e : String × String) : (body e).count '\n' = e.2.toList.count '\n' := by
  have hzero : ∀ l : List Char, (∀ c ∈ l, c ≠ '\n') → l.count '\n' = 0 := fun l h =>
    List.count_eq_zero.mpr fun hmem => h _ hmem rfl
  unfold body
  split
  · rw [List.count_cons_of_ne (by decide), List.count_append, hzero _ fun c hc => (mem_escape hc).2, Nat.zero_add,
      List.count_cons_of_ne (by decide)]
  · next h =>
    rw [List.count_append, hzero _ fun c hc => (not_mem_of_not_special h hc).2, Nat.zero_add,
      List.count_cons_of_ne (by decide)]

theorem readLine_body {e : String × String} (hne : e.1 ≠ "") : readLine (body e) = taken e := by
  unfold readLine body taken
  by_cases h : special e.1 = true
  · rw [if_pos h, if_pos h, List.head?_cons, if_pos rfl, List.tail_cons]
    dsimp only
    rw [atSpace_append (fun hmem => (mem_escape hmem).1 rfl), unescape_escape, String.ofList_toList]
  · rw [if_neg h, if_neg h]
    have hhead : ¬(e.1.toList ++ ' '::e.2.toList).head? = some ' ' := by
      cases hl : e.1.toList with
      | nil => exact absurd (String.toList_eq_nil_iff.mp hl) hne
      | cons c l =>
        intro hc
        rw [List.cons_append, List.head?_cons, Option.some_inj] at hc
        exact (not_mem_of_not_special h (hl ▸ List.mem_cons_self)).1 hc
    rw [if_neg hhead]
    dsimp only
    rw [atSpace_append (fun hmem => (not_mem_of_not_special h hmem).1 rfl), String.ofList_toList, String.ofList_toList]

theorem flatMap_lines {l : List (String × String)} (h : ∀ e ∈ l, '\n' ∉ e.2.toList) :
    lines (l.flatMap lineOf) = l.map body := by
  induction l with
  | nil => rfl
  | cons e l ih =>
    rw [List.forall_mem_cons] at h
    have hbody : '\n' ∉ body e := by
      rw [← List.count_eq_zero, count_body, List.count_eq_zero]
      exact h.1
    rw [List.flatMap_cons, lineOf_eq, List.append_assoc, List.singleton_append, lines_append hbody, ih h.2,
      List.map_cons]

/-- A newline in what is written after a path makes a line of its own. -/
theorem flatMap_lines_length (l : List (String × String)) :
    (lines (l.flatMap lineOf)).length = (l.map fun e => e.2.toList.count '\n').sum + l.length := by
  induction l with
  | nil => rfl
  | cons e l ih =>
    rw [List.flatMap_cons, lineOf_eq, List.append_assoc, List.singleton_append, lines_length, count_body, ih,
      List.map_cons, List.sum_cons, List.length_cons]
    omega

/-- Each of some paths once, with what it leads to, and no other. -/
def ReadsBack (text : String) (expected : List (String × String)) : Prop :=
  ((readManifest text).map Prod.fst).Nodup ∧ ∀ e, e ∈ readManifest text ↔ e ∈ expected

/-- What is written after a path is read as it was written. -/
def Plain (e : String × String) : Prop :=
  '\n' ∉ e.2.toList ∧ (special e.1 = true → ¬['\\','n'] <:+: e.2.toList ∧ ¬['\\','b'] <:+: e.2.toList)

theorem taken_eq_iff {e : String × String} : taken e = e ↔
    (special e.1 = true → ¬['\\','n'] <:+: e.2.toList ∧ ¬['\\','b'] <:+: e.2.toList) := by
  unfold taken
  by_cases h : special e.1 = true
  · have heq : (e.1,String.ofList (unescape inTarget e.2.toList)) = e ↔ unescape inTarget e.2.toList = e.2.toList := by
      rw [Prod.ext_iff, and_iff_right rfl, ← String.toList_inj, String.toList_ofList]
    rw [if_pos h, heq, unescape_eq_iff, forall_prop_of_true h]
    constructor
    · exact fun hall => ⟨hall 'n' '\n' rfl,hall 'b' '\\' rfl⟩
    · intro hnone d x hd hinfix
      unfold inTarget at hd
      split at hd
      · next hc => exact hnone.1 (hc ▸ hinfix)
      · split at hd
        · next hc => exact hnone.2 (hc ▸ hinfix)
        · cases hd
  · rw [if_neg h]
    exact iff_of_true rfl fun hspecial => absurd hspecial h

theorem readsBack_iff {expected sorted : List (String × String)} (hperm : sorted.Perm expected)
    (hne : ∀ e ∈ expected, e.1 ≠ "") : ReadsBack (.ofList (sorted.flatMap lineOf)) expected ↔
      (expected.map Prod.fst).Nodup ∧ ∀ e ∈ expected, Plain e := by
  have hread : (∀ e ∈ expected, '\n' ∉ e.2.toList) →
      readManifest (.ofList (sorted.flatMap lineOf)) = sorted.map taken := by
    intro hline
    rw [readManifest, String.toList_ofList, flatMap_lines fun e he => hline e (hperm.mem_iff.mp he), List.map_map]
    exact List.map_congr_left fun e he => readLine_body (hne e (hperm.mem_iff.mp he))
  constructor
  · rintro ⟨hnodup,hmem⟩
    have hback : (readManifest (.ofList (sorted.flatMap lineOf))).Nodup := List.Nodup.of_map _ hnodup
    have hsub : (readManifest (.ofList (sorted.flatMap lineOf))).Subperm expected :=
      hback.subperm fun e he => (hmem e).mp he
    -- as many lines as entries, so no line was broken and no entry is there twice
    have hlength : (readManifest (.ofList (sorted.flatMap lineOf))).length =
        (sorted.map fun e => e.2.toList.count '\n').sum + expected.length := by
      rw [readManifest, List.length_map, String.toList_ofList, flatMap_lines_length, hperm.length_eq]
    have hzero : (sorted.map fun e => e.2.toList.count '\n').sum = 0 := by
      have := hsub.length_le
      omega
    have hall : (readManifest (.ofList (sorted.flatMap lineOf))).Perm expected :=
      hsub.perm_of_length_le (by omega)
    have hpaths : (expected.map Prod.fst).Nodup := (hall.map Prod.fst).nodup_iff.mp hnodup
    have hline : ∀ e ∈ expected, '\n' ∉ e.2.toList := by
      intro e he
      rw [← List.count_eq_zero]
      exact List.sum_eq_zero_iff_forall_eq_nat.mp hzero _ (List.mem_map_of_mem (hperm.mem_iff.mpr he))
    refine ⟨hpaths,fun e he => ⟨hline e he,taken_eq_iff.mp ?_⟩⟩
    have htaken : taken e ∈ expected := by
      rw [← hmem, hread hline]
      exact List.mem_map_of_mem (hperm.mem_iff.mpr he)
    exact List.inj_on_of_nodup_map hpaths htaken he rfl
  · rintro ⟨hpaths,hplain⟩
    have hsame : readManifest (.ofList (sorted.flatMap lineOf)) = sorted := by
      rw [hread fun e he => (hplain e he).1]
      exact (List.map_congr_left fun e he => taken_eq_iff.mpr (hplain e (hperm.mem_iff.mp he)).2).trans (List.map_id _)
    rw [ReadsBack, hsame]
    exact ⟨(hperm.map Prod.fst).nodup_iff.mpr hpaths,fun e => hperm.mem_iff⟩

end Back

section Manifest

variable (b : Exec.Build) (resolve : Artifact → String) (mappingAt : String) (exe : Artifact) (runfiles : Runfiles)
  (mainName : String)

/-- What the tree of an executable leads to. -/
def treeListed : List (String × String) :=
  listed b resolve mappingAt (entries exe runfiles mainName) (emptyFiles exe runfiles mainName)

def treeManifest : String :=
  manifestText b resolve mappingAt (entries exe runfiles mainName) (emptyFiles exe runfiles mainName)

variable {b resolve mappingAt exe runfiles mainName}

theorem treeListed_paths : (treeListed b resolve mappingAt exe runfiles mainName).map Prod.fst =
    (entries exe runfiles mainName).map Prod.fst ++ emptyFiles exe runfiles mainName ++ ["_repo_mapping"] := by
  simp [treeListed, listed, Function.comp_def]

/-- No empty file is where the mapping is. -/
theorem treeListed_nodup_iff : ((treeListed b resolve mappingAt exe runfiles mainName).map Prod.fst).Nodup ↔
    ∀ e ∈ entries exe runfiles mainName, e.1 ≠ "_repo_mapping" := by
  have hempty : "_repo_mapping" ∉ emptyFiles exe runfiles mainName := fun h => by
    rcases emptyFiles_ends h with h|h <;> exact absurd h (by decide)
  rw [treeListed_paths, List.nodup_append']
  constructor
  · rintro ⟨-,-,hdisjoint⟩ e he heq
    exact hdisjoint (List.mem_append_left _ (List.mem_map.mpr ⟨e,he,heq⟩)) List.mem_cons_self
  · intro h
    refine ⟨?_,List.nodup_singleton _,fun path hpath hmapping => ?_⟩
    · exact List.nodup_append'.mpr ⟨entries_nodup,emptyFiles_nodup,fun path hentry hfile =>
        not_mem_of_emptyFiles hfile hentry⟩
    · rw [List.mem_singleton] at hmapping
      subst hmapping
      rcases List.mem_append.mp hpath with hpath|hpath
      · obtain ⟨e,he,heq⟩ := List.mem_map.mp hpath
        exact h e he heq
      · exact hempty hpath

/-- The manifest reads back exactly when no runfile is where the mapping is, nothing it leads to
has a newline, and after an escaped path nothing looks escaped. -/
theorem treeManifest_readsBack_iff (b : Exec.Build) (resolve : Artifact → String) (mappingAt : String)
    (exe : Artifact) (runfiles : Runfiles) (mainName : String)
    (hne : ∀ e ∈ entries exe runfiles mainName, e.1 ≠ "") :
    ReadsBack (treeManifest b resolve mappingAt exe runfiles mainName)
        (treeListed b resolve mappingAt exe runfiles mainName) ↔
      (∀ e ∈ entries exe runfiles mainName, e.1 ≠ "_repo_mapping") ∧
        ∀ e ∈ treeListed b resolve mappingAt exe runfiles mainName, Plain e := by
  have hpaths : ∀ e ∈ treeListed b resolve mappingAt exe runfiles mainName, e.1 ≠ "" := by
    intro e he
    have hmem := List.mem_map_of_mem (f := Prod.fst) he
    rw [treeListed_paths] at hmem
    intro hempty
    rw [hempty] at hmem
    rcases List.mem_append.mp hmem with hmem|hmem
    · rcases List.mem_append.mp hmem with hmem|hmem
      · obtain ⟨e,he,heq⟩ := List.mem_map.mp hmem
        exact hne e he heq
      · rcases emptyFiles_ends hmem with h|h <;> exact absurd h (by decide)
    · exact absurd hmem (by decide)
  rw [← treeListed_nodup_iff]
  exact readsBack_iff (List.mergeSort_perm _ _) hpaths

def program : Artifact := ⟨⟨"bazel-out",false⟩,"bin",false,false⟩

def notes : Artifact := ⟨⟨"",true⟩,"notes",false,false⟩

/-- A program with one runfile more, at a path with a space. -/
def spaced : Runfiles := ⟨[],[],[("a b",notes)],false⟩

def nothing : Exec.Build := ⟨[],[],1,false,fun _ => 0⟩

theorem treeManifest_readsBack_spaced :
    (∀ e ∈ entries program spaced "_main", e.1 ≠ "") ∧
      (ReadsBack (treeManifest nothing (fun file => "/w/" ++ file.path) "/w/bin.repo_mapping" program spaced "_main")
          (treeListed nothing (fun file => "/w/" ++ file.path) "/w/bin.repo_mapping" program spaced "_main") ↔
        (∀ e ∈ entries program spaced "_main", e.1 ≠ "_repo_mapping") ∧
          ∀ e ∈ treeListed nothing (fun file => "/w/" ++ file.path) "/w/bin.repo_mapping" program spaced "_main",
            Plain e) :=
  ⟨by decide,treeManifest_readsBack_iff nothing _ _ program spaced "_main" (by decide)⟩

/-- In a workspace with a backslash in its name what follows a path with a space is read as it
was not written. -/
theorem backslash_not_readBack :
    ¬ReadsBack (treeManifest nothing (fun file => "/w\\new/" ++ file.path) "/w\\new/bin.repo_mapping" program spaced "_main")
      (treeListed nothing (fun file => "/w\\new/" ++ file.path) "/w\\new/bin.repo_mapping" program spaced "_main") := by
  intro h
  have hall := ((readsBack_iff (List.mergeSort_perm _ _) (by decide)).mp h).2
  have hplain := hall ("a b","/w\\new/notes") (by decide)
  exact (hplain.2 (by decide)).1 ⟨['/','w'],"ew/notes".toList,by decide⟩

end Manifest

end BuildFiji.Runfiles
