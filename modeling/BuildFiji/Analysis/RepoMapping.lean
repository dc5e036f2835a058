import BuildFiji.Lib.Runs
import BuildFiji.Repo.MarkerText

/-!
# The repository mapping of a runfiles tree

A line says what a repository calls another that has runfiles. Repositories next to each
other that share their names up to the last plus and see the same names are written as
one, with a star. A reader takes the line of the repository itself, and otherwise one
whose text before the star begins its name.
-/

set_option autoImplicit false
set_option linter.all false

namespace BuildFiji.RunfilesTree

open BuildFiji.Graph

open BuildFiji.Runs

open BuildFiji.Recorded (Text rsplitOnce)

abbrev Rows := List (Text × Text)

/-- What each repository calls others, the name of the main one in the tree, and the
directory of each other one. -/
structure Names where
  entries : Text → Rows
  mainName : Text
  repoNames : Text → Text

def repoOf (path : Text) : Text := path.takeWhile fun c => c != '/'

/-- What stands before the last plus. -/
def stem (name : Text) : Option Text := (rsplitOnce '+' name).map Prod.fst

def samePrefix (a b : Text) : Bool :=
  match stem a, stem b with
  | some x, some y => x == y
  | _, _ => false

def shownSource (name : Text) (others : List Text) : Text :=
  match stem name with
  | some text => if others.isEmpty then name else text ++ "+*".toList
  | none => name

namespace Names

variable (names : Names)

/-- The main repository is the empty name. -/
def canonical (treeRepo : Text) : Text := if treeRepo = names.mainName then [] else treeRepo

/-- The main repository has runfiles always, another where a path of the tree is in it. -/
def withRunfiles (paths : List Text) (repo : Text) : Bool :=
  repo.isEmpty || paths.any fun path => names.canonical (repoOf path) == repo

def joins (name other : Text) : Bool :=
  names.entries other == names.entries name && samePrefix name other

def shown (target : Text) : Text := if target.isEmpty then names.mainName else names.repoNames target

def line (source apparent target : Text) : Text := source ++ ','::(apparent ++ ','::(target ++ ['\n']))

def runLines (paths : List Text) (run : Text × List Text) : Text :=
  (names.entries run.1).flatMap fun row =>
    if row.1.isEmpty || !names.withRunfiles paths row.2 then []
    else line (shownSource run.1 run.2) row.1 (names.shown row.2)

def repoMappingContents (paths sources : List Text) : Text :=
  (runs names.joins sources).flatMap (names.runLines paths)

end Names

section Reading

def readLine (text : Text) : Option (Text × Text × Text) := do
  let (source,rest) ← Text.splitOnce [','] text
  let (apparent,target) ← Text.splitOnce [','] rest
  return (source,apparent,target)

def readLines (text : Text) : List (Text × Text × Text) := (splitOn '\n' text).filterMap readLine

/-- A line of the repository itself, or if it has none a line whose source is a beginning
of its name and a star. -/
def Gives (text repo apparent target : Text) : Prop :=
  (repo,apparent,target) ∈ readLines text ∨
    (∀ t, (repo,apparent,t) ∉ readLines text) ∧
      ∃ beginning, (beginning ++ ['*'],apparent,target) ∈ readLines text ∧ beginning <+: repo

end Reading

/-- What a repository itself calls the repositories that have runfiles. -/
def Names.Sees (names : Names) (paths : List Text) (repo apparent target : Text) : Prop :=
  apparent ≠ [] ∧ ∃ t, (apparent,t) ∈ names.entries repo ∧ names.withRunfiles paths t = true ∧
    target = names.shown t

/-- Names as repositories have them, a line each. -/
structure Plain (names : Names) (sources : List Text) : Prop where
  source : ∀ s ∈ sources, ',' ∉ s ∧ '\n' ∉ s ∧ '*' ∉ s
  apparent : ∀ s ∈ sources, ∀ row ∈ names.entries s, ',' ∉ row.1 ∧ '\n' ∉ row.1
  target : ∀ s ∈ sources, ∀ row ∈ names.entries s, '\n' ∉ names.shown row.2

/-- No neighbour of the repository joins it. -/
def Alone (names : Names) (sources : List Text) (repo : Text) : Prop :=
  ∀ z, [repo,z] <:+: sources ∨ [z,repo] <:+: sources → names.joins repo z = false

/-- A run of several repositories gives no other repository whose name begins as theirs
do what it does not see itself. -/
def NoneInvented (names : Names) (paths sources : List Text) : Prop :=
  ∀ x y, [x,y] <:+: sources → names.joins x y = true →
    ∀ r ∈ sources, ∀ text, stem x = some text → text ++ ['+'] <+: r →
      ∀ apparent target, names.Sees paths x apparent target → names.Sees paths r apparent target ∨
        Alone names sources r ∧ ∃ t, names.Sees paths r apparent t

section Lines

variable {names : Names} {paths sources : List Text}

theorem readLine_line {source apparent target : Text} (hs : ',' ∉ source) (ha : ',' ∉ apparent) :
    readLine (source ++ ','::(apparent ++ ','::target)) = some (source,apparent,target) := by
  rw [readLine, Text.splitOnce_char _ hs]
  simp only [Option.bind_eq_bind, Option.bind_some]
  rw [Text.splitOnce_char _ ha]
  rfl

/-- A line that is put before others is read before them. -/
theorem readLines_line {source apparent target : Text} (hs : ',' ∉ source ∧ '\n' ∉ source)
    (ha : ',' ∉ apparent ∧ '\n' ∉ apparent) (ht : '\n' ∉ target) (rest : Text) :
    readLines (Names.line source apparent target ++ rest) =
      (source,apparent,target)::readLines rest := by
  have hn : '\n' ∉ source ++ ','::(apparent ++ ','::target) := by
    simp [hs.2, ha.2, ht]
  have htext : Names.line source apparent target ++ rest =
      (source ++ ','::(apparent ++ ','::target)) ++ '\n'::rest := by
    simp [Names.line]
  rw [readLines, htext, splitOn_append, splitOn_of_not_mem hn, List.singleton_append,
    List.filterMap_cons_some (readLine_line hs.1 ha.1)]
  rfl

abbrev Row := Text × Text × Text

/-- What is written for a run. -/
def runRows (names : Names) (paths : List Text) (run : Text × List Text) : List Row :=
  (names.entries run.1).filterMap fun row =>
    if row.1.isEmpty || !names.withRunfiles paths row.2 then none
    else some (shownSource run.1 run.2,row.1,names.shown row.2)

theorem runLines_rows (run : Text × List Text) :
    names.runLines paths run =
      (runRows names paths run).flatMap fun row => Names.line row.1 row.2.1 row.2.2 := by
  rw [Names.runLines, runRows]
  induction names.entries run.1 with
  | nil => rfl
  | cons row rows ih =>
    rw [List.flatMap_cons, List.filterMap_cons]
    split
    · exact ih
    · rw [ih]
      rfl

theorem contents_rows : names.repoMappingContents paths sources =
    ((runs names.joins sources).flatMap (runRows names paths)).flatMap
      fun row => Names.line row.1 row.2.1 row.2.2 := by
  rw [Names.repoMappingContents, List.flatMap_assoc]
  exact List.flatMap_congr fun run _ => runLines_rows run

theorem readLines_rows {rows : List Row}
    (h : ∀ row ∈ rows, (',' ∉ row.1 ∧ '\n' ∉ row.1) ∧ (',' ∉ row.2.1 ∧ '\n' ∉ row.2.1) ∧ '\n' ∉ row.2.2) :
    readLines (rows.flatMap fun row => Names.line row.1 row.2.1 row.2.2) = rows := by
  induction rows with
  | nil => rfl
  | cons row rows ih =>
    obtain ⟨hs,ha,ht⟩ := h row List.mem_cons_self
    rw [List.flatMap_cons, readLines_line hs ha ht, ih fun r hr => h r (List.mem_cons_of_mem _ hr)]

theorem mem_runRows {run : Text × List Text} {source apparent target : Text} :
    (source,apparent,target) ∈ runRows names paths run ↔
      source = shownSource run.1 run.2 ∧ names.Sees paths run.1 apparent target := by
  rw [runRows, List.mem_filterMap]
  constructor
  · rintro ⟨⟨a,t⟩,hmem,he⟩
    split at he
    · cases he
    · next hcond =>
      cases he
      simp only [Bool.or_eq_true, not_or, Bool.not_eq_true, Bool.not_eq_false', List.isEmpty_eq_false_iff] at hcond
      exact ⟨rfl,hcond.1,t,hmem,hcond.2,rfl⟩
  · rintro ⟨rfl,hne,t,hmem,hwith,rfl⟩
    refine ⟨(apparent,t),hmem,?_⟩
    rw [if_neg]
    simp [hne, hwith]

/-- The stem begins the name, with a plus after it. -/
theorem stem_some {name text : Text} (h : stem name = some text) : text ++ ['+'] <+: name := by
  obtain ⟨⟨a,b⟩,hsplit,rfl⟩ := Option.map_eq_some_iff.mp h
  rw [(Recorded.rsplitOnce_some hsplit).1]
  exact ⟨b,by simp⟩

theorem joins_stem {x y : Text} (h : names.joins x y = true) :
    ∃ text, stem x = some text ∧ stem y = some text ∧ names.entries y = names.entries x := by
  rw [Names.joins, Bool.and_eq_true, beq_iff_eq] at h
  obtain ⟨hrows,hsame⟩ := h
  unfold samePrefix at hsame
  split at hsame
  · next a b ha hb =>
    rw [← beq_iff_eq.mp hsame] at hb
    exact ⟨a,ha,hb,hrows⟩
  · cases hsame

theorem joins_of {x y text : Text} (hx : stem x = some text) (hy : stem y = some text)
    (h : names.entries y = names.entries x) : names.joins x y = true := by
  rw [Names.joins, samePrefix, hx, hy]
  simp [h]

theorem joins_symm (x y : Text) (h : names.joins x y = true) : names.joins y x = true := by
  obtain ⟨text,hx,hy,hrows⟩ := joins_stem h
  exact joins_of hy hx hrows.symm

theorem joins_trans (x y z : Text) (h : names.joins x y = true) (h' : names.joins y z = true) :
    names.joins x z = true := by
  obtain ⟨text,hx,hy,hrows⟩ := joins_stem h
  obtain ⟨text',hy',hz,hrows'⟩ := joins_stem h'
  rw [hy] at hy'
  cases hy'
  exact joins_of hx hz (hrows'.trans hrows)

/-- A run of several is written with the stem of its first. -/
theorem shownSource_several {run : Text × List Text} (hrun : run ∈ runs names.joins sources)
    (hne : run.2 ≠ []) : ∃ text, stem run.1 = some text ∧ shownSource run.1 run.2 = text ++ ['+','*'] := by
  obtain ⟨y,rest,hrest⟩ := List.exists_cons_of_ne_nil hne
  obtain ⟨text,hx,-,-⟩ := joins_stem (runs_joined hrun y (by rw [hrest]; exact List.mem_cons_self))
  refine ⟨text,hx,?_⟩
  rw [shownSource, hx, hrest]
  rfl

theorem shownSource_one (name : Text) : shownSource name [] = name := by
  rw [shownSource]
  split <;> rfl

theorem head_mem {run : Text × List Text} (hrun : run ∈ runs names.joins sources) : run.1 ∈ sources := by
  have hflat : (runs names.joins sources).flatMap members = sources := runs_flatten sources
  rw [← hflat]
  exact List.mem_flatMap.mpr ⟨run,hrun,List.mem_cons_self⟩

variable (hplain : Plain names sources)

include hplain in
/-- The file is read as the rows of the runs. -/
theorem mem_contents {source apparent target : Text} :
    (source,apparent,target) ∈ readLines (names.repoMappingContents paths sources) ↔
      ∃ run ∈ runs names.joins sources,
        source = shownSource run.1 run.2 ∧ names.Sees paths run.1 apparent target := by
  rw [contents_rows, readLines_rows]
  · simp only [List.mem_flatMap, mem_runRows]
  · rintro ⟨s,a,t⟩ hrow
    obtain ⟨run,hrun,hrow⟩ := List.mem_flatMap.mp hrow
    obtain ⟨rfl,-,target,hmem,-,rfl⟩ := mem_runRows.mp hrow
    have hhead := head_mem hrun
    obtain ⟨hcomma,hline,-⟩ := hplain.source _ hhead
    refine ⟨?_,hplain.apparent _ hhead (a,target) hmem,hplain.target _ hhead (a,target) hmem⟩
    by_cases hone : run.2 = []
    · rw [hone, shownSource_one]
      exact ⟨hcomma,hline⟩
    · obtain ⟨text,hstem,htext⟩ := shownSource_several hrun hone
      obtain ⟨rest,hname⟩ := stem_some hstem
      rw [← hname] at hcomma hline
      rw [htext]
      simp only [List.mem_append, not_or, List.mem_cons] at hcomma hline ⊢
      exact ⟨⟨hcomma.1.1,by decide⟩,hline.1.1,by decide⟩

include hplain in
/-- A repository has a line of its own when its run is itself. -/
theorem mem_own {repo apparent target : Text} (hrepo : repo ∈ sources) :
    (repo,apparent,target) ∈ readLines (names.repoMappingContents paths sources) ↔
      (repo,[]) ∈ runs names.joins sources ∧ names.Sees paths repo apparent target := by
  rw [mem_contents hplain]
  constructor
  · rintro ⟨⟨head,rest⟩,hrun,hsource,hsees⟩
    cases rest with
    | nil =>
      rw [shownSource_one] at hsource
      rw [hsource]
      exact ⟨hrun,hsees⟩
    | cons y rest =>
      obtain ⟨text,-,htext⟩ := shownSource_several hrun (List.cons_ne_nil y rest)
      apply absurd _ (hplain.source repo hrepo).2.2
      rw [hsource, htext]
      simp
  · rintro ⟨hrun,hsees⟩
    exact ⟨_,hrun,(shownSource_one repo).symm,hsees⟩

include hplain in
/-- A line with a star is of a run of several. -/
theorem mem_starred {beginning apparent target : Text} :
    (beginning ++ ['*'],apparent,target) ∈ readLines (names.repoMappingContents paths sources) ↔
      ∃ run ∈ runs names.joins sources, run.2 ≠ [] ∧ (∃ text, stem run.1 = some text ∧
        beginning = text ++ ['+']) ∧ names.Sees paths run.1 apparent target := by
  rw [mem_contents hplain]
  constructor
  · rintro ⟨⟨head,rest⟩,hrun,hsource,hsees⟩
    cases rest with
    | nil =>
      rw [shownSource_one] at hsource
      have hhead : head = beginning ++ ['*'] := hsource.symm
      apply absurd _ (hplain.source head (head_mem hrun)).2.2
      rw [hhead]
      simp
    | cons y rest =>
      obtain ⟨text,hstem,htext⟩ := shownSource_several hrun (List.cons_ne_nil y rest)
      refine ⟨_,hrun,List.cons_ne_nil y rest,⟨text,hstem,?_⟩,hsees⟩
      rw [htext] at hsource
      have hstar : text ++ ['+','*'] = (text ++ ['+']) ++ ['*'] := by simp
      exact List.append_cancel_right (hsource.trans hstar)
  · rintro ⟨run,hrun,hne,⟨text,hstem,rfl⟩,hsees⟩
    obtain ⟨text',hstem',htext⟩ := shownSource_several hrun hne
    rw [hstem] at hstem'
    cases hstem'
    exact ⟨run,hrun,by rw [htext]; simp,hsees⟩

end Lines

section Exact

variable {names : Names} {paths sources : List Text}

theorem own_run_iff (hn : sources.Nodup) {repo : Text} (hrepo : repo ∈ sources) :
    (repo,[]) ∈ runs names.joins sources ↔ Alone names sources repo := by
  constructor
  · intro hrun z hz
    rw [Bool.eq_false_iff]
    intro hjoins
    have hself : repo ∈ members (repo,[]) := List.mem_cons_self
    have hother : ∃ q ∈ runs names.joins sources, q.2 ≠ [] ∧ repo ∈ members q := by
      rcases hz with hz | hz
      · obtain ⟨q,hq,hne,hmem,-⟩ := runs_adjacent joins_trans hz hjoins
        exact ⟨q,hq,hne,hmem⟩
      · obtain ⟨q,hq,hne,-,hmem⟩ := runs_adjacent joins_trans hz (joins_symm _ _ hjoins)
        exact ⟨q,hq,hne,hmem⟩
    obtain ⟨q,hq,hne,hmem⟩ := hother
    exact hne (by rw [run_unique hn hq hrun hmem hself])
  · intro halone
    obtain ⟨⟨head,rest⟩,hq,hmem⟩ := mem_run hrepo
    by_cases hne : rest = []
    · subst hne
      rw [members, List.mem_singleton] at hmem
      rwa [hmem]
    · obtain ⟨z,hjoins,hz⟩ := adjacent_of_run joins_symm joins_trans hq hne hmem
      rw [halone z hz] at hjoins
      cases hjoins

/-- Members of a run see the same. -/
theorem sees_run {run : Text × List Text} (hrun : run ∈ runs names.joins sources) {repo : Text}
    (hmem : repo ∈ members run) {apparent target : Text} :
    names.Sees paths repo apparent target ↔ names.Sees paths run.1 apparent target := by
  rcases List.mem_cons.mp hmem with rfl | hmem
  · rfl
  · obtain ⟨-,-,-,hrows⟩ := joins_stem (runs_joined hrun repo hmem)
    rw [Names.Sees, Names.Sees, hrows]

theorem stem_run {run : Text × List Text} (hrun : run ∈ runs names.joins sources) {repo text : Text}
    (hmem : repo ∈ members run) (hstem : stem run.1 = some text) : stem repo = some text := by
  rcases List.mem_cons.mp hmem with rfl | hmem
  · exact hstem
  · obtain ⟨text',hx,hy,-⟩ := joins_stem (runs_joined hrun repo hmem)
    rw [hstem] at hx
    cases hx
    exact hy

variable (hplain : Plain names sources)

include hplain in
/-- What a repository sees is found, in its own line or in the one of its run. -/
theorem gives_of_sees (hn : sources.Nodup) {repo apparent target : Text} (hrepo : repo ∈ sources)
    (hsees : names.Sees paths repo apparent target) :
    Gives (names.repoMappingContents paths sources) repo apparent target := by
  by_cases hone : (repo,[]) ∈ runs names.joins sources
  · exact Or.inl ((mem_own hplain hrepo).mpr ⟨hone,hsees⟩)
  · refine Or.inr ⟨fun t ht => hone ((mem_own hplain hrepo).mp ht).1,?_⟩
    obtain ⟨run,hrun,hmem⟩ : ∃ run ∈ runs names.joins sources, repo ∈ members run := mem_run hrepo
    have hne : run.2 ≠ [] := by
      intro hnil
      obtain ⟨head,rest⟩ := run
      cases hnil
      rw [members, List.mem_singleton] at hmem
      rw [hmem] at hone
      exact hone hrun
    obtain ⟨text,hstem,-⟩ := shownSource_several hrun hne
    refine ⟨text ++ ['+'],(mem_starred hplain).mpr ⟨run,hrun,hne,⟨text,hstem,rfl⟩,?_⟩,?_⟩
    · exact (sees_run hrun hmem).mp hsees
    · exact stem_some (stem_run hrun hmem hstem)

include hplain in
/-- The file says of each repository what it sees, unless a line of several repositories
says more of another whose name begins as theirs do. -/
theorem mapping_told_iff (hn : sources.Nodup) :
    (∀ repo ∈ sources, ∀ apparent target,
      Gives (names.repoMappingContents paths sources) repo apparent target ↔
        names.Sees paths repo apparent target) ↔ NoneInvented names paths sources := by
  constructor
  · intro hexact x y hadj hjoins r hr text hstem hbegins apparent target hsees
    obtain ⟨run,hrun,hne,hx,-⟩ := runs_adjacent joins_trans hadj hjoins
    obtain ⟨text',hhead,-⟩ := shownSource_several hrun hne
    have htext := stem_run hrun hx hhead
    rw [hstem] at htext
    cases htext
    by_cases hown : ∃ t, (r,apparent,t) ∈ readLines (names.repoMappingContents paths sources)
    · obtain ⟨t,ht⟩ := hown
      obtain ⟨hone,hsee⟩ := (mem_own hplain hr).mp ht
      exact Or.inr ⟨(own_run_iff hn hr).mp hone,t,hsee⟩
    · push Not at hown
      refine Or.inl ((hexact r hr apparent target).mp (Or.inr ⟨hown,text ++ ['+'],?_,hbegins⟩))
      exact (mem_starred hplain).mpr ⟨run,hrun,hne,⟨text,hhead,rfl⟩,(sees_run hrun hx).mp hsees⟩
  · intro hnone repo hrepo apparent target
    refine ⟨?_,gives_of_sees hplain hn hrepo⟩
    rintro (hown | ⟨hnot,beginning,hstar,hbegins⟩)
    · exact ((mem_own hplain hrepo).mp hown).2
    · obtain ⟨run,hrun,hne,⟨text,hstem,rfl⟩,hsees⟩ := (mem_starred hplain).mp hstar
      obtain ⟨z,hjoins,hz⟩ := adjacent_of_run joins_symm joins_trans hrun hne List.mem_cons_self
      have hothers : names.Sees paths repo apparent target ∨
          Alone names sources repo ∧ ∃ t, names.Sees paths repo apparent t := by
        rcases hz with hz | hz
        · exact hnone _ _ hz hjoins repo hrepo text hstem hbegins apparent target hsees
        · obtain ⟨text',hx,hy,hrows⟩ := joins_stem hjoins
          rw [hstem] at hx
          cases hx
          apply hnone _ _ hz (joins_symm _ _ hjoins) repo hrepo text hy hbegins apparent target
          rw [Names.Sees, hrows]
          exact hsees
      rcases hothers with h | ⟨halone,t,hsee⟩
      · exact h
      · apply absurd _ (hnot t)
        exact (mem_own hplain hrepo).mpr ⟨(own_run_iff hn hrepo).mpr halone,hsee⟩

end Exact

section Nested

/-- Two repositories of one extension call another `x`, and one made by an extension of a
third does not. -/
def nestedNames : Names where
  entries repo := if repo = "m++e+a+f+z".toList then [("y".toList,"m".toList)] else [("x".toList,"m".toList)]
  mainName := "_main".toList
  repoNames := id

def nestedSources : List Text := ["m++e+a+f+z".toList, "m++e+b".toList, "m++e+c".toList]

theorem mapping_told_iff_nested :
    (∀ repo ∈ nestedSources, ∀ apparent target,
      Gives (nestedNames.repoMappingContents ["m/f".toList] nestedSources) repo apparent target ↔
        nestedNames.Sees ["m/f".toList] repo apparent target) ↔
      NoneInvented nestedNames ["m/f".toList] nestedSources := by
  refine mapping_told_iff ⟨by decide,?_,?_⟩ (by decide)
  · decide
  · decide

/-- The line of the two is read for the third, which has no `x`. -/
theorem nested_invents :
    nestedSources.Pairwise (· < ·) ∧
    (∀ a ∈ nestedSources, ∀ b ∈ nestedSources, samePrefix a b = true →
      nestedNames.entries a = nestedNames.entries b) ∧
    Gives (nestedNames.repoMappingContents ["m/f".toList] nestedSources) "m++e+a+f+z".toList "x".toList
      "m".toList ∧
    ¬ nestedNames.Sees ["m/f".toList] "m++e+a+f+z".toList "x".toList "m".toList := by
  have hlines : readLines (nestedNames.repoMappingContents ["m/f".toList] nestedSources) =
      [("m++e+a+f+z".toList,"y".toList,"m".toList),("m++e+*".toList,"x".toList,"m".toList)] := by
    decide
  refine ⟨by decide,by decide,Or.inr ⟨?_,"m++e+".toList,?_,?_⟩,?_⟩
  · rw [hlines]
    simp
  · rw [hlines]
    simp
  · decide
  · rintro ⟨-,t,hmem,-⟩
    have hnames : ∀ row ∈ nestedNames.entries "m++e+a+f+z".toList, row.1 ≠ "x".toList := by decide
    exact hnames _ hmem rfl

end Nested

end BuildFiji.RunfilesTree
