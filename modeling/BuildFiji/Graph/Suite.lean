import BuildFiji.Graph.Label
import BuildFiji.Lib.FirstOccurrence
import BuildFiji.Lib.SimplePaths

/-!
# Test suites

A suite stands for the tests that it lists, or for those of its package if it lists none, and
for what the suites that it lists stand for. Its tags filter the tests that it names itself.
-/

set_option autoImplicit false
set_option linter.all false

namespace BuildFiji.Suite

open BuildFiji.Graph BuildFiji.SimplePaths

/-- What the filter of a suite reads of a test. -/
structure SuiteTest where
  tags : List String
  size : String
deriving DecidableEq

inductive Member where
  | test (test : SuiteTest)
  | suite (tests : List Label) (tags : List String)
  | other
deriving DecidableEq

/-- Where the suites are. -/
structure Suites where
  member : Label → Except String Member
  packageTests : Label → Except String (List (Label × SuiteTest))

inductive SuiteError where
  | notATest (suite member : Label)
  | cycle (suites : List Label)
  | other (message : String)
deriving DecidableEq

/-- `Display` of a label. -/
def displayLabel (label : Label) : String :=
  if label.repo = "" then "//" ++ label.package ++ ":" ++ label.name
  else "@" ++ label.repo ++ "//" ++ label.package ++ ":" ++ label.name

def has (test : SuiteTest) (tag : String) : Bool := test.size == tag || test.tags.contains tag

/-- Asking for `manual` asks for nothing. -/
def passes (tags : List String) (test : SuiteTest) : Bool :=
  tags.all fun tag =>
    match tag.toList with
    | '-'::excluded => !has test (.ofList excluded)
    | _ => tag == "manual" || has test tag

section Walk
variable (suites : Suites)

/-- What a suite names. Without a list, what is tagged `manual` is not in it. -/
def listed (suite : Label) (tests : List Label) : Except SuiteError (List (Label × Member)) :=
  if tests.isEmpty then
    match suites.packageTests suite with
    | .error e => .error (.other e)
    | .ok found =>
      .ok ((found.filter fun t => !t.2.tags.contains "manual").map fun t => (t.1,.test t.2))
  else tests.mapM fun l =>
    match suites.member l with
    | .error e => .error (.other e)
    | .ok member => .ok (l,member)

variable (strict : Bool)

/-- The members of a suite, one after another. `none` is a walk that has not come to its end. -/
def walkMembers (walk : Label → List Label → Option (Except SuiteError (List Label))) (suite : Label)
    (tags : List String) (onPath : List Label) :
    List (Label × Member) → Option (Except SuiteError (List Label))
  | [] => some (.ok [])
  | (label,member)::rest =>
    match member with
    | .test test =>
      (walkMembers walk suite tags onPath rest).map fun later =>
        later.map fun out => if passes tags test then label::out else out
    | .suite _ _ =>
      if label ∈ onPath then
        if strict then some (.error (.cycle (onPath.dropWhile (· ≠ label) ++ [label])))
        else walkMembers walk suite tags onPath rest
      else
        match walk label (onPath ++ [label]) with
        | none => none
        | some (.error e) => some (.error e)
        | some (.ok found) =>
          (walkMembers walk suite tags onPath rest).map fun later => later.map (found ++ ·)
    | .other =>
      if strict then some (.error (.notATest suite label)) else walkMembers walk suite tags onPath rest

/-- `walk`, with so much fuel for its own calls. -/
def walk : ℕ → Label → List Label → Option (Except SuiteError (List Label))
  | 0, _, _ => none
  | fuel+1, suite, onPath =>
    match suites.member suite with
    | .error e => some (.error (.other e))
    | .ok (.suite tests tags) =>
      match listed suites suite tests with
      | .error e => some (.error e)
      | .ok members => walkMembers strict (walk fuel) suite tags onPath members
    | .ok _ => some (.error (.other (displayLabel suite ++ " is not a test_suite")))

/-- The tests that a suite stands for, each once, in the order they were found. -/
def expand (fuel : ℕ) (suite : Label) : Option (Except SuiteError (List Label)) :=
  (walk suites strict fuel suite [suite]).map fun found => found.map List.eraseDups

end Walk

section World

/-- What each label is, and what tests the package of a label has. -/
structure World where
  members : Label → Member
  packageTests : Label → List (Label × SuiteTest)

namespace World
variable (w : World)

def suites : Suites := ⟨fun l => .ok (w.members l),fun l => .ok (w.packageTests l)⟩

def IsSuite (l : Label) : Prop := ∃ tests tags, w.members l = .suite tests tags

/-- What a suite names itself. -/
def names (s : Label) : List (Label × Member) :=
  match w.members s with
  | .suite tests _ =>
    if tests.isEmpty then
      ((w.packageTests s).filter fun t => !t.2.tags.contains "manual").map fun t => (t.1,.test t.2)
    else tests.map fun l => (l,w.members l)
  | _ => []

def tags (s : Label) : List String :=
  match w.members s with
  | .suite _ tags => tags
  | _ => []

def Lists (s c : Label) : Prop := ∃ tests tags, (c,.suite tests tags) ∈ w.names s

/-- The test is named by the suite, and passes its tags. -/
def Direct (s t : Label) : Prop := ∃ test, (t,.test test) ∈ w.names s ∧ passes (w.tags s) test = true

/-- The suite lists what is neither a test nor a suite. -/
def Wrong (s : Label) : Prop := ∃ l, (l,.other) ∈ w.names s

variable {w} {s c t : Label} {path : List Label} {fuel : ℕ} {strict : Bool}

theorem suite_of_lists (h : w.Lists s c) : w.IsSuite c := by
  obtain ⟨tests,tags,hmem⟩ := h
  unfold names at hmem
  split at hmem
  · split at hmem
    · obtain ⟨t,-,heq⟩ := List.mem_map.mp hmem
      cases heq
    · obtain ⟨l,-,heq⟩ := List.mem_map.mp hmem
      obtain ⟨rfl,hmember⟩ := Prod.mk.inj heq
      exact ⟨tests,tags,hmember⟩
  · cases hmem

theorem listed_names {tests : List Label} {tags : List String} (h : w.members s = .suite tests tags) :
    listed w.suites s tests = .ok (w.names s) := by
  rw [listed, names, h]
  dsimp only
  split
  · rfl
  · exact List.mapM_pure (m := Except SuiteError)

theorem walk_succ (h : w.IsSuite s) : walk w.suites strict (fuel+1) s path =
    walkMembers strict (walk w.suites strict fuel) s (w.tags s) path (w.names s) := by
  obtain ⟨tests,tags,hs⟩ := h
  have hmember : w.suites.member s = .ok (.suite tests tags) := congrArg Except.ok hs
  have htags : w.tags s = tags := by rw [World.tags, hs]
  rw [walk, hmember, htags]
  dsimp only
  rw [listed_names hs]

theorem walkMembers_some {rec : Label → List Label → Option (Except SuiteError (List Label))}
    {suite : Label} {tags : List String} {l : List (Label × Member)}
    (hrec : ∀ c tests tags, (c,.suite tests tags) ∈ l → c ∉ path → (rec c (path ++ [c])).isSome = true) :
    (walkMembers strict rec suite tags path l).isSome = true := by
  induction l with
  | nil => rfl
  | cons e l ih =>
    obtain ⟨label,member⟩ := e
    have hlater := ih fun c tests tags h => hrec c tests tags (List.mem_cons_of_mem _ h)
    cases member with
    | test test =>
      rw [walkMembers, Option.isSome_map]
      exact hlater
    | suite tests tags' =>
      rw [walkMembers]
      split
      · split
        · rfl
        · exact hlater
      · next hc =>
        have hsome := hrec label tests tags' List.mem_cons_self hc
        split
        · next hnone =>
          rw [hnone] at hsome
          cases hsome
        · rfl
        · rw [Option.isSome_map]
          exact hlater
    | other =>
      rw [walkMembers]
      split
      · rfl
      · exact hlater

/-- On a path of suites that is not longer than they are, the walk comes to its end. -/
theorem walk_some (strict : Bool) {all : Finset Label} (hall : ∀ l, w.IsSuite l → l ∈ all) (hs : w.IsSuite s)
    (hfuel : Digraph.unseen all path < fuel) : (walk w.suites strict fuel s path).isSome = true := by
  induction fuel generalizing s path with
  | zero => exact absurd hfuel (Nat.not_lt_zero _)
  | succ fuel ih =>
    rw [walk_succ hs]
    refine walkMembers_some fun c tests tags hmem hc => ?_
    have hsuite := suite_of_lists ⟨tests,tags,hmem⟩
    exact ih hsuite ((Digraph.unseen_push all (hall c hsuite) hc).trans_le (Nat.le_of_lt_succ hfuel))

/-- A suite that the walk comes to names the test. -/
def Found (w : World) (path : List Label) (s t : Label) : Prop :=
  ∃ path' s', Along w.Lists path s path' s' ∧ w.Direct s' t

/-- The walk comes to no suite that lists what it may not, and never back to its path. -/
def Clean (w : World) (path : List Label) (s : Label) : Prop :=
  ∀ path' s', Along w.Lists path s path' s' → ¬ w.Wrong s' ∧ ∀ c, w.Lists s' c → c ∉ path'

theorem found_iff : w.Found path s t ↔
    w.Direct s t ∨ ∃ c, w.Lists s c ∧ c ∉ path ∧ w.Found (path ++ [c]) c t := by
  constructor
  · rintro ⟨path',s',halong,ht⟩
    cases halong with
    | here => exact .inl ht
    | step he hc halong => exact .inr ⟨_,he,hc,path',s',halong,ht⟩
  · rintro (ht | ⟨c,he,hc,path',s',halong,ht⟩)
    · exact ⟨path,s,.here,ht⟩
    · exact ⟨path',s',.step he hc halong,ht⟩

theorem clean_iff : w.Clean path s ↔
    (¬ w.Wrong s ∧ ∀ c, w.Lists s c → c ∉ path) ∧
      ∀ c, w.Lists s c → w.Clean (path ++ [c]) c := by
  constructor
  · intro h
    refine ⟨h path s .here,fun c he path' s' halong => ?_⟩
    exact h path' s' (.step he ((h path s .here).2 c he) halong)
  · rintro ⟨hhere,hlater⟩ path' s' halong
    cases halong with
    | here => exact hhere
    | step he _ halong => exact hlater _ he path' s' halong

section Members
variable {rec : Label → List Label → Option (Except SuiteError (List Label))}
variable {suite : Label} {tags : List String} {l : List (Label × Member)}
variable {r : Except SuiteError (List Label)} {out : List Label}

/-- What a member gives, if `F` is what a suite gives. -/
def Gives (F : List Label → Label → Label → Prop) (tags : List String) (path : List Label)
    (e : Label × Member) (t : Label) : Prop :=
  match e.2 with
  | .test test => t = e.1 ∧ passes tags test = true
  | .suite _ _ => e.1 ∉ path ∧ F (path ++ [e.1]) e.1 t
  | .other => False

theorem map_some_ok {f : List Label → List Label} {later : Option (Except SuiteError (List Label))}
    (h : later.map (fun r => r.map f) = some r) : ∃ r', later = some r' ∧ r = r'.map f := by
  obtain ⟨r',hr',rfl⟩ := Option.map_eq_some_iff.mp h
  exact ⟨r',hr',rfl⟩

/-- What is found among some members, when nothing is an error. -/
theorem walkMembers_found {F : List Label → Label → Label → Prop}
    (hrec : ∀ e ∈ l, ∀ tests tags', e.2 = .suite tests tags' → ∀ r, rec e.1 (path ++ [e.1]) = some r →
      ∃ out, r = .ok out ∧ ∀ t, t ∈ out ↔ F (path ++ [e.1]) e.1 t)
    (h : walkMembers false rec suite tags path l = some r) :
    ∃ out, r = .ok out ∧ ∀ t, t ∈ out ↔ ∃ e ∈ l, Gives F tags path e t := by
  induction l generalizing r with
  | nil =>
    cases h
    exact ⟨[],rfl,fun t => by simp⟩
  | cons e l ih =>
    obtain ⟨label,member⟩ := e
    have hlater := fun e he => hrec e (List.mem_cons_of_mem _ he)
    simp only [List.exists_mem_cons_iff]
    cases member with
    | test test =>
      rw [walkMembers] at h
      obtain ⟨r',hr',rfl⟩ := map_some_ok h
      obtain ⟨out,rfl,hout⟩ := ih hlater hr'
      refine ⟨_,rfl,fun t => ?_⟩
      split
      · next hpasses =>
        rw [List.mem_cons, hout]
        exact or_congr_left (and_iff_left hpasses).symm
      · next hno =>
        rw [hout, Gives]
        exact (or_iff_right fun hgives => hno hgives.2).symm
    | suite tests tags' =>
      rw [walkMembers] at h
      split at h
      · next hc =>
        rw [if_neg Bool.false_ne_true] at h
        obtain ⟨out,rfl,hout⟩ := ih hlater h
        refine ⟨out,rfl,fun t => ?_⟩
        rw [hout, Gives]
        exact (or_iff_right fun hgives => hgives.1 hc).symm
      · next hc =>
        have hhead := hrec (label,.suite tests tags') List.mem_cons_self tests tags' rfl
        split at h
        · cases h
        · next e he =>
          obtain ⟨out,hout,-⟩ := hhead _ he
          cases hout
        · next found hfound =>
          obtain ⟨r',hr',rfl⟩ := map_some_ok h
          obtain ⟨out,rfl,hout⟩ := ih hlater hr'
          obtain ⟨found',heq,hmem⟩ := hhead _ hfound
          cases heq
          refine ⟨_,rfl,fun t => ?_⟩
          rw [List.mem_append, hout, hmem, Gives]
          exact or_congr_left (and_iff_right hc).symm
    | other =>
      rw [walkMembers, if_neg Bool.false_ne_true] at h
      obtain ⟨out,rfl,hout⟩ := ih hlater h
      refine ⟨out,rfl,fun t => ?_⟩
      rw [hout, Gives]
      exact (or_iff_right id).symm

/-- With and without `strict`, what is found is the same. -/
theorem walkMembers_lenient {rec' : Label → List Label → Option (Except SuiteError (List Label))}
    (hrec : ∀ e ∈ l, ∀ tests tags', e.2 = .suite tests tags' → ∀ path out,
      rec e.1 path = some (.ok out) → rec' e.1 path = some (.ok out))
    (h : walkMembers true rec suite tags path l = some (.ok out)) :
    walkMembers false rec' suite tags path l = some (.ok out) := by
  induction l generalizing out with
  | nil => exact h
  | cons e l ih =>
    obtain ⟨label,member⟩ := e
    have hlater := fun e he => hrec e (List.mem_cons_of_mem _ he)
    cases member with
    | test test =>
      rw [walkMembers] at h ⊢
      obtain ⟨r',hr',heq⟩ := map_some_ok h
      cases r' with
      | error e => cases heq
      | ok later =>
        rw [ih hlater hr', heq]
        rfl
    | suite tests tags' =>
      rw [walkMembers] at h ⊢
      split at h
      · cases h
      · next hc =>
        rw [if_neg hc]
        split at h
        · cases h
        · cases h
        · next found hfound =>
          obtain ⟨r',hr',heq⟩ := map_some_ok h
          cases r' with
          | error e => cases heq
          | ok later =>
            rw [hrec (label,.suite tests tags') List.mem_cons_self tests tags' rfl _ _ hfound,
              ih hlater hr', heq]
            rfl
    | other =>
      rw [walkMembers, if_pos rfl] at h
      cases h

/-- Nothing among some members is an error, if `C` is that nothing in a suite is. -/
def AllRight (C : List Label → Label → Prop) (path : List Label) (e : Label × Member) : Prop :=
  match e.2 with
  | .test _ => True
  | .suite _ _ => e.1 ∉ path ∧ C (path ++ [e.1]) e.1
  | .other => False

theorem walkMembers_strict {C : List Label → Label → Prop}
    (hrec : ∀ e ∈ l, ∀ tests tags', e.2 = .suite tests tags' → ∀ r, rec e.1 (path ++ [e.1]) = some r →
      ((∃ out, r = .ok out) ↔ C (path ++ [e.1]) e.1))
    (h : walkMembers true rec suite tags path l = some r) :
    (∃ out, r = .ok out) ↔ ∀ e ∈ l, AllRight C path e := by
  have herror : ∀ e : SuiteError, ¬ ∃ out : List Label, Except.error e = Except.ok out :=
    fun _ ⟨_,h⟩ => nomatch h
  have hmap : ∀ (f : List Label → List Label) (r : Except SuiteError (List Label)),
      (∃ out, r.map f = .ok out) ↔ ∃ out, r = .ok out := by
    intro f r
    cases r with
    | error e => exact iff_of_false (herror e) (herror e)
    | ok out => exact iff_of_true ⟨_,rfl⟩ ⟨_,rfl⟩
  induction l generalizing r with
  | nil =>
    cases h
    exact iff_of_true ⟨[],rfl⟩ fun e he => nomatch he
  | cons e l ih =>
    obtain ⟨label,member⟩ := e
    have hlater := fun e he => hrec e (List.mem_cons_of_mem _ he)
    rw [List.forall_mem_cons]
    cases member with
    | test test =>
      rw [walkMembers] at h
      obtain ⟨r',hr',rfl⟩ := map_some_ok h
      exact (hmap _ _).trans ((ih hlater hr').trans (and_iff_right trivial).symm)
    | suite tests tags' =>
      rw [walkMembers] at h
      split at h
      · next hc =>
        rw [if_pos rfl, Option.some.injEq] at h
        subst h
        exact iff_of_false (herror _) fun hall => hall.1.1 hc
      · next hc =>
        have hhead := hrec (label,.suite tests tags') List.mem_cons_self tests tags' rfl
        split at h
        · cases h
        · next e he =>
          rw [Option.some.injEq] at h
          subst h
          exact iff_of_false (herror e) fun hall => herror e ((hhead _ he).mpr hall.1.2)
        · next found hfound =>
          obtain ⟨r',hr',rfl⟩ := map_some_ok h
          have hclean := (hhead _ hfound).mp ⟨found,rfl⟩
          exact (hmap _ _).trans ((ih hlater hr').trans (and_iff_right ⟨hc,hclean⟩).symm)
    | other =>
      rw [walkMembers, if_pos rfl, Option.some.injEq] at h
      subst h
      exact iff_of_false (herror _) fun hall => hall.1

end Members

theorem gives_iff : (∃ e ∈ w.names s, Gives (w.Found) (w.tags s) path e t) ↔ w.Found path s t := by
  rw [found_iff]
  constructor
  · rintro ⟨⟨label,member⟩,hmem,hgives⟩
    cases member with
    | test test =>
      obtain ⟨rfl,hpasses⟩ := hgives
      exact .inl ⟨test,hmem,hpasses⟩
    | suite tests tags => exact .inr ⟨label,⟨tests,tags,hmem⟩,hgives⟩
    | other => exact hgives.elim
  · rintro (⟨test,hmem,hpasses⟩ | ⟨c,⟨tests,tags,hmem⟩,hgives⟩)
    · exact ⟨_,hmem,rfl,hpasses⟩
    · exact ⟨_,hmem,hgives⟩

theorem allRight_iff : (∀ e ∈ w.names s, AllRight w.Clean path e) ↔ w.Clean path s := by
  rw [clean_iff]
  constructor
  · intro h
    refine ⟨⟨fun ⟨l,hmem⟩ => h _ hmem,?_⟩,?_⟩
    · rintro c ⟨tests,tags,hmem⟩
      exact (h _ hmem).1
    · rintro c ⟨tests,tags,hmem⟩
      exact (h _ hmem).2
  · rintro ⟨⟨hwrong,hpath⟩,hclean⟩ ⟨label,member⟩ hmem
    cases member with
    | test test => trivial
    | suite tests tags => exact ⟨hpath label ⟨tests,tags,hmem⟩,hclean label ⟨tests,tags,hmem⟩⟩
    | other => exact hwrong ⟨label,hmem⟩

theorem suite_of_names {e : Label × Member} (he : e ∈ w.names s) {tests : List Label} {tags : List String}
    (h : e.2 = .suite tests tags) : w.IsSuite e.1 :=
  suite_of_lists ⟨tests,tags,by rw [← h]; exact he⟩

/-- Without `strict` the walk finds the tests of all that it comes to. -/
theorem walk_found (hs : w.IsSuite s) {r : Except SuiteError (List Label)}
    (h : walk w.suites false fuel s path = some r) :
    ∃ out, r = .ok out ∧ ∀ t, t ∈ out ↔ w.Found path s t := by
  induction fuel generalizing s path r with
  | zero => cases h
  | succ fuel ih =>
    rw [walk_succ hs] at h
    obtain ⟨out,hr,hout⟩ := walkMembers_found (F := w.Found)
      (fun e he tests tags heq r hr => ih (suite_of_names he heq) hr) h
    exact ⟨out,hr,fun t => (hout t).trans gives_iff⟩

theorem walk_lenient (hs : w.IsSuite s) {out : List Label}
    (h : walk w.suites true fuel s path = some (.ok out)) :
    walk w.suites false fuel s path = some (.ok out) := by
  induction fuel generalizing s path out with
  | zero => cases h
  | succ fuel ih =>
    rw [walk_succ hs] at h ⊢
    exact walkMembers_lenient (fun e he tests tags heq path out hout => ih (suite_of_names he heq) hout) h

/-- With `strict` the walk succeeds if all that it comes to is right. -/
theorem walk_strict (hs : w.IsSuite s) {r : Except SuiteError (List Label)}
    (h : walk w.suites true fuel s path = some r) : (∃ out, r = .ok out) ↔ w.Clean path s := by
  induction fuel generalizing s path r with
  | zero => cases h
  | succ fuel ih =>
    rw [walk_succ hs] at h
    exact (walkMembers_strict (C := w.Clean)
      (fun e he tests tags heq r hr => ih (suite_of_names he heq) hr) h).trans allRight_iff

theorem found_self : w.Found [s] s t ↔ ∃ s', Relation.ReflTransGen w.Lists s s' ∧ w.Direct s' t := by
  constructor
  · rintro ⟨path',s',halong,ht⟩
    exact ⟨s',halong.reached,ht⟩
  · rintro ⟨s',hs',ht⟩
    obtain ⟨path',halong⟩ := along_iff.mpr hs'
    exact ⟨path',s',halong,ht⟩

theorem clean_self : w.Clean [s] s ↔ (∀ s', Relation.ReflTransGen w.Lists s s' → ¬ w.Wrong s') ∧
    ∀ s', Relation.ReflTransGen w.Lists s s' → ¬ Relation.TransGen w.Lists s' s' := by
  rw [← along_acyclic]
  constructor
  · refine fun h => ⟨fun s' hs' => ?_,fun path' s' halong => (h path' s' halong).2⟩
    obtain ⟨path',halong⟩ := along_iff.mpr hs'
    exact (h path' s' halong).1
  · exact fun h path' s' halong => ⟨h.1 s' halong.reached,h.2 path' s' halong⟩

/-- A suite stands for the tests that the suites it leads to name, each filtered by the tags of
the suite that names it. With `strict` nothing that it leads to may list what is neither a test nor
a suite, or lead back to itself. -/
theorem expand_closure (all : Finset Label) (hall : ∀ l, w.IsSuite l → l ∈ all) (hs : w.IsSuite s)
    (hfuel : all.card < fuel) :
    (∃ out, expand w.suites false fuel s = some (.ok out) ∧ out.Nodup ∧
      ∀ t, t ∈ out ↔ ∃ s', Relation.ReflTransGen w.Lists s s' ∧ w.Direct s' t) ∧
    ∃ r, expand w.suites true fuel s = some r ∧
      ((∃ out, r = .ok out) ↔ (∀ s', Relation.ReflTransGen w.Lists s s' → ¬ w.Wrong s') ∧
        ∀ s', Relation.ReflTransGen w.Lists s s' → ¬ Relation.TransGen w.Lists s' s') ∧
      ∀ out, r = .ok out → expand w.suites false fuel s = some (.ok out) := by
  have hunseen : Digraph.unseen all [s] < fuel :=
    (Finset.card_le_card Finset.sdiff_subset).trans_lt hfuel
  obtain ⟨lenient,hlenient⟩ := Option.isSome_iff_exists.mp (walk_some false hall hs hunseen)
  obtain ⟨found,rfl,hfound⟩ := walk_found hs hlenient
  have hexpand : expand w.suites false fuel s = some (.ok found.eraseDups) := by
    rw [expand, hlenient]
    rfl
  refine ⟨⟨_,hexpand,FirstOccurrence.nodup_eraseDups _,fun t => ?_⟩,?_⟩
  · rw [List.mem_eraseDups, hfound, found_self]
  obtain ⟨r,hr⟩ := Option.isSome_iff_exists.mp (walk_some true hall hs hunseen)
  have hstrict := walk_strict hs hr
  rw [clean_self] at hstrict
  refine ⟨r.map List.eraseDups,by rw [expand, hr]; rfl,?_,?_⟩
  · rw [← hstrict]
    cases r with
    | error e => exact ⟨(fun ⟨_,h⟩ => nomatch h),(fun ⟨_,h⟩ => nomatch h)⟩
    | ok out => exact ⟨fun _ => ⟨out,rfl⟩,fun _ => ⟨_,rfl⟩⟩
  · intro out hout
    cases r with
    | error e => cases hout
    | ok out' =>
      rw [expand, walk_lenient hs hr, ← hout]
      rfl

def outer : Label := ⟨"","p","outer"⟩

def inner : Label := ⟨"","p","inner"⟩

def exampleWorld : World where
  members l :=
    if l = outer then .suite [inner,⟨"","p","t"⟩] ["fast"]
    else if l = inner then .suite [outer,⟨"","p","t"⟩] ["-fast"]
    else .test ⟨["fast"],"small"⟩
  packageTests _ := []

theorem expand_closure_outer :
    (∃ out, expand exampleWorld.suites false 3 outer = some (.ok out) ∧ ⟨"","p","t"⟩ ∈ out) ∧
      ∀ out, expand exampleWorld.suites true 3 outer ≠ some (.ok out) := by
  have hall : ∀ l, exampleWorld.IsSuite l → l ∈ ({outer,inner} : Finset Label) := by
    rintro l ⟨tests,tags,h⟩
    change (if l = outer then _ else if l = inner then _ else _) = _ at h
    split at h
    · next heq => rw [heq]; decide
    split at h
    · next heq => rw [heq]; decide
    · cases h
  obtain ⟨⟨out,hout,-,hmem⟩,r,hr,hstrict,-⟩ :=
    expand_closure (s := outer) {outer,inner} hall ⟨_,_,rfl⟩ (by decide : _ < 3)
  have hlists : exampleWorld.Lists outer inner := ⟨_,_,List.mem_cons_self⟩
  have hback : exampleWorld.Lists inner outer := ⟨_,_,List.mem_cons_self⟩
  refine ⟨⟨out,hout,(hmem _).mpr ⟨outer,.refl,⟨["fast"],"small"⟩,?_,by decide⟩⟩,fun found hfound => ?_⟩
  · exact List.mem_cons_of_mem _ List.mem_cons_self
  · rw [hr, Option.some.injEq] at hfound
    exact (hstrict.mp ⟨found,hfound⟩).2 outer .refl (.tail (.single hlists) hback)

end World

end World

end BuildFiji.Suite
