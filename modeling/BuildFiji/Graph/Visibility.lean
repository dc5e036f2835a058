import BuildFiji.Graph.Label
import BuildFiji.Lib.Worklist
import Mathlib.Data.Set.Finite.Basic

/-!
# Visibility

A target lists packages and package groups that may see it, and a group its own packages
and other groups. The groups are walked with a stack, each once. What a spec with a minus
excludes is excluded wherever it stands.
-/

set_option autoImplicit false
set_option linter.all false

namespace BuildFiji.Graph

open Relation

/-- The packages that one specification matches. -/
inductive PackageScope where
  | «public»
  | repo (repo : String)
  | package (repo package : String)
  | subpackages (repo package : String)
  deriving DecidableEq

def PackageScope.contains (repo package : String) : PackageScope → Bool
  | .public => true
  | .repo r => r == repo
  | .package r p => r == repo && p == package
  | .subpackages r p =>
    r == repo && (p == "" || package == p ||
      (p.toList.isPrefixOf package.toList && (package.toList.drop p.length).head? == some '/'))

structure PackageSpec where
  negated : Bool
  scope : PackageScope
  deriving DecidableEq

structure PackageGroup where
  specs : List PackageSpec
  includes : List Label
  deriving DecidableEq

inductive VisibilityEntry where
  | scope (scope : PackageScope)
  | group (label : Label)
  deriving DecidableEq

/-- A `visibility` attribute; empty means private. -/
structure Visibility where
  entries : List VisibilityEntry
  deriving DecidableEq

inductive VisibilityError where
  | noSuchGroup (label : Label)
  deriving DecidableEq

namespace Visibility

def scopes (visibility : Visibility) : List PackageScope := visibility.entries.filterMap fun entry =>
  match entry with
  | .scope scope => some scope
  | .group _ => none

def groups (visibility : Visibility) : List Label := visibility.entries.filterMap fun entry =>
  match entry with
  | .scope _ => none
  | .group label => some label

/-- What the specs of the groups and the listed scopes come to. -/
def grants (visibility : Visibility) (specs : List PackageSpec) (asking : String × String) : Bool :=
  let (repo,package) := asking
  let denied := specs.any fun s => s.negated && s.scope.contains repo package
  let allowed := visibility.scopes.any (fun s => s.contains repo package) ||
    specs.any fun s => !s.negated && s.scope.contains repo package
  allowed && !denied

end Visibility

section Walk
variable (group : Label → Option PackageGroup)

/-- The loop over `pending`, whose last is first here. -/
def collect : ℕ → List Label → List Label → List PackageSpec →
    Option (Except VisibilityError (List PackageSpec))
  | 0, _, _, _ => none
  | _+1, [], _, specs => some (.ok specs)
  | fuel+1, label::pending, seen, specs =>
    if label ∈ seen then collect fuel pending seen specs
    else
      match group label with
      | none => some (.error (.noSuchGroup label))
      | some g => collect fuel (g.includes.reverse ++ pending) (seen ++ [label]) (specs ++ g.specs)

def isVisible (fuel : ℕ) (visibility : Visibility) (declared asking : String × String) :
    Option (Except VisibilityError Bool) :=
  if declared = asking then some (.ok true)
  else (collect group fuel visibility.groups.reverse [] []).map fun collected =>
    collected.map (visibility.grants · asking)

/-- One group is in another's `includes`. -/
def Includes (a b : Label) : Prop := ∃ g, group a = some g ∧ b ∈ g.includes

/-- A group that is listed, or included by one that is reached. -/
def ReachesGroup (visibility : Visibility) (label : Label) : Prop :=
  ∃ listed, .group listed ∈ visibility.entries ∧ ReflTransGen (Includes group) listed label

/-- A spec of a group that is reached. -/
def HasSpec (visibility : Visibility) (spec : PackageSpec) : Prop :=
  ∃ label g, ReachesGroup group visibility label ∧ group label = some g ∧ spec ∈ g.specs

/-- What the list says of an asking package. -/
def Sees (visibility : Visibility) (repo package : String) : Prop :=
  ((∃ scope, .scope scope ∈ visibility.entries ∧ scope.contains repo package = true) ∨
    ∃ spec, HasSpec group visibility spec ∧ spec.negated = false ∧
      spec.scope.contains repo package = true) ∧
  ¬∃ spec, HasSpec group visibility spec ∧ spec.negated = true ∧
    spec.scope.contains repo package = true

/-- What an answer says. -/
def Answers (visibility : Visibility) (asking : String × String) : Except VisibilityError Bool → Prop
  | .error (.noSuchGroup l) => ReachesGroup group visibility l ∧ group l = none
  | .ok seen => (∀ l, ReachesGroup group visibility l → group l ≠ none) ∧
    (seen = true ↔ Sees group visibility asking.1 asking.2)

/-- The same entries, specs and includes in any order and number. -/
structure SameGroups (group' : Label → Option PackageGroup) : Prop where
  exist : ∀ label, group label = none ↔ group' label = none
  specs : ∀ label g g', group label = some g → group' label = some g' →
    ∀ spec, spec ∈ g.specs ↔ spec ∈ g'.specs
  includes : ∀ label g g', group label = some g → group' label = some g' →
    ∀ b, b ∈ g.includes ↔ b ∈ g'.includes

end Walk

section Collecting
variable {group : Label → Option PackageGroup} {visibility : Visibility}

def includesOf (group : Label → Option PackageGroup) (label : Label) : List Label :=
  ((group label).map PackageGroup.includes).getD []

def specsOf (group : Label → Option PackageGroup) (label : Label) : List PackageSpec :=
  ((group label).map PackageGroup.specs).getD []

theorem includes_eq_step : Includes group = Worklist.Step (includesOf group) := by
  funext a b
  unfold Includes Worklist.Step includesOf
  cases group a with
  | none => simp
  | some g => simp

/-- The loop looks at what the walk looks at, up to the first group that is missing. -/
theorem collect_walk {fuel : ℕ} {pending seen out : List Label} (specs : List PackageSpec)
    (hwalk : Worklist.walk (includesOf group) fuel pending seen = some out) :
    ∃ new, out = seen ++ new ∧
      ((∀ l ∈ new, group l ≠ none) ∧ collect group fuel pending seen specs =
          some (.ok (specs ++ new.flatMap (specsOf group))) ∨
        ∃ l ∈ new, group l = none ∧
          collect group fuel pending seen specs = some (.error (.noSuchGroup l))) := by
  induction fuel generalizing pending seen specs with
  | zero => cases hwalk
  | succ fuel ih =>
    cases pending with
    | nil =>
      cases hwalk
      exact ⟨[],(List.append_nil _).symm,.inl ⟨by simp,by rw [collect]; simp⟩⟩
    | cons label pending =>
      rw [Worklist.walk] at hwalk
      rw [collect]
      by_cases hseen : label ∈ seen
      · rw [if_pos hseen] at hwalk ⊢
        exact ih specs hwalk
      · rw [if_neg hseen] at hwalk ⊢
        cases hgroup : group label with
        | none =>
          obtain ⟨new,hout,-⟩ := ih specs hwalk
          refine ⟨label::new,?_,.inr ⟨label,List.mem_cons_self,hgroup,rfl⟩⟩
          rw [hout, List.append_assoc, List.singleton_append]
        | some g =>
          have hincludes : includesOf group label = g.includes := by
            rw [includesOf, hgroup]
            rfl
          have hspecs : specsOf group label = g.specs := by
            rw [specsOf, hgroup]
            rfl
          rw [hincludes] at hwalk
          obtain ⟨new,hout,hcollect⟩ := ih (specs ++ g.specs) hwalk
          refine ⟨label::new,?_,?_⟩
          · rw [hout, List.append_assoc, List.singleton_append]
          · rcases hcollect with ⟨hall,hok⟩ | ⟨l,hl,hnone,herror⟩
            · left
              refine ⟨?_,?_⟩
              · intro l hl
                rcases List.mem_cons.mp hl with rfl | hl
                · rw [hgroup]
                  exact Option.some_ne_none g
                · exact hall l hl
              · rw [List.flatMap_cons, hspecs, ← List.append_assoc]
                exact hok
            · exact .inr ⟨l,List.mem_cons_of_mem _ hl,hnone,herror⟩

theorem collect_more {fuel more : ℕ} (hle : fuel ≤ more) {pending seen : List Label}
    {specs : List PackageSpec} {result : Except VisibilityError (List PackageSpec)}
    (h : collect group fuel pending seen specs = some result) :
    collect group more pending seen specs = some result := by
  induction fuel generalizing more pending seen specs with
  | zero => cases h
  | succ fuel ih =>
    obtain ⟨more,rfl⟩ := Nat.exists_eq_add_of_lt hle
    cases pending with
    | nil => exact h
    | cons label pending =>
      rw [collect] at h ⊢
      have hle : fuel ≤ fuel+more := Nat.le_add_right _ _
      split
      · next hseen =>
        rw [if_pos hseen] at h
        exact ih hle h
      · next hseen =>
        rw [if_neg hseen] at h
        cases hgroup : group label with
        | none =>
          rw [hgroup] at h
          exact h
        | some g =>
          rw [hgroup] at h
          exact ih hle h

theorem mem_groups {label : Label} : label ∈ visibility.groups ↔ .group label ∈ visibility.entries := by
  unfold Visibility.groups
  rw [List.mem_filterMap]
  constructor
  · rintro ⟨entry,hentry,heq⟩
    cases entry with
    | scope => cases heq
    | group => exact Option.some.inj heq ▸ hentry
  · exact fun h => ⟨_,h,rfl⟩

theorem mem_scopes {scope : PackageScope} :
    scope ∈ visibility.scopes ↔ .scope scope ∈ visibility.entries := by
  unfold Visibility.scopes
  rw [List.mem_filterMap]
  constructor
  · rintro ⟨entry,hentry,heq⟩
    cases entry with
    | scope => exact Option.some.inj heq ▸ hentry
    | group => cases heq
  · exact fun h => ⟨_,h,rfl⟩

theorem mem_specsOf {label : Label} {spec : PackageSpec} :
    spec ∈ specsOf group label ↔ ∃ g, group label = some g ∧ spec ∈ g.specs := by
  unfold specsOf
  cases group label with
  | none => simp
  | some g => simp

variable (visibility) in
/-- The walk ends, and has looked at the groups that are reached. -/
theorem walk_reaches (hfinite : {l | ∃ g, group l = some g ∧ g.includes ≠ []}.Finite) :
    ∃ fuel out, Worklist.walk (includesOf group) fuel visibility.groups.reverse [] = some out ∧
      ∀ l, l ∈ out ↔ ReachesGroup group visibility l := by
  have hnodes : ∀ l, includesOf group l ≠ [] → l ∈ hfinite.toFinset.toList := by
    intro l hl
    rw [Finset.mem_toList, Set.Finite.mem_toFinset]
    unfold includesOf at hl
    cases hgroup : group l with
    | none =>
      rw [hgroup] at hl
      exact absurd rfl hl
    | some g =>
      rw [hgroup] at hl
      exact ⟨g,hgroup,hl⟩
  obtain ⟨out,hwalk⟩ := @Worklist.walk_ends _ _ (includesOf group) [] visibility.groups.reverse _
    hnodes _ (Nat.lt_succ_self _)
  refine ⟨_,out,hwalk,fun l => ?_⟩
  rw [Worklist.mem_walk hwalk, ReachesGroup, includes_eq_step]
  simp only [List.mem_reverse, mem_groups]

variable (visibility) in
/-- What the loop comes to. -/
theorem collect_result (hfinite : {l | ∃ g, group l = some g ∧ g.includes ≠ []}.Finite) :
    ∃ fuel result, collect group fuel visibility.groups.reverse [] [] = some result ∧
      match result with
      | .error (.noSuchGroup l) => ReachesGroup group visibility l ∧ group l = none
      | .ok specs => (∀ l, ReachesGroup group visibility l → group l ≠ none) ∧
        ∀ spec, spec ∈ specs ↔ HasSpec group visibility spec := by
  obtain ⟨fuel,out,hwalk,hout⟩ := walk_reaches visibility hfinite
  obtain ⟨new,hnew,hcollect⟩ := collect_walk [] hwalk
  rw [List.nil_append] at hnew
  subst hnew
  rcases hcollect with ⟨hall,hok⟩ | ⟨l,hl,hnone,herror⟩
  · refine ⟨fuel,_,hok,fun l hl => hall l ((hout l).mpr hl),fun spec => ?_⟩
    rw [List.nil_append, List.mem_flatMap]
    unfold HasSpec
    simp only [mem_specsOf, hout]
    constructor
    · rintro ⟨l,hl,g,hg,hspec⟩
      exact ⟨l,g,hl,hg,hspec⟩
    · rintro ⟨l,g,hl,hg,hspec⟩
      exact ⟨l,hl,g,hg,hspec⟩
  · exact ⟨fuel,_,herror,(hout l).mp hl,hnone⟩

variable (visibility) in
/-- What the answer is, however far the loop may go. -/
theorem isVisible_result (hfinite : {l | ∃ g, group l = some g ∧ g.includes ≠ []}.Finite)
    {declared asking : String × String} (hne : declared ≠ asking) :
    ∃ fuel result, isVisible group fuel visibility declared asking = some result ∧
      Answers group visibility asking result := by
  obtain ⟨fuel,result,hcollect,hresult⟩ := collect_result visibility hfinite
  refine ⟨fuel,result.map (visibility.grants · asking),?_,?_⟩
  · rw [isVisible, if_neg hne, hcollect]
    rfl
  · cases result with
    | error e => exact hresult
    | ok specs =>
      refine ⟨hresult.1,?_⟩
      unfold Sees
      simp only [← hresult.2, ← mem_scopes]
      simp [Visibility.grants]

theorem isVisible_unique {fuel fuel' : ℕ} {declared asking : String × String}
    {result result' : Except VisibilityError Bool}
    (h : isVisible group fuel visibility declared asking = some result)
    (h' : isVisible group fuel' visibility declared asking = some result') : result = result' := by
  have hmore : ∀ {fuel result}, isVisible group fuel visibility declared asking = some result →
      ∀ more, fuel ≤ more → isVisible group more visibility declared asking = some result := by
    intro fuel result h more hle
    unfold isVisible at h ⊢
    split
    · next heq => rwa [if_pos heq] at h
    · next hne =>
      rw [if_neg hne] at h
      obtain ⟨collected,hcollect,heq⟩ := Option.map_eq_some_iff.mp h
      rw [collect_more hle hcollect, Option.map_some, heq]
  have hboth := hmore h _ (Nat.le_max_left fuel fuel')
  rw [hmore h' _ (Nat.le_max_right fuel fuel')] at hboth
  exact (Option.some.inj hboth).symm

/-- What any run of the check that ends has come to. -/
theorem isVisible_of_some (hfinite : {l | ∃ g, group l = some g ∧ g.includes ≠ []}.Finite)
    {fuel : ℕ} {declared asking : String × String} {result : Except VisibilityError Bool}
    (hne : declared ≠ asking) (h : isVisible group fuel visibility declared asking = some result) :
    Answers group visibility asking result := by
  obtain ⟨fuel',result',h',hresult⟩ := isVisible_result visibility hfinite hne
  rw [isVisible_unique h h']
  exact hresult

end Collecting

section Order
variable {group group' : Label → Option PackageGroup} {visibility visibility' : Visibility}

theorem SameGroups.symm (h : SameGroups group group') : SameGroups group' group where
  exist l := (h.exist l).symm
  specs l g g' hg hg' spec := (h.specs l g' g hg' hg spec).symm
  includes l g g' hg hg' b := (h.includes l g' g hg' hg b).symm

theorem SameGroups.found (h : SameGroups group group') {l : Label} {g : PackageGroup}
    (hg : group l = some g) : ∃ g', group' l = some g' := by
  apply Option.ne_none_iff_exists'.mp
  rw [Ne, ← h.exist, hg]
  exact nofun

theorem SameGroups.includes_le (h : SameGroups group group') {a b : Label} (hab : Includes group a b) :
    Includes group' a b := by
  obtain ⟨g,hg,hb⟩ := hab
  obtain ⟨g',hg'⟩ := h.found hg
  exact ⟨g',hg',(h.includes a g g' hg hg' b).mp hb⟩

theorem SameGroups.reaches (h : SameGroups group group')
    (hentries : ∀ entry, entry ∈ visibility.entries ↔ entry ∈ visibility'.entries) (l : Label) :
    ReachesGroup group visibility l ↔ ReachesGroup group' visibility' l := by
  constructor
  · rintro ⟨listed,hlisted,hreach⟩
    exact ⟨listed,(hentries _).mp hlisted,ReflTransGen.mono (fun _ _ => h.includes_le) _ _ hreach⟩
  · rintro ⟨listed,hlisted,hreach⟩
    exact ⟨listed,(hentries _).mpr hlisted,ReflTransGen.mono (fun _ _ => h.symm.includes_le) _ _ hreach⟩

theorem SameGroups.hasSpec (h : SameGroups group group')
    (hentries : ∀ entry, entry ∈ visibility.entries ↔ entry ∈ visibility'.entries)
    (spec : PackageSpec) : HasSpec group visibility spec ↔ HasSpec group' visibility' spec := by
  constructor
  · rintro ⟨l,g,hl,hg,hspec⟩
    obtain ⟨g',hg'⟩ := h.found hg
    exact ⟨l,g',(h.reaches hentries l).mp hl,hg',(h.specs l g g' hg hg' spec).mp hspec⟩
  · rintro ⟨l,g',hl,hg',hspec⟩
    obtain ⟨g,hg⟩ := h.symm.found hg'
    exact ⟨l,g,(h.reaches hentries l).mpr hl,hg,(h.specs l g g' hg hg' spec).mpr hspec⟩

theorem SameGroups.sees (h : SameGroups group group')
    (hentries : ∀ entry, entry ∈ visibility.entries ↔ entry ∈ visibility'.entries)
    (repo package : String) :
    Sees group visibility repo package ↔ Sees group' visibility' repo package := by
  unfold Sees
  simp only [h.hasSpec hentries, hentries]

theorem SameGroups.finite (h : SameGroups group group')
    (hfinite : {l | ∃ g, group l = some g ∧ g.includes ≠ []}.Finite) :
    {l | ∃ g, group' l = some g ∧ g.includes ≠ []}.Finite := by
  apply hfinite.subset
  rintro l ⟨g',hg',hne⟩
  obtain ⟨g,hg⟩ := h.symm.found hg'
  refine ⟨g,hg,fun hnil => hne (List.eq_nil_iff_forall_not_mem.mpr fun b hb => ?_)⟩
  have hold := (h.includes l g g' hg hg' b).mpr hb
  rw [hnil] at hold
  cases hold

end Order

/-- The check ends and depends on nothing but which groups are reached and what they have. -/
theorem isVisible_reaches (group : Label → Option PackageGroup)
    (hfinite : {l | ∃ g, group l = some g ∧ g.includes ≠ []}.Finite) (visibility : Visibility)
    (declared asking : String × String) :
    (∃ fuel result, isVisible group fuel visibility declared asking = some result) ∧
      ∀ fuel result, isVisible group fuel visibility declared asking = some result →
        (declared = asking → result = .ok true) ∧
        (declared ≠ asking →
          ((∃ e, result = .error e) ↔ ∃ l, ReachesGroup group visibility l ∧ group l = none) ∧
          ∀ seen, result = .ok seen → (seen = true ↔ Sees group visibility asking.1 asking.2)) ∧
        ∀ visibility' group' fuel' result',
          (∀ entry, entry ∈ visibility.entries ↔ entry ∈ visibility'.entries) →
          SameGroups group group' →
          isVisible group' fuel' visibility' declared asking = some result' →
          result'.toOption = result.toOption := by
  by_cases heq : declared = asking
  · have hsame : ∀ group fuel visibility, isVisible group fuel visibility declared asking =
        some (.ok true) := fun _ _ _ => if_pos heq
    refine ⟨⟨0,_,hsame _ _ _⟩,fun fuel result h => ?_⟩
    rw [hsame] at h
    cases h
    refine ⟨fun _ => rfl,fun hne => absurd heq hne,fun visibility' group' fuel' result' _ _ h' => ?_⟩
    rw [hsame] at h'
    cases h'
    rfl
  · obtain ⟨fuel,result,h,-⟩ := isVisible_result visibility hfinite heq
    refine ⟨⟨fuel,result,h⟩,fun fuel result h => ?_⟩
    have hresult := isVisible_of_some hfinite heq h
    refine ⟨fun hsame => absurd hsame heq,fun _ => ?_,?_⟩
    · cases result with
      | error e => exact ⟨⟨fun _ => ⟨_,hresult⟩,fun _ => ⟨_,rfl⟩⟩,nofun⟩
      | ok seen =>
        refine ⟨⟨nofun,fun ⟨l,hl,hnone⟩ => absurd hnone (hresult.1 l hl)⟩,fun seen' hseen => ?_⟩
        cases hseen
        exact hresult.2
    · intro visibility' group' fuel' result' hentries hgroups h'
      have hresult' := isVisible_of_some (hgroups.finite hfinite) heq h'
      cases result with
      | error e =>
        cases result' with
        | error e' => rfl
        | ok seen' =>
          obtain ⟨hl,hnone⟩ := hresult
          exact absurd ((hgroups.exist _).mp hnone) (hresult'.1 _ ((hgroups.reaches hentries _).mp hl))
      | ok seen =>
        cases result' with
        | error e' =>
          obtain ⟨hl,hnone⟩ := hresult'
          exact absurd ((hgroups.exist _).mpr hnone) (hresult.1 _ ((hgroups.reaches hentries _).mpr hl))
        | ok seen' =>
          have hsees := hgroups.sees hentries asking.1 asking.2
          have hseen : seen' = seen := by
            rw [Bool.eq_iff_iff, hresult.2, hresult'.2, hsees]
          rw [hseen]

/-- Two groups that include each other, one of which excludes a package below. -/
def ringOfGroups (l : Label) : Option PackageGroup :=
  if l = ⟨"","a","g"⟩ then some ⟨[⟨false,.subpackages "" "c"⟩],[⟨"","a","h"⟩]⟩
  else if l = ⟨"","a","h"⟩ then some ⟨[⟨true,.package "" "c/n"⟩],[⟨"","a","g"⟩]⟩
  else none

theorem isVisible_ring : (∃ fuel, isVisible ringOfGroups fuel ⟨[.group ⟨"","a","g"⟩]⟩ ("","a") ("","c") =
      some (.ok true)) ∧ Sees ringOfGroups ⟨[.group ⟨"","a","g"⟩]⟩ "" "c" := by
  have hfinite : {l | ∃ g, ringOfGroups l = some g ∧ g.includes ≠ []}.Finite := by
    refine Set.Finite.subset (Set.toFinite {⟨"","a","g"⟩,⟨"","a","h"⟩}) fun l hl => ?_
    obtain ⟨g,hg,-⟩ := hl
    unfold ringOfGroups at hg
    split at hg
    · next heq => exact .inl heq
    · split at hg
      · next heq => exact .inr heq
      · cases hg
  have hrun : isVisible ringOfGroups 4 ⟨[.group ⟨"","a","g"⟩]⟩ ("","a") ("","c") = some (.ok true) := by
    decide
  refine ⟨⟨4,hrun⟩,?_⟩
  have h := (isVisible_reaches ringOfGroups hfinite ⟨[.group ⟨"","a","g"⟩]⟩ ("","a") ("","c")).2 4 _ hrun
  exact ((h.2.1 (by decide)).2 true rfl).mp rfl

end BuildFiji.Graph
