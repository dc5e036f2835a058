import BuildFiji.Repo.LockedExtension

/-!
# A locked extension taken again

What an entry names is what was made when the entry was written, up to the attributes
that do not read back. A replay asks that every import is among it, where a run lets go
what the root module put something else in the place of.
-/

set_option autoImplicit false
set_option linter.all false

namespace BuildFiji.Replay

open BuildFiji.Bzlmod (Json)

/-- A repository as the rule that makes it sees it. -/
structure Seen where
  name : String
  rule : String
  attrs : List (String × Value)

def GeneratedRepo.seen (repo : GeneratedRepo) : Seen :=
  ⟨repo.name,repo.rule,repo.attrs.map fun a => (a.1,a.2.toValue)⟩

/-- Two states with the same entries, mappings and repositories. -/
structure Alike (s t : State) : Prop where
  locked : s.locked = t.locked
  mappings : s.mappings = t.mappings
  generated : ∀ name, (s.generated name).map (fun g => (g.extensionId,g.repo.seen)) =
    (t.generated name).map fun g => (g.extensionId,g.repo.seen)

theorem Alike.refl (s : State) : Alike s s := ⟨rfl,rfl,fun _ => rfl⟩

section Entries

/-- A repository as it comes back from its entry. -/
def GeneratedRepo.back (repo : GeneratedRepo) : GeneratedRepo where
  name := repo.name
  rule := repo.rule
  attrs := repo.attrs.filterMap fun a => ((repoAttrJson a.2).bind repoAttrFromJson).map fun b => (a.1,b)
  location := ""

theorem lockedRepo_repoSpec (repo : GeneratedRepo) :
    lockedRepo repo.name (repoSpec repo) = some repo.back := by
  have hattrs : fieldOf [("repoRuleId",Json.string repo.rule),("attributes",Json.object
      (repo.attrs.filterMap fun a => (repoAttrJson a.2).map fun json => (a.1,json)))] "attributes" =
      some (.object (repo.attrs.filterMap fun a => (repoAttrJson a.2).map fun json => (a.1,json))) := rfl
  have hrule : fieldOf [("repoRuleId",Json.string repo.rule),("attributes",Json.object
      (repo.attrs.filterMap fun a => (repoAttrJson a.2).map fun json => (a.1,json)))] "repoRuleId" =
      some (.string repo.rule) := rfl
  rw [repoSpec, lockedRepo, hrule, hattrs, GeneratedRepo.back]
  simp only [List.filterMap_filterMap, Option.bind_map, Option.map_bind, Function.comp_def]

variable {e : Extension} {session : Session} {made : ExtensionOutput} {entry : LockedExtension}

theorem lockedRepos_entry (h : lockedEntry e session made = some entry) :
    lockedRepos entry = made.repos.map GeneratedRepo.back := by
  unfold lockedEntry at h
  split at h
  · cases h
  · obtain ⟨id,-,rfl⟩ := Option.map_eq_some_iff.mp h
    show (made.repos.map fun repo => (repo.name,repoSpec repo)).filterMap
      (fun s => lockedRepo s.1 s.2) = _
    rw [List.filterMap_map]
    apply filterMap_eq_map_iff.mpr
    intro repo _
    exact lockedRepo_repoSpec repo

theorem back_names (repos : List GeneratedRepo) :
    (repos.map GeneratedRepo.back).map GeneratedRepo.name = repos.map GeneratedRepo.name := by
  rw [List.map_map]
  rfl

theorem back_seen_iff (repo : GeneratedRepo) :
    repo.back.seen = repo.seen ↔ ∀ a ∈ repo.attrs, a.2.ReadsBack := by
  have hattrs : repo.back.attrs.map (fun a => (a.1,a.2.toValue)) =
      repo.attrs.filterMap fun a => a.2.back.map fun v => (a.1,v) := by
    rw [GeneratedRepo.back, List.map_filterMap]
    simp only [RepoAttr.back, Option.map_map, Function.comp_def]
  have hseen : repo.back.seen = repo.seen ↔
      repo.back.attrs.map (fun a => (a.1,a.2.toValue)) = repo.attrs.map fun a => (a.1,a.2.toValue) := by
    simp [GeneratedRepo.seen, GeneratedRepo.back]
  rw [hseen, hattrs, filterMap_eq_map_iff]
  apply forall₂_congr
  intro a _
  rw [← RepoAttr.back_iff]
  cases a.2.back <;> simp

end Entries

section Inserted

variable {e : Extension} {rows : List (String × String)} {s t : State}

theorem repoName_injective (e : Extension) : Function.Injective e.repoName := by
  intro a b h
  have hlist := congrArg String.toList h
  simp only [Extension.repoName, String.toList_append] at hlist
  exact String.toList_inj.mp (List.append_cancel_left hlist)

theorem insertRepo_self (repo : GeneratedRepo) :
    (insertRepo e rows s repo).generated (e.repoName repo.name) = some ⟨repo,e.extensionId⟩ :=
  Function.update_self _ _ _

theorem insertRepo_other {repo : GeneratedRepo} {name : String} (h : name ≠ e.repoName repo.name) :
    (insertRepo e rows s repo).generated name = s.generated name := Function.update_of_ne h _ _

theorem alike_insert (h : Alike s t) {repo repo' : GeneratedRepo} (hseen : repo.seen = repo'.seen) :
    Alike (insertRepo e rows s repo) (insertRepo e rows t repo') := by
  have hname : repo.name = repo'.name := congrArg Seen.name hseen
  refine ⟨h.locked,?_,?_⟩
  · rw [insertRepo, insertRepo, h.mappings, hname]
  · intro name
    by_cases heq : name = e.repoName repo.name
    · rw [heq, insertRepo_self, hname, insertRepo_self, Option.map_some, Option.map_some, hseen]
    · rw [insertRepo_other heq, insertRepo_other (hname ▸ heq)]
      exact h.generated name

theorem alike_inserts {repos repos' : List GeneratedRepo} (h : Alike s t)
    (hseen : repos.map GeneratedRepo.seen = repos'.map GeneratedRepo.seen) :
    Alike (repos.foldl (insertRepo e rows) s) (repos'.foldl (insertRepo e rows) t) := by
  induction repos generalizing repos' s t with
  | nil =>
    rw [List.map_nil, eq_comm, List.map_eq_nil_iff] at hseen
    rw [hseen]
    exact h
  | cons repo repos ih =>
    cases repos' with
    | nil => cases hseen
    | cons repo' repos' =>
      obtain ⟨hrepo,hrest⟩ := List.cons.inj hseen
      rw [List.foldl_cons, List.foldl_cons]
      exact ih (alike_insert h hrepo) hrest

theorem inserts_locked (repos : List GeneratedRepo) :
    (repos.foldl (insertRepo e rows) s).locked = s.locked := by
  induction repos generalizing s with
  | nil => rfl
  | cons repo repos ih => exact ih

theorem inserts_other {repos : List GeneratedRepo} {name : String}
    (h : name ∉ repos.map GeneratedRepo.name) :
    (repos.foldl (insertRepo e rows) s).generated (e.repoName name) =
      s.generated (e.repoName name) := by
  induction repos generalizing s with
  | nil => rfl
  | cons repo repos ih =>
    rw [List.map_cons, List.mem_cons, not_or] at h
    rw [List.foldl_cons, ih h.2]
    exact insertRepo_other fun heq => h.1 (repoName_injective e heq)

theorem inserts_generated {repos : List GeneratedRepo}
    (hnodup : (repos.map GeneratedRepo.name).Nodup) {repo : GeneratedRepo} (h : repo ∈ repos) :
    (repos.foldl (insertRepo e rows) s).generated (e.repoName repo.name) =
      some ⟨repo,e.extensionId⟩ := by
  induction repos generalizing s with
  | nil => cases h
  | cons first repos ih =>
    rw [List.map_cons, List.nodup_cons] at hnodup
    rcases List.mem_cons.mp h with rfl | h
    · rw [List.foldl_cons, inserts_other hnodup.1]
      exact insertRepo_self repo
    · exact ih hnodup.2 h

end Inserted

section Runs

variable {e : Extension} {session : Session} {s t : State} {made : ExtensionOutput}
  {entry : LockedExtension}

theorem checkImports_ok_iff {there : String → Bool} : checkImports e there = .ok () ↔
    ∀ u ∈ e.usages, ∀ i ∈ u.imports, there i.2 = true := by
  have hfind : (e.usages.findSome? fun u => (u.imports.find? fun i => !there i.2).map fun i => (u,i)) =
      none ↔ ∀ u ∈ e.usages, ∀ i ∈ u.imports, there i.2 = true := by
    simp [List.findSome?_eq_none_iff, Option.map_eq_none_iff, List.find?_eq_none]
  rw [← hfind, checkImports]
  cases e.usages.findSome? fun u => (u.imports.find? fun i => !there i.2).map fun i => (u,i) with
  | none => simp
  | some missing => simp

/-- Every import is of a repository that was made. -/
def ImportsMade (e : Extension) (made : ExtensionOutput) : Prop :=
  ∀ u ∈ e.usages, ∀ i ∈ u.imports, i.2 ∈ made.repos.map GeneratedRepo.name

theorem runExtension_ok (h : runExtension e session s = .ok t) (s' : State) :
    runExtension e session s' =
      match lockedHit e session s'.previous with
      | some hit => replay e s' hit
      | none => runImplementation e session s' := by
  unfold runExtension at h ⊢
  cases hl : session.loaded with
  | error message =>
    rw [hl] at h
    cases h
  | ok found =>
    rw [hl] at h
    cases found with
    | false => cases h
    | true => rfl

/-- An implementation that ran well runs well again. -/
theorem runImplementation_ok (h : runImplementation e session s = .ok t)
    (hmade : session.implementation = .ok made) (s' : State) :
    runImplementation e session s' = .ok (insertRepos e
      { s' with locked := s'.locked ++ (lockedEntry e session made).toList } made.repos) := by
  unfold runImplementation at h ⊢
  rw [hmade] at h ⊢
  simp only [Fallible.bind_ok, Except.ok.injEq] at h ⊢
  obtain ⟨_,rfl,_,himports,_,hmeta,-⟩ := h
  exact ⟨made,rfl,(),himports,(),hmeta,rfl⟩

theorem replay_ok_iff (hentry : lockedEntry e session made = some entry) :
    (∃ again, replay e s entry = .ok again) ↔ ImportsMade e made := by
  have hnames : (lockedRepos entry).map GeneratedRepo.name = made.repos.map GeneratedRepo.name := by
    rw [lockedRepos_entry hentry, back_names]
  have himports : (checkImports e fun exported =>
      ((lockedRepos entry).map GeneratedRepo.name).contains exported) = .ok () ↔ ImportsMade e made := by
    rw [checkImports_ok_iff, hnames, ImportsMade]
    simp only [List.contains_eq_mem, decide_eq_true_eq]
  rw [← himports]
  unfold replay
  simp only [Fallible.bind_ok]
  constructor
  · rintro ⟨_,_,h,-⟩
    exact h
  · intro h
    exact ⟨_,(),h,rfl⟩

theorem replay_ok {s' : State} {hit : LockedExtension} (h : replay e s hit = .ok s') :
    s' = insertRepos e { s with locked := s.locked ++ [hit] } (lockedRepos hit) := by
  obtain ⟨_,-,h⟩ := Fallible.bind_ok.mp h
  exact (Except.ok.inj h).symm

/-- A later session that meets the same leaves what running the implementation again
would leave, if and only if an entry that is taken is the one that was written, what is
imported was made and every attribute reads back. -/
theorem replay_alike_iff (hrun : runExtension e session s = .ok t)
    (hran : lockedHit e session s.previous = none) (hmade : session.implementation = .ok made)
    (hentry : lockedEntry e session made = some entry) (later : State) :
    (∃ left again, runExtension e session later = .ok left ∧
      runImplementation e session later = .ok again ∧ Alike left again) ↔
    ∀ hit, lockedHit e session later.previous = some hit → hit = entry ∧ ImportsMade e made ∧
      ∀ repo ∈ made.repos, ∀ a ∈ repo.attrs, a.2.ReadsBack := by
  have himpl : runImplementation e session s = .ok t := by
    rw [runExtension_ok hrun, hran] at hrun
    exact hrun
  have hagain := runImplementation_ok himpl hmade later
  rw [hentry, Option.toList_some] at hagain
  rw [runExtension_ok hrun, hagain]
  cases hhit : lockedHit e session later.previous with
  | none =>
    constructor
    · intro _ hit h
      cases h
    · intro _
      exact ⟨_,_,rfl,rfl,Alike.refl _⟩
  | some hit =>
    constructor
    · rintro ⟨left,again,hleft,hsame,halike⟩ hit' h
      cases h
      cases hsame
      have hleft' := replay_ok hleft
      subst hleft'
      have hlocked := halike.locked
      rw [insertRepos, insertRepos, inserts_locked, inserts_locked] at hlocked
      have hsame : hit = entry := List.singleton_inj.mp (List.append_cancel_left hlocked)
      subst hsame
      have himports := (replay_ok_iff hentry).mp ⟨_,hleft⟩
      refine ⟨rfl,himports,?_⟩
      intro repo hrepo
      apply (back_seen_iff repo).mp
      have hrepos := lockedRepos_entry hentry
      have hnodup : ((lockedRepos hit).map GeneratedRepo.name).Nodup := by
        rw [hrepos, back_names]
        exact made.names_nodup
      have hback : repo.back ∈ lockedRepos hit := hrepos ▸ List.mem_map_of_mem hrepo
      have hseen := halike.generated (e.repoName repo.name)
      rw [insertRepos, insertRepos, inserts_generated made.names_nodup hrepo] at hseen
      rw [show repo.name = repo.back.name from rfl, inserts_generated hnodup hback] at hseen
      exact congrArg Prod.snd (Option.some.inj hseen)
    · intro h
      obtain ⟨rfl,himports,hread⟩ := h hit rfl
      obtain ⟨left,hleft⟩ := (replay_ok_iff (s := later) hentry).mpr himports
      refine ⟨left,_,hleft,rfl,?_⟩
      rw [replay_ok hleft, lockedRepos_entry hentry, insertRepos, insertRepos, back_names]
      apply alike_inserts (Alike.refl _)
      rw [List.map_map]
      apply List.map_congr_left
      intro repo hrepo
      exact (back_seen_iff repo).mpr (hread repo hrepo)

end Runs

section Injected

/-- An extension of the main repository that makes `a`. The root module imports `a` and,
if it injects it, `b`. -/
def oneRepo (imports : List (String × String)) (injected : List String) : Extension where
  extensionId := "@@//:e.bzl%e"
  lockId := some "//:e.bzl%e"
  name := "e"
  bzlFile := "//:e.bzl"
  prefixName := "+e"
  usages := [⟨true,false,imports,injected,"MODULE.bazel:1:18"⟩]
  usagesDigest := "u"
  repoMapping := fun names => names.map fun name => (name,"+e+" ++ name)
  location := "MODULE.bazel:1:18"

def oneMade : ExtensionOutput where
  repos := [⟨"a","@@//:r.bzl%r",[("text",.string "@@x"),("items",.stringList ["i"])],"e.bzl:1:2"⟩]
  recorded := [.env "HOME".toList (some "h".toList)]
  metadata := none
  reproducible := false
  osDependent := false
  archDependent := false
  names_nodup := by decide

def oneSession : Session where
  layout := ⟨[['w']],[['o']],none,none⟩
  sha256 := id
  world := ⟨fun _ => some "h".toList,fun _ => none,fun _ _ => none⟩
  os := "linux"
  arch := "amd64"
  bzlDigest := some "d"
  lookups := []
  loaded := .ok true
  implementation := .ok oneMade

def oneEntry (e : Extension) : LockedExtension :=
  ((lockedEntry e oneSession oneMade).getD ⟨"","",.null⟩)

def freshState (previous : List LockedExtension) : State := ⟨previous,[],fun _ => none,fun _ => none⟩

theorem oneEntry_hit : lockedHit (oneRepo [("a","a")] []) oneSession [oneEntry (oneRepo [("a","a")] [])] =
    some (oneEntry (oneRepo [("a","a")] [])) := by rfl

theorem replay_alike_one : ∃ left again,
    runExtension (oneRepo [("a","a")] []) oneSession
      (freshState [oneEntry (oneRepo [("a","a")] [])]) = .ok left ∧
    runImplementation (oneRepo [("a","a")] []) oneSession
      (freshState [oneEntry (oneRepo [("a","a")] [])]) = .ok again ∧ Alike left again := by
  apply (replay_alike_iff (s := freshState []) (t := _) rfl rfl rfl rfl _).mpr
  intro hit h
  cases Option.some.inj (oneEntry_hit.symm.trans h)
  refine ⟨rfl,?_,?_⟩
  · unfold ImportsMade
    decide
  · intro repo hrepo a ha
    cases List.mem_singleton.mp hrepo
    rcases List.mem_cons.mp ha with rfl | ha
    · exact ⟨nofun,nofun⟩
    · cases List.mem_singleton.mp ha
      exact ⟨nofun,nofun⟩

/-- What is injected is imported in the first session and missed in the second. -/
theorem injected_not_replayed :
    (∃ t, runExtension (oneRepo [("a","a"),("b","b")] ["b"]) oneSession (freshState []) = .ok t ∧
      t.locked = [oneEntry (oneRepo [("a","a"),("b","b")] ["b"])]) ∧
    ¬∃ left, runExtension (oneRepo [("a","a"),("b","b")] ["b"]) oneSession
      (freshState [oneEntry (oneRepo [("a","a"),("b","b")] ["b"])]) = .ok left := by
  refine ⟨⟨_,rfl,rfl⟩,?_⟩
  rintro ⟨left,h⟩
  cases h

end Injected

end BuildFiji.Replay
