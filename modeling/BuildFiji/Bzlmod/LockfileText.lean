import BuildFiji.Lib.Merged
import BuildFiji.Bzlmod.JsonText
import BuildFiji.Bzlmod.LockfileRuns

/-!
# The text of the lockfile

What a run ends up with is written, and what is written is read as the same. A
run that starts from it and reads the same files, with the same extensions and
facts, ends up with the same lockfile, and has nothing to write.
-/

set_option autoImplicit false
set_option linter.all false

namespace BuildFiji.Bzlmod

open BuildFiji.Merged

def lockFileVersion : ℕ := 28

def notFoundText : String := "not found"

/-- `Value::as_u64`. -/
def Json.asU64 : Json → Option ℕ
  | .number text =>
    if text.toList.all Char.isDigit then some (Nat.ofDigitChars 10 text.toList 0) else none
  | _ => none

def Json.isObject : Json → Bool
  | .object _ => true
  | _ => false

/-- `Value::get`: of fields of one name the last is kept. -/
def Json.get (name : String) (value : Json) : Option Json :=
  ((value.entries.filter fun entry => entry.1 = name).getLast?).map Prod.snd

/-- A field of a derived reader: a name that comes twice is an error. -/
def wireField {α : Type} (value : Json) (name : String) (read : Json → Option α) (missing : α) :
    Option α :=
  match value.entries.filter fun entry => entry.1 = name with
  | [] => some missing
  | [entry] => read entry.2
  | _ => none

/-- An object of strings, in file order. -/
def Json.pairs : Json → Option (List (String × String))
  | .object entries => entries.mapM fun entry =>
    match entry.2 with
    | .string text => some (entry.1,text)
    | _ => none
  | _ => none

/-- `Option<Json>`, with an empty object for what is not there. -/
def Json.carried : Json → Option Json
  | .null => some (.object [])
  | value => some value

namespace Lockfile

structure Wire where
  registryFileHashes : List (String × String)
  selectedYankedVersions : List (String × String)
  moduleExtensions : Json
  facts : Json
  factsVersions : Json

def wire (value : Json) : Option Wire := do
  let registryFileHashes ← wireField value "registryFileHashes" Json.pairs []
  let selectedYankedVersions ← wireField value "selectedYankedVersions" Json.pairs []
  let moduleExtensions ← wireField value "moduleExtensions" Json.carried (.object [])
  let facts ← wireField value "facts" Json.carried (.object [])
  let factsVersions ← wireField value "factsVersions" Json.carried (.object [])
  some ⟨registryFileHashes,selectedYankedVersions,moduleExtensions,facts,factsVersions⟩

def readHash (text : String) : FileHash :=
  if text = notFoundText then .notFound else .sha256 text

def hashText : FileHash → String
  | .sha256 hex => hex
  | .notFound => notFoundText

def ofWire (wire : Wire) : Lockfile where
  registryFileHashes := wire.registryFileHashes.foldl
    (fun hashes entry => hashes.insert entry.1 (readHash entry.2)) ∅
  selectedYankedVersions := wire.selectedYankedVersions
  moduleExtensions := wire.moduleExtensions
  facts := wire.facts
  factsVersions := wire.factsVersions

/-- The version is learnt first: a file of another version may have a shape that
this one cannot read. -/
def parse (numbers : Numbers) (text : String) : Except Unusable Lockfile :=
  match Json.read numbers text with
  | none => .error .malformed
  | some value =>
    match (value.get "lockFileVersion").bind Json.asU64 with
    | none => .error (if value.isObject then .version 0 else .malformed)
    | some version =>
      if version ≠ lockFileVersion then .error (.version version)
      else
        match wire value with
        | none => .error .malformed
        | some wire => .ok (ofWire wire)

def stringEntries (entries : List (String × String)) : Json :=
  .object (entries.map fun entry => (entry.1,.string entry.2))

def toJson (lockfile : Lockfile) : Json := .object
  [("lockFileVersion",.number (toString lockFileVersion)),
    ("registryFileHashes",stringEntries (lockfile.registryFileHashes.toList.map fun entry =>
      (entry.1,hashText entry.2))),
    ("selectedYankedVersions",stringEntries lockfile.selectedYankedVersions),
    ("moduleExtensions",lockfile.moduleExtensions),
    ("facts",lockfile.facts),
    ("factsVersions",lockfile.factsVersions)]

def toText (lockfile : Lockfile) : String :=
  .ofList (escapeSeparators (lockfile.toJson.pretty 0) ++ ['\n'])

/-- What reading a lockfile gives, and what a run ends up with. -/
structure Sound (numbers : Numbers) (lockfile : Lockfile) : Prop where
  hashes : ∀ url hex : String, lockfile.registryFileHashes[url]? = some (FileHash.sha256 hex) →
    hex ≠ notFoundText
  moduleExtensions : lockfile.moduleExtensions.Kept numbers ∧ lockfile.moduleExtensions ≠ .null
  facts : lockfile.facts.Kept numbers ∧ lockfile.facts ≠ .null
  factsVersions : lockfile.factsVersions.Kept numbers ∧ lockfile.factsVersions ≠ .null

section Back
variable {numbers : Numbers} {lockfile : Lockfile}

theorem readHash_hashText {hash : FileHash} (h : ∀ hex, hash = .sha256 hex → hex ≠ notFoundText) :
    readHash (hashText hash) = hash := by
  cases hash with
  | notFound => rfl
  | sha256 hex => exact if_neg (h hex rfl)

theorem pairs_stringEntries (entries : List (String × String)) :
    (stringEntries entries).pairs = some entries := by
  induction entries with
  | nil => rfl
  | cons e entries ih =>
    simp only [stringEntries, Json.pairs, List.map_cons, List.mapM_cons] at ih ⊢
    rw [ih]
    rfl

theorem carried_eq {value : Json} (h : value ≠ .null) : value.carried = some value := by
  cases value with
  | null => exact absurd rfl h
  | _ => rfl

theorem stringEntries_kept (entries : List (String × String)) :
    (stringEntries entries).Kept numbers := by
  rw [stringEntries, Json.Kept, keptEntries_iff]
  intro e he
  obtain ⟨entry,-,rfl⟩ := List.mem_map.mp he
  trivial

theorem Sound.toJson_kept (h : lockfile.Sound numbers) : lockfile.toJson.Kept numbers := by
  have hversion : numbers.read (toString lockFileVersion) = some (toString lockFileVersion) :=
    numbers.whole _ (by decide)
  exact ⟨hversion,stringEntries_kept _,stringEntries_kept _,h.moduleExtensions.1,h.facts.1,
    h.factsVersions.1,trivial⟩

theorem Sound.wire_toJson (h : lockfile.Sound numbers) : wire lockfile.toJson =
    some ⟨lockfile.registryFileHashes.toList.map fun entry => (entry.1,hashText entry.2),
      lockfile.selectedYankedVersions,lockfile.moduleExtensions,lockfile.facts,
      lockfile.factsVersions⟩ := by
  simp [wire, wireField, toJson, Json.entries, pairs_stringEntries, carried_eq h.moduleExtensions.2,
    carried_eq h.facts.2, carried_eq h.factsVersions.2]

theorem Sound.hashes_back (h : lockfile.Sound numbers) :
    (lockfile.registryFileHashes.toList.map fun entry => (entry.1,hashText entry.2)).foldl
      (fun hashes entry => hashes.insert entry.1 (readHash entry.2)) ∅ =
        lockfile.registryFileHashes := by
  have hread : lockfile.registryFileHashes.toList.map
      (fun entry => (entry.1,readHash (hashText entry.2))) = lockfile.registryFileHashes.toList := by
    refine (List.map_congr_left fun e he => ?_).trans (List.map_id _)
    rw [readHash_hashText fun hex hhex => h.hashes e.1 hex ?_]
    · rfl
    · rw [← hhex]
      exact Std.ExtTreeMap.mem_toList_iff_getElem?_eq_some.mp he
  calc _ = merged (lockfile.registryFileHashes.toList.map
        (fun entry => (entry.1,readHash (hashText entry.2)))) := by
        rw [merged, List.foldl_map, List.foldl_map]
    _ = lockfile.registryFileHashes := by rw [hread, merged_toList]

/-- What is written is read as the same. -/
theorem Sound.parse_toText (h : lockfile.Sound numbers) :
    parse numbers lockfile.toText = .ok lockfile := by
  have hversion : (lockfile.toJson.get "lockFileVersion").bind Json.asU64 = some lockFileVersion := by
    rfl
  rw [parse, toText, read_pretty _ h.toJson_kept]
  dsimp only
  rw [hversion]
  dsimp only
  rw [if_neg (by simp), h.wire_toJson]
  dsimp only
  rw [ofWire, h.hashes_back]

end Back

section Parsed
variable {numbers : Numbers} {value : Json} {text : String}

theorem wireField_ok {α : Type} {P : α → Prop} {name : String} {read : Json → Option α}
    {missing : α} {a : α} (hmissing : P missing)
    (hread : ∀ entry ∈ value.entries, ∀ b, read entry.2 = some b → P b)
    (h : wireField value name read missing = some a) : P a := by
  unfold wireField at h
  split at h
  · cases h
    exact hmissing
  · next entry hone =>
    have hmem : entry ∈ value.entries.filter fun entry => entry.1 = name := by
      rw [hone]
      exact List.mem_singleton.mpr rfl
    exact hread entry (List.mem_of_mem_filter hmem) a h
  · cases h

theorem carried_sound {v w : Json} (hv : v.Kept numbers) (h : v.carried = some w) :
    w.Kept numbers ∧ w ≠ .null := by
  cases v with
  | null =>
    cases h
    exact ⟨trivial,nofun⟩
  | _ =>
    cases h
    exact ⟨hv,nofun⟩

theorem entries_kept (h : value.Kept numbers) : ∀ entry ∈ value.entries, entry.2.Kept numbers := by
  cases value with
  | object entries => exact (keptEntries_iff numbers entries).mp h
  | _ => exact nofun

theorem carriedField_sound {name : String} {w : Json} (hkept : value.Kept numbers)
    (h : wireField value name Json.carried (.object []) = some w) : w.Kept numbers ∧ w ≠ .null := by
  have hmissing : Json.Kept numbers (.object []) ∧ Json.object [] ≠ .null := ⟨trivial,nofun⟩
  exact @wireField_ok value Json (fun w => w.Kept numbers ∧ w ≠ .null) name Json.carried _ w hmissing
    (fun entry hmem _ => carried_sound (entries_kept hkept entry hmem)) h

theorem readHash_sound (entries : List (String × String)) (url hex : String) (h : (entries.foldl (fun hashes entry => hashes.insert entry.1 (readHash entry.2))
      (∅ : Std.ExtTreeMap String FileHash))[url]? = some (FileHash.sha256 hex)) : hex ≠ notFoundText := by
  have hmerged : (merged (entries.map fun entry => (entry.1,readHash entry.2)))[url]? =
      some (.sha256 hex) := by rwa [merged, List.foldl_map]
  obtain ⟨entry,-,hentry⟩ := List.mem_map.mp (merged_mem hmerged)
  intro heq
  have hhash : readHash entry.2 = .sha256 hex := congrArg Prod.snd hentry
  unfold readHash at hhash
  split at hhash
  · cases hhash
  · next hne =>
    cases hhash
    exact hne heq

theorem default_sound : Lockfile.default.Sound numbers where
  hashes url hex h := by simp [Lockfile.default] at h
  moduleExtensions := ⟨trivial,nofun⟩
  facts := ⟨trivial,nofun⟩
  factsVersions := ⟨trivial,nofun⟩

theorem parse_sound {lockfile : Lockfile} (h : parse numbers text = .ok lockfile) :
    lockfile.Sound numbers := by
  unfold parse at h
  split at h
  · cases h
  · next value hread =>
    have hkept := read_kept hread
    split at h
    · cases h
    · split at h
      · cases h
      · split at h
        · cases h
        · next w hwire =>
          cases h
          simp only [wire, Option.bind_eq_bind, Option.bind_eq_some_iff] at hwire
          obtain ⟨hashes,-,yanked,-,extensions,hext,facts,hfacts,versions,hversions,heq⟩ := hwire
          cases heq
          exact ⟨readHash_sound hashes,carriedField_sound hkept hext,
            carriedField_sound hkept hfacts,carriedField_sound hkept hversions⟩

end Parsed

end Lockfile

namespace LockSession

def setModuleExtensions (session : LockSession) (evaluated : Json) (used : List String) :
    LockSession :=
  { session with extensions := some (evaluated,used) }

def setFacts (session : LockSession) (kept : List (String × Json)) : LockSession :=
  { session with facts := kept }

/-- The text to write, where the mode writes and the file would change. -/
def toWrite (session : LockSession) (touched : Std.ExtTreeMap String FileHash)
    (selectedYanked : List (ModuleKey × String)) (existing : Option String) : Option String :=
  if !session.mode.writes then none
  else
    let text := (session.finish touched selectedYanked).toText
    if existing ≠ some text then some text else none

/-- What a run tells its session. -/
inductive Call where
  | moduleExtensions (evaluated : Json) (used : List String)
  | facts (kept : List (String × Json))
  | repositoryCache (dir : String)

def Call.run (session : LockSession) : Call → LockSession
  | .moduleExtensions evaluated used => session.setModuleExtensions evaluated used
  | .facts kept => session.setFacts kept
  | .repositoryCache dir => { session with repositoryCache := some dir }

def calls (session : LockSession) (made : List Call) : LockSession := made.foldl Call.run session

def Call.Kept (numbers : Numbers) : Call → Prop
  | .moduleExtensions evaluated _ => evaluated.Kept numbers
  | .facts kept => KeptEntries numbers kept
  | .repositoryCache _ => True

section Merging
variable (session : LockSession)

theorem mergedFacts_again (previous : Json) :
    session.mergedFacts (session.mergedFacts previous) = session.mergedFacts previous := by
  by_cases hnone : session.facts = [] ∧ (session.extensions.map Prod.snd).isNone
  · have hprevious : ∀ json, session.mergedFacts json = json := fun json => if_pos hnone
    rw [hprevious, hprevious]
  · have hmerged : ∀ json, session.mergedFacts json = .object (merged ((json.entries.filter
        fun entry => (session.extensions.map Prod.snd).all fun used => used.contains entry.1) ++
          session.facts)).toList := fun json => if_neg hnone
    rw [hmerged, hmerged, Json.entries,
      @merged_again _ _ _ _ _ _ _ session.facts
        (fun id => (session.extensions.map Prod.snd).all fun used => used.contains id)]
    intro e he
    exact (List.mem_filter.mp he).2

/-- The results of every extension under every factor, a later one in place of an
earlier one. -/
def byFactor (entries : List (String × Json)) :
    Std.ExtTreeMap String (Std.ExtTreeMap String Json) :=
  entries.foldl (fun merged entry => merged.insert entry.1 (entry.2.entries.foldl
    (fun factors factor => factors.insert factor.1 factor.2) (merged[entry.1]?.getD ∅))) ∅

def factorsOf (id : String) (entries : List (String × Json)) : List (String × Json) :=
  (entries.filter fun entry => entry.1 = id).flatMap fun entry => entry.2.entries

theorem factorsOf_append (id : String) (a b : List (String × Json)) :
    factorsOf id (a ++ b) = factorsOf id a ++ factorsOf id b := by
  rw [factorsOf, List.filter_append, List.flatMap_append, factorsOf, factorsOf]

theorem factorsOf_absent {id : String} {entries : List (String × Json)}
    (h : id ∉ entries.map Prod.fst) : factorsOf id entries = [] := by
  rw [factorsOf, List.filter_eq_nil_iff.mpr, List.flatMap_nil]
  intro e he heq
  exact h (List.mem_map.mpr ⟨e,he,of_decide_eq_true heq⟩)

theorem byFactor_get (entries : List (String × Json)) (id : String) :
    (byFactor entries)[id]? =
      if id ∈ entries.map Prod.fst then some (merged (factorsOf id entries)) else none := by
  induction entries using List.reverseRecOn with
  | nil => simp [byFactor]
  | append_singleton entries e ih =>
    rw [byFactor, List.foldl_append, List.foldl_cons, List.foldl_nil, ← byFactor,
      Std.ExtTreeMap.getElem?_insert, if_congr Std.LawfulEqOrd.compare_eq_iff_eq rfl rfl,
      factorsOf_append, List.map_append]
    by_cases heq : e.1 = id
    · subst heq
      have hbefore : (byFactor entries)[e.1]?.getD ∅ = merged (factorsOf e.1 entries) := by
        rw [ih]
        split
        · rfl
        · next habsent =>
          rw [factorsOf_absent habsent]
          rfl
      have hone : factorsOf e.1 [e] = e.2.entries := by simp [factorsOf]
      rw [if_pos rfl, if_pos (by simp), hbefore, hone, merged, merged, List.foldl_append]
    · have hone : factorsOf id [e] = [] := factorsOf_absent (by simpa using Ne.symm heq)
      rw [if_neg heq, ih, hone, List.append_nil]
      refine if_congr ?_ rfl rfl
      rw [List.mem_append, List.map_singleton, List.mem_singleton]
      exact ⟨.inl,fun h => h.resolve_right fun hid => heq hid.symm⟩

/-- The entries of a merged object that are still used. -/
def stillUsed (used : List String) (results : Std.ExtTreeMap String (Std.ExtTreeMap String Json)) :
    List (String × Json) :=
  (results.toList.map fun entry => (entry.1,Json.object entry.2.toList)).filter
    fun entry => used.contains entry.1

theorem stillUsed_factors (used : List String)
    (results : Std.ExtTreeMap String (Std.ExtTreeMap String Json)) (id : String) :
    factorsOf id (stillUsed used results) =
      if used.contains id then ((results[id]?).map Std.ExtTreeMap.toList).getD [] else [] := by
  have hentries : ((stillUsed used results).filter fun entry => entry.1 = id) =
      ((results.toList.filter fun entry => entry.1 = id).filter fun entry =>
        used.contains entry.1).map fun entry => (entry.1,Json.object entry.2.toList) := by
    rw [stillUsed, List.filter_map, List.filter_map, List.filter_filter, List.filter_filter]
    congr 1
    refine List.filter_congr fun e _ => ?_
    exact Bool.and_comm _ _
  rw [factorsOf, hentries, toList_filter_key]
  cases results[id]? with
  | none => simp
  | some factors =>
    by_cases hused : used.contains id = true
    · rw [if_pos hused]
      simp only [Option.map_some, Option.toList_some, List.filter_cons, hused, if_true,
        List.filter_nil, List.map_cons, List.map_nil, List.flatMap_cons, List.flatMap_nil,
        Json.entries, List.append_nil, Option.getD_some]
    · rw [if_neg hused]
      simp only [Option.map_some, Option.toList_some, List.filter_cons, if_neg hused,
        List.filter_nil, List.map_nil, List.flatMap_nil]

theorem stillUsed_keys (used : List String)
    (results : Std.ExtTreeMap String (Std.ExtTreeMap String Json)) (id : String) :
    id ∈ (stillUsed used results).map Prod.fst ↔
      used.contains id = true ∧ results[id]?.isSome = true := by
  rw [List.mem_map]
  constructor
  · rintro ⟨e,he,rfl⟩
    obtain ⟨hmem,hused⟩ := List.mem_filter.mp he
    obtain ⟨f,hf,rfl⟩ := List.mem_map.mp hmem
    rw [Std.ExtTreeMap.mem_toList_iff_getElem?_eq_some.mp (show (f.1,f.2) ∈ results.toList from hf)]
    exact ⟨hused,rfl⟩
  · rintro ⟨hused,hsome⟩
    obtain ⟨factors,hfactors⟩ := Option.isSome_iff_exists.mp hsome
    exact ⟨(id,.object factors.toList),List.mem_filter.mpr ⟨List.mem_map.mpr
      ⟨(id,factors),Std.ExtTreeMap.mem_toList_iff_getElem?_eq_some.mpr hfactors,rfl⟩,hused⟩,rfl⟩

theorem byFactor_again {used : List String} {stay evaluated : List (String × Json)}
    (hstay : ∀ e ∈ stay, used.contains e.1 = true) :
    byFactor (stillUsed used (byFactor (stay ++ evaluated)) ++ evaluated) =
      byFactor (stay ++ evaluated) := by
  refine Std.ExtTreeMap.ext_getElem? fun id => ?_
  have hkeys : ∀ entries : List (String × Json), id ∈ (entries ++ evaluated).map Prod.fst ↔
      id ∈ entries.map Prod.fst ∨ id ∈ evaluated.map Prod.fst := by
    intro entries
    rw [List.map_append, List.mem_append]
  rw [byFactor_get, factorsOf_append, stillUsed_factors]
  by_cases hused : used.contains id = true
  · rw [if_pos hused]
    cases hbefore : (byFactor (stay ++ evaluated))[id]? with
    | some factors =>
      rw [if_pos ((hkeys _).mpr (.inl ((stillUsed_keys _ _ _).mpr
        ⟨hused,by rw [hbefore]; rfl⟩)))]
      rw [byFactor_get, factorsOf_append] at hbefore
      split at hbefore
      · cases hbefore
        have hagain := @merged_again _ _ _ _ _ _ (factorsOf id stay) (factorsOf id evaluated)
          (fun _ => true) fun _ _ => rfl
        rw [List.filter_eq_self.mpr fun _ _ => rfl] at hagain
        exact congrArg some hagain
      · cases hbefore
    | none =>
      refine if_neg fun hmem => ?_
      rcases (hkeys _).mp hmem with hstill | hevaluated
      · have hsome := ((stillUsed_keys _ _ _).mp hstill).2
        rw [hbefore] at hsome
        cases hsome
      · rw [byFactor_get, if_pos ((hkeys _).mpr (.inr hevaluated))] at hbefore
        cases hbefore
  · have habsent : id ∉ stay.map Prod.fst := by
      intro hmem
      obtain ⟨e,he,rfl⟩ := List.mem_map.mp hmem
      exact hused (hstay e he)
    rw [if_neg hused, byFactor_get, factorsOf_append, factorsOf_absent habsent]
    refine if_congr ?_ rfl rfl
    rw [hkeys, hkeys, stillUsed_keys]
    exact ⟨fun h => .inr (h.resolve_left fun hand => hused hand.1),
      fun h => .inr (h.resolve_left habsent)⟩

theorem mergedModuleExtensions_again (previous : Json) :
    session.mergedModuleExtensions (session.mergedModuleExtensions previous) =
      session.mergedModuleExtensions previous := by
  unfold mergedModuleExtensions
  cases session.extensions with
  | none => rfl
  | some extensions =>
    obtain ⟨evaluated,used⟩ := extensions
    have hagain := @byFactor_again used (previous.entries.filter fun e => used.contains e.1)
      evaluated.entries fun e he => (List.mem_filter.mp he).2
    exact congrArg (fun results : Std.ExtTreeMap String (Std.ExtTreeMap String Json) =>
      Json.object (results.toList.map fun entry => (entry.1,.object entry.2.toList))) hagain

end Merging

section Ending
variable {numbers : Numbers} {session : LockSession}

/-- A session that has been told nothing that cannot be written. -/
structure Sound (numbers : Numbers) (session : LockSession) : Prop where
  previous : ∀ lockfile, session.previous = some lockfile → lockfile.Sound numbers
  extensions : ∀ evaluated used, session.extensions = some (evaluated,used) →
    evaluated.Kept numbers
  facts : KeptEntries numbers session.facts

theorem object_sound {results : Std.ExtTreeMap String Json}
    (h : ∀ (id : String) (value : Json), results[id]? = some value → value.Kept numbers) :
    (Json.object results.toList).Kept numbers := by
  rw [Json.Kept, keptEntries_iff]
  exact fun e he => h e.1 e.2 (Std.ExtTreeMap.mem_toList_iff_getElem?_eq_some.mp he)

theorem Sound.mergedFacts (h : session.Sound numbers) {previous : Json}
    (hprevious : previous.Kept numbers ∧ previous ≠ .null) :
    (session.mergedFacts previous).Kept numbers ∧ session.mergedFacts previous ≠ .null := by
  unfold LockSession.mergedFacts
  dsimp only
  split
  · exact hprevious
  · refine ⟨object_sound fun id value hget => ?_,nofun⟩
    rcases List.mem_append.mp (merged_mem hget) with hstay | hfacts
    · exact Lockfile.entries_kept hprevious.1 _ (List.mem_of_mem_filter hstay)
    · exact (keptEntries_iff numbers _).mp h.facts _ hfacts

theorem Sound.mergedModuleExtensions (h : session.Sound numbers) {previous : Json}
    (hprevious : previous.Kept numbers ∧ previous ≠ .null) :
    (session.mergedModuleExtensions previous).Kept numbers ∧
      session.mergedModuleExtensions previous ≠ .null := by
  unfold LockSession.mergedModuleExtensions
  cases hext : session.extensions with
  | none => exact hprevious
  | some extensions =>
    obtain ⟨evaluated,used⟩ := extensions
    refine ⟨?_,nofun⟩
    rw [Json.Kept, keptEntries_iff]
    intro e he
    obtain ⟨entry,hentry,rfl⟩ := List.mem_map.mp he
    have hget := Std.ExtTreeMap.mem_toList_iff_getElem?_eq_some.mp
      (show (entry.1,entry.2) ∈ (byFactor (previous.entries.filter (fun e => used.contains e.1) ++
        evaluated.entries)).toList from hentry)
    rw [byFactor_get] at hget
    split at hget
    · have hfactors := Option.some.inj hget
      refine object_sound fun factor value hvalue => ?_
      rw [← hfactors] at hvalue
      obtain ⟨result,hresult,hmem⟩ := List.mem_flatMap.mp (merged_mem hvalue)
      refine Lockfile.entries_kept ?_ _ hmem
      rcases List.mem_append.mp (List.mem_of_mem_filter hresult) with hstay | hev
      · exact Lockfile.entries_kept hprevious.1 _ (List.mem_of_mem_filter hstay)
      · exact Lockfile.entries_kept (h.extensions _ _ hext) _ hev
    · cases hget

/-- What a session ends up with can be written. -/
theorem Sound.finish (h : session.Sound numbers) {touched : Std.ExtTreeMap String FileHash}
    (htouched : ∀ url hex : String, touched[url]? = some (FileHash.sha256 hex) →
      hex ≠ notFoundText) (selectedYanked : List (ModuleKey × String)) :
    (session.finish touched selectedYanked).Sound numbers := by
  have hprevious : (session.previous.getD .default).Sound numbers := by
    cases hsome : session.previous with
    | none => exact Lockfile.default_sound
    | some lockfile => exact h.previous lockfile hsome
  exact ⟨htouched,h.mergedModuleExtensions hprevious.moduleExtensions,
    h.mergedFacts hprevious.facts,hprevious.factsVersions⟩

theorem Sound.call (h : session.Sound numbers) {call : Call} (hcall : call.Kept numbers) :
    (Call.run session call).Sound numbers := by
  cases call with
  | moduleExtensions evaluated used =>
    refine ⟨h.previous,fun evaluated' used' heq => ?_,h.facts⟩
    cases heq
    exact hcall
  | facts kept => exact ⟨h.previous,h.extensions,hcall⟩
  | repositoryCache dir => exact ⟨h.previous,h.extensions,h.facts⟩

theorem Sound.calls (h : session.Sound numbers) {made : List Call}
    (hmade : ∀ call ∈ made, call.Kept numbers) : (session.calls made).Sound numbers := by
  induction made generalizing session with
  | nil => exact h
  | cons call made ih =>
    obtain ⟨hcall,hmade⟩ := List.forall_mem_cons.mp hmade
    exact ih (h.call hcall) hmade

/-- A new session has what was read, and has been told nothing. -/
theorem new_ok {mode : LockfileMode} {existing : Option (Except Unusable Lockfile)}
    (h : LockSession.new mode existing = .ok session) :
    session.mode = mode ∧ session.extensions = none ∧ session.facts = [] ∧
      ∀ lockfile, session.previous = some lockfile ↔ existing = some (.ok lockfile) := by
  have hsame : ∀ previous unusable, (if mode = .error ∧ Option.isSome unusable = true then
      .error (.lockfile ("The version of MODULE.bazel.lock is not supported by this version of " ++
        "Bazel. Please run `bazel mod deps --lockfile_mode=update` to update your lockfile."))
      else .ok ⟨mode,previous,unusable,none,[],none⟩) = Except.ok (ε := BzlmodError) session →
      session = ⟨mode,previous,unusable,none,[],none⟩ := by
    intro previous unusable hnew
    split at hnew
    · cases hnew
    · exact (Except.ok.inj hnew).symm
  rcases existing with _ | (why | lockfile)
  · cases hsame none none h
    exact ⟨rfl,rfl,rfl,by simp⟩
  · cases hsame none (some why) h
    exact ⟨rfl,rfl,rfl,by simp⟩
  · cases hsame (some lockfile) none h
    exact ⟨rfl,rfl,rfl,by simp⟩

theorem new_sound {mode : LockfileMode} {existing : Option String}
    (h : LockSession.new mode (existing.map (Lockfile.parse numbers)) = .ok session) :
    session.Sound numbers := by
  obtain ⟨-,hext,hfacts,hprevious⟩ := new_ok h
  refine ⟨fun lockfile hlockfile => ?_,by simp [hext],by rw [hfacts]; trivial⟩
  obtain ⟨text,-,hparse⟩ := Option.map_eq_some_iff.mp ((hprevious lockfile).mp hlockfile)
  exact Lockfile.parse_sound hparse

theorem calls_keep (session : LockSession) (made : List Call) :
    (session.calls made).mode = session.mode ∧
      (session.calls made).previous = session.previous := by
  induction made generalizing session with
  | nil => exact ⟨rfl,rfl⟩
  | cons call made ih =>
    have hrest := ih (Call.run session call)
    cases call with
    | moduleExtensions evaluated used => exact hrest
    | facts kept => exact hrest
    | repositoryCache dir => exact hrest

/-- What sessions are told is all that their extensions and facts depend on. -/
theorem calls_same {s t : LockSession} (made : List Call) (hext : s.extensions = t.extensions)
    (hfacts : s.facts = t.facts) : (s.calls made).extensions = (t.calls made).extensions ∧
      (s.calls made).facts = (t.calls made).facts := by
  induction made generalizing s t with
  | nil => exact ⟨hext,hfacts⟩
  | cons call made ih =>
    cases call with
    | moduleExtensions evaluated used => exact ih rfl hfacts
    | facts kept => exact ih hext rfl
    | repositoryCache dir => exact ih hext hfacts

/-- A session that starts from what another ended up with, and is told the same,
ends up with the same. -/
theorem finish_again {s t : LockSession} {touched : Std.ExtTreeMap String FileHash}
    {selectedYanked : List (ModuleKey × String)}
    (hprevious : t.previous = some (s.finish touched selectedYanked))
    (hext : t.extensions = s.extensions) (hfacts : t.facts = s.facts) :
    t.finish touched selectedYanked = s.finish touched selectedYanked := by
  have hmodules : ∀ json, t.mergedModuleExtensions json = s.mergedModuleExtensions json := by
    intro json
    rw [LockSession.mergedModuleExtensions, hext, LockSession.mergedModuleExtensions]
  have hfact : ∀ json, t.mergedFacts json = s.mergedFacts json := by
    intro json
    rw [LockSession.mergedFacts, hext, hfacts, LockSession.mergedFacts]
  rw [LockSession.finish, hprevious, Option.getD_some, hmodules, hfact, LockSession.finish,
    mergedModuleExtensions_again, mergedFacts_again]

end Ending

end LockSession

namespace LockedRun

section Again
variable {σ τ : Type} {run : LockedRun σ} {again : LockedRun τ}

/-- The file was fetched, from wherever. -/
def Got (run : LockedRun σ) (disk : σ) (fetches : List (ℕ × String)) (url : String) : Prop :=
  ∃ body, (url,.ok body) ∈ (run.fetchAll fetches (start disk)).1

def touchedBy (run : LockedRun σ) (disk : σ) (fetches : List (ℕ × String)) :
    Std.ExtTreeMap String FileHash :=
  (run.fetchAll fetches (start disk)).2.touched

theorem recorded (run : LockedRun σ) (disk : σ) (fetches : List (ℕ × String)) :
    Recorded run (run.fetchAll fetches (start disk)).1 (run.fetchAll fetches (start disk)).2 :=
  (start_recorded disk).fetchAll fetches

/-- The hash of a file is not the text for a file that is not there. -/
theorem sha256Hex_ne (bytes : Bytes) : run.sha256Hex bytes ≠ notFoundText := by
  intro heq
  have hmem : 'n' ∈ (run.sha256Hex bytes).toList := by
    rw [heq]
    decide
  rw [sha256Hex, String.toList_ofList] at hmem
  exact absurd (Framing.hex_digits _ _ hmem) (by decide)

theorem touchedBy_hash {disk : σ} {fetches : List (ℕ × String)} {url hex : String}
    (h : (run.touchedBy disk fetches)[url]? = some (FileHash.sha256 hex)) : hex ≠ notFoundText := by
  obtain ⟨-,body,-,hhash⟩ := ((run.recorded disk fetches).touched url (.sha256 hex)).mp h
  cases body with
  | none => cases hhash
  | some bytes =>
    cases hhash
    exact sha256Hex_ne bytes

/-- A run that starts from what another recorded, and fetches the same files,
records the same. -/
theorem touchedBy_again {disk : σ} {disk' : τ} {fetches fetches' : List (ℕ × String)}
    (hmode : again.session.mode = .update)
    (hprevious : ∀ url, again.session.previousHash url = (run.touchedBy disk fetches)[url]?)
    (hgot : ∀ url, again.Got disk' fetches' url ↔ run.Got disk fetches url) :
    again.touchedBy disk' fetches' = run.touchedBy disk fetches := by
  have hfirst := run.recorded disk fetches
  have hsecond := again.recorded disk' fetches'
  have hsame : ∀ url body body', passesThrough url = false →
      (url,.ok body) ∈ (run.fetchAll fetches (start disk)).1 →
      (url,.ok body') ∈ (again.fetchAll fetches' (start disk')).1 →
      again.hashOf body' = run.hashOf body := by
    intro url body body' hpass hbody hbody'
    have hprev : again.session.previousHash url = some (run.hashOf body) := by
      rw [hprevious]
      exact (hfirst.touched url _).mpr ⟨hpass,body,hbody,rfl⟩
    have hexpected := hsecond.expected url body' hbody' hpass
    rw [expected, hprev] at hexpected
    cases body with
    | some bytes => exact (Option.some.inj hexpected).symm
    | none =>
      rw [hashOf] at hexpected
      dsimp only at hexpected
      rw [if_pos (by rw [hmode]; decide)] at hexpected
      exact (Option.some.inj hexpected).symm
  refine Std.ExtTreeMap.ext_getElem? fun url => Option.ext fun hash => ?_
  rw [touchedBy, touchedBy, hfirst.touched, hsecond.touched]
  refine and_congr_right fun hpass => ⟨?_,?_⟩
  · rintro ⟨body',hbody',rfl⟩
    obtain ⟨body,hbody⟩ := (hgot url).mp ⟨body',hbody'⟩
    exact ⟨body,hbody,hsame url body body' hpass hbody hbody'⟩
  · rintro ⟨body,hbody,rfl⟩
    obtain ⟨body',hbody'⟩ := (hgot url).mpr ⟨body,hbody⟩
    exact ⟨body',hbody',(hsame url body body' hpass hbody hbody').symm⟩

/-- The network serves what was fetched before, and the repository cache has
nothing under a hash but what has that hash. -/
structure Serves (again : LockedRun τ) (outcomes : List (String × Fetched)) (Clean : τ → Prop) :
    Prop where
  network : ∀ url body, (url,.ok body) ∈ outcomes → again.inner url = .ok body
  cache : ∀ disk hex file bytes, Clean disk → again.session.cacheFile hex = some file →
    again.disk.read disk file = some bytes → again.sha256Hex bytes = hex
  write : ∀ disk hex file bytes, Clean disk → again.session.cacheFile hex = some file →
    again.sha256Hex bytes = hex → Clean (again.disk.write disk file bytes)

theorem fetchAll_urls (fetches : List (ℕ × String)) (s : FetchState σ) :
    (run.fetchAll fetches s).1.map Prod.fst = fetches.map Prod.snd := by
  induction fetches generalizing s with
  | nil => rfl
  | cons f fetches ih =>
    rw [fetchAll, List.map_cons, List.map_cons, ih]

variable {Clean : τ → Prop} {outcomes : List (String × Fetched)} {s : FetchState τ}

theorem Serves.cachePut (h : Serves again outcomes Clean) (hclean : Clean s.disk) {hex : String}
    {bytes : Option Bytes} (hbytes : ∀ b, bytes = some b → again.sha256Hex b = hex) :
    Clean (again.cachePut hex bytes s).disk := by
  unfold LockedRun.cachePut
  split
  · next file b hfile =>
    split
    · exact hclean
    · exact h.write _ _ _ _ hclean hfile (hbytes b rfl)
  · exact hclean

/-- What was fetched before is fetched again. -/
theorem Serves.fetchOnce (h : Serves again outcomes Clean) (hclean : Clean s.disk)
    (hmode : again.session.mode = .update) {url : String} {body : Option Bytes}
    (hbody : (url,.ok body) ∈ outcomes)
    (hprevious : passesThrough url = false →
      again.session.previousHash url = some (again.hashOf body)) (registry : String) :
    (∃ fetched, (again.fetchOnce registry url s).1 = .ok fetched) ∧
      Clean (again.fetchOnce registry url s).2.disk := by
  have hinner := h.network url body hbody
  unfold LockedRun.fetchOnce
  split
  · exact ⟨⟨body,hinner⟩,hclean⟩
  · next hpass =>
    have hprev := hprevious (Bool.eq_false_iff.mpr hpass)
    cases body with
    | none =>
      rw [hprev]
      simp only [hashOf]
      rw [if_pos (by rw [hmode]; decide)]
      exact ⟨⟨none,rfl⟩,hclean⟩
    | some bytes =>
      rw [hprev]
      simp only [hashOf]
      have hcached : ∃ b, again.sha256Hex b = again.sha256Hex bytes ∧
          (again.fetchCached url (again.sha256Hex bytes) s).1 = .ok (some b) ∧
          (again.fetchCached url (again.sha256Hex bytes) s).2.disk = s.disk := by
        unfold LockedRun.fetchCached
        split
        · next b hb =>
          obtain ⟨file,hfile,hread⟩ := Option.bind_eq_some_iff.mp hb
          exact ⟨b,h.cache _ _ _ _ hclean hfile hread,rfl,rfl⟩
        · exact ⟨bytes,rfl,hinner,rfl⟩
      unfold LockedRun.fetchWanted
      generalize again.fetchCached url (again.sha256Hex bytes) s = cached at hcached
      obtain ⟨fetched,s1⟩ := cached
      obtain ⟨b,hhash,hfetched,hdisk⟩ := hcached
      cases hfetched
      dsimp only [Option.map_some]
      rw [if_neg (by rw [hhash]; exact fun hne => hne rfl)]
      refine ⟨⟨some b,rfl⟩,h.cachePut ?_ fun b' hb' => ?_⟩
      · rw [record]
        rw [hdisk]
        exact hclean
      · cases hb'
        exact hhash

theorem Serves.fetchAll (h : Serves again outcomes Clean) (hmode : again.session.mode = .update)
    (hprevious : ∀ url body, (url,.ok body) ∈ outcomes → passesThrough url = false →
      again.session.previousHash url = some (again.hashOf body))
    (fetches : List (ℕ × String)) (hknown : ∀ f ∈ fetches, ∃ body, (f.2,.ok body) ∈ outcomes)
    (hclean : Clean s.disk) : ∀ p ∈ (again.fetchAll fetches s).1, ∃ body, p.2 = .ok body := by
  induction fetches generalizing s with
  | nil => exact nofun
  | cons f fetches ih =>
    obtain ⟨⟨body,hbody⟩,hknown⟩ := List.forall_mem_cons.mp hknown
    have hone : (∃ fetched, (again.fetch f.1 f.2 s).1 = .ok fetched) ∧
        Clean (again.fetch f.1 f.2 s).2.disk := by
      unfold LockedRun.fetch
      split
      · next done _ => exact ⟨⟨done,rfl⟩,hclean⟩
      · have honce := h.fetchOnce hclean hmode hbody (hprevious f.2 body hbody)
          (again.registry f.1)
        generalize again.fetchOnce (again.registry f.1) f.2 s = once at honce
        obtain ⟨r,s1⟩ := once
        obtain ⟨⟨fetched,hfetched⟩,hdisk⟩ := honce
        cases hfetched
        exact ⟨⟨fetched,rfl⟩,hdisk⟩
    intro p hp
    rcases List.mem_cons.mp hp with rfl | hp
    · exact hone.1
    · exact ih hknown hone.2 p hp

theorem got_of_all {disk : σ} {fetches : List (ℕ × String)}
    (h : ∀ p ∈ (run.fetchAll fetches (start disk)).1, ∃ body, p.2 = .ok body) (url : String) :
    run.Got disk fetches url ↔ url ∈ fetches.map Prod.snd := by
  rw [← @fetchAll_urls σ run fetches (start disk), List.mem_map]
  constructor
  · rintro ⟨body,hbody⟩
    exact ⟨_,hbody,rfl⟩
  · rintro ⟨p,hp,rfl⟩
    obtain ⟨body,hbody⟩ := h p hp
    exact ⟨body,by rw [← hbody]; exact hp⟩

end Again

/-- What an updating run ends up with is read back from its text as it was. A
second run that starts from that text, is told the same and fetches the same
files has nothing to write; and where all files could be fetched, and are still
served as they were, they can be fetched again. -/
theorem lockfile_stable {σ τ : Type} (numbers : Numbers) (existing : Option String)
    (made : List LockSession.Call) (hmade : ∀ call ∈ made, call.Kept numbers)
    (first : LockSession)
    (hfirst : LockSession.new .update (existing.map (Lockfile.parse numbers)) = .ok first)
    (run : LockedRun σ) (hrun : run.session = first.calls made) (disk : σ)
    (fetches : List (ℕ × String)) (selectedYanked : List (ModuleKey × String))
    (lockfile : Lockfile)
    (hlockfile : lockfile = run.session.finish (run.touchedBy disk fetches) selectedYanked) :
    run.session.toWrite (run.touchedBy disk fetches) selectedYanked existing =
      (if existing = some lockfile.toText then none else some lockfile.toText) ∧
    Lockfile.parse numbers lockfile.toText = .ok lockfile ∧
    ∀ second, LockSession.new .update ((some lockfile.toText).map (Lockfile.parse numbers)) =
      .ok second → ∀ (again : LockedRun τ) (disk' : τ), again.session = second.calls made →
      (∀ fetches', (∀ url, again.Got disk' fetches' url ↔ run.Got disk fetches url) →
        again.session.toWrite (again.touchedBy disk' fetches') selectedYanked
          (some lockfile.toText) = none) ∧
      ∀ Clean : τ → Prop, again.sha256 = run.sha256 → Clean disk' →
        Serves again (run.fetchAll fetches (start disk)).1 Clean →
        (∀ p ∈ (run.fetchAll fetches (start disk)).1, ∃ body, p.2 = .ok body) →
        (∀ p ∈ (again.fetchAll fetches (start disk')).1, ∃ body, p.2 = .ok body) ∧
        again.session.toWrite (again.touchedBy disk' fetches) selectedYanked
          (some lockfile.toText) = none := by
  obtain ⟨hmode,hext,hfacts,-⟩ := LockSession.new_ok hfirst
  have hupdate : run.session.mode = .update := by
    rw [hrun, (LockSession.calls_keep first made).1, hmode]
  have hsound : run.session.Sound numbers := by
    rw [hrun]
    exact (LockSession.new_sound hfirst).calls hmade
  have hparse : Lockfile.parse numbers lockfile.toText = .ok lockfile := by
    rw [hlockfile]
    exact (hsound.finish (fun _ _ => touchedBy_hash) selectedYanked).parse_toText
  refine ⟨?_,hparse,?_⟩
  · rw [LockSession.toWrite, hupdate, ← hlockfile]
    simp only [LockfileMode.writes, Bool.not_true, Bool.false_eq_true, if_false, ne_eq, ite_not]
  intro second hsecond again disk' hagain
  obtain ⟨hmode',hext',hfacts',hprevious'⟩ := LockSession.new_ok hsecond
  have hupdate' : again.session.mode = .update := by
    rw [hagain, (LockSession.calls_keep second made).1, hmode']
  have hprevious : again.session.previous = some lockfile := by
    rw [hagain, (LockSession.calls_keep second made).2, hprevious', Option.map_some, hparse]
  have hhash : ∀ url, again.session.previousHash url = (run.touchedBy disk fetches)[url]? := by
    intro url
    rw [LockSession.previousHash, hprevious, hlockfile]
    rfl
  obtain ⟨hsameExt,hsameFacts⟩ := @LockSession.calls_same second first made (by rw [hext', hext])
    (by rw [hfacts', hfacts])
  have hstable : ∀ fetches', (∀ url, again.Got disk' fetches' url ↔ run.Got disk fetches url) →
      again.session.toWrite (again.touchedBy disk' fetches') selectedYanked
        (some lockfile.toText) = none := by
    intro fetches' hgot
    have hfinish : again.session.finish (again.touchedBy disk' fetches') selectedYanked =
        lockfile := by
      rw [touchedBy_again hupdate' hhash hgot, LockSession.finish_again (s := run.session)
        (by rw [hprevious, hlockfile]) (by rw [hagain, hrun, hsameExt])
        (by rw [hagain, hrun, hsameFacts]), hlockfile]
    rw [LockSession.toWrite, hfinish]
    simp
  refine ⟨hstable,fun Clean hsha hclean hserves hall => ?_⟩
  have hagainHash : ∀ body, again.hashOf body = run.hashOf body := by
    intro body
    cases body with
    | none => rfl
    | some bytes => rw [hashOf, hashOf, sha256Hex, sha256Hex, hsha]
  have hknown : ∀ f ∈ fetches,
      ∃ body, (f.2,.ok body) ∈ (run.fetchAll fetches (start disk)).1 := fun f hf =>
    (got_of_all hall f.2).mpr (List.mem_map.mpr ⟨f,hf,rfl⟩)
  have hagainAll := hserves.fetchAll hupdate' (fun url body hbody hpass => by
    rw [hhash, hagainHash]
    exact ((run.recorded disk fetches).touched url _).mpr ⟨hpass,body,hbody,rfl⟩) fetches hknown
    (s := start disk') hclean
  exact ⟨hagainAll,hstable fetches fun url => by rw [got_of_all hall, got_of_all hagainAll]⟩

/-- A lockfile with facts of an extension that is no longer used. -/
def staleFacts : String := "\x7b\"lockFileVersion\": 28, \"facts\": \x7b\"a\": 1\x7d\x7d"

def keptFacts : List LockSession.Call :=
  [.moduleExtensions (.object []) ["b"],.facts [("b",.string "\u2028")]]

def staleSession : LockSession where
  mode := .update
  previous := some { Lockfile.default with facts := .object [("a",.number "1")] }
  unusable := none
  extensions := none
  facts := []
  repositoryCache := none

def withSession (session : LockSession) : LockedRun Unit :=
  { emptyFiles .update with session := session.calls keptFacts }

def oneFile : List (ℕ × String) := [(0,"https://r/modules/a/1.0/MODULE.bazel")]

theorem staleSession_new : LockSession.new .update
    ((some staleFacts).map (Lockfile.parse wholeNumbers)) = .ok staleSession := by
  rfl

theorem lockfile_stable_stale : ∃ lockfile second,
    lockfile = (withSession staleSession).session.finish
      ((withSession staleSession).touchedBy () oneFile) [] ∧
    LockSession.new .update ((some lockfile.toText).map (Lockfile.parse wholeNumbers)) =
      .ok second ∧
    (withSession second).session.toWrite ((withSession second).touchedBy () oneFile) []
      (some lockfile.toText) = none := by
  have h := lockfile_stable (τ := Unit) wholeNumbers (some staleFacts) keptFacts (by
    intro call hcall
    simp only [keptFacts, List.mem_cons, List.not_mem_nil, or_false] at hcall
    rcases hcall with rfl | rfl
    · trivial
    · exact ⟨trivial,trivial⟩) staleSession staleSession_new (withSession staleSession) rfl ()
    oneFile [] _ rfl
  generalize hlockfile : (withSession staleSession).session.finish
    ((withSession staleSession).touchedBy () oneFile) [] = lockfile at h
  obtain ⟨-,hparse,hstable⟩ := h
  have hnew : LockSession.new .update ((some lockfile.toText).map (Lockfile.parse wholeNumbers)) =
      .ok { staleSession with previous := some lockfile } := by
    rw [Option.map_some, hparse]
    rfl
  refine ⟨lockfile,{ staleSession with previous := some lockfile },rfl,hnew,
    ((hstable _ hnew (withSession _) () rfl).2 (fun _ => True) rfl trivial ?_ ?_).2⟩
  · refine ⟨fun url body hbody => ?_,fun _ _ _ _ _ _ hread => (by cases hread),fun _ _ _ _ _ _ _ => trivial⟩
    cases List.mem_singleton.mp hbody
    rfl
  · intro p hp
    cases List.mem_singleton.mp hp
    exact ⟨some [],rfl⟩

end LockedRun

end BuildFiji.Bzlmod
