import BuildFiji.Bzlmod.Lockfile

/-!
# What a run records

Which hash a registry file comes to is settled before the run: it is the one the
previous lockfile has, or that of what the network serves. Every fetch that
succeeds has that hash, and records it; a fetch that fails records nothing.
-/

set_option autoImplicit false
set_option linter.all false

namespace BuildFiji.Bzlmod.LockedRun

section Step
variable {σ : Type} {run : LockedRun σ} {url : String} {s s' : FetchState σ} {r : Fetched}

/-- The hash a file comes to, if it can be fetched at all. -/
def expected (run : LockedRun σ) (url : String) : Option FileHash :=
  match run.session.previousHash url with
  | some (.sha256 wanted) => some (.sha256 wanted)
  | some .notFound =>
    if run.session.mode ≠ .refresh then some .notFound
    else (run.inner url).toOption.map run.hashOf
  | none => (run.inner url).toOption.map run.hashOf

/-- A file the network may be asked for. -/
def Askable (run : LockedRun σ) (url : String) : Prop :=
  run.session.mode = .error → passesThrough url = true ∨
    ∃ hex, run.session.previousHash url = some (.sha256 hex)

/-- What one fetch that is not answered from memory does. -/
structure Step (run : LockedRun σ) (url : String) (r : Fetched) (s s' : FetchState σ) : Prop where
  ok : ∀ body, r = .ok body → passesThrough url = false →
    run.expected url = some (run.hashOf body) ∧ s'.touched = s.touched.insert url (run.hashOf body)
  passed : passesThrough url = true → s'.touched = s.touched
  error : ∀ e, r = .error e → s'.touched = s.touched
  asked : s'.asked = s.asked ∨ s'.asked = s.asked ++ [url] ∧ run.Askable url
  bodies : s'.bodies = s.bodies

@[simp] theorem cachePut_touched (hex : String) (bytes : Option Bytes) :
    (run.cachePut hex bytes s).touched = s.touched := by
  unfold cachePut
  split
  · split <;> rfl
  · rfl

@[simp] theorem cachePut_asked (hex : String) (bytes : Option Bytes) :
    (run.cachePut hex bytes s).asked = s.asked := by
  unfold cachePut
  split
  · split <;> rfl
  · rfl

@[simp] theorem cachePut_bodies (hex : String) (bytes : Option Bytes) :
    (run.cachePut hex bytes s).bodies = s.bodies := by
  unfold cachePut
  split
  · split <;> rfl
  · rfl

theorem Step.of_error {e : BzlmodError} (ht : s'.touched = s.touched) (hb : s'.bodies = s.bodies)
    (ha : s'.asked = s.asked ∨ s'.asked = s.asked ++ [url] ∧ run.Askable url) :
    Step run url (.error e) s s' where
  ok := nofun
  passed _ := ht
  error _ _ := ht
  asked := ha
  bodies := hb

theorem Step.of_ok {body : Option Bytes} (hp : passesThrough url = false)
    (he : run.expected url = some (run.hashOf body))
    (ht : s'.touched = s.touched.insert url (run.hashOf body)) (hb : s'.bodies = s.bodies)
    (ha : s'.asked = s.asked ∨ s'.asked = s.asked ++ [url] ∧ run.Askable url) :
    Step run url (.ok body) s s' where
  ok b hb _ := by
    cases hb
    exact ⟨he,ht⟩
  passed h := absurd h (by rw [hp]; decide)
  error := nofun
  asked := ha
  bodies := hb

theorem fetchUnknown_step (hp : passesThrough url = false)
    (he : run.expected url = (run.inner url).toOption.map run.hashOf) :
    Step run url (run.fetchUnknown url s).1 s (run.fetchUnknown url s).2 := by
  unfold fetchUnknown
  split
  · exact .of_error rfl rfl (.inl rfl)
  · next hmode =>
    have hask : run.Askable url := fun hm => absurd hm hmode
    unfold askInner
    cases hin : run.inner url with
    | error e => exact .of_error rfl rfl (.inr ⟨rfl,hask⟩)
    | ok fetched =>
      rw [hin] at he
      cases fetched with
      | none => exact .of_ok hp he rfl rfl (.inr ⟨rfl,hask⟩)
      | some bytes =>
        exact .of_ok hp he (cachePut_touched _ _) (cachePut_bodies _ _)
          (.inr ⟨cachePut_asked _ _,hask⟩)

theorem fetchWanted_step {registry wanted : String} (hp : passesThrough url = false)
    (hprev : run.session.previousHash url = some (.sha256 wanted)) :
    Step run url (run.fetchWanted registry url wanted s).1 s
      (run.fetchWanted registry url wanted s).2 := by
  have hask : run.Askable url := fun _ => .inr ⟨wanted,hprev⟩
  have hcached : (run.fetchCached url wanted s).2.touched = s.touched ∧
      (run.fetchCached url wanted s).2.bodies = s.bodies ∧
      ((run.fetchCached url wanted s).2.asked = s.asked ∨
        (run.fetchCached url wanted s).2.asked = s.asked ++ [url] ∧ run.Askable url) := by
    unfold fetchCached
    split
    · exact ⟨rfl,rfl,.inl rfl⟩
    · exact ⟨rfl,rfl,.inr ⟨rfl,hask⟩⟩
  unfold fetchWanted
  generalize run.fetchCached url wanted s = cached at hcached
  obtain ⟨fetched,s1⟩ := cached
  obtain ⟨ht,hb,ha⟩ := hcached
  cases fetched with
  | error e => exact .of_error ht hb ha
  | ok fetched =>
    dsimp only
    split
    · exact .of_error ht hb ha
    · next heq =>
      obtain ⟨bytes,rfl,rfl⟩ := Option.map_eq_some_iff.mp (not_not.mp heq)
      have hexp : run.expected url = some (run.hashOf (some bytes)) := by
        rw [expected, hprev]
        rfl
      refine .of_ok hp hexp ?_ ?_ ?_
      · rw [cachePut_touched]
        exact congrArg (fun t : Std.ExtTreeMap String FileHash => t.insert url _) ht
      · rw [cachePut_bodies]
        exact hb
      · rw [cachePut_asked]
        exact ha

theorem fetchOnce_step (registry : String) :
    Step run url (run.fetchOnce registry url s).1 s (run.fetchOnce registry url s).2 := by
  unfold fetchOnce
  split
  · next hp =>
    exact ⟨fun _ _ h => absurd h (by rw [hp]; decide),fun _ => rfl,fun _ _ => rfl,
      .inr ⟨rfl,fun _ => .inl hp⟩,rfl⟩
  · next hp =>
    have hp : passesThrough url = false := Bool.eq_false_iff.mpr hp
    split
    · next hprev =>
      split
      · next hmode =>
        have hexp : run.expected url = some (run.hashOf none) := by
          rw [expected, hprev]
          exact if_pos hmode
        exact .of_ok hp hexp rfl rfl (.inl rfl)
      · next hmode =>
        apply fetchUnknown_step hp
        rw [expected, hprev]
        exact if_neg hmode
    · next wanted hprev => exact fetchWanted_step hp hprev
    · next hprev =>
      apply fetchUnknown_step hp
      rw [expected, hprev]

end Step

section Runs
variable {σ : Type} {run : LockedRun σ} {s : FetchState σ}

/-- What holds after the fetches so far. -/
structure Recorded (run : LockedRun σ) (outcomes : List (String × Fetched)) (s : FetchState σ) :
    Prop where
  expected : ∀ url body, (url,.ok body) ∈ outcomes → passesThrough url = false →
    run.expected url = some (run.hashOf body)
  touched : ∀ url hash, s.touched[url]? = some hash ↔ passesThrough url = false ∧
    ∃ body, (url,.ok body) ∈ outcomes ∧ hash = run.hashOf body
  bodies : ∀ i url body, (s.bodies i)[url]? = some body → (url,.ok body) ∈ outcomes
  asked : ∀ url ∈ s.asked, run.Askable url

theorem start_recorded (disk : σ) : Recorded run [] (start disk) :=
  ⟨by simp,by simp [start],by simp [start],by simp [start]⟩

theorem touched_insert (touched : Std.ExtTreeMap String FileHash) (url url' : String)
    (hash : FileHash) :
    (touched.insert url hash)[url']? = if url = url' then some hash else touched[url']? := by
  rw [Std.ExtTreeMap.getElem?_insert]
  exact if_congr Std.LawfulEqOrd.compare_eq_iff_eq rfl rfl

/-- One more fetch that is answered from memory. -/
theorem Recorded.again {outcomes : List (String × Fetched)} (h : Recorded run outcomes s)
    {url : String} {body : Option Bytes} (hmem : (url,.ok body) ∈ outcomes) :
    Recorded run (outcomes ++ [(url,.ok body)]) s := by
  have hiff : ∀ p, p ∈ outcomes ++ [(url,.ok body)] ↔ p ∈ outcomes := by
    intro p
    simp only [List.mem_append, List.mem_singleton, or_iff_left_iff_imp]
    rintro rfl
    exact hmem
  refine ⟨fun url body hb => h.expected url body ((hiff _).mp hb),fun url hash => ?_,
    fun i url body hb => (hiff _).mpr (h.bodies i url body hb),h.asked⟩
  simp only [hiff]
  exact h.touched url hash

/-- What one more fetch records. -/
theorem Recorded.touched_once {outcomes : List (String × Fetched)} (h : Recorded run outcomes s)
    {url : String} {r : Fetched} {s' : FetchState σ} (hs : Step run url r s s') (url' : String)
    (hash : FileHash) : s'.touched[url']? = some hash ↔ passesThrough url' = false ∧
      ∃ body, (url',.ok body) ∈ outcomes ++ [(url,r)] ∧ hash = run.hashOf body := by
  have hother : (∀ body, (url',.ok body) ≠ (url,r) ∨ passesThrough url' = true) →
      (s.touched[url']? = some hash ↔ passesThrough url' = false ∧
        ∃ body, (url',.ok body) ∈ outcomes ++ [(url,r)] ∧ hash = run.hashOf body) := by
    intro hne
    rw [h.touched]
    refine and_congr_right fun hp => exists_congr fun body => and_congr_left fun _ => ?_
    have hne := (hne body).resolve_right (by rw [hp]; decide)
    simp [hne]
  by_cases hp : passesThrough url = true
  · rw [hs.passed hp]
    refine hother fun body => ?_
    by_cases heq : url' = url
    · exact .inr (heq ▸ hp)
    · exact .inl fun h => heq (congrArg Prod.fst h)
  · have hp : passesThrough url = false := Bool.eq_false_iff.mpr hp
    cases r with
    | error e =>
      rw [hs.error e rfl]
      exact hother fun body => .inl (by simp)
    | ok fetched =>
      obtain ⟨hexp,ht⟩ := hs.ok fetched rfl hp
      rw [ht, touched_insert]
      split
      · next heq =>
        subst heq
        constructor
        · intro hh
          cases hh
          exact ⟨hp,fetched,by simp,rfl⟩
        · rintro ⟨-,body,hb,rfl⟩
          rcases List.mem_append.mp hb with hb | hb
          · exact hexp.symm.trans (h.expected url body hb hp)
          · cases List.mem_singleton.mp hb
            rfl
      · next hne => exact hother fun body => .inl fun h => hne (congrArg Prod.fst h).symm

/-- One more fetch that is not. -/
theorem Recorded.once {outcomes : List (String × Fetched)} (h : Recorded run outcomes s)
    {url : String} {r : Fetched} {s' : FetchState σ} (hs : Step run url r s s') :
    Recorded run (outcomes ++ [(url,r)]) s' := by
  refine ⟨fun url' body hb hp => ?_,fun url' hash => ?_,fun i url' body hb => ?_,fun url' ha => ?_⟩
  · rcases List.mem_append.mp hb with hb | hb
    · exact h.expected url' body hb hp
    · cases List.mem_singleton.mp hb
      exact (hs.ok body rfl hp).1
  · exact h.touched_once hs url' hash
  · rw [hs.bodies] at hb
    exact List.mem_append_left _ (h.bodies i url' body hb)
  · rcases hs.asked with heq | ⟨heq,hask⟩
    · exact h.asked url' (heq ▸ ha)
    · rw [heq] at ha
      rcases List.mem_append.mp ha with ha | ha
      · exact h.asked url' ha
      · rw [List.mem_singleton.mp ha]
        exact hask

theorem Recorded.fetch {outcomes : List (String × Fetched)} (h : Recorded run outcomes s) (i : ℕ)
    (url : String) : Recorded run (outcomes ++ [(url,(run.fetch i url s).1)]) (run.fetch i url s).2 := by
  unfold LockedRun.fetch
  split
  · next body hb => exact h.again (h.bodies i url body hb)
  · have honce := h.once (@fetchOnce_step σ run url s (run.registry i))
    generalize run.fetchOnce (run.registry i) url s = once at honce
    obtain ⟨r,s1⟩ := once
    cases r with
    | error e => exact honce
    | ok fetched =>
      refine ⟨honce.expected,honce.touched,fun j url' body hb => ?_,honce.asked⟩
      dsimp only at hb
      by_cases hj : j = i
      · subst hj
        rw [Function.update_self, Std.ExtTreeMap.getElem?_insert] at hb
        split at hb
        · next heq =>
          cases hb
          cases Std.LawfulEqOrd.eq_of_compare heq
          exact List.mem_append_right _ (List.mem_singleton.mpr rfl)
        · exact honce.bodies j url' body hb
      · rw [Function.update_of_ne hj] at hb
        exact honce.bodies j url' body hb

theorem Recorded.fetchAll (fetches : List (ℕ × String)) {outcomes : List (String × Fetched)}
    (h : Recorded run outcomes s) :
    Recorded run (outcomes ++ (run.fetchAll fetches s).1) (run.fetchAll fetches s).2 := by
  induction fetches generalizing outcomes s with
  | nil => simpa [LockedRun.fetchAll] using h
  | cons f fetches ih =>
    have hrest := ih (h.fetch f.1 f.2)
    rw [List.append_assoc] at hrest
    exact hrest

theorem fetch_error {i : ℕ} {url : String} {e : BzlmodError} (h : (run.fetch i url s).1 = .error e) :
    (run.fetch i url s).2.touched = s.touched := by
  unfold LockedRun.fetch at h ⊢
  split at h
  · cases h
  · have hstep := @fetchOnce_step σ run url s (run.registry i)
    generalize run.fetchOnce (run.registry i) url s = once at h hstep
    obtain ⟨r,s1⟩ := once
    cases r with
    | error e => exact hstep.error e rfl
    | ok fetched => cases h

end Runs

/-- Over any run of fetches, every registry file that is returned has the hash
that the previous lockfile recorded, the new lockfile has exactly what was
fetched, with its hash, and what has no hash is not asked for where that is not
permitted. Local files and `metadata.json` take no part in this. -/
theorem lockfile_integrity {σ : Type} (run : LockedRun σ) (disk : σ) (fetches : List (ℕ × String))
    (selectedYanked : List (ModuleKey × String)) :
    (∀ url body hex, (url,.ok body) ∈ (run.fetchAll fetches (start disk)).1 →
      passesThrough url = false → run.session.previousHash url = some (.sha256 hex) →
      ∃ bytes, body = some bytes ∧ run.sha256Hex bytes = hex) ∧
    (∀ url hash, (run.session.finish (run.fetchAll fetches (start disk)).2.touched
      selectedYanked).registryFileHashes[url]? = some hash ↔ passesThrough url = false ∧
        ∃ body, (url,.ok body) ∈ (run.fetchAll fetches (start disk)).1 ∧ hash = run.hashOf body) ∧
    (∀ i url e, (run.fetch i url (run.fetchAll fetches (start disk)).2).1 = .error e →
      (run.fetch i url (run.fetchAll fetches (start disk)).2).2.touched =
        (run.fetchAll fetches (start disk)).2.touched) ∧
    (run.session.mode = .error → ∀ url ∈ (run.fetchAll fetches (start disk)).2.asked,
      passesThrough url = false → ∃ hex, run.session.previousHash url = some (.sha256 hex)) := by
  have h : Recorded run (run.fetchAll fetches (start disk)).1 (run.fetchAll fetches (start disk)).2 :=
    (start_recorded disk).fetchAll fetches
  refine ⟨fun url body hex hb hp hprev => ?_,h.touched,fun i url e => fetch_error,
    fun hmode url ha hp => ?_⟩
  · have hexp := h.expected url body hb hp
    rw [expected, hprev] at hexp
    cases body with
    | none => cases hexp
    | some bytes =>
      cases hexp
      exact ⟨bytes,rfl,rfl⟩
  · exact (h.asked url ha hmode).resolve_left (by rw [hp]; decide)

/-- A registry of empty files, and a lockfile that has the hash of one of them. -/
def emptyFiles (mode : LockfileMode) : LockedRun Unit where
  session := ⟨mode,some { Lockfile.default with
    registryFileHashes := (∅ : Std.ExtTreeMap String FileHash).insert
      "https://r/modules/a/1.0/MODULE.bazel"
      (.sha256 "e3b0c44298fc1c149afbf4c8996fb92427ae41e4649b934ca495991b7852b855") },
    none,none,[],none⟩
  sha256 _ := Framing.emptyDigest
  disk := ⟨fun _ _ => none,fun _ _ => false,fun _ _ _ => ()⟩
  inner _ := .ok (some [])
  registry _ := "https://r"

theorem lockfile_integrity_locked :
    ("https://r/modules/a/1.0/MODULE.bazel",.ok (some [])) ∈ ((emptyFiles .error).fetchAll
      [(0,"https://r/modules/a/1.0/MODULE.bazel")] (start ())).1 ∧
    ∃ bytes, (some [] : Option Bytes) = some bytes ∧ (emptyFiles .error).sha256Hex bytes =
      "e3b0c44298fc1c149afbf4c8996fb92427ae41e4649b934ca495991b7852b855" := by
  have hmem : ("https://r/modules/a/1.0/MODULE.bazel",.ok (some [])) ∈ ((emptyFiles .error).fetchAll
      [(0,"https://r/modules/a/1.0/MODULE.bazel")] (start ())).1 := by decide
  exact ⟨hmem,(lockfile_integrity (emptyFiles .error) () [(0,"https://r/modules/a/1.0/MODULE.bazel")]
    []).1 _ _ _ hmem (by decide) (by decide)⟩

/-- A local file that was fetched is not recorded, and `metadata.json` is asked
for without a hash. -/
theorem passed_through_not_recorded :
    (("file:///r/modules/a/1.0/MODULE.bazel",.ok (some [])) ∈ ((emptyFiles .error).fetchAll
      [(0,"file:///r/modules/a/1.0/MODULE.bazel")] (start ())).1 ∧
    ((emptyFiles .error).session.finish ((emptyFiles .error).fetchAll
      [(0,"file:///r/modules/a/1.0/MODULE.bazel")] (start ())).2.touched
      []).registryFileHashes["file:///r/modules/a/1.0/MODULE.bazel"]? = none) ∧
    "https://r/modules/a/metadata.json" ∈ ((emptyFiles .error).fetchAll
      [(0,"https://r/modules/a/metadata.json")] (start ())).2.asked ∧
    (emptyFiles .error).session.previousHash "https://r/modules/a/metadata.json" = none := by
  decide

end BuildFiji.Bzlmod.LockedRun
