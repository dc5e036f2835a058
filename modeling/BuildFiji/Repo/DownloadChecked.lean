import BuildFiji.Repo.Download

/-!
# Which downloads are verified

A file of the cache hashes to its name as long as no write of one is cut short.
What is downloaded or served from the cache then has the checksum that was given,
and what a distdir has as well if what was given is a checksum at all.
-/

set_option autoImplicit false
set_option linter.all false

namespace BuildFiji.Repo
open Framing

variable {crates : Crates} {env : RepoEnv} {cache : Cache}

/-- A SHA-256 in hexadecimal, or an algorithm that is known. -/
def Expected.Checkable : Expected → Prop
  | .hex text => isHex64 text = true
  | .sri algo _ => algo ∈ ["sha256","sha384","sha512"]

/-- The checksum is that of the bytes. -/
def Expected.Matches (crates : Crates) (bytes : Bytes) : Expected → Prop
  | .hex text => isHex64 text = true ∧ lowercase text.toList = hexDigest crates bytes
  | .sri algo value => ∃ actual, digest crates algo bytes = some actual ∧ crates.encode64 actual = value

def Describes (crates : Crates) (info : Info) (bytes : Bytes) : Prop :=
  info.sha256 = hexDigest crates bytes ∧
    info.integrity = "sha256-" ++ crates.encode64 (crates.sha256 bytes).toList

/-- What is returned has the checksum that was given. -/
def Verified (crates : Crates) (request : Request) (result : Except Failure (Bytes × Info)) : Prop :=
  ∀ bytes info, result = .ok (bytes,info) → Describes crates info bytes ∧
    (request.sha256 ≠ "" ∨ request.integrity ≠ "" →
      ∃ expected, expectedOf request.sha256 request.integrity = .ok (some expected) ∧
        expected.Matches crates bytes)

/-- What was given is no checksum, and a distdir has a file for it. -/
def Unchecked (env : RepoEnv) (request : Request) : Prop :=
  ∃ expected usable, expectedOf request.sha256 request.integrity = .ok (some expected) ∧
    ¬expected.Checkable ∧ usableUrls true request.urls = .ok usable ∧
    ∃ url ∈ usable, (distdirGet env url).isSome = true

section Checks

theorem digest_isSome {algo : String} {bytes : Bytes} :
    (digest crates algo bytes).isSome = true ↔ algo ∈ ["sha256","sha384","sha512"] := by
  rw [digest]
  split
  · next h => simp [h]
  · next h =>
    split
    · next h' => simp [h']
    · next h' =>
      split
      · next h'' => simp [h'']
      · next h'' => simp [h, h', h'']

theorem lowercase_hex (bytes : Bytes) : lowercase (hex bytes) = hex bytes := by
  have hdigit : ∀ n < 16, (Nat.digitChar n).toLower = Nat.digitChar n := by decide
  rw [lowercase]
  conv_rhs => rw [← List.map_id (hex bytes)]
  apply List.map_congr_left
  intro c hc
  obtain ⟨x,-,hx⟩ := List.mem_flatMap.mp hc
  have hlt := x.toNat_lt
  simp only [hexByte, List.mem_cons, List.not_mem_nil, or_false] at hx
  rcases hx with rfl | rfl
  · exact hdigit _ (by omega)
  · exact hdigit _ (by omega)

theorem Expected.Matches.checkable {expected : Expected} {bytes : Bytes}
    (h : expected.Matches crates bytes) : expected.Checkable := by
  cases expected with
  | hex text => exact h.1
  | sri algo value =>
    obtain ⟨actual,hactual,-⟩ := h
    exact digest_isSome.mp (by rw [hactual]; rfl)

theorem check_none {expected : Expected} {repo : String} {bytes : Bytes}
    (h : expected.check crates repo bytes = .ok none) : expected.Matches crates bytes := by
  cases expected with
  | hex text =>
    rw [Expected.check] at h
    split at h
    · cases h
    · next hhex =>
      rw [Bool.not_eq_true', Bool.not_eq_false] at hhex
      have hnone := Except.ok.inj h
      split at hnone
      · next heq =>
        rw [hexDigest, lowercase_hex] at heq
        exact ⟨hhex,heq.symm⟩
      · cases hnone
  | sri algo value =>
    rw [Expected.check] at h
    split at h
    · cases h
    · next actual hactual =>
      have hnone := Except.ok.inj h
      split at hnone
      · next heq =>
        refine ⟨actual,hactual,?_⟩
        have hlist := congrArg String.toList heq
        rw [String.toList_append, String.toList_append, String.toList_append, String.toList_append]
          at hlist
        exact String.toList_inj.mp (List.append_cancel_left hlist)
      · cases hnone

theorem check_error {expected : Expected} {repo : String} {bytes : Bytes} {why : String}
    (h : expected.check crates repo bytes = .error why) : ¬expected.Checkable := by
  cases expected with
  | hex text =>
    rw [Expected.check] at h
    split at h
    · next hhex => simpa [Expected.Checkable] using hhex
    · cases h
  | sri algo value =>
    rw [Expected.check] at h
    split at h
    · next hnone =>
      intro hmem
      have hsome : (digest crates algo bytes).isSome = true := digest_isSome.mpr hmem
      rw [hnone] at hsome
      cases hsome
    · cases h

theorem check_unchecked {expected : Expected} (h : ¬expected.Checkable) (repo : String)
    (bytes : Bytes) : ∃ why, expected.check crates repo bytes = .error why := by
  cases hcheck : expected.check crates repo bytes with
  | error why => exact ⟨why,rfl⟩
  | ok found =>
    cases expected with
    | hex text =>
      rw [Expected.check, if_pos (by simpa [Expected.Checkable] using h)] at hcheck
      cases hcheck
    | sri algo value =>
      have hnone : digest crates algo bytes = none := by
        rw [← Option.not_isSome_iff_eq_none, digest_isSome]
        exact h
      rw [Expected.check, hnone] at hcheck
      cases hcheck

theorem cacheKey_unchecked {expected : Expected} (h : ¬expected.Checkable) :
    expected.cacheKey crates = none := by
  cases expected with
  | hex text =>
    rw [Expected.cacheKey]
    exact if_neg h
  | sri algo value =>
    rw [Expected.cacheKey, if_neg]
    rintro rfl
    exact h List.mem_cons_self

end Checks

section Caches

/-- Every file hashes to its name. -/
def Good (crates : Crates) (cache : Cache) : Prop :=
  ∀ key bytes, cache.file key = some bytes → key = hexDigest crates bytes

theorem good_empty : Good crates Cache.empty := nofun

theorem cacheKey_matches {expected : Expected} {bytes : Bytes}
    (h : expected.cacheKey crates = some (hexDigest crates bytes)) :
    expected.Matches crates bytes := by
  cases expected with
  | hex text =>
    rw [Expected.cacheKey] at h
    split at h
    · next hhex => exact ⟨hhex,Option.some.inj h⟩
    · cases h
  | sri algo value =>
    rw [Expected.cacheKey] at h
    split at h
    · next halgo =>
      obtain ⟨decoded,hdecoded,hkey⟩ := Option.bind_eq_some_iff.mp h
      split at hkey
      · have heq := hex_injective (Option.some.inj hkey)
        refine ⟨(crates.sha256 bytes).toList,by rw [digest, if_pos halgo],?_⟩
        rw [← heq]
        exact crates.canonical value decoded hdecoded
      · cases hkey
    · cases h

theorem cacheGet_matches (hgood : Good crates cache) {expected : Expected} {ids : List String}
    {bytes : Bytes}
    (h : (expected.cacheKey crates).bind (fun key => cacheGet crates env cache key ids) = some bytes) :
    expected.Matches crates bytes := by
  obtain ⟨key,hkey,hget⟩ := Option.bind_eq_some_iff.mp h
  rw [cacheGet] at hget
  split at hget
  · apply cacheKey_matches
    rw [hkey, hgood key bytes hget]
  · cases hget

theorem putFile_good (hgood : Good crates cache) {bytes : Bytes} {written : Written}
    (hwritten : ∀ n, written ≠ .cut n) :
    Good crates (putFile cache (hexDigest crates bytes) bytes written) := by
  unfold putFile
  split
  · exact hgood
  · cases written with
    | nothing => exact hgood
    | cut n => exact absurd rfl (hwritten n)
    | whole =>
      intro key found h
      by_cases hkey : key = hexDigest crates bytes
      · subst hkey
        have h := (Function.update_self _ _ _).symm.trans h
        rw [Option.some.inj h]
      · exact hgood key found ((Function.update_of_ne hkey _ _).symm.trans h)

theorem cachePut_good (hgood : Good crates cache) {bytes : Bytes} {landing : Landing} {id : String}
    (hwritten : ∀ n, landing.written ≠ .cut n) :
    Good crates (cachePut crates env cache landing (hexDigest crates bytes) bytes id) := by
  rw [cachePut]
  split
  · dsimp only
    split
    · exact putFile_good hgood hwritten
    · exact putFile_good hgood hwritten
  · exact hgood

end Caches

section Fetches

/-- The outcomes of trying the URLs. -/
theorem tryUrls_cases {landing : Landing} {request : Request} {target : String}
    {expected : Option Expected} (urls : List String) : ∀ (attempt : ℕ) (last : String),
    (∃ failure, tryUrls crates env cache landing request target expected attempt last urls =
      (.error failure,cache)) ∨
    ∃ bytes id, tryUrls crates env cache landing request target expected attempt last urls =
      (.ok (bytes,infoOf crates bytes),
        cachePut crates env cache landing (hexDigest crates bytes) bytes id) ∧
      ∀ e, expected = some e → e.Matches crates bytes := by
  induction urls with
  | nil => exact fun attempt last => .inl ⟨_,rfl⟩
  | cons url urls ih =>
    intro attempt last
    rw [tryUrls]
    split
    · exact ih _ _
    · next bytes hbytes =>
      split
      · exact .inl ⟨_,rfl⟩
      · exact .inl ⟨_,rfl⟩
      · next hcheck =>
        refine .inr ⟨bytes,_,rfl,fun e he => ?_⟩
        subst he
        exact check_none hcheck

theorem fromDistdirs_spec {expected : Expected} {usable : List String} {bytes : Bytes}
    (h : fromDistdirs crates env expected usable = some bytes) :
    expected.Matches crates bytes ∨
      ¬expected.Checkable ∧ ∃ url ∈ usable, (distdirGet env url).isSome = true := by
  obtain ⟨url,hurl,hget⟩ := List.exists_of_findSome?_eq_some h
  obtain ⟨found,hfound,hcheck⟩ := Option.bind_eq_some_iff.mp hget
  split at hcheck
  · next hnone =>
    obtain rfl := Option.some.inj hcheck
    cases hresult : expected.check crates env.name found with
    | error why => exact .inr ⟨check_error hresult,url,hurl,by rw [hfound]; rfl⟩
    | ok outcome =>
      rw [hresult] at hnone
      cases outcome with
      | none => exact .inl (check_none hresult)
      | some mismatch => cases hnone
  · cases hcheck

/-- What a fetch does, once its URLs are sorted out. -/
theorem fetchFrom_cases (hgood : Good crates cache) {landing : Landing} {request : Request}
    {target : String} {expected : Option Expected} {usable : List String} :
    ∃ result after, fetchFrom crates env cache landing request target expected usable = (result,after) ∧
      ((∀ n, landing.written ≠ .cut n) → Good crates after) ∧
      ∀ bytes info, result = .ok (bytes,info) → info = infoOf crates bytes ∧
        ∀ e, expected = some e → e.Matches crates bytes ∨
          ¬e.Checkable ∧ ∃ url ∈ usable, (distdirGet env url).isSome = true := by
  rw [fetchFrom]
  split
  · next bytes hcached =>
    refine ⟨_,_,rfl,fun _ => hgood,fun bytes' info h => ?_⟩
    cases h
    refine ⟨rfl,fun e he => .inl ?_⟩
    subst he
    exact cacheGet_matches hgood hcached
  · split
    · next bytes hdistdir =>
      refine ⟨_,_,rfl,fun _ => hgood,fun bytes' info h => ?_⟩
      cases h
      refine ⟨rfl,fun e he => ?_⟩
      subst he
      exact fromDistdirs_spec hdistdir
    · have htried := @tryUrls_cases crates env cache landing request target expected usable 0 ""
      rcases htried with ⟨failure,htry⟩ | ⟨bytes,id,htry,hmatches⟩
      · exact ⟨_,_,htry,fun _ => hgood,nofun⟩
      · refine ⟨_,_,htry,cachePut_good hgood,fun bytes' info h => ?_⟩
        cases h
        exact ⟨rfl,fun e he => .inl (hmatches e he)⟩

theorem expectedOf_given {request : Request} {expected : Option Expected}
    (h : expectedOf request.sha256 request.integrity = .ok expected)
    (hgiven : request.sha256 ≠ "" ∨ request.integrity ≠ "") : ∃ e, expected = some e := by
  rw [expectedOf] at h
  split at h
  · split at h
    · cases h
    · exact ⟨_,(Except.ok.inj h).symm⟩
  · next hsha =>
    split at h
    · split at h
      · exact ⟨_,(Except.ok.inj h).symm⟩
      · exact ⟨_,(Except.ok.inj h).symm⟩
    · next hintegrity => exact absurd hgiven (not_or.mpr ⟨hsha,hintegrity⟩)

/-- A fetch from a good cache leaves it good, and what it returns is verified or
comes from a distdir for something that is no checksum. -/
theorem fetch_cases (hgood : Good crates cache) {landing : Landing} {request : Request}
    {target : String} :
    ((∀ n, landing.written ≠ .cut n) →
      Good crates (fetch crates env cache landing request target).2) ∧
      (Verified crates request (fetch crates env cache landing request target).1 ∨
        Unchecked env request) := by
  rw [fetch]
  split
  · exact ⟨fun _ => hgood,.inl nofun⟩
  · next expected hexpected =>
    split
    · exact ⟨fun _ => hgood,.inl nofun⟩
    · split
      · exact ⟨fun _ => hgood,.inl nofun⟩
      · exact ⟨fun _ => hgood,.inl nofun⟩
      · next usable _ husable =>
        obtain ⟨result,after,hfrom,hafter,hresult⟩ :=
          @fetchFrom_cases crates env cache hgood landing request target expected usable
        rw [hfrom]
        refine ⟨hafter,?_⟩
        by_cases hun : Unchecked env request
        · exact .inr hun
        · refine .inl fun bytes info hok => ?_
          obtain ⟨rfl,hmatches⟩ := hresult bytes info hok
          refine ⟨⟨rfl,rfl⟩,fun hgiven => ?_⟩
          obtain ⟨e,rfl⟩ := expectedOf_given hexpected hgiven
          refine ⟨e,hexpected,(hmatches e rfl).resolve_right fun hand => hun ?_⟩
          exact ⟨e,usable,hexpected,hand.1,husable,hand.2⟩

/-- What a distdir has for something that is no checksum is returned. -/
theorem fetch_unchecked {landing : Landing} {request : Request} {target : String}
    (h : Unchecked env request) :
    ¬Verified crates request (fetch crates env cache landing request target).1 := by
  obtain ⟨expected,usable,hexpected,hno,husable,url,hurl,hget⟩ := h
  obtain ⟨bytes,hbytes⟩ : ∃ bytes, fromDistdirs crates env expected usable = some bytes := by
    rw [← Option.isSome_iff_exists, fromDistdirs, List.findSome?_isSome_iff]
    obtain ⟨found,hfound⟩ := Option.isSome_iff_exists.mp hget
    obtain ⟨why,hwhy⟩ := @check_unchecked crates expected hno env.name found
    refine ⟨url,hurl,?_⟩
    rw [hfound, Option.bind_some, hwhy]
    rfl
  have hurls : request.urls ≠ [] := by
    intro hnil
    rw [hnil, usableUrls] at husable
    rw [← Except.ok.inj husable] at hurl
    cases hurl
  have hresult : (fetch crates env cache landing request target).1 = .ok (bytes,infoOf crates bytes) := by
    rw [fetch, hexpected]
    dsimp only
    rw [if_neg hurls, Option.isSome_some, husable]
    cases usable with
    | nil => cases hurl
    | cons first rest =>
      dsimp only
      rw [fetchFrom, Option.bind_some, cacheKey_unchecked hno, Option.bind_none, Option.bind_some, hbytes]
  intro hverified
  have hgiven : request.sha256 ≠ "" ∨ request.integrity ≠ "" := by
    by_contra hnone
    rw [not_or, not_not, not_not] at hnone
    rw [hnone.1, hnone.2] at hexpected
    cases hexpected
  obtain ⟨e,he,hmatches⟩ := (hverified _ _ hresult).2 hgiven
  rw [hexpected] at he
  cases he
  exact hno hmatches.checkable

end Fetches

section Runs

theorem cacheAfter_good {fetches : List Fetching}
    (hwritten : ∀ f ∈ fetches, ∀ n, f.landing.written ≠ .cut n) (hgood : Good crates cache) :
    Good crates (cacheAfter crates cache fetches) := by
  induction fetches generalizing cache with
  | nil => exact hgood
  | cons f fetches ih =>
    exact ih (fun g hg => hwritten g (List.mem_cons_of_mem _ hg))
      ((fetch_cases hgood).1 (hwritten f List.mem_cons_self))

/-- After any fetches whose writes to the cache are not cut short. -/
theorem fetch_verified_when (crates : Crates) (fetches : List Fetching)
    (hwritten : ∀ f ∈ fetches, ∀ n, f.landing.written ≠ .cut n) :
    ∀ (env : RepoEnv) (landing : Landing) (request : Request) (target : String),
      Verified crates request
        (fetch crates env (cacheAfter crates .empty fetches) landing request target).1 ↔
      ¬Unchecked env request := by
  intro env landing request target
  constructor
  · exact fun hverified hun => fetch_unchecked hun hverified
  · intro hno
    have hgood : Good crates (cacheAfter crates .empty fetches) := cacheAfter_good hwritten good_empty
    exact (fetch_cases hgood).2.resolve_right hno

/-- SHA-256 of the empty file and of one that holds `a`, and their base64. -/
def knownCrates : Crates where
  sha256 bytes := if bytes = [0x61] then #v[0xca,0x97,0x81,0x12,0xca,0x1b,0xbd,0xca,0xfa,0xc2,0x31,
    0xb3,0x9a,0x23,0xdc,0x4d,0xa7,0x86,0xef,0xf8,0x14,0x7c,0x4e,0x72,0xb9,0x80,0x77,0x85,0xaf,0xee,
    0x48,0xbb] else emptyDigest
  sha384 _ := []
  sha512 _ := []
  encode64 bytes :=
    if bytes = emptyDigest.toList then "47DEQpj8HBSa+/TImW+5JCeuQeRkm5NMpJWZG3hSuFU="
    else "ypeBEsobvcr6wjGzmiPcTaeG7/gUfE5yuYB3ha/uSLs="
  decode64 text :=
    if text = "47DEQpj8HBSa+/TImW+5JCeuQeRkm5NMpJWZG3hSuFU=" then some emptyDigest.toList else none
  canonical text bytes h := by
    split at h
    · next heq =>
      rw [← Option.some.inj h, if_pos rfl, heq]
    · cases h

/-- A server that has a file holding `a` everywhere. -/
def serving (distdirs : List (String → Option Bytes)) : RepoEnv :=
  ⟨"r",true,distdirs,fun _ _ => .error "No such file or directory",some fun _ _ => .ok [0x61]⟩

def asking (sha256 integrity : String) : Request := ⟨["https://h/f"],[],[],sha256,integrity,""⟩

def aDigest : String := "ca978112ca1bbdcafac231b39a23dc4da786eff8147c4e72b9807785afee48bb"

theorem fetch_verified_after_one :
    Verified knownCrates (asking aDigest "") (fetch knownCrates (serving []) (cacheAfter knownCrates
      .empty [⟨serving [],asking "" "","f",⟨true,.whole,true⟩⟩]) ⟨true,.whole,true⟩
      (asking aDigest "") "f").1 := by
  refine (fetch_verified_when knownCrates _ (fun f hf n => ?_) _ _ _ _).mpr ?_
  · rw [List.mem_singleton.mp hf]
    exact nofun
  · rintro ⟨expected,usable,-,-,-,url,-,hget⟩
    rw [distdirGet] at hget
    split at hget
    · cases hget
    · cases hget

/-- A write that is cut short and a distdir, for no checksum at all: in both cases
a fetch returns an empty file. -/
theorem fetch_not_verified :
    ¬Verified knownCrates (asking aDigest "") (fetch knownCrates (serving []) (cacheAfter knownCrates
      .empty [⟨serving [],asking "" "","f",⟨true,.cut 0,true⟩⟩]) ⟨true,.whole,true⟩
      (asking aDigest "") "f").1 ∧
    ¬Verified knownCrates (asking "" "md5-x") (fetch knownCrates (serving [fun _ => some []]) .empty
      ⟨true,.whole,true⟩ (asking "" "md5-x") "f").1 := by
  constructor
  · intro h
    have hresult : (fetch knownCrates (serving []) (cacheAfter knownCrates .empty
        [⟨serving [],asking "" "","f",⟨true,.cut 0,true⟩⟩]) ⟨true,.whole,true⟩
        (asking aDigest "") "f").1 = .ok ([],infoOf knownCrates []) := by decide
    obtain ⟨expected,hexpected,hmatches⟩ := (h _ _ hresult).2 (.inl (by decide))
    have hhex : expected = .hex aDigest := by
      have heq : expectedOf aDigest "" = .ok (some (.hex aDigest)) := by decide
      exact (Option.some.inj (Except.ok.inj (heq.symm.trans hexpected))).symm
    rw [hhex] at hmatches
    exact absurd hmatches.2 (by decide)
  · intro h
    have hresult : (fetch knownCrates (serving [fun _ => some []]) .empty ⟨true,.whole,true⟩
        (asking "" "md5-x") "f").1 = .ok ([],infoOf knownCrates []) := by decide
    obtain ⟨expected,hexpected,hmatches⟩ := (h _ _ hresult).2 (.inr (by decide))
    have hsri : expected = .sri "md5" "x" := by
      have heq : expectedOf "" "md5-x" = .ok (some (.sri "md5" "x")) := by decide
      exact (Option.some.inj (Except.ok.inj (heq.symm.trans hexpected))).symm
    rw [hsri] at hmatches
    exact absurd hmatches.checkable (show "md5" ∉ ["sha256","sha384","sha512"] by decide)

end Runs

end BuildFiji.Repo
