import BuildFiji.Lib.Fallible
import BuildFiji.Repo.Credentials
import BuildFiji.Repo.MarkerText

/-!
# Which helper is asked

The host of a URL is what stands between the user's name and the port, whatever they
are. Its own helper is asked before that of the longest domain it is under, and that
before one for every host. Of two helpers for one host the last is asked, but of two
for one domain the first.
-/

set_option autoImplicit false
set_option linter.all false

namespace BuildFiji.Credentials

open BuildFiji.Recorded (Text rsplitOnce rsplitOnce_char rsplitOnce_absent rsplitOnce_some)

open BuildFiji.Graph (splitOn)

open BuildFiji.Extremes

section Urls

/-- The parts of a URL with an authority; a host with colons in it ends in a bracket. -/
structure Url where
  scheme : Text
  userInfo : Option Text
  host : Text
  port : Option Text
  tail : Text
  scheme_plain : ':' ∉ scheme
  userInfo_plain : ∀ u, userInfo = some u → ∀ c ∈ u, endsAuthority c = false
  host_plain : ∀ c ∈ host, endsAuthority c = false ∧ c ≠ '@'
  host_shape : ':' ∉ host ∨ host.getLast? = some ']'
  port_digits : ∀ p, port = some p → p.all Char.isDigit = true
  tail_starts : ∀ c, tail.head? = some c → endsAuthority c = true

namespace Url

def written (url : Url) : Text := url.host ++ (url.port.map fun p => ':'::p).getD []

def authority (url : Url) : Text := (url.userInfo.map fun u => u ++ ['@']).getD [] ++ url.written

def text (url : Url) : Text := url.scheme ++ ("://".toList ++ (url.authority ++ url.tail))

end Url

variable (url : Url)

theorem digit_plain {c : Char} (h : c.isDigit = true) : endsAuthority c = false ∧ c ≠ '@' ∧ c ≠ ':' := by
  refine ⟨?_,?_,?_⟩
  · by_contra hc
    simp only [endsAuthority, Bool.not_eq_false, Bool.or_eq_true, beq_iff_eq] at hc
    rcases hc with (rfl | rfl) | rfl <;> cases h
  · rintro rfl
    cases h
  · rintro rfl
    cases h

theorem written_plain : ∀ c ∈ url.written, endsAuthority c = false ∧ c ≠ '@' := by
  intro c hc
  rcases List.mem_append.mp hc with hc | hc
  · exact url.host_plain c hc
  · cases hp : url.port with
    | none =>
      rw [hp] at hc
      cases hc
    | some p =>
      rw [hp] at hc
      rcases List.mem_cons.mp hc with rfl | hc
      · decide
      · have hd := List.all_eq_true.mp (url.port_digits p hp) c hc
        exact ⟨(digit_plain hd).1,(digit_plain hd).2.1⟩

theorem authority_plain : ∀ c ∈ url.authority, endsAuthority c = false := by
  intro c hc
  rcases List.mem_append.mp hc with hc | hc
  · cases hu : url.userInfo with
    | none =>
      rw [hu] at hc
      cases hc
    | some u =>
      rw [hu] at hc
      rcases List.mem_append.mp hc with hc | hc
      · exact url.userInfo_plain u hu c hc
      · rw [List.mem_singleton.mp hc]
        decide
  · exact (written_plain url c hc).1

theorem takeWhile_authority :
    (url.authority ++ url.tail).takeWhile (fun c => !endsAuthority c) = url.authority := by
  rw [List.takeWhile_append_of_pos fun c hc => by rw [authority_plain url c hc]; rfl]
  cases ht : url.tail with
  | nil => rw [List.takeWhile_nil, List.append_nil]
  | cons c tail =>
    have hc : endsAuthority c = true := url.tail_starts c (by rw [ht]; rfl)
    rw [List.takeWhile_cons_of_neg (by rw [hc]; decide), List.append_nil]

theorem withoutUser_authority : withoutUser url.authority = url.written := by
  have hat : '@' ∉ url.written := fun h => (written_plain url _ h).2 rfl
  cases hu : url.userInfo with
  | none =>
    have ha : url.authority = url.written := by
      rw [Url.authority, hu]
      rfl
    rw [ha, withoutUser, rsplitOnce_absent hat]
  | some u =>
    have ha : url.authority = u ++ '@'::url.written := by
      rw [Url.authority, hu]
      simp
    rw [ha, withoutUser, rsplitOnce_char u hat]

theorem withoutPort_written : withoutPort url.written = url.host := by
  cases hp : url.port with
  | some p =>
    have hd := url.port_digits p hp
    have hcolon : ':' ∉ p := fun h => (digit_plain (List.all_eq_true.mp hd _ h)).2.2 rfl
    have hw : url.written = url.host ++ ':'::p := by
      rw [Url.written, hp]
      rfl
    simp only [withoutPort, hw, rsplitOnce_char url.host hcolon, hd, if_true]
  | none =>
    have hw : url.written = url.host := by
      rw [Url.written, hp]
      exact List.append_nil _
    rw [hw, withoutPort]
    cases hs : rsplitOnce ':' url.host with
    | none => rfl
    | some parts =>
      obtain ⟨h,port⟩ := parts
      obtain ⟨hhost,-⟩ := rsplitOnce_some hs
      have hlast : url.host.getLast? = some ']' := by
        rcases url.host_shape with hno | hlast
        · exact absurd (by rw [hhost]; simp) hno
        · exact hlast
      have hport : ¬port.all Char.isDigit = true := by
        intro hd
        rcases List.eq_nil_or_concat port with rfl | ⟨q,c,rfl⟩
        · rw [hhost, List.getLast?_concat] at hlast
          cases hlast
        · have hc : c = ']' := by
            rw [hhost, List.concat_eq_append, ← List.cons_append, ← List.append_assoc,
              List.getLast?_concat] at hlast
            exact Option.some.inj hlast
          have hdigit := List.all_eq_true.mp hd c (by simp)
          rw [hc] at hdigit
          cases hdigit
      exact if_neg hport

/-- The host is cut out of every URL as it is. -/
theorem hostOf_text : hostOf url.text = url.host := by
  have hs : Text.splitOnce "://".toList url.text = some (url.scheme,url.authority ++ url.tail) :=
    Text.splitOnce_sep _ url.scheme_plain
  rw [hostOf, hs]
  simp only [takeWhile_authority, withoutUser_authority, withoutPort_written]

end Urls

section Asked

variable {π : Type} (helpers : List (Option Text × π)) (host : Text)

def Under (host domain : Text) : Prop := host = domain ∨ '.'::domain <:+ host

def Own : Prop := ∃ h ∈ helpers, h.1 = some host

def Wild (domain : Text) : Prop := Under host domain ∧ ∃ h ∈ helpers, h.1 = some (wildcard ++ domain)

structure Longest (domain : Text) : Prop where
  wild : Wild helpers host domain
  longest : ∀ d, Wild helpers host d → d.length ≤ domain.length

/-- Whom to ask: the last helper of the host, of the longest domain it is under, or of
every host. -/
inductive Asked : Option π → Prop
  | own {h} : IsLast helpers (fun h => h.1 = some host) h → Asked (some h.2)
  | wild {domain h} : ¬Own helpers host → Longest helpers host domain →
      IsLast helpers (fun h => h.1 = some (wildcard ++ domain)) h → Asked (some h.2)
  | everyHost {h} : ¬Own helpers host → (∀ d, ¬Wild helpers host d) →
      IsLast helpers (fun h => h.1 = none) h → Asked (some h.2)
  | nobody : ¬Own helpers host → (∀ d, ¬Wild helpers host d) → (∀ h ∈ helpers, h.1 ≠ none) → Asked none

/-- The first and the last helper of a domain run one program. -/
def Agree (domain : Text) : Prop :=
  ∀ h h', IsFirst helpers (fun h => h.1 = some (wildcard ++ domain)) h →
    IsLast helpers (fun h => h.1 = some (wildcard ++ domain)) h' → h.2 = h'.2

variable {helpers host}

theorem wildcardFor_some {h : Option Text × π} {n : ℕ} {p : π} : wildcardFor host h = some (n,p) ↔
    ∃ d, h.1 = some (wildcard ++ d) ∧ Under host d ∧ n = d.length ∧ p = h.2 := by
  constructor
  · intro hw
    obtain ⟨scope,hscope,hw⟩ := Option.bind_eq_some_iff.mp hw
    obtain ⟨d,hd,hw⟩ := Option.bind_eq_some_iff.mp hw
    rw [Option.ite_none_right_eq_some, Bool.or_eq_true, beq_iff_eq, List.isSuffixOf_iff_suffix] at hw
    obtain ⟨hunder,hw⟩ := hw
    cases hw
    exact ⟨d,by rw [hscope, Recorded.dropPrefix?_some hd],hunder,rfl,rfl⟩
  · rintro ⟨d,hscope,hunder,rfl,rfl⟩
    have hcond : (host == d || ('.'::d).isSuffixOf host) = true := by
      rw [Bool.or_eq_true, beq_iff_eq, List.isSuffixOf_iff_suffix]
      exact hunder
    rw [wildcardFor, hscope]
    simp only [Option.bind_eq_bind, Option.bind_some, Recorded.dropPrefix?_append, hcond, if_true]

theorem Under.suffix {d : Text} (h : Under host d) : d <:+ host := by
  rcases h with rfl | h
  · exact List.suffix_rfl
  · exact (List.suffix_cons '.' d).trans h

/-- Domains of one length that a host is under are one. -/
theorem Under.eq_of_length {d d' : Text} (h : Under host d) (h' : Under host d')
    (hlen : d.length = d'.length) : d = d' :=
  (List.suffix_of_suffix_length_le h.suffix h'.suffix hlen.le).eq_of_length hlen

theorem Longest.unique {d d' : Text} (h : Longest helpers host d) (h' : Longest helpers host d') : d = d' :=
  h.wild.1.eq_of_length h'.wild.1 (Nat.le_antisymm (h'.longest d h.wild) (h.longest d' h'.wild))

theorem no_wild (h : maxByKey Prod.fst (helpers.reverse.filterMap (wildcardFor host)) = none) (d : Text) :
    ¬Wild helpers host d := by
  rintro ⟨hunder,x,hx,hscope⟩
  have hmem : (d.length,x.2) ∈ helpers.reverse.filterMap (wildcardFor host) :=
    List.mem_filterMap.mpr ⟨x,List.mem_reverse.mpr hx,wildcardFor_some.mpr ⟨d,hscope,hunder,rfl,rfl⟩⟩
  rw [maxByKey_none.mp h] at hmem
  cases hmem

/-- Of the longest domain the first helper is found. -/
theorem widest_first {n : ℕ} {p : π}
    (h : maxByKey Prod.fst (helpers.reverse.filterMap (wildcardFor host)) = some (n,p)) :
    ∃ d x, Longest helpers host d ∧ IsFirst helpers (fun h => h.1 = some (wildcard ++ d)) x ∧ p = x.2 := by
  obtain ⟨after,x,before,hlist,hx,hafter,hbefore⟩ := maxByKey_filterMap h
  obtain ⟨d,hscope,hunder,rfl,rfl⟩ := wildcardFor_some.mp hx
  have hsplit : helpers = before.reverse ++ x::after.reverse := by
    rw [← List.reverse_reverse helpers, hlist]
    simp
  have hless : ∀ y ∈ before, ∀ d', y.1 = some (wildcard ++ d') → Under host d' → d'.length < d.length :=
    fun y hy d' hd' hu => hbefore y hy (d'.length,y.2) (wildcardFor_some.mpr ⟨d',hd',hu,rfl,rfl⟩)
  refine ⟨d,x,⟨⟨hunder,x,by rw [hsplit]; simp,hscope⟩,?_⟩,?_,rfl⟩
  · rintro d' ⟨hu,y,hy,hd'⟩
    rw [hsplit, List.mem_append, List.mem_cons, List.mem_reverse, List.mem_reverse] at hy
    rcases hy with hy | rfl | hy
    · exact (hless y hy d' hd' hu).le
    · rw [hscope, Option.some.injEq, List.append_cancel_left_eq] at hd'
      rw [hd']
    · exact hafter y hy (d'.length,y.2) (wildcardFor_some.mpr ⟨d',hd',hu,rfl,rfl⟩)
  · refine ⟨before.reverse,after.reverse,hsplit,hscope,?_⟩
    intro y hy hd
    exact absurd (hless y (List.mem_reverse.mp hy) d hd hunder) (lt_irrefl _)

theorem agree_of_asked {d : Text} {x : Option Text × π} {chosen : Option π} (hno : ¬Own helpers host)
    (hlong : Longest helpers host d) (hfirst : IsFirst helpers (fun h => h.1 = some (wildcard ++ d)) x)
    (hasked : Asked helpers host chosen) (hchosen : chosen = some x.2) : Agree helpers d := by
  cases hasked with
  | own hlast => exact absurd ⟨_,hlast.mem.1,hlast.mem.2⟩ hno
  | wild _ hlong' hlast =>
    obtain rfl := hlong.unique hlong'
    intro y y' hy hy'
    rw [← hfirst.unique hy, ← hlast.unique hy']
    exact (Option.some.inj hchosen).symm
  | everyHost _ hwild => exact absurd hlong.wild (hwild d)
  | nobody _ hwild => exact absurd hlong.wild (hwild d)

/-- The right helper is asked exactly where the host has one of its own or its longest
domain has one program first and last. -/
theorem asked_iff : Asked helpers host (programFor helpers host) ↔
    Own helpers host ∨ ∀ d, Longest helpers host d → Agree helpers d := by
  unfold programFor
  cases hown : helpers.reverse.find? fun h => h.1 == some host with
  | some x =>
    have hlast : IsLast helpers (fun h => h.1 = some host) x := by
      have h := find?_reverse.mp hown
      simpa only [beq_iff_eq] using h
    exact iff_of_true (.own hlast) (Or.inl ⟨x,hlast.mem.1,hlast.mem.2⟩)
  | none =>
    have hno : ¬Own helpers host := by
      rintro ⟨x,hx,hscope⟩
      have h := List.find?_eq_none.mp hown x (List.mem_reverse.mpr hx)
      exact h (beq_iff_eq.mpr hscope)
    rw [or_iff_right hno]
    cases hwide : maxByKey Prod.fst (helpers.reverse.filterMap (wildcardFor host)) with
    | some widest =>
      obtain ⟨n,p⟩ := widest
      obtain ⟨d,x,hlong,hfirst,rfl⟩ := widest_first hwide
      constructor
      · intro hasked d' hlong'
        rw [← hlong.unique hlong']
        exact agree_of_asked hno hlong hfirst hasked rfl
      · intro hagree
        obtain ⟨-,y,hy,hd⟩ := hlong.wild
        obtain ⟨z,hz⟩ : ∃ z, IsLast helpers (fun h => h.1 = some (wildcard ++ d)) z := exists_isLast hy hd
        show Asked helpers host (some x.2)
        rw [hagree d hlong x z hfirst hz]
        exact .wild hno hlong hz
    | none =>
      have hwild := no_wild hwide
      refine iff_of_true ?_ fun d hlong => absurd hlong.wild (hwild d)
      cases hnone : helpers.reverse.find? fun h => h.1.isNone with
      | some x =>
        have hlast : IsLast helpers (fun h => h.1 = none) x := by
          have h := find?_reverse.mp hnone
          simpa only [Option.isNone_iff_eq_none] using h
        exact .everyHost hno hwild hlast
      | none =>
        refine .nobody hno hwild ?_
        intro x hx hscope
        have h := List.find?_eq_none.mp hnone x (List.mem_reverse.mpr hx)
        exact h (Option.isNone_iff_eq_none.mpr hscope)

end Asked

section Accepted

variable {isFile : Text → Bool} {workspace pathEnv : Text}

theorem mem_splitOn {sep c : Char} (hc : c ≠ sep) {text : Text} (h : c ∈ text) :
    ∃ part ∈ splitOn sep text, c ∈ part := by
  induction text with
  | nil => cases h
  | cons x text ih =>
    rw [splitOn]
    cases hs : splitOn sep text with
    | nil => exact absurd hs (Graph.splitOn_ne_nil sep text)
    | cons part parts =>
      rw [hs] at ih
      simp only
      by_cases hx : x = sep
      · rw [if_pos hx]
        obtain ⟨p,hp,hcp⟩ := ih ((List.mem_cons.mp h).resolve_left fun he => hc (he.trans hx))
        exact ⟨p,List.mem_cons_of_mem _ hp,hcp⟩
      · rw [if_neg hx]
        rcases List.mem_cons.mp h with rfl | h
        · exact ⟨_,List.mem_cons_self,List.mem_cons_self⟩
        · obtain ⟨p,hp,hcp⟩ := ih h
          rcases List.mem_cons.mp hp with rfl | hp
          · exact ⟨_,List.mem_cons_self,List.mem_cons_of_mem _ hcp⟩
          · exact ⟨p,List.mem_cons_of_mem _ hp,hcp⟩

theorem isDomain_char {d : Text} (h : isDomain d = true) {c : Char} (hc : c ∈ d) :
    c = '.' ∨ c = '-' ∨ c.isAlphanum = true := by
  by_cases hdot : c = '.'
  · exact Or.inl hdot
  obtain ⟨label,hlabel,hmem⟩ := mem_splitOn hdot hc
  rw [isDomain, Bool.and_eq_true, List.all_eq_true] at h
  have hl := h.2 label hlabel
  rw [Bool.and_eq_true, List.all_eq_true] at hl
  have hchar := hl.2 c hmem
  rw [Bool.or_eq_true, beq_iff_eq] at hchar
  exact Or.inr hchar.symm

theorem parseParts_scope {scope : Option Text} {program : Text} {h : CredentialHelper}
    (hp : parseParts scope program = .ok h) : h.scope = scope ∧ checkScope scope = .ok () := by
  obtain ⟨_,hscope,hp⟩ := Fallible.bind_ok.mp hp
  obtain ⟨_,-,hp⟩ := Fallible.bind_ok.mp hp
  cases hp
  exact ⟨rfl,hscope⟩

/-- The domain of a wildcard is a domain. -/
theorem accepted_domain {flags : List Text} {hs : List CredentialHelper}
    {helpers : List (Option Text × Text)} (hparse : flags.mapM parse = .ok hs)
    (hnew : new isFile workspace pathEnv hs = .ok helpers) {h : Option Text × Text} (hmem : h ∈ helpers)
    {d : Text} (hscope : h.1 = some (wildcard ++ d)) : isDomain d = true := by
  obtain ⟨x,hx,hh⟩ := Fallible.mapM_mem hnew hmem
  obtain ⟨path,-,hh⟩ := Fallible.bind_ok.mp hh
  cases hh
  obtain ⟨value,-,hvalue⟩ := Fallible.mapM_mem hparse hx
  have hcheck : checkScope (some (wildcard ++ d)) = .ok () := by
    rw [← hscope]
    rw [parse] at hvalue
    split at hvalue
    · obtain ⟨hs,hcheck⟩ := parseParts_scope hvalue
      rwa [hs]
    · obtain ⟨hs,hcheck⟩ := parseParts_scope hvalue
      rwa [hs]
  rw [checkScope, Recorded.dropPrefix?_append, Option.getD_some] at hcheck
  obtain ⟨-,hcheck⟩ := Fallible.ite_error_ok.mp hcheck
  obtain ⟨hdomain,-⟩ := Fallible.ite_error_ok.mp hcheck
  rwa [Bool.not_eq_true, Bool.not_eq_false'] at hdomain

/-- A host that is under a domain and under no other that is in a list. -/
def farUnder (n : ℕ) (d : Text) : Text := List.replicate (n+1) 'x' ++ '.'::d

theorem farUnder_under {n : ℕ} {d d' : Text} (h : Under (farUnder n d) d') (hlen : d'.length < n) :
    d'.length ≤ d.length := by
  have hlength : (farUnder n d).length = n+1+(d.length+1) := by simp [farUnder]
  rcases h with hself | ⟨t,ht⟩
  · rw [← hself, hlength] at hlen
    omega
  · by_contra hlong
    have hsum := congrArg List.length ht
    rw [hlength, List.length_append, List.length_cons] at hsum
    have hdot : (farUnder n d)[t.length]? = some '.' := by
      rw [← ht, List.getElem?_append_right (Nat.le_refl _), Nat.sub_self]
      rfl
    have hx : (farUnder n d)[t.length]? = some 'x' := by
      have hlt : t.length < n+1 := by omega
      rw [farUnder, List.getElem?_append_left (by rwa [List.length_replicate]), List.getElem?_replicate,
        if_pos hlt]
    cases hdot.symm.trans hx

theorem scopes_bounded {π : Type} (helpers : List (Option Text × π)) :
    ∃ n, ∀ h ∈ helpers, ∀ s, h.1 = some s → s.length < n := by
  induction helpers with
  | nil => exact ⟨0,nofun⟩
  | cons x helpers ih =>
    obtain ⟨n,hn⟩ := ih
    refine ⟨n+(x.1.getD []).length+1,?_⟩
    intro h hh s hs
    rcases List.mem_cons.mp hh with rfl | hh
    · rw [hs, Option.getD_some]
      omega
    · have hlt := hn h hh s hs
      omega

theorem farUnder_plain {d : Text} (hd : isDomain d = true) (n : ℕ) {c : Char} (hc : c ∈ farUnder n d) :
    (endsAuthority c = false ∧ c ≠ '@') ∧ c ≠ ':' := by
  have hchar : c = '.' ∨ c = '-' ∨ c.isAlphanum = true := by
    rcases List.mem_append.mp hc with hc | hc
    · rw [List.eq_of_mem_replicate hc]
      decide
    · rcases List.mem_cons.mp hc with rfl | hc
      · exact Or.inl rfl
      · exact isDomain_char hd hc
  rcases hchar with rfl | rfl | hchar
  · decide
  · decide
  · refine ⟨⟨?_,?_⟩,?_⟩
    · by_contra hend
      simp only [endsAuthority, Bool.not_eq_false, Bool.or_eq_true, beq_iff_eq] at hend
      rcases hend with (rfl | rfl) | rfl <;> cases hchar
    · rintro rfl
      cases hchar
    · rintro rfl
      cases hchar

def plainUrl (host : Text) (hplain : ∀ c ∈ host, endsAuthority c = false ∧ c ≠ '@') (hcolon : ':' ∉ host) :
    Url where
  scheme := "https".toList
  userInfo := none
  host := host
  port := none
  tail := []
  scheme_plain := by decide
  userInfo_plain := nofun
  host_plain := hplain
  host_shape := Or.inl hcolon
  port_digits := nofun
  tail_starts := nofun

/-- The helper of a URL's host is the right one exactly where the host has one of its
own or its longest domain has one program first and last, and that of every URL where
all domains have. -/
theorem helper_asked (flags : List Text) (hs : List CredentialHelper) (helpers : List (Option Text × Text))
    (hparse : flags.mapM parse = .ok hs) (hnew : new isFile workspace pathEnv hs = .ok helpers) :
    (∀ url : Url, Asked helpers url.host (programFor helpers (hostOf url.text)) ↔
      Own helpers url.host ∨ ∀ d, Longest helpers url.host d → Agree helpers d) ∧
    ((∀ url : Url, Asked helpers url.host (programFor helpers (hostOf url.text))) ↔
      ∀ d, Agree helpers d) := by
  have hurl : ∀ url : Url, Asked helpers url.host (programFor helpers (hostOf url.text)) ↔
      Own helpers url.host ∨ ∀ d, Longest helpers url.host d → Agree helpers d := by
    intro url
    rw [hostOf_text]
    exact asked_iff
  refine ⟨hurl,?_,fun hagree url => (hurl url).mpr (Or.inr fun d _ => hagree d)⟩
  intro hall d h h' hfirst hlast
  have hdomain := accepted_domain hparse hnew hlast.mem.1 hlast.mem.2
  obtain ⟨n,hn⟩ := scopes_bounded helpers
  have hwild : ∀ d', Wild helpers (farUnder n d) d' → d'.length ≤ d.length := by
    rintro d' ⟨hunder,x,hx,hscope⟩
    have hlt := hn x hx _ hscope
    rw [List.length_append] at hlt
    exact farUnder_under hunder (by omega)
  have hlong : Longest helpers (farUnder n d) d :=
    ⟨⟨Or.inr ⟨_,rfl⟩,h',hlast.mem⟩,hwild⟩
  have hno : ¬Own helpers (farUnder n d) := by
    rintro ⟨x,hx,hscope⟩
    have hlt := hn x hx _ hscope
    simp only [farUnder, List.length_append, List.length_replicate] at hlt
    omega
  have hplain := fun c hc => (farUnder_plain hdomain n (c := c) hc)
  have hcase := (hurl (plainUrl (farUnder n d) (fun c hc => (hplain c hc).1)
    fun hc => (hplain _ hc).2 rfl)).mp (hall _)
  exact hcase.resolve_left hno d hlong h h' hfirst hlast

def underDomain : Url := plainUrl "b.a.com".toList (by simp [endsAuthority]) (by simp)

/-- A helper for every host after one for a domain. -/
theorem helper_asked_domain :
    Asked [(some "*.a.com".toList,"/x".toList),(none,"/d".toList)] underDomain.host
      (programFor [(some "*.a.com".toList,"/x".toList),(none,"/d".toList)] (hostOf underDomain.text)) := by
  refine ((@helper_asked (fun _ => false) [] []
    ["*.a.com=/x".toList,"/d".toList] [⟨some "*.a.com".toList,"/x".toList⟩,⟨none,"/d".toList⟩] _ ?_ ?_).1
      underDomain).mpr (Or.inr ?_)
  · decide
  · decide
  · intro d _
    have hone : ∀ x ∈ [(some "*.a.com".toList,"/x".toList),(none,"/d".toList)],
        x.1 = some (wildcard ++ d) → x.2 = "/x".toList := by
      intro x hx hscope
      rcases List.mem_pair.mp hx with rfl | rfl
      · rfl
      · cases hscope
    intro h h' hfirst hlast
    exact (hone h hfirst.mem.1 hfirst.mem.2).trans (hone h' hlast.mem.1 hlast.mem.2).symm

def twice : List (Option Text × Text) :=
  [(some "*.a.com".toList,"/x".toList),(some "*.a.com".toList,"/y".toList)]

theorem twice_longest : Longest twice "b.a.com".toList "a.com".toList where
  wild := ⟨Or.inr ⟨"b".toList,rfl⟩,_,List.mem_cons_self,rfl⟩
  longest := by
    rintro d ⟨-,x,hx,hscope⟩
    have hone : x.1 = some (wildcard ++ "a.com".toList) := by
      rcases List.mem_pair.mp hx with rfl | rfl <;> rfl
    rw [hone, Option.some.injEq, List.append_cancel_left_eq] at hscope
    rw [hscope]

/-- Of two helpers for one domain the first is asked, not the last. -/
theorem first_wildcard_asked :
    ["*.a.com=/x".toList,"*.a.com=/y".toList].mapM parse =
      .ok [⟨some "*.a.com".toList,"/x".toList⟩,⟨some "*.a.com".toList,"/y".toList⟩] ∧
    programFor twice (hostOf "https://b.a.com/".toList) = some "/x".toList ∧
    IsLast twice (fun h => h.1 = some "*.a.com".toList) (some "*.a.com".toList,"/y".toList) ∧
    ¬Asked twice "b.a.com".toList (programFor twice (hostOf "https://b.a.com/".toList)) := by
  have hhost : hostOf "https://b.a.com/".toList = "b.a.com".toList := by decide
  have hlast : IsLast twice (fun h => h.1 = some "*.a.com".toList) (some "*.a.com".toList,"/y".toList) :=
    ⟨[(some "*.a.com".toList,"/x".toList)],[],rfl,rfl,nofun⟩
  refine ⟨by decide,by decide,hlast,?_⟩
  rw [hhost, asked_iff]
  rintro (⟨x,hx,hscope⟩ | hagree)
  · have hne : x.1 ≠ some "b.a.com".toList := by
      rcases List.mem_pair.mp hx with rfl | rfl <;> decide
    exact hne hscope
  · have hsame := hagree _ twice_longest (some "*.a.com".toList,"/x".toList)
      (some "*.a.com".toList,"/y".toList) ⟨[],_,rfl,rfl,nofun⟩ hlast
    exact absurd hsame (by decide)

end Accepted

end BuildFiji.Credentials
