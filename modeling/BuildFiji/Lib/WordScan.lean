import Mathlib.Data.List.Basic
import Mathlib.Data.List.Forall2

/-!
# Scans of a word list, one after another

A scan goes over a list once. It takes some of the words, some of them with the word that
follows, and leaves the others in their order for the next scan. Where one way to cut the
list into pieces suits every scan, what is left is seen piece by piece.
-/

set_option autoImplicit false
set_option linter.all false

namespace BuildFiji.Scan

variable {σ α E : Type}

/-- What a scan does at a word. `next` takes the word that follows, or at the end what is given
for it, and puts the word itself back if that is refused or nothing is given. -/
inductive Reading (σ α E : Type) where
  | keep
  | fail (e : E)
  | drop (set : σ → σ)
  | next (missing : Except E (Option α)) (set : α → Except E (Option (σ → σ)))

namespace Reading

def isKeep : Reading σ α E → Bool
  | .keep => true
  | _ => false

def attached (v : α) (set : α → Except E (Option (σ → σ))) : Reading σ α E :=
  match set v with
  | .error e => .fail e
  | .ok none => .keep
  | .ok (some f) => .drop f

theorem isKeep_iff {r : Reading σ α E} : r.isKeep = true ↔ r = .keep := by
  cases r <;> simp [isKeep]

end Reading

def push (w : α) (left : Except E (σ × List α)) : Except E (σ × List α) :=
  left.map fun p => (p.1,w::p.2)

def scan (read : α → Reading σ α E) : σ → List α → Except E (σ × List α)
  | s, [] => .ok (s,[])
  | s, w::ws =>
    match read w with
    | .keep => push w (scan read s ws)
    | .fail e => .error e
    | .drop f => scan read (f s) ws
    | .next missing set =>
      match ws with
      | [] =>
        match missing with
        | .error e => .error e
        | .ok none => .ok (s,[w])
        | .ok (some v) =>
          match set v with
          | .error e => .error e
          | .ok none => .ok (s,[w])
          | .ok (some f) => .ok (f s,[])
      | v::ws =>
        match set v with
        | .error e => .error e
        | .ok none => push w (scan read s ws)
        | .ok (some f) => scan read (f s) ws

section Pieces

/-- A word, or a word with the one that follows it. -/
inductive Piece (α : Type) where
  | one (w : α)
  | two (w v : α)

def Piece.head : Piece α → α
  | .one w => w
  | .two w _ => w

def Piece.words : Piece α → List α
  | .one w => [w]
  | .two w v => [w,v]

variable (read : α → Reading σ α E)

/-- A scan takes no more and no less than the piece. -/
def Fits : Piece α → Prop
  | .one w => ∀ missing set, read w ≠ .next missing set
  | .two w v => (read w = .keep → read v = .keep) ∧ ∀ f, read w ≠ .drop f

/-- What a scan leaves of a piece that fits. -/
def left : Piece α → Except E (Option (Piece α))
  | .one w =>
    match read w with
    | .fail e => .error e
    | .drop _ => .ok none
    | _ => .ok (some (.one w))
  | .two w v =>
    match read w with
    | .fail e => .error e
    | .next _ set =>
      match set v with
      | .error e => .error e
      | .ok none => .ok (some (.one w))
      | .ok (some _) => .ok none
    | _ => .ok (some (.two w v))

variable {read}

theorem push_ok {w : α} {r : Except E (σ × List α)} {s : σ} {rest : List α}
    (h : push w r = .ok (s,rest)) : ∃ rest', r = .ok (s,rest') ∧ rest = w::rest' := by
  cases r with
  | error e => cases h
  | ok p =>
    cases h
    exact ⟨p.2,rfl,rfl⟩

example (s : σ) : scan read s [] = .ok (s,[]) := by rw [scan]

theorem scan_keep {w : α} {s : σ} {ws : List α} (h : read w = .keep) :
    scan read s (w::ws) = push w (scan read s ws) := by
  rw [scan, h]

theorem scan_drop {w : α} {s : σ} {ws : List α} {f : σ → σ} (h : read w = .drop f) :
    scan read s (w::ws) = scan read (f s) ws := by
  rw [scan, h]

theorem scan_fail {w : α} {s : σ} {ws : List α} {e : E} (h : read w = .fail e) :
    scan read s (w::ws) = .error e := by
  rw [scan, h]

theorem scan_next {w v : α} {s : σ} {ws : List α} {d : Except E (Option α)} {set : α → Except E (Option (σ → σ))}
    (h : read w = .next d set) : scan read s (w::v::ws) =
      match set v with
      | .error e => .error e
      | .ok none => push w (scan read s ws)
      | .ok (some f) => scan read (f s) ws := by
  rw [scan, h]

/-- One piece at a time. -/
theorem scan_piece {p : Piece α} (hfits : Fits read p) {s s' : σ} {ws rest : List α}
    (h : scan read s (p.words ++ ws) = .ok (s',rest)) :
    ∃ q s'' rest', left read p = .ok q ∧ scan read s'' ws = .ok (s',rest') ∧
      rest = (q.toList.flatMap Piece.words) ++ rest' := by
  cases p with
  | one w =>
    change scan read s (w::ws) = _ at h
    rw [left]
    cases hw : read w with
    | keep =>
      rw [scan_keep hw] at h
      obtain ⟨rest',hrest,rfl⟩ := push_ok h
      exact ⟨_,s,rest',rfl,hrest,rfl⟩
    | fail e =>
      rw [scan_fail hw] at h
      cases h
    | drop f =>
      rw [scan_drop hw] at h
      exact ⟨none,f s,rest,rfl,h,rfl⟩
    | next d set => exact absurd hw (hfits d set)
  | two w v =>
    change scan read s (w::v::ws) = _ at h
    rw [left]
    cases hw : read w with
    | keep =>
      rw [scan_keep hw, scan_keep (hfits.1 hw)] at h
      obtain ⟨kept,hkept,rfl⟩ := push_ok h
      obtain ⟨rest',hrest,rfl⟩ := push_ok hkept
      exact ⟨_,s,rest',rfl,hrest,rfl⟩
    | fail e =>
      rw [scan_fail hw] at h
      cases h
    | drop f => exact absurd hw (hfits.2 f)
    | next d set =>
      rw [scan_next hw] at h
      cases hv : set v with
      | error e =>
        rw [hv] at h
        cases h
      | ok f =>
        rw [hv] at h
        cases f with
        | none =>
          obtain ⟨rest',hrest,rfl⟩ := push_ok h
          exact ⟨some (.one w),s,rest',by simp only [hv],hrest,rfl⟩
        | some f => exact ⟨none,f s,rest,by simp only [hv],h,rfl⟩

theorem scan_pieces {ps : List (Piece α)} (hfits : ∀ p ∈ ps, Fits read p) {s s' : σ} {rest : List α}
    (h : scan read s (ps.flatMap Piece.words) = .ok (s',rest)) :
    ∃ qs, List.Forall₂ (fun p q => left read p = .ok q) ps qs ∧
      rest = (qs.flatMap Option.toList).flatMap Piece.words := by
  induction ps generalizing s rest with
  | nil =>
    cases h
    exact ⟨[],.nil,rfl⟩
  | cons p ps ih =>
    obtain ⟨q,s'',rest',hq,hrest,rfl⟩ := scan_piece (hfits p List.mem_cons_self) h
    obtain ⟨qs,hqs,rfl⟩ := ih (fun p hp => hfits p (List.mem_cons_of_mem _ hp)) hrest
    refine ⟨q::qs,.cons hq hqs,?_⟩
    rw [List.flatMap_cons, List.flatMap_append]

end Pieces

section Words
variable {read : α → Reading σ α E}

/-- A scan leaves only words that it was given. -/
theorem scan_subset {s s' : σ} {ws rest : List α} (h : scan read s ws = .ok (s',rest)) :
    ∀ w ∈ rest, w ∈ ws := by
  fun_induction scan read s ws generalizing s' rest with
  | case1 s =>
    cases h
    exact fun w hw => hw
  | case2 s w ws hw ih =>
    obtain ⟨rest',hrest,rfl⟩ := push_ok h
    intro x hx
    rcases List.mem_cons.mp hx with rfl | hx
    · exact List.mem_cons_self
    · exact List.mem_cons_of_mem _ (ih hrest x hx)
  | case3 => cases h
  | case4 s w ws f hw ih => exact fun x hx => List.mem_cons_of_mem _ (ih h x hx)
  | case5 => cases h
  | case6 =>
    cases h
    exact fun x hx => hx
  | case7 => cases h
  | case8 =>
    cases h
    exact fun x hx => hx
  | case9 =>
    cases h
    exact fun x hx => nomatch hx
  | case10 => cases h
  | case11 s w missing set hw v ws hv ih =>
    obtain ⟨rest',hrest,rfl⟩ := push_ok h
    intro x hx
    rcases List.mem_cons.mp hx with rfl | hx
    · exact List.mem_cons_self
    · exact List.mem_cons_of_mem _ (List.mem_cons_of_mem _ (ih hrest x hx))
  | case12 s w missing set hw v ws f hv ih =>
    exact fun x hx => List.mem_cons_of_mem _ (List.mem_cons_of_mem _ (ih h x hx))

end Words

section Stages

/-- A scan with what it begins from. -/
structure Stage (α E : Type) where
  State : Type
  start : State
  read : α → Reading State α E

def Stage.leave (st : Stage α E) (ws : List α) : Except E (List α) :=
  (scan st.read st.start ws).map Prod.snd

def through (stages : List (Stage α E)) (ws : List α) : Except E (List α) :=
  stages.foldlM (fun ws st => st.leave ws) ws

def leftAll : List (Stage α E) → Piece α → Except E (Option (Piece α))
  | [], p => .ok (some p)
  | st::stages, p =>
    match left st.read p with
    | .error e => .error e
    | .ok none => .ok none
    | .ok (some q) => leftAll stages q

def FitsAll : List (Stage α E) → Piece α → Prop
  | [], _ => True
  | st::stages, p => Fits st.read p ∧ ∀ q, left st.read p = .ok (some q) → FitsAll stages q

theorem mem_right {β γ : Type} {R : β → γ → Prop} {bs : List β} {cs : List γ}
    (h : List.Forall₂ R bs cs) {c : γ} (hc : c ∈ cs) : ∃ b ∈ bs, R b c := by
  induction h with
  | nil => cases hc
  | cons hr _ ih =>
    rcases List.mem_cons.mp hc with rfl | hc
    · exact ⟨_,List.mem_cons_self,hr⟩
    · obtain ⟨b,hb,hr⟩ := ih hc
      exact ⟨b,List.mem_cons_of_mem _ hb,hr⟩

theorem mem_left {β γ : Type} {R : β → γ → Prop} {bs : List β} {cs : List γ}
    (h : List.Forall₂ R bs cs) {b : β} (hb : b ∈ bs) : ∃ c ∈ cs, R b c :=
  mem_right h.flip hb

theorem leave_ok {st : Stage α E} {ws rest : List α} (h : st.leave ws = .ok rest) :
    ∃ s, scan st.read st.start ws = .ok (s,rest) := by
  rw [Stage.leave] at h
  cases hs : scan st.read st.start ws with
  | error e =>
    rw [hs] at h
    cases h
  | ok p =>
    rw [hs] at h
    cases h
    exact ⟨p.1,rfl⟩

theorem forall₂_leftAll {st : Stage α E} {stages : List (Stage α E)} {ps : List (Piece α)}
    {qs : List (Option (Piece α))} (h : List.Forall₂ (fun p q => left st.read p = .ok q) ps qs)
    {rs : List (Option (Piece α))}
    (hrs : List.Forall₂ (fun p q => leftAll stages p = .ok q) (qs.flatMap Option.toList) rs) :
    ∃ all, List.Forall₂ (fun p q => leftAll (st::stages) p = .ok q) ps all ∧
      all.flatMap Option.toList = rs.flatMap Option.toList := by
  induction h generalizing rs with
  | nil =>
    cases hrs
    exact ⟨[],.nil,rfl⟩
  | @cons p q ps qs hq hqs ih =>
    cases q with
    | none =>
      obtain ⟨all,hall,heq⟩ := ih hrs
      exact ⟨none::all,.cons (by rw [leftAll, hq]) hall,heq⟩
    | some q =>
      cases hrs with
      | @cons _ r _ rs hr hrs =>
        obtain ⟨all,hall,heq⟩ := ih hrs
        refine ⟨r::all,.cons (by rw [leftAll, hq]; exact hr) hall,?_⟩
        rw [List.flatMap_cons, List.flatMap_cons, heq]

/-- What all the scans leave is what they leave of each piece. -/
theorem through_pieces {stages : List (Stage α E)} {ps : List (Piece α)}
    (hfits : ∀ p ∈ ps, FitsAll stages p) {rest : List α}
    (h : through stages (ps.flatMap Piece.words) = .ok rest) :
    ∃ qs, List.Forall₂ (fun p q => leftAll stages p = .ok q) ps qs ∧
      rest = (qs.flatMap Option.toList).flatMap Piece.words := by
  induction stages generalizing ps with
  | nil =>
    cases h
    refine ⟨ps.map some,?_,?_⟩
    · rw [List.forall₂_map_right_iff]
      exact List.forall₂_same.mpr fun p _ => rfl
    · rw [List.flatMap_map]
      simp
  | cons st stages ih =>
    rw [through, List.foldlM_cons] at h
    cases hleave : st.leave (ps.flatMap Piece.words) with
    | error e =>
      rw [hleave] at h
      cases h
    | ok ws =>
      rw [hleave] at h
      obtain ⟨s,hs⟩ := leave_ok hleave
      obtain ⟨qs,hqs,rfl⟩ := scan_pieces (fun p hp => (hfits p hp).1) hs
      have hkept : ∀ q ∈ qs.flatMap Option.toList, FitsAll stages q := by
        intro q hq
        obtain ⟨o,ho,hq⟩ := List.mem_flatMap.mp hq
        obtain ⟨p,hp,hleft⟩ := mem_right hqs ho
        cases o with
        | none => cases hq
        | some o =>
          obtain rfl := List.mem_singleton.mp hq
          exact (hfits p hp).2 _ hleft
      obtain ⟨rs,hrs,rfl⟩ := ih hkept h
      obtain ⟨all,hall,heq⟩ := forall₂_leftAll hqs hrs
      exact ⟨all,hall,by rw [heq]⟩

end Stages

section Single

def Takes (st : Stage α E) : Piece α → Prop
  | .one w => ∃ f, st.read w = .drop f
  | .two w v => ∃ d set f, st.read w = .next d set ∧ set v = .ok (some f)

def Refuses (st : Stage α E) : Piece α → Prop
  | .one _ => False
  | .two w v => ∃ d set, st.read w = .next d set ∧ set v = .ok none

def Fails (st : Stage α E) : Piece α → Prop
  | .one w => ∃ e, st.read w = .fail e
  | .two w v => (∃ e, st.read w = .fail e) ∨ ∃ d set e, st.read w = .next d set ∧ set v = .error e

/-- No scan before the one that reads `w` reads `v`. -/
def unread : List (Stage α E) → α → α → Bool
  | [], _, _ => true
  | st::stages, w, v => !(st.read w).isKeep || (st.read v).isKeep && unread stages w v

variable {st : Stage α E} {stages : List (Stage α E)} {p : Piece α}

theorem unread_of_kept {w v : α} (h : ∀ st ∈ stages, st.read v = .keep) : unread stages w v = true := by
  induction stages with
  | nil => rfl
  | cons st stages ih =>
    rw [unread, h st List.mem_cons_self, ih fun st' hst' => h st' (List.mem_cons_of_mem _ hst')]
    exact Bool.or_true _

theorem left_takes (h : Takes st p) : Fits st.read p ∧ left st.read p = .ok none := by
  cases p with
  | one w =>
    obtain ⟨f,hw⟩ := h
    refine ⟨fun d set heq => ?_,by rw [left, hw]⟩
    rw [hw] at heq
    cases heq
  | two w v =>
    obtain ⟨d,set,f,hw,hv⟩ := h
    refine ⟨⟨fun heq => ?_,fun f heq => ?_⟩,?_⟩
    · rw [hw] at heq
      cases heq
    · rw [hw] at heq
      cases heq
    · rw [left, hw]
      simp only [hv]

theorem left_refuses {w v : α} (h : Refuses st (.two w v)) :
    Fits st.read (.two w v) ∧ left st.read (.two w v) = .ok (some (.one w)) := by
  obtain ⟨d,set,hw,hv⟩ := h
  refine ⟨⟨fun heq => ?_,fun f heq => ?_⟩,?_⟩
  · rw [hw] at heq
    cases heq
  · rw [hw] at heq
    cases heq
  · rw [left, hw]
    simp only [hv]

theorem left_fails (h : Fails st p) : Fits st.read p ∧ ∃ e, left st.read p = .error e := by
  cases p with
  | one w =>
    obtain ⟨e,hw⟩ := h
    refine ⟨fun d set heq => ?_,e,by rw [left, hw]⟩
    rw [hw] at heq
    cases heq
  | two w v =>
    rcases h with ⟨e,hw⟩ | ⟨d,set,e,hw,hv⟩
    · refine ⟨⟨fun heq => ?_,fun f heq => ?_⟩,e,by rw [left, hw]⟩
      · rw [hw] at heq
        cases heq
      · rw [hw] at heq
        cases heq
    · refine ⟨⟨fun heq => ?_,fun f heq => ?_⟩,e,?_⟩
      · rw [hw] at heq
        cases heq
      · rw [hw] at heq
        cases heq
      · rw [left, hw]
        simp only [hv]

theorem left_keeps (h : ∀ w ∈ p.words, st.read w = .keep) :
    Fits st.read p ∧ left st.read p = .ok (some p) := by
  cases p with
  | one w =>
    have hw := h w List.mem_cons_self
    refine ⟨fun d set heq => ?_,by rw [left, hw]⟩
    rw [hw] at heq
    cases heq
  | two w v =>
    have hw := h w List.mem_cons_self
    refine ⟨⟨fun _ => h v (List.mem_cons_of_mem _ List.mem_cons_self),fun f heq => ?_⟩,by rw [left, hw]⟩
    rw [hw] at heq
    cases heq

/-- A piece that the first scan to read its word takes is gone. -/
theorem leftAll_taken (hreads : ∀ st ∈ stages, st.read p.head = .keep ∨ Takes st p ∨ Fails st p)
    (hsome : ∃ st ∈ stages, st.read p.head ≠ .keep)
    (hunread : ∀ w v, p = .two w v → unread stages w v = true) :
    FitsAll stages p ∧ ∀ q, leftAll stages p = .ok q → q = none := by
  induction stages with
  | nil =>
    obtain ⟨st,hst,-⟩ := hsome
    cases hst
  | cons st stages ih =>
    rw [FitsAll, leftAll]
    rcases hreads st List.mem_cons_self with hkeep | htakes | hfails
    · have hwords : ∀ w ∈ p.words, st.read w = .keep := by
        cases p with
        | one w =>
          intro x hx
          rw [List.mem_singleton.mp hx]
          exact hkeep
        | two w v =>
          have hv := hunread w v rfl
          rw [unread, show st.read w = .keep from hkeep, Reading.isKeep, Bool.not_true, Bool.false_or,
            Bool.and_eq_true, Reading.isKeep_iff] at hv
          intro x hx
          rcases List.mem_cons.mp hx with rfl | hx
          · exact hkeep
          · rw [List.mem_singleton.mp hx]
            exact hv.1
      obtain ⟨hfits,hleft⟩ := left_keeps hwords
      have hlater := ih (fun st hst => hreads st (List.mem_cons_of_mem _ hst))
        (by
          obtain ⟨st',hst',hne⟩ := hsome
          rcases List.mem_cons.mp hst' with rfl | hst'
          · exact absurd hkeep hne
          · exact ⟨st',hst',hne⟩)
        (by
          rintro w v rfl
          have hv := hunread w v rfl
          rw [unread, show st.read w = .keep from hkeep, Reading.isKeep, Bool.not_true, Bool.false_or,
            Bool.and_eq_true] at hv
          exact hv.2)
      rw [hleft]
      refine ⟨⟨hfits,fun q hq => ?_⟩,hlater.2⟩
      cases hq
      exact hlater.1
    · obtain ⟨hfits,hleft⟩ := left_takes htakes
      rw [hleft]
      refine ⟨⟨hfits,fun q hq => ?_⟩,fun q hq => ?_⟩
      · cases hq
      · cases hq
        rfl
    · obtain ⟨hfits,e,hleft⟩ := left_fails hfails
      rw [hleft]
      refine ⟨⟨hfits,fun q hq => ?_⟩,fun q hq => ?_⟩
      · cases hq
      · cases hq

/-- What the first scan drops is gone. -/
theorem leftAll_first {w : α} (h : ∃ f, st.read w = .drop f) :
    FitsAll (st::stages) (.one w) ∧ leftAll (st::stages) (.one w) = .ok none := by
  obtain ⟨hfits,hleft⟩ := left_takes (p := .one w) h
  rw [FitsAll, leftAll, hleft]
  refine ⟨⟨hfits,fun q hq => ?_⟩,rfl⟩
  cases hq

/-- What no scan reads stays. -/
theorem leftAll_stays (h : ∀ st ∈ stages, ∀ w ∈ p.words, st.read w = .keep) :
    FitsAll stages p ∧ leftAll stages p = .ok (some p) := by
  induction stages with
  | nil => exact ⟨trivial,rfl⟩
  | cons st stages ih =>
    obtain ⟨hfits,hleft⟩ := left_keeps (h st List.mem_cons_self)
    obtain ⟨hall,hrest⟩ := ih fun st hst => h st (List.mem_cons_of_mem _ hst)
    rw [FitsAll, leftAll, hleft]
    refine ⟨⟨hfits,fun q hq => ?_⟩,hrest⟩
    cases hq
    exact hall

/-- A word whose value is refused stays, if nothing after that reads it. -/
theorem leftAll_refused {w v : α} (hv : ∀ st ∈ stages, st.read v = .keep)
    (hreads : ∀ st ∈ stages, st.read w = .keep ∨ Refuses st (.two w v) ∨ Fails st (.two w v))
    (honce : stages.Pairwise fun a b => a.read w = .keep ∨ b.read w = .keep) :
    FitsAll stages (.two w v) ∧ ∀ q, leftAll stages (.two w v) = .ok q →
      ∃ q', q = some q' ∧ w ∈ q'.words := by
  induction stages with
  | nil =>
    refine ⟨trivial,fun q hq => ?_⟩
    cases hq
    exact ⟨_,rfl,List.mem_cons_self⟩
  | cons st stages ih =>
    obtain ⟨hlater,honce⟩ := List.pairwise_cons.mp honce
    rw [FitsAll, leftAll]
    rcases hreads st List.mem_cons_self with hkeep | hrefuses | hfails
    · have hwords : ∀ x ∈ (Piece.two w v).words, st.read x = .keep := by
        intro x hx
        rcases List.mem_cons.mp hx with rfl | hx
        · exact hkeep
        · rw [List.mem_singleton.mp hx]
          exact hv st List.mem_cons_self
      obtain ⟨hfits,hleft⟩ := left_keeps hwords
      obtain ⟨hall,hrest⟩ := ih (fun st hst => hv st (List.mem_cons_of_mem _ hst))
        (fun st hst => hreads st (List.mem_cons_of_mem _ hst)) honce
      rw [hleft]
      refine ⟨⟨hfits,fun q hq => ?_⟩,hrest⟩
      cases hq
      exact hall
    · obtain ⟨hfits,hleft⟩ := left_refuses hrefuses
      have hkept : ∀ st' ∈ stages, ∀ x ∈ (Piece.one w).words, st'.read x = .keep := by
        intro st' hst' x hx
        rw [List.mem_singleton.mp hx]
        obtain ⟨d,set,hw,-⟩ := hrefuses
        refine (hlater st' hst').resolve_left fun heq => ?_
        rw [hw] at heq
        cases heq
      obtain ⟨hall,hrest⟩ := leftAll_stays hkept
      rw [hleft]
      refine ⟨⟨hfits,fun q hq => ?_⟩,fun q hq => ?_⟩
      · cases hq
        exact hall
      · change leftAll stages (.one w) = _ at hq
        rw [hrest] at hq
        cases hq
        exact ⟨_,rfl,List.mem_cons_self⟩
    · obtain ⟨hfits,e,hleft⟩ := left_fails hfails
      rw [hleft]
      refine ⟨⟨hfits,fun q hq => ?_⟩,fun q hq => ?_⟩
      · cases hq
      · cases hq

end Single

end BuildFiji.Scan
