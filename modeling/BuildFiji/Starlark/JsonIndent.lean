import BuildFiji.Starlark.JsonEncode

/-!
# What `indent` does to a text

On the text of a tree the walk opens and closes its brackets in pairs: inside a container it is
deeper than where the container stands, so that it does not stop early, and it comes out where the
container ends. What it writes is the tree again, laid out by its depth alone.
-/

set_option autoImplicit false
set_option linter.all false

namespace BuildFiji.Starlark.Json

open BuildFiji.JsonGrammar

section Layout

variable (before unit : List Char)

/-- A tree as it is laid out at a depth; items and members up to the closing bracket. -/
def layout : {k : Kind} → ℤ → Tree k → List Char
  | _, _, .word w => w.text
  | _, _, .num n => n.text
  | _, _, .str pieces => quoted pieces
  | _, _, .emptyArr => ['[',']']
  | _, depth, .arr items => '[' :: (newline before unit (depth+1) ++ layout (depth+1) items)
  | _, _, .emptyObj => ['\x7b','\x7d']
  | _, depth, .obj members => '\x7b' :: (newline before unit (depth+1) ++ layout (depth+1) members)
  | _, depth, .last v => layout depth v ++ (newline before unit (depth-1) ++ [']'])
  | _, depth, .item v items => layout depth v ++ ',' :: (newline before unit depth ++ layout depth items)
  | _, depth, .lastMember key v =>
    quoted key ++ ':' :: ' ' :: (layout depth v ++ (newline before unit (depth-1) ++ ['\x7d']))
  | _, depth, .member key v members =>
    quoted key ++ ':' :: ' ' :: (layout depth v ++ ',' :: (newline before unit depth ++ layout depth members))

variable {before unit}

theorem newline_space (hb : Space before) (hu : Space unit) (depth : ℤ) : Space (newline before unit depth) := by
  have hunits : ∀ n, Space (List.replicate n unit).flatten := by
    intro n
    induction n with
    | zero => exact space_nil
    | succ n ih =>
      rw [List.replicate_succ, List.flatten_cons]
      exact hu.append ih
  exact .cons rfl (hb.append (hunits _))

/-- What is laid out is a text of the tree. -/
theorem layout_laid (hb : Space before) (hu : Space unit) {k : Kind} (depth : ℤ) (tree : Tree k) :
    Laid tree (layout before unit depth tree) := by
  induction tree generalizing depth with
  | word w => exact .word w
  | num n => exact .num n
  | str pieces => exact .str pieces
  | emptyArr => exact .emptyArr space_nil
  | arr items ih => exact .arr ((ih (depth+1)).space_items (newline_space hb hu _))
  | emptyObj => exact .emptyObj space_nil
  | obj members ih => exact .obj ((ih (depth+1)).space_members (newline_space hb hu _))
  | last v ih => exact .last space_nil (ih depth) (newline_space hb hu _)
  | item v items ih ihr =>
    exact .item space_nil (ih depth) space_nil ((ihr depth).space_items (newline_space hb hu _))
  | lastMember key v ih =>
    exact .lastMember space_nil space_nil (.cons rfl space_nil) (ih depth) (newline_space hb hu _)
  | member key v members ih ihr =>
    exact .member space_nil space_nil (.cons rfl space_nil) (ih depth) space_nil
      ((ihr depth).space_members (newline_space hb hu _))

end Layout

section Copying

theorem copyString_slash (e : Char) (s : List Char) :
    copyString ('\\' :: e::s) = (copyString s).map fun copied => ('\\' :: e::copied.1,copied.2) := by
  rw [copyString.eq_def]
  rfl

theorem copyString_quote (s : List Char) : copyString ('"' :: s) = some (['"'],s) := by
  rw [copyString.eq_def]
  rfl

theorem copyString_other {c : Char} (h : c ≠ '\\' ∧ c ≠ '"') (s : List Char) :
    copyString (c::s) = (copyString s).map fun copied => (c::copied.1,copied.2) := by
  rw [copyString.eq_def]
  dsimp only
  rw [if_neg h.1, if_neg h.2]

theorem copyString_piece (p : Piece) (s : List Char) :
    copyString (p.text ++ s) = (copyString s).map fun copied => (p.text ++ copied.1,copied.2) := by
  cases p with
  | plain c h =>
    change copyString (c::s) = _
    rw [copyString_other ⟨h.2.2,h.2.1⟩]
    rfl
  | escape letter c h => exact copyString_slash letter s
  | unicode digits h =>
    have hplain : ∀ ds : List Char, (∀ c ∈ ds, (hexValue c).isSome) →
        copyString (ds ++ s) = (copyString s).map fun copied => (ds ++ copied.1,copied.2) := by
      intro ds hds
      induction ds with
      | nil => simp
      | cons d ds ih =>
        have hd := hds d List.mem_cons_self
        have hslash : d ≠ '\\' := by
          rintro rfl
          cases hd
        have hquote : d ≠ '"' := by
          rintro rfl
          cases hd
        rw [List.cons_append, copyString_other ⟨hslash,hquote⟩, ih fun c hc => hds c (List.mem_cons_of_mem _ hc)]
        simp [Function.comp_def]
    change copyString ('\\' :: 'u' :: (digits ++ s)) = _
    rw [copyString_slash, hplain digits h.2]
    simp [Function.comp_def, Piece.text]

theorem copyString_quoted (pieces : List Piece) (s : List Char) :
    copyString (pieces.flatMap Piece.text ++ '"' :: s) = some (pieces.flatMap Piece.text ++ ['"'],s) := by
  induction pieces with
  | nil => exact copyString_quote s
  | cons p pieces ih =>
    rw [List.flatMap_cons, List.append_assoc, copyString_piece, ih]
    simp

end Copying

section Walk

variable {before unit : List Char}

/-- How the walk goes on from behind a token. -/
def resume (before unit : List Char) (fuel : ℕ) (depth : ℤ) (rest out : List Char) : Except Stop (List Char) :=
  if depth ≤ 0 then .ok out
  else if rest.dropWhile isSpace = [] then .error endOfFile
  else indentLoop before unit fuel depth (rest.dropWhile isSpace) out

theorem indentLoop_token {fuel : ℕ} {depth : ℤ} {ch : Char} {rest out : List Char} {placed : Placed}
    (h : placeToken before unit depth ch rest = .ok placed) :
    indentLoop before unit (fuel+1) depth (ch::rest) out =
      resume before unit fuel placed.depth placed.rest (out ++ placed.out) := by
  rw [indentLoop, h]
  rfl

/-- Inside a container the walk goes on at what is not a space. -/
theorem resume_dark {fuel : ℕ} {depth : ℤ} {w out : List Char} {c : Char} {s : List Char} (hdepth : 0 < depth)
    (hw : Space w) (hc : isSpace c = false) :
    resume before unit fuel depth (w ++ c::s) out = indentLoop before unit fuel depth (c::s) out := by
  rw [resume, if_neg (by omega), dropWhile_space hw (dark_cons hc), if_neg (List.cons_ne_nil _ _)]

variable (before unit)

/-- What the walk makes of the text of a tree. A number has to have something behind it. -/
def Walks : (k : Kind) → Tree k → List Char → Prop
  | .value, tree, s => ∀ depth : ℤ, 0 ≤ depth → ∀ fuel rest out, s.length+rest.length ≤ fuel → Follows rest →
      ((∃ n, tree = .num n) → rest ≠ []) →
      ∃ fuel', rest.length ≤ fuel' ∧ indentLoop before unit fuel depth (s ++ rest) out =
        resume before unit fuel' depth rest (out ++ layout before unit depth tree)
  | .items, tree, s => ∀ depth : ℤ, 0 < depth → ∀ fuel rest out, s.length+rest.length ≤ fuel →
      ∃ fuel', rest.length ≤ fuel' ∧ resume before unit fuel depth (s ++ rest) out =
        resume before unit fuel' (depth-1) rest (out ++ layout before unit depth tree)
  | .members, tree, s => ∀ depth : ℤ, 0 < depth → ∀ fuel rest out, s.length+rest.length ≤ fuel →
      ∃ fuel', rest.length ≤ fuel' ∧ resume before unit fuel depth (s ++ rest) out =
        resume before unit fuel' (depth-1) rest (out ++ layout before unit depth tree)

variable {before unit}

/-- A value that is one token. -/
theorem walks_token {tree : Tree .value} {ch : Char} {s : List Char} (hlayout : ∀ depth, layout before unit depth tree = ch::s)
    (hplace : ∀ depth rest, Follows rest → ((∃ n, tree = .num n) → rest ≠ []) →
      placeToken before unit depth ch (s ++ rest) = .ok ⟨ch::s,depth,rest⟩) :
    Walks before unit .value tree (ch::s) := by
  intro depth _ fuel rest out hfuel hfollows hnum
  obtain ⟨fuel,rfl⟩ := Nat.exists_eq_succ_of_ne_zero (n := fuel) (by simp at hfuel; omega)
  refine ⟨fuel,by simp at hfuel; omega,?_⟩
  rw [List.cons_append, indentLoop_token (hplace depth rest hfollows hnum), hlayout]

theorem placeToken_word {ch : Char} (hch : ch = 't' ∨ ch = 'n' ∨ ch = 'f') {s : List Char}
    (hlen : (if ch = 'f' then 5 else 4) = s.length+1) (depth : ℤ) (rest : List Char) :
    placeToken before unit depth ch (s ++ rest) = .ok ⟨ch::s,depth,rest⟩ := by
  have hne : ∀ d : Char, (d = 't' ∨ d = 'n' ∨ d = 'f') = False → ch ≠ d := by
    rintro d hd rfl
    exact (hd ▸ hch : False)
  rw [placeToken, if_neg (hne _ (by decide)), if_neg (by simp [hne '\x7b' (by decide), hne '[' (by decide)]),
    if_neg (by simp [hne '\x7d' (by decide), hne ']' (by decide)]), if_neg (hne _ (by decide)),
    if_neg (hne _ (by decide)), if_pos hch]
  dsimp only
  rw [hlen, Nat.add_sub_cancel, if_neg (by rw [List.length_append]; omega), List.take_left, List.drop_left]

theorem walks_word (w : Word) : Walks before unit .value (.word w) w.text := by
  cases w with
  | null => exact walks_token (fun _ => rfl) fun depth rest _ _ =>
    @placeToken_word _ _ 'n' (by decide) "ull".toList rfl depth rest
  | bool b =>
    cases b with
    | true => exact walks_token (fun _ => rfl) fun depth rest _ _ =>
      @placeToken_word _ _ 't' (by decide) "rue".toList rfl depth rest
    | false => exact walks_token (fun _ => rfl) fun depth rest _ _ =>
      @placeToken_word _ _ 'f' (by decide) "alse".toList rfl depth rest

theorem walks_num (n : Number) : Walks before unit .value (.num n) n.text := by
  obtain ⟨c,t,ht,hc⟩ := n.head
  have hne : ∀ d : Char, (d = '-' ∨ d.isDigit = true) = False → c ≠ d := by
    rintro d hd rfl
    exact (hd ▸ hc : False)
  have hchars : ∀ d ∈ t, numberChar d = true := fun d hd => number_chars n d (ht ▸ List.mem_cons_of_mem _ hd)
  rw [ht]
  refine walks_token (fun _ => ht) fun depth rest hfollows hnum => ?_
  rw [placeToken, if_neg (hne _ (by decide)), if_neg (by simp [hne '\x7b' (by decide), hne '[' (by decide)]),
    if_neg (by simp [hne '\x7d' (by decide), hne ']' (by decide)]), if_neg (hne _ (by decide)),
    if_neg (hne _ (by decide)), if_neg (by simp [hne 't' (by decide), hne 'n' (by decide), hne 'f' (by decide)]),
    if_pos hc, dropWhile_run hchars hfollows, takeWhile_run hchars hfollows, if_neg (hnum ⟨n,rfl⟩)]

theorem walks_str (pieces : List Piece) : Walks before unit .value (.str pieces) (quoted pieces) := by
  refine walks_token (fun _ => rfl) fun depth rest _ _ => ?_
  rw [placeToken, if_pos rfl, List.append_assoc, List.singleton_append, copyString_quoted]

theorem placeToken_empty {ch close : Char} (hch : ch = '[' ∧ close = ']' ∨ ch = '\x7b' ∧ close = '\x7d')
    {w : List Char} (hw : Space w) (depth : ℤ) (rest : List Char) :
    placeToken before unit depth ch (w ++ close::rest) = .ok ⟨[ch,close],depth,rest⟩ := by
  rcases hch with ⟨rfl,rfl⟩ | ⟨rfl,rfl⟩
  all_goals
    rw [placeToken, if_neg (by decide), if_pos (by decide), dropWhile_space hw (dark_cons (by decide))]
    rfl

theorem walks_emptyArr {w : List Char} (hw : Space w) :
    Walks before unit .value .emptyArr ('[' :: (w ++ [']'])) := by
  intro depth _ fuel rest out hfuel _ _
  obtain ⟨fuel,rfl⟩ := Nat.exists_eq_succ_of_ne_zero (n := fuel) (by simp at hfuel; omega)
  refine ⟨fuel,by simp at hfuel; omega,?_⟩
  rw [List.cons_append, List.append_assoc, List.singleton_append,
    indentLoop_token (placeToken_empty (.inl ⟨rfl,rfl⟩) hw depth rest)]
  rfl

theorem walks_emptyObj {w : List Char} (hw : Space w) :
    Walks before unit .value .emptyObj ('\x7b' :: (w ++ ['\x7d'])) := by
  intro depth _ fuel rest out hfuel _ _
  obtain ⟨fuel,rfl⟩ := Nat.exists_eq_succ_of_ne_zero (n := fuel) (by simp at hfuel; omega)
  refine ⟨fuel,by simp at hfuel; omega,?_⟩
  rw [List.cons_append, List.append_assoc, List.singleton_append,
    indentLoop_token (placeToken_empty (.inr ⟨rfl,rfl⟩) hw depth rest)]
  rfl

/-- A bracket with something behind it opens a level. -/
theorem placeToken_open {ch : Char} (hch : ch = '\x7b' ∨ ch = '[') {s : List Char} (hs : Started s) (depth : ℤ)
    (rest : List Char) : placeToken before unit depth ch (s ++ rest) =
      .ok ⟨ch::newline before unit (depth+1),depth+1,s ++ rest⟩ := by
  obtain ⟨w,c,t,rfl,hw,hc⟩ := hs
  have hquote : ch ≠ '"' := by rcases hch with rfl | rfl <;> decide
  have hdrop : (w ++ c::t ++ rest).dropWhile isSpace = c::(t ++ rest) := by
    rw [List.append_assoc, List.cons_append, dropWhile_space hw (dark_cons hc.1)]
  rw [placeToken, if_neg hquote, if_pos hch, hdrop]
  dsimp only
  rw [if_neg (by simp [hc.2.1, hc.2.2])]

theorem placeToken_close {ch : Char} (hch : ch = '\x7d' ∨ ch = ']') (depth : ℤ) (rest : List Char) :
    placeToken before unit depth ch rest = .ok ⟨newline before unit (depth-1) ++ [ch],depth-1,rest⟩ := by
  rcases hch with rfl | rfl <;> rfl

/-- The closing bracket, behind spaces. -/
theorem resume_close {ch : Char} (hch : ch = '\x7d' ∨ ch = ']') {depth : ℤ} (hdepth : 0 < depth) {w : List Char}
    (hw : Space w) (fuel : ℕ) (rest out : List Char) :
    resume before unit (fuel+1) depth (w ++ ch::rest) out =
      resume before unit fuel (depth-1) rest (out ++ (newline before unit (depth-1) ++ [ch])) := by
  have hdark : isSpace ch = false := by rcases hch with rfl | rfl <;> rfl
  rw [resume_dark hdepth hw hdark, indentLoop_token (placeToken_close hch depth rest)]

theorem resume_comma {depth : ℤ} (hdepth : 0 < depth) {w : List Char} (hw : Space w) (fuel : ℕ) (rest out : List Char) :
    resume before unit (fuel+1) depth (w ++ ',' :: rest) out =
      resume before unit fuel depth rest (out ++ ',' :: newline before unit depth) := by
  have hplace : placeToken before unit depth ',' rest = .ok ⟨',' :: newline before unit depth,depth,rest⟩ := rfl
  rw [resume_dark hdepth hw (by decide), indentLoop_token hplace]

theorem resume_colon {depth : ℤ} (hdepth : 0 < depth) {w : List Char} (hw : Space w) (fuel : ℕ) (rest out : List Char) :
    resume before unit (fuel+1) depth (w ++ ':' :: rest) out =
      resume before unit fuel depth rest (out ++ [':', ' ']) := by
  have hplace : placeToken before unit depth ':' rest = .ok ⟨[':', ' '],depth,rest⟩ := rfl
  rw [resume_dark hdepth hw (by decide), indentLoop_token hplace]

/-- A value within a container, behind spaces. -/
theorem resume_value {v : Tree .value} {s : List Char} (hs : Laid v s) (ih : Walks before unit .value v s) {depth : ℤ}
    (hdepth : 0 < depth) {w : List Char} (hw : Space w) (fuel : ℕ) (rest out : List Char)
    (hfuel : s.length+rest.length ≤ fuel) (hfollows : Follows rest) (hne : rest ≠ []) :
    ∃ fuel', rest.length ≤ fuel' ∧ resume before unit fuel depth (w ++ (s ++ rest)) out =
      resume before unit fuel' depth rest (out ++ layout before unit depth v) := by
  obtain ⟨c,t,ht,hc⟩ := hs.opens
  have hwalk := ih depth (by omega) fuel rest out hfuel hfollows fun _ => hne
  rw [ht, List.cons_append] at hwalk ⊢
  rwa [resume_dark hdepth hw hc.1]

/-- The walk lays out the tree whose text it is on. -/
theorem walks {k : Kind} {tree : Tree k} {s : List Char} (h : Laid tree s) : Walks before unit k tree s := by
  induction h with
  | word w => exact walks_word w
  | num n => exact walks_num n
  | str pieces => exact walks_str pieces
  | emptyArr hw => exact walks_emptyArr hw
  | emptyObj hw => exact walks_emptyObj hw
  | arr hs ih =>
    intro depth hdepth fuel rest out hfuel _ _
    obtain ⟨fuel,rfl⟩ := Nat.exists_eq_succ_of_ne_zero (n := fuel) (by simp at hfuel; omega)
    obtain ⟨fuel',hle,heq⟩ := ih (depth+1) (by omega) fuel rest (out ++ '[' :: newline before unit (depth+1))
      (by simp at hfuel; omega)
    refine ⟨fuel',hle,?_⟩
    rw [List.cons_append, indentLoop_token (placeToken_open (.inr rfl) hs.items_started depth rest), heq,
      Int.add_sub_cancel]
    simp [layout]
  | obj hs ih =>
    intro depth hdepth fuel rest out hfuel _ _
    obtain ⟨fuel,rfl⟩ := Nat.exists_eq_succ_of_ne_zero (n := fuel) (by simp at hfuel; omega)
    obtain ⟨fuel',hle,heq⟩ := ih (depth+1) (by omega) fuel rest (out ++ '\x7b' :: newline before unit (depth+1))
      (by simp at hfuel; omega)
    refine ⟨fuel',hle,?_⟩
    rw [List.cons_append, indentLoop_token (placeToken_open (.inl rfl) hs.members_started depth rest), heq,
      Int.add_sub_cancel]
    simp [layout]
  | @last v w s w' hw hs hw' ih =>
    intro depth hdepth fuel rest out hfuel
    simp only [List.length_append, List.length_cons, List.length_nil] at hfuel
    simp only [List.append_assoc, List.cons_append, List.nil_append]
    obtain ⟨fuel',hle,heq⟩ := resume_value hs ih hdepth hw fuel (w' ++ ']' :: rest) out
      (by simp; omega) (follows_space hw' (follows_cons (by decide))) (by simp)
    rw [List.length_append, List.length_cons] at hle
    obtain ⟨fuel',rfl⟩ := Nat.exists_eq_succ_of_ne_zero (n := fuel') (by omega)
    refine ⟨fuel',by omega,?_⟩
    rw [heq, resume_close (.inr rfl) hdepth hw']
    simp [layout]
  | @item v items w s w' r hw hs hw' _ ih ihr =>
    intro depth hdepth fuel rest out hfuel
    simp only [List.length_append, List.length_cons] at hfuel
    simp only [List.append_assoc, List.cons_append]
    obtain ⟨fuel',hle,heq⟩ := resume_value hs ih hdepth hw fuel (w' ++ ',' :: (r ++ rest)) out
      (by simp; omega) (follows_space hw' (follows_cons (by decide))) (by simp)
    rw [List.length_append, List.length_cons, List.length_append] at hle
    obtain ⟨fuel',rfl⟩ := Nat.exists_eq_succ_of_ne_zero (n := fuel') (by omega)
    rw [heq, resume_comma hdepth hw']
    obtain ⟨fuel'',hle',heq'⟩ := ihr depth hdepth fuel' rest
      (out ++ layout before unit depth v ++ ',' :: newline before unit depth) (by omega)
    refine ⟨fuel'',hle',?_⟩
    rw [heq']
    simp [layout]
  | @lastMember key v w w₁ w₂ s w' hw hw₁ hw₂ hs hw' ih =>
    intro depth hdepth fuel rest out hfuel
    simp only [List.length_append, List.length_cons, List.length_nil] at hfuel
    simp only [List.append_assoc, List.cons_append, List.nil_append]
    obtain ⟨fuel₁,hle₁,heq₁⟩ := resume_value (.str key) (walks_str key) hdepth hw fuel
      (w₁ ++ ':' :: (w₂ ++ (s ++ (w' ++ '\x7d' :: rest)))) out
      (by simp; omega) (follows_space hw₁ (follows_cons (by decide))) (by simp)
    simp only [List.length_append, List.length_cons] at hle₁
    obtain ⟨fuel₁,rfl⟩ := Nat.exists_eq_succ_of_ne_zero (n := fuel₁) (by omega)
    rw [heq₁, resume_colon hdepth hw₁]
    obtain ⟨fuel₂,hle₂,heq₂⟩ := resume_value hs ih hdepth hw₂ fuel₁ (w' ++ '\x7d' :: rest)
      (out ++ layout before unit depth (.str key) ++ [':', ' '])
      (by simp; omega) (follows_space hw' (follows_cons (by decide))) (by simp)
    rw [List.length_append, List.length_cons] at hle₂
    obtain ⟨fuel₂,rfl⟩ := Nat.exists_eq_succ_of_ne_zero (n := fuel₂) (by omega)
    refine ⟨fuel₂,by omega,?_⟩
    rw [heq₂, resume_close (.inl rfl) hdepth hw']
    simp [layout]
  | @member key v members w w₁ w₂ s w' r hw hw₁ hw₂ hs hw' _ ih ihr =>
    intro depth hdepth fuel rest out hfuel
    simp only [List.length_append, List.length_cons] at hfuel
    simp only [List.append_assoc, List.cons_append]
    obtain ⟨fuel₁,hle₁,heq₁⟩ := resume_value (.str key) (walks_str key) hdepth hw fuel
      (w₁ ++ ':' :: (w₂ ++ (s ++ (w' ++ ',' :: (r ++ rest))))) out
      (by simp; omega) (follows_space hw₁ (follows_cons (by decide))) (by simp)
    simp only [List.length_append, List.length_cons] at hle₁
    obtain ⟨fuel₁,rfl⟩ := Nat.exists_eq_succ_of_ne_zero (n := fuel₁) (by omega)
    rw [heq₁, resume_colon hdepth hw₁]
    obtain ⟨fuel₂,hle₂,heq₂⟩ := resume_value hs ih hdepth hw₂ fuel₁ (w' ++ ',' :: (r ++ rest))
      (out ++ layout before unit depth (.str key) ++ [':', ' '])
      (by simp; omega) (follows_space hw' (follows_cons (by decide))) (by simp)
    rw [List.length_append, List.length_cons, List.length_append] at hle₂
    obtain ⟨fuel₂,rfl⟩ := Nat.exists_eq_succ_of_ne_zero (n := fuel₂) (by omega)
    rw [heq₂, resume_comma hdepth hw']
    obtain ⟨fuel₃,hle₃,heq₃⟩ := ihr depth hdepth fuel₂ rest
      (out ++ layout before unit depth (.str key) ++ [':', ' '] ++ layout before unit depth v ++
        ',' :: newline before unit depth) (by omega)
    refine ⟨fuel₃,hle₃,?_⟩
    rw [heq₃]
    simp [layout]

end Walk

section Results

variable {F : Type} (floats : Floats F) {before unit : List Char}

theorem indent_text {tree : Tree .value} {text : List Char} (h : IsText tree text) (hnum : ¬ ∃ n, tree = .num n) :
    indent before unit text = .ok (layout before unit 0 tree) := by
  obtain ⟨w,s,w',hw,hs,hw',rfl⟩ := h
  obtain ⟨c,t,rfl,hc⟩ := hs.opens
  have hdrop : (w ++ (c::t ++ w')).dropWhile isSpace = c::t ++ w' := dropWhile_space hw (dark_cons hc.1)
  have hfollows : Follows w' := by
    have := @follows_space w' [] hw' (fun c hc => by cases hc)
    rwa [List.append_nil] at this
  rw [indent, hdrop, if_neg (by simp)]
  obtain ⟨fuel',-,heq⟩ := @walks before unit _ _ _ hs 0 (by omega)
    ((w ++ (c::t ++ w')).length+1) w' [] (by simp; omega) hfollows fun hn => absurd hn hnum
  rw [heq, resume, if_pos (by omega)]
  rfl

end Results

end BuildFiji.Starlark.Json
