import BuildFiji.Starlark.JsonAtoms

/-!
# What the decoder accepts

The decoder reads a text of a tree and gives what the tree means, or says that the tree is too
deep. What it accepts is a text of a tree.
-/

set_option autoImplicit false
set_option linter.all false

namespace BuildFiji.Starlark.Json

open BuildFiji.JsonGrammar

section Meaning

variable {F : Type} (floats : Floats F)

abbrev Meaning (F : Type) : Kind → Type
  | .value => Value F
  | .items => List (Value F)
  | .members => List (String × Value F)

/-- The entries of an object, where a repeated key keeps its first place and its last value. -/
def insertAll (entries members : List (String × Value F)) : List (String × Value F) :=
  members.foldl (fun entries m => insertEntry entries m.1 m.2) entries

def meaning : {k : Kind} → Tree k → Meaning F k
  | _, .word .null => Value.none
  | _, .word (.bool b) => Value.bool b
  | _, .num n => numberValue floats n
  | _, .str pieces => Value.str (literalText pieces)
  | _, .emptyArr => Value.seq .list []
  | _, .arr items => Value.seq .list (meaning items)
  | _, .emptyObj => asDict []
  | _, .obj members => asDict (insertAll [] (meaning members))
  | _, .last v => [meaning v]
  | _, .item v items => meaning v::meaning items
  | _, .lastMember key v => [(literalText key,meaning v)]
  | _, .member key v members => (literalText key,meaning v)::meaning members

theorem nesting_pos {k : Kind} (tree : Tree k) : 1 ≤ tree.nesting := by
  induction tree with
  | word | num | str | emptyArr | emptyObj => exact Nat.le_refl 1
  | arr items ih => exact Nat.le_add_left 1 _
  | obj members ih => exact Nat.le_add_left 1 _
  | last v ih => exact ih
  | item v items ih _ => exact ih.trans (Nat.le_max_left _ _)
  | lastMember key v ih => exact ih
  | member key v members ih _ => exact ih.trans (Nat.le_max_left _ _)

end Meaning

section Steps

variable {F : Type} {floats : Floats F} {text : List Char} {pos : ℕ}

theorem Here.skip_again {w s : List Char} (h : Here text pos (w ++ s)) (hw : Space w) (hs : Dark s) :
    Json.skipSpace text (pos+size w) = Json.skipSpace text pos := by
  rw [h.skipSpace hw hs]
  exact h.advance.skipSpace space_nil hs

theorem follows_space {w s : List Char} (hw : Space w) (hs : Follows s) : Follows (w ++ s) := by
  cases w with
  | nil => exact hs
  | cons c w =>
    apply follows_cons
    have hc := hw c List.mem_cons_self
    simp only [isSpace, Bool.or_eq_true, decide_eq_true_eq] at hc
    rcases hc with ((rfl | rfl) | rfl) | rfl <;> decide

theorem Here.literal {word : String} {s : List Char} (h : Here text pos (word.toList ++ s)) (v : Value F) :
    literal text pos word v = .ok (v,pos+size word.toList) := by
  rw [Json.literal, h.slice]
  simp only [bind, Except.bind]
  rw [if_pos (List.isPrefixOf_iff_prefix.mpr (List.prefix_append _ _))]
  rfl

theorem valueHere_number {value : ℕ → Except Stop (Value F × ℕ)} {c : Char} {s : List Char}
    (h : Here text pos (c::s)) (hc : c = '-' ∨ c.isDigit = true) :
    valueHere text floats value pos = number text floats pos := by
  have hne : ∀ d : Char, (d = '-' ∨ d.isDigit = true) = False → c ≠ d := by
    rintro d hd rfl
    exact (hd ▸ hc : False)
  rw [valueHere, h.peek]
  simp only [List.head?_cons, bind, Except.bind]
  rw [if_neg (hne _ (by decide)), if_neg (hne _ (by decide)), if_neg (hne _ (by decide)),
    if_neg (hne _ (by decide)), if_neg (hne _ (by decide)), if_neg (hne _ (by decide)), if_pos hc]

theorem valueHere_string {value : ℕ → Except Stop (Value F × ℕ)} {pieces : List Piece} {s : List Char}
    (h : Here text pos (quoted pieces ++ s)) :
    valueHere text floats value pos = .ok (.str (literalText pieces),pos+size (quoted pieces)) := by
  rw [valueHere, h.peek, string_quoted h, quoted]
  rfl

theorem value_string {room : ℕ} {pieces : List Piece} {s : List Char} (h : Here text pos (quoted pieces ++ s)) :
    value text floats (room+1) pos = .ok (.str (literalText pieces),pos+size (quoted pieces)) := valueHere_string h

end Steps

section Complete

variable {F : Type} (floats : Floats F) (text : List Char)

attribute [local simp] Tree.nesting meaning

/-- What is read of the text of a tree. -/
def Completes : (k : Kind) → Tree k → List Char → Prop
  | .value, tree, s => ∀ room pos rest, Here text pos (s ++ rest) → Follows rest →
      value text floats room pos =
        if tree.nesting ≤ room then .ok (meaning floats tree,pos+size s) else .error (.error tooDeep)
  | .items, tree, s => ∀ room fuel items pos rest, Here text pos (s ++ rest) → s.length ≤ fuel →
      arrayLoop text (value text floats room) fuel items pos =
        if tree.nesting ≤ room then .ok (.seq .list (items ++ meaning floats tree),pos+size s)
        else .error (.error tooDeep)
  | .members, tree, s => ∀ room fuel entries pos rest, Here text pos (s ++ rest) → s.length ≤ fuel →
      objectLoop text (value text floats room) fuel entries pos =
        if tree.nesting ≤ room then .ok (asDict (insertAll entries (meaning floats tree)),pos+size s)
        else .error (.error tooDeep)

variable {floats text}

/-- One turn of the loop of a list reads a value and looks at what stands after it. -/
theorem arrayLoop_turn {v : Tree .value} {w s w' more : List Char} {c : Char} {room fuel pos : ℕ}
    {items : List (Value F)} (hw : Space w) (hs : Laid v s) (hw' : Space w')
    (ih : Completes floats text .value v s) (hc : Dark (c::more)) (hstop : Follows (c::more))
    (h : Here text pos (w ++ (s ++ (w' ++ c::more)))) :
    arrayLoop text (value text floats room) (fuel+1) items pos =
      if v.nesting ≤ room then
        if c = ',' then
          arrayLoop text (value text floats room) fuel (items ++ [meaning floats v])
            (pos+size w+size s+size w'+1)
        else if c = ']' then
          .ok (.seq .list (items ++ [meaning floats v]),pos+size w+size s+size w'+1)
        else fail (pos+size w+size s+size w') ("got \"" ++ «show» c ++ "\", want ',' or ']'")
      else .error (.error tooDeep) := by
  rw [arrayLoop, h.skipSpace hw (hs.dark.2.append hs.dark.1 _)]
  simp only [bind, Except.bind]
  rw [ih room _ _ h.advance (follows_space hw' hstop)]
  by_cases hroom : v.nesting ≤ room
  · have hend := h.advance.advance
    rw [if_pos hroom, if_pos hroom]
    dsimp only
    rw [hend.skipSpace hw' hc]
    dsimp only
    rw [hend.advance.peek]
    rfl
  · rw [if_neg hroom, if_neg hroom]

theorem completes_last {v : Tree .value} {w s w' : List Char} (hw : Space w) (hs : Laid v s) (hw' : Space w')
    (ih : Completes floats text .value v s) : Completes floats text .items (.last v) (w ++ (s ++ (w' ++ [']']))) := by
  intro room fuel items pos rest h hfuel
  obtain ⟨fuel,rfl⟩ := Nat.exists_eq_succ_of_ne_zero (n := fuel) (by simp at hfuel; omega)
  simp only [List.append_assoc] at h
  rw [arrayLoop_turn hw hs hw' ih (dark_cons (by decide)) (follows_cons (by decide)) h]
  simp [size_append, size_cons, size_nil, Nat.add_assoc,
    show Char.utf8Size ']' = 1 from rfl]

theorem completes_item {v : Tree .value} {vs : Tree .items} {w s w' r : List Char} (hw : Space w) (hs : Laid v s)
    (hw' : Space w') (ih : Completes floats text .value v s) (ihr : Completes floats text .items vs r) :
    Completes floats text .items (.item v vs) (w ++ (s ++ (w' ++ ',' :: r))) := by
  intro room fuel items pos rest h hfuel
  obtain ⟨fuel,rfl⟩ := Nat.exists_eq_succ_of_ne_zero (n := fuel) (by simp at hfuel; omega)
  simp only [List.append_assoc, List.cons_append] at h
  rw [arrayLoop_turn hw hs hw' ih (dark_cons (by decide)) (follows_cons (by decide)) h, if_pos rfl]
  by_cases hroom : v.nesting ≤ room
  · rw [if_pos hroom, ihr room fuel _ _ _ (h.advance.advance.advance.next (by decide)) (by simp at hfuel; omega)]
    simp [hroom, size_append, size_cons, Nat.add_assoc, show Char.utf8Size ',' = 1 from rfl]
  · have hmax : ¬ (Tree.item v vs).nesting ≤ room := fun h => hroom (le_trans (Nat.le_max_left _ _) h)
    rw [if_neg hroom, if_neg hmax]

/-- One turn of the loop of a dictionary reads a key and a value and looks at what stands after it. -/
theorem objectLoop_turn {key : List Piece} {v : Tree .value} {w w₁ w₂ s w' more : List Char} {c : Char}
    {room fuel pos : ℕ} {entries : List (String × Value F)} (hw : Space w) (hw₁ : Space w₁) (hw₂ : Space w₂)
    (hs : Laid v s) (hw' : Space w') (ih : Completes floats text .value v s) (hc : Dark (c::more))
    (hstop : Follows (c::more))
    (h : Here text pos (w ++ (quoted key ++ (w₁ ++ ':' :: (w₂ ++ (s ++ (w' ++ c::more))))))) :
    objectLoop text (value text floats room) (fuel+1) entries pos =
      let stop := pos+size w+size (quoted key)+size w₁+1+size w₂+size s+size w'
      let read := insertEntry entries (literalText key) (meaning floats v)
      if v.nesting ≤ room then
        if c = ',' then objectLoop text (value text floats room) fuel read (stop+1)
        else if c = '\x7d' then .ok (asDict read,stop+1)
        else fail stop ("in object, got \"" ++ «show» c ++ "\", want ',' or '\x7d'")
      else .error (.error tooDeep) := by
  have hkeyEnd := h.advance.advance
  have hcolon := (hkeyEnd.advance.next (by decide))
  rw [objectLoop, h.skipSpace hw (dark_cons (by decide))]
  simp only [bind, Except.bind]
  cases room with
  | zero =>
    have hv := nesting_pos v
    rw [if_neg (by omega)]
    rfl
  | succ room =>
    rw [value_string h.advance]
    dsimp only
    rw [hkeyEnd.skipSpace hw₁ (dark_cons (by decide))]
    dsimp only
    rw [hkeyEnd.advance.peek]
    simp only [List.head?_cons, if_true]
    rw [hcolon.skipSpace hw₂ (hs.dark.2.append hs.dark.1 _)]
    dsimp only
    rw [ih (room+1) _ _ hcolon.advance (follows_space hw' hstop)]
    by_cases hroom : v.nesting ≤ room+1
    · have hend := hcolon.advance.advance
      rw [if_pos hroom, if_pos hroom]
      dsimp only
      rw [hend.skipSpace hw' hc]
      dsimp only
      rw [hend.advance.peek]
      rfl
    · rw [if_neg hroom, if_neg hroom]

theorem completes_lastMember {key : List Piece} {v : Tree .value} {w w₁ w₂ s w' : List Char} (hw : Space w)
    (hw₁ : Space w₁) (hw₂ : Space w₂) (hs : Laid v s) (hw' : Space w') (ih : Completes floats text .value v s) :
    Completes floats text .members (.lastMember key v)
      (w ++ (quoted key ++ (w₁ ++ ':' :: (w₂ ++ (s ++ (w' ++ ['\x7d'])))))) := by
  intro room fuel entries pos rest h hfuel
  obtain ⟨fuel,rfl⟩ := Nat.exists_eq_succ_of_ne_zero (n := fuel) (by simp at hfuel; omega)
  simp only [List.append_assoc, List.cons_append] at h
  rw [objectLoop_turn hw hw₁ hw₂ hs hw' ih (dark_cons (by decide)) (follows_cons (by decide)) h]
  simp [size_append, size_cons, size_nil, Nat.add_assoc, insertAll,
    show Char.utf8Size '\x7d' = 1 from rfl, show Char.utf8Size ':' = 1 from rfl]

theorem completes_member {key : List Piece} {v : Tree .value} {ms : Tree .members} {w w₁ w₂ s w' r : List Char}
    (hw : Space w) (hw₁ : Space w₁) (hw₂ : Space w₂) (hs : Laid v s) (hw' : Space w')
    (ih : Completes floats text .value v s) (ihr : Completes floats text .members ms r) :
    Completes floats text .members (.member key v ms)
      (w ++ (quoted key ++ (w₁ ++ ':' :: (w₂ ++ (s ++ (w' ++ ',' :: r)))))) := by
  intro room fuel entries pos rest h hfuel
  obtain ⟨fuel,rfl⟩ := Nat.exists_eq_succ_of_ne_zero (n := fuel) (by simp at hfuel; omega)
  simp only [List.append_assoc, List.cons_append] at h
  have hend := (h.advance.advance.advance.next (by decide)).advance.advance.advance
  rw [objectLoop_turn hw hw₁ hw₂ hs hw' ih (dark_cons (by decide)) (follows_cons (by decide)) h]
  dsimp only
  rw [if_pos rfl]
  by_cases hroom : v.nesting ≤ room
  · rw [if_pos hroom, ihr room fuel _ _ _ (hend.next (by decide)) (by simp at hfuel; omega)]
    simp [hroom, size_append, size_cons, Nat.add_assoc, insertAll,
      show Char.utf8Size ',' = 1 from rfl, show Char.utf8Size ':' = 1 from rfl]
  · have hmax : ¬ (Tree.member key v ms).nesting ≤ room := fun h => hroom (le_trans (Nat.le_max_left _ _) h)
    rw [if_neg hroom, if_neg hmax]

theorem arrayLoop_again {value : ℕ → Except Stop (Value F × ℕ)} {fuel pos : ℕ} {items : List (Value F)}
    {w s : List Char} (h : Here text pos (w ++ s)) (hw : Space w) (hs : Dark s) :
    arrayLoop text value fuel items (pos+size w) = arrayLoop text value fuel items pos := by
  cases fuel with
  | zero => rfl
  | succ fuel => rw [arrayLoop, arrayLoop, h.skip_again hw hs]

theorem objectLoop_again {value : ℕ → Except Stop (Value F × ℕ)} {fuel pos : ℕ} {entries : List (String × Value F)}
    {w s : List Char} (h : Here text pos (w ++ s)) (hw : Space w) (hs : Dark s) :
    objectLoop text value fuel entries (pos+size w) = objectLoop text value fuel entries pos := by
  cases fuel with
  | zero => rfl
  | succ fuel => rw [objectLoop, objectLoop, h.skip_again hw hs]

theorem array_started {value : ℕ → Except Stop (Value F × ℕ)} {pos : ℕ} {s rest : List Char} (hs : Started s)
    (h : Here text pos ('[' :: (s ++ rest))) :
    array text value pos = arrayLoop text value (text.length+1) [] (pos+1) := by
  obtain ⟨w,c,t,rfl,hw,hc⟩ := hs
  have hin := h.next (by decide)
  rw [List.append_assoc] at hin
  rw [array, hin.skipSpace hw (dark_cons hc.1)]
  simp only [bind, Except.bind]
  rw [hin.advance.peek]
  simp only [List.cons_append, List.head?_cons, Option.some.injEq, if_neg hc.2.1]
  exact arrayLoop_again hin hw (dark_cons hc.1)

theorem object_started {value : ℕ → Except Stop (Value F × ℕ)} {pos : ℕ} {s rest : List Char} (hs : Started s)
    (h : Here text pos ('\x7b' :: (s ++ rest))) :
    object text value pos = objectLoop text value (text.length+1) [] (pos+1) := by
  obtain ⟨w,c,t,rfl,hw,hc⟩ := hs
  have hin := h.next (by decide)
  rw [List.append_assoc] at hin
  rw [object, hin.skipSpace hw (dark_cons hc.1)]
  simp only [bind, Except.bind]
  rw [hin.advance.peek]
  simp only [List.cons_append, List.head?_cons, Option.some.injEq, if_neg hc.2.2]
  exact objectLoop_again hin hw (dark_cons hc.1)

/-- A value that is one level is read when a level is left. -/
theorem completes_atom {v : Tree .value} {s : List Char} (hv : v.nesting = 1)
    (hread : ∀ value pos rest, Here text pos (s ++ rest) → Follows rest →
      valueHere text floats value pos = .ok (meaning floats v,pos+size s)) : Completes floats text .value v s := by
  intro room pos rest h hstop
  cases room with
  | zero =>
    rw [if_neg (by omega)]
    rfl
  | succ room =>
    rw [if_pos (by omega)]
    exact hread _ pos rest h hstop

/-- The decoder reads the text of a tree, or says that it is too deep. -/
theorem laid_completes {k : Kind} {tree : Tree k} {s : List Char} (h : Laid tree s) :
    Completes floats text k tree s := by
  induction h with
  | word w =>
    refine completes_atom rfl fun value pos rest h _ => ?_
    rw [valueHere, h.peek]
    cases w with
    | null => exact h.literal _
    | bool b => cases b <;> exact h.literal _
  | num n =>
    refine completes_atom rfl fun value pos rest h hstop => ?_
    obtain ⟨c,t,ht,hc⟩ := n.head
    have hnumber := number_text floats h hstop
    rw [ht, List.cons_append] at h
    rw [valueHere_number h hc, hnumber]
    rfl
  | str pieces => exact completes_atom rfl fun value pos rest h _ => valueHere_string h
  | emptyArr hw =>
    refine completes_atom rfl fun value pos rest h _ => ?_
    simp only [List.cons_append, List.append_assoc] at h
    have hin := h.next (by decide)
    rw [valueHere, h.peek]
    change array text value pos = _
    rw [array, hin.skipSpace hw (dark_cons (by decide))]
    simp only [bind, Except.bind]
    rw [hin.advance.peek]
    simp [size_append, size_cons, size_nil, Nat.add_assoc, pure, Except.pure,
      show Char.utf8Size '[' = 1 from rfl, show Char.utf8Size ']' = 1 from rfl, Nat.add_comm 1]
  | emptyObj hw =>
    refine completes_atom rfl fun value pos rest h _ => ?_
    simp only [List.cons_append, List.append_assoc] at h
    have hin := h.next (by decide)
    rw [valueHere, h.peek]
    change object text value pos = _
    rw [object, hin.skipSpace hw (dark_cons (by decide))]
    simp only [bind, Except.bind]
    rw [hin.advance.peek]
    simp [size_append, size_cons, size_nil, Nat.add_assoc, pure, Except.pure,
      show Char.utf8Size '\x7b' = 1 from rfl, show Char.utf8Size '\x7d' = 1 from rfl, Nat.add_comm 1]
  | @arr items s hs ih =>
    intro room pos rest h _
    cases room with
    | zero =>
      rw [if_neg (by simp only [Tree.nesting]; omega)]
      rfl
    | succ room =>
      have hin := Here.next h (by decide)
      have hlen := h.length_le
      rw [value, valueHere, h.peek]
      change array text (value text floats room) pos = _
      rw [array_started hs.items_started h, ih room _ [] _ rest hin (by simp at hlen; omega)]
      simp only [Tree.nesting, Nat.add_le_add_iff_right, size_cons, show Char.utf8Size '[' = 1 from rfl, meaning,
        List.nil_append, Nat.add_assoc]
  | @obj members s hs ih =>
    intro room pos rest h _
    cases room with
    | zero =>
      rw [if_neg (by simp only [Tree.nesting]; omega)]
      rfl
    | succ room =>
      have hin := Here.next h (by decide)
      have hlen := h.length_le
      rw [value, valueHere, h.peek]
      change object text (value text floats room) pos = _
      rw [object_started hs.members_started h, ih room _ [] _ rest hin (by simp at hlen; omega)]
      simp only [Tree.nesting, Nat.add_le_add_iff_right, size_cons, show Char.utf8Size '\x7b' = 1 from rfl, meaning,
        Nat.add_assoc]
  | last hw hs hw' ih => exact completes_last hw hs hw' ih
  | item hw hs hw' _ ih ihr => exact completes_item hw hs hw' ih ihr
  | lastMember hw hw₁ hw₂ hs hw' ih => exact completes_lastMember hw hw₁ hw₂ hs hw' ih
  | member hw hw₁ hw₂ hs hw' _ ih ihr => exact completes_member hw hw₁ hw₂ hs hw' ih ihr

end Complete

section Sound

variable {F : Type} (floats : Floats F) (text : List Char)

/-- What has been read is the text of a tree, and gave what the tree means. -/
def ValueRead (room pos : ℕ) (s : List Char) (r : Value F × ℕ) : Prop :=
  ∃ (tree : Tree .value) (s' rest : List Char), s = s' ++ rest ∧ Laid tree s' ∧ tree.nesting ≤ room ∧
    r = (meaning floats tree,pos+size s')

def ItemsRead (room pos : ℕ) (items : List (Value F)) (s : List Char) (r : Value F × ℕ) : Prop :=
  ∃ (tree : Tree .items) (s' rest : List Char), s = s' ++ rest ∧ Laid tree s' ∧ tree.nesting ≤ room ∧
    r = (.seq .list (items ++ meaning floats tree),pos+size s')

def MembersRead (room pos : ℕ) (entries : List (String × Value F)) (s : List Char) (r : Value F × ℕ) : Prop :=
  ∃ (tree : Tree .members) (s' rest : List Char), s = s' ++ rest ∧ Laid tree s' ∧ tree.nesting ≤ room ∧
    r = (asDict (insertAll entries (meaning floats tree)),pos+size s')

variable {floats text}

theorem ends_skip {α : Type} {P : α → Prop} {pos : ℕ} {s : List Char} (h : Here text pos s) {f : ℕ → Except Stop α}
    (hf : ∀ w s', s = w ++ s' → Space w → Dark s' → Here text (pos+size w) s' → Ends P (f (pos+size w))) :
    Ends P (skipSpace text pos >>= f) := by
  obtain ⟨w,s',rfl,hw,hs⟩ := split_space s
  rw [h.skipSpace hw hs]
  exact hf w s' rfl hw hs h.advance

theorem ends_peek {α : Type} {P : α → Prop} {pos : ℕ} {s : List Char} (h : Here text pos s)
    {f : Option Char → Except Stop α} (hf : Ends P (f s.head?)) : Ends P (peek text pos >>= f) := by
  rw [h.peek]
  exact hf

theorem arrayLoop_ends {room : ℕ} (hvalue : ∀ pos s, Here text pos s →
      Ends (ValueRead floats room pos s) (value text floats room pos)) {fuel pos : ℕ} {items : List (Value F)}
    {s : List Char} (h : Here text pos s) (hfuel : s.length < fuel) :
    Ends (ItemsRead floats room pos items s) (arrayLoop text (value text floats room) fuel items pos) := by
  induction fuel generalizing pos items s with
  | zero => omega
  | succ fuel ih =>
    rw [arrayLoop]
    refine ends_skip h fun w s₁ hs₁ hw _ h₁ => ?_
    refine (hvalue _ _ h₁).bind fun r hr => ?_
    obtain ⟨tree,t,s₂,rfl,ht,hroom,rfl⟩ := hr
    refine ends_skip h₁.advance fun w' s₃ hs₃ hw' _ h₃ => ends_peek h₃ ?_
    subst hs₁ hs₃
    cases s₃ with
    | nil => exact ends_fail _ _ _
    | cons c s₃ =>
      dsimp only [List.head?_cons]
      split
      · next hc =>
        subst hc
        have hnext := h₃.next (by decide)
        refine (ih hnext (by simp at hfuel; omega)).mono fun r hr => ?_
        obtain ⟨rest,r',s₄,rfl,hr',hroom',rfl⟩ := hr
        refine ⟨.item tree rest,_,s₄,?_,.item hw ht hw' hr',?_,?_⟩
        · simp
        · simp only [Tree.nesting]
          omega
        · simp [meaning, size_append, size_cons, Nat.add_assoc, show Char.utf8Size ',' = 1 from rfl]
      · split
        · next hc =>
          subst hc
          refine ⟨.last tree,_,s₃,?_,.last hw ht hw',hroom,?_⟩
          · simp
          · simp [meaning, size_append, size_cons, size_nil, Nat.add_assoc, show Char.utf8Size ']' = 1 from rfl]
        · exact ends_fail _ _ _

theorem numberValue_ne_str (n : Number) (key : String) : numberValue floats n ≠ .str key := by
  unfold numberValue
  split <;> simp

theorem meaning_str {tree : Tree .value} {key : String} (h : meaning floats tree = .str key) :
    ∃ pieces, tree = .str pieces ∧ key = literalText pieces := by
  cases tree with
  | word w => cases w <;> cases h
  | num n => exact absurd h (numberValue_ne_str n key)
  | str pieces =>
    obtain rfl := Value.str.inj h
    exact ⟨pieces,rfl,rfl⟩
  | emptyArr => cases h
  | arr => cases h
  | emptyObj => cases h
  | obj => cases h

theorem objectLoop_ends {room : ℕ} (hvalue : ∀ pos s, Here text pos s →
      Ends (ValueRead floats room pos s) (value text floats room pos)) {fuel pos : ℕ}
    {entries : List (String × Value F)} {s : List Char} (h : Here text pos s) (hfuel : s.length < fuel) :
    Ends (MembersRead floats room pos entries s) (objectLoop text (value text floats room) fuel entries pos) := by
  induction fuel generalizing pos entries s with
  | zero => omega
  | succ fuel ih =>
    rw [objectLoop]
    refine ends_skip h fun w s₁ hs₁ hw _ h₁ => ?_
    refine (hvalue _ _ h₁).bind fun r hr => ?_
    obtain ⟨tree,t,s₂,rfl,ht,-,rfl⟩ := hr
    dsimp only
    split
    · next key hkey =>
      obtain ⟨pieces,rfl,rfl⟩ := meaning_str hkey
      cases ht
      refine ends_skip h₁.advance fun w₁ s₃ hs₃ hw₁ _ h₃ => ends_peek h₃ ?_
      cases s₃ with
      | nil => exact ends_fail _ _ _
      | cons c s₃ =>
        dsimp only [List.head?_cons]
        split
        · next hc =>
          subst hc
          refine ends_skip (h₃.next (by decide)) fun w₂ s₄ hs₄ hw₂ _ h₄ => ?_
          refine (hvalue _ _ h₄).bind fun r hr => ?_
          obtain ⟨tree,t,s₅,rfl,ht,hroom,rfl⟩ := hr
          refine ends_skip h₄.advance fun w' s₆ hs₆ hw' _ h₆ => ends_peek h₆ ?_
          subst hs₁ hs₃ hs₄ hs₆
          cases s₆ with
          | nil => exact ends_fail _ _ _
          | cons c s₆ =>
            dsimp only [List.head?_cons]
            split
            · next hc =>
              subst hc
              have hnext := h₆.next (by decide)
              refine (ih hnext (by simp at hfuel; omega)).mono fun r hr => ?_
              obtain ⟨rest,r',s₇,rfl,hr',hroom',rfl⟩ := hr
              refine ⟨.member pieces tree rest,_,s₇,?_,.member hw hw₁ hw₂ ht hw' hr',?_,?_⟩
              · simp
              · simp only [Tree.nesting]
                omega
              · simp [meaning, insertAll, size_append, size_cons, Nat.add_assoc,
                  show Char.utf8Size ',' = 1 from rfl, show Char.utf8Size ':' = 1 from rfl]
            · split
              · next hc =>
                subst hc
                refine ⟨.lastMember pieces tree,_,s₆,?_,.lastMember hw hw₁ hw₂ ht hw',hroom,?_⟩
                · simp
                · simp [meaning, insertAll, size_append, size_cons, size_nil, Nat.add_assoc,
                    show Char.utf8Size '\x7d' = 1 from rfl, show Char.utf8Size ':' = 1 from rfl]
              · exact ends_fail _ _ _
        · exact ends_fail _ _ _
    · exact ends_fail _ _ _

theorem literal_ends {pos : ℕ} {s : List Char} (h : Here text pos s) (hs : s ≠ []) (word : String) (v : Value F) :
    Ends (fun r => ∃ rest, s = word.toList ++ rest ∧ r = (v,pos+size word.toList)) (literal text pos word v) := by
  rw [literal, h.slice]
  simp only [bind, Except.bind]
  split
  · next hprefix =>
    obtain ⟨rest,hrest⟩ := List.isPrefixOf_iff_prefix.mp hprefix
    exact ⟨rest,hrest.symm,rfl⟩
  · cases s with
    | nil => exact absurd rfl hs
    | cons c s => exact ends_fail _ _ _

theorem array_ends {room : ℕ} (hvalue : ∀ pos s, Here text pos s →
      Ends (ValueRead floats room pos s) (value text floats room pos)) {pos : ℕ} {s : List Char}
    (h : Here text pos ('[' :: s)) :
    Ends (ValueRead floats (room+1) pos ('[' :: s)) (array text (value text floats room) pos) := by
  have hlen := h.length_le
  rw [array]
  refine ends_skip (h.next (by decide)) fun w s₁ hs₁ hw _ h₁ => ends_peek h₁ ?_
  subst hs₁
  split
  · next hhead =>
    obtain ⟨rest,rfl⟩ := List.head?_eq_some_iff.mp hhead
    refine ⟨.emptyArr,_,rest,?_,.emptyArr hw,Nat.le_add_left 1 room,?_⟩
    · simp
    · simp [meaning, size_append, size_cons, size_nil, Nat.add_assoc, show Char.utf8Size '[' = 1 from rfl,
        show Char.utf8Size ']' = 1 from rfl, Nat.add_comm 1]
  · refine (arrayLoop_ends hvalue h₁ (by simp at hlen; omega)).mono fun r hr => ?_
    obtain ⟨tree,t,rest,rfl,ht,hroom,rfl⟩ := hr
    refine ⟨.arr tree,_,rest,?_,.arr (ht.space_items hw),Nat.succ_le_succ hroom,?_⟩
    · simp
    · simp [meaning, size_append, size_cons, Nat.add_assoc, show Char.utf8Size '[' = 1 from rfl]

theorem object_ends {room : ℕ} (hvalue : ∀ pos s, Here text pos s →
      Ends (ValueRead floats room pos s) (value text floats room pos)) {pos : ℕ} {s : List Char}
    (h : Here text pos ('\x7b' :: s)) :
    Ends (ValueRead floats (room+1) pos ('\x7b' :: s)) (object text (value text floats room) pos) := by
  have hlen := h.length_le
  rw [object]
  refine ends_skip (h.next (by decide)) fun w s₁ hs₁ hw _ h₁ => ends_peek h₁ ?_
  subst hs₁
  split
  · next hhead =>
    obtain ⟨rest,rfl⟩ := List.head?_eq_some_iff.mp hhead
    refine ⟨.emptyObj,_,rest,?_,.emptyObj hw,Nat.le_add_left 1 room,?_⟩
    · simp
    · simp [meaning, size_append, size_cons, size_nil, Nat.add_assoc, show Char.utf8Size '\x7b' = 1 from rfl,
        show Char.utf8Size '\x7d' = 1 from rfl, Nat.add_comm 1]
  · refine (objectLoop_ends hvalue h₁ (by simp at hlen; omega)).mono fun r hr => ?_
    obtain ⟨tree,t,rest,rfl,ht,hroom,rfl⟩ := hr
    refine ⟨.obj tree,_,rest,?_,.obj (ht.space_members hw),Nat.succ_le_succ hroom,?_⟩
    · simp
    · simp [meaning, size_append, size_cons, Nat.add_assoc, show Char.utf8Size '\x7b' = 1 from rfl]

/-- A word that is read whole. -/
theorem word_ends {room pos : ℕ} {c : Char} {s : List Char} (h : Here text pos (c::s)) (w : Word) (word : String)
    (hword : w.text = word.toList) :
    Ends (ValueRead floats (room+1) pos (c::s)) (literal text pos word (meaning floats (.word w))) := by
  refine (literal_ends h (List.cons_ne_nil _ _) word _).mono fun r hr => ?_
  obtain ⟨rest,hrest,rfl⟩ := hr
  rw [← hword] at hrest ⊢
  exact ⟨.word w,_,rest,hrest,.word w,Nat.le_add_left 1 room,rfl⟩

theorem value_ends (room : ℕ) {pos : ℕ} {s : List Char} (h : Here text pos s) :
    Ends (ValueRead floats room pos s) (value text floats room pos) := by
  induction room generalizing pos s with
  | zero => trivial
  | succ room ih =>
    have hvalue : ∀ pos s, Here text pos s → Ends (ValueRead floats room pos s) (value text floats room pos) :=
      fun _ _ h => ih h
    rw [value, valueHere]
    refine ends_peek h ?_
    cases s with
    | nil => exact ends_fail _ _ _
    | cons c s =>
      dsimp only [List.head?_cons]
      by_cases hobj : c = '\x7b'
      · subst hobj
        exact object_ends hvalue h
      by_cases harr : c = '['
      · subst harr
        exact array_ends hvalue h
      by_cases hstr : c = '"'
      · subst hstr
        rw [if_neg hobj, if_neg harr, if_pos rfl]
        refine (string_ends h).bind fun r hr => ?_
        obtain ⟨pieces,rest,hs,htext,hpos⟩ := hr
        exact ⟨.str pieces,_,rest,hs,.str pieces,Nat.le_add_left 1 room,by rw [htext, hpos]; rfl⟩
      rw [if_neg hobj, if_neg harr, if_neg hstr]
      split
      · exact word_ends h (.bool true) "true" rfl
      · split
        · exact word_ends h (.bool false) "false" rfl
        · split
          · exact word_ends h .null "null" rfl
          · split
            · refine (number_ends floats h).mono fun r hr => ?_
              obtain ⟨n,rest,hs,hval,hpos⟩ := hr
              exact ⟨.num n,_,rest,hs,.num n,Nat.le_add_left 1 room,Prod.ext hval hpos⟩
            · exact ends_fail _ _ _

end Sound

section Texts

variable {F : Type} (floats : Floats F)

theorem decode_ends (text : List Char) :
    Ends (fun v => ∃ tree, IsText tree text ∧ tree.nesting ≤ decodeDepth ∧ v = meaning floats tree)
      (decode text floats) := by
  rw [decode]
  refine ends_skip (here_start text) fun w s hs hw _ h => ?_
  refine (value_ends decodeDepth h).bind fun r hr => ?_
  obtain ⟨tree,t,rest,rfl,ht,hroom,rfl⟩ := hr
  refine ends_skip h.advance fun w' s' hs' hw' _ h' => ends_peek h' ?_
  subst hs' hs
  cases s' with
  | nil =>
    refine ⟨tree,⟨w,t,w',hw,ht,hw',?_⟩,hroom,rfl⟩
    simp
  | cons c s' => exact ends_fail _ _ _

theorem decode_text {tree : Tree .value} {text : List Char} (h : IsText tree text) :
    decode text floats =
      if tree.nesting ≤ decodeDepth then .ok (meaning floats tree) else .error (.error tooDeep) := by
  obtain ⟨w,s,w',hw,hs,hw',rfl⟩ := h
  have hstart := here_start (w ++ (s ++ w'))
  have hstop : Follows w' := by
    have := follows_space (s := []) hw' (fun c hc => by cases hc)
    rwa [List.append_nil] at this
  have hend : Here (w ++ (s ++ w')) (0+size w+size s) (w' ++ []) := by
    rw [List.append_nil]
    exact hstart.advance.advance
  rw [decode, hstart.skipSpace hw (hs.dark.2.append hs.dark.1 _)]
  simp only [bind, Except.bind]
  rw [laid_completes hs decodeDepth _ _ hstart.advance hstop]
  by_cases hroom : tree.nesting ≤ decodeDepth
  · rw [if_pos hroom, if_pos hroom]
    dsimp only
    rw [hend.skipSpace hw' (fun c hc => by cases hc)]
    dsimp only
    rw [hend.advance.peek]
    rfl
  · rw [if_neg hroom, if_neg hroom]

/-- What is decoded is the texts of the trees that are not too deep. -/
theorem decode_iff (text : List Char) :
    (∃ v, decode text floats = .ok v) ↔ ∃ tree, IsText tree text ∧ tree.nesting ≤ decodeDepth := by
  constructor
  · rintro ⟨v,hv⟩
    obtain ⟨tree,ht,hroom,-⟩ := (decode_ends floats text).of_ok hv
    exact ⟨tree,ht,hroom⟩
  · rintro ⟨tree,ht,hroom⟩
    exact ⟨_,(decode_text floats ht).trans (if_pos hroom)⟩

theorem decode_ne_stuck (text : List Char) : decode text floats ≠ .error .stuck := by
  intro h
  have hends := decode_ends floats text
  rw [h] at hends
  exact hends

end Texts

end BuildFiji.Starlark.Json
