import BuildFiji.Lib.Framing
import BuildFiji.Starlark.JsonDecode
import Mathlib.Data.List.Perm.Basic
import Mathlib.Data.List.Sort

/-!
# What is encoded is decoded again

The encoder writes a text of a tree that means the value, with the entries of each dictionary in
the order of their keys.
-/

set_option autoImplicit false
set_option linter.all false

namespace BuildFiji.Starlark.Json

open BuildFiji.JsonGrammar

section Values

variable {F : Type}

/-- Values of nothing but `None`, booleans, whole numbers, strings, lists and dictionaries with
string keys, with how deep they may be. -/
inductive Plain : ℕ → Value F → Prop where
  | none (n : ℕ) : Plain (n+1) .none
  | bool (n : ℕ) (b : Bool) : Plain (n+1) (.bool b)
  | int (n : ℕ) (i : ℤ) : Plain (n+1) (.int i)
  | str (n : ℕ) (s : String) : Plain (n+1) (.str s)
  | list {n : ℕ} {items : List (Value F)} : (∀ v ∈ items, Plain n v) → Plain (n+1) (.seq .list items)
  | dict {n : ℕ} {fields : List (String × Value F)} : (fields.map Prod.fst).Nodup →
      (∀ f ∈ fields, Plain n f.2) → Plain (n+1) (asDict fields)

/-- Equality of values, where the entries of a dictionary are in no order. -/
inductive Same : Value F → Value F → Prop where
  | refl (v : Value F) : Same v v
  | list {items items' : List (Value F)} : List.Forall₂ Same items items' → Same (.seq .list items) (.seq .list items')
  | dict {fields mid fields' : List (String × Value F)} : fields.map Prod.fst = mid.map Prod.fst →
      List.Forall₂ Same (fields.map Prod.snd) (mid.map Prod.snd) → mid.Perm fields' →
      Same (asDict fields) (asDict fields')

end Values

section Strings

theorem hexValue_digit : ∀ k < 16, hexValue (hexDigit k) = some k := by decide

/-- A control character as its number. -/
def controlPiece (c : Char) (h : c.toNat < 0x20) : Piece :=
  .unicode ['0', '0',hexDigit (c.toNat/16),hexDigit (c.toNat%16)] (by
    have hhigh := hexValue_digit (c.toNat/16) (by omega)
    have hlow := hexValue_digit (c.toNat%16) (by omega)
    refine ⟨rfl,fun d hd => ?_⟩
    simp only [List.mem_cons, List.not_mem_nil, or_false] at hd
    rcases hd with rfl | rfl | rfl | rfl
    · rfl
    · rfl
    · simp [hhigh]
    · simp [hlow])

theorem controlPiece_units {c : Char} (h : c.toNat < 0x20) : pieceUnits (controlPiece c h) = Utf16.units c := by
  have hnumber : hexNumber ['0', '0',hexDigit (c.toNat/16),hexDigit (c.toNat%16)] = c.toNat := by
    simp only [hexNumber, List.foldl_cons, List.foldl_nil, hexValue_digit (c.toNat/16) (by omega),
      hexValue_digit (c.toNat%16) (by omega), show hexValue '0' = some 0 from rfl, Option.getD_some]
    omega
  rw [controlPiece, pieceUnits, hnumber, Utf16.units_single (by omega)]

theorem writeChar_piece (c : Char) : ∃ p : Piece, p.text = writeChar c ∧ pieceUnits p = Utf16.units c := by
  unfold writeChar
  split
  · next h => exact ⟨.escape '"' c (by subst h; decide),rfl,rfl⟩
  · next hquote =>
    split
    · next h => exact ⟨.escape '\\' c (by subst h; decide),rfl,rfl⟩
    · next hslash =>
      split
      · next h => exact ⟨.escape 'n' c (by subst h; decide),rfl,rfl⟩
      · split
        · next h => exact ⟨.escape 'r' c (by subst h; decide),rfl,rfl⟩
        · split
          · next h => exact ⟨.escape 't' c (by subst h; decide),rfl,rfl⟩
          · split
            · next h => exact ⟨.escape 'b' c (by subst h; decide),rfl,rfl⟩
            · split
              · next h => exact ⟨.escape 'f' c (by subst h; decide),rfl,rfl⟩
              · split
                · next h => exact ⟨controlPiece c h,rfl,controlPiece_units h⟩
                · next h => exact ⟨.plain c ⟨not_lt.mp h,hquote,hslash⟩,rfl,rfl⟩

/-- A writer whose characters are pieces writes a literal of what it is given. -/
theorem quoted_of_pieces {write : Char → List Char}
    (hwrite : ∀ c, ∃ p : Piece, p.text = write c ∧ pieceUnits p = Utf16.units c) (s : String) :
    ∃ pieces, quoted pieces = '"'::(s.toList.flatMap write ++ ['"']) ∧ literalText pieces = s := by
  have hchars : ∀ cs : List Char, ∃ pieces : List Piece,
      pieces.flatMap Piece.text = cs.flatMap write ∧ pieces.flatMap pieceUnits = cs.flatMap Utf16.units := by
    intro cs
    induction cs with
    | nil => exact ⟨[],rfl,rfl⟩
    | cons c cs ih =>
      obtain ⟨p,hp,hu⟩ := hwrite c
      obtain ⟨pieces,hps,hus⟩ := ih
      exact ⟨p::pieces,by simp [hp, hps],by simp [hu, hus]⟩
  obtain ⟨pieces,htext,hunits⟩ := hchars s.toList
  refine ⟨pieces,by rw [quoted, htext],?_⟩
  rw [literalText, hunits, Utf16.fromUnits_units, String.ofList_toList]

theorem writeString_quoted (s : String) : ∃ pieces, quoted pieces = writeString s ∧ literalText pieces = s :=
  quoted_of_pieces writeChar_piece s

end Strings

section Numbers

theorem toDigits_head {n : ℕ} (h : (Nat.toDigits 10 n).head? = some '0') : n = 0 := by
  induction n using Nat.strongRecOn with
  | ind n ih =>
    by_cases hn : n < 10
    · rw [Nat.toDigits_of_lt_base hn, List.head?_cons, Option.some_inj] at h
      exact Framing.digitChar_injective (by omega) (by omega) h
    · rw [Nat.toDigits_of_base_le (by omega) (by omega), List.head?_append_of_ne_nil _ Nat.toDigits_ne_nil] at h
      have := ih (n/10) (by omega) h
      omega

/-- A whole number as it is written. -/
def wholeNumber (i : ℤ) : Number where
  minus := i < 0
  int := ⟨Nat.toDigits 10 i.natAbs,Nat.toDigits_ne_nil,fun _ hc => Nat.isDigit_of_mem_toDigits (by omega) (by omega) hc⟩
  frac := none
  exp := none
  noZero := by
    intro h
    have hzero := toDigits_head h
    rw [hzero]
    rfl

theorem wholeNumber_text (i : ℤ) : (wholeNumber i).text = (toString i).toList := by
  unfold Number.text wholeNumber fracText expText
  simp only [Option.elim_none, List.append_nil, decide_eq_true_eq]
  cases i with
  | ofNat n =>
    rw [if_neg (show ¬ Int.ofNat n < 0 from Int.not_lt.mpr (Int.natCast_nonneg n))]
    simp [Int.toString_eq_repr, Int.repr]
  | negSucc n =>
    rw [if_pos (Int.negSucc_lt_zero n)]
    simp [Int.toString_eq_repr, Int.repr]

theorem wholeNumber_value {F : Type} (floats : Floats F) (i : ℤ) :
    numberValue floats (wholeNumber i) = .int i := by
  have hdigits : digitsValue (Nat.toDigits 10 i.natAbs) = i.natAbs := by
    have h := @Nat.ofDigitChars_ten_toDigits i.natAbs
    rw [Nat.ofDigitChars_eq_foldl] at h
    rw [digitsValue]
    simpa only [Nat.mul_comm] using h
  rw [numberValue, if_pos (by rfl), intValue]
  simp only [wholeNumber, hdigits, decide_eq_true_eq]
  congr 1
  split <;> omega

end Numbers

section Encode

variable {F : Type} (floats : Floats F)

/-- The text that a value was encoded to, with its tree. -/
def Encoded (room : ℕ) (v : Value F) (text : List Char) (tree : Tree .value) : Prop :=
  Laid tree text ∧ tree.nesting ≤ room ∧ Same v (meaning floats tree)

variable {floats}

theorem intercalate_cons (sep a : List Char) (b : List Char) (l : List (List Char)) :
    sep.intercalate (a::b::l) = a ++ (sep ++ sep.intercalate (b::l)) := by
  simp [List.intercalate]

theorem intercalate_single (sep a : List Char) : sep.intercalate [a] = a := by simp [List.intercalate]

theorem encoded_items {room : ℕ} {items : List (Value F)} {texts : List (List Char)}
    (h : List.Forall₂ (fun v text => ∃ tree, Encoded floats room v text tree) items texts) (hne : items ≠ []) :
    ∃ tree : Tree .items, Laid tree ([','].intercalate texts ++ [']']) ∧ tree.nesting ≤ room ∧
      List.Forall₂ Same items (meaning floats tree) := by
  induction h with
  | nil => exact absurd rfl hne
  | @cons v text items texts hv hrest ih =>
    obtain ⟨tree,hlaid,hroom,hsame⟩ := hv
    cases hrest with
    | nil =>
      rw [intercalate_single]
      exact ⟨.last tree,.last space_nil hlaid space_nil,hroom,.cons hsame .nil⟩
    | cons hv' hrest' =>
      obtain ⟨rest,hlaid',hroom',hsame'⟩ := ih (List.cons_ne_nil _ _)
      rw [intercalate_cons, List.append_assoc, List.append_assoc]
      refine ⟨.item tree rest,.item space_nil hlaid space_nil hlaid',?_,.cons hsame hsame'⟩
      simp only [Tree.nesting]
      omega

theorem encoded_members {room : ℕ} {members : List (String × Value F)} {texts : List (List Char)}
    (h : List.Forall₂ (fun m text => ∃ inner tree, text = writeString m.1 ++ ':' :: inner ∧
      Encoded floats room m.2 inner tree) members texts) (hne : members ≠ []) :
    ∃ tree : Tree .members, Laid tree ([','].intercalate texts ++ ['\x7d']) ∧ tree.nesting ≤ room ∧
      List.Forall₂ (fun m m' => m.1 = m'.1 ∧ Same m.2 m'.2) members (meaning floats tree) := by
  induction h with
  | nil => exact absurd rfl hne
  | @cons m text members texts hm hrest ih =>
    obtain ⟨inner,tree,rfl,hlaid,hroom,hsame⟩ := hm
    obtain ⟨pieces,hquoted,hspells⟩ := writeString_quoted m.1
    rw [← hquoted]
    cases hrest with
    | nil =>
      rw [intercalate_single, List.append_assoc, List.cons_append]
      exact ⟨.lastMember pieces tree,.lastMember space_nil space_nil space_nil hlaid space_nil,hroom,
        .cons ⟨hspells.symm,hsame⟩ .nil⟩
    | cons hm' hrest' =>
      obtain ⟨rest,hlaid',hroom',hsame'⟩ := ih (List.cons_ne_nil _ _)
      rw [intercalate_cons, List.append_assoc, List.append_assoc, List.append_assoc, List.cons_append]
      refine ⟨.member pieces tree rest,.member space_nil space_nil space_nil hlaid space_nil hlaid',?_,
        .cons ⟨hspells.symm,hsame⟩ hsame'⟩
      simp only [Tree.nesting]
      omega

/-- Without repeated keys each entry gets a place of its own. -/
theorem insertAll_nodup {members : List (String × Value F)} (h : (members.map Prod.fst).Nodup)
    {entries : List (String × Value F)} (hnew : ∀ m ∈ members, ∀ e ∈ entries, e.1 ≠ m.1) :
    insertAll entries members = entries ++ members := by
  have hinsert : ∀ (m : String × Value F) (entries : List (String × Value F)), (∀ e ∈ entries, e.1 ≠ m.1) →
      insertEntry entries m.1 m.2 = entries ++ [m] := by
    intro m entries hne
    induction entries with
    | nil => rfl
    | cons e entries ih =>
      rw [insertEntry, if_neg (hne e List.mem_cons_self), ih fun e he => hne e (List.mem_cons_of_mem _ he)]
      rfl
  unfold insertAll
  induction members generalizing entries with
  | nil => simp
  | cons m members ih =>
    rw [List.map_cons, List.nodup_cons] at h
    rw [List.foldl_cons, hinsert m entries (hnew m List.mem_cons_self), ih h.2]
    · simp
    · intro m' hm' e he
      rcases List.mem_append.mp he with he | he
      · exact hnew m' (List.mem_cons_of_mem _ hm') e he
      · rw [List.mem_singleton.mp he]
        exact fun heq => h.1 (heq ▸ List.mem_map_of_mem hm')

theorem forall₂_keys {members members' : List (String × Value F)}
    (h : List.Forall₂ (fun m m' => m.1 = m'.1 ∧ Same m.2 m'.2) members members') :
    members.map Prod.fst = members'.map Prod.fst ∧
      List.Forall₂ Same (members.map Prod.snd) (members'.map Prod.snd) := by
  induction h with
  | nil => exact ⟨rfl,.nil⟩
  | cons hm _ ih => exact ⟨by rw [List.map_cons, List.map_cons, hm.1, ih.1],.cons hm.2 ih.2⟩

theorem forall₂_zipIdx {α β : Type} {P : α → β → Prop} {l : List α} {l' : List β} (h : List.Forall₂ P l l') (k : ℕ) :
    List.Forall₂ (fun p b => P p.1 b) (l.zipIdx k) l' := by
  induction h generalizing k with
  | nil => exact .nil
  | cons hp _ ih => exact .cons hp (ih (k+1))

theorem exists_forall₂ {α β : Type} {P : α → β → Prop} {l : List α} (h : ∀ a ∈ l, ∃ b, P a b) :
    ∃ l', List.Forall₂ P l l' := by
  induction l with
  | nil => exact ⟨[],.nil⟩
  | cons a l ih =>
    obtain ⟨b,hb⟩ := h a List.mem_cons_self
    obtain ⟨l',hl'⟩ := ih fun a ha => h a (List.mem_cons_of_mem _ ha)
    exact ⟨b::l',.cons hb hl'⟩

theorem writeMembers_ok {inner : Value F → Except String (List Char)} {place : String → String}
    {members : List (String × Value F)} {texts : List (List Char)}
    (h : List.Forall₂ (fun m text => ∃ t, text = writeString m.1 ++ ':' :: t ∧ inner m.2 = .ok t) members texts) :
    writeMembers inner place members = .ok ('\x7b' :: ([','].intercalate texts ++ ['\x7d'])) := by
  have hmap : members.mapM (fun m => do
      let text ← (inner m.2).mapError (atPlace (place m.1))
      return writeString m.1 ++ ':' :: text) = Except.ok texts := by
    rw [Fallible.mapM_ok]
    refine h.imp fun m text hm => ?_
    obtain ⟨t,rfl,ht⟩ := hm
    rw [ht]
    rfl
  rw [writeMembers, hmap]
  rfl

/-- A plain value within the levels is encoded, to a text that means it. -/
theorem encode_plain {room : ℕ} {v : Value F} (h : Plain room v) :
    ∃ text tree, encodeInto floats room v = .ok text ∧ Encoded floats room v text tree ∧
      ((∃ n, tree = .num n) → ∃ i, v = .int i) := by
  induction h with
  | none n =>
    refine ⟨_,.word .null,rfl,⟨.word .null,Nat.le_add_left 1 n,.refl _⟩,?_⟩
    rintro ⟨_,h⟩
    cases h
  | bool n b =>
    refine ⟨_,.word (.bool b),rfl,⟨?_,Nat.le_add_left 1 n,.refl _⟩,?_⟩
    · cases b
      · exact .word (.bool false)
      · exact .word (.bool true)
    · rintro ⟨_,h⟩
      cases h
  | int n i =>
    refine ⟨_,.num (wholeNumber i),rfl,⟨?_,Nat.le_add_left 1 n,?_⟩,fun _ => ⟨i,rfl⟩⟩
    · rw [← wholeNumber_text]
      exact .num _
    · change Same _ (numberValue floats (wholeNumber i))
      rw [wholeNumber_value]
      exact .refl _
  | str n s =>
    obtain ⟨pieces,hquoted,hspells⟩ := writeString_quoted s
    refine ⟨_,.str pieces,rfl,⟨hquoted ▸ .str pieces,Nat.le_add_left 1 n,?_⟩,?_⟩
    · change Same _ (.str (literalText pieces))
      rw [hspells]
      exact .refl _
    · rintro ⟨_,h⟩
      cases h
  | @list n items _ ih =>
    have hitems : ∀ v ∈ items, ∃ text, encodeInto floats n v = .ok text ∧ ∃ tree, Encoded floats n v text tree := by
      intro v hv
      obtain ⟨text,tree,hok,henc,-⟩ := ih v hv
      exact ⟨text,hok,tree,henc⟩
    obtain ⟨texts,htexts⟩ := exists_forall₂ hitems
    have hok : encodeInto floats (n+1) (.seq .list items) = .ok ('[' :: ([','].intercalate texts ++ [']'])) := by
      have hmap : items.zipIdx.mapM (fun v => (encodeInto floats n v.1).mapError
          (atPlace ("at list index " ++ toString v.2))) = Except.ok texts := by
        rw [Fallible.mapM_ok]
        exact (forall₂_zipIdx htexts 0).imp fun v text hv => Fallible.mapError_ok.mpr hv.1
      rw [encodeInto, encodeValue, hmap]
      rfl
    cases items with
    | nil =>
      cases htexts
      refine ⟨_,.emptyArr,hok,⟨.emptyArr space_nil,Nat.le_add_left 1 n,.refl _⟩,?_⟩
      rintro ⟨_,h⟩
      cases h
    | cons v items =>
      obtain ⟨tree,hlaid,hroom,hsame⟩ := encoded_items (htexts.imp fun _ _ h => h.2) (List.cons_ne_nil _ _)
      refine ⟨_,.arr tree,hok,⟨.arr hlaid,Nat.succ_le_succ hroom,.list hsame⟩,?_⟩
      rintro ⟨_,h⟩
      cases h
  | @dict n fields hnodup _ ih =>
    have hperm : (fields.mergeSort fun a b => a.1 ≤ b.1).Perm fields := List.mergeSort_perm _ _
    generalize hsorted : (fields.mergeSort fun a b => a.1 ≤ b.1) = sorted at hperm
    have hmembers : ∀ m ∈ sorted, ∃ text, ∃ inner tree, text = writeString m.1 ++ ':' :: inner ∧
        encodeInto floats n m.2 = .ok inner ∧ Encoded floats n m.2 inner tree := by
      intro m hm
      obtain ⟨text,tree,hok,henc,-⟩ := ih m (hperm.mem_iff.mp hm)
      exact ⟨_,text,tree,rfl,hok,henc⟩
    obtain ⟨texts,htexts⟩ := exists_forall₂ hmembers
    have hok : encodeInto floats (n+1) (asDict fields) = .ok ('\x7b' :: ([','].intercalate texts ++ ['\x7d'])) := by
      have hkeys : (fields.map fun f => (Value.str f.1,f.2)).mapM stringKey = Except.ok fields := by
        rw [Fallible.mapM_ok, List.forall₂_map_left_iff]
        exact List.forall₂_same.mpr fun _ _ => rfl
      rw [encodeInto, asDict, encodeValue, hkeys]
      dsimp only [bind, Except.bind]
      rw [hsorted]
      apply writeMembers_ok
      refine htexts.imp fun m text hm => ?_
      obtain ⟨inner,-,htext,hinner,-⟩ := hm
      exact ⟨inner,htext,hinner⟩
    cases sorted with
    | nil =>
      cases htexts
      obtain rfl := hperm.nil_eq
      refine ⟨_,.emptyObj,hok,⟨.emptyObj space_nil,Nat.le_add_left 1 n,.refl _⟩,?_⟩
      rintro ⟨_,h⟩
      cases h
    | cons m sorted =>
      have hlaidAll := htexts.imp fun m text hm => show ∃ inner tree, text = writeString m.1 ++ ':' :: inner ∧
          Encoded floats n m.2 inner tree by
        obtain ⟨inner,tree,htext,-,henc⟩ := hm
        exact ⟨inner,tree,htext,henc⟩
      obtain ⟨tree,hlaid,hroom,hsame⟩ := encoded_members hlaidAll (List.cons_ne_nil _ _)
      -- the entries in their own order, each beside the value that it is read back as
      obtain ⟨mid,hmid,hmidPerm⟩ := List.perm_comp_forall₂ hperm.symm hsame
      have hkeys := (forall₂_keys hsame).1
      have hread : meaning floats (.obj tree) = asDict (meaning floats tree) := by
        have hnodup' : ((meaning floats tree).map Prod.fst).Nodup :=
          hkeys ▸ (hperm.map Prod.fst).nodup_iff.mpr hnodup
        rw [meaning, insertAll_nodup hnodup' fun _ _ e he => absurd he (by simp), List.nil_append]
      refine ⟨_,.obj tree,hok,⟨.obj hlaid,Nat.succ_le_succ hroom,?_⟩,?_⟩
      · rw [hread]
        exact .dict (forall₂_keys hmid).1 (forall₂_keys hmid).2 hmidPerm
      · rintro ⟨_,h⟩
        cases h

end Encode

section RoundTrip

variable {F : Type} (floats : Floats F)

theorem Laid.isText {tree : Tree .value} {s : List Char} (h : Laid tree s) : IsText tree s :=
  ⟨[],s,[],space_nil,h,space_nil,by simp⟩

/-- What is decoded, for every text, and that what is encoded is decoded again. -/
theorem decode_grammar_encode :
    (∀ text, decode text floats ≠ .error .stuck) ∧
    (∀ text, (∃ v, decode text floats = .ok v) ↔ ∃ tree, IsText tree text ∧ tree.nesting ≤ decodeDepth) ∧
    ∀ v, Plain encodeDepth v → ∃ text v', encode floats v = .ok text ∧ decode text floats = .ok v' ∧ Same v v' := by
  refine ⟨decode_ne_stuck floats,decode_iff floats,fun v hv => ?_⟩
  obtain ⟨text,tree,hok,⟨hlaid,hroom,hsame⟩,-⟩ := @encode_plain _ floats _ _ hv
  refine ⟨text,_,hok,?_,hsame⟩
  rw [decode_text floats (Laid.isText hlaid), if_pos (hroom.trans (by decide))]

end RoundTrip

end BuildFiji.Starlark.Json
