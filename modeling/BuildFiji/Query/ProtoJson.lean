import BuildFiji.Query.ProtoBinary
import BuildFiji.Starlark.JsonEncode

/-!
# The JSON of a message

With and without whitespace the JSON writer writes one tree, in which every
string of the message is read back, unless a name needs an escape or a field
that is not repeated is set again.
-/

set_option autoImplicit false
set_option linter.all false

namespace BuildFiji.Query.Proto

open BuildFiji.JsonGrammar
open Starlark.Json (Value asDict meaning literalText pieceUnits)

/-- A character that stands for itself in a JSON string. -/
def Unescaped (c : Char) : Prop := 0x20 ≤ c.toNat ∧ c ≠ '"' ∧ c ≠ '\\'

section Spec

variable (uppercase : Char → List Char)

/-- Two fields of a message differ in number and in JSON name, or they are values of
one repeated field. -/
def Apart (f g : Field) : Prop :=
  f.number = g.number ∨ jsonName uppercase f.name = jsonName uppercase g.name →
    f.number = g.number ∧ f.name = g.name ∧ f.repeated = true ∧ g.repeated = true

/-- Names are written as they are, and a field that is set again is repeated. -/
structure Named (m : Msg) : Prop where
  apart : m.fields.Pairwise (Apart uppercase)
  names : ∀ f ∈ m.fields, ∀ c ∈ f.name.toList, Unescaped c
  enums : ∀ f ∈ m.fields, ∀ name n, f.value = .enum name n → ∀ c ∈ name.toList, Unescaped c

variable {F : Type}

mutual

/-- What the JSON of a value says. -/
inductive Says : Val → Value F → Prop
  | int (i : Int64) : Says (.int i) (.int i.toInt)
  | bool (b : Bool) : Says (.bool b) (.bool b)
  | enum (name : String) (n : Int32) : Says (.enum name n) (.str name)
  | str (s : String) : Says (.str s) (.str s)
  | msg {m : Msg} {fields : List Field} {entries : List (String × Value F)} :
      InOrder m.fields fields → SaysFields fields entries → Says (.msg m) (asDict entries)

inductive SaysFields : List Field → List (String × Value F) → Prop
  | nil : SaysFields [] []
  | one {f : Field} {v : Value F} {fields : List Field} {entries : List (String × Value F)} :
      f.repeated = false → Says f.value v → SaysFields fields entries →
      SaysFields (f::fields) ((String.ofList (jsonName uppercase f.name),v)::entries)
  | many {name : String} {run fields : List Field} {vs : List (Value F)} {entries : List (String × Value F)} :
      run ≠ [] → (∀ f ∈ run, f.repeated = true ∧ f.name = name) → (∀ f ∈ fields, f.name ≠ name) →
      SaysEach run vs → SaysFields fields entries →
      SaysFields (run ++ fields) ((String.ofList (jsonName uppercase name),.seq .list vs)::entries)

inductive SaysEach : List Field → List (Value F) → Prop
  | nil : SaysEach [] []
  | cons {f : Field} {v : Value F} {run : List Field} {vs : List (Value F)} :
      Says f.value v → SaysEach run vs → SaysEach (f::run) (v::vs)

end

end Spec

section Gathering

/-- The entries of fields, each with the fields after it that have its name. -/
def runs : List Field → List Entry
  | [] => []
  | f::fields =>
    ⟨f.name,f.repeated,(f::fields.takeWhile fun g => f.name = g.name).map Field.value⟩ ::
      runs (fields.dropWhile fun g => f.name = g.name)
termination_by fields => fields.length
decreasing_by exact Nat.lt_succ_of_le (List.dropWhile_sublist _).length_le

theorem gather_from (before : List Entry) (e : Entry) (fields : List Field) :
    fields.foldl gatherField (before ++ [e]) =
      before ++ { e with values := e.values ++ (fields.takeWhile fun g => e.name = g.name).map Field.value } ::
        runs (fields.dropWhile fun g => e.name = g.name) := by
  induction fields generalizing before e with
  | nil => simp [runs]
  | cons f fields ih =>
    rw [List.foldl_cons]
    by_cases hname : e.name = f.name
    · have hstep : gatherField (before ++ [e]) f = before ++ [{ e with values := e.values ++ [f.value] }] := by
        rw [gatherField, List.getLast?_concat]
        simp only [hname, if_true, List.dropLast_concat]
      have htake : (f::fields).takeWhile (fun g => e.name = g.name) =
          f::fields.takeWhile fun g => e.name = g.name := List.takeWhile_cons_of_pos (decide_eq_true hname)
      have hdrop : (f::fields).dropWhile (fun g => e.name = g.name) =
          fields.dropWhile fun g => e.name = g.name := List.dropWhile_cons_of_pos (decide_eq_true hname)
      rw [hstep, ih, htake, hdrop, List.map_cons, List.append_assoc]
      rfl
    · have hstep : gatherField (before ++ [e]) f = before ++ [e] ++ [⟨f.name,f.repeated,[f.value]⟩] := by
        rw [gatherField, List.getLast?_concat]
        simp only [hname, if_false]
      have htake : (f::fields).takeWhile (fun g => e.name = g.name) = [] :=
        List.takeWhile_cons_of_neg (by simpa using hname)
      have hdrop : (f::fields).dropWhile (fun g => e.name = g.name) = f::fields :=
        List.dropWhile_cons_of_neg (by simpa using hname)
      rw [hstep, ih, htake, hdrop, runs, List.append_assoc, List.map_nil, List.append_nil]
      rfl

theorem gather_eq (fields : List Field) : gather fields = runs fields := by
  cases fields with
  | nil => rw [runs]; rfl
  | cons f fields =>
    have h := gather_from [] ⟨f.name,f.repeated,[f.value]⟩ fields
    rw [runs]
    exact h

end Gathering

section Strings

theorem plain_pieces {s : List Char} (h : ∀ c ∈ s, Unescaped c) :
    ∃ pieces, quoted pieces = '"'::(s ++ ['"']) ∧ literalText pieces = String.ofList s := by
  have hpieces : ∃ pieces : List JsonGrammar.Piece, pieces.flatMap JsonGrammar.Piece.text = s ∧
      pieces.flatMap pieceUnits = s.flatMap Utf16.units := by
    induction s with
    | nil => exact ⟨[],rfl,rfl⟩
    | cons c s ih =>
      obtain ⟨pieces,htext,hunits⟩ := ih fun d hd => h d (List.mem_cons_of_mem _ hd)
      refine ⟨.plain c (h c List.mem_cons_self)::pieces,?_,?_⟩
      · rw [List.flatMap_cons, htext]
        rfl
      · rw [List.flatMap_cons, List.flatMap_cons, hunits]
        rfl
  obtain ⟨pieces,htext,hunits⟩ := hpieces
  exact ⟨pieces,by rw [quoted, htext],by rw [literalText, hunits, Utf16.fromUnits_units]⟩

theorem hex4_piece {c : Char} (h : c.toNat < 0x10000) :
    ∃ p : JsonGrammar.Piece, p.text = '\\' :: 'u' :: hex4 c.toNat ∧ pieceUnits p = Utf16.units c := by
  have hdigits : ∀ d ∈ hex4 c.toNat, (hexValue d).isSome := by
    intro d hd
    rw [hex4] at hd
    simp only [List.mem_cons, List.not_mem_nil, or_false] at hd
    rcases hd with rfl | rfl | rfl | rfl <;>
      exact (Starlark.Json.hexValue_digit _ (Nat.mod_lt _ (by decide))).symm ▸ rfl
  refine ⟨.unicode (hex4 c.toNat) ⟨rfl,hdigits⟩,rfl,?_⟩
  have hvalue : ∀ n, (hexValue (Nat.digitChar (n%16))).getD 0 = n%16 := fun n => by
    have hd := Starlark.Json.hexValue_digit (n%16) (Nat.mod_lt _ (by decide))
    rw [show Nat.digitChar (n%16) = Starlark.Json.hexDigit (n%16) from rfl, hd, Option.getD_some]
  have hnumber : Starlark.Json.hexNumber (hex4 c.toNat) = c.toNat := by
    simp only [Starlark.Json.hexNumber, hex4, List.foldl_cons, List.foldl_nil, hvalue]
    omega
  rw [pieceUnits, hnumber, Utf16.units_single h]

theorem jsonEscape_piece (c : Char) :
    ∃ p : JsonGrammar.Piece, p.text = jsonEscape c ∧ pieceUnits p = Utf16.units c := by
  unfold jsonEscape
  split
  · next h => exact ⟨.escape '"' c (by subst h; decide),rfl,rfl⟩
  next hquote =>
  split
  · next h => exact ⟨.escape '\\' c (by subst h; decide),rfl,rfl⟩
  next hslash =>
  split
  · next h => exact ⟨.escape 'n' c (by subst h; decide),rfl,rfl⟩
  split
  · next h => exact ⟨.escape 'r' c (by subst h; decide),rfl,rfl⟩
  split
  · next h => exact ⟨.escape 't' c (by subst h; decide),rfl,rfl⟩
  split
  · next h => exact ⟨.escape 'b' c (by subst h; decide),rfl,rfl⟩
  split
  · next h => exact ⟨.escape 'f' c (by subst h; decide),rfl,rfl⟩
  split
  · next h =>
    apply hex4_piece
    rcases h with rfl | rfl | rfl | rfl | rfl <;> decide
  split
  · next h =>
    apply hex4_piece
    omega
  · next h => exact ⟨.plain c ⟨by omega,hquote,hslash⟩,rfl,rfl⟩

theorem jsonEscape_quoted (s : String) :
    ∃ pieces, quoted pieces = '"'::(s.toList.flatMap jsonEscape ++ ['"']) ∧ literalText pieces = s :=
  Starlark.Json.quoted_of_pieces jsonEscape_piece s

theorem jsonName_unescaped {uppercase : Char → List Char}
    (hupper : ∀ c, Unescaped c → ∀ d ∈ uppercase c, Unescaped d) {name : List Char}
    (h : ∀ c ∈ name, Unescaped c) (upper : Bool) :
    ∀ c ∈ jsonNameFrom uppercase upper name, Unescaped c := by
  induction name generalizing upper with
  | nil =>
    intro c hc
    rw [jsonNameFrom] at hc
    exact absurd hc List.not_mem_nil
  | cons d name ih =>
    have hrest := ih fun c hc => h c (List.mem_cons_of_mem _ hc)
    have hd := h d List.mem_cons_self
    intro c hc
    rw [jsonNameFrom] at hc
    split at hc
    · exact hrest true c hc
    · rcases List.mem_append.mp hc with hc | hc
      · cases upper with
        | true => exact hupper d hd c hc
        | false => exact List.mem_singleton.mp hc ▸ hd
      · exact hrest false c hc

end Strings

section Writers

variable {uppercase : Char → List Char}

theorem writeEntry_congr {g h : Msg → Option ℕ → List Char} {indent : Option ℕ} {e : Entry}
    (hsame : ∀ v ∈ e.values, writeValue g indent v = writeValue h indent v) :
    writeEntry uppercase g indent e = writeEntry uppercase h indent e := by
  have hall : e.values.map (writeValue g indent) = e.values.map (writeValue h indent) :=
    List.map_congr_left hsame
  have hhead : e.values.head?.map (writeValue g indent) = e.values.head?.map (writeValue h indent) := by
    rw [← List.head?_map, ← List.head?_map, hall]
  rw [writeEntry, writeEntry, hall, hhead]

theorem runs_values {fields : List Field} {e : Entry} (he : e ∈ runs fields) {v : Val} (hv : v ∈ e.values) :
    ∃ f ∈ fields, f.value = v := by
  fun_induction runs fields with
  | case1 => exact absurd he List.not_mem_nil
  | case2 f fields ih =>
    rcases List.mem_cons.mp he with rfl | he
    · obtain ⟨g,hg,rfl⟩ := List.mem_map.mp hv
      refine ⟨g,?_,rfl⟩
      rcases List.mem_cons.mp hg with rfl | hg
      · exact List.mem_cons_self
      · exact List.mem_cons_of_mem _ ((List.takeWhile_sublist _).subset hg)
    · obtain ⟨g,hg,hvalue⟩ := ih he
      exact ⟨g,List.mem_cons_of_mem _ ((List.dropWhile_sublist _).subset hg),hvalue⟩

theorem writeJson_local : Local (writeJson uppercase) := by
  intro g h m hsame
  funext indent
  have hentries : (gather m.sorted).map (writeEntry uppercase g (indent.map (· + 2))) =
      (gather m.sorted).map (writeEntry uppercase h (indent.map (· + 2))) := by
    apply List.map_congr_left
    intro e he
    apply writeEntry_congr
    intro v hv
    rw [gather_eq] at he
    obtain ⟨f,hf,hvalue⟩ := runs_values he hv
    cases v with
    | msg m' =>
      have heq := hsame f (mem_sorted.mp hf) m' hvalue
      rw [writeValue, writeValue, heq]
    | int | bool | str | enum => rfl
  rw [writeJson, writeJson, hentries]

theorem writeJson_eq (m : Msg) (indent : Option ℕ) :
    m.writeJson uppercase indent = writeJson uppercase (Msg.writeJson uppercase) m indent :=
  congrFun (descend_depth writeJson_local m) indent

end Writers

section Trees

variable {uppercase : Char → List Char} {F : Type} {floats : Starlark.Json.Floats F}

theorem newLine_space (indent : Option ℕ) : Space (newLine indent) := by
  cases indent with
  | none => exact space_nil
  | some n =>
    refine .cons rfl fun c hc => ?_
    rw [List.eq_of_mem_replicate hc]
    rfl

theorem spaced_space (indent : Option ℕ) : Space (spaced indent) := by
  cases indent with
  | none => exact space_nil
  | some n => exact .cons rfl space_nil

/-- One tree at every indent, with what it says. -/
def Treed (uppercase : Char → List Char) (floats : Starlark.Json.Floats F) (v : Val) (x : Value F) : Prop :=
  ∃ tree : Tree .value, meaning floats tree = x ∧ Says uppercase v x ∧
    ∀ indent, Laid tree (writeValue (Msg.writeJson uppercase) indent v)

def EntryTreed (uppercase : Char → List Char) (floats : Starlark.Json.Floats F) (e : Entry)
    (entry : String × Value F) : Prop :=
  ∃ (key : List JsonGrammar.Piece) (tree : Tree .value),
    literalText key = entry.1 ∧ meaning floats tree = entry.2 ∧
    ∀ indent, ∃ s, Laid tree s ∧ writeEntry uppercase (Msg.writeJson uppercase) indent e =
      newLine indent ++ (quoted key ++ ':' :: (spaced indent ++ s))

theorem items_treed {vs : List Val} {xs : List (Value F)} (h : List.Forall₂ (Treed uppercase floats) vs xs)
    (hne : vs ≠ []) : ∃ tree : Tree .items, meaning floats tree = xs ∧
      ∀ indent, Laid tree
        ((',' :: spaced indent).intercalate (vs.map (writeValue (Msg.writeJson uppercase) indent)) ++ [']']) := by
  induction h with
  | nil => exact absurd rfl hne
  | @cons v x vs xs hv hrest ih =>
    obtain ⟨tree,hmeans,-,hlaid⟩ := hv
    cases hrest with
    | nil =>
      refine ⟨.last tree,by rw [meaning, hmeans],fun indent => ?_⟩
      rw [List.map_singleton, Starlark.Json.intercalate_single]
      exact .last space_nil (hlaid indent) space_nil
    | cons hv' hrest' =>
      obtain ⟨rest,hmeans',hlaid'⟩ := ih (List.cons_ne_nil _ _)
      refine ⟨.item tree rest,by rw [meaning, hmeans, hmeans'],fun indent => ?_⟩
      rw [List.map_cons, List.map_cons, Starlark.Json.intercalate_cons, List.append_assoc,
        List.append_assoc, List.cons_append]
      exact .item space_nil (hlaid indent) space_nil (Laid.space_items (hlaid' indent) (spaced_space indent))

theorem members_treed {es : List Entry} {entries : List (String × Value F)}
    (h : List.Forall₂ (EntryTreed uppercase floats) es entries) (hne : es ≠ []) :
    ∃ tree : Tree .members, meaning floats tree = entries ∧
      ∀ inner outer, Laid tree ([','].intercalate (es.map (writeEntry uppercase (Msg.writeJson uppercase) inner)) ++
        (newLine outer ++ ['\x7d'])) := by
  induction h with
  | nil => exact absurd rfl hne
  | @cons e entry es entries he hrest ih =>
    obtain ⟨key,tree,hkey,hmeans,hwrite⟩ := he
    cases hrest with
    | nil =>
      refine ⟨.lastMember key tree,by rw [meaning, hkey, hmeans],fun inner outer => ?_⟩
      obtain ⟨s,hlaid,heq⟩ := hwrite inner
      rw [List.map_singleton, Starlark.Json.intercalate_single, heq]
      have h : Laid (.lastMember key tree) _ :=
        .lastMember (newLine_space inner) space_nil (spaced_space inner) hlaid (newLine_space outer)
      simpa only [List.append_assoc, List.nil_append, List.cons_append] using h
    | cons he' hrest' =>
      obtain ⟨rest,hmeans',hlaid'⟩ := ih (List.cons_ne_nil _ _)
      refine ⟨.member key tree rest,by rw [meaning, hkey, hmeans, hmeans'],fun inner outer => ?_⟩
      obtain ⟨s,hlaid,heq⟩ := hwrite inner
      rw [List.map_cons, List.map_cons, Starlark.Json.intercalate_cons, heq]
      have h : Laid (.member key tree rest) _ :=
        .member (newLine_space inner) space_nil (spaced_space inner) hlaid space_nil (hlaid' inner outer)
      simpa only [List.append_assoc, List.nil_append, List.cons_append, List.map_cons] using h

theorem entry_treed {e : Entry} (hname : ∀ c ∈ jsonName uppercase e.name, Unescaped c) {x : Value F}
    (h : ∃ tree : Tree .value, meaning floats tree = x ∧ ∀ indent, Laid tree
      (if e.repeated then '[' :: ((',' :: spaced indent).intercalate
          (e.values.map (writeValue (Msg.writeJson uppercase) indent)) ++ [']'])
        else (e.values.head?.map (writeValue (Msg.writeJson uppercase) indent)).getD [])) :
    EntryTreed uppercase floats e (String.ofList (jsonName uppercase e.name),x) := by
  obtain ⟨tree,hmeans,hlaid⟩ := h
  obtain ⟨key,hquoted,htext⟩ := plain_pieces hname
  refine ⟨key,tree,htext,hmeans,fun indent => ⟨_,hlaid indent,?_⟩⟩
  rw [writeEntry, hquoted]
  simp only [List.cons_append, List.append_assoc, List.nil_append]

/-- Fields by number that are apart. -/
structure Spaced (uppercase : Char → List Char) (fields : List Field) : Prop where
  sorted : fields.Pairwise fun f g => f.number ≤ g.number
  apart : fields.Pairwise (Apart uppercase)

theorem Spaced.rest {f : Field} {fields : List Field} (h : Spaced uppercase (f::fields)) :
    Spaced uppercase (fields.dropWhile fun g => f.name = g.name) :=
  ⟨(List.pairwise_cons.mp h.sorted).2.sublist (List.dropWhile_sublist _),
    (List.pairwise_cons.mp h.apart).2.sublist (List.dropWhile_sublist _)⟩

/-- What follows the run of a name has other JSON names. -/
theorem Spaced.after {f : Field} {fields : List Field} (h : Spaced uppercase (f::fields)) :
    ∀ g ∈ fields.dropWhile (fun g => f.name = g.name), jsonName uppercase f.name ≠ jsonName uppercase g.name := by
  obtain ⟨hsorted,hapart⟩ := h
  rw [List.pairwise_cons] at hsorted hapart
  intro g hg hkey
  have hmem : ∀ {g}, g ∈ fields.dropWhile (fun g => f.name = g.name) → g ∈ fields :=
    fun h => (List.dropWhile_sublist _).subset h
  obtain ⟨hnumber,hname,-⟩ := hapart.1 g (hmem hg) (.inr hkey)
  -- The first after the run has another name, so a greater number, and all after it too.
  cases hdrop : fields.dropWhile (fun g => f.name = g.name) with
  | nil =>
    rw [hdrop] at hg
    exact absurd hg List.not_mem_nil
  | cons d rest =>
    have hd : d ∈ fields := hmem (hdrop ▸ List.mem_cons_self)
    have hdname : f.name ≠ d.name := by
      have hhead := List.head?_dropWhile_not (fun g : Field => decide (f.name = g.name)) fields
      rw [hdrop] at hhead
      simpa using hhead
    have hlt : f.number < d.number := by
      rcases Nat.lt_or_eq_of_le (hsorted.1 d hd) with hlt | heq
      · exact hlt
      · exact absurd (hapart.1 d hd (.inl heq)).2.1 hdname
    have hle : d.number ≤ g.number := by
      have hpair := hsorted.2.sublist (List.dropWhile_sublist fun g => decide (f.name = g.name))
      rw [hdrop] at hg hpair
      rcases List.mem_cons.mp hg with rfl | hg
      · exact Nat.le_refl _
      · exact (List.pairwise_cons.mp hpair).1 g hg
    omega

theorem Spaced.run {f : Field} {fields : List Field} (h : Spaced uppercase (f::fields)) :
    ∀ g ∈ fields.takeWhile (fun g => f.name = g.name),
      f.repeated = true ∧ g.repeated = true ∧ g.name = f.name := by
  intro g hg
  have hname : f.name = g.name := by simpa using List.mem_takeWhile_imp hg
  have hmem : g ∈ fields := (List.takeWhile_sublist _).subset hg
  have happly := (List.pairwise_cons.mp h.apart).1 g hmem (.inr (by rw [hname]))
  exact ⟨happly.2.2.1,happly.2.2.2,hname.symm⟩

theorem saysEach_of_treed {run : List Field} {xs : List (Value F)}
    (h : List.Forall₂ (Treed uppercase floats) (run.map Field.value) xs) : SaysEach uppercase run xs := by
  induction run generalizing xs with
  | nil =>
    cases h
    exact .nil
  | cons f run ih =>
    cases h with
    | cons hv hrest =>
      obtain ⟨-,-,hspelt,-⟩ := hv
      exact .cons hspelt (ih hrest)

theorem exists_treed {vs : List Val} (h : ∀ v ∈ vs, ∃ x, Treed uppercase floats v x) :
    ∃ xs, List.Forall₂ (Treed uppercase floats) vs xs := by
  induction vs with
  | nil => exact ⟨[],.nil⟩
  | cons v vs ih =>
    obtain ⟨x,hx⟩ := h v List.mem_cons_self
    obtain ⟨xs,hxs⟩ := ih fun v' hv' => h v' (List.mem_cons_of_mem _ hv')
    exact ⟨x::xs,.cons hx hxs⟩

theorem runs_treed {fields : List Field} (h : Spaced uppercase fields)
    (hnames : ∀ f ∈ fields, ∀ c ∈ jsonName uppercase f.name, Unescaped c)
    (hvalues : ∀ f ∈ fields, ∃ x, Treed uppercase floats f.value x) :
    ∃ entries : List (String × Value F), SaysFields uppercase fields entries ∧
      List.Forall₂ (EntryTreed uppercase floats) (runs fields) entries ∧ (entries.map Prod.fst).Nodup ∧
      ∀ k ∈ entries.map Prod.fst, ∃ f ∈ fields, k = String.ofList (jsonName uppercase f.name) := by
  fun_induction runs fields with
  | case1 => exact ⟨[],.nil,.nil,List.nodup_nil,fun k hk => absurd hk List.not_mem_nil⟩
  | case2 f fields ih =>
    have hsub : ∀ {g}, g ∈ fields.dropWhile (fun g => f.name = g.name) → g ∈ f::fields :=
      fun hg => List.mem_cons_of_mem _ ((List.dropWhile_sublist _).subset hg)
    obtain ⟨entries,hspelt,htreed,hnodup,hkeys⟩ := ih h.rest (fun g hg => hnames g (hsub hg))
      fun g hg => hvalues g (hsub hg)
    have hfresh : String.ofList (jsonName uppercase f.name) ∉ entries.map Prod.fst := by
      intro hk
      obtain ⟨g,hg,heq⟩ := hkeys _ hk
      exact h.after g hg (String.ofList_inj.mp heq)
    have hfirst := hnames f List.mem_cons_self
    have hsplit : f::fields = (f::fields.takeWhile fun g => f.name = g.name) ++
        fields.dropWhile fun g => f.name = g.name := by
      rw [List.cons_append, List.takeWhile_append_dropWhile]
    have hallKeys : ∀ x : Value F, ∀ k ∈ ((String.ofList (jsonName uppercase f.name),x)::entries).map Prod.fst,
        ∃ g ∈ f::fields, k = String.ofList (jsonName uppercase g.name) := by
      intro x k hk
      rcases List.mem_cons.mp hk with rfl | hk
      · exact ⟨f,List.mem_cons_self,rfl⟩
      · obtain ⟨g,hg,heq⟩ := hkeys k hk
        exact ⟨g,hsub hg,heq⟩
    cases hrep : f.repeated with
    | false =>
      have hrun : fields.takeWhile (fun g => f.name = g.name) = [] := by
        rw [List.eq_nil_iff_forall_not_mem]
        intro g hg
        have hyes := (h.run g hg).1
        rw [hrep] at hyes
        cases hyes
      obtain ⟨x,tree,hmeans,hvalue,hlaid⟩ := hvalues f List.mem_cons_self
      refine ⟨(String.ofList (jsonName uppercase f.name),x)::entries,?_,?_,List.nodup_cons.mpr ⟨hfresh,hnodup⟩,
        hallKeys x⟩
      · rw [hsplit, hrun]
        exact .one hrep hvalue hspelt
      · rw [hrun]
        exact .cons (@entry_treed uppercase F floats ⟨f.name,false,[f].map Field.value⟩ hfirst x
          ⟨tree,hmeans,hlaid⟩) htreed
    | true =>
      obtain ⟨xs,hxs⟩ := @exists_treed uppercase F floats
        ((f::fields.takeWhile fun g => f.name = g.name).map Field.value) (by
          intro v hv
          obtain ⟨g,hg,rfl⟩ := List.mem_map.mp hv
          apply hvalues g
          rw [hsplit]
          exact List.mem_append_left _ hg)
      obtain ⟨tree,hmeans,hlaid⟩ := items_treed hxs (List.cons_ne_nil _ _)
      refine ⟨(String.ofList (jsonName uppercase f.name),.seq .list xs)::entries,?_,?_,
        List.nodup_cons.mpr ⟨hfresh,hnodup⟩,hallKeys _⟩
      · rw [hsplit]
        apply SaysFields.many (List.cons_ne_nil _ _) _ _ (saysEach_of_treed hxs) hspelt
        · intro g hg
          rcases List.mem_cons.mp hg with rfl | hg
          · exact ⟨hrep,rfl⟩
          · exact (h.run g hg).2
        · intro g hg heq
          exact h.after g hg (by rw [heq])
      · exact .cons (@entry_treed uppercase F floats ⟨f.name,true,_⟩ hfirst _
          ⟨.arr tree,by rw [meaning, hmeans],fun indent => .arr (hlaid indent)⟩) htreed

theorem apart_symm {f g : Field} (h : Apart uppercase f g) : Apart uppercase g f := by
  intro hor
  obtain ⟨hnumber,hname,hf,hg⟩ := h (hor.imp Eq.symm Eq.symm)
  exact ⟨hnumber.symm,hname.symm,hg,hf⟩

theorem insertEntry_fresh {before : List (String × Value F)} {k : String} {v : Value F}
    (h : ∀ e ∈ before, e.1 ≠ k) : Starlark.Json.insertEntry before k v = before ++ [(k,v)] := by
  induction before with
  | nil => rfl
  | cons e before ih =>
    rw [Starlark.Json.insertEntry, if_neg (h e List.mem_cons_self),
      ih fun e' he' => h e' (List.mem_cons_of_mem _ he')]
    rfl

theorem insertAll_distinct {before entries : List (String × Value F)}
    (h : ((before ++ entries).map Prod.fst).Nodup) :
    Starlark.Json.insertAll before entries = before ++ entries := by
  induction entries generalizing before with
  | nil => rw [List.append_nil]; rfl
  | cons e entries ih =>
    have hfresh : ∀ e' ∈ before, e'.1 ≠ e.1 := by
      intro e' he' heq
      rw [List.map_append, List.nodup_append] at h
      exact h.2.2 _ (List.mem_map_of_mem he') _ (List.mem_map_of_mem List.mem_cons_self) heq
    have hstep : Starlark.Json.insertEntry before e.1 e.2 = before ++ [e] := insertEntry_fresh hfresh
    change Starlark.Json.insertAll (Starlark.Json.insertEntry before e.1 e.2) entries = _
    rw [hstep, ih (by rw [List.append_assoc]; exact h), List.append_assoc]
    rfl

theorem msg_treed (hupper : ∀ c, Unescaped c → ∀ d ∈ uppercase c, Unescaped d) (m : Msg)
    (hnamed : ∀ m', Within m m' → Named uppercase m') : ∃ x, Treed uppercase floats (.msg m) x := by
  induction hdepth : m.depth using Nat.strongRecOn generalizing m with
  | ind d ih =>
    have hm := hnamed m .itself
    have hspaced : Spaced uppercase m.sorted :=
      ⟨(sorted_inOrder m).1,((List.mergeSort_perm m.fields _).pairwise_iff apart_symm).mpr hm.apart⟩
    have hnames : ∀ f ∈ m.sorted, ∀ c ∈ jsonName uppercase f.name, Unescaped c := by
      intro f hf
      exact jsonName_unescaped hupper (hm.names f (mem_sorted.mp hf)) false
    have hvalues : ∀ f ∈ m.sorted, ∃ x, Treed uppercase floats f.value x := by
      intro f hf
      have hf' := mem_sorted.mp hf
      cases hvalue : f.value with
      | int i =>
        refine ⟨_,.num (Starlark.Json.wholeNumber i.toInt),Starlark.Json.wholeNumber_value floats _,.int i,
          fun indent => ?_⟩
        rw [writeValue, ← Starlark.Json.wholeNumber_text]
        exact .num _
      | bool b =>
        refine ⟨_,.word (.bool b),rfl,.bool b,fun indent => ?_⟩
        cases b <;> exact .word _
      | str s =>
        obtain ⟨pieces,hquoted,htext⟩ := jsonEscape_quoted s
        refine ⟨_,.str pieces,by rw [meaning, htext],.str s,fun indent => ?_⟩
        rw [writeValue, ← hquoted]
        exact .str pieces
      | enum name n =>
        obtain ⟨pieces,hquoted,htext⟩ := plain_pieces (hm.enums f hf' name n hvalue)
        refine ⟨_,.str pieces,by rw [meaning, htext, String.ofList_toList],.enum name n,fun indent => ?_⟩
        rw [writeValue, ← hquoted]
        exact .str pieces
      | msg m' =>
        exact ih m'.depth (hdepth ▸ nested_depth hf' hvalue) m'
          (fun m'' h => hnamed m'' (Within.trans (.nested .itself hf' hvalue) h)) rfl
    obtain ⟨entries,hspelt,htreed,hnodup,-⟩ := runs_treed hspaced hnames hvalues
    by_cases hempty : runs m.sorted = []
    · rw [hempty] at htreed
      cases htreed
      refine ⟨_,.emptyObj,rfl,.msg (sorted_inOrder m) hspelt,fun indent => ?_⟩
      rw [writeValue, writeJson_eq, writeJson, gather_eq, hempty]
      exact .emptyObj space_nil
    · obtain ⟨tree,hmeans,hlaid⟩ := members_treed htreed hempty
      refine ⟨_,.obj tree,?_,.msg (sorted_inOrder m) hspelt,fun indent => ?_⟩
      · rw [meaning, hmeans, insertAll_distinct (by rw [List.nil_append]; exact hnodup), List.nil_append]
      · rw [writeValue, writeJson_eq, writeJson, gather_eq]
        simp only [hempty, if_false]
        exact .obj (hlaid _ indent)

end Trees

section Results

theorem binary_reads {m : Msg} (hnumbered : Numbered m) (hlen : m.binary.length < 2^64) :
    Reads (.msg m) (.len m.binary) := by
  obtain ⟨rs,hfits,hbytes,hreads⟩ := binary_written m hnumbered hlen
  refine .msg (sorted_inOrder m) ?_ hreads
  rw [hbytes]
  exact Wire.records_bytes hfits

theorem delimited_split {ms : List Msg} (hlen : ∀ m ∈ ms, m.binary.length < 2^64) :
    Wire.frames (ms.flatMap Msg.delimited) = some (ms.map Msg.binary) := by
  have hframes : ms.flatMap Msg.delimited = (ms.map Msg.binary).flatMap Framing.frame := by
    rw [List.flatMap_map]
    rfl
  rw [hframes]
  apply Wire.frames_bytes
  intro body hbody
  obtain ⟨m,hm,rfl⟩ := List.mem_map.mp hbody
  exact hlen m hm

theorem jsonCompact_inOrder (uppercase : Char → List Char) {fields : List Field}
    (h : fields.Pairwise fun f g => f.number ≤ g.number) :
    Msg.jsonCompact uppercase (.mk fields) = '\x7b'::([','].intercalate ((gather fields).map
      (writeEntry uppercase (Msg.writeJson uppercase) none)) ++ ['\x7d']) := by
  have hsorted : (Msg.mk fields).sorted = fields :=
    List.mergeSort_of_pairwise (h.imp fun hle => decide_eq_true hle)
  rw [Msg.jsonCompact, writeJson_eq, writeJson, hsorted]
  simp [newLine]

/-- A field that is not repeated and set again is lost, and a name is written as it is. -/
theorem json_not_decodable :
    Msg.jsonCompact (fun c => [c]) (((Msg.mk []).one 1 "a" (.str "x")).one 1 "a" (.str "y")) =
      Msg.jsonCompact (fun c => [c]) ((Msg.mk []).one 1 "a" (.str "x")) ∧
    Msg.jsonCompact (fun c => [c]) ((Msg.mk []).one 1 "a" (.enum "x\",\"b\":\"y" 0)) =
      Msg.jsonCompact (fun c => [c]) (((Msg.mk []).one 1 "a" (.str "x")).one 2 "b" (.str "y")) := by
  have honce := @jsonCompact_inOrder (fun c => [c]) [.plain 1 "a" false (.str "x")] (by decide)
  have hagain := @jsonCompact_inOrder (fun c => [c])
    [.plain 1 "a" false (.str "x"),.plain 1 "a" false (.str "y")] (by decide)
  have henum := @jsonCompact_inOrder (fun c => [c])
    [.plain 1 "a" false (.enum "x\",\"b\":\"y" 0)] (by decide)
  have hboth := @jsonCompact_inOrder (fun c => [c])
    [.plain 1 "a" false (.str "x"),.plain 2 "b" false (.str "y")] (by decide)
  exact ⟨hagain.trans (Eq.trans (by decide) honce.symm),henum.trans (Eq.trans (by decide) hboth.symm)⟩

theorem writers_decodable {uppercase : Char → List Char} {F : Type} (floats : Starlark.Json.Floats F)
    (hupper : ∀ c, Unescaped c → ∀ d ∈ uppercase c, Unescaped d) :
    (∀ m, Numbered m → m.binary.length < 2^64 → Reads (.msg m) (.len m.binary)) ∧
    (∀ ms : List Msg, (∀ m ∈ ms, m.binary.length < 2^64) →
      Wire.frames (ms.flatMap Msg.delimited) = some (ms.map Msg.binary)) ∧
    ∀ m, (∀ m', Within m m' → Named uppercase m') → ∃ tree x, IsText tree (m.json uppercase) ∧
      IsText tree (m.jsonCompact uppercase) ∧ meaning floats tree = x ∧ Says uppercase (.msg m) x := by
  refine ⟨fun m => binary_reads,fun ms => delimited_split,fun m hnamed => ?_⟩
  obtain ⟨x,tree,hmeans,hspelt,hlaid⟩ := @msg_treed uppercase F floats hupper m hnamed
  have hnewline : Space ['\n'] := .cons rfl space_nil
  refine ⟨tree,x,⟨[],_,['\n'],space_nil,hlaid (some 0),hnewline,rfl⟩,
    ⟨[],_,[],space_nil,hlaid none,space_nil,?_⟩,hmeans,hspelt⟩
  rw [List.append_nil]
  rfl

/-- One field, of a number and a name in two words. -/
def sample : Msg := (Msg.mk []).one 7 "a_b" (.str "x=1")

theorem within_sample {m : Msg} (h : Within sample m) : m = sample := by
  induction h with
  | itself => rfl
  | nested _ hf hvalue ih =>
    rw [ih] at hf
    rw [List.mem_singleton.mp hf] at hvalue
    cases hvalue

theorem writers_decodable_sample :
    Reads (.msg sample) (.len sample.binary) ∧
    Wire.frames ([sample,sample].flatMap Msg.delimited) = some [sample.binary,sample.binary] ∧
    ∃ tree x, IsText tree (sample.jsonCompact fun c => if c = 'b' then ['B'] else [c]) ∧
      meaning (⟨fun _ => (),fun _ => .ok "0.0"⟩ : Starlark.Json.Floats Unit) tree = x ∧
      Says (fun c => if c = 'b' then ['B'] else [c]) (.msg sample) x := by
  have hupper : ∀ c, Unescaped c → ∀ d ∈ (if c = 'b' then ['B'] else [c]), Unescaped d := by
    intro c hc d hd
    split at hd
    · rw [List.mem_singleton.mp hd]
      unfold Unescaped
      decide
    · rw [List.mem_singleton.mp hd]
      exact hc
  have hlen : sample.binary.length < 2^64 := by
    have hsorted : sample.sorted = sample.fields := List.mergeSort_singleton _
    rw [binary_eq, hsorted]
    simp only [sample, Msg.one, Msg.fields, List.nil_append, encode, encodeField]
    decide +kernel
  obtain ⟨hbinary,hdelimited,hjson⟩ := @writers_decodable _ Unit ⟨fun _ => (),fun _ => .ok "0.0"⟩ hupper
  refine ⟨hbinary sample (fun m hm f hf => ?_) hlen,hdelimited [sample,sample] (fun m hm => ?_),?_⟩
  · rw [within_sample hm] at hf
    rw [List.mem_singleton.mp hf]
    decide
  · rcases List.mem_pair.mp hm with rfl | rfl <;> exact hlen
  · obtain ⟨tree,x,-,hcompact,hmeans,hspelt⟩ := hjson sample fun m hm => by
      rw [within_sample hm]
      refine ⟨List.pairwise_singleton _ _,fun f hf c hc => ?_,fun f hf name n hvalue => ?_⟩
      · rw [List.mem_singleton.mp hf] at hc
        change c ∈ ['a', '_', 'b'] at hc
        simp only [List.mem_cons, List.not_mem_nil, or_false] at hc
        unfold Unescaped
        rcases hc with rfl | rfl | rfl <;> decide
      · rw [List.mem_singleton.mp hf] at hvalue
        cases hvalue
    exact ⟨tree,x,hcompact,hmeans,hspelt⟩

end Results

end BuildFiji.Query.Proto
