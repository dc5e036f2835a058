import BuildFiji.Graph.LabelText
import BuildFiji.Repo.RepoAttr
import Mathlib

/-!
# Attributes read back

An attribute comes back from the lockfile as the value it was when every label in it
reads back as itself. A label whose repository could not be named does not: what stands
in the place of the name is no repository's name.
-/

set_option autoImplicit false
set_option linter.all false

namespace BuildFiji.Replay

open BuildFiji.Graph (Label)

open BuildFiji.Bzlmod (Json)

theorem filterMap_eq_map_iff {α β : Type*} {f : α → Option β} {g : α → β} {l : List α} :
    l.filterMap f = l.map g ↔ ∀ x ∈ l, f x = some (g x) := by
  induction l with
  | nil => simp
  | cons x l ih =>
    cases hx : f x with
    | none =>
      rw [List.filterMap_cons_none hx]
      constructor
      · intro h
        have hlen := congrArg List.length h
        have hle := List.length_filterMap_le f l
        rw [List.length_map, List.length_cons] at hlen
        omega
      · intro h
        cases hx.symm.trans (h x List.mem_cons_self)
    | some y =>
      rw [List.filterMap_cons_some hx, List.map_cons, List.cons.injEq, ih, List.forall_mem_cons, hx,
        Option.some.injEq]

section Quotes

theorem getLast?_cons_concat {α : Type*} (x y : α) (l : List α) :
    (x::(l ++ [y])).getLast? = some y := by
  rw [← List.cons_append, List.getLast?_concat]

theorem wrapped_iff {s : String} : wrapped s = true ↔ ∃ inner, s = "'" ++ inner ++ "'" := by
  constructor
  · intro h
    simp only [wrapped, Bool.and_eq_true, decide_eq_true_eq, beq_iff_eq] at h
    obtain ⟨⟨hlen,hhead⟩,hlast⟩ := h
    cases hs : s.toList with
    | nil =>
      rw [hs] at hhead
      cases hhead
    | cons c cs =>
      rw [hs] at hhead hlast
      cases hhead
      rcases List.eq_nil_or_concat cs with rfl | ⟨inner,d,rfl⟩
      · have hone : s.length = 1 := by rw [← String.length_toList, hs]; rfl
        omega
      · rw [List.concat_eq_append] at hs hlast
        rw [getLast?_cons_concat] at hlast
        have hd : d = '\x27' := Option.some.inj hlast
        refine ⟨.ofList inner,?_⟩
        apply String.ext
        rw [hs, hd]
        simp
  · rintro ⟨inner,rfl⟩
    have hlist : ("'" ++ inner ++ "'").toList = '\x27'::(inner.toList ++ ['\x27']) := by simp
    have hlen : 1 < ("'" ++ inner ++ "'").length := by
      rw [← String.length_toList, hlist, List.length_cons, List.length_append, List.length_singleton]
      omega
    rw [wrapped, hlist, getLast?_cons_concat, decide_eq_true hlen]
    rfl

theorem unquoted_wrap (s : String) : unquoted ("'" ++ s ++ "'") = s := by
  rw [unquoted, if_pos (wrapped_iff.mpr ⟨s,rfl⟩)]
  apply String.ext
  simp

theorem unquoted_quoted (s : String) : unquoted (quoted s) = s := by
  unfold quoted
  split
  · exact unquoted_wrap s
  · next h =>
    rw [Bool.or_eq_true, not_or] at h
    rw [unquoted, if_neg h.2]

theorem startsLabel_quoted (s : String) : startsLabel (quoted s) = false := by
  unfold quoted
  split
  · simp [startsLabel, List.isPrefixOf]
  · next h =>
    rw [Bool.or_eq_true, not_or] at h
    simpa using h.1

theorem startsLabel_labelText (l : Label) : startsLabel (labelText l) = true := by
  simp [startsLabel, labelText]

theorem labelFrom_quoted (s : String) : labelFrom (quoted s) = none := by
  rw [labelFrom, startsLabel_quoted]
  rfl

end Quotes

def ReadsBack (l : Label) : Prop := labelFrom (labelText l) = some l

def RepoAttr.labels : RepoAttr → List Label
  | .label l => [l]
  | .labelList labels => labels
  | .stringKeyedLabelDict entries => entries.map Prod.snd
  | .labelKeyedStringDict entries => entries.map Prod.fst
  | .labelListDict entries => entries.flatMap Prod.snd
  | _ => []

def RepoAttr.ReadsBack (a : RepoAttr) : Prop := a ≠ .none ∧ ∀ l ∈ a.labels, Replay.ReadsBack l

/-- What comes back of an attribute, as a rule sees it. -/
def RepoAttr.back (a : RepoAttr) : Option Value :=
  ((repoAttrJson a).bind repoAttrFromJson).map RepoAttr.toValue

section Items

theorem asI64_repr (i : Int64) : asI64 i.toInt.repr = some i := by
  have hle := i.le_toInt
  have hlt := i.toInt_lt
  rw [asI64, Int.toInt?_repr, Option.bind_some, if_pos ⟨hle,hlt⟩, Int64.ofInt_toInt]

theorem strings_back (items : List String) :
    (items.map fun s => Json.string (quoted s)).filterMap (fun i => (stringOf i).map unquoted) = items := by
  rw [List.filterMap_map]
  conv_rhs => rw [← List.map_id items]
  apply filterMap_eq_map_iff.mpr
  intro s _
  show some (unquoted (quoted s)) = some s
  rw [unquoted_quoted]

theorem labels_back_iff (labels : List Label) :
    (labels.map fun l => Json.string (labelText l)).filterMap labelOf = labels ↔
      ∀ l ∈ labels, ReadsBack l := by
  rw [List.filterMap_map]
  conv_lhs => rhs; rw [← List.map_id labels]
  exact filterMap_eq_map_iff

theorem items_strings (items : List String) :
    itemsFromJson (items.map fun s => .string (quoted s)) = .stringList items := by
  have hn : ((items.map fun s => Json.string (quoted s)).all isNumber &&
      !(items.map fun s => Json.string (quoted s)).isEmpty) = false := by
    cases items <;> rfl
  have hl : (!(items.map fun s => Json.string (quoted s)).isEmpty &&
      (items.map fun s => Json.string (quoted s)).all isLabelText) = false := by
    cases items with
    | nil => rfl
    | cons s items => simp [isLabelText, stringOf, startsLabel_quoted]
  rw [itemsFromJson, hn, hl, strings_back]
  rfl

theorem items_ints (items : List Int64) :
    (itemsFromJson (items.map fun i => .number i.toInt.repr)).toValue =
      .list (items.map fun i => .int i.toInt32) := by
  cases items with
  | nil => rfl
  | cons i items =>
    have hn : (((i::items).map fun i => Json.number i.toInt.repr).all isNumber &&
        !((i::items).map fun i => Json.number i.toInt.repr).isEmpty) = true := by
      simp [isNumber]
    have hback : ((i::items).map fun i => Json.number i.toInt.repr).filterMap intOf = i::items := by
      rw [List.filterMap_map]
      conv_rhs => rw [← List.map_id (i::items)]
      apply filterMap_eq_map_iff.mpr
      intro j _
      exact asI64_repr j
    rw [itemsFromJson, hn, hback]
    rfl

theorem items_labels_iff (labels : List Label) :
    (itemsFromJson (labels.map fun l => .string (labelText l))).toValue = .list (labels.map .label) ↔
      ∀ l ∈ labels, ReadsBack l := by
  cases labels with
  | nil => simp [itemsFromJson, RepoAttr.toValue]
  | cons l labels =>
    have hn : (((l::labels).map fun l => Json.string (labelText l)).all isNumber &&
        !((l::labels).map fun l => Json.string (labelText l)).isEmpty) = false := by
      simp [isNumber]
    have hl : (!((l::labels).map fun l => Json.string (labelText l)).isEmpty &&
        ((l::labels).map fun l => Json.string (labelText l)).all isLabelText) = true := by
      simp [isLabelText, stringOf, startsLabel_labelText]
    rw [itemsFromJson, hn, hl, ← labels_back_iff]
    simp only [Bool.false_eq_true, if_false, if_true, RepoAttr.toValue, Value.list.injEq]
    exact List.map_inj_right (fun _ _ h => Value.label.inj h)

end Items

section Entries

variable {α : Type}

/-- No key of these is taken for a label. -/
theorem quoted_keys (entries : List (String × α)) (json : α → Json) :
    (!(entries.map fun e => (quoted e.1,json e.2)).isEmpty &&
      (entries.map fun e => (quoted e.1,json e.2)).all fun e => startsLabel e.1) = false := by
  cases entries with
  | nil => rfl
  | cons e entries => simp [startsLabel_quoted]

theorem values_all {entries : List (String × α)} (json : α → Json) (p : Json → Bool) (b : Bool)
    (hne : entries ≠ []) (h : ∀ e ∈ entries, p (json e.2) = b) :
    ((entries.map fun e => (quoted e.1,json e.2)).all fun e => p e.2) = b := by
  cases b with
  | true =>
    rw [List.all_eq_true]
    intro x hx
    obtain ⟨e,he,rfl⟩ := List.mem_map.mp hx
    exact h e he
  | false =>
    cases entries with
    | nil => exact absurd rfl hne
    | cons e entries =>
      rw [List.map_cons, List.all_cons, h e List.mem_cons_self, Bool.false_and]

theorem entries_strings (entries : List (String × String)) :
    entriesFromJson (entries.map fun e => (quoted e.1,.string (quoted e.2))) = .stringDict entries := by
  have hp : ((entries.map fun e => (quoted e.1,Json.string (quoted e.2))).all fun e =>
      isPlainText e.2) = true := by
    simp [isPlainText, stringOf, startsLabel_quoted]
  rw [entriesFromJson, quoted_keys entries fun s => .string (quoted s), hp]
  simp only [Bool.false_eq_true, if_false, if_true, List.filterMap_map, RepoAttr.stringDict.injEq]
  conv_rhs => rw [← List.map_id entries]
  apply filterMap_eq_map_iff.mpr
  intro e _
  show some (unquoted (quoted e.1),unquoted (quoted e.2)) = some e
  rw [unquoted_quoted, unquoted_quoted]

theorem entries_labels_iff (entries : List (String × Label)) :
    (entriesFromJson (entries.map fun e => (quoted e.1,.string (labelText e.2)))).toValue =
      .dict (entries.map fun e => (.string e.1,.label e.2)) ↔
      ∀ l ∈ entries.map Prod.snd, ReadsBack l := by
  by_cases hne : entries = []
  · simp [hne, entriesFromJson, RepoAttr.toValue]
  · have hp := values_all (fun l => .string (labelText l)) isPlainText false hne
      fun e _ => by simp [isPlainText, stringOf, startsLabel_labelText]
    have hl := values_all (fun l => .string (labelText l)) isLabelText true hne
      fun e _ => by simp [isLabelText, stringOf, startsLabel_labelText]
    rw [entriesFromJson, quoted_keys entries fun l => .string (labelText l), hp, hl]
    simp only [Bool.false_eq_true, if_false, if_true, List.filterMap_map, RepoAttr.toValue, Value.dict.injEq,
      List.map_filterMap, filterMap_eq_map_iff, List.forall_mem_map]
    apply forall₂_congr
    intro e _
    show ((labelFrom (labelText e.2)).bind fun l => some (unquoted (quoted e.1),l)).map _ = _ ↔ _
    rw [unquoted_quoted, ReadsBack]
    cases labelFrom (labelText e.2) <;> simp

theorem entries_keys_iff (entries : List (Label × String)) :
    (entriesFromJson (entries.map fun e => (labelText e.1,.string (quoted e.2)))).toValue =
      .dict (entries.map fun e => (.label e.1,.string e.2)) ↔
      ∀ l ∈ entries.map Prod.fst, ReadsBack l := by
  by_cases hne : entries = []
  · simp [hne, entriesFromJson, RepoAttr.toValue]
  · have hk : (!(entries.map fun e => (labelText e.1,Json.string (quoted e.2))).isEmpty &&
        (entries.map fun e => (labelText e.1,Json.string (quoted e.2))).all fun e =>
          startsLabel e.1) = true := by
      simp [hne, startsLabel_labelText]
    rw [entriesFromJson, hk]
    simp only [if_true, List.filterMap_map, RepoAttr.toValue, Value.dict.injEq, List.map_filterMap, filterMap_eq_map_iff,
      List.forall_mem_map]
    apply forall₂_congr
    intro e _
    show ((labelFrom (labelText e.1)).bind fun l => some (l,unquoted (quoted e.2))).map _ = _ ↔ _
    rw [unquoted_quoted, ReadsBack]
    cases labelFrom (labelText e.1) <;> simp

theorem entries_labelLists_iff (entries : List (String × List Label)) :
    (entriesFromJson (entries.map fun e =>
      (quoted e.1,.array (e.2.map fun l => .string (labelText l))))).toValue =
      .dict (entries.map fun e => (.string e.1,.list (e.2.map .label))) ↔
      ∀ l ∈ entries.flatMap Prod.snd, ReadsBack l := by
  by_cases hne : entries = []
  · simp [hne, entriesFromJson, RepoAttr.toValue]
  · have hp := values_all (fun ls : List Label => .array (ls.map fun l => .string (labelText l)))
      isPlainText false hne fun _ _ => rfl
    have hl := values_all (fun ls : List Label => .array (ls.map fun l => .string (labelText l)))
      isLabelText false hne fun _ _ => rfl
    have hls := values_all (fun ls : List Label => .array (ls.map fun l => .string (labelText l)))
      isLabelTexts true hne
      fun e _ => by simp [isLabelTexts, isLabelText, stringOf, startsLabel_labelText]
    rw [entriesFromJson,
      quoted_keys entries fun ls => .array (ls.map fun l => .string (labelText l)), hp, hl, hls]
    simp only [Bool.false_eq_true, if_false, if_true, List.filterMap_map, RepoAttr.toValue, Value.dict.injEq,
      List.map_filterMap, filterMap_eq_map_iff]
    have hflat : (∀ l ∈ entries.flatMap Prod.snd, ReadsBack l) ↔
        ∀ e ∈ entries, ∀ l ∈ e.2, ReadsBack l := by
      simp only [List.mem_flatMap, forall_exists_index, and_imp]
      exact ⟨fun h e he l hl => h l e he hl,fun h l e he hl => h e he l hl⟩
    rw [hflat]
    apply forall₂_congr
    intro e _
    rw [← labels_back_iff]
    simp only [Function.comp_apply, Option.map_some, unquoted_quoted, Option.some.injEq, Prod.mk.injEq,
      true_and, Value.list.injEq]
    exact List.map_inj_right (fun _ _ h => Value.label.inj h)

/-- With only empty lists they come back as lists of labels, which are the same values. -/
theorem entries_stringLists (entries : List (String × List String)) :
    (entriesFromJson (entries.map fun e =>
      (quoted e.1,.array (e.2.map fun s => .string (quoted s))))).toValue =
      .dict (entries.map fun e => (.string e.1,.list (e.2.map .string))) := by
  by_cases hne : entries = []
  · simp [hne, entriesFromJson, RepoAttr.toValue]
  · have hp := values_all (fun ss : List String => .array (ss.map fun s => .string (quoted s)))
      isPlainText false hne fun _ _ => rfl
    have hl := values_all (fun ss : List String => .array (ss.map fun s => .string (quoted s)))
      isLabelText false hne fun _ _ => rfl
    rw [entriesFromJson,
      quoted_keys entries fun ss => .array (ss.map fun s => .string (quoted s)), hp, hl]
    simp only [Bool.false_eq_true, if_false]
    split
    · next hall =>
      have hempty : ∀ e ∈ entries, e.2 = [] := by
        intro e he
        have h := List.all_eq_true.mp hall _ (List.mem_map_of_mem he)
        cases hs : e.2 with
        | nil => rfl
        | cons s ss => simp [hs, isLabelTexts, isLabelText, stringOf, startsLabel_quoted] at h
      rw [List.filterMap_map]
      simp only [RepoAttr.toValue, Value.dict.injEq, List.map_filterMap, filterMap_eq_map_iff]
      intro e he
      simp [hempty e he, unquoted_quoted]
    · rw [List.filterMap_map]
      simp only [RepoAttr.toValue, Value.dict.injEq, List.map_filterMap, filterMap_eq_map_iff]
      intro e _
      simp only [Function.comp_apply, Option.map_some, unquoted_quoted, strings_back]

end Entries

/-- An attribute with no label in it is read back when its values are the same. -/
theorem RepoAttr.back_plain {a b : RepoAttr} {json : Json} (hjson : repoAttrJson a = some json)
    (hread : repoAttrFromJson json = some b) (hvalue : b.toValue = a.toValue) (hnone : a ≠ .none)
    (hlabels : a.labels = []) : a.back = some a.toValue ↔ a.ReadsBack := by
  rw [back, hjson, Option.bind_some, hread, Option.map_some, hvalue, RepoAttr.ReadsBack, hlabels]
  simp [hnone]

theorem RepoAttr.back_labels {a b : RepoAttr} {json : Json} (hjson : repoAttrJson a = some json)
    (hread : repoAttrFromJson json = some b) (hnone : a ≠ .none)
    (hvalue : b.toValue = a.toValue ↔ ∀ l ∈ a.labels, Replay.ReadsBack l) :
    a.back = some a.toValue ↔ a.ReadsBack := by
  rw [back, hjson, Option.bind_some, hread, Option.map_some, Option.some.injEq, hvalue,
    RepoAttr.ReadsBack, and_iff_right hnone]

theorem RepoAttr.back_iff (a : RepoAttr) : a.back = some a.toValue ↔ a.ReadsBack := by
  cases a with
  | none => simp [back, repoAttrJson, RepoAttr.ReadsBack]
  | bool b => exact back_plain rfl rfl rfl nofun rfl
  | int i =>
    apply back_plain rfl (b := .int i) _ rfl nofun rfl
    rw [repoAttrFromJson, asI64_repr, Option.map_some]
  | string s =>
    apply back_plain rfl (b := .string s) _ rfl nofun rfl
    rw [repoAttrFromJson, labelFrom_quoted, unquoted_quoted]
  | stringList items =>
    have hvalue : (itemsFromJson (items.map fun s => .string (quoted s))).toValue =
        (RepoAttr.stringList items).toValue := by rw [items_strings]
    exact back_plain rfl rfl hvalue nofun rfl
  | stringDict entries =>
    have hvalue : (entriesFromJson (entries.map fun e => (quoted e.1,.string (quoted e.2)))).toValue =
        (RepoAttr.stringDict entries).toValue := by rw [entries_strings]
    exact back_plain rfl rfl hvalue nofun rfl
  | stringListDict entries => exact back_plain rfl rfl (entries_stringLists entries) nofun rfl
  | intList items => exact back_plain rfl rfl (items_ints items) nofun rfl
  | label l =>
    cases hl : labelFrom (labelText l) with
    | none =>
      have hread : repoAttrFromJson (.string (labelText l)) =
          some (.string (unquoted (labelText l))) := by rw [repoAttrFromJson, hl]
      refine back_labels (a := .label l) rfl hread nofun ?_
      simp [labels, Replay.ReadsBack, hl, toValue]
    | some l' =>
      have hread : repoAttrFromJson (.string (labelText l)) = some (.label l') := by
        rw [repoAttrFromJson, hl]
      refine back_labels (a := .label l) rfl hread nofun ?_
      simp [labels, Replay.ReadsBack, hl, toValue]
  | labelList ls => exact back_labels rfl rfl nofun (items_labels_iff ls)
  | stringKeyedLabelDict entries => exact back_labels rfl rfl nofun (entries_labels_iff entries)
  | labelKeyedStringDict entries => exact back_labels rfl rfl nofun (entries_keys_iff entries)
  | labelListDict entries => exact back_labels rfl rfl nofun (entries_labelLists_iff entries)

section Labels

open BuildFiji.Graph

theorem labelText_toList (l : Label) : (labelText l).toList =
    '@' :: '@' :: (l.repo.toList ++ '/' :: '/' :: (l.package.toList ++ ':'::l.name.toList)) := by
  simp [labelText]

/-- A label is what it was when its parts are what they have to be. -/
theorem readsBack_valid {l : Label} (hrepo : validateRepoName l.repo.toList = .ok ())
    (hpackage : validatePackageName l.package.toList = .ok ())
    (hname : validateTargetName l.name.toList = .ok ())
    (hdot : dropDotSegment l.name.toList = l.name.toList) : ReadsBack l := by
  have hslash : '/' ∉ l.repo.toList := fun h => absurd (validateRepoName_char hrepo h) (by decide)
  have hcolon : ':' ∉ l.package.toList := fun h => absurd (validatePackageName_char hpackage h) (by decide)
  have hsplit : splitRepo (labelText l).toList =
      ⟨some l.repo.toList,false,'/' :: '/' :: (l.package.toList ++ ':'::l.name.toList),false⟩ := by
    rw [labelText_toList, splitRepo]
    simp only [splitAtSlashes_append hslash]
  have hparts : labelParts ⟨"",""⟩
      ⟨some l.repo.toList,false,'/' :: '/' :: (l.package.toList ++ ':'::l.name.toList),false⟩
      l.repo.toList = ⟨l.package.toList,l.name.toList,l.package.toList,none,false⟩ := by
    rw [labelParts]
    simp [List.isPrefixOf, splitOnce_append hcolon]
  rw [ReadsBack, labelFrom, startsLabel_labelText, if_pos rfl, Label.parse, Label.parseMapped, hsplit]
  simp only [Option.getD_some, hparts, not_wildcard hpackage, hrepo, hpackage, hname, hdot]
  simp [Except.mapError, Except.toOption, bind, Except.bind, pure, Except.pure]

/-- A label with a repository's name. Reading drops a dot at the end of the name. -/
structure Valid (l : Label) : Prop where
  repo : validateRepoName l.repo.toList = .ok ()
  package : validatePackageName l.package.toList = .ok ()
  name : validateTargetName l.name.toList = .ok ()
  dropped : ¬"/.".toList <:+ l.name.toList

theorem Valid.readsBack {l : Label} (h : Valid l) : ReadsBack l := by
  apply readsBack_valid h.repo h.package h.name
  rw [dropDotSegment, if_neg]
  rw [List.isSuffixOf_iff_suffix]
  exact h.dropped

/-- The lockfile keeps what a repository rule sees. -/
theorem repoAttr_kept (a : RepoAttr) (hnone : a ≠ .none) (hvalid : ∀ l ∈ a.labels, Valid l) :
    ∃ json b, repoAttrJson a = some json ∧ repoAttrFromJson json = some b ∧ b.toValue = a.toValue := by
  have hback : a.back = some a.toValue := (RepoAttr.back_iff a).mpr ⟨hnone,fun l hl => (hvalid l hl).readsBack⟩
  obtain ⟨b,hb,hvalue⟩ := Option.map_eq_some_iff.mp hback
  obtain ⟨json,hjson,hread⟩ := Option.bind_eq_some_iff.mp hb
  exact ⟨json,b,hjson,hread,hvalue⟩

/-- A list of labels that is empty comes back as one of strings. -/
theorem repoAttr_kept_labelLists :
    ∃ json b, repoAttrJson (.labelListDict [("'@@'",[⟨"r+","p","t"⟩]),("",[])]) = some json ∧
      repoAttrFromJson json = some b ∧
      b.toValue = (RepoAttr.labelListDict [("'@@'",[⟨"r+","p","t"⟩]),("",[])]).toValue :=
  repoAttr_kept _ nofun fun l hl => by
    obtain rfl : l = ⟨"r+","p","t"⟩ := by simpa [RepoAttr.labels] using hl
    exact ⟨by decide,by decide,by decide,by decide⟩

end Labels

end BuildFiji.Replay
