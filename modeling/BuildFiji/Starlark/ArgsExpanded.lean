import BuildFiji.Starlark.Args
import Mathlib

/-!
# Deferred command lines are direct ones

What a call is for reads the files of its trees first. The calls of an `Args`
come to that when the action runs, unless a call that drops repeated words was
given a tree and a string of the same text.
-/

set_option autoImplicit false
set_option linter.all false

namespace BuildFiji.Starlark

open BuildFiji.Graph BuildFiji.FirstOccurrence

/-- What a value stands for once the files of each tree are known. -/
def ArgValue.stands (filesOf : String → List String) (expandDirectories : Bool) (v : ArgValue) :
    List String :=
  match if expandDirectories then v.treeOf else none with
  | some dir => filesOf dir.execPath
  | none => [v.argText]

def directValues (filesOf : String → List String) (items : List ArgValue)
    (formatEach : Option String) (uniquify expandDirectories : Bool) : List String :=
  let values := (items.flatMap (ArgValue.stands filesOf expandDirectories)).map (formatted formatEach)
  if uniquify then values.eraseDups else values

def unlessEmpty (omitIfEmpty : Bool) (values words : List String) : List String :=
  if values = [] ∧ omitIfEmpty then [] else words

namespace ArgsCall

/-- The name a call begins with, if it was given one, and the values. -/
def firstOf (first : ArgValue) (values : Option ArgValue) : Option String × List ArgValue :=
  match values with
  | some values => (some first.argText,values.items.getD [])
  | none => (none,first.items.getD [])

/-- The words of a call, every tree replaced by its files first. -/
def direct (filesOf : String → List String) : ArgsCall → List String
  | .add c =>
    match c.value with
    | some value => [c.argNameOrValue.argText,formatted c.format value.argText]
    | none => [formatted c.format c.argNameOrValue.argText]
  | .addAll c =>
    let given := firstOf c.argNameOrValues c.values
    let values := directValues filesOf given.2 c.formatEach c.uniquify c.expandDirectories
    unlessEmpty c.omitIfEmpty values (allWords given.1 c.beforeEach c.terminateWith values)
  | .addJoined c =>
    let given := firstOf c.argNameOrValues c.values
    let values := directValues filesOf given.2 c.formatEach c.uniquify c.expandDirectories
    unlessEmpty c.omitIfEmpty values (joinedWords given.1 c.joinWith c.formatJoined values)

/-- A tree and a value that is none have the same text. -/
def Clashes (items : List ArgValue) : Prop :=
  ∃ dir, (∃ t ∈ items, t.treeOf = some dir) ∧ ∃ v ∈ items, v.treeOf = none ∧ v.argText = dir.execPath

def Apart : ArgsCall → Prop
  | .add _ => True
  | .addAll c => c.uniquify → c.expandDirectories → ¬ Clashes (firstOf c.argNameOrValues c.values).2
  | .addJoined c => c.uniquify → c.expandDirectories → ¬ Clashes (firstOf c.argNameOrValues c.values).2

end ArgsCall

section Positions

def itemWords (filesOf : String → List String) : ArgItem → List String
  | .text word => [word]
  | .lazy _ call _ => call.words filesOf

def shown : ArgItem → List String
  | .text word => [word]
  | .lazy words _ _ => words

theorem expandFrom_items (filesOf : String → List String) (front : List String)
    (lazy : List LazyArg) (items : List ArgItem) (pos : ℕ) (hpos : pos ≤ front.length) :
    ∃ after more, items.foldl ArgsState.addItem (front,lazy) = (front ++ after,lazy ++ more) ∧
      after = items.flatMap shown ∧
      expandFrom (front ++ after) filesOf pos more =
        some (front.drop pos ++ items.flatMap (itemWords filesOf)) := by
  induction items generalizing front lazy pos with
  | nil =>
    refine ⟨[],[],by simp,rfl,?_⟩
    rw [List.append_nil, expandFrom, slice, Nat.min_eq_left hpos, if_pos ⟨hpos,Nat.le_refl _⟩,
      List.take_length, List.flatMap_nil, List.append_nil]
  | cons item items ih =>
    cases item with
    | text word =>
      have hstep : pos ≤ (front ++ [word]).length := by
        rw [List.length_append]
        omega
      obtain ⟨after,more,hfold,hshown,hexpand⟩ := ih (front ++ [word]) lazy pos hstep
      rw [List.append_assoc, List.singleton_append] at hfold hexpand
      refine ⟨word::after,more,hfold,?_,?_⟩
      · rw [hshown]
        rfl
      · rw [hexpand, List.drop_append_of_le_length hpos, List.append_assoc]
        rfl
    | lazy words call trees =>
      obtain ⟨after,more,hfold,hshown,hexpand⟩ := ih (front ++ words)
        (lazy ++ [⟨front.length,words.length,call⟩]) (front ++ words).length (Nat.le_refl _)
      rw [List.append_assoc] at hfold hexpand
      refine ⟨words ++ after,⟨front.length,words.length,call⟩::more,?_,?_,?_⟩
      · rw [List.foldl_cons, ArgsState.addItem, hfold, List.append_assoc]
        rfl
      · rw [hshown]
        rfl
      · have hlong : front.length ≤ (front ++ (words ++ after)).length := by
          rw [List.length_append]
          omega
        rw [List.length_append] at hexpand
        rw [expandFrom, slice, Nat.min_eq_left hpos, if_pos ⟨hpos,hlong⟩, Option.bind_some, hexpand,
          List.take_left, ← List.length_append, List.drop_length]
        simp only [Option.map_some, List.nil_append, List.flatMap_cons, itemWords, List.append_assoc]

theorem expandWords_items (a : ArgsState) (filesOf : String → List String) :
    a.words.1 = a.items.flatMap shown ∧
    expandWords a.words.1 a.words.2 filesOf = some (a.items.flatMap (itemWords filesOf)) := by
  obtain ⟨after,more,hfold,hshown,hexpand⟩ := expandFrom_items filesOf [] [] a.items 0 (Nat.zero_le _)
  have hwords : a.words = (after,more) := hfold
  rw [hwords]
  exact ⟨hshown,hexpand⟩

end Positions

section Values

/-- What a value of a call makes when the action runs. -/
def Expanded.delayed (filesOf : String → List String) (formatEach : Option String) (e : Expanded) :
    List String :=
  match e.tree with
  | some dir => (filesOf dir.execPath).map (formatted formatEach)
  | none => [e.word]

def kept (uniquify : Bool) (values : List String) : List String :=
  if uniquify then addAll [] values else values

def ArgCall.delayedValues (c : ArgCall) (filesOf : String → List String) (items : List ArgValue) :
    List String :=
  kept c.uniquify ((items.foldl c.push []).flatMap (Expanded.delayed filesOf c.formatEach))

/-- Text goes into the one hole of a format. -/
def Spreads (f : String → String) : Prop :=
  ∃ before after, ∀ text, (f text).toList = before ++ text.toList ++ after

theorem spreads_formatted {name : String} {pattern : Option String}
    (h : checkFormat name pattern = .ok ()) : Spreads (formatted pattern) := by
  cases pattern with
  | none => exact ⟨[],[],fun text => by rw [List.nil_append, List.append_nil]; rfl⟩
  | some pattern =>
    rw [checkFormat] at h
    split at h
    · next hone =>
      obtain ⟨before,after,hspread⟩ := formatChars_one_hole hone
      exact ⟨before,after,fun text => by rw [formatted, formatArg, String.toList_ofList, hspread]⟩
    · cases h

theorem Spreads.injective {f : String → String} (h : Spreads f) {v w : String} (heq : f v = f w) :
    v = w := by
  obtain ⟨before,after,hspread⟩ := h
  have hchars := congrArg String.toList heq
  rw [hspread, hspread] at hchars
  exact String.toList_inj.mp (List.append_cancel_left (List.append_cancel_right hchars))

theorem Spreads.length {f : String → String} (h : Spreads f) :
    ∃ k, ∀ text, (f text).length = k + text.length := by
  obtain ⟨before,after,hspread⟩ := h
  refine ⟨before.length+after.length,fun text => ?_⟩
  rw [← String.length_toList, hspread, List.length_append, List.length_append, String.length_toList]
  omega

namespace ArgCall

variable {c : ArgCall} {items : List ArgValue}

theorem expanded_cases (c : ArgCall) (item : ArgValue) :
    (∃ dir, c.expandDirectories = true ∧ item.treeOf = some dir ∧
      c.expanded item = ⟨formatted c.formatEach dir.execPath,some dir⟩) ∨
    ((c.expandDirectories = true → item.treeOf = none) ∧
      c.expanded item = ⟨formatted c.formatEach item.argText,none⟩) := by
  unfold expanded
  cases hdirs : c.expandDirectories with
  | false => exact .inr ⟨fun h => absurd h Bool.false_ne_true,rfl⟩
  | true =>
    cases htree : item.treeOf with
    | none => exact .inr ⟨fun _ => rfl,rfl⟩
    | some dir => exact .inl ⟨dir,rfl,rfl,rfl⟩

theorem delayed_expanded (filesOf : String → List String) (item : ArgValue) :
    (c.expanded item).delayed filesOf c.formatEach =
      (item.stands filesOf c.expandDirectories).map (formatted c.formatEach) := by
  unfold expanded ArgValue.stands
  cases (if c.expandDirectories then item.treeOf else none) with
  | none => rfl
  | some dir => rfl

theorem push_eq (out : List Expanded) (item : ArgValue) :
    c.push out item =
      if c.uniquify then addKey Expanded.word out (c.expanded item) else out ++ [c.expanded item] := by
  unfold push addKey
  cases c.uniquify with
  | false => rfl
  | true =>
    have hany : (out.any fun earlier => decide (earlier.word = (c.expanded item).word)) = true ↔
        (c.expanded item).word ∈ out.map Expanded.word := by
      simp
    by_cases hmem : (c.expanded item).word ∈ out.map Expanded.word
    · simp only [hany.mpr hmem, hmem]
      rfl
    · simp only [Bool.eq_false_iff.mpr (mt hany.mp hmem), hmem]
      rfl

theorem expand_eq (c : ArgCall) (items : List ArgValue) :
    items.foldl c.push [] =
      if c.uniquify then addKeys Expanded.word [] (items.map c.expanded) else items.map c.expanded := by
  have hstep : c.push = fun out item =>
      if c.uniquify then addKey Expanded.word out (c.expanded item) else out ++ [c.expanded item] := by
    funext out item
    exact push_eq out item
  rw [hstep]
  cases c.uniquify with
  | false =>
    have happend : ∀ out : List Expanded,
        items.foldl (fun out item => out ++ [c.expanded item]) out = out ++ items.map c.expanded := by
      induction items with
      | nil => intro out; rw [List.foldl_nil, List.map_nil, List.append_nil]
      | cons item items ih =>
        intro out
        rw [List.foldl_cons, ih, List.append_assoc]
        rfl
    exact happend []
  | true =>
    change items.foldl (fun out item => addKey Expanded.word out (c.expanded item)) [] =
      (items.map c.expanded).foldl (addKey Expanded.word) []
    rw [List.foldl_map]

theorem mem_expand {e : Expanded} (h : e ∈ items.foldl c.push []) : ∃ item ∈ items, c.expanded item = e := by
  rw [expand_eq] at h
  split at h
  · exact List.mem_map.mp ((of_mem_addKeys h).resolve_left List.not_mem_nil)
  · exact List.mem_map.mp h

theorem words_expand (h : c.uniquify = true) :
    (items.foldl c.push []).map Expanded.word = addAll [] ((items.map c.expanded).map Expanded.word) := by
  rw [expand_eq, if_pos h, map_addKeys]
  rfl

theorem flatMap_delayed (filesOf : String → List String) :
    (items.map c.expanded).flatMap (Expanded.delayed filesOf c.formatEach) =
      (items.flatMap (ArgValue.stands filesOf c.expandDirectories)).map (formatted c.formatEach) := by
  rw [List.flatMap_map, List.map_flatMap]
  exact List.flatMap_congr fun item _ => delayed_expanded filesOf item

theorem directValues_eq (filesOf : String → List String) :
    directValues filesOf items c.formatEach c.uniquify c.expandDirectories =
      kept c.uniquify ((items.map c.expanded).flatMap (Expanded.delayed filesOf c.formatEach)) := by
  rw [flatMap_delayed, directValues, kept, addAll_nil]

theorem delayed_eq_direct (hspread : Spreads (formatted c.formatEach))
    (h : c.uniquify → c.expandDirectories → ¬ ArgsCall.Clashes items) (filesOf : String → List String) :
    c.delayedValues filesOf items =
      directValues filesOf items c.formatEach c.uniquify c.expandDirectories := by
  rw [directValues_eq, delayedValues, expand_eq, kept, kept]
  cases huniq : c.uniquify with
  | false => rfl
  | true =>
    have hsame : ∀ x ∈ items.map c.expanded, ∀ y ∈ items.map c.expanded, x.word = y.word →
        x.delayed filesOf c.formatEach = y.delayed filesOf c.formatEach := by
      intro x hx y hy hword
      obtain ⟨v,hv,rfl⟩ := List.mem_map.mp hx
      obtain ⟨w,hw,rfl⟩ := List.mem_map.mp hy
      obtain ⟨dir,hdirs,htree,hexp⟩ | ⟨hno,hexp⟩ := expanded_cases c v <;>
        obtain ⟨dir',hdirs',htree',hexp'⟩ | ⟨hno',hexp'⟩ := expanded_cases c w <;>
        rw [hexp, hexp'] at hword ⊢
      · simp only [Expanded.delayed, hspread.injective hword]
      · exact absurd ⟨dir,⟨v,hv,htree⟩,w,hw,hno' hdirs,(hspread.injective hword).symm⟩ (h huniq hdirs)
      · exact absurd ⟨dir',⟨w,hw,htree'⟩,v,hv,hno hdirs',hspread.injective hword⟩ (h huniq hdirs')
      · simp only [Expanded.delayed, hspread.injective hword]
    exact addAll_flatMap_addKeys [] _ hsame

theorem delayed_itself (c : ArgCall) (items : List ArgValue) :
    c.delayedValues (fun dir => [dir]) items = (items.foldl c.push []).map Expanded.word := by
  have hflat : (items.foldl c.push []).flatMap (Expanded.delayed (fun dir => [dir]) c.formatEach) =
      (items.foldl c.push []).map Expanded.word := by
    rw [← List.flatMap_singleton' (List.map _ _), List.flatMap_map]
    apply List.flatMap_congr
    intro e he
    obtain ⟨item,-,rfl⟩ := mem_expand he
    obtain ⟨dir,-,-,hexp⟩ | ⟨-,hexp⟩ := expanded_cases c item <;> rw [hexp] <;> rfl
  rw [delayedValues, hflat, kept]
  split
  · next huniq =>
    rw [words_expand huniq, addAll_nodup]
    · rfl
    · exact nodup_addAll List.nodup_nil _
  · rfl

theorem delayed_no_tree (h : ∀ e ∈ items.foldl c.push [], e.tree = none) (filesOf : String → List String) :
    c.delayedValues filesOf items = (items.foldl c.push []).map Expanded.word := by
  rw [← delayed_itself, delayedValues, delayedValues]
  congr 1
  apply List.flatMap_congr
  intro e he
  rw [Expanded.delayed, Expanded.delayed, h e he]

theorem delayed_subset (filesOf : String → List String) :
    c.delayedValues filesOf items ⊆
      directValues filesOf items c.formatEach c.uniquify c.expandDirectories := by
  have hkept : ∀ {l : List String} {v}, v ∈ kept c.uniquify l ↔ v ∈ l := by
    intro l v
    unfold kept
    split
    · rw [mem_addAll, or_iff_right List.not_mem_nil]
    · rfl
  intro v hv
  rw [directValues_eq, hkept, List.mem_flatMap]
  rw [delayedValues, hkept, List.mem_flatMap] at hv
  obtain ⟨e,he,hmem⟩ := hv
  obtain ⟨item,hitem,rfl⟩ := mem_expand he
  exact ⟨_,List.mem_map_of_mem hitem,hmem⟩

theorem delayed_nodup (h : c.uniquify = true) (filesOf : String → List String) :
    (c.delayedValues filesOf items).Nodup := by
  rw [delayedValues, kept, if_pos h]
  exact nodup_addAll List.nodup_nil _

theorem mem_delayed {filesOf : String → List String} (h : c.uniquify = true) {word : String} :
    word ∈ c.delayedValues filesOf items ↔
      ∃ e ∈ items.foldl c.push [], word ∈ e.delayed filesOf c.formatEach := by
  rw [delayedValues, kept, if_pos h, mem_addAll, or_iff_right List.not_mem_nil, List.mem_flatMap]

theorem mem_direct {filesOf : String → List String} (h : c.uniquify = true) {word : String} :
    word ∈ directValues filesOf items c.formatEach c.uniquify c.expandDirectories ↔
      ∃ item ∈ items, word ∈ (c.expanded item).delayed filesOf c.formatEach := by
  rw [directValues_eq, kept, if_pos h, mem_addAll, or_iff_right List.not_mem_nil, List.mem_flatMap]
  constructor
  · rintro ⟨e,he,hword⟩
    obtain ⟨item,hitem,rfl⟩ := List.mem_map.mp he
    exact ⟨item,hitem,hword⟩
  · rintro ⟨item,hitem,hword⟩
    exact ⟨_,List.mem_map_of_mem hitem,hword⟩

/-- One value of a word is kept, the first. -/
theorem expand_word_unique (h : c.uniquify = true) {e e' : Expanded} (he : e ∈ items.foldl c.push [])
    (he' : e' ∈ items.foldl c.push []) (hword : e.word = e'.word) : e = e' := by
  have hnodup : ((items.foldl c.push []).map Expanded.word).Nodup := by
    rw [words_expand h]
    exact nodup_addAll List.nodup_nil _
  exact List.inj_on_of_nodup_map hnodup he he' hword

theorem expand_word_mem (h : c.uniquify = true) {item : ArgValue} (hitem : item ∈ items) :
    ∃ e ∈ items.foldl c.push [], e.word = (c.expanded item).word := by
  have hmem : (c.expanded item).word ∈ (items.foldl c.push []).map Expanded.word := by
    rw [words_expand h, mem_addAll]
    exact .inr (List.mem_map_of_mem (List.mem_map_of_mem hitem))
  exact List.mem_map.mp hmem

theorem treeOf_placed {v : ArgValue} {dir : Artifact} (h : v.treeOf = some dir) : dir.execPath ≠ "" := by
  cases v with
  | file f =>
    rw [ArgValue.treeOf] at h
    split at h
    · next htree =>
      cases h
      exact f.placed htree
    · cases h
  | str => cases h
  | int => cases h
  | label => cases h
  | bool => cases h
  | other => cases h

/-- Of a tree and a string of one text the later is dropped: the string is missed
when the tree is empty, and the tree when it holds a file. -/
theorem clash_misses (hspread : Spreads (formatted c.formatEach)) (huniq : c.uniquify = true)
    (hdirs : c.expandDirectories = true) (h : ArgsCall.Clashes items) :
    ∃ filesOf, ∃ word ∈ directValues filesOf items c.formatEach c.uniquify c.expandDirectories,
      word ∉ c.delayedValues filesOf items ∧ word ≠ "" := by
  obtain ⟨dir,⟨t,ht,htree⟩,v,hv,hplain,htext⟩ := h
  obtain ⟨k,hlength⟩ := hspread.length
  have hexpT : c.expanded t = ⟨formatted c.formatEach dir.execPath,some dir⟩ := by
    rw [expanded, if_pos hdirs, htree]
  have hexpV : c.expanded v = ⟨formatted c.formatEach dir.execPath,none⟩ := by
    rw [expanded, if_pos hdirs, hplain, ← htext]
  obtain ⟨e,he,hword⟩ := expand_word_mem huniq ht
  rw [hexpT] at hword
  cases htreeE : e.tree with
  | some dirE =>
    refine ⟨fun _ => [],formatted c.formatEach dir.execPath,(mem_direct huniq).mpr ⟨v,hv,?_⟩,?_,?_⟩
    · rw [hexpV]
      exact List.mem_singleton_self _
    · intro hmem
      obtain ⟨e',he',hin⟩ := (mem_delayed huniq).mp hmem
      unfold Expanded.delayed at hin
      split at hin
      · exact absurd hin List.not_mem_nil
      · next hnone =>
        have heq := expand_word_unique huniq he he' (hword.trans (List.mem_singleton.mp hin))
        rw [← heq, htreeE] at hnone
        cases hnone
    · intro hempty
      have hlen := hlength dir.execPath
      rw [hempty, String.length_empty] at hlen
      exact treeOf_placed htree (String.length_eq_zero_iff.mp (by omega))
  | none =>
    -- A file longer than every word the call shows.
    let total := (((items.foldl c.push []).map Expanded.word).map String.length).sum
    let file := dir.execPath ++ "/" ++ String.ofList (List.replicate total 'a')
    have hfile : total < file.length := by
      have hsuffix : (String.ofList (List.replicate total 'a')).length = total := by
        rw [String.length_ofList, List.length_replicate]
      rw [String.length_append, String.length_append, hsuffix]
      change total < _+1+total
      omega
    refine ⟨fun path => if path = dir.execPath then [file] else [],formatted c.formatEach file,
      (mem_direct huniq).mpr ⟨t,ht,?_⟩,?_,?_⟩
    · rw [hexpT]
      change _ ∈ List.map _ (if dir.execPath = dir.execPath then [file] else [])
      rw [if_pos rfl]
      exact List.mem_singleton_self _
    · intro hmem
      obtain ⟨e',he',hin⟩ := (mem_delayed huniq).mp hmem
      obtain ⟨item,-,hitem⟩ := mem_expand he'
      obtain ⟨dir',-,-,hexp⟩ | ⟨-,hexp⟩ := expanded_cases c item
      · rw [← hitem, hexp] at hin
        change _ ∈ List.map _ (if dir'.execPath = dir.execPath then [file] else []) at hin
        split at hin
        · next hpath =>
          have hsame : e = e' := by
            apply expand_word_unique huniq he he'
            rw [hword, ← hitem, hexp, hpath]
          rw [hsame, ← hitem, hexp] at htreeE
          cases htreeE
        · exact absurd hin List.not_mem_nil
      · have hshort : e'.word.length ≤ total :=
          List.single_le_sum (fun _ _ => Nat.zero_le _) _
            (List.mem_map_of_mem (List.mem_map_of_mem he'))
        have hin' : formatted c.formatEach file = e'.word := by
          rw [← hitem, hexp] at hin ⊢
          exact List.mem_singleton.mp hin
        have hlong := hlength file
        rw [hin'] at hlong
        omega
    · intro hempty
      have hlen := hlength file
      rw [hempty, String.length_empty] at hlen
      omega

end ArgCall

end Values

section Weights

def weight (words : List String) : ℕ := (words.map fun w => w.length+1).sum

theorem weight_append (v w : List String) : weight (v ++ w) = weight v+weight w := by
  rw [weight, List.map_append, List.sum_append]
  rfl

theorem sum_le_of_subset {v w : List String} (f : String → ℕ) (hnodup : v.Nodup) (hsub : v ⊆ w) :
    (v.map f).sum ≤ (w.map f).sum := by
  obtain ⟨l,hperm,hl⟩ := List.subperm_of_subset hnodup hsub
  rw [← (hperm.map f).sum_eq]
  exact (hl.map f).sum_le_sum fun _ _ => Nat.zero_le _

theorem sum_lt_of_missed {v w : List String} (f : String → ℕ) (hnodup : v.Nodup) (hsub : v ⊆ w)
    {word : String} (hmem : word ∈ w) (hmissed : word ∉ v) :
    f word+(v.map f).sum ≤ (w.map f).sum := by
  have h := sum_le_of_subset f (List.nodup_cons.mpr ⟨hmissed,hnodup⟩)
    (List.cons_subset.mpr ⟨hmem,hsub⟩)
  rwa [List.map_cons, List.sum_cons] at h

/-- More values make more, and a word that is missed makes strictly less. -/
def Grows (omitIfEmpty : Bool) (finish : List String → List String) : Prop :=
  ∀ v w : List String, v.Nodup → v ⊆ w →
    weight (unlessEmpty omitIfEmpty v (finish v)) ≤ weight (unlessEmpty omitIfEmpty w (finish w)) ∧
    ∀ word ∈ w, word ∉ v → word ≠ "" →
      weight (unlessEmpty omitIfEmpty v (finish v)) < weight (unlessEmpty omitIfEmpty w (finish w))

theorem grows_of {finish : List String → List String} {f : String → ℕ} {base sep : ℕ}
    (omitIfEmpty : Bool) (hword : ∀ word, word ≠ "" → sep < f word)
    (h : ∀ v, weight (finish v) = base+((v.map f).sum-sep)) : Grows omitIfEmpty finish := by
  intro v w hnodup hsub
  by_cases hw : w = [] ∧ omitIfEmpty
  · have hv : v = [] := List.subset_nil.mp (hw.1 ▸ hsub)
    refine ⟨?_,fun word hmem => absurd (hw.1 ▸ hmem) List.not_mem_nil⟩
    rw [unlessEmpty, if_pos ⟨hv,hw.2⟩, unlessEmpty, if_pos hw]
  · have hall := sum_le_of_subset f hnodup hsub
    have hmore : ∀ word ∈ w, word ∉ v → word ≠ "" → sep+(v.map f).sum < (w.map f).sum := by
      intro word hmem hmissed hne
      have hlt := sum_lt_of_missed f hnodup hsub hmem hmissed
      have hsep := hword word hne
      omega
    have hfinish : unlessEmpty omitIfEmpty w (finish w) = finish w := if_neg hw
    rw [hfinish, h w]
    by_cases hv : v = [] ∧ omitIfEmpty
    · have hnone : unlessEmpty omitIfEmpty v (finish v) = [] := if_pos hv
      rw [hnone]
      refine ⟨Nat.zero_le _,fun word hmem hmissed hne => ?_⟩
      have hlt := hmore word hmem hmissed hne
      change 0 < _
      omega
    · have hkeep : unlessEmpty omitIfEmpty v (finish v) = finish v := if_neg hv
      rw [hkeep, h v]
      refine ⟨by omega,fun word hmem hmissed hne => ?_⟩
      have hlt := hmore word hmem hmissed hne
      omega

theorem grows_allWords (name beforeEach terminateWith : Option String) (omitIfEmpty : Bool) :
    Grows omitIfEmpty (allWords name beforeEach terminateWith) := by
  refine @grows_of _ (fun word => weight beforeEach.toList+(word.length+1))
    (weight name.toList+weight terminateWith.toList) 0 _ (fun word _ => by omega) fun v => ?_
  have hvalues : weight (v.flatMap fun value => beforeEach.toList ++ [value]) =
      (v.map fun word => weight beforeEach.toList+(word.length+1)).sum := by
    induction v with
    | nil => rfl
    | cons value v ih =>
      rw [List.flatMap_cons, weight_append, weight_append, ih, List.map_cons, List.sum_cons]
      rfl
  rw [allWords, weight_append, weight_append, hvalues]
  omega

theorem intercalate_length (sep : String) (v : List String) :
    (sep.intercalate v).length = (v.map fun word => word.length+sep.length).sum-sep.length := by
  induction v with
  | nil => simp
  | cons word v ih =>
    cases v with
    | nil => simp
    | cons next v =>
      rw [String.intercalate_cons_cons, String.length_append, String.length_append, ih]
      simp only [List.map_cons, List.sum_cons]
      omega

theorem grows_joinedWords (name : Option String) (joinWith : String) {formatJoined : Option String}
    (hspread : Spreads (formatted formatJoined)) (omitIfEmpty : Bool) :
    Grows omitIfEmpty (joinedWords name joinWith formatJoined) := by
  obtain ⟨k,hlength⟩ := hspread.length
  refine @grows_of _ (fun word => word.length+joinWith.length) (weight name.toList+(k+1))
    joinWith.length _ (fun word hne => ?_) fun v => ?_
  · have hpos := mt String.length_eq_zero_iff.mp hne
    omega
  · rw [joinedWords, weight_append]
    change _+((formatted formatJoined _).length+1+0) = _
    rw [hlength, intercalate_length]
    omega

end Weights

section Calls

/-- What a call put on the command line, beside what the call is for. -/
structure Settles (x : ArgsCall) (made : List ArgItem) : Prop where
  same : x.Apart → ∀ filesOf, made.flatMap (itemWords filesOf) = x.direct filesOf
  itself : made.flatMap (itemWords fun dir => [dir]) = made.flatMap shown
  lighter : ∀ filesOf, weight (made.flatMap (itemWords filesOf)) ≤ weight (x.direct filesOf)
  misses : ¬ x.Apart → ∃ filesOf, weight (made.flatMap (itemWords filesOf)) < weight (x.direct filesOf)

theorem flatMap_texts {f : ArgItem → List String} (hf : ∀ word, f (.text word) = [word])
    (words : List String) : (words.map ArgItem.text).flatMap f = words := by
  induction words with
  | nil => rfl
  | cons word words ih => rw [List.map_cons, List.flatMap_cons, hf, ih, List.singleton_append]

/-- The items of a call come to what it makes of its delayed values. -/
structure ComesTo (c : ArgCall) (items : List ArgValue) (finish : List String → List String)
    (omitIfEmpty : Bool) (made : List ArgItem) : Prop where
  later : ∀ filesOf, made.flatMap (itemWords filesOf) =
    unlessEmpty omitIfEmpty (c.delayedValues filesOf items) (finish (c.delayedValues filesOf items))
  now : made.flatMap shown = unlessEmpty omitIfEmpty (c.delayedValues (fun dir => [dir]) items)
    (finish (c.delayedValues (fun dir => [dir]) items))

theorem comesTo_nothing {c : ArgCall} {items : List ArgValue} {omitIfEmpty : Bool}
    (finish : List String → List String)
    (h : ((items.foldl c.push []).isEmpty && omitIfEmpty) = true) :
    ComesTo c items finish omitIfEmpty [] := by
  obtain ⟨hempty,homit⟩ := Bool.and_eq_true_iff.mp h
  have hnone : ∀ filesOf, c.delayedValues filesOf items = [] := by
    intro filesOf
    rw [ArgCall.delayed_no_tree, List.isEmpty_iff.mp hempty, List.map_nil]
    rw [List.isEmpty_iff.mp hempty]
    exact fun e he => absurd he List.not_mem_nil
  refine ⟨fun filesOf => ?_,?_⟩
  · rw [hnone, unlessEmpty, if_pos ⟨rfl,homit⟩]
    rfl
  · rw [hnone, unlessEmpty, if_pos ⟨rfl,homit⟩]
    rfl

theorem lazyItems_values {c : ArgCall} {items : List ArgValue} {lazy : List LazyItem}
    (h : lazyItems (items.foldl c.push []) c.formatEach = some lazy) (filesOf : String → List String) :
    kept c.uniquify (lazy.flatMap (LazyItem.values filesOf)) = c.delayedValues filesOf items := by
  rw [lazyItems] at h
  split at h
  · rw [← Option.some.inj h, ArgCall.delayedValues, List.flatMap_map]
    congr 1
    apply List.flatMap_congr
    intro e he
    unfold Expanded.delayed
    cases e.tree with
    | none => rfl
    | some dir => rfl
  · cases h

theorem comesTo_putCall (a : ArgsState) {c : ArgCall} {items : List ArgValue} {omitIfEmpty : Bool}
    {finish : List String → List String} {call : List LazyItem → LazyCall}
    (hcall : ∀ lazy filesOf, (call lazy).words filesOf =
      unlessEmpty omitIfEmpty (kept c.uniquify (lazy.flatMap (LazyItem.values filesOf)))
        (finish (kept c.uniquify (lazy.flatMap (LazyItem.values filesOf)))))
    (hsome : ¬ ((items.foldl c.push []).isEmpty && omitIfEmpty) = true) :
    ∃ made, (a.putCall (finish ((items.foldl c.push []).map Expanded.word)) (items.foldl c.push [])
        ((lazyItems (items.foldl c.push []) c.formatEach).map call)).items = a.items ++ made ∧
      ComesTo c items finish omitIfEmpty made := by
  have hshown : unlessEmpty omitIfEmpty (c.delayedValues (fun dir => [dir]) items)
      (finish (c.delayedValues (fun dir => [dir]) items)) =
        finish ((items.foldl c.push []).map Expanded.word) := by
    rw [ArgCall.delayed_itself, unlessEmpty, if_neg]
    rw [List.map_eq_nil_iff, ← List.isEmpty_iff, ← Bool.and_eq_true_iff]
    exact hsome
  cases hlazy : lazyItems (items.foldl c.push []) c.formatEach with
  | some lazy =>
    refine ⟨_,rfl,fun filesOf => ?_,?_⟩
    · change (call lazy).words filesOf ++ [] = _
      rw [List.append_nil, hcall, lazyItems_values hlazy]
    · rw [hshown]
      exact List.append_nil _
  | none =>
    refine ⟨_,rfl,fun filesOf => ?_,?_⟩
    · have hnone : ∀ e ∈ items.foldl c.push [], e.tree = none := by
        intro e he
        rw [lazyItems] at hlazy
        split at hlazy
        · cases hlazy
        · next hany =>
          rw [List.any_eq_true] at hany
          cases htree : e.tree with
          | none => rfl
          | some dir => exact absurd ⟨e,he,by rw [htree]; rfl⟩ hany
      rw [flatMap_texts fun _ => rfl, ArgCall.delayed_no_tree hnone, ← ArgCall.delayed_itself, hshown]
      rw [ArgCall.delayed_itself]
    · rw [flatMap_texts fun _ => rfl, hshown]

theorem settles_of_comes {x : ArgsCall} {c : ArgCall} {items : List ArgValue}
    {finish : List String → List String} {omitIfEmpty : Bool} {made : List ArgItem}
    (hcomes : ComesTo c items finish omitIfEmpty made) (hgrows : Grows omitIfEmpty finish)
    (hspread : Spreads (formatted c.formatEach))
    (hdirect : ∀ filesOf, x.direct filesOf = unlessEmpty omitIfEmpty
      (directValues filesOf items c.formatEach c.uniquify c.expandDirectories)
      (finish (directValues filesOf items c.formatEach c.uniquify c.expandDirectories)))
    (hapart : x.Apart ↔ (c.uniquify → c.expandDirectories → ¬ ArgsCall.Clashes items)) :
    Settles x made := by
  have hsame : x.Apart → ∀ filesOf, made.flatMap (itemWords filesOf) = x.direct filesOf := by
    intro h filesOf
    rw [hcomes.later, hdirect, ArgCall.delayed_eq_direct hspread (hapart.mp h)]
  refine ⟨hsame,?_,fun filesOf => ?_,fun h => ?_⟩
  · rw [hcomes.later, hcomes.now]
  · by_cases huniq : c.uniquify = true
    · rw [hcomes.later, hdirect]
      exact (hgrows _ _ (ArgCall.delayed_nodup huniq filesOf) (ArgCall.delayed_subset filesOf)).1
    · rw [hsame (hapart.mpr fun h => absurd h huniq)]
  · rw [hapart] at h
    push Not at h
    obtain ⟨huniq,hdirs,hclash⟩ := h
    obtain ⟨filesOf,word,hmem,hmissed,hne⟩ := ArgCall.clash_misses hspread huniq hdirs hclash
    refine ⟨filesOf,?_⟩
    rw [hcomes.later, hdirect]
    exact (hgrows _ _ (ArgCall.delayed_nodup huniq filesOf) (ArgCall.delayed_subset filesOf)).2
      word hmem hmissed hne

theorem settles_texts {x : ArgsCall} {words : List String} (hapart : x.Apart)
    (h : ∀ filesOf, x.direct filesOf = words) : Settles x (words.map .text) := by
  refine ⟨fun _ filesOf => ?_,?_,fun filesOf => ?_,fun hnot => absurd hapart hnot⟩
  · rw [flatMap_texts fun _ => rfl, h]
  · rw [flatMap_texts fun _ => rfl, flatMap_texts fun _ => rfl]
  · rw [flatMap_texts fun _ => rfl, h]

theorem single_ok {v : ArgValue} {text : String} (h : single v = .ok text) : v.argText = text := by
  unfold single at h
  split at h
  · cases h
  · rw [ArgValue.argText]
    cases htext : v.textOf with
    | some text' =>
      rw [htext] at h
      exact Except.ok.inj h
    | none =>
      rw [htext] at h
      simp only at h
      split at h
      · cases h
      · exact Except.ok.inj h

theorem argName_ok {v : ArgValue} {name : String} (h : argName v = .ok name) : v.argText = name := by
  cases v with
  | str text => exact Except.ok.inj h
  | file => cases h
  | int => cases h
  | label => cases h
  | bool => cases h
  | other => cases h

theorem named_ok {first : ArgValue} {values : Option ArgValue} {name : Option String} {v : ArgValue}
    (h : named first values = .ok (name,v)) :
    ArgsCall.firstOf first values = (name,v.items.getD []) := by
  cases values with
  | none =>
    cases h
    rfl
  | some values =>
    rw [named] at h
    cases hname : argName first with
    | error e =>
      rw [hname] at h
      cases h
    | ok name' =>
      rw [hname] at h
      cases h
      rw [ArgsCall.firstOf, argName_ok hname]

theorem expand_ok {c : ArgCall} {es : List Expanded} (h : c.expand = .ok es) :
    es = (c.values.items.getD []).foldl c.push [] := by
  rw [ArgCall.expand] at h
  cases hitems : c.values.items with
  | none =>
    rw [hitems] at h
    cases h
  | some items =>
    rw [hitems] at h
    exact (Except.ok.inj h).symm

theorem add_settles {a a' : ArgsState} {c : Add} (h : a.add c = .ok a') :
    ∃ made, a'.items = a.items ++ made ∧ Settles (.add c) made := by
  unfold ArgsState.add at h
  obtain ⟨-,-,h⟩ := Fallible.bind_ok.mp h
  cases hvalue : c.value with
  | none =>
    rw [hvalue] at h
    obtain ⟨text,htext,h⟩ := Fallible.bind_ok.mp h
    cases h
    refine ⟨_,rfl,@settles_texts _ [_] trivial fun filesOf => ?_⟩
    simp only [ArgsCall.direct, hvalue, single_ok htext]
  | some value =>
    rw [hvalue] at h
    obtain ⟨name,hname,h⟩ := Fallible.bind_ok.mp h
    obtain ⟨text,htext,h⟩ := Fallible.bind_ok.mp h
    cases h
    refine ⟨_,List.append_assoc _ [_] [_],@settles_texts _ [_,_] trivial fun filesOf => ?_⟩
    simp only [ArgsCall.direct, hvalue, single_ok htext, argName_ok hname]

theorem unlessEmpty_bool (omitIfEmpty : Bool) (values words : List String) :
    (if values.isEmpty && omitIfEmpty then [] else words) = unlessEmpty omitIfEmpty values words := by
  unfold unlessEmpty
  cases values <;> cases omitIfEmpty <;> simp

theorem addAll_words (name : Option String) (lazy : List LazyItem) (beforeEach : Option String)
    (omitIfEmpty uniquify : Bool) (terminateWith : Option String) (filesOf : String → List String) :
    (LazyCall.addAll name lazy beforeEach omitIfEmpty uniquify terminateWith).words filesOf =
      unlessEmpty omitIfEmpty (kept uniquify (lazy.flatMap (LazyItem.values filesOf)))
        (allWords name beforeEach terminateWith
          (kept uniquify (lazy.flatMap (LazyItem.values filesOf)))) := by
  exact unlessEmpty_bool _ _ _

theorem addJoined_words (name : Option String) (lazy : List LazyItem) (joinWith : String)
    (formatJoined : Option String) (omitIfEmpty uniquify : Bool) (filesOf : String → List String) :
    (LazyCall.addJoined name lazy joinWith formatJoined omitIfEmpty uniquify).words filesOf =
      unlessEmpty omitIfEmpty (kept uniquify (lazy.flatMap (LazyItem.values filesOf)))
        (joinedWords name joinWith formatJoined
          (kept uniquify (lazy.flatMap (LazyItem.values filesOf)))) := by
  exact unlessEmpty_bool _ _ _

theorem addAll_settles {a a' : ArgsState} {c : AddAll} (h : a.addAll c = .ok a') :
    ∃ made, a'.items = a.items ++ made ∧ Settles (.addAll c) made := by
  unfold ArgsState.addAll at h
  obtain ⟨⟨name,values⟩,hnamed,h⟩ := Fallible.bind_ok.mp h
  obtain ⟨⟨⟩,hformat,h⟩ := Fallible.bind_ok.mp h
  obtain ⟨es,hexpand,h⟩ := Fallible.bind_ok.mp h
  have hgiven := named_ok hnamed
  have hes := expand_ok hexpand
  have hsettles : ∀ made, ComesTo ⟨"add_all",values,name.isSome,c.formatEach,c.uniquify,c.expandDirectories⟩
      (values.items.getD []) (allWords name c.beforeEach c.terminateWith) c.omitIfEmpty made →
        Settles (.addAll c) made := by
    intro made hcomes
    apply settles_of_comes hcomes (grows_allWords _ _ _ _) (spreads_formatted hformat)
    · intro filesOf
      rw [ArgsCall.direct, hgiven]
    · rw [ArgsCall.Apart, hgiven]
  subst hes
  split at h
  · next hnone =>
    cases h
    exact ⟨[],(List.append_nil _).symm,hsettles _ (comesTo_nothing _ hnone)⟩
  · next hsome =>
    cases h
    obtain ⟨made,hitems,hcomes⟩ := comesTo_putCall a
      (fun lazy => addAll_words name lazy c.beforeEach c.omitIfEmpty c.uniquify c.terminateWith) hsome
    exact ⟨made,hitems,hsettles _ hcomes⟩

theorem addJoined_settles {a a' : ArgsState} {c : AddJoined} (h : a.addJoined c = .ok a') :
    ∃ made, a'.items = a.items ++ made ∧ Settles (.addJoined c) made := by
  unfold ArgsState.addJoined at h
  obtain ⟨⟨name,values⟩,hnamed,h⟩ := Fallible.bind_ok.mp h
  obtain ⟨⟨⟩,hformat,h⟩ := Fallible.bind_ok.mp h
  obtain ⟨⟨⟩,hjoined,h⟩ := Fallible.bind_ok.mp h
  obtain ⟨es,hexpand,h⟩ := Fallible.bind_ok.mp h
  have hgiven := named_ok hnamed
  have hes := expand_ok hexpand
  have hsettles : ∀ made, ComesTo ⟨"add_joined",values,name.isSome,c.formatEach,c.uniquify,c.expandDirectories⟩
      (values.items.getD []) (joinedWords name c.joinWith c.formatJoined) c.omitIfEmpty made →
        Settles (.addJoined c) made := by
    intro made hcomes
    apply settles_of_comes hcomes (grows_joinedWords _ _ (spreads_formatted hjoined) _)
      (spreads_formatted hformat)
    · intro filesOf
      rw [ArgsCall.direct, hgiven]
    · rw [ArgsCall.Apart, hgiven]
  subst hes
  split at h
  · next hnone =>
    cases h
    exact ⟨[],(List.append_nil _).symm,hsettles _ (comesTo_nothing _ hnone)⟩
  · next hsome =>
    cases h
    obtain ⟨made,hitems,hcomes⟩ := comesTo_putCall a
      (fun lazy => addJoined_words name lazy c.joinWith c.formatJoined c.omitIfEmpty c.uniquify) hsome
    exact ⟨made,hitems,hsettles _ hcomes⟩

theorem call_settles {a a' : ArgsState} {x : ArgsCall} (h : a.call x = .ok a') :
    ∃ made, a'.items = a.items ++ made ∧ Settles x made := by
  cases x with
  | add c => exact add_settles h
  | addAll c => exact addAll_settles h
  | addJoined c => exact addJoined_settles h

end Calls

section Runs

theorem run_settles {calls : List ArgsCall} {a a' : ArgsState} (h : calls.foldlM ArgsState.call a = .ok a') :
    ∃ mades, a'.items = a.items ++ mades.flatten ∧ List.Forall₂ Settles calls mades := by
  induction calls generalizing a with
  | nil =>
    cases h
    exact ⟨[],(List.append_nil _).symm,.nil⟩
  | cons x calls ih =>
    rw [List.foldlM_cons] at h
    obtain ⟨a₁,hcall,hrest⟩ := Fallible.bind_ok.mp h
    obtain ⟨made,hitems,hsettles⟩ := call_settles hcall
    obtain ⟨mades,hitems',hall⟩ := ih hrest
    refine ⟨made::mades,?_,.cons hsettles hall⟩
    rw [hitems', hitems, List.flatten_cons, List.append_assoc]

variable {calls : List ArgsCall} {mades : List (List ArgItem)}

theorem same_of_apart (h : List.Forall₂ Settles calls mades) (hapart : ∀ x ∈ calls, x.Apart)
    (filesOf : String → List String) :
    mades.flatten.flatMap (itemWords filesOf) = calls.flatMap (ArgsCall.direct filesOf) := by
  induction h with
  | nil => rfl
  | cons hx _ ih =>
    rw [List.flatten_cons, List.flatMap_append, List.flatMap_cons,
      hx.same (hapart _ List.mem_cons_self),
      ih fun x hmem => hapart x (List.mem_cons_of_mem _ hmem)]

theorem itself_shown (h : List.Forall₂ Settles calls mades) :
    mades.flatten.flatMap (itemWords fun dir => [dir]) = mades.flatten.flatMap shown := by
  induction h with
  | nil => rfl
  | cons hx _ ih => rw [List.flatten_cons, List.flatMap_append, List.flatMap_append, hx.itself, ih]

theorem weight_made (f : ArgItem → List String) (made : List ArgItem) (mades : List (List ArgItem)) :
    weight ((made::mades).flatten.flatMap f) = weight (made.flatMap f)+weight (mades.flatten.flatMap f) := by
  rw [List.flatten_cons, List.flatMap_append, weight_append]

theorem lighter_all (h : List.Forall₂ Settles calls mades) (filesOf : String → List String) :
    weight (mades.flatten.flatMap (itemWords filesOf)) ≤
      weight (calls.flatMap (ArgsCall.direct filesOf)) := by
  induction h with
  | nil => exact Nat.le_refl _
  | cons hx _ ih =>
    rw [weight_made, List.flatMap_cons, weight_append]
    exact Nat.add_le_add (hx.lighter filesOf) ih

theorem misses_some (h : List.Forall₂ Settles calls mades) {x : ArgsCall} (hx : x ∈ calls)
    (hnot : ¬ x.Apart) : ∃ filesOf, weight (mades.flatten.flatMap (itemWords filesOf)) <
      weight (calls.flatMap (ArgsCall.direct filesOf)) := by
  induction h with
  | nil => exact absurd hx List.not_mem_nil
  | cons hy hrest ih =>
    rcases List.mem_cons.mp hx with rfl | hx
    · obtain ⟨filesOf,hless⟩ := hy.misses hnot
      refine ⟨filesOf,?_⟩
      rw [weight_made, List.flatMap_cons, weight_append]
      exact Nat.add_lt_add_of_lt_of_le hless (lighter_all hrest filesOf)
    · obtain ⟨filesOf,hless⟩ := ih hx
      refine ⟨filesOf,?_⟩
      rw [weight_made, List.flatMap_cons, weight_append]
      exact Nat.add_lt_add_of_le_of_lt (hy.lighter filesOf) hless

end Runs

/-- With each tree standing for itself the words are those that are shown. -/
theorem words_itself {calls : List ArgsCall} {a : ArgsState} (h : ArgsState.run calls = .ok a) :
    expandWords a.words.1 a.words.2 (fun dir => [dir]) = some a.words.1 := by
  obtain ⟨mades,hitems,hall⟩ := run_settles h
  have hwords := expandWords_items a fun dir => [dir]
  rw [List.nil_append] at hitems
  rw [hwords.2, hwords.1, hitems, itself_shown hall]

theorem deferred_iff_apart {calls : List ArgsCall} {a : ArgsState} (h : ArgsState.run calls = .ok a) :
    ((∀ filesOf, expandWords a.words.1 a.words.2 filesOf = some (calls.flatMap (ArgsCall.direct filesOf))) ∧
      expandWords a.words.1 a.words.2 (fun dir => [dir]) = some a.words.1) ↔
      ∀ x ∈ calls, x.Apart := by
  obtain ⟨mades,hitems,hall⟩ := run_settles h
  have hwords := fun filesOf => (expandWords_items a filesOf).2
  rw [List.nil_append] at hitems
  constructor
  · rintro ⟨hdirect,-⟩ x hx
    by_contra hnot
    obtain ⟨filesOf,hless⟩ := misses_some hall hx hnot
    rw [← hitems, ← Option.some.inj ((hdirect filesOf).symm.trans (hwords filesOf))] at hless
    exact Nat.lt_irrefl _ hless
  · intro hapart
    refine ⟨fun filesOf => ?_,words_itself h⟩
    rw [hwords, hitems, same_of_apart hall hapart]

def treeAt (path : String) (h : path ≠ "") : ArgValue := .file ⟨⟨⟨"",false⟩,path,true,false⟩,fun _ => h⟩

def includes (first : String) : List ArgsCall :=
  [.add ⟨.str "--x",some (.int 3),some "<%s>"⟩,
    .addAll ⟨.other "list" "" (some [.str first,treeAt "b/d" (by decide)]),none,some "-I%s",none,
      true,true,true,some "end"⟩]

theorem deferred_iff_apart_includes : ∃ a, ArgsState.run (includes "b/e") = .ok a ∧
    ∀ filesOf, expandWords a.words.1 a.words.2 filesOf =
      some ((includes "b/e").flatMap (ArgsCall.direct filesOf)) := by
  refine ⟨_,rfl,((deferred_iff_apart rfl).mpr fun x hx => ?_).1⟩
  rcases List.mem_cons.mp hx with rfl | hx
  · trivial
  · rw [List.mem_singleton.mp hx]
    rintro - - ⟨dir,⟨t,ht,htree⟩,v,hv,hplain,htext⟩
    change t ∈ [_,_] at ht
    change v ∈ [_,_] at hv
    rcases List.mem_pair.mp ht with rfl | rfl
    · cases htree
    · cases htree
      rcases List.mem_pair.mp hv with rfl | rfl
      · exact absurd htext (by decide)
      · cases hplain

/-- The path of the tree stands before the tree, which is dropped for it. -/
theorem deferred_loses_tree : ∃ a, ArgsState.run (includes "b/d") = .ok a ∧
    expandWords a.words.1 a.words.2 (fun dir => [dir ++ "/a"]) = some ["--x","<3>","-Ib/d","end"] ∧
    (includes "b/d").flatMap (ArgsCall.direct fun dir => [dir ++ "/a"]) =
      ["--x","<3>","-Ib/d","-Ib/d/a","end"] := by
  exact ⟨_,rfl,by decide,by decide⟩

end BuildFiji.Starlark
