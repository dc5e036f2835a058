import BuildFiji.Lib.Framing
import BuildFiji.Lib.PrefixCode
import BuildFiji.Lib.Text
import Mathlib.Data.Nat.Notation

/-!
# Calls of a command line that read a tree

What a command line holds that is known only when the action runs, and the text
that a derived `Debug` implementation writes for it. Which characters `Debug`
prints as they are is a table of the standard library, `printable` here.
-/

set_option autoImplicit false
set_option linter.all false

namespace BuildFiji.Graph
open Codes

inductive ParamFormat where
  | shell
  | multiline
  | flagPerLine
  deriving DecidableEq, Repr

inductive LazyItem where
  | text (word : String)
  | tree (dir : String) (formatEach : Option String)
  deriving DecidableEq, Repr

inductive LazyCall where
  | addAll (name : Option String) (items : List LazyItem) (beforeEach : Option String)
      (omitIfEmpty uniquify : Bool) (terminateWith : Option String)
  | addJoined (name : Option String) (items : List LazyItem) (joinWith : String)
      (formatJoined : Option String) (omitIfEmpty uniquify : Bool)
  deriving DecidableEq, Repr

structure LazyArg where
  «at» : ℕ
  len : ℕ
  call : LazyCall
  deriving DecidableEq, Repr

section Numbers

theorem digitChar_plain {n : ℕ} (hn : n < 16) :
    Nat.digitChar n ≠ ',' ∧ Nat.digitChar n ≠ '\x7d' := by
  revert n
  decide

variable {b : ℕ} (hb : 1 < b) (hb16 : b ≤ 16)
include hb hb16

theorem digits_plain (n : ℕ) : ',' ∉ Nat.toDigits b n ∧ '\x7d' ∉ Nat.toDigits b n := by
  induction n using Nat.strongRecOn with
  | ind n ih =>
    by_cases hn : n < b
    · rw [Nat.toDigits_of_lt_base hn, List.mem_singleton, List.mem_singleton]
      have hplain := @digitChar_plain n (by omega)
      exact ⟨hplain.1.symm,hplain.2.symm⟩
    · have hlt := Nat.mod_lt n (by omega : 0 < b)
      have hdiv : n/b < n := Nat.div_lt_self (by omega) hb
      have hplain := @digitChar_plain (n%b) (by omega)
      rw [Nat.toDigits_of_base_le hb (Nat.not_lt.mp hn), List.mem_append, List.mem_append,
        List.mem_singleton, List.mem_singleton]
      exact ⟨fun h => h.elim (ih _ hdiv).1 hplain.1.symm,
        fun h => h.elim (ih _ hdiv).2 hplain.2.symm⟩

theorem digits_injective (m n : ℕ) (h : Nat.toDigits b m = Nat.toDigits b n) : m = n := by
  induction m using Nat.strongRecOn generalizing n with
  | ind m ih =>
    have hmlt := Nat.mod_lt m (by omega : 0 < b)
    have hnlt := Nat.mod_lt n (by omega : 0 < b)
    by_cases hm : m < b <;> by_cases hn : n < b
    · rw [Nat.toDigits_of_lt_base hm, Nat.toDigits_of_lt_base hn, List.singleton_inj] at h
      exact Framing.digitChar_injective (by omega) (by omega) h
    · rw [Nat.toDigits_of_lt_base hm, Nat.toDigits_of_base_le hb (Nat.not_lt.mp hn)] at h
      have hpos := @Nat.length_toDigits_pos b (n/b)
      have hlen := congrArg List.length h
      rw [List.length_append, List.length_singleton, List.length_singleton] at hlen
      omega
    · rw [Nat.toDigits_of_lt_base hn, Nat.toDigits_of_base_le hb (Nat.not_lt.mp hm)] at h
      have hpos := @Nat.length_toDigits_pos b (m/b)
      have hlen := congrArg List.length h
      rw [List.length_append, List.length_singleton, List.length_singleton] at hlen
      omega
    · rw [Nat.toDigits_of_base_le hb (Nat.not_lt.mp hm), Nat.toDigits_of_base_le hb (Nat.not_lt.mp hn)] at h
      obtain ⟨hhigh,hlow⟩ := List.append_inj' h rfl
      have hdiv := ih (m/b) (Nat.div_lt_self (by omega) hb) (n/b) hhigh
      have hmod := Framing.digitChar_injective (by omega) (by omega) (List.singleton_inj.mp hlow)
      rw [← Nat.div_add_mod m b, ← Nat.div_add_mod n b, hdiv, hmod]

end Numbers

section DebugText

variable (printable : Char → Bool)

@[irreducible] def label (text : String) : List Char := text.toList

/-- One character of a string between quotes. -/
def escapeDebug (c : Char) : List Char :=
  if c = '\x00' then ['\\','0']
  else if c = '\t' then ['\\','t']
  else if c = '\r' then ['\\','r']
  else if c = '\n' then ['\\','n']
  else if c = '"' ∨ c = '\\' then ['\\',c]
  else if printable c then [c]
  else '\\' :: 'u' :: '\x7b' :: (Nat.toDigits 16 c.toNat ++ ['\x7d'])

def debugStr (s : String) : List Char := '"' :: (s.toList.flatMap (escapeDebug printable) ++ ['"'])

def debugOption (s : Option String) : List Char :=
  optional ['N','o','n','e'] (fun s => label "Some(" ++ (debugStr printable s ++ label ")")) s

def debugBool (b : Bool) : List Char := if b then label "true" else label "false"

def debugFormat : ParamFormat → List Char
  | .shell => label "Shell"
  | .multiline => label "Multiline"
  | .flagPerLine => label "FlagPerLine"

def debugItem : LazyItem → List Char
  | .text word => label "Text(" ++ (debugStr printable word ++ label ")")
  | .tree dir formatEach =>
    label "Tree \x7b dir: " ++ (debugStr printable dir ++ (label ", format_each: " ++
      (debugOption printable formatEach ++ label " \x7d")))

def debugItems : List LazyItem → List Char := bracketed '[' ']' [',',' '] (debugItem printable)

def debugCall : LazyCall → List Char
  | .addAll name items beforeEach omitIfEmpty uniquify terminateWith =>
    label "AddAll \x7b name: " ++ (debugOption printable name ++
    (label ", items: " ++ (debugItems printable items ++
    (label ", before_each: " ++ (debugOption printable beforeEach ++
    (label ", omit_if_empty: " ++ (debugBool omitIfEmpty ++
    (label ", uniquify: " ++ (debugBool uniquify ++
    (label ", terminate_with: " ++ (debugOption printable terminateWith ++ label " \x7d")))))))))))
  | .addJoined name items joinWith formatJoined omitIfEmpty uniquify =>
    label "AddJoined \x7b name: " ++ (debugOption printable name ++
    (label ", items: " ++ (debugItems printable items ++
    (label ", join_with: " ++ (debugStr printable joinWith ++
    (label ", format_joined: " ++ (debugOption printable formatJoined ++
    (label ", omit_if_empty: " ++ (debugBool omitIfEmpty ++
    (label ", uniquify: " ++ (debugBool uniquify ++ label " \x7d")))))))))))

def debugArg (arg : LazyArg) : List Char :=
  label "LazyArg \x7b at: " ++ (Nat.toDigits 10 arg.at ++ (',' :: (label " len: " ++
    (Nat.toDigits 10 arg.len ++ (',' :: (label " call: " ++
    (debugCall printable arg.call ++ label " \x7d")))))))

/-- `format!("{calls:?}")`. -/
def debugCalls : List LazyArg → List Char := bracketed '[' ']' [',',' '] (debugArg printable)

end DebugText

section PrefixCodes

variable {printable : Char → Bool}

/-- The character a letter after a backslash stands for. -/
def unescaped (letter : Char) : Option Char :=
  if letter = '0' then some '\x00'
  else if letter = 't' then some '\t'
  else if letter = 'r' then some '\r'
  else if letter = 'n' then some '\n'
  else if letter = '"' then some '"'
  else if letter = '\\' then some '\\'
  else none

theorem escapeDebug_cases (c : Char) :
    (escapeDebug printable c = [c] ∧ c ≠ '\\' ∧ c ≠ '"') ∨
    (∃ letter, escapeDebug printable c = ['\\',letter] ∧ unescaped letter = some c) ∨
    escapeDebug printable c = '\\' :: 'u' :: '\x7b' :: (Nat.toDigits 16 c.toNat ++ ['\x7d']) := by
  rw [escapeDebug]
  split
  · next h => exact .inr (.inl ⟨'0',rfl,by rw [h]; rfl⟩)
  split
  · next h => exact .inr (.inl ⟨'t',rfl,by rw [h]; rfl⟩)
  split
  · next h => exact .inr (.inl ⟨'r',rfl,by rw [h]; rfl⟩)
  split
  · next h => exact .inr (.inl ⟨'n',rfl,by rw [h]; rfl⟩)
  split
  · next h =>
    apply Or.inr
    apply Or.inl
    rcases h with h | h
    · exact ⟨c,rfl,by rw [h]; rfl⟩
    · exact ⟨c,rfl,by rw [h]; rfl⟩
  · next h =>
    split
    · exact .inl ⟨rfl,fun heq => h (.inr heq),fun heq => h (.inl heq)⟩
    · exact .inr (.inr rfl)

theorem unescaped_not_u : unescaped 'u' = none := by rfl

theorem escapeDebug_code : PrefixCode (escapeDebug printable) := by
  intro a b s t heq
  rcases @escapeDebug_cases printable a with ⟨ha,hna,-⟩ | ⟨k,ha,hka⟩ | ha <;>
    rcases @escapeDebug_cases printable b with ⟨hb,hnb,-⟩ | ⟨l,hb,hlb⟩ | hb <;>
    rw [ha, hb] at heq <;>
    simp only [List.cons_append, List.nil_append, List.append_assoc, List.cons.injEq] at heq
  · exact heq
  · exact absurd heq.1 hna
  · exact absurd heq.1 hna
  · exact absurd heq.1.symm hnb
  · rw [heq.2.1, hlb] at hka
    exact ⟨(Option.some.inj hka).symm,heq.2.2⟩
  · rw [heq.2.1, unescaped_not_u] at hka
    exact absurd hka (by simp)
  · exact absurd heq.1.symm hnb
  · rw [← heq.2.1, unescaped_not_u] at hlb
    exact absurd hlb (by simp)
  · have hdigits := digits_plain (by decide : 1 < 16) (by decide)
    obtain ⟨hd,hst⟩ := Text.append_sep_inj (hdigits a.toNat).2 (hdigits b.toNat).2 heq.2.2.2
    have hnat := digits_injective (by decide : 1 < 16) (by decide) _ _ hd
    exact ⟨Char.toNat_inj.mp hnat,hst⟩

theorem escapeDebug_ne_nil (c : Char) : escapeDebug printable c ≠ [] := by
  rcases @escapeDebug_cases printable c with ⟨h,-⟩ | ⟨k,h,-⟩ | h <;> rw [h] <;> simp

theorem escapeDebug_head (c : Char) : (escapeDebug printable c).head? ≠ some '"' := by
  rcases @escapeDebug_cases printable c with ⟨h,-,hne⟩ | ⟨k,h,-⟩ | h <;> rw [h] <;> simp
  exact hne

theorem debugStr_code : PrefixCode (debugStr printable) := by
  intro a b s t heq
  simp only [debugStr, List.cons_append, List.append_assoc, List.nil_append,
    List.cons.injEq, true_and] at heq
  obtain ⟨hchars,hst⟩ := escapeDebug_code.marked escapeDebug_head escapeDebug_ne_nil heq
  exact ⟨String.toList_inj.mp hchars,hst⟩

theorem label_head (text : String) : (label text).head? = text.toList.head? := by
  rw [label]

/-- Two labels with different beginnings of the same length. -/
theorem label_ne {v w : String} (k : ℕ) (hv : k ≤ v.toList.length) (hw : k ≤ w.toList.length)
    (hne : v.toList.take k ≠ w.toList.take k) {s t : List Char} :
    label v ++ s ≠ label w ++ t := by
  intro heq
  rw [label, label] at heq
  have htake := congrArg (List.take k) heq
  rw [List.take_append_of_le_length hv, List.take_append_of_le_length hw] at htake
  exact hne htake

theorem label_append_head {text : String} {c d : Char} (hd : text.toList.head? = some d)
    (hne : d ≠ c) (s : List Char) : (label text ++ s).head? ≠ some c := by
  rw [List.head?_append, label_head, hd, Option.some_or]
  intro h
  exact hne (Option.some.inj h)

theorem label_append_ne_nil {text : String} (h : text.toList ≠ []) (s : List Char) :
    label text ++ s ≠ [] := by
  rw [label]
  exact List.append_ne_nil_of_left_ne_nil h s

theorem debugOption_code : PrefixCode (debugOption printable) := by
  apply (debugStr_code.wrap (label "Some(") (label ")")).optional
  · intro s
    exact @label_append_head _ _ 'S' (by decide) (by decide) _
  · intro s
    exact label_append_ne_nil (by decide) _

theorem debugBool_code : PrefixCode debugBool := by
  intro a b s t heq
  cases a with
  | false =>
    cases b with
    | false => exact ⟨rfl,List.append_cancel_left heq⟩
    | true => exact absurd heq (label_ne 1 (by decide) (by decide) (by decide))
  | true =>
    cases b with
    | false => exact absurd heq (label_ne 1 (by decide) (by decide) (by decide))
    | true => exact ⟨rfl,List.append_cancel_left heq⟩

theorem debugFormat_code : PrefixCode debugFormat := by
  intro a b s t heq
  cases a with
  | shell =>
    cases b with
    | shell => exact ⟨rfl,List.append_cancel_left heq⟩
    | multiline => exact absurd heq (label_ne 1 (by decide) (by decide) (by decide))
    | flagPerLine => exact absurd heq (label_ne 1 (by decide) (by decide) (by decide))
  | multiline =>
    cases b with
    | shell => exact absurd heq (label_ne 1 (by decide) (by decide) (by decide))
    | multiline => exact ⟨rfl,List.append_cancel_left heq⟩
    | flagPerLine => exact absurd heq (label_ne 1 (by decide) (by decide) (by decide))
  | flagPerLine =>
    cases b with
    | shell => exact absurd heq (label_ne 1 (by decide) (by decide) (by decide))
    | multiline => exact absurd heq (label_ne 1 (by decide) (by decide) (by decide))
    | flagPerLine => exact ⟨rfl,List.append_cancel_left heq⟩

theorem debugNumber_then {m n : ℕ} {s t : List Char}
    (heq : Nat.toDigits 10 m ++ (',' :: s) = Nat.toDigits 10 n ++ (',' :: t)) : m = n ∧ s = t := by
  have hdigits := @digits_plain 10 (by decide) (by decide)
  obtain ⟨hd,hst⟩ := Text.append_sep_inj (hdigits m).1 (hdigits n).1 heq
  exact ⟨@digits_injective 10 (by decide) (by decide) _ _ hd,hst⟩

theorem debugItem_code : PrefixCode (debugItem printable) := by
  intro a b s t heq
  cases a with
  | text word =>
    cases b with
    | text word' =>
      simp only [debugItem, List.append_assoc] at heq
      have hfields := List.append_cancel_left heq
      obtain ⟨rfl,hst⟩ := debugStr_code.then _ hfields
      exact ⟨rfl,hst⟩
    | tree dir' formatEach' =>
      simp only [debugItem, List.append_assoc] at heq
      exact absurd heq (label_ne 2 (by decide) (by decide) (by decide))
  | tree dir formatEach =>
    cases b with
    | text word' =>
      simp only [debugItem, List.append_assoc] at heq
      exact absurd heq (label_ne 2 (by decide) (by decide) (by decide))
    | tree dir' formatEach' =>
      simp only [debugItem, List.append_assoc] at heq
      have hfields := List.append_cancel_left heq
      obtain ⟨rfl,hdir⟩ := debugStr_code.then _ hfields
      obtain ⟨rfl,hst⟩ := debugOption_code.then _ hdir
      exact ⟨rfl,hst⟩

theorem debugItems_code : PrefixCode (debugItems printable) := by
  apply debugItem_code.bracketed
  · intro item
    cases item with
    | text => exact label_append_ne_nil (by decide) _
    | tree => exact label_append_ne_nil (by decide) _
  · intro item
    cases item with
    | text => exact @label_append_head _ _ 'T' (by decide) (by decide) _
    | tree => exact @label_append_head _ _ 'T' (by decide) (by decide) _
  · decide

theorem debugCall_code : PrefixCode (debugCall printable) := by
  intro a b s t heq
  cases a with
  | addAll name items beforeEach omitIfEmpty uniquify terminateWith =>
    cases b with
    | addAll name' items' beforeEach' omitIfEmpty' uniquify' terminateWith' =>
      simp only [debugCall, List.append_assoc] at heq
      have hfields := List.append_cancel_left heq
      obtain ⟨rfl,hname⟩ := debugOption_code.then _ hfields
      obtain ⟨rfl,hitems⟩ := debugItems_code.then _ hname
      obtain ⟨rfl,hbefore⟩ := debugOption_code.then _ hitems
      obtain ⟨rfl,homit⟩ := debugBool_code.then _ hbefore
      obtain ⟨rfl,huniquify⟩ := debugBool_code.then _ homit
      obtain ⟨rfl,hst⟩ := debugOption_code.then _ huniquify
      exact ⟨rfl,hst⟩
    | addJoined =>
      simp only [debugCall, List.append_assoc] at heq
      exact absurd heq (label_ne 4 (by decide) (by decide) (by decide))
  | addJoined name items joinWith formatJoined omitIfEmpty uniquify =>
    cases b with
    | addAll =>
      simp only [debugCall, List.append_assoc] at heq
      exact absurd heq (label_ne 4 (by decide) (by decide) (by decide))
    | addJoined name' items' joinWith' formatJoined' omitIfEmpty' uniquify' =>
      simp only [debugCall, List.append_assoc] at heq
      have hfields := List.append_cancel_left heq
      obtain ⟨rfl,hname⟩ := debugOption_code.then _ hfields
      obtain ⟨rfl,hitems⟩ := debugItems_code.then _ hname
      obtain ⟨rfl,hjoin⟩ := debugStr_code.then _ hitems
      obtain ⟨rfl,hformat⟩ := debugOption_code.then _ hjoin
      obtain ⟨rfl,homit⟩ := debugBool_code.then _ hformat
      obtain ⟨rfl,hst⟩ := debugBool_code.then _ homit
      exact ⟨rfl,hst⟩

theorem debugArg_code : PrefixCode (debugArg printable) := by
  intro a b s t heq
  simp only [debugArg, List.append_assoc, List.cons_append] at heq
  obtain ⟨hat,hplace⟩ := debugNumber_then (List.append_cancel_left heq)
  obtain ⟨hlen,hcount⟩ := debugNumber_then (List.append_cancel_left hplace)
  have hcalls := List.append_cancel_left hcount
  obtain ⟨hcall,hst⟩ := debugCall_code.then _ hcalls
  cases a
  cases b
  exact ⟨LazyArg.mk.injEq .. ▸ ⟨hat,hlen,hcall⟩,hst⟩

theorem debugCalls_code : PrefixCode (debugCalls printable) := by
  apply debugArg_code.bracketed
  · intro arg
    exact label_append_ne_nil (by decide) _
  · intro arg
    exact @label_append_head _ _ 'L' (by decide) (by decide) _
  · decide

end PrefixCodes

end BuildFiji.Graph
