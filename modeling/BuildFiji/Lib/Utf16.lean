import BuildFiji.Lib.PrefixCode
import Mathlib

/-!
# UTF-16

A character is one unit of sixteen bits or a pair of them, and a unit is written with its
low byte first. No text is written as another.
-/

set_option autoImplicit false
set_option linter.all false

namespace BuildFiji.Utf16

open BuildFiji.Codes

def units (c : Char) : List UInt16 :=
  if c.toNat < 0x10000 then [.ofNat c.toNat]
  else [.ofNat (0xD800+(c.toNat-0x10000)/0x400),.ofNat (0xDC00+(c.toNat-0x10000)%0x400)]

def bytes (u : UInt16) : List UInt8 := [.ofNat (u.toNat%256),.ofNat (u.toNat/256)]

def encode (s : String) : List UInt8 := (s.toList.flatMap units).flatMap bytes

theorem ofNat_inj {m n : ℕ} (hm : m < 2^16) (hn : n < 2^16) (h : UInt16.ofNat m = .ofNat n) : m = n := by
  have hnat := congrArg UInt16.toNat h
  rwa [UInt16.toNat_ofNat', UInt16.toNat_ofNat', Nat.mod_eq_of_lt hm, Nat.mod_eq_of_lt hn] at hnat

theorem byte_inj {m n : ℕ} (hm : m < 2^8) (hn : n < 2^8) (h : UInt8.ofNat m = .ofNat n) : m = n := by
  have hnat := congrArg UInt8.toNat h
  rwa [UInt8.toNat_ofNat', UInt8.toNat_ofNat', Nat.mod_eq_of_lt hm, Nat.mod_eq_of_lt hn] at hnat

/-- No character is in the place of the pairs. -/
theorem char_range (c : Char) : c.toNat < 0xD800 ∨ 0xDFFF < c.toNat ∧ c.toNat < 0x110000 := by
  have h := c.valid
  exact h

theorem units_single {c : Char} (h : c.toNat < 0x10000) : units c = [.ofNat c.toNat] := if_pos h

theorem units_pair {c : Char} (h : ¬c.toNat < 0x10000) :
    units c = [.ofNat (0xD800+(c.toNat-0x10000)/0x400),.ofNat (0xDC00+(c.toNat-0x10000)%0x400)] :=
  if_neg h

theorem units_code : PrefixCode units := by
  intro a b s t heq
  have ha := char_range a
  have hb := char_range b
  by_cases hsa : a.toNat < 0x10000
  · by_cases hsb : b.toNat < 0x10000
    · rw [units_single hsa, units_single hsb, List.singleton_append, List.singleton_append] at heq
      obtain ⟨hunit,hst⟩ := List.cons.inj heq
      exact ⟨Char.toNat_inj.mp (ofNat_inj (by omega) (by omega) hunit),hst⟩
    · rw [units_single hsa, units_pair hsb] at heq
      have hunit := ofNat_inj (by omega) (by omega) (List.cons.inj heq).1
      omega
  · by_cases hsb : b.toNat < 0x10000
    · rw [units_pair hsa, units_single hsb] at heq
      have hunit := ofNat_inj (by omega) (by omega) (List.cons.inj heq).1
      omega
    · rw [units_pair hsa, units_pair hsb] at heq
      obtain ⟨hhigh,hrest⟩ := List.cons.inj heq
      obtain ⟨hlow,hst⟩ := List.cons.inj hrest
      have h1 := ofNat_inj (by omega) (by omega) hhigh
      have h2 := ofNat_inj (by omega) (by omega) hlow
      exact ⟨Char.toNat_inj.mp (by omega),hst⟩

theorem units_ne_nil (c : Char) : units c ≠ [] := by
  unfold units
  split <;> exact List.cons_ne_nil _ _

theorem bytes_code : PrefixCode bytes := by
  refine .of_length (n := 2) (fun u v h => ?_) fun _ => rfl
  obtain ⟨hlow,hrest⟩ := List.cons.inj h
  have hu := u.toNat_lt
  have hv := v.toNat_lt
  have h1 := byte_inj (by omega) (by omega) hlow
  have h2 := byte_inj (by omega) (by omega) (List.cons.inj hrest).1
  exact UInt16.toNat_inj.mp (by omega)

theorem encode_injective : Function.Injective encode := by
  intro s t h
  have hunits := bytes_code.words (fun _ => List.cons_ne_nil _ _) h
  exact String.toList_inj.mp (units_code.words units_ne_nil hunits)

/-- The characters of units; a unit that is half of no pair stands for a character in its place. -/
def fromUnits : List UInt16 → List Char
  | [] => []
  | [u] => if u.toNat < 0xD800 ∨ 0xDFFF < u.toNat then [.ofNat u.toNat] else ['\ufffd']
  | u::v::rest =>
    if u.toNat < 0xD800 ∨ 0xDFFF < u.toNat then .ofNat u.toNat::fromUnits (v::rest)
    else if u.toNat < 0xDC00 ∧ 0xDC00 ≤ v.toNat ∧ v.toNat ≤ 0xDFFF then
      .ofNat (0x10000+(u.toNat-0xD800)*0x400+(v.toNat-0xDC00))::fromUnits rest
    else '\ufffd' :: fromUnits (v::rest)

theorem fromUnits_single {u : UInt16} (h : u.toNat < 0xD800 ∨ 0xDFFF < u.toNat) (rest : List UInt16) :
    fromUnits (u::rest) = .ofNat u.toNat::fromUnits rest := by
  cases rest with
  | nil => simp only [fromUnits, if_pos h]
  | cons v rest => rw [fromUnits, if_pos h]

theorem fromUnits_char (c : Char) (rest : List UInt16) : fromUnits (units c ++ rest) = c::fromUnits rest := by
  have hrange := char_range c
  by_cases hsmall : c.toNat < 0x10000
  · have hunit : (UInt16.ofNat c.toNat).toNat = c.toNat := by
      rw [UInt16.toNat_ofNat', Nat.mod_eq_of_lt (by omega)]
    rw [units_single hsmall, List.singleton_append, fromUnits_single (by omega), hunit, Char.ofNat_toNat]
  · have hhigh : (UInt16.ofNat (0xD800+(c.toNat-0x10000)/0x400)).toNat = 0xD800+(c.toNat-0x10000)/0x400 := by
      rw [UInt16.toNat_ofNat', Nat.mod_eq_of_lt (by omega)]
    have hlow : (UInt16.ofNat (0xDC00+(c.toNat-0x10000)%0x400)).toNat = 0xDC00+(c.toNat-0x10000)%0x400 := by
      rw [UInt16.toNat_ofNat', Nat.mod_eq_of_lt (by omega)]
    have hsum : 0x10000+(0xD800+(c.toNat-0x10000)/0x400-0xD800)*0x400+
        (0xDC00+(c.toNat-0x10000)%0x400-0xDC00) = c.toNat := by omega
    rw [units_pair hsmall, List.cons_append, List.cons_append, List.nil_append, fromUnits, hhigh, hlow,
      if_neg (by omega), if_pos (by omega), hsum, Char.ofNat_toNat]

theorem fromUnits_units (s : List Char) : fromUnits (s.flatMap units) = s := by
  induction s with
  | nil => rfl
  | cons c s ih => rw [List.flatMap_cons, fromUnits_char, ih]

end BuildFiji.Utf16
