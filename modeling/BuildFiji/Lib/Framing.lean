import Mathlib

/-!
# Framed byte strings

A number is written seven bits to a byte, the low ones first, and every byte
but the last has its top bit set. A byte string after its length is a frame,
and a sequence of frames can be taken apart again.
-/

set_option autoImplicit false
set_option linter.all false

namespace BuildFiji.Framing

def varint (n : ℕ) : List UInt8 :=
  if n < 0x80 then [UInt8.ofNat n] else UInt8.ofNat (n%0x80+0x80)::varint (n/0x80)
termination_by n

theorem varint_small {n : ℕ} (h : n < 0x80) : varint n = [UInt8.ofNat n] := by
  rw [varint, if_pos h]

theorem varint_large {n : ℕ} (h : ¬n < 0x80) :
    varint n = UInt8.ofNat (n%0x80+0x80)::varint (n/0x80) := by
  rw [varint, if_neg h]

theorem varint_ne_nil (n : ℕ) : varint n ≠ [] := by
  by_cases h : n < 0x80
  · rw [varint_small h]
    simp
  · rw [varint_large h]
    simp

/-- No number's bytes begin those of another. -/
theorem varint_append_inj (m n : ℕ) {s t : List UInt8} (h : varint m ++ s = varint n ++ t) :
    m = n ∧ s = t := by
  induction m using Nat.strongRecOn generalizing n with
  | ind m ih =>
    by_cases hm : m < 0x80 <;> by_cases hn : n < 0x80
    · rw [varint_small hm, varint_small hn, List.singleton_append, List.singleton_append,
        List.cons.injEq] at h
      have hb := congrArg UInt8.toNat h.1
      rw [UInt8.toNat_ofNat', UInt8.toNat_ofNat'] at hb
      exact ⟨by omega,h.2⟩
    · rw [varint_small hm, varint_large hn, List.singleton_append, List.cons_append,
        List.cons.injEq] at h
      have hb := congrArg UInt8.toNat h.1
      rw [UInt8.toNat_ofNat', UInt8.toNat_ofNat'] at hb
      omega
    · rw [varint_large hm, varint_small hn, List.singleton_append, List.cons_append,
        List.cons.injEq] at h
      have hb := congrArg UInt8.toNat h.1
      rw [UInt8.toNat_ofNat', UInt8.toNat_ofNat'] at hb
      omega
    · rw [varint_large hm, varint_large hn, List.cons_append, List.cons_append,
        List.cons.injEq] at h
      have hb := congrArg UInt8.toNat h.1
      rw [UInt8.toNat_ofNat', UInt8.toNat_ofNat'] at hb
      obtain ⟨hd,hst⟩ := ih (m/0x80) (by omega) (n/0x80) h.2
      exact ⟨by omega,hst⟩

def frame (bytes : List UInt8) : List UInt8 := varint bytes.length ++ bytes

theorem frame_append_inj {a b s t : List UInt8} (h : frame a ++ s = frame b ++ t) :
    a = b ∧ s = t := by
  rw [frame, frame, List.append_assoc, List.append_assoc] at h
  obtain ⟨hlen,hrest⟩ := varint_append_inj _ _ h
  exact List.append_inj hrest hlen

theorem frames_inj {as bs : List (List UInt8)} (h : as.flatMap frame = bs.flatMap frame) :
    as = bs := by
  induction as generalizing bs with
  | nil =>
    cases bs with
    | nil => rfl
    | cons b bs =>
      rw [List.flatMap_nil, List.flatMap_cons, frame] at h
      simp [varint_ne_nil] at h
  | cons a as ih =>
    cases bs with
    | nil =>
      rw [List.flatMap_nil, List.flatMap_cons, frame] at h
      simp [varint_ne_nil] at h
    | cons b bs =>
      rw [List.flatMap_cons, List.flatMap_cons] at h
      obtain ⟨rfl,hrest⟩ := frame_append_inj h
      rw [ih hrest]

/-- Eight bytes, the low ones first. -/
def le64 (n : ℕ) : List UInt8 :=
  [UInt8.ofNat n,UInt8.ofNat (n/2^8),UInt8.ofNat (n/2^16),UInt8.ofNat (n/2^24),
    UInt8.ofNat (n/2^32),UInt8.ofNat (n/2^40),UInt8.ofNat (n/2^48),UInt8.ofNat (n/2^56)]

theorem le64_inj {m n : ℕ} (hm : m < 2^64) (hn : n < 2^64) (h : le64 m = le64 n) : m = n := by
  simp only [le64, List.cons.injEq, and_true, ← UInt8.toNat_inj, UInt8.toNat_ofNat'] at h
  omega

def frame64 (bytes : List UInt8) : List UInt8 := le64 bytes.length ++ bytes

theorem frame64_append_inj {a b s t : List UInt8} (ha : a.length < 2^64) (hb : b.length < 2^64)
    (h : frame64 a ++ s = frame64 b ++ t) : a = b ∧ s = t := by
  rw [frame64, frame64, List.append_assoc, List.append_assoc] at h
  obtain ⟨hlen,hrest⟩ := List.append_inj h rfl
  exact List.append_inj hrest (le64_inj ha hb hlen)

theorem frames64_inj {as bs : List (List UInt8)} (has : ∀ a ∈ as, a.length < 2^64)
    (hbs : ∀ b ∈ bs, b.length < 2^64) (h : as.flatMap frame64 = bs.flatMap frame64) : as = bs := by
  induction as generalizing bs with
  | nil =>
    cases bs with
    | nil => rfl
    | cons b bs =>
      rw [List.flatMap_nil, List.flatMap_cons, frame64, le64] at h
      cases h
  | cons a as ih =>
    cases bs with
    | nil =>
      rw [List.flatMap_nil, List.flatMap_cons, frame64, le64] at h
      cases h
    | cons b bs =>
      rw [List.flatMap_cons, List.flatMap_cons] at h
      obtain ⟨rfl,hrest⟩ := frame64_append_inj (has a List.mem_cons_self) (hbs b List.mem_cons_self) h
      rw [ih (fun x hx => has x (List.mem_cons_of_mem _ hx))
        (fun x hx => hbs x (List.mem_cons_of_mem _ hx)) hrest]

/-- The two digits of a byte. -/
def hexByte (b : UInt8) : List Char := [Nat.digitChar (b.toNat/16),Nat.digitChar (b.toNat%16)]

def hex (bytes : List UInt8) : List Char := bytes.flatMap hexByte

def isHexDigit (c : Char) : Bool := "0123456789abcdef".toList.contains c

theorem digitChar_isHex {n : ℕ} (h : n < 16) : isHexDigit (Nat.digitChar n) = true := by
  revert n
  decide

theorem hex_digits (bytes : List UInt8) : ∀ c ∈ hex bytes, isHexDigit c = true := by
  intro c hc
  obtain ⟨b,-,hb⟩ := List.mem_flatMap.mp hc
  have hlt := b.toNat_lt
  simp only [hexByte, List.mem_cons, List.not_mem_nil, or_false] at hb
  rcases hb with rfl | rfl
  · exact digitChar_isHex (by omega)
  · exact digitChar_isHex (by omega)

theorem hex_length (bytes : List UInt8) : (hex bytes).length = 2*bytes.length := by
  induction bytes with
  | nil => rfl
  | cons b bytes ih =>
    rw [hex, List.flatMap_cons, List.length_append]
    rw [hex] at ih
    rw [ih, List.length_cons, hexByte]
    simp only [List.length_cons, List.length_nil]
    omega

theorem digitChar_injective {m n : ℕ} (hm : m < 16) (hn : n < 16)
    (h : Nat.digitChar m = Nat.digitChar n) : m = n := by
  have hall : ∀ i < 16, ∀ j < 16, Nat.digitChar i = Nat.digitChar j → i = j := by decide
  exact hall m hm n hn h

theorem hexByte_injective : Function.Injective hexByte := by
  intro a b h
  have ha := a.toNat_lt
  have hb := b.toNat_lt
  simp only [hexByte, List.cons.injEq, and_true] at h
  have hhigh := @digitChar_injective (a.toNat/16) (b.toNat/16) (by omega) (by omega) h.1
  have hlow := @digitChar_injective (a.toNat%16) (b.toNat%16) (by omega) (by omega) h.2
  exact UInt8.toNat_inj.mp (by omega)

theorem hex_injective : Function.Injective hex := by
  intro a b h
  induction a generalizing b with
  | nil =>
    cases b with
    | nil => rfl
    | cons y b => cases h
  | cons x a ih =>
    cases b with
    | nil => cases h
    | cons y b =>
      rw [hex, hex, List.flatMap_cons, List.flatMap_cons] at h
      obtain ⟨hxy,hab⟩ := List.append_inj h rfl
      rw [hexByte_injective hxy, ih hab]

/-- The SHA-256 of no bytes. -/
def emptyDigest : Vector UInt8 32 := #v[0xe3,0xb0,0xc4,0x42,0x98,0xfc,0x1c,0x14,0x9a,0xfb,0xf4,0xc8,
  0x99,0x6f,0xb9,0x24,0x27,0xae,0x41,0xe4,0x64,0x9b,0x93,0x4c,0xa4,0x95,0x99,0x1b,0x78,0x52,0xb8,0x55]

end BuildFiji.Framing
