import BuildFiji.Lib.Framing
import Mathlib

/-!
# The wire format of protocol buffers

A message is a row of records, each a number with a payload of one of four kinds. A number
that is read has ten bytes at most and fits 64 bits.
-/

set_option autoImplicit false
set_option linter.all false

namespace BuildFiji.Wire

open Framing

inductive Payload where
  | varint (n : ℕ)
  | fixed64 (bytes : List UInt8)
  | len (bytes : List UInt8)
  | fixed32 (bytes : List UInt8)
  deriving DecidableEq

structure Record where
  number : ℕ
  payload : Payload
  deriving DecidableEq

/-- A number of `room` bytes at most. -/
def readNumber : ℕ → List UInt8 → Option (ℕ × List UInt8)
  | room+1, b::rest =>
    if b.toNat < 0x80 then some (b.toNat,rest)
    else (readNumber room rest).map fun r => (b.toNat%0x80+0x80*r.1,r.2)
  | _, _ => none

def readVarint (bytes : List UInt8) : Option (ℕ × List UInt8) :=
  (readNumber 10 bytes).filter fun r => r.1 < 2^64

def readBytes (n : ℕ) (bytes : List UInt8) : Option (List UInt8 × List UInt8) :=
  if n ≤ bytes.length then some (bytes.take n,bytes.drop n) else none

def readFrame (bytes : List UInt8) : Option (List UInt8 × List UInt8) :=
  (readVarint bytes).bind fun r => readBytes r.1 r.2

def readPayload : ℕ → List UInt8 → Option (Payload × List UInt8)
  | 0, bytes => (readVarint bytes).map fun r => (.varint r.1,r.2)
  | 1, bytes => (readBytes 8 bytes).map fun r => (.fixed64 r.1,r.2)
  | 2, bytes => (readFrame bytes).map fun r => (.len r.1,r.2)
  | 5, bytes => (readBytes 4 bytes).map fun r => (.fixed32 r.1,r.2)
  | _, _ => none

def readRecord (bytes : List UInt8) : Option (Record × List UInt8) :=
  (readVarint bytes).bind fun tag =>
    if 0 < tag.1/8 ∧ tag.1/8 < 2^29 then
      (readPayload (tag.1%8) tag.2).map fun r => (⟨tag.1/8,r.1⟩,r.2)
    else none

/-- All that a reader of one thing reads, to the end of the bytes. -/
def readAll {α : Type} (read : List UInt8 → Option (α × List UInt8)) : ℕ → List UInt8 → Option (List α)
  | _, [] => some []
  | 0, _::_ => none
  | room+1, b::bytes => (read (b::bytes)).bind fun r => (readAll read room r.2).map (r.1::·)

def records (bytes : List UInt8) : Option (List Record) := readAll readRecord bytes.length bytes

def numbers (bytes : List UInt8) : Option (List ℕ) := readAll readVarint bytes.length bytes

def frames (bytes : List UInt8) : Option (List (List UInt8)) := readAll readFrame bytes.length bytes

section Writing

def Payload.kind : Payload → ℕ
  | varint _ => 0
  | fixed64 _ => 1
  | len _ => 2
  | fixed32 _ => 5

def Payload.bytes : Payload → List UInt8
  | varint n => Framing.varint n
  | fixed64 bytes => bytes
  | len bytes => frame bytes
  | fixed32 bytes => bytes

def Payload.Fits : Payload → Prop
  | varint n => n < 2^64
  | fixed64 bytes => bytes.length = 8
  | len bytes => bytes.length < 2^64
  | fixed32 bytes => bytes.length = 4

def Record.bytes (r : Record) : List UInt8 := Framing.varint (r.number*8+r.payload.kind) ++ r.payload.bytes

def Record.Fits (r : Record) : Prop := (0 < r.number ∧ r.number < 2^29) ∧ r.payload.Fits

end Writing

section Reading

theorem byte_toNat {n : ℕ} (h : n < 256) : (UInt8.ofNat n).toNat = n := by
  rw [UInt8.toNat_ofNat']
  omega

theorem readNumber_varint (room n : ℕ) (h : n < 0x80^(room+1)) (rest : List UInt8) :
    readNumber (room+1) (varint n ++ rest) = some (n,rest) := by
  induction room generalizing n with
  | zero =>
    have hn : n < 0x80 := h
    rw [varint_small hn, List.singleton_append, readNumber, byte_toNat (by omega), if_pos hn]
  | succ room ih =>
    by_cases hn : n < 0x80
    · rw [varint_small hn, List.singleton_append, readNumber, byte_toNat (by omega), if_pos hn]
    · have hdiv : n/0x80 < 0x80^(room+1) := by
        rw [Nat.pow_succ] at h
        exact Nat.div_lt_of_lt_mul (by rw [Nat.mul_comm]; exact h)
      rw [varint_large hn, List.cons_append, readNumber, byte_toNat (by omega), if_neg (by omega),
        ih (n/0x80) hdiv, Option.map_some]
      have hback : (n%0x80+0x80)%0x80+0x80*(n/0x80) = n := by omega
      rw [hback]

theorem readVarint_varint {n : ℕ} (h : n < 2^64) (rest : List UInt8) :
    readVarint (varint n ++ rest) = some (n,rest) := by
  rw [readVarint, readNumber_varint 9 n (Nat.lt_of_lt_of_le h (by decide)) rest, Option.filter_some, if_pos]
  exact decide_eq_true h

theorem readBytes_append (a b : List UInt8) : readBytes a.length (a ++ b) = some (a,b) := by
  rw [readBytes, if_pos (by rw [List.length_append]; omega), List.take_left, List.drop_left]

theorem readFrame_frame {body : List UInt8} (h : body.length < 2^64) (rest : List UInt8) :
    readFrame (frame body ++ rest) = some (body,rest) := by
  rw [readFrame, frame, List.append_assoc, readVarint_varint h, Option.bind_some]
  exact readBytes_append body rest

theorem readPayload_bytes {p : Payload} (h : p.Fits) (rest : List UInt8) :
    readPayload p.kind (p.bytes ++ rest) = some (p,rest) := by
  cases p with
  | varint n => rw [Payload.kind, readPayload, Payload.bytes, readVarint_varint h, Option.map_some]
  | fixed64 bytes =>
    have hlen : bytes.length = 8 := h
    rw [Payload.kind, readPayload, Payload.bytes, ← hlen, readBytes_append, Option.map_some]
  | len bytes => rw [Payload.kind, readPayload, Payload.bytes, readFrame_frame h, Option.map_some]
  | fixed32 bytes =>
    have hlen : bytes.length = 4 := h
    rw [Payload.kind, readPayload, Payload.bytes, ← hlen, readBytes_append, Option.map_some]

theorem readRecord_bytes {r : Record} (h : r.Fits) (rest : List UInt8) :
    readRecord (r.bytes ++ rest) = some (r,rest) := by
  obtain ⟨⟨hpos,hlt⟩,hfits⟩ := h
  have hkind : r.payload.kind < 8 := by
    unfold Payload.kind
    split <;> omega
  have hnumber : (r.number*8+r.payload.kind)/8 = r.number := by omega
  have hwire : (r.number*8+r.payload.kind)%8 = r.payload.kind := by omega
  rw [readRecord, Record.bytes, List.append_assoc, readVarint_varint (by omega), Option.bind_some]
  simp only [hnumber, hwire]
  rw [if_pos ⟨hpos,hlt⟩, readPayload_bytes hfits, Option.map_some]

/-- What is written one after the other is read one after the other. -/
theorem readAll_flatMap {α : Type} {read : List UInt8 → Option (α × List UInt8)} {write : α → List UInt8}
    {l : List α} (hread : ∀ a ∈ l, ∀ rest, read (write a ++ rest) = some (a,rest))
    (hne : ∀ a ∈ l, write a ≠ []) {room : ℕ} (hroom : (l.flatMap write).length ≤ room) :
    readAll read room (l.flatMap write) = some l := by
  induction l generalizing room with
  | nil => cases room <;> rfl
  | cons a l ih =>
    rw [List.flatMap_cons] at hroom ⊢
    obtain ⟨b,bytes,hwrite⟩ := List.exists_cons_of_ne_nil (hne a List.mem_cons_self)
    have hstep := hread a List.mem_cons_self (l.flatMap write)
    rw [List.length_append, hwrite, List.length_cons] at hroom
    obtain ⟨room,rfl⟩ : ∃ k, room = k+1 := ⟨room-1,by omega⟩
    rw [hwrite, List.cons_append] at hstep ⊢
    rw [readAll, hstep, Option.bind_some]
    simp only
    rw [ih (fun a' h => hread a' (List.mem_cons_of_mem _ h)) (fun a' h => hne a' (List.mem_cons_of_mem _ h))
      (by omega), Option.map_some]

theorem records_bytes {rs : List Record} (h : ∀ r ∈ rs, r.Fits) :
    records (rs.flatMap Record.bytes) = some rs := by
  apply readAll_flatMap (fun r hr rest => readRecord_bytes (h r hr) rest) (fun r _ hnil => ?_) (Nat.le_refl _)
  exact varint_ne_nil _ (List.append_eq_nil_iff.mp hnil).1

theorem numbers_varints {ns : List ℕ} (h : ∀ n ∈ ns, n < 2^64) : numbers (ns.flatMap varint) = some ns :=
  readAll_flatMap (fun n hn rest => readVarint_varint (h n hn) rest) (fun n _ => varint_ne_nil n) (Nat.le_refl _)

theorem frames_bytes {bodies : List (List UInt8)} (h : ∀ body ∈ bodies, body.length < 2^64) :
    frames (bodies.flatMap frame) = some bodies := by
  apply readAll_flatMap (fun body hb rest => readFrame_frame (h body hb) rest) (fun body _ hnil => ?_) (Nat.le_refl _)
  exact varint_ne_nil _ (List.append_eq_nil_iff.mp hnil).1

end Reading

end BuildFiji.Wire
