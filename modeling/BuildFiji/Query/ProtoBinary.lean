import BuildFiji.Lib.Wire
import BuildFiji.Query.Proto
import Mathlib.Data.List.Sort
import Mathlib.Tactic.NormNum

/-!
# The protocol buffer writer is decodable

A reader of the wire format finds the fields of a message in order, a run of
packed numbers as one record, and messages one after the other where they are
written with their lengths.
-/

set_option autoImplicit false
set_option linter.all false

namespace BuildFiji.Query.Proto

open Graph.Configuration (utf8)
open Framing (varint frame)
open Wire (Record Payload)

/-- The fields by number, stable within a number. -/
def InOrder (fields inOrder : List Field) : Prop :=
  (inOrder.Pairwise fun f g => f.number ≤ g.number) ∧
    ∀ n, inOrder.filter (fun f => f.number = n) = fields.filter fun f => f.number = n

mutual

/-- What a reader finds for a value. -/
inductive Reads : Val → Payload → Prop
  | int (i : Int64) : Reads (.int i) (.varint i.toUInt64.toNat)
  | bool (b : Bool) : Reads (.bool b) (.varint b.toNat)
  | enum (name : String) (n : Int32) : Reads (.enum name n) (.varint n.toInt64.toUInt64.toNat)
  | str (s : String) : Reads (.str s) (.len (utf8 s))
  | msg {m : Msg} {fields : List Field} {body : List UInt8} {rs : List Record} :
      InOrder m.fields fields → Wire.records body = some rs → ReadsAll fields rs → Reads (.msg m) (.len body)

/-- What a reader finds for fields that are in order. -/
inductive ReadsAll : List Field → List Record → Prop
  | nil : ReadsAll [] []
  | plain {number : UInt32} {name : String} {repeated : Bool} {value : Val} {p : Payload}
      {fields : List Field} {rs : List Record} : Reads value p → ReadsAll fields rs →
      ReadsAll (.plain number name repeated value::fields) (⟨number.toNat,p⟩::rs)
  | packed {number : UInt32} {run : List (String × Int64)} {body : List UInt8} {fields : List Field}
      {rs : List Record} : run ≠ [] → (∀ f, fields.head? = some f → f.packedOf number.toNat = false) →
      Wire.numbers body = some (run.map fun r => r.2.toUInt64.toNat) → ReadsAll fields rs →
      ReadsAll (run.map (fun r => .packed number r.1 r.2) ++ fields) (⟨number.toNat,.len body⟩::rs)

end

/-- Field numbers are from 1 to 2^29-1 in a message and in all messages within it. -/
def Numbered (m : Msg) : Prop := ∀ m', Within m m' → ∀ f ∈ m'.fields, 0 < f.number ∧ f.number < 2^29

theorem Within.trans {m m' m'' : Msg} (h : Within m m') (h' : Within m' m'') : Within m m'' := by
  induction h' with
  | itself => exact h
  | nested _ hf hvalue ih => exact .nested ih hf hvalue

theorem Numbered.nested {m m' : Msg} (h : Numbered m) {f : Field} (hf : f ∈ m.fields)
    (hvalue : f.value = .msg m') : Numbered m' :=
  fun m'' hm'' => h m'' (Within.trans (.nested .itself hf hvalue) hm'')

theorem sorted_inOrder (m : Msg) : InOrder m.fields m.sorted := by
  have htrans : ∀ f g h : Field, decide (f.number ≤ g.number) = true → decide (g.number ≤ h.number) = true →
      decide (f.number ≤ h.number) = true := by
    intro f g h hfg hgh
    rw [decide_eq_true_eq] at *
    exact hfg.trans hgh
  have htotal : ∀ f g : Field, (decide (f.number ≤ g.number) || decide (g.number ≤ f.number)) = true := by
    intro f g
    rw [Bool.or_eq_true, decide_eq_true_eq, decide_eq_true_eq]
    exact Nat.le_total _ _
  refine ⟨(List.pairwise_mergeSort htrans htotal m.fields).imp fun h => of_decide_eq_true h,fun n => ?_⟩
  have hsame : (m.fields.filter fun f => f.number = n).Pairwise fun f g => decide (f.number ≤ g.number) = true := by
    rw [List.pairwise_filter]
    refine List.pairwise_of_forall fun f g hf hg => ?_
    rw [decide_eq_true_eq] at *
    omega
  have hsub := (List.sublist_mergeSort htrans htotal hsame List.filter_sublist).filter fun f => f.number = n
  rw [List.filter_filter] at hsub
  simp only [Bool.and_self] at hsub
  refine (hsub.eq_of_length ?_).symm
  exact ((List.mergeSort_perm m.fields _).filter _).length_eq.symm

section Encoding

theorem shift (n : ℕ) : n <<< 3 = n*8 := by rw [Nat.shiftLeft_eq]

theorem shift_or (n : ℕ) : n <<< 3 ||| 2 = n*8+2 := by
  rw [Nat.shiftLeft_eq, Nat.mul_comm, ← Nat.two_pow_add_eq_or_of_lt (i := 3) (by decide)]

theorem packedBody_run (number : UInt32) (run : List (String × Int64)) :
    packedBody (run.map fun r => .packed number r.1 r.2) =
      (run.map fun r => r.2.toUInt64.toNat).flatMap varint := by
  induction run with
  | nil => rfl
  | cons r run ih =>
    rw [List.map_cons, packedBody, List.flatMap_cons]
    change _ ++ packedBody _ = _
    rw [ih]
    rfl

theorem packedOf_shape {number : UInt32} {f : Field} (h : f.packedOf number.toNat = true) :
    ∃ r : String × Int64, f = .packed number r.1 r.2 := by
  cases f with
  | plain => cases h
  | packed n name i =>
    have hn := UInt32.toNat_inj.mp (of_decide_eq_true h)
    exact ⟨(name,i),by rw [hn]⟩

theorem takeWhile_run (number : UInt32) (fields : List Field) :
    ∃ run : List (String × Int64), fields.takeWhile (Field.packedOf number.toNat) =
      run.map fun r => .packed number r.1 r.2 := by
  induction fields with
  | nil => exact ⟨[],rfl⟩
  | cons f fields ih =>
    cases hf : f.packedOf number.toNat with
    | false => exact ⟨[],by rw [List.takeWhile_cons_of_neg (by rw [hf]; decide)]; rfl⟩
    | true =>
      obtain ⟨run,hrun⟩ := ih
      obtain ⟨r,rfl⟩ := packedOf_shape hf
      exact ⟨r::run,by rw [List.takeWhile_cons_of_pos hf, hrun]; rfl⟩

/-- The bytes of fields are those of records that a reader finds. -/
structure Written (fields : List Field) (bytes : List UInt8) (rs : List Record) : Prop where
  fits : ∀ r ∈ rs, r.Fits
  bytes : bytes = rs.flatMap Record.bytes
  reads : ReadsAll fields rs

theorem Written.cons {fields fields' : List Field} {bytes : List UInt8} {rs : List Record} {r : Record}
    (h : Written fields bytes rs) (hfits : r.Fits) (hreads : ReadsAll fields' (r::rs)) :
    Written fields' (r.bytes ++ bytes) (r::rs) := by
  refine ⟨fun r' hr' => ?_,by rw [h.bytes]; rfl,hreads⟩
  rcases List.mem_cons.mp hr' with rfl | hr'
  · exact hfits
  · exact h.fits r' hr'

theorem encodeField_written {number : ℕ} {value : Val} (hnumber : 0 < number ∧ number < 2^29)
    (hmsg : ∀ m, value = .msg m → m.binary.length < 2^64 → ∃ rs, Written m.sorted m.binary rs)
    (hlen : (encodeField Msg.binary number value).length < 2^64) :
    ∃ p, Reads value p ∧ Record.Fits ⟨number,p⟩ ∧
      encodeField Msg.binary number value = Record.bytes ⟨number,p⟩ := by
  cases value with
  | int i =>
    refine ⟨_,.int i,⟨hnumber,i.toUInt64.toNat_lt⟩,?_⟩
    rw [encodeField, shift]
    rfl
  | bool b =>
    have hsmall : b.toNat < 2^64 := by
      cases b <;> decide
    refine ⟨_,.bool b,⟨hnumber,hsmall⟩,?_⟩
    rw [encodeField, shift]
    rfl
  | enum name n =>
    refine ⟨_,.enum name n,⟨hnumber,n.toInt64.toUInt64.toNat_lt⟩,?_⟩
    rw [encodeField, shift]
    rfl
  | str s =>
    rw [encodeField, List.length_append, List.length_append] at hlen
    refine ⟨_,.str s,⟨hnumber,show (utf8 s).length < 2^64 by omega⟩,?_⟩
    rw [encodeField, shift_or]
    rfl
  | msg m =>
    rw [encodeField, List.length_append, List.length_append] at hlen
    have hbody : m.binary.length < 2^64 := by omega
    obtain ⟨rs,hfits,hbytes,hreads⟩ := hmsg m rfl hbody
    have hrecords : Wire.records m.binary = some rs := by
      rw [hbytes]
      exact Wire.records_bytes hfits
    refine ⟨_,.msg (sorted_inOrder m) hrecords hreads,⟨hnumber,hbody⟩,?_⟩
    rw [encodeField, shift_or]
    rfl

theorem encode_written {fields : List Field} (hnumber : ∀ f ∈ fields, 0 < f.number ∧ f.number < 2^29)
    (hmsg : ∀ f ∈ fields, ∀ m, f.value = .msg m → m.binary.length < 2^64 →
      ∃ rs, Written m.sorted m.binary rs)
    (hlen : (encode Msg.binary fields).length < 2^64) :
    ∃ rs, Written fields (encode Msg.binary fields) rs := by
  fun_induction encode Msg.binary fields with
  | case1 => exact ⟨[],fun r hr => absurd hr List.not_mem_nil,rfl,.nil⟩
  | case2 number name repeated value fields ih =>
    rw [List.length_append] at hlen
    obtain ⟨p,hreads,hfits,hbytes⟩ := @encodeField_written number.toNat value
      (hnumber _ List.mem_cons_self) (hmsg _ List.mem_cons_self) (by omega)
    obtain ⟨rs,hrest⟩ := ih (fun f hf => hnumber f (List.mem_cons_of_mem _ hf))
      (fun f hf => hmsg f (List.mem_cons_of_mem _ hf)) (by omega)
    rw [hbytes]
    exact ⟨_,hrest.cons hfits (.plain hreads hrest.reads)⟩
  | case3 number name i fields run ih =>
    obtain ⟨more,hmore⟩ := takeWhile_run number fields
    have hrun : run = ((name,i)::more).map fun r => .packed number r.1 r.2 := by
      rw [List.map_cons, ← hmore]
    simp only [List.length_append] at hlen
    have hsub := (List.dropWhile_sublist (l := fields) (Field.packedOf number.toNat)).subset
    obtain ⟨rs,hrest⟩ := ih (fun f hf => hnumber f (List.mem_cons_of_mem _ (hsub hf)))
      (fun f hf => hmsg f (List.mem_cons_of_mem _ (hsub hf))) (by omega)
    have hnumbers : Wire.numbers (packedBody run) =
        some (((name,i)::more).map fun r => r.2.toUInt64.toNat) := by
      rw [hrun, packedBody_run]
      apply Wire.numbers_varints
      intro n hn
      obtain ⟨r,-,rfl⟩ := List.mem_map.mp hn
      exact r.2.toUInt64.toNat_lt
    have hfits : Record.Fits ⟨number.toNat,.len (packedBody run)⟩ :=
      ⟨hnumber _ List.mem_cons_self,show (packedBody run).length < 2^64 by omega⟩
    have hsplit : Field.packed number name i::fields = run ++ fields.dropWhile (Field.packedOf number.toNat) := by
      change _ = Field.packed number name i::(_ ++ _)
      rw [List.takeWhile_append_dropWhile]
    have hhead : ∀ f, (fields.dropWhile (Field.packedOf number.toNat)).head? = some f →
        f.packedOf number.toNat = false := by
      intro f hf
      have hdrop := List.head?_dropWhile_not (Field.packedOf number.toNat) fields
      rw [hf] at hdrop
      simpa using hdrop
    have hreads := @ReadsAll.packed number _ _ _ _ (List.cons_ne_nil (name,i) more) hhead hnumbers hrest.reads
    rw [← hrun, ← hsplit] at hreads
    rw [shift_or]
    have hbytes := hrest.cons hfits hreads
    rw [Record.bytes] at hbytes
    exact ⟨_,by simpa only [Wire.Payload.bytes, Wire.Payload.kind, frame, List.append_assoc] using hbytes⟩

theorem binary_written (m : Msg) (hnumbered : Numbered m) (hlen : m.binary.length < 2^64) :
    ∃ rs, Written m.sorted m.binary rs := by
  induction hdepth : m.depth using Nat.strongRecOn generalizing m with
  | ind d ih =>
    rw [binary_eq] at hlen ⊢
    apply encode_written
    · intro f hf
      exact hnumbered m .itself f (mem_sorted.mp hf)
    · intro f hf m' hvalue hlen'
      have hf' := mem_sorted.mp hf
      exact ih m'.depth (hdepth ▸ nested_depth hf' hvalue) m' (hnumbered.nested hf' hvalue) hlen' rfl
    · exact hlen

end Encoding

end BuildFiji.Query.Proto
