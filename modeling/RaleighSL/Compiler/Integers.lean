import RaleighSL.Compiler.Model

/-!
# Integers of messages

An integer has a code, an unsigned integer of its size. What the size function counts, what is
written and what the decoder reads is the code, though they work over different numbers of bits.
-/
namespace RaleighSL.Compiler
open Zcl (Byte Bytes ReaderMethods)
open Zcl.Coding (encodeUint number encodeZigzag decodeZigzag uint32Size uint64Size)

namespace IntType
variable {vtype : IntType}

theorem size_pos (vtype : IntType) : 0 < vtype.size := by cases vtype <;> decide

theorem size_le_width (vtype : IntType) : 8 * vtype.size ≤ vtype.width := by cases vtype <;> decide

theorem width_le (vtype : IntType) : vtype.width ≤ 64 := by cases vtype <;> decide

/-- The unsigned integer that is written. -/
def code (vtype : IntType) (value : vtype.Value) : Nat :=
  if vtype.signed then (encodeZigzag value).toNat else value.toNat

theorem code_lt (value : vtype.Value) : vtype.code value < 2 ^ (8 * vtype.size) := by
  unfold code
  split <;> exact BitVec.isLt _

theorem code_lt_pow (value : vtype.Value) : vtype.code value < 256 ^ vtype.size := by
  have hlt := code_lt value
  rwa [Nat.pow_mul] at hlt

theorem code_lt_two_pow (value : vtype.Value) : vtype.code value < 2 ^ 64 :=
  Nat.lt_of_lt_of_le (code_lt value)
    (Nat.pow_le_pow_right (by decide) (Nat.le_trans vtype.size_le_width vtype.width_le))

theorem toNat_encodeZigzag_signExtend {w : Nat} (h : 8 * vtype.size ≤ w) (value : vtype.Value) :
    (encodeZigzag (value.signExtend w)).toNat = (encodeZigzag value).toNat := by
  have hpos := vtype.size_pos
  rw [Zcl.Coding.encodeZigzag_signExtend (by omega) h, BitVec.toNat_setWidth_of_le h]

theorem writeInt_eq (uid : Nat) (value : vtype.Value) : vtype.writeInt uid value = Zcl.writeFieldUint64 uid (vtype.code value) := by
  unfold writeInt code
  split
  · rw [Zcl.writeFieldInt64, toNat_encodeZigzag_signExtend (Nat.le_trans vtype.size_le_width vtype.width_le)]
  · rfl

theorem intSize_eq (value : vtype.Value) : vtype.intSize value = uint64Size (vtype.code value) := by
  have hlt := code_lt value
  have hcode : (if vtype.signed then (encodeZigzag (value.signExtend vtype.width)).toNat else value.toNat) =
      vtype.code value := by
    unfold code
    rw [toNat_encodeZigzag_signExtend vtype.size_le_width]
  unfold intSize
  simp only [hcode]
  split
  · rfl
  · refine (Zcl.Coding.uint64Size_eq_uint32Size (Nat.lt_of_lt_of_le hlt (Nat.pow_le_pow_right (by decide) ?_))).symm
    revert ‹¬vtype.size = 8›
    cases vtype <;> decide

theorem uint64Size_code_le (value : vtype.Value) : uint64Size (vtype.code value) ≤ vtype.size :=
  (Zcl.Coding.uint64Size_minimal (code_lt_two_pow value)).le vtype.size_pos (code_lt_pow value)

theorem ofUnsigned_code (value : vtype.Value) : vtype.ofUnsigned (vtype.code value) = value := by
  unfold ofUnsigned code
  split
  · rw [BitVec.ofNat_toNat, Zcl.Coding.decodeZigzag_setWidth vtype.size_le_width, Zcl.Coding.decodeZigzag_encodeZigzag]
  · rw [BitVec.ofNat_toNat, BitVec.setWidth_eq]

theorem code_ofUnsigned {uvalue : Nat} (h : uvalue < 2 ^ (8 * vtype.size)) : vtype.code (vtype.ofUnsigned uvalue) = uvalue := by
  unfold ofUnsigned code
  split
  · rw [← BitVec.setWidth_ofNat_of_le_of_lt vtype.size_le_width h, Zcl.Coding.decodeZigzag_setWidth vtype.size_le_width,
      Zcl.Coding.encodeZigzag_decodeZigzag, BitVec.toNat_ofNat, Nat.mod_eq_of_lt h]
  · rw [BitVec.toNat_ofNat, Nat.mod_eq_of_lt h]

/-! ### Reading -/

variable {σ : Type} {vtable : ReaderMethods σ} {s : Bytes} {At : σ → Nat → Nat → Prop} {Fetchable : Nat → Nat → Prop}
  {self : σ} {pos last : Nat}

theorem decodeInt_of_fetch {self' : σ} (value : vtype.Value)
    (hfetch : vtable.vFetch (uint64Size (vtype.code value)) self =
      some (some (encodeUint (uint64Size (vtype.code value)) (vtype.code value)), self')) :
    vtype.decodeInt vtable (uint64Size (vtype.code value)) self = some (some value, self') := by
  have hmin := Zcl.Coding.uint64Size_minimal (code_lt_two_pow value)
  have hle := uint64Size_code_le value
  have hnumber : number (encodeUint (uint64Size (vtype.code value)) (vtype.code value)) = vtype.code value := by
    rw [Zcl.Coding.number_encodeUint, Nat.mod_eq_of_lt hmin.2.1]
  unfold decodeInt
  split
  · have hone : uint64Size (vtype.code value) = 1 := by
      have hpos := hmin.1
      omega
    rw [hone] at hfetch hnumber ⊢
    obtain ⟨byte, hbyte⟩ : ∃ byte, encodeUint 1 (vtype.code value) = [byte] := ⟨_, rfl⟩
    rw [hbyte] at hfetch hnumber
    have hval : byte.val = vtype.code value := hnumber
    simp [ReaderMethods.decodeUint8, hfetch, hval, ofUnsigned_code]
  · have hdecode := Zcl.Coding.decodeUint_encodeUint hmin.2.1 ([] : Bytes)
    rw [List.append_nil] at hdecode
    simp only [ReaderMethods.decodeUint, hfetch, Option.bind_eq_bind, Option.bind_some, if_pos hle, hdecode,
      Option.map_some, Answer.map_some, ofUnsigned_code]

theorem decodeInt_code (h : vtable.Lawful s At Fetchable) (hat : At self pos last)
    (hok : ∀ length rest, 0 < length → Fetchable length rest) (value : vtype.Value) {rest : Bytes}
    (hrest : s.drop pos = encodeUint (uint64Size (vtype.code value)) (vtype.code value) ++ rest) :
    ∃ self' last', vtype.decodeInt vtable (uint64Size (vtype.code value)) self = some (some value, self') ∧
      At self' (pos + uint64Size (vtype.code value)) last' := by
  have hmin := Zcl.Coding.uint64Size_minimal (code_lt_two_pow value)
  have hlen : uint64Size (vtype.code value) ≤ (s.drop pos).length := by
    rw [hrest, List.length_append, Zcl.Coding.length_encodeUint]
    exact Nat.le_add_right _ _
  obtain ⟨self', last', heq, hat'⟩ := h.vFetch hat (hok _ _ hmin.1) hlen
  rw [hrest, List.take_left' (Zcl.Coding.length_encodeUint _ _)] at heq
  exact ⟨self', last', decodeInt_of_fetch value heq, hat'⟩

/-- Whatever is read, its code has no more bytes than were taken. -/
theorem decodeInt_located (h : vtable.Lawful s At fun _ _ => True) (hfetch : vtable.fetch = none)
    (hat : ReaderMethods.Located s At self pos) {length : Nat} {value : vtype.Value} {self' : σ}
    (heq : vtype.decodeInt vtable length self = some (some value, self')) :
    ReaderMethods.Located s At self' (pos + length) ∧ uint64Size (vtype.code value) ≤ max 1 length := by
  obtain ⟨uvalue, hread, rfl⟩ := Answer.map_eq_some heq
  have hlocated : ReaderMethods.Located s At self' (pos + length) ∧ length ≤ vtype.size ∧ uvalue < 256 ^ length := by
    split at hread
    · rw [‹vtype.size = 1›]
      exact h.decodeUint8_located hfetch hat hread
    · exact h.decodeUint_located hfetch hat hread
  obtain ⟨hat', hle, hlt⟩ := hlocated
  have hcode : vtype.code (vtype.ofUnsigned uvalue) = uvalue := by
    refine code_ofUnsigned (Nat.lt_of_lt_of_le hlt ?_)
    rw [Nat.pow_mul]
    exact Nat.pow_le_pow_right (by decide) hle
  refine ⟨hat', (Zcl.Coding.uint64Size_minimal (code_lt_two_pow _)).le (Nat.le_max_left _ _) ?_⟩
  rw [hcode]
  exact Nat.lt_of_lt_of_le hlt (Nat.pow_le_pow_right (by decide) (Nat.le_max_right _ _))

end IntType

end RaleighSL.Compiler
