import RaleighSL.Client.Coding
import RaleighSL.Zcl.Coding.Field

/-!
# Headers of fields in the client

The header of a field is written and read in `io/coding/coding-field.c` and in the client. They
agree on every header, and a header is read back for every length but zero, which is written as
the length eight.
-/
namespace RaleighSL.Client
open Zcl (Byte Bytes)
open Zcl.Coding (fetchBits encodedFieldLength uint32Size uint64Size)

/-- `z_encode_field`, none for a failed assertion. -/
def encodeField (fieldId length : Nat) : Option Bytes :=
  if 0 < length then
    let head := if length ≤ 8 then ((length - 1) &&& 0x7) <<< 4
      else 1 <<< 7 ||| ((uintBytes length - 1) &&& 0x7) <<< 4
    let external := if length ≤ 8 then [] else encodeUint (uintBytes length) length
    some (if fieldId ≤ 13 then Fin.ofNat 256 (head ||| (fieldId + 2)) :: external
      else Fin.ofNat 256 (head ||| (uintBytes fieldId - 1)) :: (external ++ encodeUint (uintBytes fieldId) fieldId))
  else none

/-- The second part of `z_decode_field`: the id, after `elength` bytes of the header. -/
def decodeFieldId (buf : Bytes) (elength flen length : Nat) : Option (Option (Nat × Nat × Nat)) :=
  if 2 ≤ flen then some (some (elength, flen - 2, length))
  else if buf.length < elength + (flen + 1) then some none
  else (decodeUint (buf.drop elength) (flen + 1)).map (fun fieldId => some (elength + (flen + 1), fieldId, length))

/-- `z_decode_field`, none for an index error: the number of bytes, the id and the length. -/
def decodeField : Bytes → Option (Option (Nat × Nat × Nat))
  | [] => none
  | head :: buf =>
    let flen := 1 + fetchBits head 3 4
    if head.val &&& 1 <<< 7 ≠ 0 then
      if (head :: buf).length < 1 + flen then some none
      else (decodeUint buf flen).bind (decodeFieldId (head :: buf) (1 + flen) (fetchBits head 4 0))
    else decodeFieldId (head :: buf) 1 (fetchBits head 4 0) flen

theorem encodeField_eq {fieldId length : Nat} (hid : fieldId < 2 ^ 16) (hlength : length < 2 ^ 64) (hpos : 0 < length) :
    encodeField fieldId length = some (Zcl.Coding.encodeField fieldId length) := by
  have hmod : length ≤ 8 → (length + (2 ^ 64 - 1)) % 2 ^ 64 = length - 1 := by omega
  have hsize := Zcl.Coding.uint64Size_le length
  have hidsize : uintBytes fieldId = uint32Size fieldId := Zcl.Coding.uint64Size_eq_uint32Size (Nat.lt_trans hid (by decide))
  have hidle := Zcl.Coding.uint32Size_of_lt hid
  rw [encodeField, if_pos hpos, Zcl.Coding.encodeField, hidsize, uintBytes_eq, encodeUint_eq hsize,
    encodeUint_eq (by omega)]
  by_cases hle : length ≤ 8
  · simp only [if_pos hle, hmod hle]
  · simp only [if_neg hle]

theorem decodeFieldId_eq (buf : Bytes) (elength : Nat) {flen : Nat} (h : flen < 16) (length : Nat) :
    decodeFieldId buf elength flen length =
      (Zcl.Coding.decodeFieldId (buf.drop elength) buf.length elength flen length).map Except.toOption := by
  rw [decodeFieldId, Zcl.Coding.decodeFieldId]
  split
  · rfl
  · split
    · rfl
    · rw [decodeUint_eq (by omega), Option.map_map]
      rfl

theorem decodeField_eq (buf : Bytes) :
    decodeField buf = (Zcl.Coding.decodeField buf buf.length).map Except.toOption := by
  cases buf with
  | nil => rfl
  | cons head buf =>
    have hsize := Zcl.Coding.fetchBits_lt head 3 4
    have hlow := Zcl.Coding.fetchBits_lt head 4 0
    rw [decodeField, Zcl.Coding.decodeField, decodeUint_eq (by omega)]
    split
    · split
      · rfl
      · rw [Option.map_bind]
        refine congrArg _ (funext fun length => ?_)
        rw [decodeFieldId_eq _ _ hlow, Nat.add_comm 1, List.drop_succ_cons]
        rfl
    · exact decodeFieldId_eq (head :: buf) 1 hlow _

/-- The header of a field: what is written is read back with any bytes after it, has the announced
number of bytes, a part of it is answered with minus that number, and the client writes and
accepts the same bytes. -/
def HeaderAgrees (fieldId length : Nat) : Prop :=
  (∀ rest buflen, (Zcl.Coding.encodeField fieldId length).length ≤ buflen →
    Zcl.Coding.decodeField (Zcl.Coding.encodeField fieldId length ++ rest) buflen =
      some (.ok ((Zcl.Coding.encodeField fieldId length).length, fieldId, length))) ∧
  (Zcl.Coding.encodeField fieldId length).length = encodedFieldLength fieldId length ∧
  (∀ p q rest, Zcl.Coding.encodeField fieldId length = p ++ q → p ≠ [] → q ≠ [] →
    Zcl.Coding.decodeField (p ++ rest) p.length = some (.error (encodedFieldLength fieldId length))) ∧
  encodeField fieldId length = some (Zcl.Coding.encodeField fieldId length) ∧
  ∀ buf, decodeField buf = (Zcl.Coding.decodeField buf buf.length).map Except.toOption

/-- A header is read back, by both decoders and from both encoders, unless its length is zero. -/
theorem header_agrees_iff {fieldId length : Nat} (hid : fieldId < 2 ^ 16) (hlength : length < 2 ^ 64) :
    HeaderAgrees fieldId length ↔ length ≠ 0 := by
  constructor
  · rintro ⟨hround, -⟩ rfl
    have height := Zcl.Coding.decodeField_encodeField hid (by decide : 8 < 2 ^ 64) (by decide) (Nat.le_refl _) []
    have hzero := hround [] _ (Nat.le_refl _)
    rw [Zcl.Coding.encodeField_zero, height] at hzero
    simp at hzero
  · intro hne
    have hpos := Nat.pos_of_ne_zero hne
    exact ⟨fun rest buflen hlen => Zcl.Coding.decodeField_encodeField hid hlength hpos hlen rest,
      Zcl.Coding.length_encodeField fieldId length,
      fun p q rest hpq hp hq => Zcl.Coding.decodeField_prefix hid hlength hpq hp hq rest,
      encodeField_eq hid hlength hpos, decodeField_eq⟩

theorem header_agrees_nine : HeaderAgrees 300 9 := (header_agrees_iff (by decide) (by decide)).mpr (by decide)

/-- The empty field 0 is read back with eight bytes. -/
theorem empty_field_read_as_eight_bytes :
    Zcl.Coding.decodeField (Zcl.Coding.encodeField 0 0) 1 = some (.ok (1, 0, 8)) ∧ ¬ HeaderAgrees 0 0 :=
  ⟨by decide, fun h => absurd (h.1 [] 1 (by decide)) (by decide)⟩

end RaleighSL.Client
