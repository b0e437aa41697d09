import RaleighSL.Zcl.Coding.Int

/-!
# Headers of fields

`io/coding/coding-field.c`: a header has the id of a field and its length. One byte holds both
when the id is at most 13 and the length between 1 and 8; what does not fit follows that byte,
the length before the id.
-/
namespace RaleighSL.Zcl.Coding

/-- `z_encode_field`, over the 64 bits of a length. -/
def encodeField (fieldId length : Nat) : Bytes :=
  let head := if length ≤ 8 then (((length + (2 ^ 64 - 1)) % 2 ^ 64) &&& 0x7) <<< 4
    else 1 <<< 7 ||| ((uint64Size length - 1) &&& 0x7) <<< 4
  let external := if length ≤ 8 then [] else encodeUint (uint64Size length) length
  if fieldId ≤ 13 then Fin.ofNat 256 (head ||| (fieldId + 2)) :: external
  else Fin.ofNat 256 (head ||| (uint32Size fieldId - 1)) :: (external ++ encodeUint (uint32Size fieldId) fieldId)

def encodedFieldLength (fieldId length : Nat) : Nat :=
  1 + (if 8 < length then uint64Size length else 0) + (if 13 < fieldId then uint32Size fieldId else 0)

/-- The second part of `z_decode_field`: the id, after `elength` bytes of the header. -/
def decodeFieldId (buf : Bytes) (buflen elength flen1 length : Nat) : Option (Except Nat (Nat × Nat × Nat)) :=
  if 2 ≤ flen1 then some (.ok (elength, flen1 - 2, length))
  else if buflen < elength + (flen1 + 1) then some (.error (elength + (flen1 + 1)))
  else (decodeUint buf (flen1 + 1)).map (fun fieldId => .ok (elength + (flen1 + 1), fieldId, length))

/-- `z_decode_field`: the number of bytes, the id and the length; an error is minus the result. -/
def decodeField : Bytes → Nat → Option (Except Nat (Nat × Nat × Nat))
  | [], _ => none
  | head :: buf, buflen =>
    let flen0 := 1 + fetchBits head 3 4
    let flen1 := fetchBits head 4 0
    if head.val &&& 1 <<< 7 ≠ 0 then
      if buflen < 1 + flen0 then some (.error (1 + flen0 + if 2 ≤ flen1 then 0 else flen1 + 1))
      else (decodeUint buf flen0).bind (decodeFieldId (buf.drop flen0) buflen (1 + flen0) flen1)
    else decodeFieldId buf buflen 1 flen1 flen0

/-! ### The first byte -/

/-- The first byte of a header: its highest bit, the three bits of a length and the four bits of an id. -/
def fieldHead (external : Bool) (size low : Nat) : Byte :=
  Fin.ofNat 256 ((if external then 1 <<< 7 ||| size <<< 4 else size <<< 4) ||| low)

def headerLength (head : Byte) : Nat :=
  1 + (if head.val &&& 1 <<< 7 ≠ 0 then 1 + fetchBits head 3 4 else 0) +
    (if 2 ≤ fetchBits head 4 0 then 0 else fetchBits head 4 0 + 1)

theorem fieldHead_bits : ∀ (external : Bool) (size : Fin 8) (low : Fin 16),
    ((fieldHead external size low).val &&& 1 <<< 7 ≠ 0 ↔ external = true) ∧
      fetchBits (fieldHead external size low) 3 4 = size ∧ fetchBits (fieldHead external size low) 4 0 = low := by
  decide +kernel

variable {fieldId length : Nat}

def idBits (fieldId : Nat) : Nat := if fieldId ≤ 13 then fieldId + 2 else uint32Size fieldId - 1

def idBytes (fieldId : Nat) : Bytes := if fieldId ≤ 13 then [] else encodeUint (uint32Size fieldId) fieldId

def lengthBits (length : Nat) : Nat :=
  if length ≤ 8 then ((length + (2 ^ 64 - 1)) % 2 ^ 64) &&& 0x7 else (uint64Size length - 1) &&& 0x7

def lengthBytes (length : Nat) : Bytes := if length ≤ 8 then [] else encodeUint (uint64Size length) length

theorem encodeField_eq (fieldId length : Nat) :
    encodeField fieldId length = fieldHead (decide (8 < length)) (lengthBits length) (idBits fieldId) ::
      (lengthBytes length ++ idBytes fieldId) := by
  unfold encodeField fieldHead lengthBits idBits lengthBytes idBytes
  by_cases hlength : length ≤ 8 <;> by_cases hid : fieldId ≤ 13
  all_goals simp [hlength, hid, Nat.not_lt.mpr, Nat.lt_of_not_le]

theorem uint32Size_of_lt (h : fieldId < 2 ^ 16) : uint32Size fieldId ≤ 2 := by
  unfold uint32Size
  simp only [Nat.one_shiftLeft]
  split_ifs <;> omega

theorem idBits_lt (h : fieldId < 2 ^ 16) : idBits fieldId < 16 := by
  have hsize := uint32Size_of_lt h
  unfold idBits
  split <;> omega

theorem two_le_idBits (h : fieldId < 2 ^ 16) : 2 ≤ idBits fieldId ↔ fieldId ≤ 13 := by
  have hsize := uint32Size_of_lt h
  unfold idBits
  split <;> omega

theorem lengthBits_lt (length : Nat) : lengthBits length < 8 := by
  unfold lengthBits
  split <;> exact Nat.lt_of_le_of_lt Nat.and_le_right (by decide)

theorem fieldHead_encodeField (h : fieldId < 2 ^ 16) (length : Nat) :
    ((fieldHead (decide (8 < length)) (lengthBits length) (idBits fieldId)).val &&& 1 <<< 7 ≠ 0 ↔ 8 < length) ∧
      fetchBits (fieldHead (decide (8 < length)) (lengthBits length) (idBits fieldId)) 3 4 = lengthBits length ∧
      fetchBits (fieldHead (decide (8 < length)) (lengthBits length) (idBits fieldId)) 4 0 = idBits fieldId := by
  have hbits := fieldHead_bits (decide (8 < length)) ⟨_, lengthBits_lt length⟩ ⟨_, idBits_lt h⟩
  simpa only [decide_eq_true_eq] using hbits

/-! ### Whole headers -/

theorem decodeFieldId_idBytes (h : fieldId < 2 ^ 16) {buflen elength : Nat}
    (hlen : elength + (idBytes fieldId).length ≤ buflen) (rest : Bytes) (length : Nat) :
    decodeFieldId (idBytes fieldId ++ rest) buflen elength (idBits fieldId) length =
      some (.ok (elength + (idBytes fieldId).length, fieldId, length)) := by
  rw [decodeFieldId]
  by_cases hid : fieldId ≤ 13
  · rw [if_pos ((two_le_idBits h).mpr hid), idBits, idBytes, if_pos hid, if_pos hid]
    rfl
  · have hmin := uint32Size_minimal (Nat.lt_trans h (by decide))
    have hbits : idBits fieldId + 1 = uint32Size fieldId := by
      rw [idBits, if_neg hid, Nat.sub_add_cancel hmin.1]
    have hbytes : idBytes fieldId = encodeUint (uint32Size fieldId) fieldId := if_neg hid
    rw [hbytes, length_encodeUint] at hlen
    rw [if_neg (mt (two_le_idBits h).mp hid), hbits, if_neg (Nat.not_lt.mpr hlen), hbytes,
      decodeUint_encodeUint hmin.2.1, length_encodeUint]
    rfl

theorem lengthBits_succ (h : length ≤ 8) (hpos : 0 < length) : 1 + lengthBits length = length := by
  have hmod : (length + (2 ^ 64 - 1)) % 2 ^ 64 = length - 1 := by omega
  rw [lengthBits, if_pos h, hmod, Nat.and_two_pow_sub_one_eq_mod _ 3]
  omega

theorem uint64Size_bits (h : length < 2 ^ 64) (hgt : 8 < length) : 1 + lengthBits length = uint64Size length := by
  have hmin := (uint64Size_minimal h).1
  have hle := uint64Size_le length
  rw [lengthBits, if_neg (Nat.not_le.mpr hgt), Nat.and_two_pow_sub_one_eq_mod _ 3]
  omega

theorem decodeField_encodeField (hid : fieldId < 2 ^ 16) (hlength : length < 2 ^ 64) (hpos : 0 < length) {buflen : Nat}
    (hlen : (encodeField fieldId length).length ≤ buflen) (rest : Bytes) :
    decodeField (encodeField fieldId length ++ rest) buflen =
      some (.ok ((encodeField fieldId length).length, fieldId, length)) := by
  obtain ⟨hext, hsize, hlow⟩ := fieldHead_encodeField hid length
  rw [encodeField_eq, List.length_cons, List.length_append] at hlen
  rw [encodeField_eq, List.cons_append, decodeField, hsize, hlow, List.length_cons, List.length_append]
  by_cases hgt : 8 < length
  · have hbytes : lengthBytes length = encodeUint (uint64Size length) length := if_neg (Nat.not_le.mpr hgt)
    rw [hbytes, length_encodeUint] at hlen ⊢
    have hdrop : (encodeUint (uint64Size length) length ++ (idBytes fieldId ++ rest)).drop (uint64Size length) =
        idBytes fieldId ++ rest := by
      rw [List.drop_append, List.drop_of_length_le (by simp)]
      simp
    rw [if_pos (hext.mpr hgt), uint64Size_bits hlength hgt, if_neg (by omega), List.append_assoc,
      decodeUint_encodeUint (uint64Size_minimal hlength).2.1, Option.bind_some, hdrop,
      decodeFieldId_idBytes hid (by omega)]
    congr 3
    omega
  · have hle : length ≤ 8 := Nat.not_lt.mp hgt
    have hbytes : lengthBytes length = [] := if_pos hle
    rw [hbytes, List.length_nil] at hlen ⊢
    rw [if_neg (mt hext.mp hgt), lengthBits_succ hle hpos, List.nil_append, decodeFieldId_idBytes hid (by omega)]
    congr 3
    omega

theorem length_encodeField (fieldId length : Nat) :
    (encodeField fieldId length).length = encodedFieldLength fieldId length := by
  rw [encodeField_eq, encodedFieldLength, lengthBytes, idBytes]
  by_cases hlength : length ≤ 8 <;> by_cases hid : fieldId ≤ 13
  all_goals simp [hlength, hid, Nat.not_lt.mpr, Nat.lt_of_not_le]
  all_goals omega

theorem encodedFieldLength_pos (fieldId length : Nat) : 0 < encodedFieldLength fieldId length := by
  unfold encodedFieldLength
  omega

theorem encodedFieldLength_le (h : length ≤ 8) (n : Nat) : encodedFieldLength fieldId length ≤ encodedFieldLength fieldId n := by
  unfold encodedFieldLength
  rw [if_neg (Nat.not_lt.mpr h)]
  omega

/-! ### Parts of a header -/

theorem decodeFieldId_short {buf : Bytes} {buflen elength flen1 : Nat} (hle : elength ≤ buflen)
    (h : buflen < elength + if 2 ≤ flen1 then 0 else flen1 + 1) (length : Nat) :
    decodeFieldId buf buflen elength flen1 length = some (.error (elength + if 2 ≤ flen1 then 0 else flen1 + 1)) := by
  have hlow : ¬ 2 ≤ flen1 := by
    intro htwo
    rw [if_pos htwo] at h
    omega
  rw [if_neg hlow] at h ⊢
  rw [decodeFieldId, if_neg hlow, if_pos h]

theorem decodeField_short {head : Byte} {buf : Bytes} {buflen : Nat} (hmem : buflen ≤ buf.length + 1) (hpos : 0 < buflen)
    (h : buflen < headerLength head) : decodeField (head :: buf) buflen = some (.error (headerLength head)) := by
  rw [decodeField]
  unfold headerLength at h ⊢
  by_cases hext : head.val &&& 1 <<< 7 ≠ 0
  · rw [if_pos hext] at h ⊢
    simp only [if_pos hext]
    by_cases hshort : buflen < 1 + (1 + fetchBits head 3 4)
    · rw [if_pos hshort]
    · have hle : 1 + fetchBits head 3 4 ≤ buf.length := by omega
      rw [if_neg hshort, decodeUint, if_pos hle, Option.bind_some]
      exact decodeFieldId_short (Nat.not_lt.mp hshort) h _
  · rw [if_neg hext] at h ⊢
    simp only [if_neg hext]
    exact decodeFieldId_short hpos h _

theorem headerLength_encodeField (hid : fieldId < 2 ^ 16) (hlength : length < 2 ^ 64) :
    headerLength (fieldHead (decide (8 < length)) (lengthBits length) (idBits fieldId)) =
      encodedFieldLength fieldId length := by
  obtain ⟨hext, hsize, hlow⟩ := fieldHead_encodeField hid length
  have hmin := (uint32Size_minimal (Nat.lt_trans hid (by decide))).1
  rw [headerLength, hsize, hlow, encodedFieldLength]
  have hlengths : (if (fieldHead (decide (8 < length)) (lengthBits length) (idBits fieldId)).val &&& 1 <<< 7 ≠ 0
      then 1 + lengthBits length else 0) = if 8 < length then uint64Size length else 0 := by
    by_cases hgt : 8 < length
    · rw [if_pos (hext.mpr hgt), if_pos hgt, uint64Size_bits hlength hgt]
    · rw [if_neg (mt hext.mp hgt), if_neg hgt]
  have hids : (if 2 ≤ idBits fieldId then 0 else idBits fieldId + 1) =
      if 13 < fieldId then uint32Size fieldId else 0 := by
    by_cases hle : fieldId ≤ 13
    · rw [if_pos ((two_le_idBits hid).mpr hle), if_neg (Nat.not_lt.mpr hle)]
    · rw [if_neg (mt (two_le_idBits hid).mp hle), if_pos (Nat.lt_of_not_le hle), idBits, if_neg hle,
        Nat.sub_add_cancel hmin]
  rw [hlengths, hids]

/-- A part of a header from its start is answered with minus the length of the header. -/
theorem decodeField_prefix (hid : fieldId < 2 ^ 16) (hlength : length < 2 ^ 64) {p q : Bytes}
    (h : encodeField fieldId length = p ++ q) (hp : p ≠ []) (hq : q ≠ []) (rest : Bytes) :
    decodeField (p ++ rest) p.length = some (.error (encodedFieldLength fieldId length)) := by
  have hlen : p.length + q.length = encodedFieldLength fieldId length := by
    rw [← List.length_append, ← h, length_encodeField]
  have hqpos : 0 < q.length := List.length_pos_iff.mpr hq
  rw [← headerLength_encodeField hid hlength] at hlen ⊢
  cases p with
  | nil => exact absurd rfl hp
  | cons b p =>
    rw [encodeField_eq, List.cons_append] at h
    obtain ⟨rfl, -⟩ := List.cons.inj h
    exact decodeField_short (by simp) (Nat.succ_pos _) (by omega)

/-! ### Any header -/

/-- The least number of bytes of a header that is decoded: the length zero does not fit in the first byte. -/
def leastFieldLength (fieldId length : Nat) : Nat := encodedFieldLength fieldId length + if length = 0 then 1 else 0

theorem idBytes_le {buf : Bytes} {buflen elength flen1 length n fieldId length' : Nat} (hflen : flen1 < 16)
    (h : decodeFieldId buf buflen elength flen1 length = some (.ok (n, fieldId, length'))) (hle : elength ≤ buflen) :
    length' = length ∧ n ≤ buflen ∧ elength + (if 13 < fieldId then uint32Size fieldId else 0) ≤ n := by
  rw [decodeFieldId] at h
  by_cases hlow : 2 ≤ flen1
  · rw [if_pos hlow] at h
    cases h
    rw [if_neg (by omega)]
    exact ⟨rfl, hle, Nat.le_refl _⟩
  · rw [if_neg hlow] at h
    by_cases hshort : buflen < elength + (flen1 + 1)
    · rw [if_pos hshort] at h
      cases h
    · rw [if_neg hshort, decodeUint] at h
      by_cases hmem : flen1 + 1 ≤ buf.length
      · rw [if_pos hmem] at h
        cases h
        have hlt := number_lt (buf.take (flen1 + 1))
        rw [List.length_take_of_le hmem] at hlt
        have hpow : 256 ^ (flen1 + 1) ≤ 256 ^ 2 := Nat.pow_le_pow_right (by decide) (by omega)
        have hsize := (uint32Size_minimal (Nat.lt_of_lt_of_le hlt (Nat.le_trans hpow (by decide)))).le (by omega) hlt
        refine ⟨rfl, Nat.not_lt.mp hshort, ?_⟩
        split <;> omega
      · rw [if_neg hmem] at h
        cases h

/-- What is decoded was in the buffer, and took the bytes its id and its length need. -/
theorem leastFieldLength_le {buf : Bytes} {buflen n fieldId length : Nat} (hpos : 0 < buflen)
    (h : decodeField buf buflen = some (.ok (n, fieldId, length))) :
    leastFieldLength fieldId length ≤ n ∧ n ≤ buflen := by
  cases buf with
  | nil => cases h
  | cons head buf =>
    have hflen0 := fetchBits_lt head 3 4
    have hflen1 := fetchBits_lt head 4 0
    rw [decodeField] at h
    rw [leastFieldLength, encodedFieldLength]
    by_cases hext : head.val &&& 1 <<< 7 ≠ 0
    · simp only [if_pos hext] at h
      by_cases hshort : buflen < 1 + (1 + fetchBits head 3 4)
      · rw [if_pos hshort] at h
        cases h
      · rw [if_neg hshort, decodeUint] at h
        by_cases hmem : 1 + fetchBits head 3 4 ≤ buf.length
        · rw [if_pos hmem, Option.bind_some] at h
          obtain ⟨rfl, hn, hid⟩ := idBytes_le hflen1 h (Nat.not_lt.mp hshort)
          have hlt := number_lt (buf.take (1 + fetchBits head 3 4))
          rw [List.length_take_of_le hmem] at hlt
          have hpow : 256 ^ (1 + fetchBits head 3 4) ≤ 256 ^ 8 := Nat.pow_le_pow_right (by decide) (by omega)
          have hsize := (uint64Size_minimal (Nat.lt_of_lt_of_le hlt hpow)).le (by omega) hlt
          refine ⟨?_, hn⟩
          split_ifs at hid ⊢ <;> omega
        · rw [if_neg hmem] at h
          cases h
    · simp only [if_neg hext] at h
      obtain ⟨rfl, hn, hid⟩ := idBytes_le hflen1 h hpos
      refine ⟨?_, hn⟩
      split_ifs at hid ⊢ <;> omega

theorem encodeField_zero (fieldId : Nat) : encodeField fieldId 0 = encodeField fieldId 8 := rfl

end RaleighSL.Zcl.Coding
