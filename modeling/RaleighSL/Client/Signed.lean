import RaleighSL.Client.Field
import RaleighSL.Compiler.Integers
import RaleighSL.Zcl.Reader.Fetching
import Mathlib.Data.Int.Bitwise

/-!
# Signed values of fields

A signed value is written over 64 bits and read over the bits of its own type. The client works
over integers without a bound.
-/
namespace RaleighSL.Client
open Zcl (Byte Bytes ReaderMethods IovecReader writeField writeFieldInt64)
open Compiler (IntType)
open Zcl.Coding (number uint64Size)

/-! ### The client -/

def encodeZigzag (n : Int) : Int := (n <<< (1 : Nat)).xor (n >>> (63 : Nat))

def decodeZigzag (n : Int) : Int := (n >>> (1 : Nat)).xor (-(n.land 1))

def encodeFieldUint (fieldId value : Nat) : Option Bytes :=
  (encodeField fieldId (uintBytes value)).map (fun header => header ++ encodeUint (uintBytes value) value)

/-- `z_encode_field_int` of an integer whose code is not negative. -/
def encodeFieldInt (fieldId : Nat) (value : Int) : Option Bytes := encodeFieldUint fieldId (encodeZigzag value).toNat

def decodeInt (buf : Bytes) (length : Nat) : Option Int := (decodeUint buf length).map (fun n : Nat => decodeZigzag n)

theorem xor_zero (a : Int) : a.xor 0 = a := by
  cases a with
  | ofNat m => exact congrArg Int.ofNat (Nat.xor_zero m)
  | negSucc m => exact congrArg Int.negSucc (Nat.xor_zero m)

theorem xor_neg_one (a : Int) : a.xor (-1) = -a - 1 := by
  cases a with
  | ofNat m =>
    have hxor : (Int.ofNat m).xor (-1) = Int.negSucc (m ^^^ 0) := rfl
    rw [hxor, Nat.xor_zero, Int.negSucc_eq, Int.ofNat_eq_natCast]
    omega
  | negSucc m =>
    have hxor : (Int.negSucc m).xor (-1) = Int.ofNat (m ^^^ 0) := rfl
    rw [hxor, Nat.xor_zero, Int.negSucc_eq, Int.ofNat_eq_natCast]
    omega

theorem encodeZigzag_eq {n : Int} (hlow : -2 ^ 63 ≤ n) (hhigh : n < 2 ^ 63) :
    encodeZigzag n = if n < 0 then -2 * n - 1 else 2 * n := by
  rw [encodeZigzag, Int.shiftLeft_eq, Int.shiftRight_eq_div_pow]
  split_ifs with hneg
  · have hdiv : n / ((2 ^ 63 : Nat) : Int) = -1 := by omega
    rw [hdiv, xor_neg_one]
    omega
  · have hdiv : n / ((2 ^ 63 : Nat) : Int) = 0 := by omega
    rw [hdiv, xor_zero]
    omega

theorem decodeZigzag_eq (n : Nat) : decodeZigzag n = if n % 2 = 0 then (n / 2 : Int) else -(n / 2 : Int) - 1 := by
  have hland : (n : Int).land 1 = ((n % 2 : Nat) : Int) := by
    show Int.ofNat (n &&& 1) = _
    rw [Nat.and_one_is_mod]
    rfl
  rw [decodeZigzag, hland, Int.shiftRight_eq_div_pow]
  split_ifs with heven
  · rw [heven]
    exact xor_zero _
  · have hodd : n % 2 = 1 := by omega
    rw [hodd]
    exact xor_neg_one _

theorem encodeZigzag_toInt (value : BitVec 64) : encodeZigzag value.toInt = (Zcl.Coding.encodeZigzag value).toNat := by
  have hshift : value.sshiftRight 63 = if value.msb then BitVec.allOnes 64 else 0#64 := by
    apply BitVec.eq_of_getLsbD_eq
    intro i hi
    have hlast : (value.sshiftRight 63).getLsbD i = value.msb := by
      rw [BitVec.getLsbD_sshiftRight]
      by_cases hzero : i = 0
      · subst hzero
        rw [BitVec.msb_eq_getLsbD_last]
        rfl
      · simp [hi, show ¬ 63 + i < 64 by omega]
    rw [hlast]
    cases value.msb with
    | false => rw [if_neg Bool.false_ne_true, BitVec.getLsbD_zero]
    | true => rw [if_pos rfl, BitVec.getLsbD_allOnes, decide_eq_true hi]
  have hlt := value.isLt
  have hlow := value.le_toInt
  have hhigh := value.toInt_lt
  rw [encodeZigzag_eq (by omega) (by omega), Zcl.Coding.encodeZigzag, hshift]
  cases hmsb : value.msb with
  | false =>
    have hnat := BitVec.toInt_eq_toNat_of_msb hmsb
    have hhalf : value.toNat < 2 ^ 63 := by
      rw [BitVec.msb_eq_false_iff_two_mul_lt] at hmsb
      omega
    simp only [Bool.false_eq_true, if_false, BitVec.xor_zero, BitVec.toNat_shiftLeft, Nat.shiftLeft_eq]
    omega
  | true =>
    have hhalf : 2 ^ 63 ≤ value.toNat := by
      rw [BitVec.msb_eq_true_iff_two_mul_ge] at hmsb
      omega
    have hint : value.toInt = value.toNat - 2 ^ 64 := by
      rw [BitVec.toInt_eq_toNat_cond, if_neg (by omega)]
      rfl
    simp only [if_true, BitVec.xor_allOnes, BitVec.toNat_not, BitVec.toNat_shiftLeft, Nat.shiftLeft_eq]
    omega

theorem decodeZigzag_encodeZigzag {n : Int} (hlow : -2 ^ 63 ≤ n) (hhigh : n < 2 ^ 63) :
    decodeZigzag (encodeZigzag n).toNat = n := by
  rw [encodeZigzag_eq hlow hhigh, decodeZigzag_eq]
  split_ifs with hneg heven heven <;> omega

theorem encodeFieldInt_eq {fieldId : Nat} (hid : fieldId < 2 ^ 16) (value : BitVec 64) :
    encodeFieldInt fieldId value.toInt = some (writeFieldInt64 fieldId value) := by
  have hsize := Zcl.Coding.uint64Size_minimal (Zcl.Coding.encodeZigzag value).isLt
  have hle := Zcl.Coding.uint64Size_le (Zcl.Coding.encodeZigzag value).toNat
  rw [encodeFieldInt, encodeZigzag_toInt, Int.toNat_natCast, encodeFieldUint, uintBytes_eq,
    encodeField_eq hid (by omega) hsize.1, encodeUint_eq hle]
  rfl

theorem decodeInt_eq (value : BitVec 64) {code : Nat} (hcode : (Zcl.Coding.encodeZigzag value).toNat = code) (rest : Bytes) :
    decodeInt (Zcl.Coding.encodeUint (uint64Size code) code ++ rest) (uint64Size code) = some value.toInt := by
  subst hcode
  have hsize := Zcl.Coding.uint64Size_minimal (Zcl.Coding.encodeZigzag value).isLt
  have hlow := value.le_toInt
  have hhigh := value.toInt_lt
  have hback := decodeZigzag_encodeZigzag (n := value.toInt) (by omega) (by omega)
  rw [encodeZigzag_toInt, Int.toNat_natCast] at hback
  rw [decodeInt, decodeUint_eq (Zcl.Coding.uint64Size_le _), Zcl.Coding.decodeUint_encodeUint hsize.2.1, Option.map_some,
    hback]

/-! ### Readers -/

variable {σ : Type}

/-- The value is read, and the reader is behind it. -/
def ReadBack (vtype : IntType) (value : vtype.Value) (vtable : ReaderMethods σ) (At : σ → Nat → Prop) (self : σ)
    (pos : Nat) : Prop :=
  ∃ self', vtype.decodeInt vtable (vtype.intSize value) self = some (some value, self') ∧
    At self' (pos + vtype.intSize value)

def payload (vtype : IntType) (value : vtype.Value) : Bytes :=
  Zcl.Coding.encodeUint (vtype.intSize value) (vtype.code value)

variable {vtype : IntType} {value : vtype.Value}

theorem length_payload : (payload vtype value).length = vtype.intSize value := Zcl.Coding.length_encodeUint ..

theorem intSize_pos : 0 < vtype.intSize value := by
  rw [vtype.intSize_eq]
  exact (Zcl.Coding.uint64Size_minimal (vtype.code_lt_two_pow value)).1

theorem writeFieldInt64_eq (hsigned : vtype.signed = true) (fieldId : Nat) :
    writeFieldInt64 fieldId (value.signExtend 64) = writeField fieldId (vtype.intSize value) ++ payload vtype value := by
  have hwrite := vtype.writeInt_eq fieldId value
  rw [IntType.writeInt, if_pos hsigned] at hwrite
  rw [hwrite, payload, vtype.intSize_eq]
  rfl

/-- Every reader that keeps the contract gives the value back. -/
theorem readBack {vtable : ReaderMethods σ} {s : Bytes} {At : σ → Nat → Nat → Prop}
    (h : vtable.Lawful s At (fun _ _ => True)) {self : σ} {pos last : Nat} (hat : At self pos last) {rest : Bytes}
    (hrest : s.drop pos = payload vtype value ++ rest) :
    ReadBack vtype value vtable (fun self pos => ∃ last, At self pos last) self pos := by
  rw [payload, vtype.intSize_eq] at hrest
  obtain ⟨self', last', hread, hat'⟩ := IntType.decodeInt_code h hat (fun _ _ _ => trivial) value hrest
  rw [ReadBack, vtype.intSize_eq]
  exact ⟨self', hread, last', hat'⟩

/-- The iovec reader gives the value back unless its bytes are the last ones and go over the end of a chunk. -/
theorem readBack_iovec_iff {iov : List Bytes} {reader : IovecReader} {pos : Nat} (h : IovecReader.At iov reader pos)
    {rest : Bytes} (hrest : iov.flatten.drop pos = payload vtype value ++ rest) :
    ReadBack vtype value (IovecReader.methods iov) (IovecReader.At iov) reader pos ↔
      rest ≠ [] ∨ vtype.intSize value ≤ reader.left iov := by
  have havail : reader.avail = vtype.intSize value + rest.length := by
    rw [← h.rest_length, hrest, List.length_append, length_payload]
  have hpos : 0 < vtype.intSize value := intSize_pos
  have hcond : vtype.intSize value < reader.avail ↔ rest ≠ [] := by
    rw [← List.length_pos_iff]
    omega
  rw [← hcond, ← h.fetch_isSome_iff hpos (by omega)]
  constructor
  · rintro ⟨self', hread, -⟩
    have hsome : vtype.decodeInt (IovecReader.methods iov) (vtype.intSize value) reader ≠ none := by
      rw [hread]
      simp
    rw [Option.isSome_iff_ne_none]
    intro hnone
    refine hsome ?_
    unfold IntType.decodeInt
    split
    · simp [ReaderMethods.decodeUint8, ReaderMethods.vFetch, IovecReader.methods, hnone]
    · simp [ReaderMethods.decodeUint, ReaderMethods.vFetch, IovecReader.methods, hnone]
  · intro hsome
    obtain ⟨reader', hfetch, hat⟩ := h.fetch_some hpos (by omega) ((h.fetch_isSome_iff hpos (by omega)).mp hsome)
    rw [hrest, List.take_left' length_payload, payload, vtype.intSize_eq] at hfetch
    rw [vtype.intSize_eq] at hat
    rw [ReadBack, vtype.intSize_eq]
    exact ⟨reader', IntType.decodeInt_of_fetch value hfetch, hat⟩

/-- A signed value in a field: its bytes are as many as its size, at most those of its type, the header is read back, every
reader that keeps the contract gives the value back, and the iovec reader does unless the bytes are the last ones of its
chunks and go over the end of one. The client writes and reads the same bytes. -/
theorem signed_field (vtype : IntType) (hsigned : vtype.signed = true) (value : vtype.Value) {fieldId : Nat}
    (hid : fieldId < 2 ^ 16) :
    writeFieldInt64 fieldId (value.signExtend 64) = writeField fieldId (vtype.intSize value) ++ payload vtype value ∧
    (payload vtype value).length = vtype.intSize value ∧ vtype.intSize value ≤ vtype.size ∧
    (∀ rest, Zcl.Coding.decodeField (writeField fieldId (vtype.intSize value) ++ rest)
        (writeField fieldId (vtype.intSize value)).length =
      some (.ok ((writeField fieldId (vtype.intSize value)).length, fieldId, vtype.intSize value))) ∧
    (∀ {σ : Type} {vtable : ReaderMethods σ} {s : Bytes} {At : σ → Nat → Nat → Prop} {self : σ} {pos last : Nat}
      {rest : Bytes},
      vtable.Lawful s At (fun _ _ => True) → At self pos last → s.drop pos = payload vtype value ++ rest →
      ReadBack vtype value vtable (fun self pos => ∃ last, At self pos last) self pos) ∧
    (∀ {iov : List Bytes} {reader : IovecReader} {pos : Nat} {rest : Bytes}, IovecReader.At iov reader pos →
      iov.flatten.drop pos = payload vtype value ++ rest →
      (ReadBack vtype value (IovecReader.methods iov) (IovecReader.At iov) reader pos ↔
        rest ≠ [] ∨ vtype.intSize value ≤ reader.left iov)) ∧
    encodeFieldInt fieldId value.toInt = some (writeFieldInt64 fieldId (value.signExtend 64)) ∧
    ∀ rest, decodeInt (payload vtype value ++ rest) (vtype.intSize value) = some value.toInt := by
  have hwidth : 8 * vtype.size ≤ 64 := Nat.le_trans vtype.size_le_width vtype.width_le
  have hextend : (value.signExtend 64).toInt = value.toInt := BitVec.toInt_signExtend_of_le hwidth
  have hcode : (Zcl.Coding.encodeZigzag (value.signExtend 64)).toNat = vtype.code value := by
    rw [IntType.toNat_encodeZigzag_signExtend hwidth, IntType.code, if_pos hsigned]
  have hsize : vtype.intSize value ≤ vtype.size := by
    rw [vtype.intSize_eq]
    exact vtype.uint64Size_code_le value
  have hlt : vtype.intSize value < 2 ^ 64 := by
    rw [vtype.intSize_eq]
    have hle := Zcl.Coding.uint64Size_le (vtype.code value)
    omega
  refine ⟨writeFieldInt64_eq hsigned fieldId, length_payload, hsize, ?_, ?_, ?_, ?_, ?_⟩
  · exact fun rest => Zcl.Coding.decodeField_encodeField hid hlt intSize_pos (Nat.le_refl _) rest
  · exact fun h hat hrest => readBack h hat hrest
  · exact fun h hrest => readBack_iovec_iff h hrest
  · rw [← hextend]
    exact encodeFieldInt_eq hid _
  · intro rest
    have hdecode := decodeInt_eq (value.signExtend 64) hcode rest
    rw [hextend] at hdecode
    rw [payload, vtype.intSize_eq]
    exact hdecode

/-- The least value of 16 bits, in two chunks and followed by a byte. -/
theorem signed_field_least :
    writeFieldInt64 1 ((32768#16).signExtend 64) = [19, 255, 255] ∧
    ReadBack .int16 32768#16 (IovecReader.methods [[19, 255], [255, 7]]) (IovecReader.At [[19, 255], [255, 7]])
      { ivec := 0, offset := 1, avail := 3 } 1 ∧
    ReadBack .int16 32768#16 { IovecReader.methods [[19, 255], [255]] with fetch := none }
      (fun self pos => ∃ last, IovecReader.Place [[19, 255], [255]] self pos last) { ivec := 0, offset := 1, avail := 2 } 1 ∧
    decodeInt [255, 255] 2 = some (-32768) := by
  obtain ⟨-, -, -, -, hreaders, hiovec, -, hclient⟩ := signed_field .int16 rfl 32768#16 (show 1 < 2 ^ 16 by decide)
  refine ⟨by decide, ?_, ?_, hclient []⟩
  · exact (hiovec ⟨rfl, by decide, rfl⟩ (show _ = _ ++ [7] by decide)).mpr (Or.inl (by decide))
  · have hplace : IovecReader.Place [[19, 255], [255]] { ivec := 0, offset := 1, avail := 2 } 1 0 :=
      ⟨⟨rfl, by decide, rfl⟩, by decide⟩
    exact hreaders (IovecReader.lawful_fallback (by decide)) hplace (show _ = _ ++ [] by decide)

/-- The least value of 16 bits is not read from the last bytes of two chunks. -/
theorem split_value_lost :
    writeFieldInt64 1 ((32768#16).signExtend 64) = [19, 255, 255] ∧
    ¬ ReadBack .int16 32768#16 (IovecReader.methods [[19, 255], [255]]) (IovecReader.At [[19, 255], [255]])
      { ivec := 0, offset := 1, avail := 2 } 1 := by
  refine ⟨by decide, ?_⟩
  rintro ⟨self', hread, -⟩
  have hnone : IntType.int16.decodeInt (IovecReader.methods [[19, 255], [255]]) (IntType.int16.intSize 32768#16)
      { ivec := 0, offset := 1, avail := 2 } = none := by
    decide
  rw [hnone] at hread
  simp at hread

end RaleighSL.Client
