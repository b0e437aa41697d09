import RaleighSL.Zcl.Map
import Mathlib.Data.Nat.Bitwise
import Mathlib.Tactic.Ring

/-!
# Integers in bytes

`io/coding/coding-int.c`: the width of an integer, its bytes with the lowest first, and the
encoding with seven bits in a byte. A decoder that reads behind the memory it is given has no
result.
-/
namespace RaleighSL.Zcl.Coding

def fetchBits (byte : Byte) (nbits pos : Nat) : Nat := (byte.val &&& ((1 <<< nbits) - 1) <<< pos) >>> pos

def uint32Size (value : Nat) : Nat :=
  if value < 1 <<< 8 then 1
  else if value < 1 <<< 16 then 2
  else if value < 1 <<< 24 then 3
  else 4

def uint64Size (value : Nat) : Nat :=
  if value < 1 <<< 32 then
    if value < 1 <<< 8 then 1
    else if value < 1 <<< 16 then 2
    else if value < 1 <<< 24 then 3
    else 4
  else if value < 1 <<< 40 then 5
  else if value < 1 <<< 48 then 6
  else if value < 1 <<< 56 then 7
  else 8

def encodeUint (length value : Nat) : Bytes := (List.range length).map (fun i => Fin.ofNat 256 (value >>> (8 * i)))

def number : Bytes → Nat
  | [] => 0
  | b :: buf => b.val + 256 * number buf

/-- `z_decode_uint64`, and `z_decode_uint16` and `z_decode_uint32` for the widths of their values. -/
def decodeUint (buf : Bytes) (length : Nat) : Option Nat :=
  if length ≤ buf.length then some (number (buf.take length)) else none

/-! ### Seven bits in a byte -/

def vintSize (value : Nat) : Nat :=
  if value < 1 <<< 35 then
    if value < 1 <<< 7 then 1
    else if value < 1 <<< 14 then 2
    else if value < 1 <<< 21 then 3
    else if value < 1 <<< 28 then 4
    else 5
  else if value < 1 <<< 42 then 6
  else if value < 1 <<< 49 then 7
  else if value < 1 <<< 56 then 8
  else if value < 1 <<< 63 then 9
  else 10

def encodeVint (value : Nat) : Bytes :=
  if 128 ≤ value then Fin.ofNat 256 ((value &&& 0x7f) ||| 128) :: encodeVint (value >>> 7)
  else [Fin.ofNat 256 (value &&& 0x7f)]
termination_by value
decreasing_by
  rw [Nat.shiftRight_eq_div_pow]
  omega

/-- The loop of `z_decode_vint` over 64 bits. Without a value it returns -1. -/
def decodeVintFrom (buflen : Nat) : Bytes → Nat → Nat → Nat → Option (Option (Nat × Nat))
  | [], shift, _, count => if shift ≤ 63 ∧ count < buflen then none else some none
  | b :: buf, shift, result, count =>
    if shift ≤ 63 ∧ count < buflen then
      if b.val &&& 128 ≠ 0 then
        decodeVintFrom buflen buf (shift + 7) (result ||| (((b.val &&& 0x7f) <<< shift) % 2 ^ 64)) (count + 1)
      else some (some (result ||| ((b.val <<< shift) % 2 ^ 64), count + 1))
    else some none

/-- `z_decode_vint`: the value and the number of bytes. -/
def decodeVint (buf : Bytes) (buflen : Nat) : Option (Option (Nat × Nat)) := decodeVintFrom buflen buf 0 0 0

/-! ### Widths -/

theorem fetchBits_eq (byte : Byte) (nbits pos : Nat) : fetchBits byte nbits pos = byte.val / 2 ^ pos % 2 ^ nbits := by
  rw [fetchBits, Nat.shiftRight_and_distrib, Nat.shiftLeft_shiftRight, Nat.one_shiftLeft,
    Nat.and_two_pow_sub_one_eq_mod, Nat.shiftRight_eq_div_pow]

theorem fetchBits_lt (byte : Byte) (nbits pos : Nat) : fetchBits byte nbits pos < 2 ^ nbits := by
  rw [fetchBits_eq]
  exact Nat.mod_lt _ (Nat.two_pow_pos nbits)

@[simp] theorem length_encodeUint (length value : Nat) : (encodeUint length value).length = length := by
  simp [encodeUint]

theorem encodeUint_succ (length value : Nat) :
    encodeUint (length + 1) value = Fin.ofNat 256 value :: encodeUint length (value / 256) := by
  rw [encodeUint, List.range_succ_eq_map, List.map_cons, List.map_map, encodeUint]
  refine congrArg (List.cons _) (List.map_congr_left (fun i _ => ?_))
  have hshift : value >>> (8 * (i + 1)) = (value / 256) >>> (8 * i) := by
    rw [Nat.mul_succ, Nat.add_comm, Nat.shiftRight_add, Nat.shiftRight_eq_div_pow value 8]
  exact congrArg (Fin.ofNat 256) hshift

theorem number_encodeUint (length value : Nat) : number (encodeUint length value) = value % 256 ^ length := by
  induction length generalizing value with
  | zero => simp [encodeUint, number, Nat.mod_one]
  | succ length ih =>
    have hbyte : (Fin.ofNat 256 value).val = value % 256 := rfl
    rw [encodeUint_succ, number, ih, hbyte, Nat.pow_succ, Nat.mul_comm (256 ^ length) 256, Nat.mod_mul]

theorem number_lt (buf : Bytes) : number buf < 256 ^ buf.length := by
  induction buf with
  | nil => exact Nat.one_pos
  | cons b buf ih =>
    have hb := b.isLt
    rw [number, List.length_cons, Nat.pow_succ]
    omega

theorem decodeUint_encodeUint {length value : Nat} (h : value < 256 ^ length) (rest : Bytes) :
    decodeUint (encodeUint length value ++ rest) length = some value := by
  have htake : (encodeUint length value ++ rest).take length = encodeUint length value := by
    rw [List.take_append_of_le_length (by simp), List.take_of_length_le (by simp)]
  rw [decodeUint, if_pos (by simp), htake, number_encodeUint, Nat.mod_eq_of_lt h]

theorem decodeUint_append {buf : Bytes} {length : Nat} (h : length ≤ buf.length) (rest : Bytes) :
    decodeUint (buf ++ rest) length = decodeUint buf length := by
  rw [decodeUint, decodeUint, if_pos h, if_pos (by rw [List.length_append]; omega), List.take_append_of_le_length h]

/-- A width is the least one that has room for a value, and at least one byte. -/
def Minimal (size value : Nat) : Prop := 1 ≤ size ∧ value < 256 ^ size ∧ (1 < size → 256 ^ (size - 1) ≤ value)

theorem Minimal.le {size value n : Nat} (h : Minimal size value) (hn : 1 ≤ n) (hlt : value < 256 ^ n) : size ≤ n := by
  by_contra hgt
  have hpow : 256 ^ n ≤ 256 ^ (size - 1) := Nat.pow_le_pow_right (by decide) (by omega)
  exact absurd hlt (Nat.not_lt.mpr (Nat.le_trans hpow (h.2.2 (by omega))))

theorem uint32Size_minimal {value : Nat} (h : value < 2 ^ 32) : Minimal (uint32Size value) value := by
  unfold uint32Size
  simp only [Nat.one_shiftLeft]
  split_ifs <;> refine ⟨by decide, by omega, by omega⟩

theorem uint64Size_minimal {value : Nat} (h : value < 2 ^ 64) : Minimal (uint64Size value) value := by
  unfold uint64Size
  simp only [Nat.one_shiftLeft]
  split_ifs <;> refine ⟨by decide, by omega, by omega⟩

/-- The widths agree on the values both take. -/
theorem uint64Size_eq_uint32Size {value : Nat} (h : value < 2 ^ 32) : uint64Size value = uint32Size value := if_pos h

theorem uint32Size_le (value : Nat) : uint32Size value ≤ 4 := by
  unfold uint32Size
  split_ifs <;> decide

theorem uint64Size_le (value : Nat) : uint64Size value ≤ 8 := by
  unfold uint64Size
  split_ifs <;> decide

/-! ### The encoding with seven bits in a byte -/

theorem encodeVint_of_lt {value : Nat} (h : value < 128) : encodeVint value = [Fin.ofNat 256 value] := by
  have hand : value &&& 0x7f = value := by
    rw [Nat.and_two_pow_sub_one_eq_mod value 7, Nat.mod_eq_of_lt h]
  rw [encodeVint, if_neg (Nat.not_le.mpr h), hand]

theorem encodeVint_of_le {value : Nat} (h : 128 ≤ value) :
    encodeVint value = Fin.ofNat 256 (value % 128 + 128) :: encodeVint (value / 128) := by
  have hand : (value &&& 0x7f) ||| 128 = value % 128 + 128 := by
    rw [Nat.and_two_pow_sub_one_eq_mod value 7, Nat.or_comm]
    have hlt : value % 2 ^ 7 < 2 ^ 7 := Nat.mod_lt value (by decide)
    exact (Nat.two_pow_add_eq_or_of_lt hlt 1).symm.trans (Nat.add_comm _ _)
  rw [encodeVint, if_pos h, hand, Nat.shiftRight_eq_div_pow]

/-- The bytes of an encoding: all but the last have the highest bit. -/
theorem encodeVint_eq_append (value : Nat) :
    ∃ front last, encodeVint value = front ++ [last] ∧ ∀ b ∈ front, 128 ≤ b.val := by
  induction value using Nat.strongRecOn with
  | ind value ih =>
    by_cases h : value < 128
    · exact ⟨[], _, encodeVint_of_lt h, by simp⟩
    · obtain ⟨front, last, heq, hfront⟩ := ih (value / 128) (by omega)
      refine ⟨_ :: front, last, by rw [encodeVint_of_le (by omega), heq]; rfl, ?_⟩
      intro b hb
      obtain rfl | hb := List.mem_cons.mp hb
      · show 128 ≤ (value % 128 + 128) % 256
        omega
      · exact hfront b hb

theorem length_encodeVint {value n : Nat} (hlt : value < 128 ^ (n + 1)) (hle : n = 0 ∨ 128 ^ n ≤ value) :
    (encodeVint value).length = n + 1 := by
  induction n generalizing value with
  | zero => rw [encodeVint_of_lt (by simpa using hlt), List.length_singleton]
  | succ n ih =>
    have hpow : 128 ^ (n + 1) ≤ value := by simpa using hle
    have hge : 128 ≤ value := by
      calc 128 = 128 ^ 1 := rfl
        _ ≤ 128 ^ (n + 1) := Nat.pow_le_pow_right (by decide) (by omega)
        _ ≤ value := hpow
    rw [encodeVint_of_le hge, List.length_cons, ih]
    · rw [Nat.div_lt_iff_lt_mul (by decide), ← Nat.pow_succ]
      exact hlt
    · right
      rw [Nat.le_div_iff_mul_le (by decide), ← Nat.pow_succ]
      exact hpow

theorem vintSize_eq {value : Nat} (h : value < 2 ^ 64) : vintSize value = (encodeVint value).length := by
  unfold vintSize
  simp only [Nat.one_shiftLeft]
  split_ifs
  · exact (length_encodeVint (n := 0) (by omega) (by omega)).symm
  · exact (length_encodeVint (n := 1) (by omega) (by omega)).symm
  · exact (length_encodeVint (n := 2) (by omega) (by omega)).symm
  · exact (length_encodeVint (n := 3) (by omega) (by omega)).symm
  · exact (length_encodeVint (n := 4) (by omega) (by omega)).symm
  · exact (length_encodeVint (n := 5) (by omega) (by omega)).symm
  · exact (length_encodeVint (n := 6) (by omega) (by omega)).symm
  · exact (length_encodeVint (n := 7) (by omega) (by omega)).symm
  · exact (length_encodeVint (n := 8) (by omega) (by omega)).symm
  · exact (length_encodeVint (n := 9) (by omega) (by omega)).symm

theorem and_128_ne_zero : ∀ b : Byte, b.val &&& 128 ≠ 0 ↔ 128 ≤ b.val := by decide +kernel

theorem or_shiftLeft {result shift : Nat} (h : result < 2 ^ shift) (x : Nat) :
    result ||| x <<< shift = result + x * 2 ^ shift := by
  rw [Nat.or_comm, ← Nat.shiftLeft_add_eq_or_of_lt h, Nat.shiftLeft_eq, Nat.add_comm]

theorem decodeVintFrom_encodeVint {value shift result count buflen : Nat} (rest : Bytes) (hshift : shift ≤ 63)
    (hresult : result < 2 ^ shift) (hvalue : value * 2 ^ shift < 2 ^ 64)
    (hlen : count + (encodeVint value).length ≤ buflen) :
    decodeVintFrom buflen (encodeVint value ++ rest) shift result count =
      some (some (result + value * 2 ^ shift, count + (encodeVint value).length)) := by
  induction value using Nat.strongRecOn generalizing shift result count with
  | ind value ih =>
    by_cases h : value < 128
    · rw [encodeVint_of_lt h] at hlen ⊢
      have hval : (Fin.ofNat 256 value).val = value := Nat.mod_eq_of_lt (by omega)
      have hbit : ¬ ((Fin.ofNat 256 value).val &&& 128 ≠ 0) := by
        rw [and_128_ne_zero, hval]
        omega
      have hmod : (value <<< shift) % 2 ^ 64 = value <<< shift := by
        rw [Nat.shiftLeft_eq, Nat.mod_eq_of_lt hvalue]
      rw [List.singleton_append, decodeVintFrom, if_pos ⟨hshift, hlen⟩, if_neg hbit, hval, hmod, or_shiftLeft hresult]
      rfl
    · rw [encodeVint_of_le (by omega), List.length_cons] at hlen
      rw [encodeVint_of_le (by omega)]
      have hval : (Fin.ofNat 256 (value % 128 + 128)).val = value % 128 + 128 := Nat.mod_eq_of_lt (by omega)
      have hbit : (Fin.ofNat 256 (value % 128 + 128)).val &&& 128 ≠ 0 := by
        rw [and_128_ne_zero, hval]
        omega
      have hand : (value % 128 + 128) &&& 0x7f = value % 128 := by
        rw [Nat.and_two_pow_sub_one_eq_mod _ 7]
        omega
      have hpos : 0 < 2 ^ shift := Nat.two_pow_pos shift
      have hlow : value % 128 * 2 ^ shift < 2 ^ 64 :=
        Nat.lt_of_le_of_lt (Nat.mul_le_mul_right _ (Nat.mod_le value 128)) hvalue
      have hmod : ((value % 128) <<< shift) % 2 ^ 64 = (value % 128) <<< shift := by
        rw [Nat.shiftLeft_eq, Nat.mod_eq_of_lt hlow]
      have hpow : 2 ^ (shift + 7) = 2 ^ shift * 128 := by rw [Nat.pow_add]
      have hsplit : value % 128 * 2 ^ shift + value / 128 * (2 ^ shift * 128) = value * 2 ^ shift := by
        calc value % 128 * 2 ^ shift + value / 128 * (2 ^ shift * 128)
            = (128 * (value / 128) + value % 128) * 2 ^ shift := by ring
          _ = value * 2 ^ shift := by rw [Nat.div_add_mod]
      have hnext : shift + 7 ≤ 63 := by
        by_contra hgt
        have hge : 2 ^ 64 ≤ 2 ^ (shift + 7) := Nat.pow_le_pow_right (by decide) (by omega)
        have hmul : 128 * 2 ^ shift ≤ value * 2 ^ shift := Nat.mul_le_mul_right _ (by omega)
        rw [hpow, Nat.mul_comm] at hge
        omega
      rw [List.cons_append, decodeVintFrom, if_pos ⟨hshift, by omega⟩, if_pos hbit, hval, hand, hmod,
        or_shiftLeft hresult, ih (value / 128) (by omega) hnext]
      · rw [hpow, List.length_cons, Nat.add_assoc, hsplit]
        congr 3
        omega
      · rw [hpow]
        have hle : value % 128 * 2 ^ shift ≤ 127 * 2 ^ shift := Nat.mul_le_mul_right _ (by omega)
        omega
      · rw [hpow]
        omega
      · omega

theorem decodeVint_encodeVint {value buflen : Nat} (h : value < 2 ^ 64) (hlen : (encodeVint value).length ≤ buflen)
    (rest : Bytes) : decodeVint (encodeVint value ++ rest) buflen = some (some (value, (encodeVint value).length)) := by
  rw [decodeVint, decodeVintFrom_encodeVint rest (by decide) (by decide) (by simpa using h) (by omega)]
  simp

theorem decodeVintFrom_front {front : Bytes} (h : ∀ b ∈ front, 128 ≤ b.val) (rest : Bytes) (shift result count : Nat) :
    decodeVintFrom (count + front.length) (front ++ rest) shift result count = some none := by
  induction front generalizing shift result count with
  | nil => cases rest <;> simp [decodeVintFrom]
  | cons b front ih =>
    have hbit := (and_128_ne_zero b).mpr (h b List.mem_cons_self)
    have hlen : count + (b :: front).length = count + 1 + front.length := by
      rw [List.length_cons, Nat.add_right_comm, Nat.add_assoc]
    rw [List.cons_append, decodeVintFrom, if_pos hbit, hlen]
    split
    · exact ih (fun c hc => h c (List.mem_cons_of_mem _ hc)) _ _ _
    · rfl

theorem decodeVint_prefix {value : Nat} {p q : Bytes} (h : encodeVint value = p ++ q) (hq : q ≠ []) (rest : Bytes) :
    decodeVint (p ++ rest) p.length = some none := by
  obtain ⟨front, last, heq, hfront⟩ := encodeVint_eq_append value
  have hp : ∀ b ∈ p, 128 ≤ b.val := by
    obtain ⟨q', z, rfl⟩ := List.eq_nil_or_concat' q |>.resolve_left hq
    rw [heq, ← List.append_assoc] at h
    obtain ⟨rfl, -⟩ := List.append_inj' h rfl
    exact fun b hb => hfront b (List.mem_append_left _ hb)
  rw [decodeVint, ← Nat.zero_add p.length]
  exact decodeVintFrom_front hp rest 0 0 0

theorem decodeVintFrom_isSome {buf : Bytes} {buflen count : Nat} (h : min buflen 10 ≤ count + buf.length) (result : Nat) :
    (decodeVintFrom buflen buf (7 * count) result count).isSome := by
  induction buf generalizing count result with
  | nil =>
    rw [List.length_nil] at h
    rw [decodeVintFrom, if_neg (by omega)]
    rfl
  | cons b buf ih =>
    rw [List.length_cons] at h
    have hnext : min buflen 10 ≤ count + 1 + buf.length := by omega
    rw [decodeVintFrom]
    split
    · split
      · exact ih hnext _
      · rfl
    · rfl

/-- The decoder reads at most ten bytes, and none behind `buflen`. -/
theorem decodeVint_isSome {buf : Bytes} {buflen : Nat} (h : min buflen 10 ≤ buf.length) :
    (decodeVint buf buflen).isSome := decodeVintFrom_isSome (by omega : min buflen 10 ≤ 0 + buf.length) 0

end RaleighSL.Zcl.Coding
