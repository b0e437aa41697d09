import Mathlib.Data.BitVec

/-!
# Signed integers

`io/coding/coding.h`: a signed integer is encoded as an unsigned one that is small if it is close to
zero. The macros work over the bits of their argument, so the same number may go through 32 bits in
one place and through 64 in another.
-/
namespace RaleighSL.Zcl.Coding

variable {w v : Nat}

def encodeZigzag (n : BitVec w) : BitVec w := (n <<< 1) ^^^ n.sshiftRight (w - 1)

def decodeZigzag (n : BitVec w) : BitVec w := (n >>> 1) ^^^ -(n &&& 1#w)

theorem neg_and_one (n : BitVec w) : -(n &&& 1#w) = if n.getLsbD 0 then BitVec.allOnes w else 0#w := by
  have hone : n &&& 1#w = if n.getLsbD 0 then 1#w else 0#w := by
    apply BitVec.eq_of_getLsbD_eq
    intro i hi
    by_cases h : n.getLsbD 0
    · rw [if_pos h, BitVec.getLsbD_and]
      cases i with
      | zero => simp [h]
      | succ i => simp [BitVec.getLsbD_one]
    · rw [if_neg h, BitVec.getLsbD_and]
      cases i with
      | zero => simp [Bool.eq_false_iff.mpr h]
      | succ i => simp [BitVec.getLsbD_one]
  rw [hone]
  split_ifs
  · exact BitVec.neg_one_eq_allOnes
  · simp

theorem getLsbD_encodeZigzag (n : BitVec w) (i : Nat) :
    (encodeZigzag n).getLsbD i = (decide (i < w) && (((decide (0 < i)) && n.getLsbD (i - 1)) ^^ n.msb)) := by
  rw [encodeZigzag, BitVec.getLsbD_xor, BitVec.getLsbD_shiftLeft, BitVec.getLsbD_sshiftRight]
  by_cases hi : i < w
  · by_cases hz : i = 0
    · subst hz
      have hw : w ≠ 0 := Nat.ne_of_gt hi
      simp [hi, hw, BitVec.msb_eq_getLsbD_last]
    · have hpos : 0 < i := Nat.pos_of_ne_zero hz
      simp [hi, hpos, Nat.not_lt.mpr hpos, show ¬ w - 1 + i < w by omega, show ¬ w ≤ i by omega]
  · simp [hi, Nat.not_lt.mp hi]

theorem getLsbD_decodeZigzag (n : BitVec w) (i : Nat) :
    (decodeZigzag n).getLsbD i = (decide (i < w) && (n.getLsbD (i + 1) ^^ n.getLsbD 0)) := by
  rw [decodeZigzag, BitVec.getLsbD_xor, BitVec.getLsbD_ushiftRight, neg_and_one, Nat.add_comm 1 i]
  by_cases hi : i < w
  · split_ifs with h <;> simp [hi, h]
  · have hout : n.getLsbD (i + 1) = false := BitVec.getLsbD_of_ge _ _ (by omega)
    split_ifs with h <;> simp [hi, hout]

theorem decodeZigzag_encodeZigzag (n : BitVec w) : decodeZigzag (encodeZigzag n) = n := by
  apply BitVec.eq_of_getLsbD_eq
  intro i hi
  rw [getLsbD_decodeZigzag, getLsbD_encodeZigzag, getLsbD_encodeZigzag]
  have hw : 0 < w := by omega
  by_cases hlast : i + 1 < w
  · simp [hi, hw, hlast]
  · have hmsb : n.msb = n.getLsbD i := by
      rw [BitVec.msb_eq_getLsbD_last]
      congr 1
      omega
    simp [hi, hw, hlast, hmsb]

theorem encodeZigzag_decodeZigzag (n : BitVec w) : encodeZigzag (decodeZigzag n) = n := by
  apply BitVec.eq_of_getLsbD_eq
  intro i hi
  have hlast : w - 1 < w := by omega
  have hmsb : (decodeZigzag n).msb = n.getLsbD 0 := by
    rw [BitVec.msb_eq_getLsbD_last, getLsbD_decodeZigzag, BitVec.getLsbD_of_ge n (w - 1 + 1) (by omega)]
    simp [hlast]
  rw [getLsbD_encodeZigzag, hmsb, getLsbD_decodeZigzag]
  cases i with
  | zero => simp [hi]
  | succ i => simp [hi, Nat.lt_of_succ_lt hi]

theorem msb_signExtend (hw : 0 < w) (h : w ≤ v) (n : BitVec w) : (n.signExtend v).msb = n.msb := by
  rw [BitVec.msb_eq_getLsbD_last, BitVec.getLsbD_signExtend, BitVec.msb_eq_getLsbD_last]
  by_cases hlt : v - 1 < w
  · have hv : v = w := by omega
    subst hv
    simp [hlt]
  · simp [hlt, show v - 1 < v by omega]

/-- With more bits the code of an integer is the same. -/
theorem encodeZigzag_signExtend (hw : 0 < w) (h : w ≤ v) (n : BitVec w) :
    encodeZigzag (n.signExtend v) = (encodeZigzag n).setWidth v := by
  apply BitVec.eq_of_getLsbD_eq
  intro i hi
  rw [getLsbD_encodeZigzag, BitVec.getLsbD_setWidth, getLsbD_encodeZigzag, msb_signExtend hw h, BitVec.getLsbD_signExtend]
  by_cases hiw : i < w
  · simp [hi, hiw, show i - 1 < v by omega, show i - 1 < w by omega]
  · have hpos : 0 < i := by omega
    by_cases hlast : i - 1 < w
    · have hmsb : n.msb = n.getLsbD (i - 1) := by
        rw [BitVec.msb_eq_getLsbD_last]
        congr 1
        omega
      simp [hi, hiw, hpos, hlast, hmsb, show i - 1 < v by omega]
    · simp [hi, hiw, hpos, hlast, show i - 1 < v by omega]

/-- Decoded over more bits and cut off, a code is that of the same integer. -/
theorem decodeZigzag_setWidth (h : w ≤ v) (n : BitVec w) : (decodeZigzag (n.setWidth v)).setWidth w = decodeZigzag n := by
  apply BitVec.eq_of_getLsbD_eq
  intro i hi
  rw [BitVec.getLsbD_setWidth, getLsbD_decodeZigzag, getLsbD_decodeZigzag, BitVec.getLsbD_setWidth, BitVec.getLsbD_setWidth]
  have hiv : i < v := by omega
  have hv : 0 < v := by omega
  by_cases hlast : i + 1 < v
  · simp [hi, hiv, hv, hlast]
  · have hout : n.getLsbD (i + 1) = false := BitVec.getLsbD_of_ge _ _ (by omega)
    simp [hi, hiv, hv, hlast, hout]

end RaleighSL.Zcl.Coding
