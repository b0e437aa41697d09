import Mathlib.Logic.Basic

/-!
# Cyclic redundancy checks

The reflected bit-serial check of a polynomial, of any width. A step is linear, so eight of them
take the low byte of the register through a table and shift the others down.
-/
namespace RaleighSL.Library.Crc

variable {w : Nat}

def bitStep (poly x : BitVec w) : BitVec w := (x >>> 1) ^^^ (if x.getLsbD 0 then poly else 0)

def bits (poly : BitVec w) : Nat → BitVec w → BitVec w
  | 0, x => x
  | n + 1, x => bits poly n (bitStep poly x)

def byteStep (poly c : BitVec w) (b : BitVec 8) : BitVec w := bits poly 8 (c ^^^ b.setWidth w)

theorem bitStep_xor (poly x y : BitVec w) : bitStep poly (x ^^^ y) = bitStep poly x ^^^ bitStep poly y := by
  have hshift : (x ^^^ y) >>> 1 = x >>> 1 ^^^ y >>> 1 := BitVec.ushiftRight_xor_distrib x y 1
  rw [bitStep, bitStep, bitStep, hshift, BitVec.getLsbD_xor]
  apply BitVec.eq_of_getLsbD_eq
  intro i _
  cases x.getLsbD 0 <;> cases y.getLsbD 0 <;> simp <;>
    cases x.getLsbD (1 + i) <;> cases y.getLsbD (1 + i) <;> cases poly.getLsbD i <;> rfl

theorem bits_xor (poly : BitVec w) (n : Nat) (x y : BitVec w) : bits poly n (x ^^^ y) = bits poly n x ^^^ bits poly n y := by
  induction n generalizing x y with
  | zero => rfl
  | succ n ih => rw [bits, bits, bits, bitStep_xor, ih]

/-- Bits that are zero leave the register without a change of the others. -/
theorem bits_of_low_zero (poly : BitVec w) (n : Nat) {x : BitVec w} (h : ∀ i < n, x.getLsbD i = false) :
    bits poly n x = x >>> n := by
  induction n generalizing x with
  | zero => rw [bits, BitVec.ushiftRight_zero]
  | succ n ih =>
    have hstep : bitStep poly x = x >>> 1 := by
      rw [bitStep, h 0 (Nat.succ_pos n), if_neg Bool.false_ne_true, BitVec.ofNat_eq_ofNat, BitVec.xor_zero]
    rw [bits, hstep, ih, ← BitVec.shiftRight_add, Nat.add_comm 1 n]
    intro i hi
    rw [BitVec.getLsbD_ushiftRight]
    exact h (1 + i) (by omega)

def low (x : BitVec w) : BitVec w := (x.setWidth 8).setWidth w

theorem getLsbD_low (x : BitVec w) (i : Nat) : (low x).getLsbD i = (decide (i < 8) && x.getLsbD i) := by
  rw [low, BitVec.getLsbD_setWidth, BitVec.getLsbD_setWidth]
  by_cases hi : i < w
  · rw [decide_eq_true hi, Bool.true_and]
  · rw [BitVec.getLsbD_of_ge x i (Nat.le_of_not_lt hi), decide_eq_false hi, Bool.and_false, Bool.and_false]

/-- A register is shifted by a byte, and what leaves it comes back through the table. -/
theorem bits_eight (poly x : BitVec w) : bits poly 8 x = bits poly 8 (low x) ^^^ x >>> 8 := by
  have hsplit : x = low x ^^^ (low x ^^^ x) := by rw [← BitVec.xor_assoc, BitVec.xor_self, BitVec.zero_xor]
  have hzero : ∀ i < 8, (low x ^^^ x).getLsbD i = false := by
    intro i hi
    rw [BitVec.getLsbD_xor, getLsbD_low, decide_eq_true hi, Bool.true_and, Bool.xor_self]
  have hlow : low x >>> 8 = 0 := by
    apply BitVec.eq_of_getLsbD_eq
    intro i _
    rw [BitVec.getLsbD_ushiftRight, getLsbD_low, decide_eq_false (by omega), Bool.false_and]
    simp
  have hhigh : bits poly 8 (low x ^^^ x) = x >>> 8 := by
    rw [bits_of_low_zero poly 8 hzero, BitVec.ushiftRight_xor_distrib, hlow, BitVec.ofNat_eq_ofNat, BitVec.zero_xor]
  calc
    bits poly 8 x = bits poly 8 (low x ^^^ (low x ^^^ x)) := congrArg (bits poly 8) hsplit
    _ = bits poly 8 (low x) ^^^ x >>> 8 := by rw [bits_xor, hhigh]

/-- A byte enters through a table of the registers that hold one byte. -/
theorem byteStep_eq_table {poly : BitVec w} {table : Nat → BitVec w}
    (htable : ∀ i < 256, table i = bits poly 8 (BitVec.ofNat w i)) (c : BitVec w) (b : BitVec 8) :
    byteStep poly c b = table ((c ^^^ b.setWidth w).setWidth 8).toNat ^^^ c >>> 8 := by
  have hbyte : b.setWidth w >>> 8 = 0 := by
    apply BitVec.eq_of_getLsbD_eq
    intro i _
    rw [BitVec.getLsbD_ushiftRight, BitVec.getLsbD_setWidth, BitVec.getLsbD_of_ge b _ (by omega), Bool.and_false]
    simp
  have hlow : low (c ^^^ b.setWidth w) = BitVec.ofNat w ((c ^^^ b.setWidth w).setWidth 8).toNat := by
    rw [low, BitVec.ofNat_toNat]
  rw [byteStep, bits_eight, BitVec.ushiftRight_xor_distrib, hbyte, BitVec.ofNat_eq_ofNat, BitVec.xor_zero, hlow,
    htable _ (BitVec.isLt _)]

end RaleighSL.Library.Crc
