import Mathlib.Data.Nat.Bitwise

/-!
# Sizes

The sums and differences of a `size_t`, and the alignment of `core/macros.h`.
-/
namespace RaleighSL.Zcl

def sizeAdd (a b : Nat) : Nat := (a + b) % 2 ^ 64

/-- A difference below zero wraps. -/
def sizeSub (a b : Nat) : Nat := if b ≤ a then a - b else (a + (2 ^ 64 - b % 2 ^ 64)) % 2 ^ 64

/-- `z_align_up`, which computes in the type of its arguments. -/
def alignUp {α : Type*} [Add α] [Sub α] [Neg α] [AndOp α] [OfNat α 1] (x align : α) : α := (x + (align - 1)) &&& -align

variable {a b : Nat}

theorem sizeAdd_of_lt (h : a + b < 2 ^ 64) : sizeAdd a b = a + b := Nat.mod_eq_of_lt h

theorem sizeSub_of_le (h : b ≤ a) : sizeSub a b = a - b := if_pos h

theorem sizeSub_of_lt (h : a < b) (hb : b < 2 ^ 64) : sizeSub a b = a + 2 ^ 64 - b := by
  rw [sizeSub, if_neg (Nat.not_le.mpr h)]
  omega

theorem sizeSub_eq_mod (ha : a < 2 ^ 64) : sizeSub a b = (a + (2 ^ 64 - b % 2 ^ 64)) % 2 ^ 64 := by
  rw [sizeSub]
  split_ifs <;> omega

/-- The mask that aligns to `2 ^ k` clears the low `k` bits. -/
theorem and_neg_two_pow {k : Nat} (hk : k < 64) (x : Nat) (hx : x < 2 ^ 64) : x &&& (2 ^ 64 - 2 ^ k) = x / 2 ^ k * 2 ^ k := by
  have hpos := Nat.two_pow_pos k
  have hmask : 2 ^ 64 - 2 ^ k = 2 ^ 64 - ((2 ^ k - 1) + 1) := by omega
  have hlow : 2 ^ k - 1 < 2 ^ 64 := by
    have := Nat.pow_lt_pow_right (a := 2) (by decide) hk
    omega
  apply Nat.eq_of_testBit_eq
  intro i
  rw [Nat.testBit_and, hmask, Nat.testBit_two_pow_sub_succ hlow, Nat.testBit_two_pow_sub_one, ← Nat.shiftRight_eq_div_pow,
    ← Nat.shiftLeft_eq, Nat.testBit_shiftLeft, Nat.testBit_shiftRight]
  by_cases hi : k ≤ i
  · rw [Nat.add_sub_cancel' hi]
    by_cases hlt : i < 64
    · simp [hi, hlt]
    · have hbit : x.testBit i = false :=
        Nat.testBit_lt_two_pow (Nat.lt_of_lt_of_le hx (Nat.pow_le_pow_right (by decide) (Nat.not_lt.mp hlt)))
      simp [hbit]
  · simp [hi, Nat.not_le.mp hi]

/-- `z_align_up` of a size to 32. -/
theorem toNat_alignUp_32 (n : Nat) : (alignUp (UInt64.ofNat n) 32).toNat = sizeAdd n 31 / 32 * 32 := by
  rw [alignUp, UInt64.toNat_and, UInt64.toNat_add, UInt64.toNat_ofNat']
  have hneg : (-(32 : UInt64)).toNat = 2 ^ 64 - 2 ^ 5 := by decide
  have hone : ((32 : UInt64) - 1).toNat = 31 := by decide
  rw [hneg, hone, Nat.mod_add_mod]
  exact and_neg_two_pow (by decide) _ (Nat.mod_lt _ (by decide))

end RaleighSL.Zcl
