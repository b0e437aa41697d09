import Mathlib.Algebra.Order.Ring.Nat
import Mathlib.Data.Nat.Basic
import Mathlib.Logic.Function.Basic

/-!
# Bitmaps

`core/bits/bitmap.c` over the bytes behind a pointer. A change of a range masks its first and its
last byte and fills the bytes between them. A search tests single bits up to a byte, then compares
words and bytes with the ones that hold no bit of the value, and tests single bits again. The test
of a bit gives the bit at its place in the byte, and not 0 or 1.
-/
namespace RaleighSL.Zcl.Bitmap

abbrev Bytes8 := Nat → BitVec 8

def bitAt (bitmap : Bytes8) (i : Nat) : Bool := (bitmap (i / 8)).getLsbD (i % 8)

/-- `pattern8[value]` of the change, a byte with all of its bits of the value. -/
def pattern8 (value : Bool) : BitVec 8 := if value then 0xff#8 else 0x00#8

/-! ### The change of a range -/

def changeByte (mask : BitVec 8) (value : Bool) (byte : BitVec 8) : BitVec 8 :=
  if value then byte ||| mask else byte &&& ~~~mask

/-- `(0xff << left) & (0xff >> (8 - right))`. -/
def rangeMask (left right : Nat) : BitVec 8 := (0xff#8 <<< left) &&& (0xff#8 >>> (8 - right))

/-- `memset`. -/
def fill (bitmap : Bytes8) (start n : Nat) (byte : BitVec 8) : Bytes8 :=
  fun i => if start ≤ i ∧ i < start + n then byte else bitmap i

def changeBits (bitmap : Bytes8) (offset numBits : Nat) (value : Bool) : Bytes8 :=
  let startByte := offset / 8
  let endByte := (offset + numBits - 1) / 8
  let left := offset % 8
  let right := if startByte = endByte then left + numBits else 8
  let bitmap := Function.update bitmap startByte (changeByte (rangeMask left right) value (bitmap startByte))
  if startByte = endByte then bitmap
  else
    let startByte := startByte + 1
    let bitmap := if startByte < endByte then fill bitmap startByte (endByte - startByte) (pattern8 value) else bitmap
    let right := offset + numBits - endByte * 8
    Function.update bitmap endByte (changeByte (0xff#8 >>> (8 - right)) value (bitmap endByte))

theorem rangeMask_bit {left right j : Nat} (hl : left < 8) (hr : right ≤ 8) (hj : j < 8) :
    (rangeMask left right).getLsbD j = (decide (left ≤ j) && decide (j < right)) := by
  have hall : ∀ l < 8, ∀ r < 9, ∀ j < 8, (rangeMask l r).getLsbD j = (decide (l ≤ j) && decide (j < r)) := by decide
  exact hall left hl right (Nat.lt_succ_of_le hr) j hj

theorem shiftRight_eq_rangeMask (right : Nat) : 0xff#8 >>> (8 - right) = rangeMask 0 right := by
  rw [rangeMask, BitVec.shiftLeft_zero, show 0xff#8 = BitVec.allOnes 8 from rfl, BitVec.allOnes_and]

theorem changeByte_bit (mask byte : BitVec 8) (value : Bool) {j : Nat} (hj : j < 8) :
    (changeByte mask value byte).getLsbD j = if mask.getLsbD j then value else byte.getLsbD j := by
  cases value with
  | true =>
    rw [changeByte, if_pos rfl, BitVec.getLsbD_or]
    cases mask.getLsbD j <;> simp
  | false =>
    rw [changeByte, if_neg Bool.false_ne_true, BitVec.getLsbD_and, BitVec.getLsbD_not, decide_eq_true hj]
    cases mask.getLsbD j <;> simp

theorem pattern8_bit (value : Bool) {j : Nat} (hj : j < 8) : (pattern8 value).getLsbD j = value := by
  have hall : ∀ v : Bool, ∀ j < 8, (pattern8 v).getLsbD j = v := by decide
  exact hall value j hj

theorem bitAt_update (bitmap : Bytes8) (k : Nat) (byte : BitVec 8) (i : Nat) :
    bitAt (Function.update bitmap k byte) i = if i / 8 = k then byte.getLsbD (i % 8) else bitAt bitmap i := by
  rw [bitAt, bitAt, Function.update_apply]
  split <;> rfl

theorem bitAt_fill (bitmap : Bytes8) (start n : Nat) (value : Bool) (i : Nat) :
    bitAt (fill bitmap start n (pattern8 value)) i =
      if start ≤ i / 8 ∧ i / 8 < start + n then value else bitAt bitmap i := by
  rw [bitAt, bitAt, fill]
  split
  · exact pattern8_bit value (Nat.mod_lt i (by decide))
  · rfl

/-- A byte under a mask from the bit `left` to the bit `right`. -/
theorem bitAt_changeByte (bitmap : Bytes8) (k : Nat) {left right : Nat} (hl : left < 8) (hr : right ≤ 8) (value : Bool)
    (i : Nat) : bitAt (Function.update bitmap k (changeByte (rangeMask left right) value (bitmap k))) i =
      if 8 * k + left ≤ i ∧ i < 8 * k + right then value else bitAt bitmap i := by
  have hj : i % 8 < 8 := Nat.mod_lt i (by decide)
  rw [bitAt_update]
  by_cases hk : i / 8 = k
  · rw [if_pos hk, changeByte_bit _ _ _ hj, rangeMask_bit hl hr hj, ← hk]
    refine if_congr ?_ rfl rfl
    rw [Bool.and_eq_true, decide_eq_true_iff, decide_eq_true_iff]
    omega
  · rw [if_neg hk, if_neg (by omega)]

/-- The change sets the bits of the range and no other ones. -/
theorem changeBits_spec (bitmap : Bytes8) (offset : Nat) {n : Nat} (hn : 1 ≤ n) (value : Bool) (i : Nat) :
    bitAt (changeBits bitmap offset n value) i =
      if offset ≤ i ∧ i < offset + n then value else bitAt bitmap i := by
  have hleft : offset % 8 < 8 := Nat.mod_lt offset (by decide)
  rw [changeBits]
  by_cases hsingle : offset / 8 = (offset + n - 1) / 8
  · simp only [if_pos hsingle]
    rw [bitAt_changeByte bitmap _ hleft (by omega)]
    refine if_congr ?_ rfl rfl
    omega
  · simp only [if_neg hsingle, shiftRight_eq_rangeMask]
    rw [bitAt_changeByte _ _ (by decide) (by omega)]
    by_cases hlast : 8 * ((offset + n - 1) / 8) ≤ i ∧ i < offset + n
    · rw [if_pos (by omega), if_pos (by omega)]
    · rw [if_neg (by omega)]
      by_cases hmiddle : offset / 8 + 1 < (offset + n - 1) / 8
      · rw [if_pos hmiddle, bitAt_fill, bitAt_changeByte bitmap _ hleft (Nat.le_refl 8)]
        by_cases hin : offset / 8 + 1 ≤ i / 8 ∧ i / 8 < offset / 8 + 1 + ((offset + n - 1) / 8 - (offset / 8 + 1))
        · rw [if_pos hin, if_pos (by omega)]
        · rw [if_neg hin]
          refine if_congr ?_ rfl rfl
          omega
      · rw [if_neg hmiddle, bitAt_changeByte bitmap _ hleft (Nat.le_refl 8)]
        refine if_congr ?_ rfl rfl
        omega

/-- A range of two bits over the end of a byte. -/
theorem changeBits_over_byte_end : bitAt (changeBits (fun _ => 0#8) 7 2 true) 8 =
    if 7 ≤ 8 ∧ 8 < 7 + 2 then true else bitAt (fun _ => 0#8) 8 :=
  changeBits_spec (fun _ => 0#8) 7 (by decide) true 8

/-! ### The search -/

/-- `z_bitmap_test` of the bit at `bit` behind the byte `p`, which gives the bit at its place in the byte. -/
def testBit (bitmap : Bytes8) (p bit : Nat) : Nat := (bitmap (p + bit / 8) &&& (1#8 <<< (bit % 8))).toNat

/-- The loop over the rest of the first byte: an index, or how many bits are left. -/
def findInFirst (bitmap : Bytes8) (value : Bool) (p : Nat) : Nat → Nat → Nat ⊕ Nat
  | _, 0 => .inr 0
  | bit, numBits + 1 =>
    if bit < 8 then
      if testBit bitmap p bit = value.toNat then .inl (p * 8 + bit) else findInFirst bitmap value p (bit + 1) numBits
    else .inr (numBits + 1)

def skipPattern (value : Bool) : BitVec 8 := if value then 0x00#8 else 0xff#8

/-- The loop over words: where it stops, and how many bits are left. -/
def skip64 (bitmap : Bytes8) (value : Bool) (p numBits : Nat) : Nat × Nat :=
  if 64 ≤ numBits ∧ ∀ j < 8, bitmap (p + j) = skipPattern value then skip64 bitmap value (p + 8) (numBits - 64)
  else (p, numBits)
termination_by numBits

def skip8 (bitmap : Bytes8) (value : Bool) (p numBits : Nat) : Nat × Nat :=
  if 8 ≤ numBits ∧ bitmap p = skipPattern value then skip8 bitmap value (p + 1) (numBits - 8) else (p, numBits)
termination_by numBits

def findInLast (bitmap : Bytes8) (value : Bool) (p : Nat) : Nat → Nat → Option Nat
  | _, 0 => none
  | bit, numBits + 1 =>
    if testBit bitmap p bit = value.toNat then some (p * 8 + bit) else findInLast bitmap value p (bit + 1) numBits

/-- The part of `z_bitmap_find_first` from a whole byte on. -/
def findAligned (bitmap : Bytes8) (value : Bool) (p numBits : Nat) : Option Nat :=
  let r := skip64 bitmap value p numBits
  let r := skip8 bitmap value r.1 r.2
  findInLast bitmap value r.1 0 r.2

/-- `z_bitmap_find_first`: the index, when it returns 1. -/
def findFirst (bitmap : Bytes8) (offset bitmapSize : Nat) (value : Bool) : Option Nat :=
  let p := offset / 8
  let numBits := bitmapSize - offset
  if offset % 8 ≠ 0 then
    match findInFirst bitmap value p (offset % 8) numBits with
    | .inl idx => some idx
    | .inr numBits => findAligned bitmap value (p + 1) numBits
  else findAligned bitmap value p numBits

def Hit (bitmap : Bytes8) (value : Bool) (i : Nat) : Prop := testBit bitmap 0 i = value.toNat

instance (bitmap : Bytes8) (value : Bool) (i : Nat) : Decidable (Hit bitmap value i) := inferInstanceAs (Decidable (_ = _))

theorem testBit_eq (bitmap : Bytes8) (p bit : Nat) : testBit bitmap p bit = testBit bitmap 0 (p * 8 + bit) := by
  rw [testBit, testBit, show 0 + (p * 8 + bit) / 8 = p + bit / 8 by omega, show (p * 8 + bit) % 8 = bit % 8 by omega]

theorem testBit_eq_ite (bitmap : Bytes8) (i : Nat) :
    testBit bitmap 0 i = if bitAt bitmap i then 2 ^ (i % 8) else 0 := by
  rw [testBit, bitAt, Nat.zero_add, ← BitVec.twoPow_eq, BitVec.and_twoPow]
  split
  · exact BitVec.toNat_twoPow_of_lt (Nat.mod_lt i (by decide))
  · rfl

/-- The test finds each bit that is 0, and a bit that is 1 only at the beginning of a byte. -/
theorem hit_iff (bitmap : Bytes8) (value : Bool) (i : Nat) :
    Hit bitmap value i ↔ bitAt bitmap i = value ∧ (value = true → i % 8 = 0) := by
  rw [Hit, testBit_eq_ite]
  cases hbit : bitAt bitmap i <;> cases value
  · exact ⟨fun _ => ⟨rfl, fun h => absurd h Bool.false_ne_true⟩, fun _ => rfl⟩
  · exact ⟨fun h => absurd h Nat.zero_ne_one, fun h => absurd h.1 Bool.false_ne_true⟩
  · exact ⟨fun h => absurd h (Nat.ne_of_gt (Nat.two_pow_pos (i % 8))), fun h => absurd h.1.symm Bool.false_ne_true⟩
  · rw [if_pos rfl, Bool.toNat_true, Nat.pow_eq_one]
    exact ⟨fun h => ⟨rfl, fun _ => h.resolve_left (by decide)⟩, fun h => .inr (h.2 rfl)⟩

/-- The first of `n` indices from `i` on that the test finds. -/
def firstHit (bitmap : Bytes8) (value : Bool) : Nat → Nat → Option Nat
  | _, 0 => none
  | i, n + 1 => if Hit bitmap value i then some i else firstHit bitmap value (i + 1) n

variable {bitmap : Bytes8} {value : Bool}

theorem firstHit_skip {i m : Nat} (n : Nat) (h : ∀ j < m, ¬ Hit bitmap value (i + j)) :
    firstHit bitmap value i (m + n) = firstHit bitmap value (i + m) n := by
  induction m generalizing i with
  | zero => rw [Nat.zero_add, Nat.add_zero]
  | succ m ih =>
    have hi : ¬ Hit bitmap value i := h 0 (Nat.succ_pos m)
    rw [Nat.succ_add, firstHit, if_neg hi, ih (fun j hj => ?_), Nat.add_assoc, Nat.add_comm 1 m]
    rw [Nat.add_assoc, Nat.add_comm 1 j]
    exact h (j + 1) (Nat.succ_lt_succ hj)

theorem testBit_iff_hit (p bit : Nat) : testBit bitmap p bit = value.toNat ↔ Hit bitmap value (p * 8 + bit) := by
  rw [testBit_eq]
  exact Iff.rfl

theorem findInLast_eq (p bit n : Nat) : findInLast bitmap value p bit n = firstHit bitmap value (p * 8 + bit) n := by
  induction n generalizing bit with
  | zero => rfl
  | succ n ih => simp only [findInLast, firstHit, testBit_iff_hit, ih, Nat.add_assoc]

theorem findInFirst_eq (p n : Nat) : ∀ bit ≤ 8, firstHit bitmap value (p * 8 + bit) n =
    match findInFirst bitmap value p bit n with
    | .inl idx => some idx
    | .inr n => firstHit bitmap value ((p + 1) * 8) n := by
  induction n with
  | zero => exact fun bit _ => rfl
  | succ n ih =>
    intro bit hbit
    rw [findInFirst]
    by_cases hlt : bit < 8
    · simp only [if_pos hlt, testBit_iff_hit, firstHit]
      by_cases hhit : Hit bitmap value (p * 8 + bit)
      · simp only [if_pos hhit]
      · simp only [if_neg hhit, Nat.add_assoc]
        exact ih (bit + 1) hlt
    · obtain rfl : bit = 8 := by omega
      rw [if_neg hlt, Nat.add_mul, Nat.one_mul]

theorem not_hit_skipPattern {q j : Nat} (h : bitmap q = skipPattern value) (hj : j < 8) : ¬ Hit bitmap value (q * 8 + j) := by
  have hall : ∀ v : Bool, ∀ j < 8, (skipPattern v).getLsbD j = !v := by decide
  intro hhit
  have hbit := ((hit_iff bitmap value _).mp hhit).1
  rw [bitAt, show (q * 8 + j) / 8 = q by omega, show (q * 8 + j) % 8 = j by omega, h, hall value j hj] at hbit
  exact absurd hbit (by cases value <;> decide)

theorem skip64_eq (p n : Nat) : firstHit bitmap value ((skip64 bitmap value p n).1 * 8) (skip64 bitmap value p n).2 =
    firstHit bitmap value (p * 8) n := by
  fun_induction skip64 bitmap value p n with
  | case1 p n h ih =>
    obtain ⟨hle, hword⟩ := h
    obtain ⟨m, rfl⟩ := Nat.exists_eq_add_of_le hle
    rw [ih, Nat.add_sub_cancel_left, firstHit_skip m (fun j hj => ?_), Nat.add_mul]
    rw [show p * 8 + j = (p + j / 8) * 8 + j % 8 by omega]
    exact not_hit_skipPattern (hword (j / 8) (by omega)) (Nat.mod_lt j (by decide))
  | case2 p n h => rfl

theorem skip8_eq (p n : Nat) : firstHit bitmap value ((skip8 bitmap value p n).1 * 8) (skip8 bitmap value p n).2 =
    firstHit bitmap value (p * 8) n := by
  fun_induction skip8 bitmap value p n with
  | case1 p n h ih =>
    obtain ⟨hle, hbyte⟩ := h
    obtain ⟨m, rfl⟩ := Nat.exists_eq_add_of_le hle
    rw [ih, Nat.add_sub_cancel_left, firstHit_skip m (fun j hj => not_hit_skipPattern hbyte hj), Nat.add_mul]
  | case2 p n h => rfl

theorem findAligned_eq (p n : Nat) : findAligned bitmap value p n = firstHit bitmap value (p * 8) n := by
  rw [findAligned, findInLast_eq, Nat.add_zero, skip8_eq, skip64_eq]

/-- The search gives the first index that the test finds. -/
theorem findFirst_eq (offset size : Nat) :
    findFirst bitmap offset size value = firstHit bitmap value offset (size - offset) := by
  rw [findFirst]
  by_cases hbit : offset % 8 ≠ 0
  · have hfirst : firstHit bitmap value (offset / 8 * 8 + offset % 8) (size - offset) = _ :=
      findInFirst_eq (offset / 8) (size - offset) (offset % 8) (by omega)
    rw [show offset / 8 * 8 + offset % 8 = offset by omega] at hfirst
    simp only [if_pos hbit, findAligned_eq]
    exact hfirst.symm
  · rw [if_neg hbit, findAligned_eq, show offset / 8 * 8 = offset by omega]

/-- An index of the range whose bit has the value, with none before it. -/
def IsLeast (bitmap : Bytes8) (offset size : Nat) (value : Bool) (i : Nat) : Prop :=
  (offset ≤ i ∧ i < size ∧ bitAt bitmap i = value) ∧ ∀ j, offset ≤ j → j < i → bitAt bitmap j ≠ value

/-- The result of a search is the least index, or nothing when there is none. -/
def FindsLeast (bitmap : Bytes8) (offset size : Nat) (value : Bool) (found : Option Nat) : Prop :=
  (∀ i, found = some i → IsLeast bitmap offset size value i) ∧
    (found = none ↔ ∀ i, offset ≤ i → i < size → bitAt bitmap i ≠ value)

theorem firstHit_eq_some {i n k : Nat} (h : firstHit bitmap value i n = some k) :
    i ≤ k ∧ k < i + n ∧ Hit bitmap value k ∧ ∀ j, i ≤ j → j < k → ¬ Hit bitmap value j := by
  induction n generalizing i with
  | zero => cases h
  | succ n ih =>
    rw [firstHit] at h
    by_cases hhit : Hit bitmap value i
    · rw [if_pos hhit] at h
      obtain rfl := Option.some.inj h
      exact ⟨Nat.le_refl i, by omega, hhit, fun j hle hlt => absurd hlt (Nat.not_lt_of_le hle)⟩
    · rw [if_neg hhit] at h
      obtain ⟨hle, hlt, hk, hbefore⟩ := ih h
      refine ⟨by omega, by omega, hk, fun j hij hjk => ?_⟩
      rcases Nat.eq_or_lt_of_le hij with rfl | hij
      · exact hhit
      · exact hbefore j hij hjk

theorem firstHit_eq_none {i n : Nat} (h : firstHit bitmap value i n = none) :
    ∀ j, i ≤ j → j < i + n → ¬ Hit bitmap value j := by
  induction n generalizing i with
  | zero => exact fun j hle hlt => absurd hlt (Nat.not_lt_of_le hle)
  | succ n ih =>
    rw [firstHit] at h
    by_cases hhit : Hit bitmap value i
    · rw [if_pos hhit] at h
      cases h
    · rw [if_neg hhit] at h
      intro j hij hjn
      rcases Nat.eq_or_lt_of_le hij with rfl | hij
      · exact hhit
      · exact ih h j hij (by omega)

/-- The search is right if and only if it looks for a 0, or the first 1 of the range stands at the beginning of a byte. -/
theorem findFirst_least_iff (bitmap : Bytes8) {offset size : Nat} (hle : offset ≤ size) (value : Bool) :
    FindsLeast bitmap offset size value (findFirst bitmap offset size value) ↔
      (value = true → ∀ i, IsLeast bitmap offset size true i → i % 8 = 0) := by
  have hsize : offset + (size - offset) = size := Nat.add_sub_cancel' hle
  rw [findFirst_eq]
  constructor
  · rintro ⟨hsome, hnone⟩ rfl i hi
    obtain ⟨⟨hoi, his, hbit⟩, hbefore⟩ := hi
    cases hfound : firstHit bitmap true offset (size - offset) with
    | none => exact absurd hbit (hnone.mp hfound i hoi his)
    | some k =>
      obtain ⟨⟨hok, hks, hkbit⟩, hkbefore⟩ := hsome k hfound
      have hik : i = k := by
        rcases Nat.lt_trichotomy i k with hlt | heq | hlt
        · exact absurd hbit (hkbefore i hoi hlt)
        · exact heq
        · exact absurd hkbit (hbefore k hok hlt)
      obtain ⟨-, -, hhit, -⟩ := firstHit_eq_some hfound
      rw [hik]
      exact ((hit_iff bitmap true k).mp hhit).2 rfl
  · intro hcond
    have hleast : ∀ i, IsLeast bitmap offset size value i → Hit bitmap value i := by
      intro i hi
      refine (hit_iff bitmap value i).mpr ⟨hi.1.2.2, ?_⟩
      rintro rfl
      exact hcond rfl i hi
    have hfirst : ∀ i, offset ≤ i → i < size → bitAt bitmap i = value → ∃ k, k ≤ i ∧ IsLeast bitmap offset size value k := by
      intro i
      induction i using Nat.strong_induction_on with
      | _ i ih =>
        intro hoi his hbit
        by_cases hbefore : ∀ j, offset ≤ j → j < i → bitAt bitmap j ≠ value
        · exact ⟨i, Nat.le_refl i, ⟨hoi, his, hbit⟩, hbefore⟩
        · simp only [not_forall, not_not] at hbefore
          obtain ⟨j, hoj, hji, hj⟩ := hbefore
          obtain ⟨k, hkj, hk⟩ := ih j hji hoj (Nat.lt_trans hji his) hj
          exact ⟨k, by omega, hk⟩
    constructor
    · intro i hfound
      obtain ⟨hoi, his, hhit, hbefore⟩ := firstHit_eq_some hfound
      refine ⟨⟨hoi, by omega, ((hit_iff bitmap value i).mp hhit).1⟩, fun j hoj hji hbit => ?_⟩
      obtain ⟨k, hkj, hk⟩ := hfirst j hoj (by omega) hbit
      exact hbefore k hk.1.1 (by omega) (hleast k hk)
    · constructor
      · intro hfound i hoi his hbit
        obtain ⟨k, -, hk⟩ := hfirst i hoi his hbit
        have hks := hk.1.2.1
        exact firstHit_eq_none hfound k hk.1.1 (by omega) (hleast k hk)
      · intro hall
        cases hfound : firstHit bitmap value offset (size - offset) with
        | none => rfl
        | some k =>
          obtain ⟨hok, hks, hhit, -⟩ := firstHit_eq_some hfound
          exact absurd ((hit_iff bitmap value k).mp hhit).1 (hall k hok (by omega))

theorem findFirst_least_at_byte_start : FindsLeast (fun _ => 1#8) 3 20 true (findFirst (fun _ => 1#8) 3 20 true) := by
  refine (findFirst_least_iff (fun _ => 1#8) (by decide) true).mpr fun _ i hi => ?_
  have hbit := hi.1.2.2
  rw [bitAt] at hbit
  have hall : ∀ j < 8, (1#8).getLsbD j = true → j = 0 := by decide
  exact hall (i % 8) (Nat.mod_lt i (by decide)) hbit

/-- A 1 that does not stand at the beginning of a byte is not found. -/
theorem findFirst_misses : ¬ FindsLeast (fun _ => 2#8) 0 8 true (findFirst (fun _ => 2#8) 0 8 true) := by
  rintro ⟨-, hnone⟩
  have hfound : findFirst (fun _ => 2#8) 0 8 true = none := by
    rw [findFirst_eq]
    decide
  exact hnone.mp hfound 1 (by decide) (by decide) (by decide)

end RaleighSL.Zcl.Bitmap
