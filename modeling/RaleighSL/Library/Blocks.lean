import Mathlib.Data.List.Basic

/-!
# Messages in blocks

A state takes a message block by block, and what does not fill a block is left. A message in two
parts is taken like one message: the rest of the first part stands in front of the second one.
-/
namespace RaleighSL.Library

variable {η β : Type*} {compress : η → List β → η} {n : Nat} {h : η} {a b cells : List β}

/-- The first blocks of a message, each of `n` cells, go into a state. -/
def absorbTimes (compress : η → List β → η) (n : Nat) : Nat → η → List β → η
  | 0, h, _ => h
  | k + 1, h, cells => absorbTimes compress n k (compress h (cells.take n)) (cells.drop n)

/-- All the blocks of a message go into a state. -/
def absorb (compress : η → List β → η) (n : Nat) (h : η) (cells : List β) : η :=
  absorbTimes compress n (cells.length / n) h cells

def leftover (n : Nat) (cells : List β) : List β := cells.drop (n * (cells.length / n))

theorem length_leftover (n : Nat) (cells : List β) : (leftover n cells).length = cells.length % n := by
  have hdiv := Nat.div_add_mod cells.length n
  rw [leftover, List.length_drop]
  omega

theorem absorbTimes_append {k : Nat} (hk : n * k ≤ a.length) (b : List β) :
    absorbTimes compress n k h (a ++ b) = absorbTimes compress n k h a := by
  induction k generalizing h a with
  | zero => rfl
  | succ k ih =>
    rw [Nat.mul_succ] at hk
    rw [absorbTimes, absorbTimes, List.take_append_of_le_length (by omega), List.drop_append_of_le_length (by omega)]
    exact ih (by rw [List.length_drop]; omega)

theorem absorbTimes_add (j k : Nat) :
    absorbTimes compress n (j + k) h cells = absorbTimes compress n k (absorbTimes compress n j h cells) (cells.drop (n * j)) := by
  induction j generalizing h cells with
  | zero => rw [Nat.zero_add, Nat.mul_zero, List.drop_zero, absorbTimes]
  | succ j ih => rw [Nat.succ_add, absorbTimes, absorbTimes, ih, List.drop_drop, Nat.mul_succ, Nat.add_comm n]

theorem drop_append_eq (a b : List β) : (a ++ b).drop (n * (a.length / n)) = leftover n a ++ b :=
  List.drop_append_of_le_length (Nat.mul_div_le a.length n)

theorem div_append (hn : 0 < n) (a b : List β) :
    (a ++ b).length / n = a.length / n + (leftover n a ++ b).length / n := by
  rw [List.length_append, List.length_append, length_leftover]
  nth_rewrite 1 [← Nat.div_add_mod a.length n]
  rw [Nat.add_assoc, Nat.mul_add_div hn]

theorem absorb_append (hn : 0 < n) (a b : List β) :
    absorb compress n h (a ++ b) = absorb compress n (absorb compress n h a) (leftover n a ++ b) := by
  rw [absorb, div_append hn, absorbTimes_add, drop_append_eq, absorbTimes_append (Nat.mul_div_le a.length n)]
  rfl

theorem leftover_append (hn : 0 < n) (a b : List β) : leftover n (a ++ b) = leftover n (leftover n a ++ b) := by
  rw [leftover, div_append hn, Nat.mul_add, ← List.drop_drop, drop_append_eq]
  rfl

theorem absorb_of_lt (hlt : cells.length < n) : absorb compress n h cells = h := by
  rw [absorb, Nat.div_eq_of_lt hlt, absorbTimes]

theorem leftover_of_lt (hlt : cells.length < n) : leftover n cells = cells := by
  rw [leftover, Nat.div_eq_of_lt hlt, Nat.mul_zero, List.drop_zero]

theorem absorb_of_le (hn : 0 < n) (hle : n ≤ cells.length) :
    absorb compress n h cells = absorb compress n (compress h (cells.take n)) (cells.drop n) := by
  rw [absorb, absorb, List.length_drop, Nat.div_eq_sub_div hn hle, absorbTimes]

theorem leftover_of_le (hn : 0 < n) (hle : n ≤ cells.length) : leftover n cells = leftover n (cells.drop n) := by
  rw [leftover, leftover, List.length_drop, Nat.div_eq_sub_div hn hle, List.drop_drop, Nat.mul_succ, Nat.add_comm n]

end RaleighSL.Library
