import RaleighSL.Library.Texts
import RaleighSL.Zcl.Bucket
import Mathlib.Tactic.IntervalCases

/-!
# Shared beginnings and ends

`string/memshared.c`. The loops compare words of eight bytes and then single bytes. The memory that
they may look at is partial: a byte that is not there has no value, and neither has a comparison
that looks at it.
-/
namespace RaleighSL.Zcl.MemShared

open RaleighSL.Library

abbrev Memory := Nat → Option Byte

def wordSize : Nat := 8

def word (m : Memory) (i : Nat) : Option Bytes := (List.range wordSize).mapM (fun j => m (i + j))

def same {α : Type} [DecidableEq α] (x y : Option α) : Option Bool := x.bind (fun x => y.map (fun y => x = y))

/-- The loops over words, from the distance `k` on, while `n` bytes are left. -/
def skipWords (sameWord : Nat → Option Bool) (k n : Nat) : Option (Nat × Nat) :=
  if wordSize ≤ n then
    (sameWord k).bind (fun eq => if eq then skipWords sameWord (k + wordSize) (n - wordSize) else some (k, n))
  else some (k, n)
termination_by n
decreasing_by exact Nat.sub_lt (Nat.lt_of_lt_of_le (by decide) ‹wordSize ≤ n›) (by decide)

/-- The loops over bytes, and the cases of the switch, which run through each other like a loop. It gives what is left. -/
def skipBytes (sameByte : Nat → Option Bool) : Nat → Nat → Option Nat
  | _, 0 => some 0
  | k, n + 1 => (sameByte k).bind (fun eq => if eq then skipBytes sameByte (k + 1) n else some (n + 1))

/-- What both functions do with the bytes at the distance `k` from where they begin. -/
def shared (sameWord sameByte : Nat → Option Bool) (minLength : Nat) : Option Nat :=
  (skipWords sameWord 0 minLength).bind (fun r => (skipBytes sameByte r.1 r.2).map (fun n => minLength - n))

def memshared (a : Memory) (alen : Nat) (b : Memory) (blen : Nat) : Option Nat :=
  shared (fun k => same (word a k) (word b k)) (fun k => same (a k) (b k)) (min alen blen)

def memrshared (a : Memory) (alen : Nat) (b : Memory) (blen : Nat) : Option Nat :=
  shared (fun k => same (word a (alen - k - wordSize)) (word b (blen - k - wordSize)))
    (fun k => same (a (alen - k - 1)) (b (blen - k - 1))) (min alen blen)

/-! ### The loops -/

variable {e : Nat → Bool} {sameWord sameByte : Nat → Option Bool}

/-- The first `r` of `m` places are equal, and the one behind them is not. -/
structure Run (e : Nat → Bool) (m r : Nat) : Prop where
  le : r ≤ m
  equal : ∀ k < r, e k = true
  stops : r < m → e r = false

/-- The word at the distance `k` is the same when all of its bytes are. -/
def allEqual (e : Nat → Bool) (k : Nat) : Bool := (List.range wordSize).all (fun j => e (k + j))

theorem skipWords_spec {m : Nat} (hword : ∀ k, k + wordSize ≤ m → sameWord k = some (allEqual e k)) (n : Nat) :
    ∀ k, k + n = m → (∀ j < k, e j = true) →
      ∃ k', k' ≤ m ∧ skipWords sameWord k n = some (k', m - k') ∧ ∀ j < k', e j = true := by
  induction n using Nat.strong_induction_on with
  | _ n ih =>
    intro k hk hequal
    rw [skipWords]
    split
    · next hle =>
      rw [hword k (by omega), Option.bind_some]
      by_cases hall : allEqual e k = true
      · rw [if_pos hall]
        have hsize : 0 < wordSize := by decide
        refine ih (n - wordSize) (by omega) (k + wordSize) (by omega) (fun j hj => ?_)
        by_cases hjk : j < k
        · exact hequal j hjk
        · have hin : j - k ∈ List.range wordSize := List.mem_range.mpr (by omega)
          have hj' := List.all_eq_true.mp hall (j - k) hin
          rwa [Nat.add_sub_cancel' (Nat.le_of_not_lt hjk)] at hj'
      · rw [if_neg hall]
        exact ⟨k, by omega, by rw [← hk, Nat.add_sub_cancel_left], hequal⟩
    · exact ⟨k, by omega, by rw [← hk, Nat.add_sub_cancel_left], hequal⟩

theorem skipBytes_spec {m : Nat} (hbyte : ∀ k < m, sameByte k = some (e k)) (n : Nat) :
    ∀ k, k + n = m → (∀ j < k, e j = true) → ∃ r, skipBytes sameByte k n = some (m - r) ∧ Run e m r := by
  induction n with
  | zero =>
    intro k hk hequal
    exact ⟨m, by rw [skipBytes, Nat.sub_self], Nat.le_refl m, fun j hj => hequal j (by omega), fun h => absurd h (Nat.lt_irrefl m)⟩
  | succ n ih =>
    intro k hk hequal
    rw [skipBytes, hbyte k (by omega), Option.bind_some]
    by_cases he : e k = true
    · rw [if_pos he]
      refine ih (k + 1) (by omega) (fun j hj => ?_)
      rcases Nat.lt_succ_iff_lt_or_eq.mp hj with hj | rfl
      · exact hequal j hj
      · exact he
    · rw [if_neg he]
      exact ⟨k, by congr 1; omega, by omega, hequal, fun _ => Bool.eq_false_iff.mpr he⟩

/-- The functions find the run of equal bytes. -/
theorem shared_spec {m : Nat} (hword : ∀ k, k + wordSize ≤ m → sameWord k = some (allEqual e k))
    (hbyte : ∀ k < m, sameByte k = some (e k)) : ∃ r, shared sameWord sameByte m = some r ∧ Run e m r := by
  obtain ⟨k, hk, hwords, hequal⟩ := skipWords_spec hword m 0 (Nat.zero_add m) (fun j hj => absurd hj (Nat.not_lt_zero j))
  obtain ⟨r, hbytes, hrun⟩ := skipBytes_spec hbyte (m - k) k (Nat.add_sub_cancel' hk) hequal
  refine ⟨r, ?_, hrun⟩
  rw [shared, hwords, Option.bind_some, hbytes, Option.map_some, Nat.sub_sub_self hrun.le]

/-! ### Memories -/

theorem mapM_some {α β : Type} {f : α → Option β} {g : α → β} {l : List α} (h : ∀ x ∈ l, f x = some (g x)) :
    l.mapM f = some (l.map g) := by
  induction l with
  | nil => rfl
  | cons x l ih =>
    rw [List.mapM_cons, h x List.mem_cons_self, ih (fun y hy => h y (List.mem_cons_of_mem x hy))]
    rfl

theorem same_some {α : Type} [DecidableEq α] (x y : α) : same (some x) (some y) = some (decide (x = y)) := rfl

/-- Two words that are there are the same if and only if their bytes are. -/
theorem same_word {a b : Memory} {i j : Nat} {x y : Nat → Byte} (ha : ∀ k < wordSize, a (i + k) = some (x k))
    (hb : ∀ k < wordSize, b (j + k) = some (y k)) :
    same (word a i) (word b j) = some ((List.range wordSize).all (fun k => x k = y k)) := by
  rw [word, word, mapM_some (fun k hk => ha k (List.mem_range.mp hk)), mapM_some (fun k hk => hb k (List.mem_range.mp hk)),
    same_some]
  congr 1
  rw [Bool.eq_iff_iff, decide_eq_true_iff, List.all_eq_true, List.map_inj_left]
  simp only [decide_eq_true_eq]

variable {a b : Bytes} {ma mb : Memory}

/-- A run of equal bytes is the longest common beginning. -/
theorem Run.longest {r : Nat} (h : Run (fun k => a[k]? = b[k]?) (min a.length b.length) r) :
    (a.take r).length = r ∧ Longest (fun w => w <+: b) (a.take r) a := by
  have hr : r ≤ a.length := h.le.trans (min_le_left _ _)
  have hlen : (a.take r).length = r := List.length_take_of_le hr
  refine ⟨hlen, List.take_prefix r a, ?_, fun v hva hvb => ?_⟩
  · rw [List.prefix_iff_eq_take, hlen]
    refine List.ext_getElem? fun k => ?_
    by_cases hk : k < r
    · rw [List.getElem?_take_of_lt hk, List.getElem?_take_of_lt hk]
      exact of_decide_eq_true (h.equal k hk)
    · rw [List.getElem?_take_eq_none (Nat.le_of_not_lt hk), List.getElem?_take_eq_none (Nat.le_of_not_lt hk)]
  · rw [hlen]
    by_contra hlt
    have hr' : r < v.length := Nat.lt_of_not_le hlt
    have hstop := h.stops (lt_min (hr'.trans_le hva.length_le) (hr'.trans_le hvb.length_le))
    have heq : a[r]? = b[r]? := by
      obtain ⟨s, rfl⟩ := hva
      obtain ⟨t, rfl⟩ := hvb
      rw [List.getElem?_append_left hr', List.getElem?_append_left hr']
    exact absurd heq (of_decide_eq_false hstop)

def byteAt (a : Bytes) (k : Nat) : Byte := a[k]?.getD 0

theorem getElem?_byteAt {k : Nat} (hk : k < a.length) : a[k]? = some (byteAt a k) := by
  rw [byteAt, List.getElem?_eq_getElem hk, Option.getD_some]

theorem allEqual_byteAt {k : Nat} (ha : k + wordSize ≤ a.length) (hb : k + wordSize ≤ b.length) :
    (List.range wordSize).all (fun j => byteAt a (k + j) = byteAt b (k + j)) =
      allEqual (fun k => a[k]? = b[k]?) k := by
  rw [allEqual, Bool.eq_iff_iff, List.all_eq_true, List.all_eq_true]
  refine forall₂_congr fun j hj => ?_
  have hj := List.mem_range.mp hj
  rw [decide_eq_true_iff, decide_eq_true_iff, getElem?_byteAt (show k + j < a.length by omega),
    getElem?_byteAt (show k + j < b.length by omega), Option.some_inj]

/-- The memories hold the first bytes of the strings, as many as both have; what else they hold does not matter. -/
theorem memshared_longest_prefix (ha : ∀ i < min a.length b.length, ma i = a[i]?)
    (hb : ∀ i < min a.length b.length, mb i = b[i]?) :
    ∃ w, memshared ma a.length mb b.length = some w.length ∧ Longest (fun w => w <+: b) w a := by
  have hword : ∀ k, k + wordSize ≤ min a.length b.length →
      same (word ma k) (word mb k) = some (allEqual (fun k => a[k]? = b[k]?) k) := by
    intro k hk
    have hka : k + wordSize ≤ a.length := hk.trans (min_le_left _ _)
    have hkb : k + wordSize ≤ b.length := hk.trans (min_le_right _ _)
    rw [← allEqual_byteAt hka hkb]
    refine same_word (fun j hj => ?_) (fun j hj => ?_)
    · rw [ha _ (by omega), getElem?_byteAt (by omega)]
    · rw [hb _ (by omega), getElem?_byteAt (by omega)]
  have hbyte : ∀ k < min a.length b.length, same (ma k) (mb k) = some (decide (a[k]? = b[k]?)) := by
    intro k hk
    have hka : k < a.length := hk.trans_le (min_le_left _ _)
    have hkb : k < b.length := hk.trans_le (min_le_right _ _)
    rw [ha k hk, hb k hk, getElem?_byteAt hka, getElem?_byteAt hkb, same_some]
    simp only [Option.some_inj]
  obtain ⟨r, hshared, hrun⟩ := shared_spec hword hbyte
  obtain ⟨hlen, hlongest⟩ := hrun.longest
  exact ⟨a.take r, by rw [memshared, hshared, hlen], hlongest⟩

theorem length_le_shared {v a b : Bytes} (ha : v <+: a) (hb : v <+: b) : v.length ≤ Zcl.memshared a b := by
  induction v generalizing a b with
  | nil => exact Nat.zero_le _
  | cons x v ih =>
    obtain ⟨s, rfl⟩ := ha
    obtain ⟨t, rfl⟩ := hb
    simp only [List.cons_append, Zcl.memshared, if_true, List.length_cons]
    exact Nat.succ_le_succ (ih (List.prefix_append v s) (List.prefix_append v t))

/-- What the buckets call with is the length that the code computes. -/
theorem memshared_eq_bucket (ha : ∀ i < min a.length b.length, ma i = a[i]?)
    (hb : ∀ i < min a.length b.length, mb i = b[i]?) :
    memshared ma a.length mb b.length = some (Zcl.memshared a b) := by
  obtain ⟨w, hshared, hlongest⟩ := memshared_longest_prefix ha hb
  have hlen : (a.take (Zcl.memshared a b)).length = Zcl.memshared a b :=
    List.length_take_of_le (Zcl.memshared_le_left a b)
  have hle := hlongest.longest (a.take (Zcl.memshared a b)) (List.take_prefix _ _)
    (Zcl.take_memshared a b ▸ List.take_prefix _ _)
  have hge := length_le_shared hlongest.isPrefix hlongest.property
  rw [hshared]
  congr 1
  omega

/-- The byte at a distance from the end. -/
theorem getElem?_reverse_byteAt {k : Nat} (hk : k < a.length) : a.reverse[k]? = some (byteAt a (a.length - k - 1)) := by
  rw [List.getElem?_reverse hk, show a.length - 1 - k = a.length - k - 1 by omega, getElem?_byteAt (by omega)]

theorem allEqual_reverse {k : Nat} (ha : k + wordSize ≤ a.length) (hb : k + wordSize ≤ b.length) :
    (List.range wordSize).all (fun j => byteAt a (a.length - k - wordSize + j) = byteAt b (b.length - k - wordSize + j)) =
      allEqual (fun k => a.reverse[k]? = b.reverse[k]?) k := by
  have hplace : ∀ {c : Bytes} {j : Nat}, j < wordSize → k + wordSize ≤ c.length →
      c.reverse[k + (wordSize - 1 - j)]? = some (byteAt c (c.length - k - wordSize + j)) := by
    intro c j hj hc
    rw [getElem?_reverse_byteAt (by omega)]
    congr 2
    omega
  rw [allEqual, Bool.eq_iff_iff, List.all_eq_true, List.all_eq_true]
  constructor
  · intro h j hj
    have hj := List.mem_range.mp hj
    have hback : wordSize - 1 - (wordSize - 1 - j) = j := by omega
    have heq := of_decide_eq_true (h (wordSize - 1 - j) (List.mem_range.mpr (by omega)))
    have hja := hplace (show wordSize - 1 - j < wordSize by omega) ha
    have hjb := hplace (show wordSize - 1 - j < wordSize by omega) hb
    rw [hback] at hja hjb
    rw [decide_eq_true_iff, hja, hjb, heq]
  · intro h j hj
    have hj := List.mem_range.mp hj
    have heq := of_decide_eq_true (h (wordSize - 1 - j) (List.mem_range.mpr (by omega)))
    rw [hplace hj ha, hplace hj hb] at heq
    exact decide_eq_true (Option.some.inj heq)

/-- The same from the ends of the strings, which the reversed strings have at their beginnings. -/
theorem memrshared_longest_suffix (ha : ∀ i < a.length, a.length - min a.length b.length ≤ i → ma i = a[i]?)
    (hb : ∀ i < b.length, b.length - min a.length b.length ≤ i → mb i = b[i]?) :
    ∃ w, memrshared ma a.length mb b.length = some w.length ∧ w <:+ a ∧ w <:+ b ∧
      ∀ v, v <:+ a → v <:+ b → v.length ≤ w.length := by
  have hword : ∀ k, k + wordSize ≤ min a.length b.length →
      same (word ma (a.length - k - wordSize)) (word mb (b.length - k - wordSize)) =
        some (allEqual (fun k => a.reverse[k]? = b.reverse[k]?) k) := by
    intro k hk
    have hka : k + wordSize ≤ a.length := hk.trans (min_le_left _ _)
    have hkb : k + wordSize ≤ b.length := hk.trans (min_le_right _ _)
    rw [← allEqual_reverse hka hkb]
    refine same_word (fun j hj => ?_) (fun j hj => ?_)
    · rw [ha _ (by omega) (by omega), getElem?_byteAt (by omega)]
    · rw [hb _ (by omega) (by omega), getElem?_byteAt (by omega)]
  have hbyte : ∀ k < min a.length b.length, same (ma (a.length - k - 1)) (mb (b.length - k - 1)) =
      some (decide (a.reverse[k]? = b.reverse[k]?)) := by
    intro k hk
    have hka : k < a.length := hk.trans_le (min_le_left _ _)
    have hkb : k < b.length := hk.trans_le (min_le_right _ _)
    rw [ha _ (by omega) (by omega), hb _ (by omega) (by omega), getElem?_byteAt (by omega), getElem?_byteAt (by omega),
      same_some, getElem?_reverse_byteAt hka, getElem?_reverse_byteAt hkb]
    simp only [Option.some_inj]
  obtain ⟨r, hshared, hrun⟩ := shared_spec hword hbyte
  have hrev : ∀ c : Bytes, c.length = c.reverse.length := fun c => List.length_reverse.symm
  rw [hrev a, hrev b] at hrun
  obtain ⟨hlen, hlongest⟩ := hrun.longest
  refine ⟨(a.reverse.take r).reverse, ?_, ?_, ?_, fun v hva hvb => ?_⟩
  · rw [memrshared, hshared, List.length_reverse, hlen]
  · rw [← List.reverse_prefix, List.reverse_reverse]
    exact hlongest.isPrefix
  · rw [← List.reverse_prefix, List.reverse_reverse]
    exact hlongest.property
  · have hle := hlongest.longest v.reverse (List.reverse_prefix.mpr hva) (List.reverse_prefix.mpr hvb)
    rwa [List.length_reverse] at hle ⊢

/-- The result is the length of the longest string that stands to both strings in the relation. -/
def GivesLongest (R : Bytes → Bytes → Prop) (a b : Bytes) (result : Option Nat) : Prop :=
  ∃ w, result = some w.length ∧ R w a ∧ R w b ∧ ∀ v, R v a → R v b → v.length ≤ w.length

/-- Both functions, in memories that hold the first, and the last, bytes of the strings and any others or none. -/
theorem shared_longest (a b : Bytes) (ma mb na nb : Memory) (hma : ∀ i < min a.length b.length, ma i = a[i]?)
    (hmb : ∀ i < min a.length b.length, mb i = b[i]?)
    (hna : ∀ i < a.length, a.length - min a.length b.length ≤ i → na i = a[i]?)
    (hnb : ∀ i < b.length, b.length - min a.length b.length ≤ i → nb i = b[i]?) :
    GivesLongest List.IsPrefix a b (memshared ma a.length mb b.length) ∧
      GivesLongest List.IsSuffix a b (memrshared na a.length nb b.length) := by
  obtain ⟨w, hshared, hlongest⟩ := memshared_longest_prefix hma hmb
  exact ⟨⟨w, hshared, hlongest.isPrefix, hlongest.property, hlongest.longest⟩, memrshared_longest_suffix hna hnb⟩

/-- In memories that hold no other bytes. -/
theorem shared_longest_one_byte :
    GivesLongest List.IsPrefix [1, 5] [1, 4, 5] (memshared (fun i => [1, 5][i]?) 2 (fun i => [1, 4][i]?) 3) ∧
      GivesLongest List.IsSuffix [1, 5] [1, 4, 5]
        (memrshared (fun i => [1, 5][i]?) 2 (fun i => if i = 0 then none else [1, 4, 5][i]?) 3) := by
  refine shared_longest [1, 5] [1, 4, 5] _ _ _ _ (fun i _ => rfl) (fun i hi => ?_) (fun i _ _ => rfl) (fun i hi hle => ?_)
  · have hi : i < 2 := hi
    interval_cases i <;> rfl
  · have hle : 1 ≤ i := hle
    exact if_neg (Nat.ne_of_gt hle)

end RaleighSL.Zcl.MemShared
