import Mathlib.Logic.Function.Basic
import Mathlib.Data.List.Induction

/-!
# The murmur3 hash

`hash/murmur3.c` and the functions of `hash/hash.c` that call its plug-in. The plug-in carries up to
three bytes from one update to the next one. Words are read with the lowest byte first, and lengths
are numbers of 32 bits.
-/
namespace RaleighSL.Zcl.Murmur3

def rotl32 (x : UInt32) (r : UInt32) : UInt32 := (x <<< r) ||| (x >>> (32 - r))

/-- What a word is multiplied and rotated to in `z_hash32_murmur3`. -/
def mixWord (k1 : UInt32) : UInt32 := rotl32 (k1 * 0xcc9e2d51) 15 * 0x1b873593

/-- A turn of the loop of `z_hash32_murmur3`. -/
@[irreducible] def mixBlock (h1 k1 : UInt32) : UInt32 := rotl32 (h1 ^^^ mixWord k1) 13 * 5 + 0xe6546b64

def word (b₀ b₁ b₂ b₃ : UInt8) : UInt32 :=
  b₀.toUInt32 ||| b₁.toUInt32 <<< 8 ||| b₂.toUInt32 <<< 16 ||| b₃.toUInt32 <<< 24

/-- The loop over the words: the hash, and the bytes behind the last word. -/
def blocks (h1 : UInt32) : List UInt8 → UInt32 × List UInt8
  | b₀ :: b₁ :: b₂ :: b₃ :: data => blocks (mixBlock h1 (word b₀ b₁ b₂ b₃)) data
  | tail => (h1, tail)

/-- The switch over the bytes behind the last word, of which there are `n`. -/
def mixTail (h1 : UInt32) (n : Nat) (tail : Nat → UInt8) : UInt32 :=
  match n with
  | 3 => h1 ^^^ mixWord (((tail 2).toUInt32 <<< 16) ^^^ ((tail 1).toUInt32 <<< 8) ^^^ (tail 0).toUInt32)
  | 2 => h1 ^^^ mixWord (((tail 1).toUInt32 <<< 8) ^^^ (tail 0).toUInt32)
  | 1 => h1 ^^^ mixWord (tail 0).toUInt32
  | _ => h1

def finalize (h1 n : UInt32) : UInt32 :=
  let h1 := h1 ^^^ n
  let h1 := h1 ^^^ (h1 >>> 16)
  let h1 := h1 * 0x85ebca6b
  let h1 := h1 ^^^ (h1 >>> 13)
  let h1 := h1 * 0xc2b2ae35
  h1 ^^^ (h1 >>> 16)

def byteAt (data : List UInt8) (i : Nat) : UInt8 := data.getD i 0

def hash32Murmur3 (blob : List UInt8) (seed : UInt32) : UInt32 :=
  let r := blocks seed blob
  finalize (mixTail r.1 (blob.length % 4) (byteAt r.2)) (UInt32.ofNat blob.length)

/-! ### The plug-in -/

structure Hash32 where
  buffer : Nat → UInt8
  bufsize : Nat
  length : UInt32
  hash : UInt32

namespace Hash32

/-- `z_hash32_init`, which leaves the buffer as the memory has it. -/
def init (memory : Nat → UInt8) (seed : UInt32) : Hash32 :=
  { buffer := memory, bufsize := 0, length := 0, hash := seed }

/-- The loops of `__murmur3_update` that copy bytes behind the ones of the buffer. -/
def push (self : Hash32) : List UInt8 → Hash32
  | [] => self
  | b :: data =>
    push { self with buffer := Function.update self.buffer self.bufsize b, bufsize := self.bufsize + 1 } data

def processBlock (self : Hash32) (k1 : UInt32) : Hash32 :=
  let k1 := k1 * 0xcc9e2d51
  let k1 := rotl32 k1 15
  let k1 := k1 * 0x1b873593
  let h1 := self.hash ^^^ k1
  let h1 := rotl32 h1 13
  { self with hash := h1 * 5 + 0xe6546b64 }

/-- The loop of `__murmur3_update` over the words, and the bytes behind them. -/
def processBlocks (self : Hash32) : List UInt8 → Hash32 × List UInt8
  | b₀ :: b₁ :: b₂ :: b₃ :: data => processBlocks (self.processBlock (word b₀ b₁ b₂ b₃)) data
  | tail => (self, tail)

/-- The part of `__murmur3_update` behind the buffer: the words, and the switch that keeps the bytes behind them. -/
def updateBlocks (self : Hash32) (data : List UInt8) : Hash32 :=
  let r := self.processBlocks data
  { r.1 with
    bufsize := data.length % 4
    buffer := fun i => if i < data.length % 4 then byteAt r.2 i else r.1.buffer i }

def murmur3Update (self : Hash32) (data : List UInt8) : Hash32 :=
  let missing := 4 - self.bufsize
  if missing ≠ 4 then
    if data.length < missing then self.push data
    else
      let self := self.push (data.take missing)
      let block := word (self.buffer 0) (self.buffer 1) (self.buffer 2) (self.buffer 3)
      updateBlocks (self.processBlock block) (data.drop missing)
  else self.updateBlocks data

def update (self : Hash32) (data : List UInt8) : Hash32 :=
  murmur3Update { self with length := self.length + UInt32.ofNat data.length } data

def murmur3Digest (self : Hash32) : Hash32 :=
  let mix (k1 : UInt32) : UInt32 :=
    let k1 := k1 * 0xcc9e2d51
    let k1 := rotl32 k1 15
    let k1 := k1 * 0x1b873593
    self.hash ^^^ k1
  let h1 := match self.bufsize % 4 with
    | 3 => mix (((self.buffer 2).toUInt32 <<< 16) ^^^ ((self.buffer 1).toUInt32 <<< 8) ^^^ (self.buffer 0).toUInt32)
    | 2 => mix (((self.buffer 1).toUInt32 <<< 8) ^^^ (self.buffer 0).toUInt32)
    | 1 => mix (self.buffer 0).toUInt32
    | _ => self.hash
  let h1 := h1 ^^^ self.length
  let h1 := h1 ^^^ (h1 >>> 16)
  let h1 := h1 * 0x85ebca6b
  let h1 := h1 ^^^ (h1 >>> 13)
  let h1 := h1 * 0xc2b2ae35
  { self with hash := h1 ^^^ (h1 >>> 16) }

def digest (self : Hash32) : UInt32 := self.murmur3Digest.hash

/-! ### The plug-in and the hash of a whole string -/

theorem processBlock_eq (self : Hash32) (k1 : UInt32) :
    self.processBlock k1 = { self with hash := mixBlock self.hash k1 } := by
  unfold mixBlock
  rfl

theorem processBlocks_eq (self : Hash32) (data : List UInt8) :
    self.processBlocks data = ({ self with hash := (blocks self.hash data).1 }, (blocks self.hash data).2) := by
  fun_induction processBlocks self data with
  | case1 self b₀ b₁ b₂ b₃ data ih =>
    rw [ih, processBlock_eq, blocks]
  | case2 self tail htail => rw [blocks.eq_2 _ _ htail]

theorem digest_eq (self : Hash32) :
    self.digest = finalize (mixTail self.hash (self.bufsize % 4) self.buffer) self.length := by
  simp only [digest, murmur3Digest, mixTail, finalize, mixWord]

end Hash32

/-! ### Words of a longer string -/

theorem blocks_cons (h1 : UInt32) (b₀ b₁ b₂ b₃ : UInt8) (data : List UInt8) :
    blocks h1 (b₀ :: b₁ :: b₂ :: b₃ :: data) = blocks (mixBlock h1 (word b₀ b₁ b₂ b₃)) data := by
  rw [blocks]

theorem blocks_short (h1 : UInt32) {data : List UInt8} (h : data.length < 4) : blocks h1 data = (h1, data) := by
  match data, h with
  | [], _ => rfl
  | [_], _ => rfl
  | [_, _], _ => rfl
  | [_, _, _], _ => rfl

/-- The words of a string go on with the bytes that were behind its last word, of which there are fewer than four. -/
theorem blocks_append (h1 : UInt32) (a : List UInt8) : (blocks h1 a).2.length = a.length % 4 ∧
    ∀ b, blocks h1 (a ++ b) = blocks (blocks h1 a).1 ((blocks h1 a).2 ++ b) := by
  fun_induction blocks h1 a with
  | case1 h1 b₀ b₁ b₂ b₃ data ih =>
    obtain ⟨hlen, happ⟩ := ih
    refine ⟨?_, fun b => ?_⟩
    · rw [hlen]
      simp only [List.length_cons]
      omega
    · rw [List.cons_append, List.cons_append, List.cons_append, List.cons_append, blocks_cons]
      exact happ b
  | case2 h1 tail htail =>
    have hlt : tail.length < 4 := by
      match tail, htail with
      | [], _ => exact Nat.zero_lt_succ 3
      | [_], _ => exact Nat.one_lt_succ_succ 2
      | [_, _], _ => exact Nat.lt_of_sub_eq_succ rfl
      | [_, _, _], _ => exact Nat.lt_succ_self 3
      | b₀ :: b₁ :: b₂ :: b₃ :: data, htail => exact (htail b₀ b₁ b₂ b₃ data rfl).elim
    exact ⟨(Nat.mod_eq_of_lt hlt).symm, fun b => rfl⟩

theorem exists_four {data : List UInt8} (h : data.length = 4) : ∃ b₀ b₁ b₂ b₃, data = [b₀, b₁, b₂, b₃] := by
  match data, h with
  | [b₀, b₁, b₂, b₃], _ => exact ⟨b₀, b₁, b₂, b₃, rfl⟩

theorem mixTail_congr (h1 : UInt32) {n : Nat} {s t : Nat → UInt8} (h : ∀ i < n, s i = t i) :
    mixTail h1 n s = mixTail h1 n t := by
  match n, h with
  | 0, _ => simp only [mixTail]
  | 1, h => rw [mixTail, mixTail, h 0 (by decide)]
  | 2, h => rw [mixTail, mixTail, h 0 (by decide), h 1 (by decide)]
  | 3, h => rw [mixTail, mixTail, h 0 (by decide), h 1 (by decide), h 2 (by decide)]
  | n + 4, _ => simp only [mixTail]

theorem byteAt_append_left {s t : List UInt8} {i : Nat} (h : i < s.length) : byteAt (s ++ t) i = byteAt s i := by
  rw [byteAt, byteAt, List.getD_eq_getElem?_getD, List.getD_eq_getElem?_getD, List.getElem?_append_left h]

namespace Hash32

/-- The state holds the hash of some words and the bytes behind them. -/
structure Holds (s : Hash32) (h1 : UInt32) (tail : List UInt8) : Prop where
  hash : s.hash = h1
  bufsize : s.bufsize = tail.length
  buffer : ∀ i < tail.length, s.buffer i = byteAt tail i

theorem Holds.push {self : Hash32} {h1 : UInt32} {tail : List UInt8} (h : self.Holds h1 tail) (data : List UInt8) :
    (self.push data).Holds h1 (tail ++ data) ∧ (self.push data).length = self.length := by
  induction data generalizing self tail with
  | nil =>
    rw [List.append_nil]
    exact ⟨h, rfl⟩
  | cons b data ih =>
    have hone : Holds { self with buffer := Function.update self.buffer self.bufsize b, bufsize := self.bufsize + 1 } h1
        (tail ++ [b]) := by
      refine ⟨h.hash, ?_, fun i hi => ?_⟩
      · rw [List.length_append, List.length_singleton]
        exact congrArg (· + 1) h.bufsize
      · rw [List.length_append, List.length_singleton] at hi
        show Function.update self.buffer self.bufsize b i = _
        by_cases hlt : i < tail.length
        · rw [Function.update_of_ne (by rw [h.bufsize]; exact Nat.ne_of_lt hlt), byteAt_append_left hlt]
          exact h.buffer i hlt
        · obtain rfl : i = tail.length := by omega
          rw [← h.bufsize, Function.update_self, byteAt, h.bufsize, List.getD_eq_getElem?_getD,
            List.getElem?_concat_length, Option.getD_some]
    have hrest := ih hone
    rw [List.append_assoc] at hrest
    exact hrest

/-- The words of new bytes, when the buffer is empty. -/
theorem updateBlocks_holds (self : Hash32) (data : List UInt8) :
    (self.updateBlocks data).Holds (blocks self.hash data).1 (blocks self.hash data).2 := by
  have hlen := (blocks_append self.hash data).1
  rw [updateBlocks, processBlocks_eq]
  refine ⟨rfl, hlen.symm, fun i hi => ?_⟩
  rw [hlen] at hi
  exact if_pos hi

theorem updateBlocks_length (self : Hash32) (data : List UInt8) : (self.updateBlocks data).length = self.length := by
  rw [updateBlocks, processBlocks_eq]

/-- An update goes on with the words of the string, from the bytes that were carried. -/
theorem Holds.update {self : Hash32} {h1 : UInt32} {tail : List UInt8} (h : self.Holds h1 tail) (ht : tail.length < 4)
    (data : List UInt8) :
    (self.update data).Holds (blocks h1 (tail ++ data)).1 (blocks h1 (tail ++ data)).2 ∧
      (self.update data).length = self.length + UInt32.ofNat data.length := by
  have hbufsize : self.bufsize = tail.length := h.bufsize
  have hheld : Holds { self with length := self.length + UInt32.ofNat data.length } h1 tail :=
    ⟨h.hash, h.bufsize, h.buffer⟩
  rw [Hash32.update, murmur3Update]
  by_cases hempty : tail = []
  · subst hempty
    have hfour : ¬ 4 - self.bufsize ≠ 4 := by
      rw [hbufsize]
      decide
    rw [if_neg hfour, List.nil_append, ← h.hash]
    exact ⟨updateBlocks_holds { self with length := self.length + UInt32.ofNat data.length } data, updateBlocks_length ..⟩
  · have hpos : 0 < tail.length := List.length_pos_iff.mpr hempty
    have hfour : 4 - self.bufsize ≠ 4 := by omega
    rw [if_pos hfour]
    by_cases hshort : data.length < 4 - self.bufsize
    · rw [if_pos hshort]
      obtain ⟨hpush, hlength⟩ := hheld.push data
      have hlt : (tail ++ data).length < 4 := by
        rw [List.length_append]
        omega
      rw [blocks_short h1 hlt]
      exact ⟨hpush, hlength⟩
    · rw [if_neg hshort]
      have htake : (data.take (4 - self.bufsize)).length = 4 - tail.length := by
        rw [List.length_take_of_le (Nat.le_of_not_lt hshort), hbufsize]
      obtain ⟨hpush, hlength⟩ := hheld.push (data.take (4 - self.bufsize))
      obtain ⟨b₀, b₁, b₂, b₃, hfull⟩ := exists_four (show (tail ++ data.take (4 - self.bufsize)).length = 4 by
        rw [List.length_append, htake]
        omega)
      rw [hfull] at hpush
      have hwords : blocks h1 (tail ++ data) =
          blocks (mixBlock h1 (word b₀ b₁ b₂ b₃)) (data.drop (4 - self.bufsize)) := by
        rw [← blocks_cons, ← List.take_append_drop (4 - self.bufsize) data, ← List.append_assoc, hfull,
          List.take_append_drop]
        rfl
      have hrest := updateBlocks_holds { Hash32.push { self with length := self.length + UInt32.ofNat data.length }
        (data.take (4 - self.bufsize)) with hash := mixBlock h1 (word b₀ b₁ b₂ b₃) } (data.drop (4 - self.bufsize))
      have h₀ : _ = b₀ := hpush.buffer 0 (by simp)
      have h₁ : _ = b₁ := hpush.buffer 1 (by simp)
      have h₂ : _ = b₂ := hpush.buffer 2 (by simp)
      have h₃ : _ = b₃ := hpush.buffer 3 (by simp)
      simp only [processBlock_eq, h₀, h₁, h₂, h₃, hpush.hash, hwords]
      exact ⟨hrest, (updateBlocks_length ..).trans hlength⟩

theorem Holds.digest {self : Hash32} {h1 : UInt32} {tail : List UInt8} (h : self.Holds h1 tail) (ht : tail.length < 4) :
    self.digest = finalize (mixTail h1 tail.length (byteAt tail)) self.length := by
  rw [digest_eq, h.hash, h.bufsize, Nat.mod_eq_of_lt ht, mixTail_congr h1 h.buffer]

/-- The updates of a string that is cut into parts hold its words and its last bytes. -/
theorem updates_hold (memory : Nat → UInt8) (seed : UInt32) (parts : List (List UInt8)) :
    (parts.foldl update (init memory seed)).Holds (blocks seed parts.flatten).1 (blocks seed parts.flatten).2 ∧
      (parts.foldl update (init memory seed)).length = UInt32.ofNat parts.flatten.length := by
  induction parts using List.reverseRecOn with
  | nil => exact ⟨⟨rfl, rfl, fun i hi => absurd hi (Nat.not_lt_zero i)⟩, rfl⟩
  | append_singleton parts part ih =>
    obtain ⟨hholds, hlength⟩ := ih
    obtain ⟨htail, happ⟩ := blocks_append seed parts.flatten
    have ht : (blocks seed parts.flatten).2.length < 4 := by
      rw [htail]
      exact Nat.mod_lt _ (by decide)
    obtain ⟨hnext, hnlength⟩ := hholds.update ht part
    rw [List.foldl_append, List.flatten_append, List.flatten_singleton, happ part]
    refine ⟨hnext, hnlength.trans ?_⟩
    rw [hlength, List.length_append, UInt32.ofNat_add]

end Hash32

/-- The hash of a string that is given in parts is the one of the whole string. -/
theorem digest_updates (memory : Nat → UInt8) (seed : UInt32) (parts : List (List UInt8)) :
    (parts.foldl Hash32.update (Hash32.init memory seed)).digest = hash32Murmur3 parts.flatten seed := by
  obtain ⟨hholds, hlength⟩ := Hash32.updates_hold memory seed parts
  obtain ⟨htail, -⟩ := blocks_append seed parts.flatten
  have ht : (blocks seed parts.flatten).2.length < 4 := by
    rw [htail]
    exact Nat.mod_lt _ (by decide)
  rw [hholds.digest ht, hlength, hash32Murmur3, htail]

end RaleighSL.Zcl.Murmur3
