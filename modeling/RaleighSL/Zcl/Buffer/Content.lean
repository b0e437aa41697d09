import RaleighSL.Zcl.Buffer.Model

/-!
# The content of a buffer

A buffer holds a byte string in the first bytes of its block. A call that needs room for `n` bytes
has it when the size that `__buffer_grow` asks for has 64 bits, and then each copy is within the
block. The block is larger than its size says when that size has more than 32 bits; it is then
reallocated more often than needed, but has room.
-/
namespace RaleighSL.Zcl.Buffer

open Library

/-- A buffer stands for a byte string: these are its bytes in use, and they are within its block. -/
structure Denotes (s : State) (str : Bytes) : Prop where
  size_eq : s.size = str.length
  size_le : s.size ≤ s.block.length
  content : s.block.take s.size = cellsOf str

/-- What holds between calls. -/
structure Holds (s : State) (str : Bytes) : Prop where
  block : ∃ rest, s.block = cellsOf str ++ rest
  size_eq : s.size = str.length
  blksize : s.blksize = s.block.length % 2 ^ 32
  lt : s.block.length < 2 ^ 64

/-- The size that `__buffer_grow` asks for has 64 bits when room for `n` bytes is needed. -/
def Fits (s : State) (n : Nat) : Prop := n + (if 0 < s.blksize then 1024 else 0) + 31 < 2 ^ 64

variable {s s' : State} {str x : Bytes} {n index size : Nat} {rest block : List (Option Byte)} {r : Int}

@[simp] theorem length_cellsOf (x : Bytes) : (cellsOf x).length = x.length := List.length_map _

theorem cellsOf_append (x y : Bytes) : cellsOf (x ++ y) = cellsOf x ++ cellsOf y := List.map_append

theorem cellsOf_ne_nil (h : x ≠ []) : cellsOf x ≠ [] := by
  rwa [cellsOf, Ne, List.map_eq_nil_iff]

theorem Holds.denotes (h : Holds s str) : Denotes s str := by
  obtain ⟨rest, hblock⟩ := h.block
  have hlen : s.size = (cellsOf str).length := by rw [h.size_eq, length_cellsOf]
  refine ⟨h.size_eq, ?_, ?_⟩
  · rw [hblock, List.length_append, hlen]
    exact Nat.le_add_right _ _
  · rw [hblock, hlen, List.take_left]

theorem holds_empty : Holds empty [] := ⟨⟨[], rfl⟩, rfl, rfl, by decide⟩

/-! ### Room -/

theorem length_realloc (block : List (Option Byte)) (size : Nat) : (realloc block size).length = size := by
  rw [realloc, List.length_append, List.length_take, List.length_replicate]
  omega

theorem realloc_append (h : str.length ≤ size) : ∃ rest', realloc (cellsOf str ++ rest) size = cellsOf str ++ rest' := by
  rw [realloc, List.take_append, List.take_of_length_le (by rwa [length_cellsOf]), List.append_assoc]
  exact ⟨_, rfl⟩

/-- The number of bytes that `__buffer_grow` asks for. -/
def grownSize (s : State) (n : Nat) : Nat :=
  (alignUp (UInt64.ofNat (sizeAdd n (if 0 < s.blksize then (if n < 1024 then 32 else 1024) else 0))) 32).toNat

theorem length_grow (s : State) (n : Nat) : (grow s n).block.length = grownSize s n := length_realloc ..

theorem grownSize_lt (s : State) (n : Nat) : grownSize s n < 2 ^ 64 := UInt64.toNat_lt _

/-- What is asked for is enough exactly when it has 64 bits. -/
theorem le_grownSize_iff (hn : n < 2 ^ 64) : n ≤ grownSize s n ↔ Fits s n := by
  rw [grownSize, toNat_alignUp_32, sizeAdd, sizeAdd, Fits]
  split_ifs <;> omega

/-- A block with room for `n` bytes that starts with the same bytes, as far as these are at most `n`. -/
structure Ready (s s' : State) (str : Bytes) (n : Nat) : Prop where
  size_eq : s'.size = s.size
  room : n ≤ s'.block.length
  blksize : s'.blksize = s'.block.length % 2 ^ 32
  lt : s'.block.length < 2 ^ 64
  keep : str.length ≤ n → ∃ rest, s'.block = cellsOf str ++ rest

theorem Holds.ready (h : Holds s str) (hfits : Fits s n) {p : Prop} [Decidable p] (hp : ¬ p → n ≤ s.blksize) :
    Ready s (if p then grow s n else s) str n := by
  have hn : n < 2 ^ 64 := by
    rw [Fits] at hfits
    omega
  by_cases hneed : p
  · rw [if_pos hneed]
    refine ⟨rfl, ?_, ?_, ?_, ?_⟩
    · rw [length_grow]
      exact (le_grownSize_iff hn).mpr hfits
    · rw [length_grow]
      rfl
    · rw [length_grow]
      exact grownSize_lt s n
    · intro hle
      obtain ⟨rest, hblock⟩ := h.block
      have hgrown := (le_grownSize_iff hn).mpr hfits
      rw [grow, hblock]
      exact realloc_append (Nat.le_trans hle hgrown)
  · rw [if_neg hneed]
    have hle := hp hneed
    rw [h.blksize] at hle
    exact ⟨rfl, Nat.le_trans hle (Nat.mod_le _ _), h.blksize, h.lt, fun _ => h.block⟩

/-- Without the 64 bits there is no room for `n` bytes. -/
theorem Holds.fits_of_room (h : Holds s str) {p : Prop} [Decidable p] (hp : ¬ p → n % 2 ^ 64 ≤ s.blksize)
    (hroom : n ≤ (if p then grow s (n % 2 ^ 64) else s).block.length) : Fits s n := by
  have hlt := h.lt
  by_cases hneed : p
  · rw [if_pos hneed, length_grow] at hroom
    have hgrown := grownSize_lt s (n % 2 ^ 64)
    have hn : n < 2 ^ 64 := by omega
    rw [Nat.mod_eq_of_lt hn] at hroom
    exact (le_grownSize_iff hn).mp hroom
  · rw [if_neg hneed] at hroom
    have hle := hp hneed
    have hmod : s.block.length % 2 ^ 32 < 2 ^ 32 := Nat.mod_lt _ (by decide)
    rw [Nat.mod_eq_of_lt (by omega), h.blksize] at hle
    rw [Fits]
    split_ifs <;> omega

theorem Ready.holds (h : Ready s s' str n) (hlen : block.length = s'.block.length) (hblock : ∃ rest, block = cellsOf x ++ rest)
    (hsize : size = x.length) : Holds { s' with block := block, size := size } x := by
  refine ⟨hblock, hsize, ?_, ?_⟩
  · show s'.blksize = block.length % 2 ^ 32
    rw [hlen]
    exact h.blksize
  · show block.length < 2 ^ 64
    rw [hlen]
    exact h.lt

theorem Holds.written (h : Holds s str) (hlen : block.length = s.block.length) (hblock : ∃ rest, block = cellsOf x ++ rest)
    (hsize : size = x.length) : Holds { s with block := block, size := size } x := by
  refine ⟨hblock, hsize, ?_, ?_⟩
  · show s.blksize = block.length % 2 ^ 32
    rw [hlen]
    exact h.blksize
  · show block.length < 2 ^ 64
    rw [hlen]
    exact h.lt

/-! ### Set, append and prepend -/

theorem Holds.set (h : Holds s str) (hfits : Fits s x.length) : ∃ s', Buffer.set s x = some (s', 0) ∧ Holds s' x := by
  have hready := h.ready hfits (p := s.blksize < x.length) Nat.not_lt.mp
  generalize ht : (if s.blksize < x.length then grow s x.length else s) = t at hready
  have hwrite := writeAt_front (show (cellsOf x).length ≤ t.block.length by rw [length_cellsOf]; exact hready.room)
  refine ⟨_, ?_, hready.holds (length_of_writeAt hwrite) ⟨_, rfl⟩ rfl⟩
  simp only [Buffer.set, ht, hwrite, Option.map_some]

theorem Holds.set_fits (h : Holds s str) (hx : x.length < 2 ^ 64) (hs : Buffer.set s x = some (s', r)) (hd : Denotes s' x) :
    Fits s x.length := by
  obtain ⟨block, hwrite, hs⟩ := Option.map_eq_some_iff.mp hs
  obtain ⟨rfl, -⟩ := Prod.mk.inj hs
  have hle : x.length ≤ block.length := hd.size_le
  rw [length_of_writeAt hwrite] at hle
  refine h.fits_of_room (p := s.blksize < x.length) ?_ ?_
  · rw [Nat.mod_eq_of_lt hx]
    exact Nat.not_lt.mp
  · rwa [Nat.mod_eq_of_lt hx]

theorem Holds.append (h : Holds s str) (hfits : Fits s (s.size + x.length)) :
    ∃ s', Buffer.append s x = some (s', 0) ∧ Holds s' (str ++ x) := by
  have hn : sizeAdd s.size x.length = s.size + x.length := by
    rw [Fits] at hfits
    exact sizeAdd_of_lt (by omega)
  have hready := h.ready hfits (p := s.blksize ≤ s.size + x.length) (fun hlt => Nat.le_of_lt (Nat.not_le.mp hlt))
  generalize ht : (if s.blksize ≤ s.size + x.length then grow s (s.size + x.length) else s) = t at hready
  obtain ⟨rest, hblock⟩ := hready.keep (by rw [h.size_eq]; exact Nat.le_add_right _ _)
  have hroom := hready.room
  rw [hblock, List.length_append, length_cellsOf, h.size_eq] at hroom
  have hwrite := writeAt_behind (cellsOf str) (show (cellsOf x).length ≤ rest.length by rw [length_cellsOf]; omega)
  rw [← hblock, length_cellsOf str, ← h.size_eq] at hwrite
  have hsize : s.size + x.length = (str ++ x).length := by rw [List.length_append, h.size_eq]
  refine ⟨_, ?_, hready.holds (length_of_writeAt hwrite) ⟨rest.drop (cellsOf x).length, ?_⟩ hsize⟩
  · simp only [Buffer.append, hn, ht, hready.size_eq, hwrite, Option.map_some]
  · rw [cellsOf_append, List.append_assoc]

theorem Holds.append_fits (h : Holds s str) (hs : Buffer.append s x = some (s', r)) (hd : Denotes s' (str ++ x)) :
    Fits s (s.size + x.length) := by
  obtain ⟨block, hwrite, hs⟩ := Option.map_eq_some_iff.mp hs
  obtain ⟨rfl, -⟩ := Prod.mk.inj hs
  have hle : sizeAdd s.size x.length ≤ block.length := hd.size_le
  have hsize : sizeAdd s.size x.length = (str ++ x).length := hd.size_eq
  rw [hsize, length_of_writeAt hwrite, List.length_append, ← h.size_eq] at hle
  exact h.fits_of_room (fun hlt => Nat.le_of_lt (Nat.not_le.mp hlt)) hle

theorem Holds.prepend (h : Holds s str) (hfits : Fits s (s.size + x.length)) :
    ∃ s', Buffer.prepend s x = some (s', 0) ∧ Holds s' (x ++ str) := by
  have hn : sizeAdd s.size x.length = s.size + x.length := by
    rw [Fits] at hfits
    exact sizeAdd_of_lt (by omega)
  have hready := h.ready hfits (p := s.blksize < s.size + x.length) Nat.not_lt.mp
  generalize ht : (if s.blksize < s.size + x.length then grow s (s.size + x.length) else s) = t at hready
  obtain ⟨rest, hblock⟩ := hready.keep (by rw [h.size_eq]; exact Nat.le_add_right _ _)
  have hroom := hready.room
  have hread := readAt_append [] (cellsOf str) rest
  rw [List.nil_append, List.length_nil, ← hblock, length_cellsOf, ← h.size_eq] at hread
  obtain ⟨a, c, hmove, -, ha⟩ := writeAt_within (show x.length + (cellsOf str).length ≤ t.block.length by
    rw [length_cellsOf, ← h.size_eq, Nat.add_comm]
    exact hroom)
  have hwrite := writeAt_append [] (cellsOf str ++ c) (show (cellsOf x).length = a.length by rw [length_cellsOf, ha])
  rw [List.nil_append, List.length_nil, List.nil_append] at hwrite
  have hsize : s.size + x.length = (x ++ str).length := by rw [List.length_append, h.size_eq, Nat.add_comm]
  refine ⟨_, ?_, hready.holds ((length_of_writeAt hwrite).trans (length_of_writeAt hmove)) ⟨c, ?_⟩ hsize⟩
  · simp only [Buffer.prepend, hn, ht, hready.size_eq, moveAt, hread, Option.bind_some, hmove, hwrite, Option.bind_eq_bind]
  · rw [cellsOf_append, List.append_assoc]

theorem Holds.prepend_fits (h : Holds s str) (hs : Buffer.prepend s x = some (s', r)) (hd : Denotes s' (x ++ str)) :
    Fits s (s.size + x.length) := by
  obtain ⟨moved, hmove, hs⟩ := Option.bind_eq_some_iff.mp hs
  obtain ⟨block, hwrite, hs⟩ := Option.bind_eq_some_iff.mp hs
  obtain ⟨rfl, -⟩ := Prod.mk.inj (Option.some.inj hs)
  have hle := hd.size_le
  rw [hd.size_eq] at hle
  have hlen : block.length = _ := (length_of_writeAt hwrite).trans (length_of_moveAt hmove)
  have hle' : (x ++ str).length ≤ block.length := hle
  rw [hlen, List.length_append, ← h.size_eq, Nat.add_comm] at hle'
  exact h.fits_of_room Nat.not_lt.mp hle'

end RaleighSL.Zcl.Buffer
