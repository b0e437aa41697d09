import RaleighSL.Zcl.Buffer.Content

/-!
# Buffers as byte strings

An insertion has room when the place behind its bytes fits, also when it is past the end. A removal
is right unless the place behind what is removed has more than 64 bits: then the bytes in front are
copied, and more bytes are in use than before the place.

A byte string with the calls of a buffer is the abstract machine. A run of calls follows it exactly
when no sum of sizes has more than 64 bits where room is made or bytes are removed.
-/
namespace RaleighSL.Zcl.Buffer

open Library

/-- A string with some bytes put in at a place, padded with zeros up to it. -/
def insertAt (str : Bytes) (index : Nat) (x : Bytes) : Bytes :=
  let str := str ++ List.replicate (index - str.length) 0
  str.take index ++ x ++ str.drop index

def removeAt (str : Bytes) (index size : Nat) : Bytes := str.take index ++ str.drop (index + size)

variable {s s' : State} {str a b x : Bytes} {n index size : Nat} {rest block : List (Option Byte)} {r : Int}

theorem length_insertAt (str : Bytes) (index : Nat) (x : Bytes) :
    (insertAt str index x).length = max str.length index + x.length := by
  simp only [insertAt, List.length_append, List.length_take, List.length_drop, List.length_replicate]
  omega

theorem insertAt_append (a b x : Bytes) : insertAt (a ++ b) a.length x = a ++ (x ++ b) := by
  have hzero : a.length - (a ++ b).length = 0 := by
    rw [List.length_append]
    omega
  rw [insertAt, hzero, List.replicate_zero, List.append_nil, List.take_left, List.drop_left, List.append_assoc]

theorem insertAt_behind (h : str.length ≤ index) (x : Bytes) :
    insertAt str index x = str ++ List.replicate (index - str.length) 0 ++ x := by
  have hlen : (str ++ List.replicate (index - str.length) (0 : Byte)).length = index := by
    rw [List.length_append, List.length_replicate]
    omega
  rw [insertAt, List.take_of_length_le (Nat.le_of_eq hlen), List.drop_of_length_le (Nat.le_of_eq hlen), List.append_nil]

theorem removeAt_nothing (h : str.length ≤ index ∨ size = 0) : removeAt str index size = str := by
  rcases h with hle | rfl
  · rw [removeAt, List.take_of_length_le hle, List.drop_of_length_le (by omega), List.append_nil]
  · rw [removeAt, Nat.add_zero, List.take_append_drop]

theorem Holds.size_lt (h : Holds s str) : s.size < 2 ^ 64 := Nat.lt_of_le_of_lt h.denotes.size_le h.lt

/-! ### Insertion -/

theorem insertedSize_eq (s : State) (n index : Nat) :
    (if s.size < index then sizeAdd (sizeAdd s.size n) (sizeSub index s.size) else sizeAdd s.size n) =
      (max s.size index + n) % 2 ^ 64 := by
  simp only [sizeAdd, sizeSub]
  split_ifs <;> omega

theorem Holds.insert_behind (h : Holds s str) (hindex : index < 2 ^ 64) (hbehind : s.size < index)
    (hfits : Fits s (max s.size index + x.length)) :
    ∃ s', Buffer.insert s index x = some (s', 0) ∧ Holds s' (insertAt str index x) ∧ s'.size = max s.size index + x.length := by
  have hsize := h.size_lt
  have hstr := h.size_eq
  have hn : (if s.size < index then sizeAdd (sizeAdd s.size x.length) (sizeSub index s.size) else
      sizeAdd s.size x.length) = max s.size index + x.length := by
    rw [insertedSize_eq, Nat.mod_eq_of_lt]
    rw [Fits] at hfits
    omega
  have hready := h.ready hfits (p := s.blksize < max s.size index + x.length) Nat.not_lt.mp
  generalize ht : (if s.blksize < max s.size index + x.length then grow s (max s.size index + x.length) else s) = t at hready
  obtain ⟨rest, hblock⟩ := hready.keep (by omega)
  have hroom := hready.room
  rw [hblock, List.length_append, length_cellsOf] at hroom
  have hinsert := insertAt_behind (show str.length ≤ index by omega) x
  have hinserted : max s.size index + x.length = (insertAt str index x).length := by
    rw [length_insertAt, hstr]
  obtain ⟨k, hk⟩ : ∃ k, k = index - str.length := ⟨_, rfl⟩
  rw [← hk] at hinsert
  have hzeros : List.replicate (sizeSub index s.size) (some 0) = cellsOf (List.replicate k 0) := by
    rw [cellsOf, List.map_replicate, sizeSub_of_le (Nat.le_of_lt hbehind), hstr, hk]
  have hpad := writeAt_behind (cellsOf str) (show (cellsOf (List.replicate k 0)).length ≤ rest.length by
    rw [length_cellsOf, List.length_replicate]
    omega)
  rw [← hblock, length_cellsOf str, ← hstr, ← List.append_assoc, ← cellsOf_append] at hpad
  have hlen : (str ++ List.replicate k (0 : Byte)).length = index := by
    rw [List.length_append, List.length_replicate]
    omega
  have htail : (cellsOf x).length ≤ (rest.drop (cellsOf (List.replicate k 0)).length).length := by
    rw [length_cellsOf, List.length_drop, length_cellsOf, List.length_replicate]
    omega
  generalize rest.drop (cellsOf (List.replicate k 0)).length = tail at hpad htail
  have hwrite := writeAt_behind (cellsOf (str ++ List.replicate k 0)) htail
  rw [length_cellsOf (str ++ _), hlen] at hwrite
  refine ⟨_, ?_, hready.holds ((length_of_writeAt hwrite).trans (length_of_writeAt hpad))
    ⟨tail.drop (cellsOf x).length, ?_⟩ hinserted, rfl⟩
  · simp only [Buffer.insert, hn, ht, hready.size_eq, if_pos hbehind, hzeros, hpad, hwrite, Option.bind_eq_bind, Option.bind_some]
  · rw [hinsert, cellsOf_append _ x, List.append_assoc]

theorem Holds.insert_within (h : Holds s (a ++ b)) (hfits : Fits s (s.size + x.length)) :
    ∃ s', Buffer.insert s a.length x = some (s', 0) ∧ Holds s' (a ++ (x ++ b)) ∧ s'.size = s.size + x.length := by
  have hsize := h.size_lt
  have hstr := h.size_eq
  rw [List.length_append] at hstr
  have hn : sizeAdd s.size x.length = s.size + x.length := by
    rw [Fits] at hfits
    exact sizeAdd_of_lt (by omega)
  have hready := h.ready hfits (p := s.blksize < s.size + x.length) Nat.not_lt.mp
  generalize ht : (if s.blksize < s.size + x.length then grow s (s.size + x.length) else s) = t at hready
  obtain ⟨rest, hblock⟩ := hready.keep (by rw [List.length_append]; omega)
  have hroom := hready.room
  have hlt := hready.lt
  rw [cellsOf_append, List.append_assoc] at hblock
  have hread := readAt_append (cellsOf a) (cellsOf b) rest
  have hb : (cellsOf b).length = sizeSub s.size a.length := by
    rw [length_cellsOf, sizeSub_of_le (by omega)]
    omega
  rw [← hblock, hb, length_cellsOf] at hread
  obtain ⟨front, c, hmove, hfront, hlen⟩ := writeAt_within (show a.length + x.length + (cellsOf b).length ≤ t.block.length by
    rw [length_cellsOf]
    omega)
  have hsplit : front = cellsOf a ++ front.drop a.length := by
    have htake : front.take a.length = cellsOf a := by
      rw [hfront, List.take_take, Nat.min_eq_left (Nat.le_add_right _ _), hblock]
      exact List.take_left' (length_cellsOf a)
    rw [← htake, List.take_append_drop]
  have hgap : (cellsOf x).length = (front.drop a.length).length := by
    rw [length_cellsOf, List.length_drop, hlen]
    omega
  have hwrite := writeAt_append (cellsOf a) (cellsOf b ++ c) hgap
  rw [← List.append_assoc, ← hsplit, length_cellsOf] at hwrite
  have hto : sizeAdd a.length x.length = a.length + x.length := sizeAdd_of_lt (by omega)
  have hinserted : s.size + x.length = (a ++ (x ++ b)).length := by
    simp only [List.length_append]
    omega
  refine ⟨_, ?_, hready.holds ((length_of_writeAt hwrite).trans (length_of_writeAt hmove)) ⟨c, ?_⟩ hinserted, rfl⟩
  · simp only [Buffer.insert, hn, if_neg (show ¬ s.size < a.length by omega), ht, hready.size_eq, hto, moveAt, hread, hmove,
      hwrite, Option.bind_eq_bind, Option.bind_some]
  · rw [cellsOf_append, cellsOf_append, List.append_assoc, List.append_assoc]

theorem Holds.insert (h : Holds s str) (hindex : index < 2 ^ 64) (hfits : Fits s (max s.size index + x.length)) :
    ∃ s', Buffer.insert s index x = some (s', 0) ∧ Holds s' (insertAt str index x) := by
  by_cases hbehind : s.size < index
  · obtain ⟨s', hs, hholds, -⟩ := h.insert_behind hindex hbehind hfits
    exact ⟨s', hs, hholds⟩
  · have hstr := h.size_eq
    have hlen : (str.take index).length = index := List.length_take_of_le (by omega)
    have hcut : insertAt str index x = str.take index ++ (x ++ str.drop index) := by
      have happend := insertAt_append (str.take index) (str.drop index) x
      rwa [List.take_append_drop, hlen] at happend
    rw [← List.take_append_drop index str] at h
    rw [Nat.max_eq_left (Nat.not_lt.mp hbehind)] at hfits
    obtain ⟨s', hs, hholds, -⟩ := h.insert_within hfits
    rw [hlen] at hs
    exact ⟨s', hs, by rwa [hcut]⟩

/-- Whatever is copied, the block and the number of bytes are those of the sum in 64 bits. -/
theorem insert_shape (hs : Buffer.insert s index x = some (s', r)) : r = 0 ∧
    s'.size = (max s.size index + x.length) % 2 ^ 64 ∧
    s'.block.length = (if s.blksize < (max s.size index + x.length) % 2 ^ 64 then
      grow s ((max s.size index + x.length) % 2 ^ 64) else s).block.length := by
  have hn := insertedSize_eq s x.length index
  simp only [Buffer.insert, hn] at hs
  generalize (if s.blksize < (max s.size index + x.length) % 2 ^ 64 then
    grow s ((max s.size index + x.length) % 2 ^ 64) else s) = t at hs ⊢
  split_ifs at hs with hbehind
  · obtain ⟨padded, hpad, hs⟩ := Option.bind_eq_some_iff.mp hs
    obtain ⟨block, hwrite, hs⟩ := Option.bind_eq_some_iff.mp hs
    obtain ⟨rfl, rfl⟩ := Prod.mk.inj (Option.some.inj hs)
    exact ⟨rfl, rfl, (length_of_writeAt hwrite).trans (length_of_writeAt hpad)⟩
  · obtain ⟨moved, hmove, hs⟩ := Option.bind_eq_some_iff.mp hs
    obtain ⟨block, hwrite, hs⟩ := Option.bind_eq_some_iff.mp hs
    obtain ⟨rfl, rfl⟩ := Prod.mk.inj (Option.some.inj hs)
    exact ⟨rfl, rfl, (length_of_writeAt hwrite).trans (length_of_moveAt hmove)⟩

theorem Holds.insert_fits (h : Holds s str) (hs : Buffer.insert s index x = some (s', r))
    (hd : Denotes s' (insertAt str index x)) : Fits s (max s.size index + x.length) := by
  obtain ⟨-, -, hlen⟩ := insert_shape hs
  have hle := hd.size_le
  rw [hd.size_eq, length_insertAt, ← h.size_eq, hlen] at hle
  exact h.fits_of_room Nat.not_lt.mp hle

/-! ### Removal -/

theorem Holds.with_size (h : Holds s (a ++ b)) : Holds { s with size := a.length } a := by
  obtain ⟨rest, hblock⟩ := h.block
  rw [cellsOf_append, List.append_assoc] at hblock
  exact ⟨⟨_, hblock⟩, rfl, h.blksize, h.lt⟩

theorem Holds.remove (h : Holds s str) (hsize : index < s.size → index + size < 2 ^ 64) :
    ∃ s', Buffer.remove s index size = some (s', if s.size ≤ index ∨ size = 0 then -1 else 0) ∧
      Holds s' (removeAt str index size) ∧ s'.blksize = s.blksize ∧
      (s.size ≤ index ∨ size = 0 → s' = s) := by
  have hstr := h.size_eq
  rw [Buffer.remove]
  by_cases hnothing : s.size ≤ index ∨ size = 0
  · rw [if_pos hnothing, if_pos hnothing, removeAt_nothing (by rwa [← hstr])]
    exact ⟨s, rfl, h, rfl, fun _ => rfl⟩
  · have hlt := Nat.not_le.mp (fun hle => hnothing (Or.inl hle))
    have hadd := sizeAdd_of_lt (hsize hlt)
    have htake : (str.take index).length = index := List.length_take_of_le (by omega)
    rw [if_neg hnothing, if_neg hnothing, hadd]
    by_cases hclamp : s.size ≤ index + size
    · rw [if_pos hclamp]
      have hcut : removeAt str index size = str.take index := by
        rw [removeAt, List.drop_of_length_le (by omega), List.append_nil]
      rw [← List.take_append_drop index str] at h
      have hholds := h.with_size
      rw [htake] at hholds
      exact ⟨_, rfl, by rwa [hcut], rfl, fun hn => absurd hn hnothing⟩
    · obtain ⟨rest, hblock⟩ := h.block
      have hlt64 := h.size_lt
      have hsplit : cellsOf str = cellsOf (str.take (index + size)) ++ cellsOf (str.drop (index + size)) := by
        rw [← cellsOf_append, List.take_append_drop]
      have hread := readAt_append (cellsOf (str.take (index + size))) (cellsOf (str.drop (index + size))) rest
      have hcount : sizeSub (sizeSub s.size index) size = (cellsOf (str.drop (index + size))).length := by
        rw [sizeSub_of_le (Nat.le_of_lt hlt), sizeSub_of_le (by omega), length_cellsOf, List.length_drop]
        omega
      have hfrom : (cellsOf (str.take (index + size))).length = index + size := by
        rw [length_cellsOf, List.length_take_of_le (by omega)]
      rw [← List.append_assoc, ← hsplit, ← hblock, hfrom] at hread
      have hfront : s.block = cellsOf (str.take index) ++ (cellsOf (str.drop index) ++ rest) := by
        rw [← List.append_assoc, ← cellsOf_append, List.take_append_drop, hblock]
      have hwrite := writeAt_behind (cellsOf (str.take index))
        (show (cellsOf (str.drop (index + size))).length ≤ (cellsOf (str.drop index) ++ rest).length by
          rw [List.length_append, length_cellsOf, length_cellsOf, List.length_drop, List.length_drop]
          omega)
      rw [← hfront, length_cellsOf, htake] at hwrite
      have hnew : sizeSub s.size size = (removeAt str index size).length := by
        rw [removeAt, List.length_append, htake, List.length_drop, sizeSub_of_le (by omega)]
        omega
      rw [if_neg hclamp, moveAt, hcount, hread, Option.bind_some, hwrite, Option.map_some]
      refine ⟨_, rfl, h.written (length_of_writeAt hwrite)
        ⟨(cellsOf (str.drop index) ++ rest).drop (cellsOf (str.drop (index + size))).length, ?_⟩ hnew, rfl,
        fun hn => absurd hn hnothing⟩
      rw [removeAt, cellsOf_append, List.append_assoc]

/-- When the place behind has more than 64 bits, more bytes than those in front of the place are in use. -/
theorem Holds.remove_wraps (h : Holds s str) (hlt : index < s.size) (hsize : size < 2 ^ 64)
    (hwrap : 2 ^ 64 ≤ index + size) (hs : Buffer.remove s index size = some (s', r)) :
    index < s'.size ∧ s'.size < 2 ^ 64 := by
  have hlt64 := h.size_lt
  have hgap : sizeSub (sizeSub s.size index) size = s.size + 2 ^ 64 - (index + size) := by
    rw [sizeSub_of_le (Nat.le_of_lt hlt), sizeSub_of_lt (by omega) hsize]
    omega
  have hadd : sizeAdd index size = index + size - 2 ^ 64 := by
    rw [sizeAdd]
    omega
  rw [Buffer.remove, if_neg (by omega), hadd, if_neg (by omega), hgap] at hs
  obtain ⟨block, hmove, hs⟩ := Option.map_eq_some_iff.mp hs
  obtain ⟨rfl, -⟩ := Prod.mk.inj hs
  obtain ⟨cells, hread, hwrite⟩ := Option.bind_eq_some_iff.mp hmove
  have hcells := length_of_readAt hread
  have hle := le_of_writeAt hwrite (List.ne_nil_of_length_pos (by omega))
  have hblock := h.lt
  have hnew : sizeSub s.size size = index + (s.size + 2 ^ 64 - (index + size)) := by
    rw [sizeSub_eq_mod hlt64]
    omega
  show index < sizeSub s.size size ∧ sizeSub s.size size < 2 ^ 64
  omega

/-! ### Replacement -/

/-- A replacement is right when the place behind what is replaced has 64 bits, and unless bytes are only overwritten there is
room for the string with the bytes put in. -/
def ReplaceFine (s : State) (index size n : Nat) : Prop :=
  if size = n ∧ sizeAdd index n ≤ s.size then index + n < 2 ^ 64
  else (index < s.size → index + size < 2 ^ 64) ∧ Fits s (max (min index s.size + (s.size - (index + size))) index + n)

theorem length_removeAt (str : Bytes) (index size : Nat) :
    (removeAt str index size).length = min index str.length + (str.length - (index + size)) := by
  rw [removeAt, List.length_append, List.length_take, List.length_drop]

theorem Holds.replace_inPlace (h : Holds s str) (hplace : size = x.length ∧ sizeAdd index x.length ≤ s.size)
    (hlt : index + x.length < 2 ^ 64) :
    ∃ s', Buffer.replace s index size x = some (s', 0) ∧ Holds s' (insertAt (removeAt str index size) index x) := by
  obtain ⟨rfl, hle⟩ := hplace
  have hstr := h.size_eq
  rw [sizeAdd_of_lt hlt, hstr] at hle
  obtain ⟨rest, hblock⟩ := h.block
  have htake : (str.take index).length = index := List.length_take_of_le (by omega)
  have hmid : ((str.drop index).take x.length).length = x.length :=
    List.length_take_of_le (by rw [List.length_drop]; omega)
  have hsplit : str = str.take index ++ ((str.drop index).take x.length ++ str.drop (index + x.length)) := by
    rw [← List.drop_drop, List.take_append_drop, List.take_append_drop]
  have hcut : insertAt (removeAt str index x.length) index x = str.take index ++ (x ++ str.drop (index + x.length)) := by
    have happend := insertAt_append (str.take index) (str.drop (index + x.length)) x
    rwa [htake] at happend
  have hwrite := writeAt_append (cellsOf (str.take index)) (cellsOf (str.drop (index + x.length)) ++ rest)
    (show (cellsOf x).length = (cellsOf ((str.drop index).take x.length)).length by rw [length_cellsOf, length_cellsOf, hmid])
  have hfront : s.block = cellsOf (str.take index) ++
      (cellsOf ((str.drop index).take x.length) ++ (cellsOf (str.drop (index + x.length)) ++ rest)) := by
    rw [hblock]
    conv_lhs => rw [hsplit]
    simp only [cellsOf_append, List.append_assoc]
  rw [← hfront, length_cellsOf, htake] at hwrite
  have hsize : s.size = (insertAt (removeAt str index x.length) index x).length := by
    rw [length_insertAt, length_removeAt, hstr]
    omega
  refine ⟨_, ?_, h.written (length_of_writeAt hwrite) ⟨rest, ?_⟩ hsize⟩
  · rw [Buffer.replace, if_pos ⟨rfl, by rw [sizeAdd_of_lt hlt, hstr]; exact hle⟩, hwrite, Option.map_some]
  · simp only [hcut, cellsOf_append, List.append_assoc]

theorem Holds.replace (h : Holds s str) (hindex : index < 2 ^ 64) (hfine : ReplaceFine s index size x.length) :
    ∃ s', Buffer.replace s index size x = some (s', 0) ∧ Holds s' (insertAt (removeAt str index size) index x) := by
  rw [ReplaceFine] at hfine
  split_ifs at hfine with hplace
  · exact h.replace_inPlace hplace hfine
  · obtain ⟨hwrap, hfits⟩ := hfine
    obtain ⟨s₁, hremove, hholds, hblksize, -⟩ := h.remove hwrap
    have hsize : s₁.size = min index s.size + (s.size - (index + size)) := by
      rw [hholds.size_eq, length_removeAt, h.size_eq]
    have hfits' : Fits s₁ (max s₁.size index + x.length) := by
      rw [hsize, Fits, hblksize]
      exact hfits
    obtain ⟨s₂, hinsert, hholds'⟩ := hholds.insert hindex hfits'
    refine ⟨s₂, ?_, hholds'⟩
    rw [Buffer.replace, if_neg hplace, hremove]
    simp only [Option.bind_eq_bind, Option.bind_some, hinsert]

theorem Holds.replace_fine (h : Holds s str) (hindex : index < 2 ^ 64) (hsize : size < 2 ^ 64)
    (hs : Buffer.replace s index size x = some (s', r)) (hd : Denotes s' (insertAt (removeAt str index size) index x)) :
    ReplaceFine s index size x.length := by
  have hstr := h.size_eq
  rw [ReplaceFine]
  split_ifs with hplace
  · rw [Buffer.replace, if_pos hplace] at hs
    obtain ⟨block, hwrite, -⟩ := Option.map_eq_some_iff.mp hs
    by_contra hwrap
    have hle := le_of_writeAt hwrite (cellsOf_ne_nil (List.ne_nil_of_length_pos (by omega)))
    have hlt := h.lt
    rw [length_cellsOf] at hle
    omega
  · rw [Buffer.replace, if_neg hplace] at hs
    obtain ⟨⟨s₁, r₁⟩, hremove, hs⟩ := Option.bind_eq_some_iff.mp hs
    obtain ⟨⟨s₂, r₂⟩, hinsert, hs⟩ := Option.bind_eq_some_iff.mp hs
    obtain ⟨rfl, -⟩ := Prod.mk.inj (Option.some.inj hs)
    have hwrap : index < s.size → index + size < 2 ^ 64 := by
      intro hlt
      by_contra hge
      obtain ⟨hmore, hlt64⟩ := h.remove_wraps hlt hsize (Nat.not_lt.mp hge) hremove
      obtain ⟨-, hnew, -⟩ := insert_shape hinsert
      have hlast := h.size_lt
      have heq := hd.size_eq
      rw [length_insertAt, length_removeAt, ← hstr, hnew] at heq
      omega
    refine ⟨hwrap, ?_⟩
    obtain ⟨s₁', hremove', hholds, hblksize, -⟩ := h.remove hwrap
    obtain ⟨rfl, -⟩ := Prod.mk.inj (Option.some.inj (hremove'.symm.trans hremove))
    have hfits := hholds.insert_fits hinsert hd
    rw [hholds.size_eq, length_removeAt, Fits, hblksize, ← hstr] at hfits
    exact hfits

/-! ### Runs of calls -/

/-- What a call means for a byte string, and its result. A call that returns an error changes nothing. -/
def specStep (str : Bytes) : Op → Bytes × Int
  | .set blob => (blob.data, 0)
  | .append blob => (str ++ blob.data, 0)
  | .prepend blob => (blob.data ++ str, 0)
  | .insert index blob => (insertAt str index.toNat blob.data, 0)
  | .remove index size =>
    if str.length ≤ index.toNat ∨ size.toNat = 0 then (str, -1) else (removeAt str index.toNat size.toNat, 0)
  | .truncate size => if str.length ≤ size.toNat then (str, -1) else (str.take size.toNat, 0)
  | .replace index size blob => (insertAt (removeAt str index.toNat size.toNat) index.toNat blob.data, 0)

/-- The sums of sizes that a call needs have 64 bits. -/
def Fine (s : State) : Op → Prop
  | .set blob => Fits s blob.data.length
  | .append blob => Fits s (s.size + blob.data.length)
  | .prepend blob => Fits s (s.size + blob.data.length)
  | .insert index blob => Fits s (max s.size index.toNat + blob.data.length)
  | .remove index size => index.toNat < s.size → index.toNat + size.toNat < 2 ^ 64
  | .truncate _ => True
  | .replace index size blob => ReplaceFine s index.toNat size.toNat blob.data.length

theorem Holds.step (h : Holds s str) {op : Op} (hfine : Fine s op) :
    ∃ s', step s op = some (s', (specStep str op).2) ∧ Holds s' (specStep str op).1 := by
  have hstr := h.size_eq
  cases op with
  | set blob => exact h.set hfine
  | append blob => exact h.append hfine
  | prepend blob => exact h.prepend hfine
  | insert index blob => exact h.insert index.toNat_lt hfine
  | remove index size =>
    obtain ⟨s', hs, hholds, -, hsame⟩ := h.remove hfine
    rw [hstr] at hs hsame
    rw [Buffer.step, hs, specStep]
    split_ifs with hnothing
    · rw [hsame hnothing]
      exact ⟨s, rfl, h⟩
    · exact ⟨s', rfl, hholds⟩
  | truncate size =>
    rw [Buffer.step, truncate, hstr, specStep]
    split_ifs with hle
    · exact ⟨s, rfl, h⟩
    · rw [← List.take_append_drop size.toNat str] at h
      have hholds := h.with_size
      rw [List.length_take_of_le (by omega)] at hholds
      exact ⟨_, rfl, hholds⟩
  | replace index size blob => exact h.replace index.toNat_lt hfine

theorem Holds.fine (h : Holds s str) {op : Op} (hs : Buffer.step s op = some (s', (specStep str op).2))
    (hd : Denotes s' (specStep str op).1) : Fine s op := by
  cases op with
  | set blob => exact h.set_fits blob.lt hs hd
  | append blob => exact h.append_fits hs hd
  | prepend blob => exact h.prepend_fits hs hd
  | insert index blob => exact h.insert_fits hs hd
  | remove index size =>
    intro hlt
    by_contra hwrap
    have hsize := size.toNat_lt
    have hzero : size.toNat ≠ 0 := by
      have hindex := index.toNat_lt
      omega
    obtain ⟨hmore, -⟩ := h.remove_wraps hlt hsize (Nat.not_lt.mp hwrap) hs
    have hstr := h.size_eq
    have hlast := h.size_lt
    have heq := hd.size_eq
    rw [specStep, if_neg (by omega), length_removeAt] at heq
    omega
  | truncate size => trivial
  | replace index size blob => exact h.replace_fine index.toNat_lt size.toNat_lt hs hd

/-- A run of calls on a new buffer follows the byte string, with every result, and after every call the bytes in use are
those of the string and within the block, exactly when the sums of sizes of each of its calls have 64 bits. -/
theorem buffer_tracks_iff (ops : List Op) : Tracks step specStep Denotes empty [] ops ↔ Meets step Fine empty ops := by
  refine tracks_iff_meets (R := Holds) (fun _ _ h => h.denotes) ?_ ?_ holds_empty
  · intro s str op h hfine
    exact h.step hfine
  · intro s str op s' h hfine hs hd
    exact hfine (h.fine hs hd)

/-- A removal of as many bytes as a size can say makes a buffer longer. -/
theorem removal_wraps : ¬ ∀ ops, Tracks step specStep Denotes empty [] ops := by
  intro h
  have hrun : exec step empty [.set ⟨[1, 2, 3], by decide⟩, .remove 1 18446744073709551615] = some
      ({ block := cellsOf [1, 1, 2, 3] ++ List.replicate 28 none, blksize := 32, size := 4 }, [0, 0]) := by
    decide +kernel
  obtain ⟨s, hs, hd⟩ := h [.set ⟨[1, 2, 3], by decide⟩, .remove 1 18446744073709551615] _ (List.prefix_refl _)
  rw [hrun] at hs
  obtain ⟨rfl, -⟩ := Prod.mk.inj (Option.some.inj hs)
  have hsize := hd.size_eq
  revert hsize
  decide +kernel

end RaleighSL.Zcl.Buffer
