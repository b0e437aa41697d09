import RaleighSL.Zcl.Slice.Front
import RaleighSL.Zcl.Reader.Iovec

/-!
# The slice reader

The reader of `buffers/slice.c`: its place is a node, a block in it and an offset. The offset is
one in the block, and the number of available bytes is taken from it as if it were one in the
slice. A node has no block behind its third one: a call that looks there has no result.
-/
namespace RaleighSL.Zcl

structure SliceReader where
  node : Nat
  iblock : Nat
  offset : Nat
  deriving DecidableEq, Repr

namespace SliceReader
open Slice (State Block Node bytesOf taken)
open IovecReader (Cursor)

def nodes (s : State) : List Node := s.head :: s.rest

def opened : SliceReader := { node := 0, iblock := 0, offset := 0 }

/-- The end of `__slice_reader_next`: a block from its start. -/
def nextBlock (block : Block) (reader : SliceReader) : Bytes × SliceReader :=
  if block.isEmpty then ([], reader) else (block.bytes, { reader with offset := block.size })

def next (s : State) (reader : SliceReader) : Option (Bytes × SliceReader) := do
  let node ← (nodes s)[reader.node]?
  let block ← node.blocks[reader.iblock]?
  if block.isEmpty then some ([], reader)
  else if reader.offset < block.size then
    some ((block.data.drop reader.offset).take (block.size - reader.offset), { reader with offset := block.size })
  else if reader.iblock < 3 then
    let block ← node.blocks[reader.iblock + 1]?
    some (nextBlock block { reader with iblock := reader.iblock + 1 })
  else
    match (nodes s)[reader.node + 1]? with
    | none => some ([], { reader with iblock := reader.iblock + 1 })
    | some node => some (nextBlock node.block₀ { reader with node := reader.node + 1, iblock := 0 })

def backup (count : Nat) (reader : SliceReader) : SliceReader := { reader with offset := sizeSub reader.offset count }

def available (s : State) (reader : SliceReader) : Nat := sizeSub (Slice.length s) reader.offset

/-! ### Calls -/

inductive Call where
  | next
  | backup (count : Nat)
  | available
  deriving DecidableEq, Repr

def Call.ofReader : Call → IovecReader.Call
  | .next => .next
  | .backup count => .backup count
  | .available => .available

def step (s : State) : Call → SliceReader → Option (IovecReader.Answer × SliceReader)
  | .next, reader => (reader.next s).map (fun r => (.data r.1, r.2))
  | .backup count, reader => some (.done, reader.backup count)
  | .available, reader => some (.size (reader.available s), reader)

/-- The reader answers a run of legal calls as a reader over the string `str` does, and looks at no block outside a node. -/
def Faithful (s : State) (str : Bytes) : List Call → SliceReader → Cursor → Prop
  | [], _, _ => True
  | call :: calls, reader, cursor =>
    cursor.Legal call.ofReader → ∃ answer reader' cursor', step s call reader = some (answer, reader') ∧
      cursor.Answers str call.ofReader answer cursor' ∧ Faithful s str calls reader' cursor'

/-- The slice after appends of some byte strings to a new one. -/
def built (xs : List Bytes) : State := xs.foldl (fun s x => Slice.append s x x.length) Slice.empty

variable {s : State} {b : Block} {reader : SliceReader} {cursor : Cursor} {xs : List Bytes} {x y : Bytes}

/-! ### One block -/

def single (b : Block) : State := { head := Node.single b, rest := [] }

inductive Place (b : Block) : SliceReader → Cursor → Prop where
  | within {offset last : Nat} (hle : offset ≤ b.size) (hlast : last ≤ offset) : Place b ⟨0, 0, offset⟩ ⟨offset, last⟩
  | behind : Place b ⟨0, 1, b.size⟩ ⟨b.size, 0⟩

theorem length_single (hb : b.Sound) : Slice.length (single b) = b.size := by
  have hlt := hb.lt
  show Slice.lengthFrom [b, Block.zero, Block.zero] 0 = b.size
  by_cases hsize : b.size = 0
  · rw [Slice.lengthFrom, if_pos hsize, hsize]
  · rw [Slice.lengthFrom, if_neg hsize, Slice.lengthFrom, if_pos (show Block.zero.size = 0 from rfl), Nat.zero_add, Nat.mod_eq_of_lt (by omega)]

theorem bytes_drop (b : Block) (offset : Nat) :
    (b.data.drop offset).take (b.size - offset) = b.bytes.drop offset := List.drop_take.symm

theorem Place.next (hb : b.Sound) (h : Place b reader cursor) : ∃ data reader', reader.next (single b) = some (data, reader') ∧
    data <+: b.bytes.drop cursor.pos ∧ (data = [] → b.bytes.drop cursor.pos = []) ∧
      Place b reader' ⟨cursor.pos + data.length, data.length⟩ := by
  have hlen := hb.length
  cases h with
  | @within offset last hle hlast =>
    by_cases hsize : b.size = 0
    · have hnil : b.bytes = [] := hb.bytes_eq_nil.mpr hsize
      refine ⟨[], ⟨0, 0, offset⟩, ?_, List.nil_prefix, fun _ => by rw [hnil, List.drop_nil], .within hle (Nat.zero_le _)⟩
      show (if b.isEmpty then _ else _) = _
      rw [if_pos (Slice.isEmpty_iff.mpr hsize)]
    · have hempty : ¬ b.isEmpty = true := by rwa [Slice.isEmpty_iff]
      by_cases hmore : offset < b.size
      · refine ⟨b.bytes.drop offset, ⟨0, 0, b.size⟩, ?_, List.prefix_refl _, id, ?_⟩
        · show (if b.isEmpty then _ else if offset < b.size then some (_, SliceReader.mk 0 0 b.size) else _) = _
          rw [if_neg hempty, if_pos hmore, bytes_drop]
          rfl
        · have hpos : offset + (b.bytes.drop offset).length = b.size := by
            rw [List.length_drop]
            omega
          rw [hpos]
          exact .within (Nat.le_refl _) (by omega)
      · obtain rfl : offset = b.size := by omega
        refine ⟨[], ⟨0, 1, b.size⟩, ?_, List.nil_prefix, fun _ => List.drop_of_length_le (Nat.le_of_eq hlen), .behind⟩
        show (if b.isEmpty then _ else if b.size < b.size then _ else some ([], SliceReader.mk 0 1 b.size)) = _
        rw [if_neg hempty, if_neg hmore]
  | behind =>
    exact ⟨[], ⟨0, 1, b.size⟩, rfl, List.nil_prefix, fun _ => List.drop_of_length_le (Nat.le_of_eq hlen), .behind⟩

theorem Place.backup {count : Nat} (h : Place b reader cursor) (hcount : count ≤ cursor.last) :
    Place b (reader.backup count) ⟨cursor.pos - count, cursor.last - count⟩ := by
  cases h with
  | @within offset last hle hlast =>
    have hsub : sizeSub offset count = offset - count := sizeSub_of_le (Nat.le_trans hcount hlast)
    rw [SliceReader.backup, hsub]
    exact .within (Nat.le_trans (Nat.sub_le _ _) hle) (Nat.sub_le_sub_right hlast count)
  | behind =>
    obtain rfl : count = 0 := Nat.le_zero.mp hcount
    exact .behind

theorem Place.available (hb : b.Sound) (h : Place b reader cursor) :
    reader.available (single b) = (b.bytes.drop cursor.pos).length := by
  have hlen := hb.length
  rw [List.length_drop, hlen, SliceReader.available, length_single hb]
  cases h with
  | within hle hlast => exact sizeSub_of_le hle
  | behind => exact sizeSub_of_le (Nat.le_refl _)

/-- Over one block the reader answers as one over its bytes. -/
theorem Place.faithful (hb : b.Sound) {calls : List Call} (h : Place b reader cursor) :
    Faithful (single b) b.bytes calls reader cursor := by
  induction calls generalizing reader cursor with
  | nil => trivial
  | cons call calls ih =>
    intro hlegal
    cases call with
    | next =>
      obtain ⟨data, reader', heq, hpart, hnil, hplace⟩ := h.next hb
      exact ⟨.data data, reader', _, by rw [step, heq]; rfl, ⟨hpart, hnil, rfl⟩, ih hplace⟩
    | backup count => exact ⟨.done, _, _, rfl, rfl, ih (h.backup hlegal)⟩
    | available => exact ⟨.size _, reader, cursor, rfl, ⟨h.available hb, rfl⟩, ih h⟩

/-! ### More blocks -/

theorem foldl_getElem? {i : Nat} (hi : s.blocks[i]? = some b) (hb : b.size ≠ 0) (xs : List Bytes) :
    (xs.foldl (fun s x => Slice.append s x x.length) s).blocks[i]? = some b := by
  induction xs generalizing s with
  | nil => exact hi
  | cons x xs ih => exact ih (Slice.append_getElem? x x.length hi hb).1

theorem foldl_content (s : State) (xs : List Bytes) :
    (xs.foldl (fun s x => Slice.append s x x.length) s).content = s.content ++ (xs.map taken).flatten := by
  induction xs generalizing s with
  | nil => exact (List.append_nil _).symm
  | cons x xs ih =>
    rw [List.foldl_cons, ih, Slice.content_append, List.map_cons, List.flatten_cons, List.append_assoc]
    rfl

theorem foldl_sound (h : s.Sound) (xs : List Bytes) : (xs.foldl (fun s x => Slice.append s x x.length) s).Sound := by
  induction xs generalizing s with
  | nil => exact h
  | cons x xs ih => exact ih (h.append (Nat.le_refl _))

theorem length_le_content (h : s.Sound) : Slice.length s ≤ s.content.length := by
  rw [Slice.length, Slice.lengthFrom_eq h (by decide), Nat.zero_add]
  exact Nat.le_trans (Nat.mod_le _ _) (Slice.run_isPart s).length_le

theorem next_first (h₀ : s.head.block₀.size ≠ 0) :
    next s opened = some (s.head.block₀.bytes, ⟨0, 0, s.head.block₀.size⟩) := by
  show (if s.head.block₀.isEmpty then _ else if 0 < s.head.block₀.size then
    some (_, SliceReader.mk 0 0 s.head.block₀.size) else _) = _
  rw [if_neg (by rwa [Slice.isEmpty_iff]), if_pos (Nat.pos_of_ne_zero h₀)]
  rfl

theorem next_second (h₀ : s.head.block₀.size ≠ 0) (h₁ : s.head.block₁.size ≠ 0) :
    next s ⟨0, 0, s.head.block₀.size⟩ = some (s.head.block₁.bytes, ⟨0, 1, s.head.block₁.size⟩) := by
  show (if s.head.block₀.isEmpty then _ else if s.head.block₀.size < s.head.block₀.size then _ else
    some (nextBlock s.head.block₁ ⟨0, 1, s.head.block₀.size⟩)) = _
  rw [if_neg (by rwa [Slice.isEmpty_iff]), if_neg (Nat.lt_irrefl _), nextBlock, if_neg (by rwa [Slice.isEmpty_iff])]

theorem built_second (hx : x.length % 2 ^ 32 ≠ 0) :
    Slice.append (Slice.append Slice.empty x x.length) y y.length =
      { head := ⟨Block.ofData x x.length, Block.ofData y y.length, Block.zero⟩, rest := [] } := by
  have hempty : (Block.ofData x x.length).isEmpty = false := Slice.not_isEmpty_iff.mpr hx
  have hfirst : Slice.append Slice.empty x x.length = single (Block.ofData x x.length) := rfl
  have hput : (Node.single (Block.ofData x x.length)).putTail (Block.ofData y y.length) =
      some ⟨Block.ofData x x.length, Block.ofData y y.length, Block.zero⟩ := by
    simp only [Node.putTail, Node.single, hempty]
    rfl
  rw [hfirst, Slice.append]
  simp [single, Slice.putLast, hput]

/-- With a second block, the bytes of the first one count as available after both. -/
theorem not_faithful_two (hx : x ≠ []) (hy : y ≠ []) (hlt : ∀ z ∈ x :: y :: xs, z.length < 2 ^ 32)
    (hlength : Slice.length (built (x :: y :: xs)) = (x :: y :: xs).flatten.length) :
    ¬ Faithful (built (x :: y :: xs)) (x :: y :: xs).flatten [.next, .next, .available] opened ⟨0, 0⟩ := by
  have hx' : x.length % 2 ^ 32 = x.length := Nat.mod_eq_of_lt (hlt x (by simp))
  have hy' : y.length % 2 ^ 32 = y.length := Nat.mod_eq_of_lt (hlt y (by simp))
  have hxpos := List.length_pos_of_ne_nil hx
  have hypos := List.length_pos_of_ne_nil hy
  have hbuilt : built (x :: y :: xs) = xs.foldl (fun s x => Slice.append s x x.length)
      { head := ⟨Block.ofData x x.length, Block.ofData y y.length, Block.zero⟩, rest := [] } := by
    rw [← built_second (by omega)]
    rfl
  generalize hs : built (x :: y :: xs) = s at *
  have h₀ : s.head.block₀ = Block.ofData x x.length := by
    have hkeep := foldl_getElem? (i := 0) (b := Block.ofData x x.length)
      (s := { head := ⟨Block.ofData x x.length, Block.ofData y y.length, Block.zero⟩, rest := [] }) rfl
      (show x.length % 2 ^ 32 ≠ 0 by omega) xs
    rw [← hbuilt] at hkeep
    exact Option.some.inj hkeep
  have h₁ : s.head.block₁ = Block.ofData y y.length := by
    have hkeep := foldl_getElem? (i := 1) (b := Block.ofData y y.length)
      (s := { head := ⟨Block.ofData x x.length, Block.ofData y y.length, Block.zero⟩, rest := [] }) rfl
      (show y.length % 2 ^ 32 ≠ 0 by omega) xs
    rw [← hbuilt] at hkeep
    exact Option.some.inj hkeep
  have hsize₀ : s.head.block₀.size = x.length := by rw [h₀]; exact hx'
  have hsize₁ : s.head.block₁.size = y.length := by rw [h₁]; exact hy'
  have hbytes₀ : s.head.block₀.bytes = x := by rw [h₀]; exact Slice.bytes_ofData_all (hlt x (by simp))
  have hbytes₁ : s.head.block₁.bytes = y := by rw [h₁]; exact Slice.bytes_ofData_all (hlt y (by simp))
  intro h
  obtain ⟨answer, reader, cursor, heq, hanswers, h⟩ := h trivial
  rw [step, next_first (by omega), Option.map_some, Option.some.injEq, Prod.mk.injEq] at heq
  obtain ⟨rfl, rfl⟩ := heq
  obtain ⟨-, -, rfl⟩ := hanswers
  obtain ⟨answer, reader, cursor, heq, hanswers, h⟩ := h trivial
  rw [step, next_second (by omega) (by omega), Option.map_some, Option.some.injEq, Prod.mk.injEq] at heq
  obtain ⟨rfl, rfl⟩ := heq
  obtain ⟨-, -, rfl⟩ := hanswers
  obtain ⟨answer, reader, cursor, heq, hanswers, -⟩ := h trivial
  rw [step, Option.some.injEq, Prod.mk.injEq] at heq
  obtain ⟨rfl, rfl⟩ := heq
  have havail : sizeSub (Slice.length s) s.head.block₁.size =
      ((x :: y :: xs).flatten.drop (0 + s.head.block₀.bytes.length + s.head.block₁.bytes.length)).length := hanswers.1
  simp only [List.flatten_cons, List.length_append] at hlength
  rw [hlength, hsize₁, hbytes₀, hbytes₁, sizeSub_of_le (by omega), List.length_drop] at havail
  simp only [List.flatten_cons, List.length_append] at havail
  omega

/-- The reader over a slice built by appends answers every script of legal calls as one over the whole string exactly when
there was at most one append and a block has room for its bytes. -/
theorem sliceReader_faithful_iff (xs : List Bytes) (hxs : ∀ x ∈ xs, x ≠ []) :
    (∀ calls, Faithful (built xs) xs.flatten calls opened ⟨0, 0⟩) ↔ xs.length ≤ 1 ∧ ∀ x ∈ xs, x.length < 2 ^ 32 := by
  constructor
  · intro h
    have hsound : (built xs).Sound := foldl_sound Slice.sound_empty xs
    have hcontent : (built xs).content = (xs.map taken).flatten := foldl_content Slice.empty xs
    obtain ⟨answer, reader, cursor, heq, hanswers, -⟩ := h [.available] trivial
    rw [step, Option.some.injEq, Prod.mk.injEq] at heq
    obtain ⟨rfl, rfl⟩ := heq
    have hlength : Slice.length (built xs) = xs.flatten.length := by
      have havail : sizeSub (Slice.length (built xs)) 0 = xs.flatten.length := hanswers.1
      rwa [sizeSub_of_le (Nat.zero_le _), Nat.sub_zero] at havail
    have hlt : ∀ x ∈ xs, x.length < 2 ^ 32 := by
      refine Slice.fit_of_length_le ?_
      rw [← hlength, ← hcontent]
      exact length_le_content hsound
    refine ⟨?_, hlt⟩
    by_contra hmore
    obtain _ | ⟨x, _ | ⟨y, ys⟩⟩ := xs
    · exact hmore (Nat.zero_le 1)
    · exact hmore (Nat.le_refl 1)
    · exact not_faithful_two (hxs x (by simp)) (hxs y (by simp)) hlt hlength (h _)
  · rintro ⟨hone, hlt⟩ calls
    obtain _ | ⟨x, _ | ⟨y, ys⟩⟩ := xs
    · exact Place.faithful Slice.sound_zero (.within (Nat.le_refl 0) (Nat.le_refl 0))
    · have hbytes : [x].flatten = (Block.ofData x x.length).bytes := by
        rw [Slice.bytes_ofData_all (hlt x (by simp)), List.flatten_singleton]
      rw [hbytes]
      exact Place.faithful (Slice.sound_ofData (Nat.le_refl _)) (.within (Nat.zero_le _) (Nat.le_refl 0))
    · simp at hone

theorem sliceReader_faithful_one : (∀ x ∈ [([1, 2, 3] : Bytes)], x ≠ []) ∧
    ∀ calls, Faithful (built [[1, 2, 3]]) [[1, 2, 3]].flatten calls opened ⟨0, 0⟩ :=
  ⟨by decide, (sliceReader_faithful_iff [[1, 2, 3]] (by decide)).mpr ⟨by decide, by decide⟩⟩

/-- Over four blocks the fourth call looks behind the third block of a node. -/
theorem next_outside_node :
    ¬ Faithful (built [[1], [2], [3], [4]]) [[1], [2], [3], [4]].flatten [.next, .next, .next, .next] opened ⟨0, 0⟩ := by
  intro h
  obtain ⟨answer, reader, cursor, heq, -, h⟩ := h trivial
  have hone : step (built [[1], [2], [3], [4]]) .next opened = some (.data [1], ⟨0, 0, 1⟩) := by decide
  obtain ⟨rfl, rfl⟩ := Prod.mk.inj (Option.some.inj (hone.symm.trans heq))
  obtain ⟨answer, reader, cursor, heq, -, h⟩ := h trivial
  have htwo : step (built [[1], [2], [3], [4]]) .next ⟨0, 0, 1⟩ = some (.data [2], ⟨0, 1, 1⟩) := by decide
  obtain ⟨rfl, rfl⟩ := Prod.mk.inj (Option.some.inj (htwo.symm.trans heq))
  obtain ⟨answer, reader, cursor, heq, -, h⟩ := h trivial
  have hthree : step (built [[1], [2], [3], [4]]) .next ⟨0, 1, 1⟩ = some (.data [3], ⟨0, 2, 1⟩) := by decide
  obtain ⟨rfl, rfl⟩ := Prod.mk.inj (Option.some.inj (hthree.symm.trans heq))
  obtain ⟨answer, reader, cursor, heq, -⟩ := h trivial
  have hfour : step (built [[1], [2], [3], [4]]) .next ⟨0, 2, 1⟩ = none := by decide
  rw [hfour] at heq
  cases heq

end SliceReader

end RaleighSL.Zcl
