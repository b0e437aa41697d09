import RaleighSL.Zcl.Bucket
import RaleighSL.Zcl.Coding.IntGroup
import RaleighSL.Library.Run

/-!
# Compressor and decompressor

`io/compression/compressor.c` and `io/compression/decompressor.c`. The bytes that are added
are kept in a buffer, and go to the destination in blocks: the size of a block, then what the
codec makes of it. An access outside the memory has no result. The assertions of the source are
not compiled.
-/
namespace RaleighSL.Zcl.Compression
open Coding (encodeVint decodeVint vintSize encode4int decode4int)

/-- `z_compress_t` and `z_decompress_t`: what is written within the given room, nothing where the
result is 0, and the data of the given size with the number of the bytes that were read. -/
structure Codec where
  compress : Nat → Bytes → Bytes
  decompress : Nat → Bytes → Bytes × Nat
  length_le : ∀ room data, (compress room data).length ≤ room
  inverse : ∀ room data rest, compress room data ≠ [] →
    decompress data.length (compress room data ++ rest) = (data, (compress room data).length)

def plainCompress (dstSize : Nat) (src : Bytes) : Bytes := if dstSize < src.length then [] else src

def plainDecompress (dstSize : Nat) (src : Bytes) : Bytes × Nat := (src.take dstSize, dstSize)

def plain : Codec where
  compress := plainCompress
  decompress := plainDecompress
  length_le := by
    intro room data
    unfold plainCompress
    split
    · simp
    · omega
  inverse := by
    intro room data rest hne
    unfold plainCompress at hne ⊢
    split at hne
    · exact absurd rfl hne
    · rename_i hle
      rw [if_neg hle, plainDecompress, List.take_left]

/-- `z_compressor`: the bytes in the destination and in the buffer with the sizes. -/
structure Compressor where
  dst : Bytes
  dstAvail : Nat
  buffer : Bytes
  bufsize : Nat
  bprev : Bytes
  iprev : Nat
  deriving DecidableEq, Repr

/-- `z_compressor_init`. -/
def init (bufsize dstSize : Nat) : Compressor :=
  { dst := [], dstAvail := dstSize, buffer := [], bufsize, bprev := [], iprev := 0 }

def safetyThreshold (size : Nat) : Nat := size >>> 8 + 16

/-- `z_align_down`, with a mask of 32 bits. -/
def alignDown (x align : Nat) : Nat := x &&& (2 ^ 32 - align)

variable (codec : Codec)

namespace Compressor

/-- `__compressor_flush_buffer`, and whether the codec has written something. -/
def flushBuffer (self : Compressor) (data : Bytes) : Option (Compressor × Bool) :=
  let head := encodeVint data.length
  if self.dstAvail < head.length then none
  else
    let body := codec.compress (self.dstAvail - head.length) data
    let cleared := { self with buffer := [], bprev := [], iprev := 0 }
    if body = [] then some (cleared, false)
    else some ({ cleared with dst := self.dst ++ (head ++ body), dstAvail := self.dstAvail - (head ++ body).length }, true)

def emergencyFlush (self : Compressor) (size : Nat) : Option (Compressor × Nat) :=
  if self.dstAvail < self.buffer.length + size + safetyThreshold size then
    match self.flushBuffer codec self.buffer with
    | none => none
    | some (self, false) => some (self, 1)
    | some (self, true) => if self.dstAvail < vintSize size then some (self, 2) else some (self, 0)
  else some (self, 0)

theorem dstAvail_lt_of_flushBuffer {self self' : Compressor} {data : Bytes}
    (h : self.flushBuffer codec data = some (self', true)) : self'.dstAvail < self.dstAvail := by
  obtain ⟨front, last, hhead, -⟩ := Coding.encodeVint_eq_append data.length
  have hpos : 0 < (encodeVint data.length).length := by
    rw [hhead, List.length_append, List.length_singleton]
    exact Nat.succ_pos _
  rw [flushBuffer] at h
  split at h
  · cases h
  · rename_i hroom
    dsimp only at h
    split at h
    · cases h
    · obtain ⟨rfl, -⟩ := Prod.mk.inj (Option.some.inj h)
      simp only [List.length_append]
      omega

/-- The second part of `__compressor_add_buffer`: the buffer is empty where bytes are left. -/
def addDirect (self : Compressor) (data : Bytes) : Option (Compressor × Nat) :=
  if self.bufsize ≤ data.length then
    match _hflush : self.flushBuffer codec (data.take (alignDown data.length self.bufsize)) with
    | none => none
    | some (self', false) => some (self', 2)
    | some (self', true) => addDirect self' (data.drop (alignDown data.length self.bufsize))
  else if data = [] then some (self, 0)
  else some ({ self with buffer := data }, 0)
termination_by self.dstAvail
decreasing_by exact dstAvail_lt_of_flushBuffer codec _hflush

def addBuffer (self : Compressor) (data : Bytes) : Option (Compressor × Nat) :=
  if self.buffer ≠ [] then
    let n := min data.length (self.bufsize - self.buffer.length)
    let self := { self with buffer := self.buffer ++ data.take n }
    if self.buffer.length = self.bufsize then
      match self.flushBuffer codec self.buffer with
      | none => none
      | some (self, false) => some (self, 1)
      | some (self, true) => self.addDirect codec (data.drop n)
    else self.addDirect codec (data.drop n)
  else self.addDirect codec data

def add (self : Compressor) (data : Bytes) : Option (Compressor × Nat) :=
  match self.emergencyFlush codec data.length with
  | none => none
  | some (self, 0) => self.addBuffer codec data
  | some (self, _) => some (self, 1)

/-- The second loop of `z_compressor_addv`: the first one has left the count at -1, so that it
goes on behind the array. -/
def addChunks (self : Compressor) : List Bytes → Option (Compressor × Nat)
  | [] => none
  | chunk :: iov =>
    match self.addBuffer codec chunk with
    | none => none
    | some (self, 0) => self.addChunks iov
    | some (self, _) => some (self, 1)

def addv (self : Compressor) (iov : List Bytes) : Option (Compressor × Nat) :=
  match self.emergencyFlush codec (iov.flatten.length % 2 ^ 32) with
  | none => none
  | some (self, 0) => self.addChunks codec iov
  | some (self, _) => some (self, 1)

/-- The head and the middle of a byte string: what is shared with the previous one is left out. -/
def delta (bprev data : Bytes) : List Bytes :=
  let shared := if bprev = [] then 0 else memshared bprev data
  let middle := data.drop shared
  let tail := if bprev = [] then 0 else memshared (bprev.drop shared).reverse middle.reverse
  [encode4int shared tail (middle.length - tail) 0, middle.take (middle.length - tail)]

def addBytes (self : Compressor) (current : Bytes) : Option (Compressor × Nat) :=
  match self.emergencyFlush codec current.length with
  | none => none
  | some (self, 0) => self.addv codec (delta self.bprev current)
  | some (self, _) => some (self, 1)

/-- The bytes of an integer: its difference from the previous one, in 64 bits. -/
def difference (self : Compressor) (current : Nat) : Bytes := encodeVint ((current + 2 ^ 64 - self.iprev) % 2 ^ 64)

def addInt (self : Compressor) (current : Nat) : Option (Compressor × Nat) :=
  match self.emergencyFlush codec 4 with
  | none => none
  | some (self, 0) => { self with iprev := current }.addBuffer codec (self.difference current)
  | some (self, _) => some (self, 1)

/-- `z_compressor_flush`: it returns 1 for a block that is written. -/
def flush (self : Compressor) : Option (Compressor × Nat) :=
  if self.buffer = [] then some (self, 0)
  else (self.flushBuffer codec self.buffer).map (fun r => (r.1, if r.2 then 1 else 0))

end Compressor

/-! ### The decompressor -/

/-- `z_decompressor_read` of the bytes that are left: the size, the data and the bytes behind the block. -/
def read (buffer : Bytes) : Option (Nat × Bytes × Bytes) :=
  match decodeVint buffer buffer.length with
  | some (some (usize, n)) =>
    let r := codec.decompress (usize % 2 ^ 32) (buffer.drop n)
    some (usize % 2 ^ 32, r.1, (buffer.drop n).drop r.2)
  | _ => none

/-- The blocks that are read until there are no bytes left. -/
def readFrom : Nat → Bytes → Option (List Bytes)
  | _, [] => some []
  | 0, _ :: _ => none
  | fuel + 1, b :: buffer =>
    match read codec (b :: buffer) with
    | none => none
    | some (usize, data, rest) => if usize = 0 then some [] else (readFrom fuel rest).map (fun blocks => data :: blocks)

def readAll (buffer : Bytes) : Option (List Bytes) := readFrom codec buffer.length buffer

/-- `z_decompressor_get_int` to the end of a block: the values and the last one, none where it fails. -/
def getInts : Nat → Nat → Bytes → Option (List Nat × Nat)
  | _, iprev, [] => some ([], iprev)
  | 0, _, _ :: _ => none
  | fuel + 1, iprev, b :: buffer =>
    match decodeVint (b :: buffer) (b :: buffer).length with
    | some (some (value, n)) =>
      let current := (value + iprev) % 2 ^ 64
      (getInts fuel current ((b :: buffer).drop n)).map (fun r => (current :: r.1, r.2))
    | _ => none

/-- The prefix or the suffix of `z_decompressor_get_bytes`, which keeps the end of what it has; what
it does not have would come from `body`, which has no bytes. -/
def adjust (slice : Bytes) (length : Nat) : Option Bytes :=
  if length ≤ slice.length then some (slice.drop (slice.length - length)) else none

/-- `z_decompressor_get_bytes` to the end of a block, with the prefix and the suffix of the decompressor. -/
def getBytes : Nat → Bytes → Bytes → Bytes → Option (List Bytes)
  | _, _, _, [] => some []
  | 0, _, _, _ :: _ => none
  | fuel + 1, before, behind, b :: buffer =>
    match decode4int (b :: buffer) with
    | some ([shared, tail, length, _], head) =>
      (adjust before shared).bind fun before => (adjust behind tail).bind fun behind =>
        (getBytes fuel before behind ((b :: buffer).drop (head + length))).map (fun found =>
          (before ++ (((b :: buffer).drop head).take length ++ behind)) :: found)
    | _ => none

end RaleighSL.Zcl.Compression
