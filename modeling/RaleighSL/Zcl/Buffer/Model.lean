import RaleighSL.Library.Area
import RaleighSL.Library.Run
import RaleighSL.Zcl.Map
import RaleighSL.Zcl.Size

/-!
# Buffers

`buffers/buffer.c`: a buffer is a block of memory, a number of bytes in use and the size of the
block. Numbers of bytes are 64 bits wide, and the size of the block is kept in 32 bits, so that it
may differ from what was allocated. Allocations succeed, and bytes that were not written have no
value. An access outside the block has no result. The bytes of an argument are not in the block.
-/
namespace RaleighSL.Zcl.Buffer

open Library

structure State where
  block : List (Option Byte)
  blksize : Nat
  size : Nat
  deriving DecidableEq, Repr

/-- `__buffer_ctor`. -/
def empty : State := { block := [], blksize := 0, size := 0 }

def realloc (block : List (Option Byte)) (size : Nat) : List (Option Byte) :=
  block.take size ++ List.replicate (size - block.length) none

def grow (s : State) (size : Nat) : State :=
  let size := sizeAdd size (if 0 < s.blksize then (if size < 1024 then 32 else 1024) else 0)
  let size := (alignUp (UInt64.ofNat size) 32).toNat
  { s with block := realloc s.block size, blksize := size % 2 ^ 32 }

/-- The bytes of an argument as they are in memory. -/
def cellsOf (blob : Bytes) : List (Option Byte) := blob.map some

def truncate (s : State) (size : Nat) : State × Int := if s.size ≤ size then (s, -1) else ({ s with size := size }, 0)

def remove (s : State) (index size : Nat) : Option (State × Int) :=
  if s.size ≤ index ∨ size = 0 then some (s, -1)
  else if s.size ≤ sizeAdd index size then some ({ s with size := index }, 0)
  else (moveAt s.block index (sizeAdd index size) (sizeSub (sizeSub s.size index) size)).map
    (fun block => ({ s with block := block, size := sizeSub s.size size }, 0))

def set (s : State) (blob : Bytes) : Option (State × Int) :=
  let s := if s.blksize < blob.length then grow s blob.length else s
  (writeAt s.block 0 (cellsOf blob)).map (fun block => ({ s with block := block, size := blob.length }, 0))

def append (s : State) (blob : Bytes) : Option (State × Int) :=
  let n := sizeAdd s.size blob.length
  let s := if s.blksize ≤ n then grow s n else s
  (writeAt s.block s.size (cellsOf blob)).map (fun block => ({ s with block := block, size := n }, 0))

def prepend (s : State) (blob : Bytes) : Option (State × Int) := do
  let n := sizeAdd s.size blob.length
  let s := if s.blksize < n then grow s n else s
  let block ← moveAt s.block blob.length 0 s.size
  let block ← writeAt block 0 (cellsOf blob)
  some ({ s with block := block, size := sizeAdd s.size blob.length }, 0)

def insert (s : State) (index : Nat) (blob : Bytes) : Option (State × Int) := do
  let size := sizeAdd s.size blob.length
  let size := if s.size < index then sizeAdd size (sizeSub index s.size) else size
  let s := if s.blksize < size then grow s size else s
  if s.size < index then
    let block ← writeAt s.block s.size (List.replicate (sizeSub index s.size) (some 0))
    let block ← writeAt block index (cellsOf blob)
    some ({ s with block := block, size := size }, 0)
  else
    let block ← moveAt s.block (sizeAdd index blob.length) index (sizeSub s.size index)
    let block ← writeAt block index (cellsOf blob)
    some ({ s with block := block, size := size }, 0)

/-- `z_buffer_replace`. The result of the removal is not looked at. -/
def replace (s : State) (index size : Nat) (blob : Bytes) : Option (State × Int) :=
  if size = blob.length ∧ sizeAdd index blob.length ≤ s.size then
    (writeAt s.block index (cellsOf blob)).map (fun block => ({ s with block := block }, 0))
  else do
    let (s, _) ← remove s index size
    let (s, _) ← insert s index blob
    some (s, 0)

/-! ### Calls -/

/-- The bytes of an argument; their number has 64 bits. -/
structure Blob where
  data : Bytes
  lt : data.length < 2 ^ 64

inductive Op where
  | set (blob : Blob)
  | append (blob : Blob)
  | prepend (blob : Blob)
  | insert (index : UInt64) (blob : Blob)
  | remove (index size : UInt64)
  | truncate (size : UInt64)
  | replace (index size : UInt64) (blob : Blob)

def step (s : State) : Op → Option (State × Int)
  | .set blob => set s blob.data
  | .append blob => append s blob.data
  | .prepend blob => prepend s blob.data
  | .insert index blob => insert s index.toNat blob.data
  | .remove index size => remove s index.toNat size.toNat
  | .truncate size => some (truncate s size.toNat)
  | .replace index size blob => replace s index.toNat size.toNat blob.data

end RaleighSL.Zcl.Buffer
