import RaleighSL.Library.Circular
import RaleighSL.Library.Run
import RaleighSL.Zcl.Map
import RaleighSL.Zcl.Size

/-!
# The ring buffer

`io/buffers/ringbuf.c` keeps a head and a tail that run modulo twice the size; the
offset into the buffer is the same number under the mask of the size. Head and tail
are equal when the buffer is empty and differ in the bit of the size when it is full.

The mask of the size is right for powers of two only, but the allocation rounds the
size up to a multiple of eight. And where head and tail have the same offset, the
functions that read take the buffer to be empty, also when it is full.

A descriptor gives a read the bytes that are ready for it, and takes the bytes it has
room for; a call that can do neither fails.
-/
namespace RaleighSL.Zcl

structure RingBuf where
  buffer : Bytes
  head : Nat
  tail : Nat
  size : Nat
  deriving DecidableEq

structure Iov where
  base : Nat
  len : Nat
  deriving DecidableEq

def ringSize (size : Nat) : Nat := (alignUp (UInt64.ofNat size) 8).toNat

/-- `z_fd_write` calls `write` until everything is written and returns the result of a call that fails. -/
def fdWrite (fuel room total : Nat) (buf : Bytes) : Int × Nat :=
  match fuel, buf with
  | 0, _ => (-1, total)
  | _, [] => (total, total)
  | fuel + 1, buf =>
    let written := min room buf.length
    if written = 0 then (-1, total) else fdWrite fuel (room - written) (total + written) (buf.drop written)

namespace RingBuf
open RaleighSL.Library

/-- `z_ringbuf_alloc` in memory of any contents. -/
def alloc (size : Nat) (memory : Nat → Byte) : RingBuf :=
  { buffer := (List.range (ringSize size)).map memory, head := 0, tail := 0, size := ringSize size }

def isFull (r : RingBuf) : Bool := r.tail = r.head ^^^ r.size

def isEmpty (r : RingBuf) : Bool := r.head = r.tail

def mask (r : RingBuf) : Nat := sizeSub r.size 1

def wrapMask (r : RingBuf) : Nat := sizeSub (sizeAdd r.size r.size) 1

def writeIov (r : RingBuf) : Iov × Iov :=
  if r.isFull then (⟨0, 0⟩, ⟨0, 0⟩)
  else
    let head := r.head &&& r.mask
    let tail := r.tail &&& r.mask
    if head ≤ tail then (⟨tail, r.size - tail⟩, ⟨0, head⟩) else (⟨tail, head - tail⟩, ⟨0, 0⟩)

def readIov (r : RingBuf) : Iov × Iov :=
  if r.isEmpty then (⟨0, 0⟩, ⟨0, 0⟩)
  else
    let head := r.head &&& r.mask
    let tail := r.tail &&& r.mask
    if head ≤ tail then (⟨head, tail - head⟩, ⟨0, 0⟩) else (⟨head, r.size - head⟩, ⟨0, tail⟩)

def load (r : RingBuf) (iov : Iov) (n : Nat) : Bytes := (r.buffer.drop iov.base).take n

/-- The end of `z_ringbuf_fd_fetch` and `z_ringbuf_push`. -/
def extend (r : RingBuf) (n avail : Nat) (buffer : Bytes) : RingBuf :=
  { r with
      buffer := buffer
      head := if n = avail then r.head &&& r.wrapMask else r.head
      tail := sizeAdd r.tail n &&& r.wrapMask }

/-- `z_ringbuf_fd_fetch`; the read fails where nothing is given. -/
def fdFetch (r : RingBuf) (ready : Option Bytes) : RingBuf × Int :=
  if r.isFull then (r, 0)
  else
    let head := r.head &&& r.mask
    let tail := r.tail &&& r.mask
    match ready with
    | none => (r, -1)
    | some ready =>
      if head ≤ tail then
        let avail := (r.size - tail) + head
        let got := ready.take avail
        let buffer := store (store r.buffer tail (got.take (r.size - tail))) 0 (got.drop (r.size - tail))
        (if 0 < got.length then r.extend got.length avail buffer else r, got.length)
      else
        let avail := head - tail
        let got := ready.take avail
        (if 0 < got.length then r.extend got.length avail (store r.buffer tail got) else r, got.length)

def rskip (r : RingBuf) (n : Nat) : RingBuf := { r with head := sizeAdd r.head n &&& r.wrapMask }

def rback (r : RingBuf) (n : Nat) : RingBuf := { r with head := sizeSub r.head n &&& r.wrapMask }

/-- `z_ringbuf_fd_dump` with the bytes that went out. -/
def fdDump (r : RingBuf) (room : Nat) : RingBuf × Int × Bytes :=
  if r.isEmpty then (r, 0, [])
  else
    let head := r.head &&& r.mask
    let tail := r.tail &&& r.mask
    if head ≤ tail then
      let data := r.load ⟨head, tail - head⟩ (tail - head)
      let w := fdWrite (data.length + 1) room 0 data
      (if 0 < w.1 then r.rskip w.1.toNat else r, w.1, data.take w.2)
    else
      let data := r.load ⟨head, r.size - head⟩ (r.size - head) ++ r.load ⟨0, tail⟩ tail
      let wr := min room data.length
      if wr = 0 then (r, -1, []) else (r.rskip wr, wr, data.take wr)

def rbuffer (r : RingBuf) : RingBuf × Bytes :=
  if r.isEmpty then (r, [])
  else
    let head := r.head &&& r.mask
    let tail := r.tail &&& r.mask
    let n := if head < tail then tail - head else r.size - head
    (r.rskip n, r.load ⟨head, n⟩ n)

/-- `z_ringbuf_fetch`: the bytes the returned pointer leads to. -/
def fetch (r : RingBuf) (n : Nat) : Option Bytes :=
  if r.isEmpty then none
  else
    let iov := r.readIov
    if n ≤ iov.1.len then some (r.load iov.1 n)
    else if n ≤ iov.1.len + iov.2.len then some (r.load iov.1 iov.1.len ++ r.load iov.2 (n - iov.1.len))
    else none

def popIov (r : RingBuf) (size : Nat) : Iov × Iov :=
  let iov := r.readIov
  if size ≤ iov.1.len then ({ iov.1 with len := min size iov.1.len }, { iov.2 with len := 0 })
  else (iov.1, { iov.2 with len := min (size - iov.1.len) iov.2.len })

/-- `z_ringbuf_pop` with the bytes it copies. -/
def pop (r : RingBuf) (n : Nat) : RingBuf × Bytes :=
  let iov := r.readIov
  if iov.1.len < n then
    let rest := min (n - iov.1.len) iov.2.len
    (r.rskip (rest + iov.1.len), r.load iov.1 iov.1.len ++ r.load iov.2 rest)
  else
    let total := min n iov.1.len
    (r.rskip total, r.load iov.1 total)

def push (r : RingBuf) (data : Bytes) : RingBuf × Nat :=
  let iov := r.writeIov
  if iov.1.len < data.length then
    let rest := min (data.length - iov.1.len) iov.2.len
    let total := rest + iov.1.len
    let buffer := store r.buffer iov.1.base (data.take iov.1.len)
    (r.extend total (iov.1.len + iov.2.len) (store buffer iov.2.base ((data.drop iov.1.len).take rest)), total)
  else
    let total := min data.length iov.1.len
    (r.extend total (iov.1.len + iov.2.len) (store r.buffer iov.1.base (data.take total)), total)

def used (r : RingBuf) : Nat :=
  if r.isEmpty then 0
  else
    let head := r.head &&& r.mask
    let tail := r.tail &&& r.mask
    if head ≤ tail then tail - head else (r.size - head) + tail

def avail (r : RingBuf) : Nat := r.size - r.used

/-! ### Runs -/

inductive Op where
  | push (data : Bytes)
  | pop (n : Nat)
  | fdFetch (ready : Option Bytes)
  | fdDump (room : Nat)
  | fetch (n : Nat)
  | rskip (n : Nat)
  | rback (n : Nat)
  | used
  | avail

inductive Out where
  | done
  | size (n : Nat)
  | result (n : Int)
  | bytes (data : Bytes)
  | found (data : Option Bytes)
  | sent (n : Int) (data : Bytes)
  deriving DecidableEq

/-- The ring buffer and the number of bytes that its user has read since it was last written to. -/
structure State where
  ring : RingBuf
  read : Nat

def step (s : State) : Op → State × Out
  | .push data => (⟨(s.ring.push data).1, 0⟩, .size (s.ring.push data).2)
  | .pop n => (⟨(s.ring.pop n).1, s.read + (s.ring.pop n).2.length⟩, .bytes (s.ring.pop n).2)
  | .fdFetch ready => (⟨(s.ring.fdFetch ready).1, 0⟩, .result (s.ring.fdFetch ready).2)
  | .fdDump room =>
    (⟨(s.ring.fdDump room).1, s.read + (s.ring.fdDump room).2.2.length⟩,
      .sent (s.ring.fdDump room).2.1 (s.ring.fdDump room).2.2)
  | .fetch n => (s, .found (s.ring.fetch n))
  | .rskip n => (⟨s.ring.rskip n, s.read + n⟩, .done)
  | .rback n => (⟨s.ring.rback n, s.read - n⟩, .done)
  | .used => (s, .size s.ring.used)
  | .avail => (s, .size s.ring.avail)

def serve (s : State) (op : Op) : Option (State × Out) := some (step s op)

/-- A queue of bytes of a fixed capacity, with the bytes that were read since it was last written to. -/
structure Fifo where
  capacity : Nat
  back : Bytes
  queue : Bytes

namespace Fifo

def free (q : Fifo) : Nat := q.capacity - q.queue.length

def add (q : Fifo) (data : Bytes) : Fifo := { q with back := [], queue := q.queue ++ data }

def drop (q : Fifo) (n : Nat) : Fifo := { q with back := q.back ++ q.queue.take n, queue := q.queue.drop n }

def step (q : Fifo) : Op → Fifo × Out
  | .push data => (q.add (data.take q.free), .size (data.take q.free).length)
  | .pop n => (q.drop n, .bytes (q.queue.take n))
  | .fdFetch ready =>
    if q.free = 0 then (q.add [], .result 0)
    else
      match ready with
      | none => (q.add [], .result (-1))
      | some ready => (q.add (ready.take q.free), .result (ready.take q.free).length)
  | .fdDump room =>
    if q.queue = [] then (q, .sent 0 [])
    else if room = 0 then (q, .sent (-1) [])
    else (q.drop room, .sent (q.queue.take room).length (q.queue.take room))
  | .fetch n => (q, .found (if q.queue ≠ [] ∧ n ≤ q.queue.length then some (q.queue.take n) else none))
  | .rskip n => (q.drop n, .done)
  | .rback n =>
    ({ q with back := q.back.take (q.back.length - n), queue := q.back.drop (q.back.length - n) ++ q.queue }, .done)
  | .used => (q, .size q.queue.length)
  | .avail => (q, .size q.free)

end Fifo

def count (r : RingBuf) : Nat := (r.tail + 2 * r.size - r.head) % (2 * r.size)

/-- What the user keeps to: it skips bytes that are there and gives back bytes that it has read. -/
def Allowed (s : State) : Op → Prop
  | .rskip n => n ≤ s.ring.count
  | .rback n => n ≤ s.read
  | _ => True

instance (s : State) : (op : Op) → Decidable (Allowed s op)
  | .rskip n => inferInstanceAs (Decidable (n ≤ s.ring.count))
  | .rback n => inferInstanceAs (Decidable (n ≤ s.read))
  | .push _ | .pop _ | .fdFetch _ | .fdDump _ | .fetch _ | .used | .avail => .isTrue trivial

/-- The buffer is not read when it is full, and a descriptor that takes a part of the bytes gets them in one
call. -/
def Sound (s : State) : Op → Prop
  | .pop _ | .fetch _ | .used | .avail => s.ring.isFull = true → s.ring.isEmpty = true
  | .fdDump room =>
    (s.ring.isFull = true → s.ring.isEmpty = true) ∧
      (s.ring.head &&& s.ring.mask ≤ s.ring.tail &&& s.ring.mask → room = 0 ∨ s.ring.count ≤ room)
  | _ => True

instance (s : State) : (op : Op) → Decidable (Sound s op)
  | .pop _ | .fetch _ | .used | .avail =>
    inferInstanceAs (Decidable (s.ring.isFull = true → s.ring.isEmpty = true))
  | .fdDump room => inferInstanceAs (Decidable ((s.ring.isFull = true → s.ring.isEmpty = true) ∧
      (s.ring.head &&& s.ring.mask ≤ s.ring.tail &&& s.ring.mask → room = 0 ∨ s.ring.count ≤ room)))
  | .push _ | .fdFetch _ | .rskip _ | .rback _ => .isTrue trivial

/-! ### Offsets -/

section Offsets

variable {r : RingBuf} {k x y : Nat}

theorem two_pow_bounds (hk : k ≤ 63) : 0 < 2 ^ k ∧ 2 ^ k ≤ 2 ^ 63 ∧ 2 ^ (k + 1) = 2 * 2 ^ k :=
  ⟨Nat.two_pow_pos k, Nat.pow_le_pow_right (by decide) hk, by rw [Nat.pow_succ, Nat.mul_comm]⟩

theorem and_mask (hs : r.size = 2 ^ k) (hk : k ≤ 63) (x : Nat) : x &&& r.mask = x % 2 ^ k := by
  obtain ⟨hpos, hle, -⟩ := two_pow_bounds hk
  have hmask : r.mask = 2 ^ k - 1 := by
    rw [mask, hs, sizeSub_of_le hpos]
  rw [hmask, Nat.and_two_pow_sub_one_eq_mod]

theorem and_wrapMask (hs : r.size = 2 ^ k) (hk : k ≤ 63) (x : Nat) : x &&& r.wrapMask = x % 2 ^ (k + 1) := by
  obtain ⟨hpos, hle, hsucc⟩ := two_pow_bounds hk
  have hmask : r.wrapMask = 2 ^ (k + 1) - 1 := by
    rw [wrapMask, sizeAdd, sizeSub_eq_mod (Nat.mod_lt _ (by decide)), hs]
    omega
  rw [hmask, Nat.and_two_pow_sub_one_eq_mod]

/-- The carries of a `size_t` do not reach the bits below the mask. -/
theorem mod_size_mod (hk : k ≤ 63) (x : Nat) : x % 2 ^ 64 % 2 ^ (k + 1) = x % 2 ^ (k + 1) :=
  Nat.mod_mod_of_dvd x (Nat.pow_dvd_pow 2 (by omega))

theorem mod_wrap_mod (x : Nat) : x % 2 ^ (k + 1) % 2 ^ k = x % 2 ^ k :=
  Nat.mod_mod_of_dvd x (Nat.pow_dvd_pow 2 (by omega))

/-- The bit of the size is half a turn. -/
theorem xor_half_turn (h : x < 2 ^ (k + 1)) : x ^^^ 2 ^ k = (x + 2 ^ k) % 2 ^ (k + 1) := by
  refine Nat.eq_of_testBit_eq ?_
  intro i
  rw [Nat.testBit_xor, Nat.testBit_mod_two_pow, Nat.testBit_two_pow, Nat.add_comm x]
  rcases Nat.lt_trichotomy i k with hi | rfl | hi
  · rw [Nat.testBit_two_pow_add_gt hi]
    simp [show k ≠ i by omega, show i < k + 1 by omega]
  · rw [Nat.testBit_two_pow_add_eq]
    simp
  · have hzero : x.testBit i = false := Nat.testBit_lt_two_pow (h.trans_le (Nat.pow_le_pow_right (by decide) hi))
    simp [hzero, show k ≠ i by omega, show ¬ i < k + 1 by omega]

end Offsets

end RingBuf

end RaleighSL.Zcl
