import RaleighSL.Zcl.RingBuf

/-!
# The ring buffer as a queue

Behind head and tail stand positions that are never reduced. The bytes that were just
read and the bytes of the queue lie in the buffer one after the other, from a position
that is at most the size behind the tail. As long as the size is a power of two and
nothing reads a buffer that is full, every operation does what the queue does.
-/
namespace RaleighSL.Zcl.RingBuf
open RaleighSL.Library

/-- The buffer stores the queue from position `b` on. -/
structure Rep (k b : Nat) (s : State) (q : Fifo) : Prop where
  size : s.ring.size = 2 ^ k
  small : k ≤ 63
  length : s.ring.buffer.length = 2 ^ k
  capacity : q.capacity = 2 ^ k
  read : s.read = q.back.length
  head : s.ring.head = (b + q.back.length) % 2 ^ (k + 1)
  tail : s.ring.tail = (b + q.back.length + q.queue.length) % 2 ^ (k + 1)
  room : q.back.length + q.queue.length ≤ 2 ^ k
  held : Holds s.ring.buffer b (q.back ++ q.queue)

variable {k b n : Nat} {s : State} {q : Fifo} {op : Op}

namespace Rep

theorem pos (_h : Rep k b s q) : 0 < 2 ^ k := Nat.two_pow_pos k

theorem double (_h : Rep k b s q) : 2 ^ (k + 1) = 2 * 2 ^ k := by rw [Nat.pow_succ, Nat.mul_comm]

theorem headOffset (h : Rep k b s q) : s.ring.head &&& s.ring.mask = (b + q.back.length) % 2 ^ k := by
  rw [and_mask h.size h.small, h.head, mod_wrap_mod]

theorem tailOffset (h : Rep k b s q) :
    s.ring.tail &&& s.ring.mask = (b + q.back.length + q.queue.length) % 2 ^ k := by
  rw [and_mask h.size h.small, h.tail, mod_wrap_mod]

theorem queue_held (h : Rep k b s q) : Holds s.ring.buffer (b + q.back.length) q.queue := (holds_append.mp h.held).2

theorem isEmpty_iff (h : Rep k b s q) : s.ring.isEmpty = true ↔ q.queue = [] := by
  have hroom := h.room
  have hdouble := h.double
  have hpos := h.pos
  rw [isEmpty, decide_eq_true_eq, h.head, h.tail, ← List.length_eq_zero_iff]
  constructor
  · intro heq
    by_contra hne
    exact mod_ne_of_lt (N := 2 ^ (k + 1)) (i := b + q.back.length) (j := b + q.back.length + q.queue.length) (by omega)
      (by omega) heq.symm
  · intro hzero
    simp [hzero]

theorem isFull_iff (h : Rep k b s q) : s.ring.isFull = true ↔ q.queue.length = 2 ^ k := by
  have hroom := h.room
  have hdouble := h.double
  have hpos := h.pos
  have hlt : s.ring.head < 2 ^ (k + 1) := by
    rw [h.head]
    exact Nat.mod_lt _ (by omega)
  rw [isFull, decide_eq_true_eq, h.size, xor_half_turn hlt, h.head, h.tail, Nat.mod_add_mod]
  constructor
  · intro heq
    by_contra hne
    exact mod_ne_of_lt (N := 2 ^ (k + 1)) (i := b + q.back.length + q.queue.length) (j := b + q.back.length + 2 ^ k)
      (by omega) (by omega) heq.symm
  · intro hfull
    rw [hfull]

theorem count_eq (h : Rep k b s q) : s.ring.count = q.queue.length := by
  have hroom := h.room
  have hdouble := h.double
  have hpos := h.pos
  have hlt := Nat.mod_lt (b + q.back.length) (show 0 < 2 ^ (k + 1) by omega)
  rw [count, h.size, h.head, h.tail, ← hdouble]
  rcases add_mod_cases (b + q.back.length) (show q.queue.length < 2 ^ (k + 1) by omega) with ⟨hcase, heq⟩ | ⟨hcase, heq⟩
  · rw [heq, Nat.mod_eq_sub_mod (by omega), Nat.mod_eq_of_lt (by omega)]
    omega
  · rw [heq, Nat.mod_eq_of_lt (by omega)]
    omega

/-- What was read stays behind when the buffer is written to. -/
theorem forget (h : Rep k b s q) : Rep k (b + q.back.length) ⟨s.ring, 0⟩ (q.add []) where
  size := h.size
  small := h.small
  length := h.length
  capacity := h.capacity
  read := rfl
  head := by simpa [Fifo.add] using h.head
  tail := by simpa [Fifo.add] using h.tail
  room := by
    have hroom := h.room
    simp only [Fifo.add, List.length_nil, List.append_nil]
    omega
  held := by simpa [Fifo.add] using h.queue_held

theorem rskip (h : Rep k b s q) (hn : n ≤ q.queue.length) : Rep k b ⟨s.ring.rskip n, s.read + n⟩ (q.drop n) where
  size := h.size
  small := h.small
  length := h.length
  capacity := h.capacity
  read := by simp [Fifo.drop, h.read, hn]
  head := by
    rw [RingBuf.rskip, sizeAdd, and_wrapMask h.size h.small, mod_size_mod h.small, h.head, Nat.mod_add_mod]
    simp [Fifo.drop, hn, Nat.add_assoc]
  tail := by
    rw [RingBuf.rskip, h.tail]
    congr 1
    simp only [Fifo.drop, List.length_append, List.length_take, List.length_drop]
    omega
  room := by
    have hroom := h.room
    simp only [Fifo.drop, List.length_append, List.length_take, List.length_drop]
    omega
  held := by simpa [Fifo.drop, RingBuf.rskip] using h.held

theorem rback (h : Rep k b s q) (hn : n ≤ q.back.length) :
    Rep k b ⟨s.ring.rback n, s.read - n⟩ (q.step (.rback n)).1 where
  size := h.size
  small := h.small
  length := h.length
  capacity := h.capacity
  read := by simp [Fifo.step, h.read]
  head := by
    obtain ⟨hpos, hle, hsucc⟩ := two_pow_bounds h.small
    have hroom := h.room
    have hsum : (b + q.back.length) % 2 ^ (k + 1) + (2 ^ 64 - n % 2 ^ 64) =
        (b + q.back.length) % 2 ^ (k + 1) + (2 ^ 64 - n) := by
      rw [Nat.mod_eq_of_lt (a := n) (by omega)]
    have hturn : (b + q.back.length + (2 ^ 64 - n)) = (b + (q.back.length - n)) + 2 ^ 64 := by omega
    have hdvd : 2 ^ (k + 1) ∣ 2 ^ 64 := Nat.pow_dvd_pow 2 (by have := h.small; omega)
    rw [RingBuf.rback, h.head, sizeSub_eq_mod (Nat.lt_of_lt_of_le (Nat.mod_lt _ (Nat.two_pow_pos _)) (Nat.le_of_dvd
      (by decide) hdvd)), and_wrapMask h.size h.small, mod_size_mod h.small, hsum, Nat.mod_add_mod, hturn, Nat.add_mod,
      Nat.mod_eq_zero_of_dvd hdvd, Nat.add_zero, Nat.mod_mod]
    simp [Fifo.step]
  tail := by
    rw [RingBuf.rback, h.tail]
    congr 1
    simp only [Fifo.step, List.length_append, List.length_take, List.length_drop]
    omega
  room := by
    have hroom := h.room
    simp only [Fifo.step, List.length_append, List.length_take, List.length_drop]
    omega
  held := by
    have heq : (q.step (.rback n)).1.back ++ (q.step (.rback n)).1.queue = q.back ++ q.queue := by
      simp only [Fifo.step]
      rw [← List.append_assoc, List.take_append_drop]
    rw [heq]
    exact h.held

end Rep

/-! ### Reading -/

structure Segments (r : RingBuf) (iov : Iov × Iov) (queue : Bytes) : Prop where
  first : (r.load iov.1 iov.1.len).length = iov.1.len
  second : (r.load iov.2 iov.2.len).length = iov.2.len
  queue : r.load iov.1 iov.1.len ++ r.load iov.2 iov.2.len = queue

theorem load_take (r : RingBuf) (iov : Iov) {n m : Nat} (h : n ≤ m) : (r.load iov m).take n = r.load iov n := by
  rw [load, load, List.take_take, Nat.min_eq_left h]

namespace Segments

variable {r : RingBuf} {iov : Iov × Iov} {queue : Bytes}

theorem length (h : Segments r iov queue) : iov.1.len + iov.2.len = queue.length := by
  rw [← h.queue, List.length_append, h.first, h.second]

theorem take_first (h : Segments r iov queue) (hn : n ≤ iov.1.len) : r.load iov.1 n = queue.take n := by
  rw [← h.queue, List.take_append_of_le_length (by rw [h.first]; exact hn), load_take r iov.1 hn]

theorem take_both (h : Segments r iov queue) (hn : n ≤ iov.2.len) :
    r.load iov.1 iov.1.len ++ r.load iov.2 n = queue.take (iov.1.len + n) := by
  rw [← h.queue, List.take_append, h.first, Nat.add_sub_cancel_left, load_take r iov.2 hn,
    List.take_of_length_le (by rw [h.first]; omega)]

end Segments

namespace Rep

/-- A queue that does not reach the end of the buffer. -/
theorem segments_flat (h : Rep k b s q) (hflat : (b + q.back.length) % 2 ^ k + q.queue.length ≤ 2 ^ k) :
    Segments s.ring (⟨(b + q.back.length) % 2 ^ k, q.queue.length⟩, ⟨0, 0⟩) q.queue := by
  have hload : s.ring.load ⟨(b + q.back.length) % 2 ^ k, q.queue.length⟩ q.queue.length = q.queue := by
    rw [load, ← h.length]
    exact h.queue_held.load (by rw [h.length]; exact hflat)
  refine ⟨by rw [hload], by simp [load], ?_⟩
  rw [hload]
  simp [load]

theorem segments_wrap (h : Rep k b s q) (hwrap : 2 ^ k ≤ (b + q.back.length) % 2 ^ k + q.queue.length) :
    Segments s.ring (⟨(b + q.back.length) % 2 ^ k, 2 ^ k - (b + q.back.length) % 2 ^ k⟩,
      ⟨0, q.queue.length - (2 ^ k - (b + q.back.length) % 2 ^ k)⟩) q.queue := by
  have hroom := h.room
  have hlt := Nat.mod_lt (b + q.back.length) h.pos
  refine ⟨?_, ?_, ?_⟩
  · simp only [load, List.length_take, List.length_drop, h.length]
    omega
  · simp only [load, List.length_take, List.length_drop, h.length]
    omega
  · have hload := h.queue_held.load_wrap (by rw [h.length]; exact h.pos) (by rw [h.length]; exact hwrap)
      (by rw [h.length]; omega)
    rw [h.length] at hload
    exact hload

theorem readIov (h : Rep k b s q) (hs : s.ring.isFull = true → s.ring.isEmpty = true) :
    Segments s.ring s.ring.readIov q.queue := by
  have hroom := h.room
  have hpos := h.pos
  rw [h.isFull_iff, h.isEmpty_iff] at hs
  rw [RingBuf.readIov]
  by_cases hempty : s.ring.isEmpty = true
  · rw [if_pos hempty, h.isEmpty_iff.mp hempty]
    simp [Segments.mk, load]
  · rw [if_neg hempty]
    rw [h.isEmpty_iff] at hempty
    have hlt : q.queue.length < 2 ^ k := by
      by_contra hge
      exact hempty (hs (by omega))
    have hne : q.queue.length ≠ 0 := fun hzero => hempty (List.length_eq_zero_iff.mp hzero)
    have hoff := Nat.mod_lt (b + q.back.length) hpos
    simp only [h.headOffset, h.tailOffset, h.size]
    rcases add_mod_cases (b + q.back.length) hlt with ⟨hcase, heq⟩ | ⟨hcase, heq⟩
    · rw [heq, if_pos (by omega), Nat.add_sub_cancel_left]
      exact h.segments_flat hcase.le
    · rw [heq, if_neg (by omega), show (b + q.back.length) % 2 ^ k + q.queue.length - 2 ^ k =
        q.queue.length - (2 ^ k - (b + q.back.length) % 2 ^ k) by omega]
      exact h.segments_wrap hcase

/-- The second segment is used only behind a first one. -/
theorem readIov_first (h : Rep k b s q) (hfirst : s.ring.readIov.1.len = 0) : s.ring.readIov.2.len = 0 := by
  have hlt := Nat.mod_lt (b + q.back.length) h.pos
  rw [RingBuf.readIov] at hfirst ⊢
  by_cases hempty : s.ring.isEmpty = true
  · rw [if_pos hempty]
  · rw [if_neg hempty] at hfirst ⊢
    simp only [h.headOffset, h.size] at hfirst ⊢
    split_ifs at hfirst ⊢ with hle
    · rfl
    · simp only at hfirst
      omega

/-- A buffer that is full is read as if it were empty. -/
theorem readIov_full (h : Rep k b s q) (hfull : q.queue.length = 2 ^ k) :
    s.ring.readIov.1.len = 0 ∧ s.ring.readIov.2.len = 0 := by
  have hpos := h.pos
  have hempty : ¬ s.ring.isEmpty = true := by
    rw [h.isEmpty_iff, ← List.length_eq_zero_iff]
    omega
  rw [RingBuf.readIov, if_neg hempty]
  simp only [h.headOffset, h.tailOffset, hfull, Nat.add_mod_right, le_refl, if_true, Nat.sub_self, and_self]

/-- `z_ringbuf_rbuffer` takes the first piece of the queue, also from a buffer that is full. -/
theorem rbuffer (h : Rep k b s q) (hne : q.queue ≠ []) :
    ∃ n, 0 < n ∧ n ≤ q.queue.length ∧ s.ring.rbuffer = (s.ring.rskip n, q.queue.take n) := by
  have hroom := h.room
  have hpos := h.pos
  have hlen : 0 < q.queue.length := List.length_pos_iff.mpr hne
  have hoff := Nat.mod_lt (b + q.back.length) hpos
  have hempty : ¬ s.ring.isEmpty = true := fun hempty => hne (h.isEmpty_iff.mp hempty)
  rw [RingBuf.rbuffer, if_neg hempty]
  simp only [h.headOffset, h.tailOffset, h.size]
  by_cases hflat : (b + q.back.length) % 2 ^ k + q.queue.length < 2 ^ k
  · have htail : (b + q.back.length + q.queue.length) % 2 ^ k = (b + q.back.length) % 2 ^ k + q.queue.length := by
      rw [← Nat.mod_add_mod, Nat.mod_eq_of_lt hflat]
    have hload := (h.segments_flat hflat.le).take_first le_rfl
    refine ⟨q.queue.length, hlen, le_rfl, ?_⟩
    rw [htail, if_pos (by omega), Nat.add_sub_cancel_left, hload]
  · have htail : ¬ (b + q.back.length) % 2 ^ k < (b + q.back.length + q.queue.length) % 2 ^ k := by
      have hle := Nat.mod_le ((b + q.back.length) % 2 ^ k + q.queue.length - 2 ^ k) (2 ^ k)
      rw [← Nat.mod_eq_sub_mod (by omega), Nat.mod_add_mod] at hle
      omega
    have hload := (h.segments_wrap (by omega)).take_first le_rfl
    refine ⟨2 ^ k - (b + q.back.length) % 2 ^ k, by omega, by omega, ?_⟩
    rw [if_neg htail, hload]

theorem pop (h : Rep k b s q) (hs : s.ring.isFull = true → s.ring.isEmpty = true) (n : Nat) :
    s.ring.pop n = (s.ring.rskip (q.queue.take n).length, q.queue.take n) := by
  have hseg := h.readIov hs
  have hlen := hseg.length
  rw [RingBuf.pop, List.length_take]
  by_cases hlong : s.ring.readIov.1.len < n
  · have htake : q.queue.take (s.ring.readIov.1.len + min (n - s.ring.readIov.1.len) s.ring.readIov.2.len) =
        q.queue.take n := by
      rw [List.take_eq_take_iff]
      omega
    rw [if_pos hlong]
    dsimp only
    rw [hseg.take_both (Nat.min_le_right _ _), htake, show min (n - s.ring.readIov.1.len) s.ring.readIov.2.len +
      s.ring.readIov.1.len = min n q.queue.length by omega]
  · rw [if_neg hlong]
    dsimp only
    rw [hseg.take_first (Nat.min_le_right _ _), Nat.min_eq_left (by omega : n ≤ s.ring.readIov.1.len),
      Nat.min_eq_left (by omega : n ≤ q.queue.length)]

theorem fetch (h : Rep k b s q) (hs : s.ring.isFull = true → s.ring.isEmpty = true) (n : Nat) :
    s.ring.fetch n = if q.queue ≠ [] ∧ n ≤ q.queue.length then some (q.queue.take n) else none := by
  have hseg := h.readIov hs
  have hlen := hseg.length
  rw [RingBuf.fetch]
  by_cases hempty : s.ring.isEmpty = true
  · rw [if_pos hempty, if_neg (by simp [h.isEmpty_iff.mp hempty])]
  · rw [if_neg hempty]
    rw [h.isEmpty_iff] at hempty
    dsimp only
    by_cases hshort : n ≤ s.ring.readIov.1.len
    · rw [if_pos hshort, if_pos ⟨hempty, by omega⟩, hseg.take_first hshort]
    · rw [if_neg hshort]
      by_cases hall : n ≤ s.ring.readIov.1.len + s.ring.readIov.2.len
      · rw [if_pos hall, if_pos ⟨hempty, by omega⟩, hseg.take_both (by omega), Nat.add_sub_cancel' (by omega)]
      · rw [if_neg hall, if_neg (by omega)]

theorem used (h : Rep k b s q) (hs : s.ring.isFull = true → s.ring.isEmpty = true) : s.ring.used = q.queue.length := by
  have hseg := h.readIov hs
  have hlen := hseg.length
  rw [RingBuf.used, ← hlen, RingBuf.readIov]
  by_cases hempty : s.ring.isEmpty = true
  · simp [hempty]
  · simp only [hempty]
    split_ifs <;> rfl

end Rep

/-- A descriptor with room for everything, or for nothing. -/
theorem fdWrite_eq {room : Nat} {data : Bytes} (h : data ≠ []) (hroom : room = 0 ∨ data.length ≤ room) :
    fdWrite (data.length + 1) room 0 data =
      if room = 0 then (-1, 0) else ((data.length : Int), data.length) := by
  obtain ⟨x, l, rfl⟩ := List.exists_cons_of_ne_nil h
  rcases hroom with rfl | hroom
  · simp [fdWrite]
  · have hne : room ≠ 0 := by
      rw [List.length_cons] at hroom
      omega
    rw [fdWrite, if_neg hne, Nat.min_eq_right hroom]
    · simp [fdWrite]
    · exact h

namespace Rep

theorem fdDump (h : Rep k b s q) {room : Nat} (hs : Sound s (.fdDump room)) :
    s.ring.fdDump room =
      if q.queue = [] then (s.ring, 0, [])
      else if room = 0 then (s.ring, -1, [])
      else (s.ring.rskip (q.queue.take room).length, ((q.queue.take room).length : Int), q.queue.take room) := by
  have hseg := h.readIov hs.1
  have hcall := hs.2
  rw [h.count_eq] at hcall
  rw [RingBuf.fdDump]
  by_cases hempty : s.ring.isEmpty = true
  · rw [if_pos hempty, if_pos (h.isEmpty_iff.mp hempty)]
  · rw [if_neg hempty, if_neg (fun hnil => hempty (h.isEmpty_iff.mpr hnil))]
    rw [RingBuf.readIov, if_neg hempty] at hseg
    rw [h.isEmpty_iff] at hempty
    dsimp only at hseg ⊢
    by_cases hflat : s.ring.head &&& s.ring.mask ≤ s.ring.tail &&& s.ring.mask
    · rw [if_pos hflat] at hseg ⊢
      have hdata := hseg.queue
      rw [show s.ring.load ⟨0, 0⟩ 0 = [] by simp [load], List.append_nil] at hdata
      rw [hdata, fdWrite_eq hempty (hcall hflat)]
      by_cases hroom : room = 0
      · simp [hroom]
      · have hall : q.queue.length ≤ room := (hcall hflat).resolve_left hroom
        have hpos : 0 < q.queue.length := List.length_pos_iff.mpr hempty
        simp only [hroom, if_false, List.take_of_length_le hall, List.take_length, Int.toNat_natCast]
        rw [if_pos (by exact_mod_cast hpos)]
    · rw [if_neg hflat] at hseg ⊢
      rw [hseg.queue]
      have hpos : 0 < q.queue.length := List.length_pos_iff.mpr hempty
      by_cases hroom : room = 0
      · simp [hroom]
      · have htake : q.queue.take (min room q.queue.length) = q.queue.take room := by
          rw [List.take_eq_take_iff]
          omega
        rw [if_neg (by omega), if_neg hroom, List.length_take, htake]

/-! ### Writing -/

/-- Bytes that were stored right behind the queue. -/
theorem extend (h : Rep k b s q) {data buffer : Bytes} {avail : Nat} (hlen : buffer.length = 2 ^ k)
    (hroom : q.queue.length + data.length ≤ 2 ^ k)
    (hheld : Holds buffer (b + q.back.length) (q.queue ++ data)) :
    Rep k (b + q.back.length) ⟨s.ring.extend data.length avail buffer, 0⟩ (q.add data) where
  size := h.size
  small := h.small
  length := hlen
  capacity := h.capacity
  read := rfl
  head := by
    simp only [RingBuf.extend, Fifo.add, and_wrapMask h.size h.small, h.head, Nat.mod_mod, ite_self, List.length_nil,
      Nat.add_zero]
  tail := by
    simp only [RingBuf.extend, Fifo.add, sizeAdd, and_wrapMask h.size h.small, mod_size_mod h.small, h.tail,
      Nat.mod_add_mod, List.length_append, List.length_nil, Nat.add_zero, Nat.add_assoc]
  room := by
    simp only [Fifo.add, List.length_append, List.length_nil]
    omega
  held := hheld

end Rep

/-- Bytes stored from an offset up to the end of the buffer and from its start on. -/
def place (r : RingBuf) (tail : Nat) (data : Bytes) : Bytes :=
  store (store r.buffer tail (data.take (r.size - tail))) 0 (data.drop (r.size - tail))

theorem place_short {r : RingBuf} {tail : Nat} {data : Bytes} (h : data.length ≤ r.size - tail) :
    r.place tail data = store r.buffer tail data := by
  rw [place, List.take_of_length_le h, List.drop_of_length_le h, store_nil]

namespace Rep

theorem place (h : Rep k b s q) {data : Bytes} (avail : Nat) (hroom : q.queue.length + data.length ≤ 2 ^ k) :
    Rep k (b + q.back.length)
      ⟨s.ring.extend data.length avail (s.ring.place (s.ring.tail &&& s.ring.mask) data), 0⟩ (q.add data) := by
  have hpos := h.pos
  have hlt := Nat.mod_lt (b + q.back.length + q.queue.length) hpos
  have hheld := h.queue_held.store_wrap (d := data) (by rw [h.length]; exact hpos) (by rw [h.length]; exact hroom)
  rw [h.length] at hheld
  have hfirst : (store s.ring.buffer ((b + q.back.length + q.queue.length) % 2 ^ k)
      (data.take (2 ^ k - (b + q.back.length + q.queue.length) % 2 ^ k))).length = 2 ^ k := by
    rw [length_store (by rw [h.length, List.length_take]; omega), h.length]
  refine h.extend ?_ hroom ?_
  · rw [RingBuf.place, h.tailOffset, h.size, length_store (by rw [hfirst, List.length_drop]; omega), hfirst]
  · rw [RingBuf.place, h.tailOffset, h.size]
    exact hheld

theorem free_eq (h : Rep k b s q) : q.free = 2 ^ k - q.queue.length := by rw [Fifo.free, h.capacity]

theorem free_flat (h : Rep k b s q) (hfull : ¬ s.ring.isFull = true)
    (hle : s.ring.head &&& s.ring.mask ≤ s.ring.tail &&& s.ring.mask) :
    (s.ring.size - (s.ring.tail &&& s.ring.mask)) + (s.ring.head &&& s.ring.mask) = q.free := by
  have hroom := h.room
  have hpos := h.pos
  rw [h.isFull_iff] at hfull
  have hoff := Nat.mod_lt (b + q.back.length) hpos
  rw [h.headOffset, h.tailOffset] at hle
  rw [h.headOffset, h.tailOffset, h.size, h.free_eq]
  rcases add_mod_cases (b + q.back.length) (show q.queue.length < 2 ^ k by omega) with ⟨hcase, heq⟩ | ⟨hcase, heq⟩
  · omega
  · omega

theorem free_wrap (h : Rep k b s q) (hfull : ¬ s.ring.isFull = true)
    (hlt : ¬ s.ring.head &&& s.ring.mask ≤ s.ring.tail &&& s.ring.mask) :
    (s.ring.head &&& s.ring.mask) - (s.ring.tail &&& s.ring.mask) = q.free ∧
      q.free ≤ s.ring.size - (s.ring.tail &&& s.ring.mask) := by
  have hroom := h.room
  have hpos := h.pos
  rw [h.isFull_iff] at hfull
  have hoff := Nat.mod_lt (b + q.back.length) hpos
  rw [h.headOffset, h.tailOffset] at hlt
  rw [h.headOffset, h.tailOffset, h.size, h.free_eq]
  rcases add_mod_cases (b + q.back.length) (show q.queue.length < 2 ^ k by omega) with ⟨hcase, heq⟩ | ⟨hcase, heq⟩
  · omega
  · omega

/-- Everything that fits is accepted. -/
theorem push (h : Rep k b s q) (data : Bytes) :
    (s.ring.push data).2 = (data.take q.free).length ∧
      Rep k (b + q.back.length) ⟨(s.ring.push data).1, 0⟩ (q.add (data.take q.free)) := by
  have hroom := h.room
  have hfree := h.free_eq
  have hfit : q.queue.length + (data.take q.free).length ≤ 2 ^ k := by
    rw [List.length_take]
    omega
  rw [RingBuf.push, writeIov]
  by_cases hfull : s.ring.isFull = true
  · have hzero : q.free = 0 := by
      rw [hfree, h.isFull_iff.mp hfull, Nat.sub_self]
    have hplace := h.place 0 hfit
    simp only [hfull, if_true, hzero, List.take_zero, RingBuf.place, List.take_nil, List.drop_nil, store_nil,
      List.length_nil] at hplace ⊢
    by_cases hdata : 0 < data.length
    · simpa [hdata] using hplace
    · simpa [hdata] using hplace
  · rw [if_neg hfull]
    dsimp only
    by_cases hle : s.ring.head &&& s.ring.mask ≤ s.ring.tail &&& s.ring.mask
    · have htotal := h.free_flat hfull hle
      have hplace := h.place q.free hfit
      simp only [if_pos hle]
      by_cases hlong : s.ring.size - (s.ring.tail &&& s.ring.mask) < data.length
      · have hlen : min (data.length - (s.ring.size - (s.ring.tail &&& s.ring.mask))) (s.ring.head &&& s.ring.mask) +
            (s.ring.size - (s.ring.tail &&& s.ring.mask)) = (data.take q.free).length := by
          rw [List.length_take]
          omega
        have hfirst : (data.take q.free).take (s.ring.size - (s.ring.tail &&& s.ring.mask)) =
            data.take (s.ring.size - (s.ring.tail &&& s.ring.mask)) := by
          rw [List.take_take, Nat.min_eq_left (by omega)]
        have hrest : (data.take q.free).drop (s.ring.size - (s.ring.tail &&& s.ring.mask)) =
            (data.drop (s.ring.size - (s.ring.tail &&& s.ring.mask))).take
              (min (data.length - (s.ring.size - (s.ring.tail &&& s.ring.mask))) (s.ring.head &&& s.ring.mask)) := by
          rw [List.drop_take, List.take_eq_take_iff, List.length_drop]
          omega
        rw [RingBuf.place, hfirst, hrest] at hplace
        rw [if_pos hlong, hlen, htotal]
        exact ⟨rfl, hplace⟩
      · have hall : data.take q.free = data := List.take_of_length_le (by omega)
        rw [if_neg hlong, htotal, Nat.min_eq_left (by omega), List.take_length, hall]
        rw [hall, place_short (by omega)] at hplace
        exact ⟨rfl, hplace⟩
    · obtain ⟨htotal, hbound⟩ := h.free_wrap hfull hle
      have hplace := h.place q.free hfit
      rw [place_short (by rw [List.length_take]; omega)] at hplace
      simp only [if_neg hle, htotal, Nat.min_zero, Nat.zero_add, Nat.add_zero, List.take_zero, store_nil]
      by_cases hlong : q.free < data.length
      · have hlen : (data.take q.free).length = q.free := by
          rw [List.length_take]
          omega
        rw [hlen] at hplace
        rw [if_pos hlong, hlen]
        exact ⟨rfl, hplace⟩
      · have hall : data.take q.free = data := List.take_of_length_le (by omega)
        rw [if_neg hlong, Nat.min_eq_left (by omega), List.take_length, hall]
        rw [hall] at hplace
        exact ⟨rfl, hplace⟩

/-- A read that brought nothing leaves the buffer as it is. -/
theorem received (h : Rep k b s q) {got buffer : Bytes} {avail : Nat}
    (hplace : Rep k (b + q.back.length) ⟨s.ring.extend got.length avail buffer, 0⟩ (q.add got)) :
    Rep k (b + q.back.length) ⟨if 0 < got.length then s.ring.extend got.length avail buffer else s.ring, 0⟩ (q.add got) := by
  by_cases hgot : 0 < got.length
  · rw [if_pos hgot]
    exact hplace
  · rw [if_neg hgot, List.length_eq_zero_iff.mp (Nat.eq_zero_of_not_pos hgot)]
    exact h.forget

theorem fdFetch (h : Rep k b s q) (ready : Option Bytes) :
    Out.result (s.ring.fdFetch ready).2 = (q.step (.fdFetch ready)).2 ∧
      Rep k (b + q.back.length) ⟨(s.ring.fdFetch ready).1, 0⟩ (q.step (.fdFetch ready)).1 := by
  have hroom := h.room
  have hfree := h.free_eq
  rw [RingBuf.fdFetch, Fifo.step.eq_def]
  dsimp only
  by_cases hfull : s.ring.isFull = true
  · rw [if_pos hfull, if_pos (by rw [hfree, h.isFull_iff.mp hfull, Nat.sub_self])]
    exact ⟨rfl, h.forget⟩
  · have hpos : q.free ≠ 0 := by
      rw [h.isFull_iff] at hfull
      omega
    rw [if_neg hfull, if_neg hpos]
    cases ready with
    | none => exact ⟨rfl, h.forget⟩
    | some ready =>
      dsimp only
      have hfit : q.queue.length + (ready.take q.free).length ≤ 2 ^ k := by
        rw [List.length_take]
        omega
      have hplace := h.place q.free hfit
      by_cases hle : s.ring.head &&& s.ring.mask ≤ s.ring.tail &&& s.ring.mask
      · rw [if_pos hle, h.free_flat hfull hle]
        exact ⟨rfl, h.received hplace⟩
      · obtain ⟨htotal, hbound⟩ := h.free_wrap hfull hle
        rw [place_short (by rw [List.length_take]; omega)] at hplace
        rw [if_neg hle, htotal]
        exact ⟨rfl, h.received hplace⟩

/-- The head moves past bytes that were taken. -/
theorem taken (h : Rep k b s q) (n : Nat) :
    Rep k b ⟨s.ring.rskip (q.queue.take n).length, s.read + (q.queue.take n).length⟩ (q.drop n) := by
  have hdrop : q.drop (q.queue.take n).length = q.drop n := by
    rcases Nat.le_total n q.queue.length with hle | hle
    · rw [List.length_take_of_le hle]
    · rw [List.take_of_length_le hle, Fifo.drop, Fifo.drop, List.take_length, List.drop_length, List.take_of_length_le hle,
        List.drop_of_length_le hle]
  rw [← hdrop]
  exact h.rskip (by rw [List.length_take]; omega)

theorem step (h : Rep k b s q) (ha : Allowed s op) (hs : Sound s op) :
    (RingBuf.step s op).2 = (q.step op).2 ∧ ∃ b', Rep k b' (RingBuf.step s op).1 (q.step op).1 := by
  cases op with
  | push data =>
    obtain ⟨hn, hrep⟩ := h.push data
    exact ⟨by rw [RingBuf.step, hn, Fifo.step], _, hrep⟩
  | pop n =>
    rw [RingBuf.step, h.pop hs n, Fifo.step]
    exact ⟨rfl, b, h.taken n⟩
  | fdFetch ready =>
    obtain ⟨hn, hrep⟩ := h.fdFetch ready
    exact ⟨hn, _, hrep⟩
  | fdDump room =>
    rw [RingBuf.step, h.fdDump hs, Fifo.step]
    by_cases hempty : q.queue = []
    · simp only [hempty, if_true]
      exact ⟨trivial, b, h⟩
    · by_cases hroom : room = 0
      · simp only [hempty, hroom, if_false, if_true]
        exact ⟨trivial, b, h⟩
      · simp only [hempty, hroom, if_false]
        exact ⟨trivial, b, h.taken room⟩
  | fetch n => exact ⟨by rw [RingBuf.step, h.fetch hs n, Fifo.step], b, h⟩
  | rskip n =>
    have hn : n ≤ q.queue.length := by
      rw [← h.count_eq]
      exact ha
    exact ⟨rfl, b, h.rskip hn⟩
  | rback n =>
    have hn : n ≤ q.back.length := by
      rw [← h.read]
      exact ha
    exact ⟨rfl, b, h.rback hn⟩
  | used => exact ⟨by rw [RingBuf.step, h.used hs, Fifo.step], b, h⟩
  | avail => exact ⟨by rw [RingBuf.step, RingBuf.avail, h.used hs, h.size, Fifo.step, h.free_eq], b, h⟩

end Rep

theorem alloc_rep {size : Nat} (hk : k ≤ 63) (hsize : ringSize size = 2 ^ k) (memory : Nat → Byte) :
    Rep k 0 ⟨alloc size memory, 0⟩ ⟨ringSize size, [], []⟩ where
  size := hsize
  small := hk
  length := by simp [alloc, hsize]
  capacity := hsize
  read := rfl
  head := by simp [alloc]
  tail := by simp [alloc]
  room := by simp
  held := holds_nil _ _

theorem step_zero (ha : Allowed ⟨⟨[], 0, 0, 0⟩, 0⟩ op) :
    RingBuf.step ⟨⟨[], 0, 0, 0⟩, 0⟩ op = (⟨⟨[], 0, 0, 0⟩, 0⟩, (Fifo.step ⟨0, [], []⟩ op).2) ∧
      (Fifo.step ⟨0, [], []⟩ op).1 = ⟨0, [], []⟩ := by
  cases op with
  | push data =>
    simp [RingBuf.step, RingBuf.push, writeIov, isFull, RingBuf.extend, wrapMask, sizeAdd, sizeSub, Fifo.step, Fifo.add,
      Fifo.free]
  | pop n =>
    simp [RingBuf.step, RingBuf.pop, readIov, isEmpty, RingBuf.rskip, load, wrapMask, sizeAdd, sizeSub, Fifo.step,
      Fifo.drop]
  | fdFetch ready => simp [RingBuf.step, RingBuf.fdFetch, isFull, Fifo.step, Fifo.add, Fifo.free]
  | fdDump room => simp [RingBuf.step, RingBuf.fdDump, isEmpty, Fifo.step]
  | fetch n => simp [RingBuf.step, RingBuf.fetch, isEmpty, Fifo.step]
  | rskip n =>
    obtain rfl : n = 0 := Nat.le_zero.mp ha
    simp [RingBuf.step, RingBuf.rskip, wrapMask, sizeAdd, sizeSub, Fifo.step, Fifo.drop]
  | rback n =>
    obtain rfl : n = 0 := Nat.le_zero.mp ha
    simp [RingBuf.step, RingBuf.rback, wrapMask, sizeAdd, sizeSub, Fifo.step]
  | used => simp [RingBuf.step, RingBuf.used, isEmpty, Fifo.step]
  | avail => simp [RingBuf.step, RingBuf.avail, RingBuf.used, isEmpty, Fifo.step, Fifo.free]

theorem ringSize_lt (size : Nat) : ringSize size < 2 ^ 64 := UInt64.toNat_lt _

/-- The state is that of a buffer of no bytes, or stores the queue. -/
def Shows (s : State) (q : Fifo) : Prop :=
  (s = ⟨⟨[], 0, 0, 0⟩, 0⟩ ∧ q = ⟨0, [], []⟩) ∨ ∃ k b, Rep k b s q

theorem Shows.step (h : Shows s q) (ha : Allowed s op) (hs : Sound s op) :
    ∃ s', serve s op = some (s', (q.step op).2) ∧ Shows s' (q.step op).1 := by
  rcases h with ⟨rfl, rfl⟩ | ⟨k, b, h⟩
  · obtain ⟨hstep, hq⟩ := step_zero ha
    exact ⟨_, by rw [serve, hstep], Or.inl ⟨rfl, hq⟩⟩
  · obtain ⟨hout, b', h'⟩ := h.step ha hs
    exact ⟨_, by rw [serve, ← hout], Or.inr ⟨k, b', h'⟩⟩

/-- A buffer whose size is a power of two is the queue of bytes of that capacity, in every run in which nothing
reads the buffer when it is full and no descriptor takes a part of the bytes in one of several calls. -/
theorem run_refines_fifo {size : Nat} (hsize : ringSize size = 0 ∨ (ringSize size).isPowerOfTwo) (memory : Nat → Byte)
    {ops : List Op} (hm : Meets serve (fun s op => Allowed s op ∧ Sound s op) ⟨alloc size memory, 0⟩ ops) :
    ∃ s, exec serve ⟨alloc size memory, 0⟩ ops = some (s, (specExec Fifo.step ⟨ringSize size, [], []⟩ ops).2) := by
  have hinit : Shows ⟨alloc size memory, 0⟩ ⟨ringSize size, [], []⟩ := by
    rcases hsize with hzero | ⟨k, hk⟩
    · exact Or.inl ⟨by simp [alloc, hzero], by rw [hzero]⟩
    · have hlt := ringSize_lt size
      rw [hk] at hlt
      have hsmall : k < 64 := (Nat.pow_lt_pow_iff_right (by decide)).mp hlt
      exact Or.inr ⟨k, 0, alloc_rep (by omega) hk memory⟩
  obtain ⟨s, he, -⟩ := exec_simulates (R := Shows) (A := Fifo.step) (C := fun s op => Allowed s op ∧ Sound s op)
    (fun _ _ _ h hok => h.step hok.1 hok.2) hinit hm
  exact ⟨s, he⟩

/-- The head and the tail wrap around, and bytes are given back. -/
theorem run_refines_fifo_wrap : ∃ s, exec serve ⟨alloc 5 (fun _ => 0), 0⟩
    [.push [1, 2, 3, 4, 5, 6], .pop 4, .fdFetch (some [7, 8, 9, 10, 11]), .used, .rskip 1, .rback 1, .fetch 5, .fdDump 9] =
      some (s, [.size 6, .bytes [1, 2, 3, 4], .result 5, .size 7, .done, .done, .found (some [5, 6, 7, 8, 9]),
        .sent 7 [5, 6, 7, 8, 9, 10, 11]]) := by
  have hsize : ringSize 5 = 0 ∨ (ringSize 5).isPowerOfTwo := Or.inr ⟨3, by decide⟩
  have hm : Meets serve (fun s op => Allowed s op ∧ Sound s op) ⟨alloc 5 (fun _ => 0), 0⟩ [.push [1, 2, 3, 4, 5, 6], .pop 4,
      .fdFetch (some [7, 8, 9, 10, 11]), .used, .rskip 1, .rback 1, .fetch 5, .fdDump 9] := by
    decide +kernel
  exact run_refines_fifo hsize (fun _ => 0) hm

/-- A full buffer is taken to be empty; a size of 24 loses the first eight bytes; bytes that a descriptor took
before it failed are sent again. -/
theorem full_odd_and_torn_buffers :
    (exec serve ⟨alloc 8 (fun _ => 0), 0⟩ [.push [1, 2, 3, 4, 5, 6, 7, 8], .used, .pop 8]).map Prod.snd =
      some [.size 8, .size 0, .bytes []] ∧
    (exec serve ⟨alloc 24 (fun _ => 0), 0⟩ [.push [1, 2, 3, 4, 5, 6, 7, 8], .used, .pop 8]).map Prod.snd =
      some [.size 8, .size 0, .bytes []] ∧
    (exec serve ⟨alloc 8 (fun _ => 0), 0⟩ [.push [1, 2, 3, 4], .fdDump 2, .fdDump 4]).map Prod.snd =
      some [.size 4, .sent (-1) [1, 2], .sent 4 [1, 2, 3, 4]] := by
  decide +kernel

/-! ### The bytes of a buffer -/

/-- The bytes that wait in a buffer of a size that is a power of two. -/
def Stores (r : RingBuf) (queue : Bytes) : Prop := ∃ k b s q, Rep k b s q ∧ s.ring = r ∧ q.queue = queue

namespace Stores

variable {r : RingBuf} {queue : Bytes}

theorem alloc {size : Nat} (hsize : (ringSize size).isPowerOfTwo) (memory : Nat → Byte) :
    Stores (RingBuf.alloc size memory) [] := by
  obtain ⟨k, hk⟩ := hsize
  have hlt := ringSize_lt size
  rw [hk] at hlt
  have hsmall : k < 64 := (Nat.pow_lt_pow_iff_right (by decide)).mp hlt
  exact ⟨k, 0, _, _, alloc_rep (by omega) hk memory, rfl, rfl⟩

theorem length_le (h : Stores r queue) : queue.length ≤ r.size := by
  obtain ⟨k, b, s, q, h, rfl, rfl⟩ := h
  have hroom := h.room
  rw [h.size]
  omega

theorem size_lt (h : Stores r queue) : r.size < 2 ^ 64 := by
  obtain ⟨k, b, s, q, h, rfl, rfl⟩ := h
  rw [h.size]
  exact Nat.pow_lt_pow_right (by decide) (by have := h.small; omega)

theorem sound (h : Stores r queue) (hlt : queue.length < r.size) : r.isFull = true → r.isEmpty = true := by
  obtain ⟨k, b, s, q, h, rfl, rfl⟩ := h
  intro hfull
  rw [h.isFull_iff] at hfull
  rw [h.size] at hlt
  omega

theorem fetch (h : Stores r queue) (hlt : queue.length < r.size) (n : Nat) :
    r.fetch n = if queue ≠ [] ∧ n ≤ queue.length then some (queue.take n) else none := by
  have hsound := h.sound hlt
  obtain ⟨k, b, s, q, h, rfl, rfl⟩ := h
  exact h.fetch hsound n

theorem used (h : Stores r queue) (hlt : queue.length < r.size) : r.used = queue.length := by
  have hsound := h.sound hlt
  obtain ⟨k, b, s, q, h, rfl, rfl⟩ := h
  exact h.used hsound

theorem rskip {n : Nat} (h : Stores r queue) (hn : n ≤ queue.length) : Stores (r.rskip n) (queue.drop n) := by
  obtain ⟨k, b, s, q, h, rfl, rfl⟩ := h
  exact ⟨k, b, _, _, h.rskip hn, rfl, rfl⟩

/-- The segments of `z_ringbuf_pop_iov` hold the bytes it was asked for. -/
theorem popIov (h : Stores r queue) (hlt : queue.length < r.size) (n : Nat) :
    r.load (r.popIov n).1 (r.popIov n).1.len ++ r.load (r.popIov n).2 (r.popIov n).2.len = queue.take n := by
  have hsound := h.sound hlt
  obtain ⟨k, b, s, q, h, rfl, rfl⟩ := h
  have hseg := h.readIov hsound
  have hlen := hseg.length
  rw [RingBuf.popIov]
  by_cases hshort : n ≤ s.ring.readIov.1.len
  · simp only [if_pos hshort, Nat.min_eq_left hshort]
    have hload := hseg.take_first hshort
    simpa [load] using hload
  · simp only [if_neg hshort]
    have hload := hseg.take_both (Nat.min_le_right (n - s.ring.readIov.1.len) s.ring.readIov.2.len)
    rw [List.take_eq_take_iff.mpr (by omega : min (s.ring.readIov.1.len + min (n - s.ring.readIov.1.len)
      s.ring.readIov.2.len) q.queue.length = min n q.queue.length)] at hload
    exact hload

/-- A queue is in the first segment, as far as this one goes. -/
theorem popIov_first (h : Stores r queue) (hlt : queue.length < r.size) (hne : queue ≠ []) :
    r.load (r.popIov r.size).1 (r.popIov r.size).1.len ≠ [] := by
  have hsound := h.sound hlt
  obtain ⟨k, b, s, q, h, rfl, rfl⟩ := h
  have hseg := h.readIov hsound
  have hlen := hseg.length
  have hpos := h.pos
  have hfirst : 0 < s.ring.readIov.1.len := by
    rcases Nat.eq_zero_or_pos s.ring.readIov.1.len with hzero | hpos
    · have hsecond := h.readIov_first hzero
      exact absurd (List.length_eq_zero_iff.mp (by omega)) hne
    · exact hpos
  have hpop : (s.ring.popIov s.ring.size).1 = s.ring.readIov.1 := by
    rw [RingBuf.popIov]
    by_cases hshort : s.ring.size ≤ s.ring.readIov.1.len
    · rw [h.size] at hshort hlt
      omega
    · rw [if_neg hshort]
  rw [hpop]
  exact List.ne_nil_of_length_pos (hseg.first.symm ▸ hfirst)

theorem isFull_iff (h : Stores r queue) : r.isFull = true ↔ queue.length = r.size := by
  obtain ⟨k, b, s, q, h, rfl, rfl⟩ := h
  rw [h.isFull_iff, h.size]

/-- A buffer that is full has no segments. -/
theorem popIov_full (h : Stores r queue) (hfull : queue.length = r.size) :
    (r.popIov r.size).1.len = 0 ∧ (r.popIov r.size).2.len = 0 := by
  obtain ⟨k, b, s, q, h, rfl, rfl⟩ := h
  obtain ⟨hfirst, hsecond⟩ := h.readIov_full (hfull.trans h.size)
  have hpos := h.pos
  rw [RingBuf.popIov, if_neg (by rw [hfirst, h.size]; omega)]
  exact ⟨hfirst, by rw [hsecond, Nat.min_zero]⟩

/-- A read from a descriptor appends what there is room for. -/
theorem fdFetch (h : Stores r queue) (hlt : queue.length < r.size) (ready : Bytes) :
    ∃ r', r.fdFetch (some ready) = (r', ((ready.take (r.size - queue.length)).length : Int)) ∧
      Stores r' (queue ++ ready.take (r.size - queue.length)) ∧ r'.size = r.size := by
  obtain ⟨k, b, s, q, h, rfl, rfl⟩ := h
  have hfree : q.free = s.ring.size - q.queue.length := by rw [h.free_eq, h.size]
  have hstep : q.step (.fdFetch (some ready)) = (q.add (ready.take q.free), .result (ready.take q.free).length) := by
    rw [Fifo.step, if_neg (by omega)]
  obtain ⟨hout, hrep⟩ := h.fdFetch (some ready)
  rw [hstep] at hout hrep
  rw [← hfree]
  refine ⟨(s.ring.fdFetch (some ready)).1, ?_, ⟨k, _, _, _, hrep, rfl, rfl⟩, ?_⟩
  · exact Prod.ext rfl (Out.result.inj hout)
  · rw [hrep.size, h.size]

/-- A read from a descriptor that gives nothing, or fails, changes nothing. -/
theorem fdFetch_nothing {ready : Option Bytes} (h : Stores r queue) (hlt : queue.length < r.size)
    (hready : ready.getD [] = []) : ∃ r' n, r.fdFetch ready = (r', n) ∧ n ≤ 0 ∧ Stores r' queue := by
  cases ready with
  | none =>
    have hfull : ¬ r.isFull = true := fun hfull => Nat.ne_of_lt hlt (h.isFull_iff.mp hfull)
    exact ⟨r, -1, by rw [RingBuf.fdFetch, if_neg hfull], by decide, h⟩
  | some bytes =>
    obtain rfl : bytes = [] := hready
    obtain ⟨r', hfetch, hstores, -⟩ := h.fdFetch hlt []
    rw [List.take_nil, List.append_nil] at hstores
    rw [List.take_nil] at hfetch
    exact ⟨r', _, hfetch, by decide, hstores⟩

end Stores

end RaleighSL.Zcl.RingBuf
