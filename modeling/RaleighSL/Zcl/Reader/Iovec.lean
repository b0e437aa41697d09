import RaleighSL.Zcl.Map
import RaleighSL.Zcl.Size
import Mathlib.Data.List.GetD

/-!
# The iovec reader

`io/buffers/iovec.c`: a reader over an array of chunks. Its place is a chunk, an offset in it and
the number of bytes that remain. The entries behind the array are not there: a call that examines
one, or reads outside a chunk, has no result.

A reader over the whole string has a position only. The calls answer as that reader does, in
every run whose steps are safe: no step goes on to an empty chunk while bytes remain, takes back
bytes of an earlier chunk, or takes exactly the remaining bytes over the end of a chunk.
-/
namespace RaleighSL.Zcl

structure IovecReader where
  ivec : Nat
  offset : Nat
  avail : Nat
deriving DecidableEq, Repr

namespace IovecReader

/-- Bytes of a chunk, none outside of it. -/
def bytesAt (chunk : Bytes) (offset length : Nat) : Option Bytes :=
  if offset + length ≤ chunk.length then some ((chunk.drop offset).take length) else none

def opened (iov : List Bytes) : IovecReader := { ivec := 0, offset := 0, avail := iov.flatten.length }

def next (iov : List Bytes) (reader : IovecReader) : Option (Bytes × IovecReader) :=
  if reader.avail = 0 then some ([], reader)
  else do
    let base ← iov[reader.ivec]?
    let chunk := sizeSub base.length reader.offset
    if 0 < chunk then
      let data ← bytesAt base reader.offset chunk
      some (data, { reader with offset := reader.offset + chunk, avail := sizeSub reader.avail chunk })
    else
      let base ← iov[reader.ivec + 1]?
      some (base, { ivec := reader.ivec + 1, offset := base.length, avail := sizeSub reader.avail base.length })

def backup (count : Nat) (reader : IovecReader) : IovecReader :=
  { reader with offset := sizeSub reader.offset count, avail := reader.avail + count }

def available (reader : IovecReader) : Nat := reader.avail

/-- The end of `__iovec_reader_fetch`: the full middle chunks, then the start of the last one. It
gives the bytes, the number of full chunks and the new offset. -/
def fetchChunks : List Bytes → Nat → Option (Bytes × Nat × Nat)
  | [], _ => none
  | base :: iov, length =>
    if base.length ≤ length then
      (fetchChunks iov (length - base.length)).map (fun last => (base ++ last.1, last.2.1 + 1, last.2.2))
    else some (base.take length, 0, length)

/-- `__iovec_reader_fetch` in a chunk with bytes left, or at the start of one. -/
def fetchFrom (iov : List Bytes) (length : Nat) (base : Bytes) (reader : IovecReader) :
    Option (Option Bytes × IovecReader) :=
  let avail := sizeSub base.length reader.offset
  if length ≤ avail then
    (bytesAt base reader.offset length).map
      (fun pbuf => (some pbuf, { reader with offset := reader.offset + length, avail := sizeSub reader.avail length }))
  else do
    let pbuf ← bytesAt base reader.offset avail
    let last ← fetchChunks (iov.drop (reader.ivec + 1)) (length - avail)
    some (some (pbuf ++ last.1),
      { ivec := reader.ivec + 1 + last.2.1, offset := last.2.2, avail := sizeSub reader.avail length })

def fetch (iov : List Bytes) (length : Nat) (reader : IovecReader) : Option (Option Bytes × IovecReader) :=
  if reader.avail < length then some (none, reader)
  else do
    let base ← iov[reader.ivec]?
    if sizeSub base.length reader.offset = 0 then
      let base ← iov[reader.ivec + 1]?
      fetchFrom iov length base { reader with ivec := reader.ivec + 1, offset := 0 }
    else fetchFrom iov length base reader

/-! ### Calls and their answers -/

inductive Call where
  | next
  | backup (count : Nat)
  | fetch (length : Nat)
  | available
deriving DecidableEq, Repr

inductive Answer where
  | data (data : Bytes)
  | done
  | fetched (data : Option Bytes)
  | size (avail : Nat)
deriving DecidableEq, Repr

def step (iov : List Bytes) : Call → IovecReader → Option (Answer × IovecReader)
  | .next, reader => (reader.next iov).map (fun r => (.data r.1, r.2))
  | .backup count, reader => some (.done, reader.backup count)
  | .fetch length, reader => (reader.fetch iov length).map (fun r => (.fetched r.1, r.2))
  | .available, reader => some (.size reader.available, reader)

/-- A reader over one string: its position and the number of bytes of the last answer that were not
taken back. -/
structure Cursor where
  pos : Nat
  last : Nat

/-- At most the bytes last returned are taken back. -/
def Cursor.Legal (cursor : Cursor) : Call → Prop
  | .backup count => count ≤ cursor.last
  | _ => True

/-- The answers of a reader over the string `s`. It may return any part of the bytes that remain,
but no part only when there are none. -/
def Cursor.Answers (s : Bytes) (cursor : Cursor) : Call → Answer → Cursor → Prop
  | .next, .data data, cursor' =>
    data <+: s.drop cursor.pos ∧ (data = [] → s.drop cursor.pos = []) ∧
      cursor' = { pos := cursor.pos + data.length, last := data.length }
  | .backup count, .done, cursor' => cursor' = { pos := cursor.pos - count, last := cursor.last - count }
  | .fetch length, .fetched none, cursor' => (s.drop cursor.pos).length < length ∧ cursor' = cursor
  | .fetch length, .fetched (some data), cursor' =>
    length ≤ (s.drop cursor.pos).length ∧ data = (s.drop cursor.pos).take length ∧
      cursor' = { pos := cursor.pos + length, last := length }
  | .available, .size avail, cursor' => avail = (s.drop cursor.pos).length ∧ cursor' = cursor
  | _, _, _ => False

/-- The reader answers a run of legal calls as a reader over the whole string does, no entry behind
the array is examined, and a fetch without a result changes nothing. -/
def Faithful (iov : List Bytes) : List Call → IovecReader → Cursor → Prop
  | [], _, _ => True
  | call :: calls, reader, cursor =>
    cursor.Legal call → ∃ answer reader' cursor', step iov call reader = some (answer, reader') ∧
      cursor.Answers iov.flatten call answer cursor' ∧ (answer = .fetched none → reader' = reader) ∧
      Faithful iov calls reader' cursor'

def current (iov : List Bytes) (reader : IovecReader) : Bytes := iov.getD reader.ivec []

/-- A call does not go on to an empty chunk, take back bytes of an earlier chunk, or take exactly the
remaining bytes unless one chunk has them. -/
def Safe (iov : List Bytes) (reader : IovecReader) : Call → Prop
  | .next => reader.avail = 0 ∨ reader.offset < (reader.current iov).length ∨ iov.getD (reader.ivec + 1) [] ≠ []
  | .backup count => count ≤ reader.offset
  | .fetch length => length = reader.avail →
    reader.offset + length ≤ (reader.current iov).length ∧ reader.offset < (reader.current iov).length ∨
      reader.offset = (reader.current iov).length ∧ reader.ivec + 1 < iov.length ∧
        length ≤ (iov.getD (reader.ivec + 1) []).length
  | .available => True

def SafeRun (iov : List Bytes) : List Call → IovecReader → Prop
  | [], _ => True
  | call :: calls, reader =>
    Safe iov reader call ∧ match step iov call reader with
      | some (_, reader') => SafeRun iov calls reader'
      | none => True

/-! ### The place of a reader -/

/-- The place of a reader in the whole string. -/
structure At (iov : List Bytes) (reader : IovecReader) (pos : Nat) : Prop where
  pos_eq : (iov.take reader.ivec).flatten.length + reader.offset = pos
  offset_le : reader.offset ≤ (reader.current iov).length
  avail_eq : reader.avail + pos = iov.flatten.length

variable {iov : List Bytes} {reader : IovecReader} {pos : Nat}

theorem At.opened (iov : List Bytes) : At iov (IovecReader.opened iov) 0 := ⟨rfl, Nat.zero_le _, rfl⟩

theorem At.rest_length (h : At iov reader pos) : (iov.flatten.drop pos).length = reader.avail := by
  have havail := h.avail_eq
  rw [List.length_drop]
  omega

theorem At.lt_length (h : At iov reader pos) (havail : 0 < reader.avail) : reader.ivec < iov.length := by
  by_contra hge
  have hpos := h.pos_eq
  have htotal := h.avail_eq
  rw [List.take_of_length_le (Nat.not_lt.mp hge)] at hpos
  omega

theorem current_eq (hlt : reader.ivec < iov.length) : reader.current iov = iov[reader.ivec] := by
  rw [current, List.getD_eq_getElem _ _ hlt]

theorem flatten_eq {i : Nat} (hlt : i < iov.length) :
    iov.flatten = (iov.take i).flatten ++ (iov[i] ++ (iov.drop (i + 1)).flatten) := by
  conv_lhs => rw [← List.take_append_drop i iov, List.drop_eq_getElem_cons hlt]
  rw [List.flatten_append, List.flatten_cons]

theorem At.rest_eq (h : At iov reader pos) (hlt : reader.ivec < iov.length) :
    iov.flatten.drop pos = iov[reader.ivec].drop reader.offset ++ (iov.drop (reader.ivec + 1)).flatten := by
  have hoffset := h.offset_le
  rw [current_eq hlt] at hoffset
  rw [flatten_eq hlt, ← h.pos_eq, List.drop_append, List.drop_of_length_le (Nat.le_add_right _ _), List.nil_append,
    Nat.add_sub_cancel_left, List.drop_append_of_le_length hoffset]

theorem At.avail_eq_left (h : At iov reader pos) (hlt : reader.ivec < iov.length) :
    reader.avail = iov[reader.ivec].length - reader.offset + (iov.drop (reader.ivec + 1)).flatten.length := by
  rw [← h.rest_length, h.rest_eq hlt, List.length_append, List.length_drop]

theorem At.advance (h : At iov reader pos) (hlt : reader.ivec < iov.length) {n : Nat}
    (hn : reader.offset + n ≤ iov[reader.ivec].length) :
    At iov { reader with offset := reader.offset + n, avail := sizeSub reader.avail n } (pos + n) := by
  have hpos := h.pos_eq
  have havail := h.avail_eq
  have hleft := h.avail_eq_left hlt
  refine ⟨by simp only; omega, ?_, ?_⟩
  · simp only [current, List.getD_eq_getElem _ _ hlt]
    exact hn
  · simp only [sizeSub_of_le (show n ≤ reader.avail by omega)]
    omega

/-- The end of a chunk is the start of the following one. -/
theorem At.following (h : At iov reader pos) (hlt : reader.ivec + 1 < iov.length)
    (hend : reader.offset = (reader.current iov).length) :
    At iov { reader with ivec := reader.ivec + 1, offset := 0 } pos := by
  have hcur : reader.ivec < iov.length := Nat.lt_of_succ_lt hlt
  refine ⟨?_, Nat.zero_le _, h.avail_eq⟩
  rw [← h.pos_eq, hend, current_eq hcur, List.take_succ_eq_append_getElem hcur, List.flatten_append,
    List.flatten_singleton, List.length_append, Nat.add_zero]

theorem At.back (h : At iov reader pos) {count : Nat} (hcount : count ≤ reader.offset) :
    At iov (reader.backup count) (pos - count) := by
  have hpos := h.pos_eq
  have havail := h.avail_eq
  have hoffset := h.offset_le
  refine ⟨?_, ?_, ?_⟩
  · simp only [backup, sizeSub_of_le hcount]
    omega
  · simp only [backup, sizeSub_of_le hcount]
    exact Nat.le_trans (Nat.sub_le _ _) hoffset
  · simp only [backup]
    omega

/-! ### One call -/

theorem bytesAt_of_le {chunk : Bytes} {offset length : Nat} (h : offset + length ≤ chunk.length) :
    bytesAt chunk offset length = some ((chunk.drop offset).take length) := if_pos h

/-- Over chunks with bytes a next call is safe. -/
theorem At.safe_next (h : At iov reader pos) (hchunks : ∀ chunk ∈ iov, chunk ≠ []) : Safe iov reader .next := by
  by_cases hzero : reader.avail = 0
  · exact .inl hzero
  · have hlt := h.lt_length (Nat.pos_of_ne_zero hzero)
    have hleft := h.avail_eq_left hlt
    have hlen := congrArg List.length (current_eq hlt)
    refine .inr (or_iff_not_imp_left.mpr (fun hend => ?_))
    have hnext : reader.ivec + 1 < iov.length := by
      by_contra hge
      rw [List.drop_of_length_le (Nat.not_lt.mp hge)] at hleft
      simp only [List.flatten_nil, List.length_nil] at hleft
      omega
    rw [List.getD_eq_getElem _ _ hnext]
    exact hchunks _ (List.getElem_mem hnext)

/-- Without an empty chunk next, some of the bytes that remain are returned. -/
theorem At.next (h : At iov reader pos) (hsafe : Safe iov reader .next) :
    ∃ data reader', reader.next iov = some (data, reader') ∧ data <+: iov.flatten.drop pos ∧
      (data = [] → iov.flatten.drop pos = []) ∧ At iov reader' (pos + data.length) ∧ data.length ≤ reader'.offset := by
  by_cases hzero : reader.avail = 0
  · have hrest : iov.flatten.drop pos = [] := List.eq_nil_of_length_eq_zero (h.rest_length.trans hzero)
    exact ⟨[], reader, if_pos hzero, List.nil_prefix, fun _ => hrest, h, Nat.zero_le _⟩
  · have hlt := h.lt_length (Nat.pos_of_ne_zero hzero)
    have hoffset := h.offset_le
    have hleft := h.avail_eq_left hlt
    rw [current_eq hlt] at hoffset
    simp only [IovecReader.next, if_neg hzero, List.getElem?_eq_getElem hlt, Option.bind_eq_bind, Option.bind_some,
      sizeSub_of_le hoffset]
    by_cases hmore : 0 < iov[reader.ivec].length - reader.offset
    · have hall : (iov[reader.ivec].drop reader.offset).take (iov[reader.ivec].length - reader.offset) =
          iov[reader.ivec].drop reader.offset := List.take_of_length_le (by simp)
      rw [if_pos hmore, bytesAt_of_le (by omega), hall, Option.bind_some]
      refine ⟨_, _, rfl, ?_, ?_, ?_, ?_⟩
      · rw [h.rest_eq hlt]
        exact List.prefix_append _ _
      · intro hnil
        have hlen := congrArg List.length hnil
        rw [List.length_drop, List.length_nil] at hlen
        omega
      · rw [List.length_drop]
        exact h.advance hlt (by omega)
      · rw [List.length_drop]
        exact Nat.le_add_left _ _
    · have hend : reader.offset = (reader.current iov).length := by
        rw [current_eq hlt]
        omega
      have hnext : reader.ivec + 1 < iov.length := by
        by_contra hge
        rw [List.drop_of_length_le (Nat.not_lt.mp hge)] at hleft
        simp only [List.flatten_nil, List.length_nil] at hleft
        omega
      have hchunk : iov[reader.ivec + 1] ≠ [] := by
        obtain hz | hlt' | hne := hsafe
        · exact absurd hz hzero
        · omega
        · rwa [List.getD_eq_getElem _ _ hnext] at hne
      have hfollow := h.following hnext hend
      rw [if_neg hmore, List.getElem?_eq_getElem hnext, Option.bind_some]
      refine ⟨_, _, rfl, ?_, fun hnil => absurd hnil hchunk, ?_, Nat.le_refl _⟩
      · rw [hfollow.rest_eq hnext, List.drop_zero]
        exact List.prefix_append _ _
      · have hadvance := hfollow.advance hnext (n := iov[reader.ivec + 1].length) (by simp)
        simpa using hadvance

theorem fetchChunks_eq {length : Nat} (h : length < iov.flatten.length) :
    ∃ middle offset, fetchChunks iov length = some (iov.flatten.take length, middle, offset) ∧ middle < iov.length ∧
      offset ≤ (iov.getD middle []).length ∧ (iov.take middle).flatten.length + offset = length := by
  induction iov generalizing length with
  | nil => simp at h
  | cons base iov ih =>
    rw [List.flatten_cons, List.length_append] at h
    rw [fetchChunks, List.flatten_cons, List.take_append]
    by_cases hle : base.length ≤ length
    · obtain ⟨middle, offset, heq, hmiddle, hoffset, hsum⟩ := ih (show length - base.length < _ by omega)
      refine ⟨middle + 1, offset, ?_, Nat.succ_lt_succ hmiddle, hoffset, ?_⟩
      · rw [if_pos hle, heq, List.take_of_length_le hle]
        rfl
      · rw [List.take_succ_cons, List.flatten_cons, List.length_append]
        omega
    · have hzero : length - base.length = 0 := by omega
      refine ⟨0, length, ?_, Nat.succ_pos _, ?_, by simp⟩
      · rw [if_neg hle, hzero, List.take_zero, List.append_nil]
      · exact Nat.le_of_lt (Nat.not_le.mp hle)

/-- From a chunk the fetched bytes are the next ones when one chunk has them or others remain. -/
theorem At.fetchFrom (h : At iov reader pos) (hlt : reader.ivec < iov.length) {length : Nat} (hle : length ≤ reader.avail)
    (hsafe : reader.offset + length ≤ iov[reader.ivec].length ∨ length < reader.avail) :
    ∃ reader', fetchFrom iov length iov[reader.ivec] reader =
      some (some ((iov.flatten.drop pos).take length), reader') ∧ At iov reader' (pos + length) := by
  have hoffset := h.offset_le
  have hleft := h.avail_eq_left hlt
  rw [current_eq hlt] at hoffset
  rw [IovecReader.fetchFrom, sizeSub_of_le hoffset, h.rest_eq hlt, List.take_append, List.length_drop]
  by_cases hone : length ≤ iov[reader.ivec].length - reader.offset
  · have hzero : length - (iov[reader.ivec].length - reader.offset) = 0 := by omega
    rw [if_pos hone, bytesAt_of_le (by omega), hzero, List.take_zero, List.append_nil]
    exact ⟨_, rfl, h.advance hlt (by omega)⟩
  · obtain ⟨middle, offset, heq, hmiddle, hoff, hsum⟩ := @fetchChunks_eq (iov.drop (reader.ivec + 1))
      (length - (iov[reader.ivec].length - reader.offset)) (by omega)
    have hall : (iov[reader.ivec].drop reader.offset).take (iov[reader.ivec].length - reader.offset) =
        iov[reader.ivec].drop reader.offset := List.take_of_length_le (by simp)
    have hall' : (iov[reader.ivec].drop reader.offset).take length = iov[reader.ivec].drop reader.offset :=
      List.take_of_length_le (by rw [List.length_drop]; omega)
    have hpos := h.pos_eq
    have havail := h.avail_eq
    rw [if_neg hone, bytesAt_of_le (by omega), heq, hall, hall']
    refine ⟨_, rfl, ?_, ?_, ?_⟩
    · have htake : iov.take (reader.ivec + 1 + middle) =
          iov.take reader.ivec ++ (iov[reader.ivec] :: (iov.drop (reader.ivec + 1)).take middle) := by
        rw [List.take_add, List.take_succ_eq_append_getElem hlt, List.append_assoc, List.singleton_append]
      simp only [htake, List.flatten_append, List.flatten_cons, List.length_append]
      omega
    · simpa [current, List.getD_eq_getElem?_getD] using hoff
    · simp only [sizeSub_of_le hle]
      omega

/-- A safe fetch has a result exactly when the bytes are there, and without them changes nothing. -/
theorem At.fetch (h : At iov reader pos) {length : Nat} (hsafe : Safe iov reader (.fetch length)) :
    (reader.avail < length ∧ reader.fetch iov length = some (none, reader)) ∨
    (length ≤ reader.avail ∧ ∃ reader', reader.fetch iov length =
      some (some ((iov.flatten.drop pos).take length), reader') ∧ At iov reader' (pos + length)) := by
  by_cases hlack : reader.avail < length
  · exact .inl ⟨hlack, if_pos hlack⟩
  · have hle := Nat.not_lt.mp hlack
    have hoffset := h.offset_le
    refine .inr ⟨hle, ?_⟩
    have hlt : reader.ivec < iov.length := by
      by_cases hall : length = reader.avail
      · obtain ⟨-, hmore⟩ | ⟨-, hnext, -⟩ := hsafe hall
        · by_contra hge
          rw [current, List.getD_eq_default _ _ (Nat.not_lt.mp hge)] at hmore
          simp at hmore
        · exact Nat.lt_of_succ_lt hnext
      · exact h.lt_length (by omega)
    have hleft := h.avail_eq_left hlt
    have hcurrent := congrArg List.length (current_eq hlt)
    rw [hcurrent] at hoffset
    simp only [IovecReader.fetch, if_neg hlack, List.getElem?_eq_getElem hlt, Option.bind_eq_bind, Option.bind_some,
      sizeSub_of_le hoffset]
    by_cases hend : iov[reader.ivec].length - reader.offset = 0
    · have hnext : reader.ivec + 1 < iov.length := by
        by_cases hall : length = reader.avail
        · obtain ⟨-, hmore⟩ | ⟨-, hnext, -⟩ := hsafe hall
          · omega
          · exact hnext
        · by_contra hge
          rw [List.drop_of_length_le (Nat.not_lt.mp hge)] at hleft
          simp only [List.flatten_nil, List.length_nil] at hleft
          omega
      have hfollow := h.following hnext (by omega)
      rw [if_pos hend, List.getElem?_eq_getElem hnext, Option.bind_some]
      refine hfollow.fetchFrom hnext hle ?_
      by_cases hall : length = reader.avail
      · obtain ⟨-, hmore⟩ | ⟨-, -, hchunk⟩ := hsafe hall
        · omega
        · left
          rw [List.getD_eq_getElem _ _ hnext] at hchunk
          simpa using hchunk
      · exact .inr (Nat.lt_of_le_of_ne hle hall)
    · rw [if_neg hend]
      refine h.fetchFrom hlt hle ?_
      by_cases hall : length = reader.avail
      · obtain ⟨hone, -⟩ | ⟨hdone, -, -⟩ := hsafe hall
        · exact .inl (hcurrent ▸ hone)
        · omega
      · exact .inr (Nat.lt_of_le_of_ne hle hall)

theorem At.step {call : Call} (h : At iov reader pos) {last : Nat} (hsafe : Safe iov reader call) :
    ∃ answer reader' cursor', step iov call reader = some (answer, reader') ∧
      Cursor.Answers iov.flatten ⟨pos, last⟩ call answer cursor' ∧ (answer = .fetched none → reader' = reader) ∧
      At iov reader' cursor'.pos := by
  cases call with
  | next =>
    obtain ⟨data, reader', heq, hpart, hnil, hat, -⟩ := h.next hsafe
    exact ⟨.data data, reader', ⟨pos + data.length, data.length⟩, by rw [IovecReader.step, heq]; rfl,
      ⟨hpart, hnil, rfl⟩, nofun, hat⟩
  | backup count => exact ⟨.done, _, ⟨pos - count, last - count⟩, rfl, rfl, nofun, h.back hsafe⟩
  | fetch length =>
    obtain ⟨hlack, heq⟩ | ⟨hle, reader', heq, hat⟩ := h.fetch hsafe
    · exact ⟨.fetched none, reader, ⟨pos, last⟩, by rw [IovecReader.step, heq]; rfl,
        ⟨h.rest_length.trans_lt hlack, rfl⟩, fun _ => rfl, h⟩
    · exact ⟨.fetched (some _), reader', ⟨pos + length, length⟩, by rw [IovecReader.step, heq]; rfl,
        ⟨h.rest_length.symm ▸ hle, rfl, rfl⟩, nofun, hat⟩
  | available => exact ⟨.size reader.avail, reader, ⟨pos, last⟩, rfl, ⟨h.rest_length.symm, rfl⟩, nofun, h⟩

theorem At.faithful {calls : List Call} {cursor : Cursor} (h : At iov reader cursor.pos)
    (hsafe : SafeRun iov calls reader) : Faithful iov calls reader cursor := by
  induction calls generalizing reader cursor with
  | nil => trivial
  | cons call calls ih =>
    intro _
    obtain ⟨answer, reader', cursor', heq, hanswers, hnone, hat⟩ := @At.step _ _ _ _ h cursor.last hsafe.1
    have hrest := hsafe.2
    rw [heq] at hrest
    exact ⟨answer, reader', cursor', heq, hanswers, hnone, ih hat hrest⟩

/-- Every run of safe steps over any chunks answers as a reader over the whole string. -/
theorem faithful_of_safe {iov : List Bytes} {calls : List Call} (h : SafeRun iov calls (opened iov)) :
    Faithful iov calls (opened iov) ⟨0, 0⟩ := (At.opened iov).faithful h

theorem faithful_over_two_chunks :
    Faithful [[1, 2], [3]] [.next, .backup 1, .fetch 1, .available] (opened [[1, 2], [3]]) ⟨0, 0⟩ :=
  faithful_of_safe ⟨.inr (.inl (by decide)), (by decide : 1 ≤ 2), fun h => absurd h (by decide), trivial, trivial⟩

/-- A fetch of all bytes over two chunks examines a third one, and an empty chunk ends the bytes. -/
theorem fetch_behind_the_array :
    ¬ Faithful [[1], [2]] [.fetch 2] (opened [[1], [2]]) ⟨0, 0⟩ ∧
      ¬ Faithful [[1], [], [2]] [.next, .next] (opened [[1], [], [2]]) ⟨0, 0⟩ := by
  constructor
  · intro h
    obtain ⟨answer, reader', cursor', heq, -⟩ := h trivial
    have hnone : step [[1], [2]] (.fetch 2) (opened [[1], [2]]) = none := by decide
    rw [hnone] at heq
    cases heq
  · intro h
    obtain ⟨answer, reader', cursor', heq, hanswers, -, hrest⟩ := h trivial
    have hone : step [[1], [], [2]] .next (opened [[1], [], [2]]) =
        some (.data [1], { ivec := 0, offset := 1, avail := 1 }) := by decide
    rw [hone] at heq
    cases heq
    obtain ⟨-, -, rfl⟩ := hanswers
    obtain ⟨answer, reader', cursor', heq, hanswers, -⟩ := hrest trivial
    have htwo : step [[1], [], [2]] .next { ivec := 0, offset := 1, avail := 1 } =
        some (.data [], { ivec := 1, offset := 0, avail := 1 }) := by decide
    rw [htwo] at heq
    cases heq
    exact absurd (hanswers.2.1 rfl) (by decide)

end IovecReader

end RaleighSL.Zcl
