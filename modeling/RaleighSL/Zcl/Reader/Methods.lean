import RaleighSL.Zcl.Reader.Fetching
import RaleighSL.Zcl.Coding.Int

/-!
# The methods of readers

`buffers/reader.h` and `reader.c`: a reader is a table of methods, and the decoders see it only
through them. Readers that keep the contract of the table read a string piece by piece; a fetch
is then a piece of any length, by the method of the reader or by the fallback on `next`.
-/
namespace RaleighSL.Zcl

/-- `z_vtable_reader`. The methods `available` and `fetch` may be missing. -/
structure ReaderMethods (σ : Type) where
  next : σ → Option (Bytes × σ)
  backup : Nat → σ → σ
  available : Option (σ → Nat)
  fetch : Option (Nat → σ → Option (Option Bytes × σ))

namespace ReaderMethods
variable {σ : Type}

/-- The loop of `z_v_reader_fetch_fallback`. Each step of a reader that gives its bytes ends it or
takes one, so that it has `length` steps; over a reader that gives none it does not end. -/
def fetchLoop (vtable : ReaderMethods σ) : Nat → Nat → σ → Option (Bytes × σ)
  | _, 0, self => some ([], self)
  | 0, _ + 1, _ => none
  | fuel + 1, length, self => do
    let (data, self) ← vtable.next self
    if length ≤ data.length then some (data.take length, vtable.backup (data.length - length) self)
    else (vtable.fetchLoop fuel (length - data.length) self).map (fun r => (data ++ r.1, r.2))

/-- `z_v_reader_fetch_fallback`. -/
def fetchFallback (vtable : ReaderMethods σ) (length : Nat) (self : σ) : Option (Option Bytes × σ) := do
  let (data, self) ← vtable.next self
  if length ≤ data.length then some (some (data.take length), vtable.backup (data.length - length) self)
  else match vtable.available with
    | none => some (none, self)
    | some available =>
      if available self < length - data.length then some (none, self)
      else (vtable.fetchLoop length (length - data.length) self).map (fun r => (some (data ++ r.1), r.2))

def vFetch (vtable : ReaderMethods σ) (length : Nat) (self : σ) : Option (Option Bytes × σ) :=
  match vtable.fetch with
  | some fetch => fetch length self
  | none => vtable.fetchFallback length self

/-- `z_v_reader_decode_uint64`, and its kind for values of `size` bytes: without a value it
returns 1. More bytes than the value has are written behind it. -/
def decodeUint (vtable : ReaderMethods σ) (size length : Nat) (self : σ) : Option (Option Nat × σ) := do
  let (pbuf, self) ← vtable.vFetch length self
  match pbuf with
  | none => some (none, self)
  | some pbuf =>
    if length ≤ size then (Coding.decodeUint pbuf length).map (fun value => (some value, self)) else none

/-! ### The contract -/

/-- A reader over the string `s`: `At` has its positions and the number of bytes it may take back. A
part of the bytes that remain is returned as long as there are any, and the lengths in `Fetchable`
are fetched. -/
structure Lawful (vtable : ReaderMethods σ) (s : Bytes) (At : σ → Nat → Nat → Prop) (Fetchable : Nat → Nat → Prop) :
    Prop where
  next : ∀ self pos last, At self pos last → ∃ data self', vtable.next self = some (data, self') ∧
    data <+: s.drop pos ∧ (data = [] → s.drop pos = []) ∧ At self' (pos + data.length) data.length
  backup : ∀ self pos last count, At self pos last → count ≤ last →
    At (vtable.backup count self) (pos - count) (last - count)
  available : ∃ available, vtable.available = some available ∧
    ∀ self pos last, At self pos last → available self = (s.drop pos).length
  fetch : ∀ fetch, vtable.fetch = some fetch → ∀ self pos last length, At self pos last →
    Fetchable length (s.drop pos).length →
    (length ≤ (s.drop pos).length → ∃ self' last', fetch length self = some (some ((s.drop pos).take length), self') ∧
      At self' (pos + length) last') ∧
    ((s.drop pos).length < length → ∃ self' pos' last', fetch length self = some (none, self') ∧ At self' pos' last')

variable {vtable : ReaderMethods σ} {s : Bytes} {At : σ → Nat → Nat → Prop} {Fetchable : Nat → Nat → Prop}

/-- After a longer part than asked for, the rest of it is taken back. -/
theorem Lawful.backup_rest (h : Lawful vtable s At Fetchable) {self : σ} {pos length : Nat} {data : Bytes}
    (hat : At self (pos + data.length) data.length) (hle : length ≤ data.length) :
    At (vtable.backup (data.length - length) self) (pos + length) length := by
  have hback := h.backup self _ _ (data.length - length) hat (Nat.sub_le _ _)
  have hpos : pos + data.length - (data.length - length) = pos + length := by omega
  rw [hpos, Nat.sub_sub_self hle] at hback
  exact hback

theorem drop_of_part {data : Bytes} {pos : Nat} (h : data <+: s.drop pos) :
    s.drop pos = data ++ s.drop (pos + data.length) := by
  obtain ⟨rest, hrest⟩ := h
  rw [← List.drop_drop, ← hrest, List.drop_left]

theorem Lawful.fetchLoop (h : Lawful vtable s At Fetchable) {fuel length : Nat} {self : σ} {pos last : Nat}
    (hat : At self pos last) (hle : length ≤ (s.drop pos).length) (hfuel : length ≤ fuel) :
    ∃ self' last', vtable.fetchLoop fuel length self = some ((s.drop pos).take length, self') ∧
      At self' (pos + length) last' := by
  induction fuel generalizing length self pos last with
  | zero =>
    obtain rfl := Nat.le_zero.mp hfuel
    exact ⟨self, last, rfl, hat⟩
  | succ fuel ih =>
    cases length with
    | zero => exact ⟨self, last, rfl, hat⟩
    | succ length =>
      obtain ⟨data, self', heq, hpart, hnil, hat'⟩ := h.next self pos last hat
      have hdrop := drop_of_part hpart
      simp only [ReaderMethods.fetchLoop, heq, Option.bind_eq_bind, Option.bind_some]
      by_cases hmore : length + 1 ≤ data.length
      · rw [if_pos hmore]
        refine ⟨_, _, ?_, h.backup_rest hat' hmore⟩
        rw [hdrop, List.take_append_of_le_length hmore]
      · have hpos : 0 < data.length := by
          rw [List.length_pos_iff]
          intro hdata
          rw [hnil hdata] at hle
          simp at hle
        rw [hdrop, List.length_append] at hle
        obtain ⟨self'', last'', hloop, hat''⟩ := ih hat' (show length + 1 - data.length ≤ _ by omega) (by omega)
        rw [if_neg hmore, hloop]
        refine ⟨self'', last'', ?_, ?_⟩
        · rw [hdrop, List.take_append, List.take_of_length_le (Nat.le_of_not_le hmore)]
          rfl
        · have hsum : pos + data.length + (length + 1 - data.length) = pos + (length + 1) := by omega
          exact hsum ▸ hat''

theorem Lawful.vFetch (h : Lawful vtable s At Fetchable) {self : σ} {pos last length : Nat} (hat : At self pos last)
    (hok : Fetchable length (s.drop pos).length) (hle : length ≤ (s.drop pos).length) :
    ∃ self' last', vtable.vFetch length self = some (some ((s.drop pos).take length), self') ∧
      At self' (pos + length) last' := by
  unfold ReaderMethods.vFetch
  split
  · exact (h.fetch _ ‹_› self pos last length hat hok).1 hle
  · obtain ⟨data, self', heq, hpart, -, hat'⟩ := h.next self pos last hat
    obtain ⟨available, havail, hrest⟩ := h.available
    have hdrop := drop_of_part hpart
    simp only [fetchFallback, heq, havail, Option.bind_eq_bind, Option.bind_some]
    by_cases hmore : length ≤ data.length
    · rw [if_pos hmore]
      refine ⟨_, _, ?_, h.backup_rest hat' hmore⟩
      rw [hdrop, List.take_append_of_le_length hmore]
    · rw [hdrop, List.length_append] at hle
      obtain ⟨self'', last'', hloop, hat''⟩ :=
        h.fetchLoop hat' (show length - data.length ≤ _ by omega) (Nat.sub_le length data.length)
      rw [if_neg hmore, hrest self' _ _ hat', if_neg (by omega), hloop]
      refine ⟨self'', last'', ?_, ?_⟩
      · rw [hdrop, List.take_append, List.take_of_length_le (Nat.le_of_not_le hmore)]
        rfl
      · have hsum : pos + data.length + (length - data.length) = pos + length := by omega
        exact hsum ▸ hat''

/-- For more bytes than remain the fallback has no result, and it takes none back. -/
theorem Lawful.fetchFallback_none (h : Lawful vtable s At Fetchable) {self : σ} {pos last length : Nat}
    (hat : At self pos last) (hlt : (s.drop pos).length < length) :
    ∃ self' pos' last', vtable.fetchFallback length self = some (none, self') ∧ At self' pos' last' ∧ pos ≤ pos' ∧
      pos' ≤ pos + (s.drop pos).length := by
  obtain ⟨data, self', heq, hpart, -, hat'⟩ := h.next self pos last hat
  obtain ⟨available, havail, hrest⟩ := h.available
  have hlen := hpart.length_le
  rw [drop_of_part hpart, List.length_append] at hlt
  simp only [fetchFallback, heq, havail, Option.bind_eq_bind, Option.bind_some]
  rw [if_neg (by omega), hrest self' _ _ hat', if_pos (by omega)]
  exact ⟨self', _, _, rfl, hat', Nat.le_add_right _ _, Nat.add_le_add_left hlen pos⟩

theorem Lawful.decodeUint (h : Lawful vtable s At Fetchable) {self : σ} {pos last size length : Nat}
    (hat : At self pos last) (hok : Fetchable length (s.drop pos).length) (hsize : length ≤ size)
    (hle : length ≤ (s.drop pos).length) :
    ∃ self' last', vtable.decodeUint size length self = some (some (Coding.number ((s.drop pos).take length)), self') ∧
      At self' (pos + length) last' := by
  obtain ⟨self', last', heq, hat'⟩ := h.vFetch hat hok hle
  have hlen : ((s.drop pos).take length).length = length := List.length_take_of_le hle
  have hdecode : Coding.decodeUint ((s.drop pos).take length) length = some (Coding.number ((s.drop pos).take length)) := by
    rw [Coding.decodeUint, if_pos (Nat.le_of_eq hlen.symm), List.take_take, Nat.min_self]
  refine ⟨self', last', ?_, hat'⟩
  simp only [ReaderMethods.decodeUint, heq, Option.bind_eq_bind, Option.bind_some, if_pos hsize, hdecode, Option.map_some]

end ReaderMethods

/-! ### The iovec reader -/

/-- The methods of `io/buffers/iovec.c`. -/
def IovecReader.methods (iov : List Bytes) : ReaderMethods IovecReader where
  next := IovecReader.next iov
  backup := IovecReader.backup
  available := some IovecReader.available
  fetch := some (IovecReader.fetch iov)

/-- The place of an iovec reader that may take back bytes of its chunk. -/
def IovecReader.Place (iov : List Bytes) (reader : IovecReader) (pos last : Nat) : Prop :=
  IovecReader.At iov reader pos ∧ last ≤ reader.offset

theorem IovecReader.Place.back {iov : List Bytes} {reader : IovecReader} {pos last count : Nat}
    (h : IovecReader.Place iov reader pos last) (hcount : count ≤ last) :
    IovecReader.Place iov (reader.backup count) (pos - count) (last - count) := by
  refine ⟨h.1.back (Nat.le_trans hcount h.2), ?_⟩
  simp only [IovecReader.backup, sizeSub_of_le (Nat.le_trans hcount h.2)]
  exact Nat.sub_le_sub_right h.2 count

theorem IovecReader.Place.next {iov : List Bytes} {reader : IovecReader} {pos last : Nat}
    (h : IovecReader.Place iov reader pos last) (hchunks : ∀ chunk ∈ iov, chunk ≠ []) :
    ∃ data reader', reader.next iov = some (data, reader') ∧ data <+: iov.flatten.drop pos ∧
      (data = [] → iov.flatten.drop pos = []) ∧ IovecReader.Place iov reader' (pos + data.length) data.length := by
  obtain ⟨data, reader', heq, hpart, hnil, hat, hoffset⟩ := h.1.next (h.1.safe_next hchunks)
  exact ⟨data, reader', heq, hpart, hnil, hat, hoffset⟩

/-- Over chunks with bytes the iovec reader keeps the contract, but for fetches of all bytes that remain: these must be
some bytes, and no more than the last chunk has. -/
theorem IovecReader.lawful {iov : List Bytes} (hchunks : ∀ chunk ∈ iov, chunk ≠ []) :
    (IovecReader.methods iov).Lawful iov.flatten (IovecReader.Place iov)
      (fun length rest => length = rest → 0 < length ∧ length ≤ (iov.getLastD []).length) where
  next _ _ _ h := h.next hchunks
  backup _ _ _ _ h hcount := h.back hcount
  available := ⟨_, rfl, fun _ _ _ h => h.1.rest_length.symm⟩
  fetch := by
    rintro _ ⟨⟩ reader pos last length h hok
    rw [h.1.rest_length] at hok ⊢
    refine ⟨fun hle => ?_, fun hlack => ⟨reader, pos, last, fetch_lack hlack, h⟩⟩
    rcases Nat.lt_or_eq_of_le hle with hlt | rfl
    · have hsafe : IovecReader.Safe iov reader (.fetch length) := fun hall => absurd hall (Nat.ne_of_lt hlt)
      obtain ⟨reader', heq, hat⟩ := (h.1.fetch hsafe).resolve_left (fun hlack => Nat.not_lt.mpr hle hlack.1) |>.2
      exact ⟨reader', 0, heq, hat, Nat.zero_le _⟩
    · obtain ⟨hpos, hlast⟩ := hok rfl
      obtain ⟨reader', heq, hat⟩ := h.1.fetch_some hpos hle (.inr ((h.1.avail_le_left_iff hchunks hpos).mpr hlast))
      exact ⟨reader', 0, heq, hat, Nat.zero_le _⟩

/-- Over one chunk it keeps the contract for all fetches of some bytes. -/
theorem IovecReader.lawful_one {chunk : Bytes} (hchunk : chunk ≠ []) :
    (IovecReader.methods [chunk]).Lawful [chunk].flatten (IovecReader.Place [chunk]) (fun length _ => 0 < length) where
  next := (IovecReader.lawful (List.forall_mem_singleton.mpr hchunk)).next
  backup := (IovecReader.lawful (List.forall_mem_singleton.mpr hchunk)).backup
  available := (IovecReader.lawful (List.forall_mem_singleton.mpr hchunk)).available
  fetch fetch hfetch reader pos last length h hpos := by
    refine (IovecReader.lawful (List.forall_mem_singleton.mpr hchunk)).fetch fetch hfetch reader pos last length h ?_
    rintro rfl
    refine ⟨hpos, ?_⟩
    rw [List.length_drop, List.flatten_singleton]
    exact Nat.sub_le _ _

/-- Over chunks with bytes and with the fallback for fetches, it keeps the whole contract. -/
theorem IovecReader.lawful_fallback {iov : List Bytes} (hchunks : ∀ chunk ∈ iov, chunk ≠ []) :
    { IovecReader.methods iov with fetch := none }.Lawful iov.flatten (IovecReader.Place iov) (fun _ _ => True) where
  next _ _ _ h := h.next hchunks
  backup _ _ _ _ h hcount := h.back hcount
  available := ⟨_, rfl, fun _ _ _ h => h.1.rest_length.symm⟩
  fetch := nofun

end RaleighSL.Zcl
