import RaleighSL.Zcl.Reader.Methods
import RaleighSL.Zcl.Coding.Field
import RaleighSL.Zcl.Coding.Zigzag

/-!
# Fields of messages

`buffers/writer.c` and `reader.c`: a field is written as a header and the bytes of its value, and
read through the methods of a reader. A header that ends outside the part a reader returns is
fetched as a whole.
-/
namespace RaleighSL.Zcl

/-! ### Writing -/

def writeField (fieldId length : Nat) : Bytes := Coding.encodeField fieldId length

def writeFieldUint64 (fieldId value : Nat) : Bytes :=
  writeField fieldId (Coding.uint64Size value) ++ Coding.encodeUint (Coding.uint64Size value) value

def writeFieldInt64 (fieldId : Nat) (value : BitVec 64) : Bytes :=
  writeFieldUint64 fieldId (Coding.encodeZigzag value).toNat

def writeFieldBytes (fieldId : Nat) (value : Bytes) : Bytes := writeField fieldId value.length ++ value

/-! ### Reading -/

namespace ReaderMethods
variable {σ : Type}

/-- `z_v_reader_decode_field`: the number of bytes of the header, the id and the length, none for a
result that is not positive. What is fetched is longer than the part returned first, and so it is
copied to the buffer that is decoded. -/
def decodeField (vtable : ReaderMethods σ) (self : σ) : Option (Option (Nat × Nat × Nat) × σ) := do
  let (data, self) ← vtable.next self
  if data.length = 0 then some (none, self)
  else match ← Coding.decodeField data data.length with
    | .ok (elength, fieldId, length) =>
      some (some (elength, fieldId, length), vtable.backup (data.length - elength) self)
    | .error elength =>
      let (buffer, self) ← vtable.vFetch elength (vtable.backup data.length self)
      match buffer with
      | none => some (none, self)
      | some buffer => (Coding.decodeField buffer elength).map (fun field => (field.toOption, self))

/-- The loop of `z_v_reader_skip`. Each step but the last one takes a byte at least. -/
def skipLoop (vtable : ReaderMethods σ) : Nat → Nat → σ → Option (Bool × σ)
  | 0, _, _ => none
  | fuel + 1, length, self => do
    let (data, self) ← vtable.next self
    if data.length < length then
      if data.length = 0 then some (false, self) else vtable.skipLoop fuel (length - data.length) self
    else some (true, vtable.backup (data.length - length) self)

/-- `z_v_reader_skip`, false for -1. -/
def skip (vtable : ReaderMethods σ) (length : Nat) (self : σ) : Option (Bool × σ) := vtable.skipLoop (length + 1) length self

/-- `z_v_reader_decode_uint8`: the first byte that was fetched, whatever the length. -/
def decodeUint8 (vtable : ReaderMethods σ) (length : Nat) (self : σ) : Option (Option Nat × σ) := do
  let (pbuf, self) ← vtable.vFetch length self
  match pbuf with
  | none => some (none, self)
  | some pbuf => if length ≤ 1 then pbuf.head?.map (fun byte => (some byte.val, self)) else none

/-- `z_v_reader_decode_bytes`. -/
def decodeBytes (vtable : ReaderMethods σ) (length : Nat) (self : σ) : Option (Option Bytes × σ) := vtable.vFetch length self

variable {vtable : ReaderMethods σ} {s : Bytes} {At : σ → Nat → Nat → Prop} {Fetchable : Nat → Nat → Prop}
  {self : σ} {pos last : Nat}

theorem Lawful.mono {Fetchable' : Nat → Nat → Prop} (h : Lawful vtable s At Fetchable)
    (himp : ∀ length rest, Fetchable' length rest → Fetchable length rest) : Lawful vtable s At Fetchable' where
  next := h.next
  backup := h.backup
  available := h.available
  fetch fetch hfetch self pos last length hat hok := h.fetch fetch hfetch self pos last length hat (himp _ _ hok)

/-- A header that was written is read, whether the first part has all of it or not. -/
theorem Lawful.decodeField (h : Lawful vtable s At Fetchable) (hat : At self pos last)
    (hok : ∀ length rest, 0 < length → Fetchable length rest) {fieldId length : Nat} {rest : Bytes}
    (hid : fieldId < 2 ^ 16) (hlength : length < 2 ^ 64) (hpos : 0 < length)
    (hrest : s.drop pos = Coding.encodeField fieldId length ++ rest) :
    ∃ self' last', vtable.decodeField self =
        some (some (Coding.encodedFieldLength fieldId length, fieldId, length), self') ∧
      At self' (pos + Coding.encodedFieldLength fieldId length) last' := by
  have hlen := Coding.length_encodeField fieldId length
  obtain ⟨data, self', heq, hpart, hnil, hat'⟩ := h.next self pos last hat
  have hdrop := drop_of_part hpart
  have hdata : data.length ≠ 0 := by
    intro hzero
    rw [hnil (List.eq_nil_of_length_eq_zero hzero), Coding.encodeField_eq, List.cons_append] at hrest
    cases hrest
  simp only [ReaderMethods.decodeField, heq, Option.bind_eq_bind, Option.bind_some, if_neg hdata]
  by_cases hall : Coding.encodedFieldLength fieldId length ≤ data.length
  · obtain ⟨tail, htail⟩ : ∃ tail, data = Coding.encodeField fieldId length ++ tail := by
      have htake : Coding.encodeField fieldId length = data.take (Coding.encodedFieldLength fieldId length) := by
        have hsame := congrArg (List.take (Coding.encodedFieldLength fieldId length)) (hdrop.symm.trans hrest)
        rw [List.take_append_of_le_length hall, List.take_left' hlen] at hsame
        exact hsame.symm
      exact ⟨data.drop (Coding.encodedFieldLength fieldId length), by rw [htake, List.take_append_drop]⟩
    have hdecode : Coding.decodeField data data.length =
        some (.ok (Coding.encodedFieldLength fieldId length, fieldId, length)) := by
      have hdec := Coding.decodeField_encodeField hid hlength hpos (hlen.symm ▸ hall) tail
      rwa [← htail, hlen] at hdec
    rw [hdecode]
    exact ⟨_, _, rfl, h.backup_rest hat' hall⟩
  · have hlt : data.length < Coding.encodedFieldLength fieldId length := Nat.lt_of_not_le hall
    obtain ⟨tail, htail⟩ : ∃ tail, Coding.encodeField fieldId length = data ++ tail := by
      have hpre : data <+: Coding.encodeField fieldId length :=
        List.prefix_of_prefix_length_le (hdrop ▸ List.prefix_append _ _) (hrest ▸ List.prefix_append _ _) (by omega)
      obtain ⟨tail, htail⟩ := hpre
      exact ⟨tail, htail.symm⟩
    have htailne : tail ≠ [] := by
      rintro rfl
      rw [htail, List.append_nil] at hlen
      omega
    have hdecode := Coding.decodeField_prefix hid hlength htail (fun hd => hdata (by rw [hd]; rfl)) htailne []
    rw [List.append_nil] at hdecode
    have hback := h.backup _ _ _ data.length hat' (Nat.le_refl _)
    rw [Nat.add_sub_cancel] at hback
    have hfetchpos : 0 < Coding.encodedFieldLength fieldId length := by omega
    obtain ⟨self'', last'', hfetch, hat''⟩ := h.vFetch hback (hok _ _ hfetchpos) (by
      rw [hrest, List.length_append, hlen]
      exact Nat.le_add_right _ _)
    have htake : (s.drop pos).take (Coding.encodedFieldLength fieldId length) = Coding.encodeField fieldId length := by
      rw [hrest, List.take_left' hlen]
    have hagain : Coding.decodeField (Coding.encodeField fieldId length) (Coding.encodedFieldLength fieldId length) =
        some (.ok (Coding.encodedFieldLength fieldId length, fieldId, length)) := by
      have hdec := Coding.decodeField_encodeField hid hlength hpos (Nat.le_refl _) ([] : Bytes)
      rwa [List.append_nil, hlen] at hdec
    rw [hdecode]
    simp only [Option.bind_some, hfetch, htake, hagain, Option.map_some]
    exact ⟨_, _, rfl, hat''⟩

theorem Lawful.decodeField_end (h : Lawful vtable s At Fetchable) (hat : At self pos last) (hend : s.drop pos = []) :
    ∃ self' last', vtable.decodeField self = some (none, self') ∧ At self' pos last' := by
  obtain ⟨data, self', heq, hpart, -, hat'⟩ := h.next self pos last hat
  have hdata : data = [] := List.prefix_nil.mp (hend ▸ hpart)
  subst hdata
  exact ⟨self', 0, by simp [ReaderMethods.decodeField, heq], hat'⟩

theorem Lawful.decodeBytes (h : Lawful vtable s At Fetchable) (hat : At self pos last)
    (hok : ∀ length rest, 0 < length → Fetchable length rest) {data rest : Bytes} (hdata : data ≠ [])
    (hrest : s.drop pos = data ++ rest) :
    ∃ self' last', vtable.decodeBytes data.length self = some (some data, self') ∧ At self' (pos + data.length) last' := by
  obtain ⟨self', last', heq, hat'⟩ := h.vFetch hat (hok data.length _ (List.length_pos_iff.mpr hdata)) (by
    rw [hrest, List.length_append]
    exact Nat.le_add_right _ _)
  rw [hrest, List.take_left] at heq
  exact ⟨self', last', heq, hat'⟩

/-! ### Reading any bytes -/

/-- The reader is at `pos`, not behind the end. -/
def Located (s : Bytes) (At : σ → Nat → Nat → Prop) (self : σ) (pos : Nat) : Prop := pos ≤ s.length ∧ ∃ last, At self pos last

variable {self' : σ} {length : Nat}

/-- With the fallback a fetch returns all bytes it is asked for or none, and does not go back. -/
theorem Lawful.vFetch_located (h : Lawful vtable s At fun _ _ => True) (hfetch : vtable.fetch = none)
    (hat : Located s At self pos) {data : Option Bytes} (heq : vtable.vFetch length self = some (data, self')) :
    ∃ pos', Located s At self' pos' ∧ pos ≤ pos' ∧
      ∀ buf, data = some buf → buf.length = length ∧ pos' = pos + length := by
  obtain ⟨hpos, last, hat⟩ := hat
  have hrest : (s.drop pos).length = s.length - pos := List.length_drop
  by_cases hle : length ≤ (s.drop pos).length
  · obtain ⟨self'', last', heq', hat'⟩ := h.vFetch hat trivial hle
    rw [heq] at heq'
    cases heq'
    refine ⟨pos + length, ⟨by omega, last', hat'⟩, Nat.le_add_right _ _, ?_⟩
    rintro buf ⟨⟩
    exact ⟨List.length_take_of_le hle, rfl⟩
  · obtain ⟨self'', pos', last', heq', hat', hge, hle'⟩ := h.fetchFallback_none hat (Nat.lt_of_not_le hle)
    have hfall : vtable.vFetch length self = vtable.fetchFallback length self := by
      unfold ReaderMethods.vFetch
      rw [hfetch]
    rw [hfall, heq'] at heq
    cases heq
    exact ⟨pos', ⟨by omega, last', hat'⟩, hge, nofun⟩

/-- A header that is read has the bytes its id and its length need. -/
theorem Lawful.decodeField_located (h : Lawful vtable s At fun _ _ => True) (hfetch : vtable.fetch = none)
    (hat : Located s At self pos) {field : Option (Nat × Nat × Nat)}
    (heq : vtable.decodeField self = some (field, self')) :
    ∃ pos', Located s At self' pos' ∧ pos ≤ pos' ∧ ∀ elength fieldId length, field = some (elength, fieldId, length) →
      pos + Coding.leastFieldLength fieldId length ≤ pos' := by
  obtain ⟨hpos, last, hat⟩ := hat
  obtain ⟨data, self₁, hnext, hpart, -, hat₁⟩ := h.next self pos last hat
  have hlen := hpart.length_le
  rw [List.length_drop] at hlen
  simp only [ReaderMethods.decodeField, hnext, Option.bind_eq_bind, Option.bind_some] at heq
  by_cases hdata : data.length = 0
  · rw [if_pos hdata] at heq
    cases heq
    exact ⟨pos + data.length, ⟨by omega, _, hat₁⟩, Nat.le_add_right _ _, nofun⟩
  rw [if_neg hdata] at heq
  rcases hdecode : Coding.decodeField data data.length with _ | elength | ⟨elength, fieldId, length⟩
  · rw [hdecode] at heq
    cases heq
  · have hback := h.backup _ _ _ data.length hat₁ (Nat.le_refl _)
    rw [Nat.add_sub_cancel] at hback
    simp only [hdecode, Option.bind_some] at heq
    rcases hbuffer : vtable.vFetch elength (vtable.backup data.length self₁) with _ | ⟨buffer, self₂⟩
    · simp only [hbuffer, Option.bind_none] at heq
      cases heq
    obtain ⟨pos', hat', hge, hsome⟩ := h.vFetch_located hfetch ⟨hpos, _, hback⟩ hbuffer
    simp only [hbuffer, Option.bind_some] at heq
    cases buffer with
    | none =>
      cases heq
      exact ⟨pos', hat', hge, nofun⟩
    | some buffer =>
      obtain ⟨hbuf, rfl⟩ := hsome buffer rfl
      rcases hagain : Coding.decodeField buffer elength with _ | e | ⟨n, fieldId, length⟩
      · simp only [hagain, Option.map_none] at heq
        cases heq
      · simp only [hagain, Option.map_some] at heq
        cases heq
        exact ⟨_, hat', hge, nofun⟩
      · simp only [hagain, Option.map_some] at heq
        cases heq
        have hne : buffer ≠ [] := by
          rintro rfl
          cases hagain
        obtain ⟨hleast, hn⟩ := Coding.leastFieldLength_le (hbuf ▸ List.length_pos_iff.mpr hne) hagain
        refine ⟨_, hat', hge, ?_⟩
        rintro _ _ _ ⟨⟩
        omega
  · obtain ⟨hleast, hn⟩ := Coding.leastFieldLength_le (Nat.pos_of_ne_zero hdata) hdecode
    simp only [hdecode, Option.bind_some] at heq
    cases heq
    refine ⟨pos + elength, ⟨by omega, _, h.backup_rest hat₁ hn⟩, Nat.le_add_right _ _, ?_⟩
    rintro _ _ _ ⟨⟩
    omega

theorem Lawful.decodeUint_located (h : Lawful vtable s At fun _ _ => True) (hfetch : vtable.fetch = none)
    (hat : Located s At self pos) {size value : Nat}
    (heq : vtable.decodeUint size length self = some (some value, self')) :
    Located s At self' (pos + length) ∧ length ≤ size ∧ value < 256 ^ length := by
  rcases hbuffer : vtable.vFetch length self with _ | ⟨buffer, self₁⟩
  · simp only [ReaderMethods.decodeUint, hbuffer, Option.bind_eq_bind, Option.bind_none] at heq
    cases heq
  · obtain ⟨pos', hat', -, hsome⟩ := h.vFetch_located hfetch hat hbuffer
    simp only [ReaderMethods.decodeUint, hbuffer, Option.bind_eq_bind, Option.bind_some] at heq
    cases buffer with
    | none => cases heq
    | some buffer =>
      obtain ⟨hbuf, rfl⟩ := hsome buffer rfl
      by_cases hle : length ≤ size
      · simp only [if_pos hle, Coding.decodeUint, if_pos (Nat.le_of_eq hbuf.symm), Option.map_some] at heq
        cases heq
        have hlt := Coding.number_lt (buffer.take length)
        rw [List.length_take_of_le (Nat.le_of_eq hbuf.symm)] at hlt
        exact ⟨hat', hle, hlt⟩
      · simp only [if_neg hle] at heq
        cases heq

theorem Lawful.decodeUint8_located (h : Lawful vtable s At fun _ _ => True) (hfetch : vtable.fetch = none)
    (hat : Located s At self pos) {value : Nat} (heq : vtable.decodeUint8 length self = some (some value, self')) :
    Located s At self' (pos + length) ∧ length ≤ 1 ∧ value < 256 ^ length := by
  rcases hbuffer : vtable.vFetch length self with _ | ⟨buffer, self₁⟩
  · simp only [decodeUint8, hbuffer, Option.bind_eq_bind, Option.bind_none] at heq
    cases heq
  · obtain ⟨pos', hat', -, hsome⟩ := h.vFetch_located hfetch hat hbuffer
    simp only [decodeUint8, hbuffer, Option.bind_eq_bind, Option.bind_some] at heq
    cases buffer with
    | none => cases heq
    | some buffer =>
      obtain ⟨hbuf, rfl⟩ := hsome buffer rfl
      by_cases hle : length ≤ 1
      · cases buffer with
        | nil =>
          simp only [if_pos hle, List.head?_nil, Option.map_none] at heq
          cases heq
        | cons byte buffer =>
          simp only [if_pos hle, List.head?_cons, Option.map_some] at heq
          cases heq
          have hone : length = 1 := by
            rw [List.length_cons] at hbuf
            omega
          exact ⟨hat', hle, by rw [hone]; exact byte.isLt⟩
      · simp only [if_neg hle] at heq
        cases heq

theorem Lawful.skipLoop_located (h : Lawful vtable s At Fetchable) {fuel : Nat} (hat : Located s At self pos)
    (heq : vtable.skipLoop fuel length self = some (true, self')) : Located s At self' (pos + length) := by
  induction fuel generalizing self pos length with
  | zero => cases heq
  | succ fuel ih =>
    obtain ⟨hpos, last, hat⟩ := hat
    obtain ⟨data, self₁, hnext, hpart, -, hat₁⟩ := h.next self pos last hat
    have hlen := hpart.length_le
    rw [List.length_drop] at hlen
    simp only [ReaderMethods.skipLoop, hnext, Option.bind_eq_bind, Option.bind_some] at heq
    by_cases hmore : data.length < length
    · rw [if_pos hmore] at heq
      split at heq
      · cases heq
      · have hrest := ih ⟨by omega, _, hat₁⟩ heq
        rwa [Nat.add_assoc, Nat.add_sub_cancel' (Nat.le_of_lt hmore)] at hrest
    · rw [if_neg hmore] at heq
      cases heq
      exact ⟨by omega, _, h.backup_rest hat₁ (Nat.not_lt.mp hmore)⟩

theorem Lawful.skip_located (h : Lawful vtable s At Fetchable) (hat : Located s At self pos)
    (heq : vtable.skip length self = some (true, self')) : Located s At self' (pos + length) :=
  h.skipLoop_located hat heq

end ReaderMethods

end RaleighSL.Zcl
