import RaleighSL.Zcl.Reader.Fetching
import RaleighSL.Zcl.Reader.Fields

/-!
# Headers of fields over chunks

`z_v_reader_decode_field` over the iovec reader. The header is decoded in the first part, whose
length is cut to 32 bits, and otherwise it is fetched and decoded in a buffer. A fetch that one
chunk has all bytes of returns their address and does not write the buffer.
-/
namespace RaleighSL.Zcl

namespace Coding

variable {head : Byte} {buf : Bytes} {buflen fieldId length : Nat}

/-- A header of one byte is decoded whatever the length of the buffer is. -/
theorem decodeField_one (h : headerLength head = 1) (n : Nat) :
    decodeField (head :: buf) buflen = decodeField (head :: buf) n := by
  unfold headerLength at h
  have hext : ¬ head.val &&& 1 <<< 7 ≠ 0 := by
    intro hext
    rw [if_pos hext] at h
    omega
  rw [if_neg hext] at h
  have hlow : 2 ≤ fetchBits head 4 0 := by
    by_contra hlow
    rw [if_neg hlow] at h
    omega
  simp only [decodeField, if_neg hext, decodeFieldId, if_pos hlow]

/-- The decoder returns minus the length of a header also for a buffer without bytes. -/
theorem decodeField_none (h : 1 < headerLength head) : decodeField (head :: buf) 0 = some (.error (headerLength head)) := by
  unfold headerLength at h ⊢
  by_cases hext : head.val &&& 1 <<< 7 ≠ 0
  · simp only [decodeField, if_pos hext]
    rw [if_pos (Nat.add_pos_left Nat.one_pos _)]
  · rw [if_neg hext] at h ⊢
    have hlow : ¬ 2 ≤ fetchBits head 4 0 := by
      intro hlow
      rw [if_pos hlow] at h
      omega
    simp only [decodeField, if_neg hext, decodeFieldId, if_neg hlow]
    rw [if_pos (Nat.add_pos_left Nat.one_pos _)]

/-- A header is decoded when the buffer has its bytes, or it has one byte only. -/
theorem decodeField_cut (hid : fieldId < 2 ^ 16) (hlength : length < 2 ^ 64) (hpos : 0 < length) (buflen : Nat)
    (rest : Bytes) (hmem : buflen ≤ (encodeField fieldId length ++ rest).length) :
    decodeField (encodeField fieldId length ++ rest) buflen =
      if (encodeField fieldId length).length = 1 ∨ (encodeField fieldId length).length ≤ buflen then
        some (.ok ((encodeField fieldId length).length, fieldId, length))
      else some (.error (encodeField fieldId length).length) := by
  by_cases hall : (encodeField fieldId length).length ≤ buflen
  · rw [if_pos (Or.inr hall)]
    exact decodeField_encodeField hid hlength hpos hall rest
  · have hhead := headerLength_encodeField hid hlength
    have hround := decodeField_encodeField hid hlength hpos (Nat.le_refl _) rest
    rw [length_encodeField] at hall hround ⊢
    rw [encodeField_eq, List.cons_append] at hmem hround ⊢
    by_cases hone : encodedFieldLength fieldId length = 1
    · rw [if_pos (Or.inl hone), ← hround]
      exact decodeField_one (hhead.trans hone) _
    · rw [if_neg (not_or.mpr ⟨hone, hall⟩), ← hhead]
      have hlen := encodedFieldLength_pos fieldId length
      rcases Nat.eq_zero_or_pos buflen with rfl | hbuflen
      · exact decodeField_none (by omega)
      · exact decodeField_short hmem hbuflen (by omega)

/-- A header is longer than the buffer for which its length is returned. -/
theorem lt_of_decodeField_error {n : Nat} (h : decodeField buf buflen = some (.error n)) : buflen < n := by
  cases buf with
  | nil => cases h
  | cons head buf =>
    have hrest {buf : Bytes} {elength flen1 length : Nat}
        (hid : decodeFieldId buf buflen elength flen1 length = some (.error n)) : buflen < n := by
      rw [decodeFieldId] at hid
      split_ifs at hid with hlow hshort
      · cases hid
      · cases hid
        exact hshort
      · obtain ⟨fieldId, -, hid⟩ := Option.map_eq_some_iff.mp hid
        cases hid
    by_cases hext : head.val &&& 1 <<< 7 ≠ 0
    · simp only [decodeField, if_pos hext] at h
      split_ifs at h with hshort hlow
      · cases h
        omega
      · cases h
        omega
      · obtain ⟨value, -, hid⟩ := Option.bind_eq_some_iff.mp h
        exact hrest hid
    · simp only [decodeField, if_neg hext] at h
      exact hrest h

end Coding

namespace IovecReader

variable {iov : List Bytes} {reader : IovecReader} {pos : Nat}

/-- `z_v_reader_decode_field`: the number of bytes of the header, the id and the length, or minus the result. -/
def decodeField (iov : List Bytes) (reader : IovecReader) : Option (Except Nat (Nat × Nat × Nat) × IovecReader) := do
  let (data, reader) ← reader.next iov
  if data.length = 0 then some (.error 1, reader)
  else match ← Coding.decodeField data (data.length % 2 ^ 32) with
    | .ok (elength, fieldId, length) => some (.ok (elength, fieldId, length), reader.backup (data.length - elength))
    | .error elength =>
      let reader := reader.backup data.length
      let direct := decide (elength ≤ reader.left iov)
      let (buffer, reader) ← reader.fetch iov elength
      match buffer with
      | none => some (.error elength, reader)
      | some buffer =>
        if direct then none else (Coding.decodeField buffer elength).map (fun result => (result, reader))

/-- A header is read as it is from the bytes as a whole, and the reader is behind it. -/
def HeaderRead (iov : List Bytes) (reader : IovecReader) (pos : Nat) (header : Bytes) : Prop :=
  ∃ field reader', Coding.decodeField (iov.flatten.drop pos) (iov.flatten.drop pos).length =
      some (.ok (header.length, field)) ∧
    decodeField iov reader = some (.ok (header.length, field), reader') ∧ At iov reader' (pos + header.length)

/-- A header is not read, and the result is not positive. -/
def HeaderRejected (iov : List Bytes) (reader : IovecReader) : Prop :=
  ∃ elength reader', decodeField iov reader = some (.error elength, reader')

/-! ### The two ways -/

theorem At.decodeField_ok (h : At iov reader pos) (hchunks : ∀ chunk ∈ iov, chunk ≠ []) (hpos : 0 < reader.avail)
    {n : Nat} {field : Nat × Nat} (hn : n ≤ reader.left iov)
    (hdecode : Coding.decodeField ((iov.flatten.drop pos).take (reader.left iov)) (reader.left iov % 2 ^ 32) =
      some (.ok (n, field))) : ∃ reader', decodeField iov reader = some (.ok (n, field), reader') ∧ At iov reader' (pos + n) := by
  obtain ⟨reader', hnext, hat, hoffset, hsome, hle, -⟩ := h.next_left hchunks hpos
  have hlen : ((iov.flatten.drop pos).take (reader.left iov)).length = reader.left iov :=
    List.length_take_of_le (h.rest_length ▸ hle)
  have hback := hat.back (show reader.left iov - n ≤ reader'.offset by omega)
  rw [show pos + reader.left iov - (reader.left iov - n) = pos + n by omega] at hback
  refine ⟨reader'.backup (reader.left iov - n), ?_, hback⟩
  simp only [decodeField, hnext, Option.bind_eq_bind, Option.bind_some, hlen, if_neg (Nat.ne_of_gt hsome), hdecode]

theorem At.decodeField_error (h : At iov reader pos) (hchunks : ∀ chunk ∈ iov, chunk ≠ []) (hpos : 0 < reader.avail)
    {elength : Nat}
    (hdecode : Coding.decodeField ((iov.flatten.drop pos).take (reader.left iov)) (reader.left iov % 2 ^ 32) =
      some (.error elength)) : ∃ back, At iov back pos ∧ back.left iov = reader.left iov ∧ back.avail = reader.avail ∧
      decodeField iov reader = (back.fetch iov elength).bind (fun r =>
        match r.1 with
        | none => some (.error elength, r.2)
        | some buffer =>
          if elength ≤ reader.left iov then none
          else (Coding.decodeField buffer elength).map (fun result => (result, r.2))) := by
  obtain ⟨reader', hnext, hat, hoffset, hsome, hle, hleft⟩ := h.next_left hchunks hpos
  have hlen : ((iov.flatten.drop pos).take (reader.left iov)).length = reader.left iov :=
    List.length_take_of_le (h.rest_length ▸ hle)
  have hback := hat.back hoffset
  rw [Nat.add_sub_cancel] at hback
  refine ⟨_, hback, hleft, ?_, ?_⟩
  · rw [← hback.rest_length, h.rest_length]
  · simp only [decodeField, hnext, Option.bind_eq_bind, Option.bind_some, hlen, if_neg (Nat.ne_of_gt hsome), hdecode,
      hleft]
    congr 1
    funext r
    split <;> simp_all

/-- For a first part of less than `2 ^ 32` bytes this is what is read through the methods of the reader. -/
theorem At.decodeField_methods (h : At iov reader pos) (hchunks : ∀ chunk ∈ iov, chunk ≠ [])
    (hsmall : reader.left iov < 2 ^ 32) :
    (methods iov).decodeField reader = (decodeField iov reader).map (fun r => (r.1.toOption, r.2)) := by
  rcases Nat.eq_zero_or_pos reader.avail with hzero | hpos
  · simp only [ReaderMethods.decodeField, methods, decodeField, IovecReader.next, if_pos hzero, Option.bind_eq_bind,
      Option.bind_some]
    rfl
  · obtain ⟨reader', hnext, -, -, hsome, hle, hleft⟩ := h.next_left hchunks hpos
    have hlen : ((iov.flatten.drop pos).take (reader.left iov)).length = reader.left iov :=
      List.length_take_of_le (h.rest_length ▸ hle)
    simp only [ReaderMethods.decodeField, ReaderMethods.vFetch, methods, decodeField, hnext, Option.bind_eq_bind,
      Option.bind_some, hlen, if_neg (Nat.ne_of_gt hsome), Nat.mod_eq_of_lt hsmall, hleft]
    rcases hdecode : Coding.decodeField ((iov.flatten.drop pos).take (reader.left iov)) (reader.left iov) with
      _ | elength | ⟨elength, fieldId, length⟩
    · rfl
    · have hlt := Coding.lt_of_decodeField_error hdecode
      have hdirect : ¬ elength ≤ reader.left iov := Nat.not_le.mpr hlt
      simp only [Option.bind_some, hdirect, decide_false, Bool.false_eq_true, if_false]
      rcases IovecReader.fetch iov elength (reader'.backup (reader.left iov)) with _ | ⟨_ | buffer, reader''⟩
      · rfl
      · rfl
      · simp only [Option.bind_some, Option.map_map]
        rfl
    · rfl

/-! ### Whole headers and parts -/

variable {fieldId length : Nat}

/-- A header that the first part has is decoded there unless the length of the part has lost its high bits. -/
theorem At.headerRead_first (h : At iov reader pos) (hchunks : ∀ chunk ∈ iov, chunk ≠ []) (hid : fieldId < 2 ^ 16)
    (hlength : length < 2 ^ 64) (hpos : 0 < length) {rest : Bytes}
    (hrest : iov.flatten.drop pos = Coding.encodeField fieldId length ++ rest)
    (hleft : (Coding.encodeField fieldId length).length ≤ reader.left iov) :
    HeaderRead iov reader pos (Coding.encodeField fieldId length) ↔
      (Coding.encodeField fieldId length).length = 1 ∨
        (Coding.encodeField fieldId length).length ≤ reader.left iov % 2 ^ 32 := by
  have hheader : 0 < (Coding.encodeField fieldId length).length := by
    rw [Coding.length_encodeField]
    exact Coding.encodedFieldLength_pos fieldId length
  have havail : 0 < reader.avail := by
    rw [← h.rest_length, hrest, List.length_append]
    omega
  obtain ⟨-, -, -, -, -, hle, -⟩ := h.next_left hchunks havail
  have hfits : (Coding.encodeField fieldId length).length ≤ (iov.flatten.drop pos).length := by
    rw [hrest, List.length_append]
    exact Nat.le_add_right _ _
  have hwhole := Coding.decodeField_encodeField hid hlength hpos hfits rest
  rw [← hrest] at hwhole
  have htake : (iov.flatten.drop pos).take (reader.left iov) = Coding.encodeField fieldId length ++
      rest.take (reader.left iov - (Coding.encodeField fieldId length).length) := by
    rw [hrest, List.take_append, List.take_of_length_le hleft]
  have hlen : ((iov.flatten.drop pos).take (reader.left iov)).length = reader.left iov :=
    List.length_take_of_le (h.rest_length ▸ hle)
  have hcut := Coding.decodeField_cut hid hlength hpos (reader.left iov % 2 ^ 32)
    (rest.take (reader.left iov - (Coding.encodeField fieldId length).length)) (by
      rw [← htake, hlen]
      exact Nat.mod_le _ _)
  rw [← htake] at hcut
  by_cases hok : (Coding.encodeField fieldId length).length = 1 ∨
      (Coding.encodeField fieldId length).length ≤ reader.left iov % 2 ^ 32
  · rw [if_pos hok] at hcut
    obtain ⟨reader', hread, hat⟩ := h.decodeField_ok hchunks havail hleft hcut
    exact iff_of_true ⟨_, reader', hwhole, hread, hat⟩ hok
  · rw [if_neg hok] at hcut
    refine iff_of_false ?_ hok
    rintro ⟨field, reader', -, hread, -⟩
    obtain ⟨back, -, -, -, heq⟩ := h.decodeField_error hchunks havail hcut
    rw [heq, Option.bind_eq_some_iff] at hread
    obtain ⟨⟨buffer, reader''⟩, -, hread⟩ := hread
    cases buffer with
    | none => simp at hread
    | some buffer =>
      simp only [if_pos hleft] at hread
      cases hread

/-- For a first part that ends in the header the length of the header is returned. -/
theorem At.decodeField_part (h : At iov reader pos) (hchunks : ∀ chunk ∈ iov, chunk ≠ []) (havail : 0 < reader.avail)
    (hid : fieldId < 2 ^ 16) (hlength : length < 2 ^ 64) {q : Bytes} (hq : q ≠ [])
    (hpart : Coding.encodeField fieldId length = (iov.flatten.drop pos).take (reader.left iov) ++ q) :
    Coding.decodeField ((iov.flatten.drop pos).take (reader.left iov)) (reader.left iov % 2 ^ 32) =
      some (.error (Coding.encodeField fieldId length).length) := by
  obtain ⟨-, -, -, -, hsome, hle, -⟩ := h.next_left hchunks havail
  have hlen : ((iov.flatten.drop pos).take (reader.left iov)).length = reader.left iov :=
    List.length_take_of_le (h.rest_length ▸ hle)
  have hsmall : reader.left iov < 2 ^ 32 := by
    have hheader := congrArg List.length hpart
    have hlong := Coding.uint64Size_le length
    have hshort := Coding.uint32Size_le fieldId
    rw [Coding.length_encodeField, Coding.encodedFieldLength, List.length_append, hlen] at hheader
    split_ifs at hheader <;> omega
  have hne : (iov.flatten.drop pos).take (reader.left iov) ≠ [] := List.ne_nil_of_length_pos (by omega)
  have hprefix := Coding.decodeField_prefix hid hlength hpart hne hq []
  rw [List.append_nil, hlen] at hprefix
  rw [Nat.mod_eq_of_lt hsmall, hprefix, Coding.length_encodeField]

/-- A header that goes over the end of the first part is read unless nothing follows it. -/
theorem At.headerRead_split (h : At iov reader pos) (hchunks : ∀ chunk ∈ iov, chunk ≠ []) (hid : fieldId < 2 ^ 16)
    (hlength : length < 2 ^ 64) (hpos : 0 < length) {rest : Bytes}
    (hrest : iov.flatten.drop pos = Coding.encodeField fieldId length ++ rest)
    (hleft : reader.left iov < (Coding.encodeField fieldId length).length) :
    HeaderRead iov reader pos (Coding.encodeField fieldId length) ↔ rest ≠ [] := by
  have havail : reader.avail = (Coding.encodeField fieldId length).length + rest.length := by
    rw [← h.rest_length, hrest, List.length_append]
  have hfits : (Coding.encodeField fieldId length).length ≤ (iov.flatten.drop pos).length := by
    rw [hrest, List.length_append]
    exact Nat.le_add_right _ _
  have hwhole := Coding.decodeField_encodeField hid hlength hpos hfits rest
  rw [← hrest] at hwhole
  have hpart : Coding.encodeField fieldId length = (iov.flatten.drop pos).take (reader.left iov) ++
      (Coding.encodeField fieldId length).drop (reader.left iov) := by
    rw [hrest, List.take_append_of_le_length (Nat.le_of_lt hleft), List.take_append_drop]
  have hq : (Coding.encodeField fieldId length).drop (reader.left iov) ≠ [] :=
    List.ne_nil_of_length_pos (by rw [List.length_drop]; omega)
  obtain ⟨back, hback, hsame, hbackavail, heq⟩ := h.decodeField_error hchunks (by omega)
    (h.decodeField_part hchunks (by omega) hid hlength hq hpart)
  have hbackrest := hbackavail.trans havail
  by_cases hrestne : rest ≠ []
  · have hmore := List.length_pos_iff.mpr hrestne
    obtain ⟨reader', hfetch, hat⟩ := hback.fetch_some
      (show 0 < (Coding.encodeField fieldId length).length by omega) (by omega) (.inl (by omega))
    rw [hrest, List.take_left] at hfetch
    have hagain := Coding.decodeField_encodeField hid hlength hpos (Nat.le_refl _) ([] : Bytes)
    rw [List.append_nil] at hagain
    refine iff_of_true ⟨_, reader', hwhole, ?_, hat⟩ hrestne
    rw [heq, hfetch, Option.bind_some]
    simp only [if_neg (Nat.not_le.mpr hleft), hagain, Option.map_some]
  · refine iff_of_false ?_ hrestne
    rintro ⟨field, reader', -, hread, -⟩
    have hall : back.avail = (Coding.encodeField fieldId length).length := by
      rw [hbackrest, not_ne_iff.mp hrestne]
      rfl
    have hnone := hback.fetch_none (by omega) (by rw [hsame]; omega)
    rw [heq, ← hall, hnone] at hread
    simp at hread

/-- A part of a header from its start at the end of the chunks is rejected. -/
theorem At.headerRejected (h : At iov reader pos) (hchunks : ∀ chunk ∈ iov, chunk ≠ []) (hid : fieldId < 2 ^ 16)
    (hlength : length < 2 ^ 64) {q : Bytes} (hq : q ≠ [])
    (hpart : Coding.encodeField fieldId length = iov.flatten.drop pos ++ q) : HeaderRejected iov reader := by
  rcases Nat.eq_zero_or_pos reader.avail with hzero | havail
  · refine ⟨1, reader, ?_⟩
    simp only [decodeField, IovecReader.next, if_pos hzero, Option.bind_eq_bind, Option.bind_some]
    rfl
  · have hheader := congrArg List.length hpart
    rw [List.length_append, h.rest_length] at hheader
    have hqpos := List.length_pos_iff.mpr hq
    have hsplit : Coding.encodeField fieldId length = (iov.flatten.drop pos).take (reader.left iov) ++
        ((iov.flatten.drop pos).drop (reader.left iov) ++ q) := by
      rw [← List.append_assoc, List.take_append_drop, hpart]
    have hqne : (iov.flatten.drop pos).drop (reader.left iov) ++ q ≠ [] := List.append_ne_nil_of_right_ne_nil _ hq
    obtain ⟨back, -, -, hbackavail, heq⟩ := h.decodeField_error hchunks havail
      (h.decodeField_part hchunks havail hid hlength hqne hsplit)
    refine ⟨(Coding.encodeField fieldId length).length, back, ?_⟩
    rw [heq, fetch_lack (by omega)]
    rfl

/-- The header of a field in chunks with bytes, at the place of a reader: what `z_v_reader_decode_field` is to do with it
and with a part of it. -/
def HeaderFaithful (iov : List Bytes) (reader : IovecReader) (pos fieldId length : Nat) : Prop :=
  (∀ rest, iov.flatten.drop pos = Coding.encodeField fieldId length ++ rest →
    HeaderRead iov reader pos (Coding.encodeField fieldId length)) ∧
  ∀ q, q ≠ [] → Coding.encodeField fieldId length = iov.flatten.drop pos ++ q → HeaderRejected iov reader

/-- Over chunks with bytes a header is read as it is from the bytes as a whole exactly when the first part has all of it,
and its length cut to 32 bits says so, or bytes follow it. A part of a header is always rejected. -/
theorem headerFaithful_iff {iov : List Bytes} {reader : IovecReader} {pos fieldId length : Nat} (h : At iov reader pos)
    (hchunks : ∀ chunk ∈ iov, chunk ≠ []) (hid : fieldId < 2 ^ 16) (hlength : length < 2 ^ 64) :
    HeaderFaithful iov reader pos fieldId length ↔
      ∀ rest, iov.flatten.drop pos = Coding.encodeField fieldId length ++ rest →
        if (Coding.encodeField fieldId length).length ≤ reader.left iov then
          (Coding.encodeField fieldId length).length = 1 ∨
            (Coding.encodeField fieldId length).length ≤ reader.left iov % 2 ^ 32
        else rest ≠ [] := by
  have hreject (q : Bytes) (hq : q ≠ []) (hpart : Coding.encodeField fieldId length = iov.flatten.drop pos ++ q) :
      HeaderRejected iov reader := h.headerRejected hchunks hid hlength hq hpart
  rw [HeaderFaithful, and_iff_left hreject]
  refine forall_congr' (fun rest => imp_congr_right (fun hrest => ?_))
  have hread {n : Nat} (hn : n < 2 ^ 64) (hpos : 0 < n)
      (hsame : Coding.encodeField fieldId length = Coding.encodeField fieldId n) :
      HeaderRead iov reader pos (Coding.encodeField fieldId length) ↔
        if (Coding.encodeField fieldId length).length ≤ reader.left iov then
          (Coding.encodeField fieldId length).length = 1 ∨
            (Coding.encodeField fieldId length).length ≤ reader.left iov % 2 ^ 32
        else rest ≠ [] := by
    rw [hsame] at hrest ⊢
    split_ifs with hleft
    · exact h.headerRead_first hchunks hid hn hpos hrest hleft
    · exact h.headerRead_split hchunks hid hn hpos hrest (Nat.not_le.mp hleft)
  rcases Nat.eq_zero_or_pos length with rfl | hpos
  · exact hread (by decide) (by decide) (Coding.encodeField_zero fieldId)
  · exact hread hlength hpos rfl

/-- The header of a field of 300 bytes in three chunks, with a byte behind it. -/
theorem headerFaithful_three : HeaderFaithful [[144], [44, 1], [20, 7]] (opened [[144], [44, 1], [20, 7]]) 0 20 300 := by
  refine (headerFaithful_iff (At.opened _) (by decide) (by decide) (by decide)).mpr ?_
  rintro rest hrest
  rw [if_neg (by decide)]
  rintro rfl
  exact absurd (congrArg List.length hrest) (by decide)

/-- The header of a field of three bytes in two chunks and nothing behind it. -/
theorem last_header_lost : Coding.encodeField 20 3 = [32, 20] ∧
    ¬ HeaderFaithful [[32], [20]] (opened [[32], [20]]) 0 20 3 := by
  refine ⟨by decide, fun h => ?_⟩
  obtain ⟨field, reader', -, hread, -⟩ := h.1 [] (by decide)
  have hnone : decodeField [[32], [20]] (opened [[32], [20]]) = none := by
    decide
  rw [hnone] at hread
  cases hread

end IovecReader

end RaleighSL.Zcl
