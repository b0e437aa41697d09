import RaleighSL.Zcl.Reader.Methods

/-!
# Heads of messages

`io/rpc/rpc-msg.c`: the head of a message is a byte with two widths and the direction, the type of
the message and the id of the request. The parser looks for it in the first part of a reader and
fetches the integers that are not there; whether they could be fetched it does not ask.
-/
namespace RaleighSL.Zcl.Rpc
open Coding (fetchBits encodeUint uint64Size number)

def writeHead (msgType reqId : Nat) (isReq : Bool) : Bytes :=
  Fin.ofNat 256 ((uint64Size msgType - 1) <<< 5 ||| (uint64Size reqId - 1) <<< 2 ||| isReq.toNat <<< 1) ::
    (encodeUint (uint64Size msgType) msgType ++ encodeUint (uint64Size reqId) reqId)

/-- What is parsed. A number that could not be read is not set. -/
structure Head where
  msgType : Option Nat
  reqId : Option Nat
  isReq : Nat
deriving DecidableEq, Repr

variable {σ : Type}

/-- `z_v_reader_rpc_parse_head`. Without a head it returns -1, else 0. -/
def parseHead (vtable : ReaderMethods σ) (self : σ) : Option (Option Head × σ) := do
  let (data, self) ← vtable.next self
  match data with
  | [] => some (none, self)
  | byte :: data =>
    let n := data.length + 1
    let len0 := 1 + fetchBits byte 3 5
    let len1 := 1 + fetchBits byte 3 2
    let isReq := byte.val &&& 1 <<< 1
    if 1 + len0 + len1 ≤ n then
      let msgType ← Coding.decodeUint data len0
      let reqId ← Coding.decodeUint (data.drop len0) len1
      some (some { msgType := some msgType, reqId := some reqId, isReq }, vtable.backup (n - (1 + len0 + len1)) self)
    else if 1 + len0 ≤ n then
      let msgType ← Coding.decodeUint data len0
      let (reqId, self) ← vtable.decodeUint 8 len1 (vtable.backup (n - (1 + len0)) self)
      some (some { msgType := some msgType, reqId, isReq }, self)
    else
      let (msgType, self) ← vtable.decodeUint 8 len0 (vtable.backup (n - 1) self)
      let (reqId, self) ← vtable.decodeUint 8 len1 self
      some (some { msgType, reqId, isReq }, self)

def Parses (vtable : ReaderMethods σ) (At : σ → Nat → Nat → Prop) (self : σ) (pos msgType reqId : Nat) (isReq : Bool) :
    Prop :=
  ∃ head self' last, parseHead vtable self = some (some head, self') ∧ head.msgType = some msgType ∧
    head.reqId = some reqId ∧ (head.isReq ≠ 0 ↔ isReq = true) ∧ At self' (pos + (writeHead msgType reqId isReq).length) last

def Rejects (vtable : ReaderMethods σ) (self : σ) : Prop := ∃ self', parseHead vtable self = some (none, self')

/-- The bits of the first byte. -/
theorem headByte_bits : ∀ (len0 len1 : Fin 8) (isReq : Bool) (byte : Byte),
    byte = Fin.ofNat 256 (len0.val <<< 5 ||| len1.val <<< 2 ||| isReq.toNat <<< 1) →
    fetchBits byte 3 5 = len0.val ∧ fetchBits byte 3 2 = len1.val ∧ (byte.val &&& 1 <<< 1 ≠ 0 ↔ isReq = true) := by
  rintro len0 len1 isReq _ rfl
  revert len0 len1 isReq
  decide +kernel

variable {vtable : ReaderMethods σ} {s : Bytes} {At : σ → Nat → Nat → Prop} {Fetchable : Nat → Nat → Prop}
  {self : σ} {pos last msgType reqId : Nat}

/-- A head that was written has the lengths of its numbers and the direction in its first byte. -/
theorem writeHead_lengths (hm : msgType < 2 ^ 64) (hr : reqId < 2 ^ 64) {isReq : Bool} {byte : Byte} {data payload : Bytes}
    (h : byte :: data = writeHead msgType reqId isReq ++ payload) :
    1 + fetchBits byte 3 5 = uint64Size msgType ∧ 1 + fetchBits byte 3 2 = uint64Size reqId ∧
      (byte.val &&& 1 <<< 1 ≠ 0 ↔ isReq = true) ∧
      data = encodeUint (uint64Size msgType) msgType ++ (encodeUint (uint64Size reqId) reqId ++ payload) := by
  have hmin0 := Coding.uint64Size_minimal hm
  have hmin1 := Coding.uint64Size_minimal hr
  have hle0 := Coding.uint64Size_le msgType
  have hle1 := Coding.uint64Size_le reqId
  rw [writeHead, List.cons_append, List.append_assoc] at h
  obtain ⟨hbyte, hdata⟩ := List.cons.inj h
  obtain ⟨hbits0, hbits1, hdir⟩ := headByte_bits ⟨uint64Size msgType - 1, by omega⟩ ⟨uint64Size reqId - 1, by omega⟩
    isReq byte hbyte
  exact ⟨by rw [hbits0, Nat.add_sub_cancel' hmin0.1], by rw [hbits1, Nat.add_sub_cancel' hmin1.1], hdir, hdata⟩

theorem length_writeHead (msgType reqId : Nat) (isReq : Bool) :
    (writeHead msgType reqId isReq).length = 1 + uint64Size msgType + uint64Size reqId := by
  simp [writeHead]
  omega

theorem decodeUint_encodeUint (h : vtable.Lawful s At Fetchable) (hat : At self pos last) {value width : Nat} {rest : Bytes}
    (hvalue : value < 256 ^ width) (hwidth : width ≤ 8) (hrest : s.drop pos = encodeUint width value ++ rest)
    (hok : Fetchable width (width + rest.length)) :
    ∃ self' last', vtable.decodeUint 8 width self = some (some value, self') ∧ At self' (pos + width) last' := by
  have hlen : (s.drop pos).length = width + rest.length := by
    rw [hrest, List.length_append, Coding.length_encodeUint]
  obtain ⟨self', last', heq, hat'⟩ := h.decodeUint hat (hlen ▸ hok) hwidth (by omega)
  have htake : (s.drop pos).take width = encodeUint width value := by
    rw [hrest, List.take_append_of_le_length (by simp), List.take_of_length_le (by simp)]
  rw [htake, Coding.number_encodeUint, Nat.mod_eq_of_lt hvalue] at heq
  exact ⟨self', last', heq, hat'⟩

/-- A whole head is parsed, wherever the reader splits it. -/
theorem parses_writeHead (h : vtable.Lawful s At Fetchable) (hat : At self pos last) (hm : msgType < 2 ^ 64)
    (hr : reqId < 2 ^ 64) {isReq : Bool} {payload : Bytes} (hrest : s.drop pos = writeHead msgType reqId isReq ++ payload)
    (hok0 : Fetchable (uint64Size msgType) (uint64Size msgType + (uint64Size reqId + payload.length)))
    (hok1 : Fetchable (uint64Size reqId) (uint64Size reqId + payload.length)) :
    Parses vtable At self pos msgType reqId isReq := by
  have hmin0 := Coding.uint64Size_minimal hm
  have hmin1 := Coding.uint64Size_minimal hr
  have hle0 := Coding.uint64Size_le msgType
  have hle1 := Coding.uint64Size_le reqId
  obtain ⟨data, self', heq, hpart, hnil, hat'⟩ := h.next self pos last hat
  have hdrop := ReaderMethods.drop_of_part hpart
  cases data with
  | nil => rw [hnil rfl] at hrest; cases hrest
  | cons byte data =>
    rw [hdrop, List.cons_append] at hrest
    obtain ⟨hlen0, hlen1, hdir, hbytes⟩ := writeHead_lengths hm hr hrest
    have hdrop0 : s.drop (pos + 1) =
        encodeUint (uint64Size msgType) msgType ++ (encodeUint (uint64Size reqId) reqId ++ payload) := by
      rw [← List.drop_drop, hdrop]
      exact hbytes
    have hdrop1 : s.drop (pos + (1 + uint64Size msgType)) = encodeUint (uint64Size reqId) reqId ++ payload := by
      rw [← Nat.add_assoc, ← List.drop_drop, hdrop0, List.drop_left' (Coding.length_encodeUint _ _)]
    have hback : ∀ k ≤ data.length + 1, At (vtable.backup (data.length + 1 - k) self') (pos + k) k :=
      fun k hk => h.backup_rest hat' hk
    have htype : uint64Size msgType ≤ data.length → Coding.decodeUint data (uint64Size msgType) = some msgType := by
      intro hle
      rw [← Coding.decodeUint_append hle, hbytes, Coding.decodeUint_encodeUint hmin0.2.1]
    have hlens : (encodeUint (uint64Size reqId) reqId ++ payload).length = uint64Size reqId + payload.length := by simp
    unfold Parses
    rw [length_writeHead]
    simp only [parseHead, heq, Option.bind_eq_bind, Option.bind_some, hlen0, hlen1]
    by_cases hwhole : 1 + uint64Size msgType + uint64Size reqId ≤ data.length + 1
    · have hid : Coding.decodeUint (data.drop (uint64Size msgType)) (uint64Size reqId) = some reqId := by
        rw [← Coding.decodeUint_append (by rw [List.length_drop]; omega), ← List.drop_append_of_le_length (by omega), hbytes,
          List.drop_left' (Coding.length_encodeUint _ _), Coding.decodeUint_encodeUint hmin1.2.1]
      simp only [if_pos hwhole, htype (by omega), hid, Option.bind_some]
      exact ⟨_, _, _, rfl, rfl, rfl, hdir, hback _ hwhole⟩
    · rw [if_neg hwhole]
      by_cases hpart : 1 + uint64Size msgType ≤ data.length + 1
      · obtain ⟨self'', last'', hdecode, hat''⟩ :=
          decodeUint_encodeUint h (hback _ hpart) hmin1.2.1 hle1 hdrop1 hok1
        simp only [if_pos hpart, htype (by omega), hdecode, Option.bind_some]
        exact ⟨_, _, _, rfl, rfl, rfl, hdir, Nat.add_assoc pos _ _ ▸ hat''⟩
      · obtain ⟨self'', last'', hdecode, hat''⟩ :=
          decodeUint_encodeUint h (hback 1 (by omega)) hmin0.2.1 hle0 hdrop0 (hlens ▸ hok0)
        rw [Nat.add_sub_cancel] at hdecode
        rw [Nat.add_assoc] at hat''
        obtain ⟨self₃, last₃, hdecode', hat₃⟩ := decodeUint_encodeUint h hat'' hmin1.2.1 hle1 hdrop1 hok1
        simp only [if_neg hpart, hdecode, hdecode', Option.bind_some, Nat.add_sub_cancel]
        exact ⟨_, _, _, rfl, rfl, rfl, hdir, Nat.add_assoc pos _ _ ▸ hat₃⟩

/-- A reader that gives bytes is not an error, also when they end within a head. -/
theorem not_rejects_of_next {byte : Byte} {data : Bytes} {self' : σ} (h : vtable.next self = some (byte :: data, self')) :
    ¬ Rejects vtable self := by
  rintro ⟨self'', hrejects⟩
  simp only [parseHead, h, Option.bind_eq_bind, Option.bind_some] at hrejects
  split_ifs at hrejects
  · obtain ⟨msgType, -, hrejects⟩ := Option.bind_eq_some_iff.mp hrejects
    obtain ⟨reqId, -, hrejects⟩ := Option.bind_eq_some_iff.mp hrejects
    cases hrejects
  · obtain ⟨msgType, -, hrejects⟩ := Option.bind_eq_some_iff.mp hrejects
    obtain ⟨reqId, -, hrejects⟩ := Option.bind_eq_some_iff.mp hrejects
    cases hrejects
  · obtain ⟨msgType, -, hrejects⟩ := Option.bind_eq_some_iff.mp hrejects
    obtain ⟨reqId, -, hrejects⟩ := Option.bind_eq_some_iff.mp hrejects
    cases hrejects

/-- Only a reader without bytes is an error. -/
theorem rejects_iff (h : vtable.Lawful s At Fetchable) (hat : At self pos last) :
    Rejects vtable self ↔ s.drop pos = [] := by
  obtain ⟨data, self', heq, hpart, hnil, -⟩ := h.next self pos last hat
  cases data with
  | nil =>
    refine iff_of_true ⟨self', ?_⟩ (hnil rfl)
    simp only [parseHead, heq, Option.bind_eq_bind, Option.bind_some]
  | cons byte data =>
    refine iff_of_false (not_rejects_of_next heq) (fun hrest => ?_)
    rw [hrest, List.prefix_nil] at hpart
    cases hpart

/-! ### The iovec reader -/

variable {iov : List Bytes} {reader : IovecReader}

/-- A number that is the last one is not read when the last chunk has not all of it. -/
theorem decodeUint_iovec_none (h : IovecReader.At iov reader pos) (hchunks : ∀ chunk ∈ iov, chunk ≠ []) {size length : Nat}
    (hpos : 0 < length) (havail : reader.avail = length) (hlast : (iov.getLastD []).length < length) :
    (IovecReader.methods iov).decodeUint size length reader = none := by
  subst havail
  have hleft : reader.left iov < reader.avail := by
    rw [← Nat.not_le, h.avail_le_left_iff hchunks hpos]
    exact Nat.not_le.mpr hlast
  simp [ReaderMethods.decodeUint, ReaderMethods.vFetch, IovecReader.methods, h.fetch_none hpos hleft]

/-- A head that is all that remains is not parsed when the last chunk has not all of its second number. -/
theorem parseHead_iovec_none (h : IovecReader.Place iov reader pos last) (hchunks : ∀ chunk ∈ iov, chunk ≠ [])
    (hm : msgType < 2 ^ 64) (hr : reqId < 2 ^ 64) {isReq : Bool}
    (hrest : iov.flatten.drop pos = writeHead msgType reqId isReq) (hlast : (iov.getLastD []).length < uint64Size reqId) :
    parseHead (IovecReader.methods iov) reader = none := by
  have hsize1 := (Coding.uint64Size_minimal hr).1
  have havail : reader.avail = 1 + uint64Size msgType + uint64Size reqId := by
    rw [← h.1.rest_length, hrest, length_writeHead]
  obtain ⟨reader', hnext, hat, hoffset, hpos, hle, -⟩ := h.1.next_left hchunks (by omega)
  have hleft : reader.left iov < reader.avail := by
    rw [← Nat.not_le, h.1.avail_le_left_iff hchunks (by omega)]
    omega
  have hlen : ((iov.flatten.drop pos).take (reader.left iov)).length = reader.left iov :=
    List.length_take_of_le (h.1.rest_length ▸ hle)
  obtain ⟨byte, data, hdata⟩ := List.exists_cons_of_ne_nil (List.ne_nil_of_length_pos (hlen.symm ▸ hpos))
  have hbytes := List.take_append_drop (reader.left iov) (iov.flatten.drop pos)
  rw [hdata, List.cons_append] at hbytes
  obtain ⟨hlen0, hlen1, -, -⟩ := writeHead_lengths hm hr (hbytes.trans (hrest.trans (List.append_nil _).symm))
  rw [hdata, List.length_cons] at hlen
  have hback : ∀ k ≤ reader.left iov, IovecReader.At iov (reader'.backup (reader.left iov - k)) (pos + k) := by
    intro k hk
    have hat' := hat.back (show reader.left iov - k ≤ reader'.offset by omega)
    rwa [show pos + reader.left iov - (reader.left iov - k) = pos + k by omega] at hat'
  have hsecond : ∀ {reader : IovecReader}, IovecReader.At iov reader (pos + 1 + uint64Size msgType) →
      (IovecReader.methods iov).decodeUint 8 (uint64Size reqId) reader = none := by
    intro second hsecond
    have hplace := hsecond.avail_eq
    have hstart := h.1.avail_eq
    exact decodeUint_iovec_none hsecond hchunks hsize1 (by omega) hlast
  have hmethod : (IovecReader.methods iov).next reader = some (byte :: data, reader') := hdata ▸ hnext
  by_contra hsome
  obtain ⟨head, hparse⟩ := Option.ne_none_iff_exists'.mp hsome
  simp only [parseHead, hmethod, Option.bind_eq_bind, Option.bind_some, hlen0, hlen1, hlen] at hparse
  rw [if_neg (by omega)] at hparse
  split_ifs at hparse with hpart
  · obtain ⟨value, -, hparse⟩ := Option.bind_eq_some_iff.mp hparse
    have hnone := hsecond (Nat.add_assoc pos _ _ ▸ hback _ hpart)
    change (IovecReader.methods iov).decodeUint 8 (uint64Size reqId)
      ((IovecReader.methods iov).backup (reader.left iov - (1 + uint64Size msgType)) reader') = none at hnone
    rw [hnone] at hparse
    cases hparse
  · obtain ⟨⟨value, second⟩, hfirst, hparse⟩ := Option.bind_eq_some_iff.mp hparse
    have hat1 := hback 1 hpos
    have hplace := hat1.avail_eq
    have hstart := h.1.avail_eq
    have hrest1 := hat1.rest_length
    obtain ⟨second', last', hdecode, hat2, -⟩ := (IovecReader.lawful hchunks).decodeUint ⟨hat1, Nat.zero_le _⟩
      (fun hall => by omega) (Coding.uint64Size_le msgType) (by omega)
    obtain ⟨rfl, rfl⟩ := Prod.mk.inj (Option.some.inj (hfirst.symm.trans hdecode))
    have hnone := hsecond hat2
    simp only [hnone, Option.bind_none] at hparse
    cases hparse

/-- A whole head is parsed unless it is all that remains and the last chunk has not all of its second number. -/
theorem parses_iovec_iff (h : IovecReader.Place iov reader pos last) (hchunks : ∀ chunk ∈ iov, chunk ≠ [])
    (hm : msgType < 2 ^ 64) (hr : reqId < 2 ^ 64) {isReq : Bool} {payload : Bytes}
    (hrest : iov.flatten.drop pos = writeHead msgType reqId isReq ++ payload) :
    Parses (IovecReader.methods iov) (IovecReader.Place iov) reader pos msgType reqId isReq ↔
      (payload = [] → uint64Size reqId ≤ (iov.getLastD []).length) := by
  have hsize0 := (Coding.uint64Size_minimal hm).1
  have hsize1 := (Coding.uint64Size_minimal hr).1
  constructor
  · rintro ⟨head, self', last', hparse, -⟩ rfl
    by_contra hlast
    rw [List.append_nil] at hrest
    rw [parseHead_iovec_none h hchunks hm hr hrest (Nat.not_le.mp hlast)] at hparse
    cases hparse
  · intro hlast
    refine parses_writeHead (IovecReader.lawful hchunks) h hm hr hrest (fun hall => ?_) (fun hall => ⟨hsize1, hlast ?_⟩)
    · omega
    · exact List.eq_nil_of_length_eq_zero (by omega)

end RaleighSL.Zcl.Rpc
