import RaleighSL.Zcl.Rpc.Head
import RaleighSL.Client.Coding

/-!
# Heads of messages in the client

`raleigh-client/pyraleigh/raleigh/ipc_client.py` writes the heads of its requests and reads the heads
of its answers. Over any reader a head is parsed when it is whole; a truncated one is taken for a
head with numbers that are not set, and only a reader without bytes is an error.
-/
namespace RaleighSL.Client
open Zcl (Byte Bytes ReaderMethods IovecReader)
open Zcl.Coding (fetchBits)
open Zcl.Rpc (writeHead Rejects)

def encodeRpcHead (reqId msgType : Nat) : Bytes :=
  let lenA := uintBytes msgType
  let lenB := uintBytes reqId
  Fin.ofNat 256 ((lenA - 1) <<< 5 ||| (lenB - 1) <<< 2 ||| 1 <<< 1) :: (encodeUint lenA msgType ++ encodeUint lenB reqId)

/-- `_decode_rpc_head`, none for an index error: the id, the type and the rest of the data. -/
def decodeRpcHead : Bytes → Option (Nat × Nat × Bytes)
  | [] => none
  | byte :: data =>
    let lenA := 1 + fetchBits byte 3 5
    let lenB := 1 + fetchBits byte 3 2
    (decodeUint data lenA).bind (fun msgType =>
      (decodeUint (data.drop lenA) lenB).map (fun reqId => (reqId, msgType, data.drop (lenA + lenB))))

theorem encodeRpcHead_eq (reqId msgType : Nat) : encodeRpcHead reqId msgType = writeHead msgType reqId true := by
  have hle0 := Zcl.Coding.uint64Size_le msgType
  have hle1 := Zcl.Coding.uint64Size_le reqId
  rw [encodeRpcHead, uintBytes_eq, uintBytes_eq, encodeUint_eq hle0, encodeUint_eq hle1]
  rfl

theorem decodeRpcHead_writeHead {msgType reqId : Nat} (hm : msgType < 2 ^ 64) (hr : reqId < 2 ^ 64) (isReq : Bool)
    (payload : Bytes) : decodeRpcHead (writeHead msgType reqId isReq ++ payload) = some (reqId, msgType, payload) := by
  have hmin0 := Zcl.Coding.uint64Size_minimal hm
  have hmin1 := Zcl.Coding.uint64Size_minimal hr
  have hle0 := Zcl.Coding.uint64Size_le msgType
  have hle1 := Zcl.Coding.uint64Size_le reqId
  obtain ⟨hbits0, hbits1, -⟩ := Zcl.Rpc.headByte_bits ⟨Zcl.Coding.uint64Size msgType - 1, by omega⟩
    ⟨Zcl.Coding.uint64Size reqId - 1, by omega⟩ isReq _ rfl
  rw [writeHead, List.cons_append, decodeRpcHead, hbits0, hbits1, Nat.add_sub_cancel' hmin0.1, Nat.add_sub_cancel' hmin1.1,
    decodeUint_eq hle0, decodeUint_eq hle1, List.append_assoc, Zcl.Coding.decodeUint_encodeUint hmin0.2.1, Option.bind_some,
    List.drop_left' (Zcl.Coding.length_encodeUint _ _), Zcl.Coding.decodeUint_encodeUint hmin1.2.1, ← List.drop_drop,
    List.drop_left' (Zcl.Coding.length_encodeUint _ _), List.drop_left' (Zcl.Coding.length_encodeUint _ _)]
  rfl

/-- The head of a message and the bytes `w` at the place of a reader: a whole head is parsed, with the
reader at the payload, a part of it is an error, and the client uses the same bytes. -/
def HeadRead {σ : Type} (vtable : ReaderMethods σ) (At : σ → Nat → Nat → Prop) (self : σ) (pos : Nat) (w : Bytes)
    (msgType reqId : Nat) (isReq : Bool) : Prop :=
  (∀ payload, w = writeHead msgType reqId isReq ++ payload → Zcl.Rpc.Parses vtable At self pos msgType reqId isReq) ∧
  (∀ q, q ≠ [] → writeHead msgType reqId isReq = w ++ q → Rejects vtable self) ∧
  encodeRpcHead reqId msgType = writeHead msgType reqId true ∧
  ∀ payload, decodeRpcHead (writeHead msgType reqId isReq ++ payload) = some (reqId, msgType, payload)

/-- The bytes that remain are not a part of the head that has its first byte. -/
def NotTruncated (w : Bytes) (msgType reqId : Nat) (isReq : Bool) : Prop :=
  ∀ q, q ≠ [] → writeHead msgType reqId isReq = w ++ q → w = []

theorem notTruncated_of_length_le {w : Bytes} {msgType reqId : Nat} {isReq : Bool}
    (h : (writeHead msgType reqId isReq).length ≤ w.length) : NotTruncated w msgType reqId isReq := by
  intro q hq heq
  have hpos := List.length_pos_iff.mpr hq
  rw [heq, List.length_append] at h
  omega

variable {msgType reqId : Nat}

/-- A head is read as it should when it is parsed whole and no part of it has its first byte. -/
theorem headRead_iff {σ : Type} {vtable : ReaderMethods σ} {At : σ → Nat → Nat → Prop} {self : σ} {pos : Nat} {w : Bytes}
    (hm : msgType < 2 ^ 64) (hr : reqId < 2 ^ 64) {isReq : Bool} (hrejects : Rejects vtable self ↔ w = []) :
    HeadRead vtable At self pos w msgType reqId isReq ↔
      (∀ payload, w = writeHead msgType reqId isReq ++ payload → Zcl.Rpc.Parses vtable At self pos msgType reqId isReq) ∧
        NotTruncated w msgType reqId isReq := by
  rw [HeadRead, hrejects, NotTruncated]
  exact and_congr_right (fun _ => and_iff_left ⟨encodeRpcHead_eq reqId msgType, decodeRpcHead_writeHead hm hr isReq⟩)

/-- Through every reader that keeps the contract, a head is read as it should unless it is truncated after its first byte.
The iovec reader over chunks with bytes also loses a whole head that nothing follows when the last chunk has not all of
its second number. -/
theorem head_read_iff (hm : msgType < 2 ^ 64) (hr : reqId < 2 ^ 64) (isReq : Bool) :
    (∀ {σ : Type} {vtable : ReaderMethods σ} {s : Bytes} {At : σ → Nat → Nat → Prop} {self : σ} {pos last : Nat},
      vtable.Lawful s At (fun _ _ => True) → At self pos last →
      (HeadRead vtable At self pos (s.drop pos) msgType reqId isReq ↔ NotTruncated (s.drop pos) msgType reqId isReq)) ∧
    ∀ {iov : List Bytes} {reader : IovecReader} {pos last : Nat}, (∀ chunk ∈ iov, chunk ≠ []) →
      IovecReader.Place iov reader pos last →
      (HeadRead (IovecReader.methods iov) (IovecReader.Place iov) reader pos (iov.flatten.drop pos) msgType reqId isReq ↔
        NotTruncated (iov.flatten.drop pos) msgType reqId isReq ∧
          (iov.flatten.drop pos = writeHead msgType reqId isReq →
            Zcl.Coding.uint64Size reqId ≤ (iov.getLastD []).length)) := by
  constructor
  · intro σ vtable s At self pos last h hat
    rw [headRead_iff hm hr (Zcl.Rpc.rejects_iff h hat), and_iff_right_iff_imp]
    exact fun _ payload hrest => Zcl.Rpc.parses_writeHead h hat hm hr hrest trivial trivial
  · intro iov reader pos last hchunks hplace
    rw [headRead_iff hm hr (Zcl.Rpc.rejects_iff (IovecReader.lawful hchunks) hplace), and_comm]
    refine and_congr_right (fun _ => ?_)
    constructor
    · intro hparses hrest
      have hwhole := hrest.trans (List.append_nil _).symm
      exact (Zcl.Rpc.parses_iovec_iff hplace hchunks hm hr hwhole).mp (hparses [] hwhole) rfl
    · intro hlast payload hrest
      refine (Zcl.Rpc.parses_iovec_iff hplace hchunks hm hr hrest).mpr ?_
      rintro rfl
      exact hlast (hrest.trans (List.append_nil _))

/-- A head in two chunks with a payload, one in three chunks without, which has its second number in the last chunk, and
one that is cut in its second number, through the fallback for fetches. -/
theorem head_read_chunks :
    HeadRead (IovecReader.methods [[2, 5], [7, 9]]) (IovecReader.Place [[2, 5], [7, 9]])
        (IovecReader.opened [[2, 5], [7, 9]]) 0 [2, 5, 7, 9] 5 7 true ∧
      HeadRead (IovecReader.methods [[6], [5], [0, 1]]) (IovecReader.Place [[6], [5], [0, 1]])
        (IovecReader.opened [[6], [5], [0, 1]]) 0 [6, 5, 0, 1] 5 256 true ∧
      HeadRead { IovecReader.methods [[6], [5, 0], [1]] with fetch := none } (IovecReader.Place [[6], [5, 0], [1]])
        (IovecReader.opened [[6], [5, 0], [1]]) 0 [6, 5, 0, 1] 5 256 true := by
  refine ⟨?_, ?_, ?_⟩
  · exact ((head_read_iff (by decide) (by decide) true).2 (by decide) ⟨IovecReader.At.opened _, Nat.zero_le 0⟩).mpr
      ⟨notTruncated_of_length_le (by decide), by decide⟩
  · exact ((head_read_iff (by decide) (by decide) true).2 (by decide) ⟨IovecReader.At.opened _, Nat.zero_le 0⟩).mpr
      ⟨notTruncated_of_length_le (by decide), by decide⟩
  · exact ((head_read_iff (by decide) (by decide) true).1 (IovecReader.lawful_fallback (by decide))
      ⟨IovecReader.At.opened _, Nat.zero_le 0⟩).mpr (notTruncated_of_length_le (by decide))

/-- The first byte of a head alone is taken for a head without numbers. -/
theorem truncated_head_accepted :
    writeHead 5 7 true = [2] ++ [5, 7] ∧
      ¬ HeadRead (IovecReader.methods [[2]]) (IovecReader.Place [[2]]) (IovecReader.opened [[2]]) 0 [2] 5 7 true := by
  refine ⟨by decide, fun h => ?_⟩
  obtain ⟨self', hrejects⟩ := h.2.1 [5, 7] (by decide) (by decide)
  have hparse : Zcl.Rpc.parseHead (IovecReader.methods [[2]]) (IovecReader.opened [[2]]) =
      some (some { msgType := none, reqId := none, isReq := 2 }, { ivec := 0, offset := 1, avail := 0 }) := by decide
  rw [hparse] at hrejects
  cases hrejects

end RaleighSL.Client
