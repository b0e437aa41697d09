import RaleighSL.Zcl.Map

/-!
# Messages on the wire

A message of `io/ipc/ipc-msg.c` is a head of eight bytes and its payload. The head has
the version, three bytes of the payload's size and a magic number, the lowest byte
first. A stream is read as one message after the other, up to the first head that is
not valid or the first message that is not complete.
-/
namespace RaleighSL.Zcl.Ipc

def msgbufVersion : Nat := 0
def msgbufMagic : Nat := 0xaacc33d5

structure Head where
  version : Nat
  size : Nat
  magic : Nat
  deriving DecidableEq, Repr

def byteAt (pbuf : Bytes) (i : Nat) : Nat := (pbuf.getD i 0).val

/-- The fields of a head, as `__msgbuf_parse_head` reads them. -/
def parseHead (pbuf : Bytes) : Head where
  version := byteAt pbuf 0
  size := byteAt pbuf 1 ||| byteAt pbuf 2 <<< 8 ||| byteAt pbuf 3 <<< 16
  magic := byteAt pbuf 4 ||| byteAt pbuf 5 <<< 8 ||| byteAt pbuf 6 <<< 16 ||| byteAt pbuf 7 <<< 24

/-- The check of `__msgbuf_parse_head`, for a ring buffer of `limit` bytes. -/
def Head.valid (limit : Nat) (h : Head) : Bool :=
  !(decide (h.version > msgbufVersion) || decide (h.magic ≠ msgbufMagic) || decide (8 + h.size > limit))

/-- `__msgbuf_build_head`. -/
def buildHead (version size : Nat) : Bytes :=
  [Fin.ofNat 256 (version &&& 0xff), Fin.ofNat 256 (size &&& 0xff), Fin.ofNat 256 (size >>> 8 &&& 0xff),
    Fin.ofNat 256 (size >>> 16 &&& 0xff), Fin.ofNat 256 (msgbufMagic &&& 0xff), Fin.ofNat 256 (msgbufMagic >>> 8 &&& 0xff),
    Fin.ofNat 256 (msgbufMagic >>> 16 &&& 0xff), Fin.ofNat 256 (msgbufMagic >>> 24 &&& 0xff)]

def message (version : Nat) (payload : Bytes) : Bytes := buildHead version payload.length ++ payload

def Complete (limit : Nat) (p : Bytes) : Prop :=
  8 ≤ p.length ∧ (parseHead p).valid limit = true ∧ 8 + (parseHead p).size ≤ p.length

instance (limit : Nat) (p : Bytes) : Decidable (Complete limit p) := inferInstanceAs (Decidable (_ ∧ _ ∧ _))

def payload (p : Bytes) : Bytes := (p.drop 8).take (parseHead p).size

def after (p : Bytes) : Bytes := p.drop (8 + (parseHead p).size)

/-- The payloads at the front of a stream, and what is left of it. -/
def scan (limit : Nat) : Nat → Bytes → List Bytes × Bytes
  | 0, p => ([], p)
  | fuel + 1, p =>
    if Complete limit p then (payload p :: (scan limit fuel (after p)).1, (scan limit fuel (after p)).2) else ([], p)

def frames (limit : Nat) (p : Bytes) : List Bytes := (scan limit p.length p).1

def remainder (limit : Nat) (p : Bytes) : Bytes := (scan limit p.length p).2

variable {limit : Nat} {p x : Bytes}

theorem length_after (h : Complete limit p) : (after p).length + 8 ≤ p.length := by
  obtain ⟨-, -, hlen⟩ := h
  rw [after, List.length_drop]
  omega

theorem scan_fuel {n m : Nat} (hn : p.length ≤ n) (hm : p.length ≤ m) : scan limit n p = scan limit m p := by
  induction n generalizing m p with
  | zero =>
    obtain rfl := List.length_eq_zero_iff.mp (Nat.le_zero.mp hn)
    cases m with
    | zero => rfl
    | succ m => simp [scan, Complete]
  | succ n ih =>
    cases m with
    | zero =>
      obtain rfl := List.length_eq_zero_iff.mp (Nat.le_zero.mp hm)
      simp [scan, Complete]
    | succ m =>
      rw [scan, scan]
      by_cases hc : Complete limit p
      · have hlen := length_after hc
        rw [if_pos hc, if_pos hc, ih (m := m) (by omega) (by omega)]
      · rw [if_neg hc, if_neg hc]

theorem scan_eq (limit : Nat) (p : Bytes) : scan limit p.length p = (frames limit p, remainder limit p) := rfl

theorem scan_complete (h : Complete limit p) :
    frames limit p = payload p :: frames limit (after p) ∧ remainder limit p = remainder limit (after p) := by
  have hlen := length_after h
  obtain ⟨n, hn⟩ : ∃ n, p.length = n + 1 := ⟨p.length - 1, by omega⟩
  have hrest : scan limit n (after p) = (frames limit (after p), remainder limit (after p)) := by
    rw [scan_fuel (m := (after p).length) (by omega) le_rfl, scan_eq]
  have hscan : scan limit p.length p = (payload p :: frames limit (after p), remainder limit (after p)) := by
    rw [hn, scan, if_pos h, hrest]
  rw [scan_eq] at hscan
  exact Prod.mk.inj hscan

theorem scan_incomplete (h : ¬ Complete limit p) : frames limit p = [] ∧ remainder limit p = p := by
  have hscan : scan limit p.length p = ([], p) := by
    cases p.length with
    | zero => rfl
    | succ n => rw [scan, if_neg h]
  rw [scan_eq] at hscan
  exact Prod.mk.inj hscan

theorem parseHead_append (h : 8 ≤ p.length) (x : Bytes) : parseHead (p ++ x) = parseHead p := by
  have hbyte (i : Nat) (hi : i < 8) : byteAt (p ++ x) i = byteAt p i := by
    rw [byteAt, byteAt, List.getD_eq_getElem?_getD, List.getD_eq_getElem?_getD, List.getElem?_append_left (by omega)]
  simp only [parseHead, hbyte 0 (by decide), hbyte 1 (by decide), hbyte 2 (by decide), hbyte 3 (by decide),
    hbyte 4 (by decide), hbyte 5 (by decide), hbyte 6 (by decide), hbyte 7 (by decide)]

theorem Complete.append (h : Complete limit p) (x : Bytes) :
    Complete limit (p ++ x) ∧ payload (p ++ x) = payload p ∧ after (p ++ x) = after p ++ x := by
  obtain ⟨hhead, hvalid, hlen⟩ := h
  have heq := parseHead_append hhead x
  refine ⟨⟨?_, ?_, ?_⟩, ?_, ?_⟩
  · rw [List.length_append]
    omega
  · rw [heq, hvalid]
  · rw [heq, List.length_append]
    omega
  · rw [payload, payload, heq, List.drop_append_of_le_length hhead, List.take_append_of_le_length]
    rw [List.length_drop]
    omega
  · rw [after, after, heq, List.drop_append_of_le_length hlen]

theorem scan_append (limit : Nat) (p x : Bytes) :
    frames limit (p ++ x) = frames limit p ++ frames limit (remainder limit p ++ x) ∧
      remainder limit (p ++ x) = remainder limit (remainder limit p ++ x) := by
  induction hn : p.length using Nat.strong_induction_on generalizing p with
  | _ n ih =>
    by_cases hc : Complete limit p
    · obtain ⟨hc', hpayload, hafter⟩ := hc.append x
      have hlen := length_after hc
      obtain ⟨hf, hr⟩ := scan_complete hc
      obtain ⟨hf', hr'⟩ := scan_complete hc'
      obtain ⟨ihf, ihr⟩ := ih (after p).length (by omega) (after p) rfl
      rw [hf', hr', hf, hr, hpayload, hafter, ihf, ihr]
      exact ⟨rfl, rfl⟩
    · obtain ⟨hf, hr⟩ := scan_incomplete hc
      rw [hf, hr]
      exact ⟨rfl, rfl⟩

theorem length_remainder_le (limit : Nat) (p : Bytes) : (remainder limit p).length ≤ p.length := by
  induction hn : p.length using Nat.strong_induction_on generalizing p with
  | _ n ih =>
    by_cases hc : Complete limit p
    · have hlen := length_after hc
      rw [(scan_complete hc).2]
      exact (ih (after p).length (by omega) (after p) rfl).trans (by omega)
    · rw [(scan_incomplete hc).2]
      exact hn.le

/-! ### Heads that were built -/

theorem byteAt_cons_zero (b : Byte) (l : Bytes) : byteAt (b :: l) 0 = b.val := rfl

theorem byteAt_cons_succ (b : Byte) (l : Bytes) (i : Nat) : byteAt (b :: l) (i + 1) = byteAt l i := rfl

/-- Three bytes put a number below 2^24 together again. -/
theorem join_bytes {n : Nat} (h : n < 2 ^ 24) : n % 256 ||| (n / 256 % 256) <<< 8 ||| (n / 65536 % 256) <<< 16 = n := by
  have hlow : n % 256 ||| (n / 256 % 256) <<< 8 = n % 65536 := by
    rw [Nat.or_comm, ← Nat.shiftLeft_add_eq_or_of_lt (Nat.mod_lt n (by decide)), Nat.shiftLeft_eq]
    omega
  rw [hlow, Nat.or_comm, ← Nat.shiftLeft_add_eq_or_of_lt (Nat.mod_lt n (by decide)), Nat.shiftLeft_eq]
  omega

/-- The head of a message has the size of its payload, as long as three bytes hold it. -/
theorem size_message {p : Bytes} (h : p.length < 2 ^ 24) (version : Nat) :
    (parseHead (message version p)).size = p.length := by
  have hand (x : Nat) : x &&& 255 = x % 256 := Nat.and_two_pow_sub_one_eq_mod x 8
  simp only [parseHead, message, buildHead, List.cons_append, byteAt_cons_succ, byteAt_cons_zero, Fin.val_ofNat, hand,
    Nat.mod_mod, Nat.shiftRight_eq_div_pow]
  exact join_bytes h

end RaleighSL.Zcl.Ipc
