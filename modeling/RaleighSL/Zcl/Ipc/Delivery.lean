import RaleighSL.Zcl.Ipc.Input
import RaleighSL.Zcl.Ipc.Output

/-!
# From one end of a connection to the other

What one end pushes goes through its output buffer, the socket and the input buffer of the other end.
The sender flushes as much as the socket takes, the receiver reads as much as has arrived, and the two
of them do so in any order. The receiver is polled: it reads when there is something to read.
-/
namespace RaleighSL.Zcl.Ipc
open RaleighSL.Library

/-- The two ends, with the bytes that are on their way in the `stream` of the receiver. -/
structure Link where
  sender : Sender
  receiver : Connection

inductive LinkOp where
  | push (data : Bytes) (memory : Bool)
  | flush (room : Option Nat)
  | fetch (more : Nat)
  deriving DecidableEq, Repr

namespace Link

/-- After `z_ipc_msgbuf_open` on both ends. -/
def init (isize : Nat) (memory : Nat → Byte) : Link := ⟨.init 0, .init isize memory []⟩

/-- The bytes that were accepted for a sender are on their way. -/
def send (l : Link) (s : Sender) : Link :=
  ⟨s, { l.receiver with stream := l.receiver.stream ++ s.sent.drop l.sender.sent.length }⟩

def step (fails : Nat → Bool) (l : Link) : LinkOp → Option (Link × Int)
  | .push data memory => (l.sender.step (.push data memory)).map (fun r => (l.send r.1, r.2))
  | .flush room => (l.sender.step (.flush room)).map (fun r => (l.send r.1, r.2))
  | .fetch more =>
    if l.receiver.stream = [] then some (l, 0)
    else (read fails l.receiver more).map (fun r => (⟨l.sender, r.1⟩, r.2))

end Link

/-- A payload that fits the buffer of the receiver, a write that is not cut inside a message, or a read that
does not fill the buffer. -/
def LinkOk (limit : Nat) (l : Link) : LinkOp → Prop
  | .push data memory => SendOk l.sender (.push data memory) ∧ 8 + data.length ≤ limit
  | .flush room => SendOk l.sender (.flush room)
  | .fetch more => l.receiver.isOpen = true → (pending l.receiver more).length < limit

instance (limit : Nat) (l : Link) : (op : LinkOp) → Decidable (LinkOk limit l op)
  | .push _ _ => inferInstanceAs (Decidable (_ ∧ _))
  | .flush room => inferInstanceAs (Decidable (SendOk l.sender (.flush room)))
  | .fetch _ => inferInstanceAs (Decidable (_ → _))

/-! ### Messages that have arrived in part -/

variable {limit : Nat} {data got p : Bytes} {msgs : List Bytes}

theorem valid_message (hsize : data.length < 2 ^ 24) (hfits : 8 + data.length ≤ limit) :
    (parseHead (message 0 data)).valid limit = true := by
  have hversion : (parseHead (message 0 data)).version = 0 := rfl
  have hmagic : (parseHead (message 0 data)).magic = msgbufMagic := by
    simp only [parseHead, message, buildHead, List.cons_append, byteAt_cons_succ, byteAt_cons_zero]
    rfl
  rw [Head.valid, hversion, hmagic, size_message hsize 0]
  simp [msgbufVersion, hfits]

/-- A message and what follows it. -/
theorem complete_message (hsize : data.length < 2 ^ 24) (hfits : 8 + data.length ≤ limit) (rest : Bytes) :
    Complete limit (message 0 data ++ rest) ∧ payload (message 0 data ++ rest) = data ∧ after (message 0 data ++ rest) = rest := by
  have hcomplete : Complete limit (message 0 data) :=
    ⟨by rw [length_message]; omega, valid_message hsize hfits, by rw [size_message hsize, length_message]⟩
  obtain ⟨hc, hpayload, hafter⟩ := hcomplete.append rest
  refine ⟨hc, hpayload.trans ?_, hafter.trans ?_⟩
  · rw [payload, size_message hsize]
    exact List.take_length
  · rw [after, size_message hsize, ← length_message 0 data, List.drop_length, List.nil_append]

/-- A message that has not arrived to its end. -/
theorem not_complete_part (hsize : data.length < 2 ^ 24) (hfits : 8 + data.length ≤ limit) (hpart : p <+: message 0 data)
    (hlen : p.length < (message 0 data).length) :
    ¬ Complete limit p ∧ (8 ≤ p.length → (parseHead p).valid limit = true) := by
  obtain ⟨rest, hrest⟩ := hpart
  have hhead (h : 8 ≤ p.length) : parseHead p = parseHead (message 0 data) := by
    rw [← hrest]
    exact (parseHead_append h rest).symm
  refine ⟨fun hc => ?_, fun h => ?_⟩
  · obtain ⟨h, -, hwhole⟩ := hc
    rw [hhead h, size_message hsize] at hwhole
    rw [length_message] at hlen
    omega
  · rw [hhead h]
    exact valid_message hsize hfits

/-- Of messages that have arrived in part the first ones are there, and what is left of the next one has a valid
head as soon as it has a whole one. -/
theorem frames_wire (hmsgs : ∀ data ∈ msgs, data.length < 2 ^ 24 ∧ 8 + data.length ≤ limit) (hgot : got <+: wire 0 msgs) :
    frames limit got <+: msgs ∧ (8 ≤ (remainder limit got).length → (parseHead (remainder limit got)).valid limit = true) ∧
      (got = wire 0 msgs → frames limit got = msgs) := by
  induction msgs generalizing got with
  | nil =>
    obtain rfl := List.prefix_nil.mp hgot
    exact ⟨List.nil_prefix, fun h => absurd (show 8 ≤ 0 from h) (by decide), fun _ => rfl⟩
  | cons data msgs ih =>
    obtain ⟨⟨hsize, hfits⟩, hrest⟩ := List.forall_mem_cons.mp hmsgs
    rw [wire_cons] at hgot
    by_cases hlen : (message 0 data).length ≤ got.length
    · obtain ⟨new, rfl⟩ : message 0 data <+: got := List.prefix_of_prefix_length_le (List.prefix_append _ _) hgot hlen
      obtain ⟨hc, hpayload, hafter⟩ := complete_message hsize hfits new
      obtain ⟨hframes, hremainder⟩ := scan_complete hc
      rw [hframes, hremainder, hpayload, hafter]
      obtain ⟨hpart, hvalid, hall⟩ := ih hrest ((List.prefix_append_right_inj _).mp hgot)
      refine ⟨List.cons_prefix_cons.mpr ⟨rfl, hpart⟩, hvalid, fun heq => ?_⟩
      rw [hall (List.append_cancel_left heq)]
    · have hpart : got <+: message 0 data :=
        List.prefix_of_prefix_length_le hgot (List.prefix_append _ _) (Nat.le_of_not_le hlen)
      obtain ⟨hc, hvalid⟩ := not_complete_part hsize hfits hpart (Nat.lt_of_not_le hlen)
      obtain ⟨hframes, hremainder⟩ := scan_incomplete hc
      rw [hframes, hremainder]
      refine ⟨List.nil_prefix, hvalid, fun heq => ?_⟩
      rw [heq, wire_cons, List.length_append] at hlen
      omega

/-! ### The sender -/

/-- What a sender has written stays, and it has new messages only from a push. -/
theorem sender_step {s s' : Sender} {op : SendOp} {e : Int} (hs : s.step op = some (s', e)) :
    s.sent <+: s'.sent ∧ ∀ data ∈ s'.pushed, data ∈ s.pushed ∨ ∃ memory, op = .push data memory := by
  cases op with
  | push data memory =>
    obtain ⟨rfl, rfl⟩ := Prod.mk.inj (Option.some.inj hs)
    refine ⟨List.prefix_refl _, fun d hd => ?_⟩
    dsimp only at hd
    split_ifs at hd with hzero
    · rcases List.mem_append.mp hd with hold | hnew
      · exact .inl hold
      · exact .inr ⟨memory, by rw [List.mem_singleton.mp hnew]⟩
    · exact .inl hd
  | flush room =>
    obtain ⟨r, -, hr⟩ := Option.map_eq_some_iff.mp hs
    obtain ⟨rfl, rfl⟩ := Prod.mk.inj hr
    exact ⟨List.prefix_append _ _, fun d hd => .inl hd⟩

/-! ### One read -/

variable {fails : Nat → Bool} {c : Connection} {more : Nat} {l l' : Link}

/-- A read of what has arrived in part or in whole. -/
theorem read_outcome (hopen : c.isOpen = true) (hstores : RingBuf.Stores c.msgbuf.ibuffer p)
    (hsize : c.msgbuf.ibuffer.size = limit) (hlt : p.length < limit) (hne : c.stream ≠ [])
    (hroom : (pending c more).length < limit) (hmis : ∀ new, new <+: c.stream → ¬ Misleading limit (remainder limit (p ++ new))) :
    ∃ new rest r, c.stream = new ++ rest ∧ (p ++ new).length < limit ∧ Outcome fails limit (p ++ new) c.delivered r ∧
      read fails c more = some (⟨r.1, rest, r.2.2, decide (0 ≤ r.2.1)⟩, r.2.1) := by
  rw [pending_eq hstores (by omega), hsize] at hroom
  obtain ⟨b, hfetch, hstores', hsize'⟩ := hstores.fdFetch (by omega) (arrived c more)
  rw [hsize] at hfetch hstores' hsize'
  have hstream := arrived_append c more (limit - p.length)
  have hnew : (arrived c more).take (limit - p.length) ≠ [] := by
    rw [arrived, List.take_take, Ne, List.take_eq_nil_iff, not_or]
    exact ⟨by omega, hne⟩
  generalize (arrived c more).take (limit - p.length) = new at hroom hfetch hstores' hstream hnew
  have hpos : 0 < new.length := List.length_pos_iff.mpr hnew
  obtain ⟨r, hr, hout⟩ : ∃ r, fetchLoop fails (b.size + 1) { c.msgbuf with ibuffer := b } (p ++ new).length c.delivered = some r ∧
      Outcome fails limit (p ++ new) c.delivered r :=
    fetchLoop_outcome hstores' hsize' hroom (by rw [hsize']; omega) fun _ => hmis new ⟨_, hstream⟩
  refine ⟨new, c.stream.drop new.length, r, hstream.symm, hroom, hout, ?_⟩
  rw [Ipc.read, if_pos hopen, fetch, hfetch]
  dsimp only
  rw [if_neg (by omega), hstores'.used (by rw [hsize']; exact hroom), hr, Option.map_some]
  rfl

/-! ### Runs -/

/-- The bytes `got` have been read, and the others that were accepted are on their way. -/
structure Carried (fails : Nat → Bool) (limit : Nat) (l : Link) (got : Bytes) : Prop where
  sending : Sending 0 l.sender
  fits : ∀ data ∈ l.sender.pushed, 8 + data.length ≤ limit
  way : got ++ l.receiver.stream = l.sender.sent
  inOrder : l.receiver.delivered <+: frames limit got
  live : l.receiver.isOpen = true → l.receiver.delivered = frames limit got ∧
    RingBuf.Stores l.receiver.msgbuf.ibuffer (remainder limit got) ∧ l.receiver.msgbuf.ibuffer.size = limit ∧
    (remainder limit got).length < limit
  closed : l.receiver.isOpen = false → ∃ i < l.receiver.delivered.length, fails i = true

namespace Carried

/-- The messages that have been read are the first ones that were accepted, and what is left of the next one is fine. -/
theorem frames (h : Carried fails limit l got) {new rest : Bytes} (hnew : l.receiver.stream = new ++ rest) :
    frames limit (got ++ new) <+: l.sender.pushed.take (l.sender.pushed.length - l.sender.obuffer.mCount) ∧
      (8 ≤ (remainder limit (got ++ new)).length → (parseHead (remainder limit (got ++ new))).valid limit = true) ∧
      (rest = [] → Ipc.frames limit (got ++ new) = l.sender.pushed.take (l.sender.pushed.length - l.sender.obuffer.mCount)) := by
  have hway : got ++ new ++ rest = wire 0 (l.sender.pushed.take (l.sender.pushed.length - l.sender.obuffer.mCount)) := by
    rw [← h.sending.sent, ← h.way, hnew, List.append_assoc]
  have hsizes : ∀ data ∈ l.sender.pushed.take (l.sender.pushed.length - l.sender.obuffer.mCount),
      data.length < 2 ^ 24 ∧ 8 + data.length ≤ limit := fun data hdata =>
    ⟨h.sending.sizes data (List.mem_of_mem_take hdata), h.fits data (List.mem_of_mem_take hdata)⟩
  obtain ⟨hpart, hvalid, hall⟩ := frames_wire hsizes (⟨rest, hway⟩ : got ++ new <+: _)
  refine ⟨hpart, hvalid, fun hnil => hall ?_⟩
  rw [← hway, hnil, List.append_nil]

/-- The sender has done something, and what it has written is on its way. -/
theorem send (h : Carried fails limit l got) {s : Sender} (hs : Sending 0 s) (hsent : l.sender.sent <+: s.sent)
    (hfits : ∀ data ∈ s.pushed, 8 + data.length ≤ limit) : Carried fails limit (l.send s) got where
  sending := hs
  fits := hfits
  way := by
    obtain ⟨new, hnew⟩ := hsent
    show got ++ (l.receiver.stream ++ s.sent.drop l.sender.sent.length) = s.sent
    rw [← hnew, List.drop_left, ← List.append_assoc, h.way]
  inOrder := h.inOrder
  live := h.live
  closed := h.closed

theorem fetch (h : Carried fails limit l got) (hne : l.receiver.stream ≠ [])
    (hroom : l.receiver.isOpen = true → (pending l.receiver more).length < limit) :
    ∃ c e got', read fails l.receiver more = some (c, e) ∧ Carried fails limit ⟨l.sender, c⟩ got' := by
  by_cases hopen : l.receiver.isOpen = true
  · obtain ⟨hdelivered, hstores, hsize, hlt⟩ := h.live hopen
    have hmis (new : Bytes) (hnew : new <+: l.receiver.stream) : ¬ Misleading limit (remainder limit (remainder limit got ++ new)) := by
      obtain ⟨rest, hrest⟩ := hnew
      rintro ⟨hhead, hinvalid, -⟩
      rw [← (scan_append limit got new).2] at hhead hinvalid
      rw [(h.frames hrest.symm).2.1 hhead] at hinvalid
      cases hinvalid
    obtain ⟨new, rest, r, hstream, hless, hout, hread⟩ := read_outcome hopen hstores hsize hlt hne (hroom hopen) hmis
    obtain ⟨hframes, hremainder⟩ := scan_append limit got new
    obtain ⟨-, hvalid, -⟩ := h.frames hstream
    have hway : got ++ new ++ rest = l.sender.sent := by rw [← h.way, hstream, List.append_assoc]
    refine ⟨_, _, got ++ new, hread, ?_⟩
    cases hout with
    | all m' res hparse hstores' hsize' hres =>
      have hfine : 0 ≤ res := by
        by_contra hneg
        obtain ⟨hhead, hinvalid⟩ := hres (not_le.mp hneg)
        rw [← hremainder] at hhead hinvalid
        rw [hvalid hhead] at hinvalid
        cases hinvalid
      have hall : l.receiver.delivered ++ Ipc.frames limit (remainder limit got ++ new) = Ipc.frames limit (got ++ new) := by
        rw [hdelivered, hframes]
      have hless' : (remainder limit (got ++ new)).length < limit := by
        rw [hremainder]
        exact lt_of_le_of_lt (length_remainder_le limit _) hless
      rw [← hremainder] at hstores'
      exact {
        sending := h.sending
        fits := h.fits
        way := hway
        inOrder := hall ▸ List.prefix_refl _
        live := fun _ => ⟨hall, hstores', hsize', hless'⟩
        closed := fun hclosed => absurd hfine (of_decide_eq_false hclosed) }
    | failed m' i hi hfails =>
      exact {
        sending := h.sending
        fits := h.fits
        way := hway
        inOrder := by
          rw [hframes, ← hdelivered]
          exact (List.prefix_append_right_inj _).mpr (List.take_prefix _ _)
        live := fun hopen' => absurd (show decide ((0 : Int) ≤ -3) = true from hopen') (by decide)
        closed := fun _ => ⟨_, by rw [List.length_append, List.length_take]; omega, hfails⟩ }
  · refine ⟨l.receiver, -1, got, by rw [read, if_neg hopen], h⟩

theorem step (h : Carried fails limit l got) {op : LinkOp} (hok : LinkOk limit l op) :
    ∃ l' e got', l.step fails op = some (l', e) ∧ Carried fails limit l' got' := by
  cases op with
  | push data memory =>
    obtain ⟨s, e, hs, hsending⟩ := h.sending.step hok.1
    obtain ⟨hsent, hpushed⟩ := sender_step hs
    refine ⟨l.send s, e, got, by rw [Link.step, hs, Option.map_some], h.send hsending hsent fun d hd => ?_⟩
    rcases hpushed d hd with hold | ⟨memory', hop⟩
    · exact h.fits d hold
    · obtain ⟨rfl, -⟩ := SendOp.push.inj hop
      exact hok.2
  | flush room =>
    have hflush : SendOk l.sender (.flush room) := hok
    obtain ⟨s, e, hs, hsending⟩ := h.sending.step hflush
    obtain ⟨hsent, hpushed⟩ := sender_step hs
    refine ⟨l.send s, e, got, by rw [Link.step, hs, Option.map_some], h.send hsending hsent fun d hd => ?_⟩
    rcases hpushed d hd with hold | ⟨memory', hop⟩
    · exact h.fits d hold
    · cases hop
  | fetch more =>
    rw [Link.step]
    by_cases hempty : l.receiver.stream = []
    · exact ⟨l, 0, got, if_pos hempty, h⟩
    · obtain ⟨c, e, got', hc, h'⟩ := h.fetch hempty hok
      exact ⟨⟨l.sender, c⟩, e, got', by rw [if_neg hempty, hc, Option.map_some], h'⟩

end Carried

/-- Two messages, of which the first one is read in two pieces. -/
def twoMessages : List LinkOp :=
  [.push [1, 2, 3] true, .push [4] true, .flush (some 11), .fetch 4, .flush (some 100), .fetch 2, .fetch 20]

end RaleighSL.Zcl.Ipc
