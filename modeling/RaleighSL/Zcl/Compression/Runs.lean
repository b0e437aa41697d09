import RaleighSL.Zcl.Compression.Blocks

/-!
# Runs of the compressor

Data are added and blocks are written. A block that finds no room is lost with all that was in
the buffer, and the loop over the chunks of a vector does not end with its array. In a run
without these steps the blocks have exactly the data that were accepted.
-/
namespace RaleighSL.Zcl.Compression
open Library (Meets exec exec_traced exec_cons length_of_exec)
open Coding (encodeVint vintSize)

/-- Data with a size of 32 bits. -/
abbrev Data := { data : Bytes // data.length < 2 ^ 32 }

inductive Call
  | add (data : Data)
  | addv (iov : List Data)
  | flush
  deriving DecidableEq

def chunks (iov : List Data) : List Bytes := iov.map Subtype.val

def Call.data : Call → Bytes
  | .add data => data.val
  | .addv iov => (chunks iov).flatten
  | .flush => []

def step (codec : Codec) (s : Compressor) : Call → Option (Compressor × Nat)
  | .add data => s.add codec data.val
  | .addv iov => s.addv codec (chunks iov)
  | .flush => s.flush codec

/-- The same with the chunks of a vector as one. -/
def stepJoined (codec : Codec) (s : Compressor) : Call → Option (Compressor × Nat)
  | .add data => s.add codec data.val
  | .addv iov => s.add codec (chunks iov).flatten
  | .flush => s.flush codec

def accepted (trace : List (Call × Nat)) : Bytes := trace.flatMap (fun r => if r.2 = 0 then r.1.data else [])

/-- The test for too little room in the destination. -/
def Low (s : Compressor) (size : Nat) : Prop := s.dstAvail < s.buffer.length + size + safetyThreshold size

instance (s : Compressor) (size : Nat) : Decidable (Low s size) := by
  unfold Low
  infer_instance

/-- An emergency finds no bytes in the buffer. -/
def Idle (s : Compressor) (size : Nat) : Prop := Low s size ∧ s.buffer = []

instance (s : Compressor) (size : Nat) : Decidable (Idle s size) := inferInstanceAs (Decidable (_ ∧ _))

/-- There is room for the block of an emergency. -/
def Emergency (codec : Codec) (s : Compressor) (size : Nat) : Prop := Low s size → Writes codec s.dstAvail s.buffer

instance (codec : Codec) (s : Compressor) (size : Nat) : Decidable (Emergency codec s size) :=
  inferInstanceAs (Decidable (_ → _))

/-- The compressor behind the block of an emergency. -/
def Compressor.afterEmergency (s : Compressor) (codec : Codec) (size : Nat) : Compressor :=
  if Low s size then s.wrote codec s.buffer else s

/-- The call is refused behind the block of an emergency. -/
def Short (codec : Codec) (s : Compressor) (size : Nat) : Prop :=
  Low s size ∧ (s.afterEmergency codec size).dstAvail < vintSize size

instance (codec : Codec) (s : Compressor) (size : Nat) : Decidable (Short codec s size) :=
  inferInstanceAs (Decidable (_ ∧ _))

/-- The call is refused because the codec makes nothing of no bytes, or behind the block of an emergency. -/
def Rejected (codec : Codec) (s : Compressor) (size : Nat) : Prop :=
  if Idle s size then Refuses codec s.dstAvail [] else Emergency codec s size ∧ Short codec s size

instance (codec : Codec) (s : Compressor) (size : Nat) : Decidable (Rejected codec s size) := by
  unfold Rejected
  infer_instance

/-- The first block of a call has room for its size and not for its bytes. -/
def Refused (codec : Codec) (avail : Nat) : List Bytes → Prop
  | [] => False
  | block :: _ => Refuses codec avail block

instance (codec : Codec) (avail : Nat) : (blocks : List Bytes) → Decidable (Refused codec avail blocks)
  | [] => inferInstanceAs (Decidable False)
  | _ :: _ => inferInstanceAs (Decidable (Refuses codec avail _))

/-- A call is refused before its data are added. Or no empty block is written for an emergency, and the blocks that
are written have room, or the first one has not and no byte waits in the buffer. A vector is refused before its
chunks are added. -/
def Proceeds (codec : Codec) (s : Compressor) : Call → Prop
  | .add data =>
    Rejected codec s data.val.length ∨ ¬ Idle s data.val.length ∧ Emergency codec s data.val.length ∧
      let s' := s.afterEmergency codec data.val.length
      let blocks := (split s'.bufsize s'.buffer data.val).1
      ¬ Short codec s data.val.length ∧
        (Room codec s'.dstAvail blocks ∨ s'.buffer = [] ∧ Refused codec s'.dstAvail blocks)
  | .addv iov => (chunks iov).flatten.length < 2 ^ 32 ∧ Rejected codec s (chunks iov).flatten.length
  | .flush => s.buffer = [] ∨ Takes codec s.dstAvail s.buffer

instance (codec : Codec) (s : Compressor) : (call : Call) → Decidable (Proceeds codec s call)
  | .add _ => inferInstanceAs (Decidable (_ ∨ _ ∧ _ ∧ _ ∧ (_ ∨ _ ∧ _)))
  | .addv _ => inferInstanceAs (Decidable (_ ∧ _))
  | .flush => inferInstanceAs (Decidable (_ ∨ _))

/-- The blocks of the destination with the bytes in the buffer are the data, and the sizes are those of the memory. -/
structure Holds (codec : Codec) (bufsize dstSize : Nat) (s : Compressor) (data : Bytes) : Prop where
  content : ∃ blocks, Stream codec s.dst blocks ∧ blocks.flatten ++ s.buffer = data
  dst_size : s.dst.length + s.dstAvail = dstSize
  bufsize_eq : s.bufsize = bufsize
  buffer_le : s.buffer.length ≤ bufsize

variable {codec : Codec} {bufsize dstSize size : Nat} {s : Compressor} {data held : Bytes}

theorem holds_init (codec : Codec) (bufsize dstSize : Nat) : Holds codec bufsize dstSize (init bufsize dstSize) [] where
  content := ⟨[], .nil, rfl⟩
  dst_size := Nat.zero_add dstSize
  bufsize_eq := rfl
  buffer_le := Nat.zero_le bufsize

theorem Holds.wrote (h : Holds codec bufsize dstSize s held) (hbufsize : bufsize < 2 ^ 32)
    (htakes : Takes codec s.dstAvail s.buffer) : Holds codec bufsize dstSize (s.wrote codec s.buffer) held := by
  obtain ⟨blocks, hstream, hcontent⟩ := h.content
  have hlen : s.buffer.length < 2 ^ 32 := Nat.lt_of_le_of_lt h.buffer_le hbufsize
  have hle := length_frame_le htakes.2
  refine ⟨⟨_, hstream.concat htakes hlen, ?_⟩, ?_, h.bufsize_eq, Nat.zero_le _⟩
  · rw [← hcontent]
    simp [Compressor.wrote]
  · rw [← h.dst_size]
    simp only [Compressor.wrote, List.length_append]
    omega

theorem Holds.afterEmergency (h : Holds codec bufsize dstSize s held) (hbufsize : bufsize < 2 ^ 32)
    (hidle : ¬ Idle s size) (hemergency : Emergency codec s size) :
    Holds codec bufsize dstSize (s.afterEmergency codec size) held := by
  unfold Compressor.afterEmergency
  split
  · rename_i hlow
    exact h.wrote hbufsize ⟨fun hnil => hidle ⟨hlow, hnil⟩, hemergency hlow⟩
  · exact h

theorem Holds.cleared (h : Holds codec bufsize dstSize s held) (hnil : s.buffer = []) :
    Holds codec bufsize dstSize s.cleared held := by
  obtain ⟨blocks, hstream, hcontent⟩ := h.content
  rw [hnil] at hcontent
  exact ⟨⟨blocks, hstream, hcontent⟩, h.dst_size, h.bufsize_eq, Nat.zero_le _⟩

theorem emergencyFlush_eq (h : Emergency codec s size) :
    s.emergencyFlush codec size = some (s.afterEmergency codec size, if Short codec s size then 2 else 0) := by
  rw [Compressor.emergencyFlush]
  by_cases hlow : Low s size
  · have hafter : s.afterEmergency codec size = s.wrote codec s.buffer := if_pos hlow
    rw [if_pos (show s.dstAvail < s.buffer.length + size + safetyThreshold size from hlow),
      flushBuffer_of_writes (h hlow)]
    simp only [Short, hlow, true_and, hafter]
    split <;> rfl
  · have hafter : s.afterEmergency codec size = s := if_neg hlow
    rw [if_neg (show ¬ s.dstAvail < s.buffer.length + size + safetyThreshold size from hlow), hafter,
      if_neg (fun hshort => hlow hshort.1)]

/-- A call that is rejected writes at most the block of an emergency. -/
theorem emergencyFlush_of_rejected (h : Rejected codec s size) :
    ∃ s' r, s.emergencyFlush codec size = some (s', r + 1) ∧
      (Idle s size ∧ s' = s.cleared ∨ ¬ Idle s size ∧ Emergency codec s size ∧ s' = s.afterEmergency codec size) := by
  rw [Rejected] at h
  split_ifs at h with hidle
  · refine ⟨s.cleared, 0, ?_, .inl ⟨hidle, rfl⟩⟩
    rw [Compressor.emergencyFlush,
      if_pos (show s.dstAvail < s.buffer.length + size + safetyThreshold size from hidle.1), hidle.2,
      flushBuffer_of_refuses h]
  · refine ⟨s.afterEmergency codec size, 1, ?_, .inr ⟨hidle, h.1, rfl⟩⟩
    rw [emergencyFlush_eq h.1, if_pos h.2]

theorem Holds.rejected (h : Holds codec bufsize dstSize s held) (hbufsize : bufsize < 2 ^ 32)
    (hrejected : Rejected codec s size) :
    ∃ s' r, s.emergencyFlush codec size = some (s', r + 1) ∧ Holds codec bufsize dstSize s' held := by
  obtain ⟨s', r, hflush, hcases⟩ := emergencyFlush_of_rejected hrejected
  refine ⟨s', r, hflush, ?_⟩
  rcases hcases with ⟨hidle, rfl⟩ | ⟨hidle, hemergency, rfl⟩
  · exact h.cleared hidle.2
  · exact h.afterEmergency hbufsize hidle hemergency

/-- Bytes that are added to the buffer where all the blocks have room. -/
theorem Holds.addBuffer (h : Holds codec bufsize dstSize s held) (hbufsize : bufsize < 2 ^ 32) (hdata : data.length < 2 ^ 32)
    (hroom : Room codec s.dstAvail (split s.bufsize s.buffer data).1) :
    ∃ s', s.addBuffer codec data = some (s', 0) ∧ Holds codec bufsize dstSize s' (held ++ data) := by
  have hbuffer : s.buffer.length ≤ s.bufsize := h.bufsize_eq ▸ h.buffer_le
  refine ⟨_, addBuffer_of_room hbuffer hroom, ?_⟩
  obtain ⟨blocks, hstream, hcontent⟩ := h.content
  have hlens : ∀ block ∈ (split s.bufsize s.buffer data).1, block.length < 2 ^ 32 := by
    intro block hblock
    have hle := length_split_le block hblock
    rw [h.bufsize_eq] at hle
    omega
  obtain ⟨hall, hsize, hkept⟩ := wroteAll_spec hstream hroom hlens
  refine ⟨⟨_, hall, ?_⟩, hsize.trans h.dst_size, hkept.trans h.bufsize_eq, ?_⟩
  · rw [← hcontent, List.flatten_append, List.append_assoc, List.append_assoc, split_flatten]
  · rw [← h.bufsize_eq]
    exact Nat.le_of_lt (length_split_rest hbuffer (ne_nil_of_room hroom))

/-- A first block that is refused leaves the compressor without bytes in the buffer. -/
theorem addBuffer_of_refused (hbuffer : s.buffer = []) (h : Refused codec s.dstAvail (split s.bufsize s.buffer data).1) :
    s.addBuffer codec data = some (s.cleared, 2) := by
  rw [split, if_pos hbuffer, direct] at h
  rw [Compressor.addBuffer, if_neg (not_not.mpr hbuffer), Compressor.addDirect]
  by_cases hle : s.bufsize ≤ data.length
  · have hflush : s.flushBuffer codec (data.take (alignDown data.length s.bufsize)) = some (s.cleared, false) := by
      refine flushBuffer_of_refuses ?_
      rw [if_pos hle] at h
      split_ifs at h with htake
      · rw [htake]
        exact h
      · exact h
    rw [if_pos hle]
    split
    · rename_i heq
      rw [hflush] at heq
      cases heq
    · rename_i self' heq
      rw [hflush] at heq
      obtain rfl := (Prod.mk.inj (Option.some.inj heq)).1
      rfl
    · rename_i self' heq
      rw [hflush] at heq
      cases heq
  · rw [if_neg hle] at h
    exact h.elim

theorem Holds.add (h : Holds codec bufsize dstSize s held) (hbufsize : bufsize < 2 ^ 32) (data : Data)
    (hproceeds : Proceeds codec s (.add data)) :
    ∃ s' r, s.add codec data.val = some (s', r) ∧
      Holds codec bufsize dstSize s' (held ++ if r = 0 then data.val else []) := by
  rw [Compressor.add]
  rcases hproceeds with hrejected | ⟨hidle, hemergency, hshort, hroom | ⟨hbuffer, hrefused⟩⟩
  · obtain ⟨s', r, hflush, hs'⟩ := h.rejected hbufsize hrejected
    refine ⟨s', 1, by rw [hflush]; rfl, ?_⟩
    rw [if_neg (by decide), List.append_nil]
    exact hs'
  · rw [emergencyFlush_eq hemergency, if_neg hshort]
    obtain ⟨s', hadd, hs'⟩ :=
      (h.afterEmergency hbufsize hidle hemergency).addBuffer hbufsize data.property hroom
    exact ⟨s', 0, hadd, hs'⟩
  · rw [emergencyFlush_eq hemergency, if_neg hshort]
    refine ⟨_, 2, addBuffer_of_refused hbuffer hrefused, ?_⟩
    rw [if_neg (by decide), List.append_nil]
    exact (h.afterEmergency hbufsize hidle hemergency).cleared hbuffer

theorem Holds.flush (h : Holds codec bufsize dstSize s held) (hbufsize : bufsize < 2 ^ 32)
    (hproceeds : Proceeds codec s .flush) :
    ∃ s' r, s.flush codec = some (s', r) ∧ s'.buffer = [] ∧ Holds codec bufsize dstSize s' held := by
  rw [Compressor.flush]
  by_cases hnil : s.buffer = []
  · rw [if_pos hnil]
    exact ⟨s, 0, rfl, hnil, h⟩
  · have htakes := hproceeds.resolve_left hnil
    rw [if_neg hnil, flushBuffer_of_writes htakes.2]
    exact ⟨_, 1, rfl, rfl, h.wrote hbufsize htakes⟩

/-- A step keeps what is held, and adds the data of a call that returns 0. -/
theorem Holds.step (h : Holds codec bufsize dstSize s held) (hbufsize : bufsize < 2 ^ 32) (call : Call)
    (hproceeds : Proceeds codec s call) :
    ∃ s' r, step codec s call = some (s', r) ∧ (call = .flush → s'.buffer = []) ∧
      Holds codec bufsize dstSize s' (held ++ if r = 0 then call.data else []) := by
  cases call with
  | add data =>
    obtain ⟨s', r, hstep, hs'⟩ := h.add hbufsize data hproceeds
    exact ⟨s', r, hstep, fun heq => (by cases heq), hs'⟩
  | addv iov =>
    obtain ⟨hlen, hrejected⟩ := hproceeds
    obtain ⟨s', r, hflush, hs'⟩ := h.rejected hbufsize hrejected
    refine ⟨s', 1, ?_, fun heq => (by cases heq), ?_⟩
    · rw [Compression.step, Compressor.addv, Nat.mod_eq_of_lt hlen, hflush]
      rfl
    · rw [if_neg (by decide), List.append_nil]
      exact hs'
  | flush =>
    obtain ⟨s', r, hstep, hnil, hs'⟩ := h.flush hbufsize hproceeds
    refine ⟨s', r, hstep, fun _ => hnil, ?_⟩
    rw [Call.data, ite_self, List.append_nil]
    exact hs'

/-- A vector that is refused is refused as one chunk. -/
theorem step_joined (call : Call) (hproceeds : Proceeds codec s call) : step codec s call = stepJoined codec s call := by
  cases call with
  | add data => rfl
  | flush => rfl
  | addv iov =>
    obtain ⟨s', r, hflush, -⟩ := emergencyFlush_of_rejected hproceeds.2
    rw [step, stepJoined, Compressor.addv, Compressor.add, Nat.mod_eq_of_lt hproceeds.1, hflush]
    rfl

theorem exec_joined {calls : List Call} (h : Meets (step codec) (Proceeds codec) s calls) :
    exec (stepJoined codec) s calls = exec (step codec) s calls := by
  induction calls generalizing s with
  | nil => rfl
  | cons call calls ih =>
    rw [exec_cons, exec_cons, ← step_joined call h.1]
    cases hstep : step codec s call with
    | none => rfl
    | some r =>
      rw [Option.bind_some, Option.bind_some, ih (h.2 r.1 r.2 hstep)]

/-- What a run keeps: the data that were accepted, and no byte in the buffer behind a flush. -/
def Kept (codec : Codec) (bufsize dstSize : Nat) (s : Compressor) (trace : List (Call × Nat)) : Prop :=
  Holds codec bufsize dstSize s (accepted trace) ∧ ∀ r, trace.getLast? = some (Call.flush, r) → s.buffer = []

/-- The blocks that are read back are the data that were accepted, no byte is behind the end of the
destination, and a vector is as good as one chunk. -/
def StreamsBack (codec : Codec) (bufsize dstSize : Nat) (calls : List Call) : Prop :=
  ∃ s results blocks, exec (step codec) (init bufsize dstSize) calls = some (s, results) ∧
    readAll codec s.dst = some blocks ∧ blocks.flatten = accepted (calls.zip results) ∧
    s.dst.length + s.dstAvail = dstSize ∧ exec (stepJoined codec) (init bufsize dstSize) calls = some (s, results)

/-- Data that fit in the buffer, when it is empty behind an emergency. -/
theorem add_of_lt {data : Bytes} (hemergency : Emergency codec s data.length) (hshort : ¬ Short codec s data.length)
    (hbuffer : (s.afterEmergency codec data.length).buffer = [])
    (hlt : data.length < (s.afterEmergency codec data.length).bufsize) (hne : data ≠ []) :
    s.add codec data = some ({ s.afterEmergency codec data.length with buffer := data }, 0) := by
  rw [Compressor.add, emergencyFlush_eq hemergency, if_neg hshort]
  simp only [Compressor.addBuffer, if_neg (not_not.mpr hbuffer)]
  exact addDirect_of_lt hlt hne

theorem frame_of_lt {avail : Nat} {block : Bytes} (h : block.length < 128) :
    frame codec avail block = Fin.ofNat 256 block.length :: codec.compress (avail - 1) block := by
  rw [frame, Coding.encodeVint_of_lt h]
  rfl

theorem takes_iff_of_lt {avail : Nat} {block : Bytes} (h : block.length < 128) :
    Takes codec avail block ↔ block ≠ [] ∧ 1 ≤ avail ∧ codec.compress (avail - 1) block ≠ [] := by
  rw [Takes, Writes, Coding.encodeVint_of_lt h, List.length_singleton]

/-- A destination of 21 bytes with the bytes that are left of it and the buffer. -/
def holding (dst : Bytes) (buffer : Bytes) : Compressor :=
  { dst, dstAvail := 21 - dst.length, buffer, bufsize := 64, bprev := [], iprev := 0 }

theorem wrote_holding {dst buffer written : Bytes} (h : frame plain (21 - dst.length) buffer = written) :
    (holding dst buffer).wrote plain buffer = holding (dst ++ written) [] := by
  subst h
  simp only [Compressor.wrote, holding, List.length_append, Nat.sub_sub]

end RaleighSL.Zcl.Compression
