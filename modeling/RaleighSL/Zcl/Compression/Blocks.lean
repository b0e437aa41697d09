import RaleighSL.Zcl.Compression.Model

/-!
# Blocks of the compressor

Which blocks the bytes that are added make does not depend on the codec: a full buffer, then
blocks right from the bytes, and what is left stays in the buffer. The blocks are written one
after the other where there is room for each, and are read back in their order.
-/
namespace RaleighSL.Zcl.Compression
open Coding (encodeVint decodeVint vintSize)

/-- The blocks right from the bytes, and the bytes that are left. A block without bytes leaves them as they are, and is
the last one here. -/
def direct (bufsize : Nat) (data : Bytes) : List Bytes × Bytes :=
  if bufsize ≤ data.length then
    if data.take (alignDown data.length bufsize) = [] then ([[]], data)
    else
      let r := direct bufsize (data.drop (alignDown data.length bufsize))
      (data.take (alignDown data.length bufsize) :: r.1, r.2)
  else ([], data)
termination_by data.length
decreasing_by
  rename_i hne
  rw [List.take_eq_nil_iff, not_or] at hne
  have hpos := List.length_pos_iff.mpr hne.2
  rw [List.length_drop]
  omega

/-- The blocks that bytes make behind the ones in the buffer, and the bytes that are in the buffer then. -/
def split (bufsize : Nat) (buffered data : Bytes) : List Bytes × Bytes :=
  if buffered = [] then direct bufsize data
  else if buffered.length + min data.length (bufsize - buffered.length) = bufsize then
    ((buffered ++ data.take (min data.length (bufsize - buffered.length))) ::
        (direct bufsize (data.drop (min data.length (bufsize - buffered.length)))).1,
      (direct bufsize (data.drop (min data.length (bufsize - buffered.length)))).2)
  else ([], buffered ++ data)

theorem direct_of_lt {bufsize : Nat} {data : Bytes} (h : data.length < bufsize) : direct bufsize data = ([], data) := by
  rw [direct, if_neg (Nat.not_le.mpr h)]

/-- No byte is lost. -/
theorem direct_flatten (bufsize : Nat) (data : Bytes) : (direct bufsize data).1.flatten ++ (direct bufsize data).2 = data := by
  induction hn : data.length using Nat.strongRecOn generalizing data with
  | ind n ih =>
    subst hn
    rw [direct]
    split_ifs with hle hnil
    · rfl
    · rw [List.take_eq_nil_iff, not_or] at hnil
      have hpos := List.length_pos_iff.mpr hnil.2
      have hlt : (data.drop (alignDown data.length bufsize)).length < data.length := by
        rw [List.length_drop]
        omega
      simp only [List.flatten_cons, List.append_assoc]
      rw [ih _ hlt _ rfl, List.take_append_drop]
    · rfl

theorem split_flatten (bufsize : Nat) (buffered data : Bytes) :
    (split bufsize buffered data).1.flatten ++ (split bufsize buffered data).2 = buffered ++ data := by
  rw [split]
  split_ifs with hnil hfull
  · rw [hnil, direct_flatten, List.nil_append]
  · simp only [List.flatten_cons, List.append_assoc]
    rw [direct_flatten, List.take_append_drop]
  · rfl

theorem length_direct_le (bufsize : Nat) (data : Bytes) : ∀ block ∈ (direct bufsize data).1, block.length ≤ data.length := by
  intro block hblock
  have hlen := congrArg List.length (direct_flatten bufsize data)
  rw [List.length_append] at hlen
  have hle := (List.sublist_flatten_of_mem hblock).length_le
  omega

theorem length_split_le {bufsize : Nat} {buffered data : Bytes} :
    ∀ block ∈ (split bufsize buffered data).1, block.length ≤ max bufsize data.length := by
  intro block hblock
  rw [split] at hblock
  split_ifs at hblock with hnil hfull
  · exact Nat.le_trans (length_direct_le bufsize data block hblock) (Nat.le_max_right _ _)
  · rcases List.mem_cons.mp hblock with rfl | hmem
    · rw [List.length_append, List.length_take]
      omega
    · have hle := length_direct_le bufsize _ block hmem
      rw [List.length_drop] at hle
      omega
  · cases hblock

theorem length_direct_rest {bufsize : Nat} {data : Bytes} (h : [] ∉ (direct bufsize data).1) :
    (direct bufsize data).2.length < bufsize := by
  induction hn : data.length using Nat.strongRecOn generalizing data with
  | ind n ih =>
    subst hn
    rw [direct] at h ⊢
    split_ifs at h ⊢ with hle hnil
    · exact absurd List.mem_cons_self h
    · rw [List.take_eq_nil_iff, not_or] at hnil
      have hpos := List.length_pos_iff.mpr hnil.2
      have hlt : (data.drop (alignDown data.length bufsize)).length < data.length := by
        rw [List.length_drop]
        omega
      exact ih _ hlt (fun hmem => h (List.mem_cons_of_mem _ hmem)) rfl
    · exact Nat.lt_of_not_le hle

/-- The buffer is never left full. -/
theorem length_split_rest {bufsize : Nat} {buffered data : Bytes} (hle : buffered.length ≤ bufsize)
    (h : [] ∉ (split bufsize buffered data).1) : (split bufsize buffered data).2.length < bufsize := by
  rw [split] at h ⊢
  split_ifs at h ⊢ with hnil hfull
  · exact length_direct_rest h
  · exact length_direct_rest (fun hmem => h (List.mem_cons_of_mem _ hmem))
  · rw [List.length_append]
    omega

/-! ### Writing -/

variable {codec : Codec} {s : Compressor} {data block : Bytes} {blocks : List Bytes}

def frame (codec : Codec) (avail : Nat) (block : Bytes) : Bytes :=
  encodeVint block.length ++ codec.compress (avail - (encodeVint block.length).length) block

/-- There is room for a block: for its size, and the codec finds the rest of the room enough. -/
def Writes (codec : Codec) (avail : Nat) (block : Bytes) : Prop :=
  (encodeVint block.length).length ≤ avail ∧ codec.compress (avail - (encodeVint block.length).length) block ≠ []

def Takes (codec : Codec) (avail : Nat) (block : Bytes) : Prop := block ≠ [] ∧ Writes codec avail block

/-- There is room for the size of a block, and the codec does not find the rest of the room enough. -/
def Refuses (codec : Codec) (avail : Nat) (block : Bytes) : Prop :=
  (encodeVint block.length).length ≤ avail ∧ codec.compress (avail - (encodeVint block.length).length) block = []

def Room (codec : Codec) : Nat → List Bytes → Prop
  | _, [] => True
  | avail, block :: blocks => Takes codec avail block ∧ Room codec (avail - (frame codec avail block).length) blocks

instance (codec : Codec) (avail : Nat) (block : Bytes) : Decidable (Writes codec avail block) :=
  inferInstanceAs (Decidable (_ ∧ _))

instance (codec : Codec) (avail : Nat) (block : Bytes) : Decidable (Takes codec avail block) :=
  inferInstanceAs (Decidable (_ ∧ _))

instance (codec : Codec) (avail : Nat) (block : Bytes) : Decidable (Refuses codec avail block) :=
  inferInstanceAs (Decidable (_ ∧ _))

instance decidableRoom (codec : Codec) : (avail : Nat) → (blocks : List Bytes) → Decidable (Room codec avail blocks)
  | _, [] => .isTrue trivial
  | avail, block :: blocks =>
    have := decidableRoom codec (avail - (frame codec avail block).length) blocks
    inferInstanceAs (Decidable (Takes codec avail block ∧ Room codec (avail - (frame codec avail block).length) blocks))

def Compressor.wrote (s : Compressor) (codec : Codec) (block : Bytes) : Compressor :=
  { s with
    dst := s.dst ++ frame codec s.dstAvail block
    dstAvail := s.dstAvail - (frame codec s.dstAvail block).length
    buffer := []
    bprev := []
    iprev := 0 }

/-- The compressor behind a block that is refused. -/
def Compressor.cleared (s : Compressor) : Compressor := { s with buffer := [], bprev := [], iprev := 0 }

def Compressor.wroteAll (s : Compressor) (codec : Codec) (blocks : List Bytes) : Compressor :=
  blocks.foldl (fun s block => s.wrote codec block) s

theorem length_frame_le (h : Writes codec s.dstAvail block) : (frame codec s.dstAvail block).length ≤ s.dstAvail := by
  obtain ⟨hroom, -⟩ := h
  have hle := codec.length_le (s.dstAvail - (encodeVint block.length).length) block
  rw [frame, List.length_append]
  omega

theorem frame_ne_nil (codec : Codec) (avail : Nat) (block : Bytes) : frame codec avail block ≠ [] := by
  obtain ⟨front, last, hhead, -⟩ := Coding.encodeVint_eq_append block.length
  rw [frame, hhead]
  simp

theorem flushBuffer_of_writes (h : Writes codec s.dstAvail block) :
    s.flushBuffer codec block = some (s.wrote codec block, true) := by
  obtain ⟨hroom, hbody⟩ := h
  rw [Compressor.flushBuffer, if_neg (Nat.not_lt.mpr hroom)]
  dsimp only
  rw [if_neg hbody]
  rfl

theorem flushBuffer_of_refuses (h : Refuses codec s.dstAvail block) :
    s.flushBuffer codec block = some (s.cleared, false) := by
  obtain ⟨hroom, hbody⟩ := h
  rw [Compressor.flushBuffer, if_neg (Nat.not_lt.mpr hroom)]
  dsimp only
  rw [if_pos hbody]
  rfl

theorem ne_nil_of_room {avail : Nat} (h : Room codec avail blocks) : [] ∉ blocks := by
  induction blocks generalizing avail with
  | nil => simp
  | cons block blocks ih =>
    rw [List.mem_cons, not_or]
    exact ⟨fun heq => h.1.1 heq.symm, ih h.2⟩

theorem addDirect_of_lt (h : data.length < s.bufsize) (hne : data ≠ []) :
    s.addDirect codec data = some ({ s with buffer := data }, 0) := by
  rw [Compressor.addDirect, if_neg (Nat.not_le.mpr h), if_neg hne]

theorem addDirect_of_room (hbuffer : s.buffer = []) (h : Room codec s.dstAvail (direct s.bufsize data).1) :
    s.addDirect codec data =
      some ({ s.wroteAll codec (direct s.bufsize data).1 with buffer := (direct s.bufsize data).2 }, 0) := by
  induction hn : data.length using Nat.strongRecOn generalizing data s with
  | ind n ih =>
    subst hn
    rw [Compressor.addDirect]
    rw [direct] at h ⊢
    split_ifs at h ⊢ with hle htake hnil
    · exact absurd rfl h.1.1
    · rw [List.take_eq_nil_iff, not_or] at htake
      have hpos := List.length_pos_iff.mpr htake.2
      have hlt : (data.drop (alignDown data.length s.bufsize)).length < data.length := by
        rw [List.length_drop]
        omega
      have hnext := ih _ hlt (s := s.wrote codec (data.take (alignDown data.length s.bufsize))) rfl h.2 rfl
      split
      · rename_i hflush
        rw [flushBuffer_of_writes h.1.2] at hflush
        cases hflush
      · rename_i hflush
        rw [flushBuffer_of_writes h.1.2] at hflush
        cases hflush
      · rename_i self' hflush
        rw [flushBuffer_of_writes h.1.2] at hflush
        obtain rfl := (Prod.mk.inj (Option.some.inj hflush)).1
        exact hnext
    · rw [hnil, ← hbuffer]
      rfl
    · rfl

theorem addBuffer_of_room (hle : s.buffer.length ≤ s.bufsize) (h : Room codec s.dstAvail (split s.bufsize s.buffer data).1) :
    s.addBuffer codec data =
      some ({ s.wroteAll codec (split s.bufsize s.buffer data).1 with buffer := (split s.bufsize s.buffer data).2 }, 0) := by
  rw [Compressor.addBuffer]
  rw [split] at h ⊢
  by_cases hnil : s.buffer = []
  · rw [if_neg (not_not.mpr hnil)]
    simp only [if_pos hnil] at h ⊢
    exact addDirect_of_room hnil h
  · simp only [if_neg hnil] at h ⊢
    rw [if_pos hnil]
    have hlen : (s.buffer ++ data.take (min data.length (s.bufsize - s.buffer.length))).length =
        s.buffer.length + min data.length (s.bufsize - s.buffer.length) := by
      rw [List.length_append, List.length_take]
      omega
    simp only [hlen]
    by_cases hfull : s.buffer.length + min data.length (s.bufsize - s.buffer.length) = s.bufsize
    · simp only [if_pos hfull] at h ⊢
      have hfirst : Takes codec ({ s with buffer := s.buffer ++ data.take (min data.length (s.bufsize - s.buffer.length)) } :
          Compressor).dstAvail (s.buffer ++ data.take (min data.length (s.bufsize - s.buffer.length))) := h.1
      rw [flushBuffer_of_writes hfirst.2]
      exact addDirect_of_room rfl h.2
    · simp only [if_neg hfull]
      have hall : min data.length (s.bufsize - s.buffer.length) = data.length := by omega
      have hpos := List.length_pos_iff.mpr hnil
      rw [hall, List.take_length, List.drop_length, Compressor.addDirect, if_neg (by simp only [List.length_nil]; omega),
        if_pos rfl]
      rfl

/-! ### Reading -/

/-- The destination has these blocks. -/
inductive Stream (codec : Codec) : Bytes → List Bytes → Prop
  | nil : Stream codec [] []
  | cons {avail : Nat} {block rest : Bytes} {blocks : List Bytes} (htakes : Takes codec avail block)
      (hlen : block.length < 2 ^ 32) (hrest : Stream codec rest blocks) :
      Stream codec (frame codec avail block ++ rest) (block :: blocks)

theorem Stream.concat {dst : Bytes} (h : Stream codec dst blocks) {avail : Nat} (htakes : Takes codec avail block)
    (hlen : block.length < 2 ^ 32) : Stream codec (dst ++ frame codec avail block) (blocks ++ [block]) := by
  induction h with
  | nil =>
    have hone := Stream.cons htakes hlen .nil
    rwa [List.append_nil] at hone
  | cons hfirst hshort hrest ih =>
    rw [List.append_assoc]
    exact .cons hfirst hshort ih

theorem read_frame {avail : Nat} (hwrites : Writes codec avail block) (hlen : block.length < 2 ^ 32) (rest : Bytes) :
    read codec (frame codec avail block ++ rest) = some (block.length, block, rest) := by
  have hbound : (encodeVint block.length).length ≤ (frame codec avail block ++ rest).length := by
    simp only [frame, List.length_append]
    omega
  have hvint := Coding.decodeVint_encodeVint (Nat.lt_trans hlen (by decide)) hbound
    (codec.compress (avail - (encodeVint block.length).length) block ++ rest)
  rw [← List.append_assoc] at hvint
  have hdrop : (frame codec avail block ++ rest).drop (encodeVint block.length).length =
      codec.compress (avail - (encodeVint block.length).length) block ++ rest := by
    rw [frame, List.append_assoc, List.drop_left]
  rw [read]
  change decodeVint (frame codec avail block ++ rest) _ = _ at hvint
  simp only [hvint, Nat.mod_eq_of_lt hlen, hdrop, codec.inverse _ _ rest hwrites.2, List.drop_left]

theorem readFrom_of_stream {dst : Bytes} (h : Stream codec dst blocks) {fuel : Nat} (hfuel : dst.length ≤ fuel) :
    readFrom codec fuel dst = some blocks := by
  induction h generalizing fuel with
  | nil => cases fuel <;> rfl
  | @cons avail block rest blocks htakes hlen hrest ih =>
    have hbody := List.length_pos_iff.mpr htakes.2.2
    have hpos : 0 < (frame codec avail block).length := by
      rw [frame, List.length_append]
      omega
    rw [List.length_append] at hfuel
    obtain ⟨fuel, rfl⟩ : ∃ k, fuel = k + 1 := ⟨fuel - 1, by omega⟩
    have hread := read_frame htakes.2 hlen rest
    have hsize := List.length_pos_iff.mpr htakes.1
    obtain ⟨b, buffer, hcons⟩ : ∃ b buffer, frame codec avail block ++ rest = b :: buffer := by
      cases hframe : frame codec avail block with
      | nil =>
        rw [hframe] at hpos
        cases hpos
      | cons b front => exact ⟨b, front ++ rest, rfl⟩
    rw [hcons] at hread ⊢
    have hbehind : readFrom codec fuel rest = some blocks := ih (by omega)
    rw [readFrom, hread]
    simp only [if_neg (Nat.pos_iff_ne_zero.mp hsize), hbehind, Option.map_some]

theorem readAll_of_stream {dst : Bytes} (h : Stream codec dst blocks) : readAll codec dst = some blocks :=
  readFrom_of_stream h (Nat.le_refl _)

/-- What is behind blocks: they are in the destination, behind the ones that were there, and the sizes are kept. -/
theorem wroteAll_spec {earlier : List Bytes} (hstream : Stream codec s.dst earlier) (hroom : Room codec s.dstAvail blocks)
    (hlen : ∀ block ∈ blocks, block.length < 2 ^ 32) :
    Stream codec (s.wroteAll codec blocks).dst (earlier ++ blocks) ∧
      (s.wroteAll codec blocks).dst.length + (s.wroteAll codec blocks).dstAvail = s.dst.length + s.dstAvail ∧
      (s.wroteAll codec blocks).bufsize = s.bufsize := by
  induction blocks generalizing s earlier with
  | nil =>
    rw [List.append_nil]
    exact ⟨hstream, rfl, rfl⟩
  | cons block blocks ih =>
    have hnext := hstream.concat hroom.1 (hlen block List.mem_cons_self)
    have hle := length_frame_le hroom.1.2
    obtain ⟨hall, hsize, hbuf⟩ := ih (s := s.wrote codec block) hnext hroom.2
      (fun other hother => hlen other (List.mem_cons_of_mem _ hother))
    rw [List.append_assoc, List.singleton_append] at hall
    refine ⟨hall, hsize.trans ?_, hbuf⟩
    simp only [Compressor.wrote, List.length_append]
    omega

end RaleighSL.Zcl.Compression
