import RaleighSL.Zcl.Compression.Runs

/-!
# Values behind each other

Sorted integers are written as differences, and both sides start again at zero with each block.
A block that ends inside a value cannot be read, and a block without bytes, which a codec may
write for an emergency, ends the reading; without either, the values come back. Byte strings are
added as vectors, whose loop does not end.
-/
namespace RaleighSL.Zcl.Compression
open Library (Meets exec exec_cons exec_nil)
open Coding (encodeVint decodeVint vintSize)

def decodeAll {α : Type} (decode : Bytes → Option (List α)) : List Bytes → Option (List α)
  | [] => some []
  | block :: blocks => (decode block).bind (fun found => (decodeAll decode blocks).map (fun rest => found ++ rest))

def intsOf (block : Bytes) : Option (List Nat) := (getInts block.length 0 block).map Prod.fst

def bytesOf (block : Bytes) : Option (List Bytes) := getBytes block.length [] [] block

def stepInt (codec : Codec) (s : Compressor) (current : Nat) : Option (Compressor × Nat) := s.addInt codec current

def stepBytes (codec : Codec) (s : Compressor) (current : Data) : Option (Compressor × Nat) := s.addBytes codec current.val

/-- All calls return 0, and behind a flush the blocks have these values. -/
def Returned {ι α : Type} (codec : Codec) (step : Compressor → ι → Option (Compressor × Nat))
    (decode : Bytes → Option (List α)) (s : Compressor) (items : List ι) (values : List α) : Prop :=
  ∃ last results flushed r blocks, exec step s items = some (last, results) ∧ (∀ r ∈ results, r = 0) ∧
    last.flush codec = some (flushed, r) ∧ readAll codec flushed.dst = some blocks ∧ decodeAll decode blocks = some values

/-- The emergency flush lets bytes of the given size in, and their blocks have room. -/
def Space (codec : Codec) (s : Compressor) (size : Nat) (data : Compressor → Bytes) : Prop :=
  Emergency codec s size ∧ ¬ Short codec s size ∧
    Room codec (s.afterEmergency codec size).dstAvail
      (split (s.afterEmergency codec size).bufsize (s.afterEmergency codec size).buffer (data (s.afterEmergency codec size))).1

/-- The room that the calls and the flush need is there. -/
def Suffices {ι : Type} (codec : Codec) (step : Compressor → ι → Option (Compressor × Nat))
    (space : Compressor → ι → Prop) (s : Compressor) (items : List ι) : Prop :=
  Meets step space s items ∧
    ∀ last results, exec step s items = some (last, results) → last.buffer = [] ∨ Takes codec last.dstAvail last.buffer

def spaceForInt (codec : Codec) (s : Compressor) (current : Nat) : Prop :=
  Space codec s 4 (fun s => s.difference current)

def spaceForBytes (codec : Codec) (s : Compressor) (current : Data) : Prop :=
  Space codec s current.val.length (fun s => (Compressor.delta s.bprev current.val).flatten)

/-- The bytes of a value end up in one block: the buffer has room for them, or they are a block without the buffer. -/
def Undivided (bufsize : Nat) (buffered bytes : Bytes) : Prop :=
  if buffered = [] then bytes.length < bufsize ∨ alignDown bytes.length bufsize = bytes.length
  else buffered.length + bytes.length ≤ bufsize

instance (bufsize : Nat) (buffered bytes : Bytes) : Decidable (Undivided bufsize buffered bytes) := by
  unfold Undivided
  infer_instance

/-- So it is with the bytes of an integer, and no emergency finds the buffer empty. -/
def undividedInt (codec : Codec) (s : Compressor) (current : Nat) : Prop :=
  ¬ Idle s 4 ∧ Undivided (s.afterEmergency codec 4).bufsize (s.afterEmergency codec 4).buffer
    ((s.afterEmergency codec 4).difference current)

/-- Integers of 64 bits, each at least the one before it, or byte strings. -/
inductive Input
  | ints (values : { values : List Nat // values.Pairwise (· ≤ ·) ∧ ∀ v ∈ values, v < 2 ^ 64 })
  | bytes (strings : List Data)

def Survives (codec : Codec) (bufsize dstSize : Nat) : Input → Prop
  | .ints values => Returned codec (stepInt codec) intsOf (init bufsize dstSize) values.val values.val
  | .bytes strings => Returned codec (stepBytes codec) bytesOf (init bufsize dstSize) strings (strings.map Subtype.val)

def SpaceSuffices (codec : Codec) (bufsize dstSize : Nat) : Input → Prop
  | .ints values => Suffices codec (stepInt codec) (spaceForInt codec) (init bufsize dstSize) values.val
  | .bytes strings => Suffices codec (stepBytes codec) (spaceForBytes codec) (init bufsize dstSize) strings

/-- No integer is divided or added behind an empty block, and no byte string is added. -/
def NeverDivided (codec : Codec) (bufsize dstSize : Nat) : Input → Prop
  | .ints values => Meets (stepInt codec) (undividedInt codec) (init bufsize dstSize) values.val
  | .bytes strings => strings = []

variable {codec : Codec} {s : Compressor} {data : Bytes} {blocks : List Bytes} {bufsize dstSize : Nat}

theorem decodeAll_append {α : Type} (decode : Bytes → Option (List α)) (first second : List Bytes) :
    decodeAll decode (first ++ second) =
      (decodeAll decode first).bind (fun found => (decodeAll decode second).map (fun rest => found ++ rest)) := by
  induction first with
  | nil => simp [decodeAll]
  | cons block first ih =>
    rw [List.cons_append, decodeAll, decodeAll, ih]
    cases decode block with
    | none => rfl
    | some found =>
      cases decodeAll decode first with
      | none => rfl
      | some rest => simp [Function.comp_def]

theorem decodeAll_eq_none {α : Type} {decode : Bytes → Option (List α)} {block : Bytes} (hmem : block ∈ blocks)
    (h : decode block = none) : decodeAll decode blocks = none := by
  induction blocks with
  | nil => cases hmem
  | cons first blocks ih =>
    rw [decodeAll]
    rcases List.mem_cons.mp hmem with rfl | hmem
    · rw [h]
      rfl
    · rw [ih hmem]
      cases decode first <;> rfl

/-! ### Differences -/

/-- The bytes are the differences of values, from one value to a last one. -/
inductive Coded : Nat → Bytes → List Nat → Nat → Prop
  | nil {iprev : Nat} : Coded iprev [] [] iprev
  | cons {iprev current last : Nat} {bytes : Bytes} {values : List Nat} (hle : iprev ≤ current) (hlt : current < 2 ^ 64)
      (hrest : Coded current bytes values last) :
      Coded iprev (encodeVint (current - iprev) ++ bytes) (current :: values) last

variable {iprev last current : Nat} {bytes : Bytes} {values : List Nat}

theorem Coded.concat (h : Coded iprev bytes values last) (hle : last ≤ current) (hlt : current < 2 ^ 64) :
    Coded iprev (bytes ++ encodeVint (current - last)) (values ++ [current]) current := by
  induction h with
  | nil =>
    have hone := Coded.cons hle hlt .nil
    rwa [List.append_nil] at hone
  | cons hle' hlt' hrest ih =>
    rw [List.append_assoc]
    exact .cons hle' hlt' (ih hle)

theorem Coded.last_mem (h : Coded iprev bytes values last) : last = iprev ∨ last ∈ values := by
  induction h with
  | nil => exact .inl rfl
  | cons hle hlt hrest ih =>
    rcases ih with rfl | hmem
    · exact .inr List.mem_cons_self
    · exact .inr (List.mem_cons_of_mem _ hmem)

theorem encodeVint_ne_nil (value : Nat) : encodeVint value ≠ [] := by
  obtain ⟨front, last, heq, -⟩ := Coding.encodeVint_eq_append value
  rw [heq]
  simp

/-- The next integer is read. -/
theorem getInts_encodeVint (hle : iprev ≤ current) (hlt : current < 2 ^ 64) (fuel : Nat) (rest : Bytes) :
    getInts (fuel + 1) iprev (encodeVint (current - iprev) ++ rest) =
      (getInts fuel current rest).map (fun r => (current :: r.1, r.2)) := by
  have hbound : (encodeVint (current - iprev)).length ≤ (encodeVint (current - iprev) ++ rest).length := by
    rw [List.length_append]
    omega
  have hvint := Coding.decodeVint_encodeVint (by omega : current - iprev < 2 ^ 64) hbound rest
  have hdrop : (encodeVint (current - iprev) ++ rest).drop (encodeVint (current - iprev)).length = rest := List.drop_left
  obtain ⟨b, buffer, hcons⟩ := List.exists_cons_of_ne_nil (List.append_ne_nil_of_left_ne_nil (encodeVint_ne_nil _) rest)
  rw [hcons] at hvint hdrop ⊢
  have hmod : (current - iprev + iprev) % 2 ^ 64 = current := by
    rw [Nat.sub_add_cancel hle, Nat.mod_eq_of_lt hlt]
  rw [getInts, hvint]
  simp only [hmod, hdrop]

theorem getInts_of_coded (h : Coded iprev bytes values last) {fuel : Nat} (hfuel : bytes.length ≤ fuel) :
    getInts fuel iprev bytes = some (values, last) := by
  induction h generalizing fuel with
  | nil => cases fuel <;> rfl
  | @cons iprev current last bytes values hle hlt hrest ih =>
    have hpos := List.length_pos_iff.mpr (encodeVint_ne_nil (current - iprev))
    rw [List.length_append] at hfuel
    obtain ⟨fuel, rfl⟩ : ∃ k, fuel = k + 1 := ⟨fuel - 1, by omega⟩
    have hbehind : getInts fuel current bytes = some (values, last) := ih (by omega)
    rw [getInts_encodeVint hle hlt, hbehind]
    rfl

/-- A block that ends inside a value is not read. -/
theorem getInts_of_part (h : Coded iprev bytes values last) {value : Nat} {part rest : Bytes}
    (hvalue : encodeVint value = part ++ rest) (hpart : part ≠ []) (hrest : rest ≠ []) (fuel : Nat) :
    getInts fuel iprev (bytes ++ part) = none := by
  induction h generalizing fuel with
  | nil =>
    have hreject := Coding.decodeVint_prefix hvalue hrest []
    rw [List.append_nil] at hreject
    obtain ⟨b, buffer, rfl⟩ := List.exists_cons_of_ne_nil hpart
    rw [List.nil_append]
    cases fuel with
    | zero => rfl
    | succ fuel => rw [getInts, hreject]
  | @cons iprev current last bytes values hle hlt hcoded ih =>
    cases fuel with
    | zero =>
      obtain ⟨b, buffer, hcons⟩ := List.exists_cons_of_ne_nil
        (List.append_ne_nil_of_left_ne_nil (encodeVint_ne_nil (current - iprev)) (bytes ++ part))
      rw [List.append_assoc, hcons]
      rfl
    | succ fuel =>
      rw [List.append_assoc, getInts_encodeVint hle hlt, ih]
      rfl

/-! ### Blocks and values -/

theorem direct_nil (h : 0 < bufsize) : direct bufsize [] = ([], []) := direct_of_lt h

theorem bufsize_pos (h : [] ∉ (direct bufsize []).1) : 0 < bufsize := by
  rcases Nat.eq_zero_or_pos bufsize with rfl | hpos
  · rw [direct, if_pos (show 0 ≤ ([] : Bytes).length from Nat.le_refl _), if_pos List.take_nil] at h
    exact absurd List.mem_cons_self h
  · exact hpos

/-- A value that is not divided is put into the buffer, or ends a block. -/
theorem split_of_undivided {buffered : Bytes} (h : Undivided bufsize buffered data) (hdata : data ≠ [])
    (hempty : [] ∉ (split bufsize buffered data).1) :
    split bufsize buffered data = ([], buffered ++ data) ∨ split bufsize buffered data = ([buffered ++ data], []) := by
  rw [Undivided] at h
  by_cases hnil : buffered = []
  · subst hnil
    rw [if_pos rfl] at h
    rw [split, if_pos rfl] at hempty ⊢
    by_cases hlt : data.length < bufsize
    · exact .inl (direct_of_lt hlt)
    · have halign := h.resolve_left hlt
      rw [direct, if_pos (Nat.le_of_not_lt hlt), halign, List.take_length, if_neg hdata, List.drop_length] at hempty ⊢
      have hpos := bufsize_pos (fun hmem => hempty (List.mem_cons_of_mem _ hmem))
      simp only [direct_nil hpos]
      exact .inr rfl
  · rw [if_neg hnil] at h
    have hpos := List.length_pos_iff.mpr hnil
    have hmin : min data.length (bufsize - buffered.length) = data.length := by omega
    rw [split, if_neg hnil, hmin, List.take_length, List.drop_length, direct_nil (by omega)]
    split
    · exact .inr rfl
    · exact .inl rfl

/-- A value that is divided has its first bytes at the end of a block. -/
theorem split_of_divided {buffered : Bytes} (h : ¬ Undivided bufsize buffered data)
    (hbuffered : buffered = [] ∨ buffered.length < bufsize) (hempty : [] ∉ (split bufsize buffered data).1) :
    ∃ part rest more, (split bufsize buffered data).1 = (buffered ++ part) :: more ∧ data = part ++ rest ∧
      part ≠ [] ∧ rest ≠ [] := by
  rw [Undivided] at h
  by_cases hnil : buffered = []
  · subst hnil
    rw [if_pos rfl, not_or] at h
    obtain ⟨hle, halign⟩ := h
    rw [split, if_pos rfl, direct, if_pos (Nat.le_of_not_lt hle)] at hempty ⊢
    have halignle : alignDown data.length bufsize ≤ data.length := Nat.and_le_left
    split_ifs at hempty ⊢ with htake
    · exact absurd List.mem_cons_self hempty
    · refine ⟨_, _, _, rfl, (List.take_append_drop (alignDown data.length bufsize) data).symm, htake, ?_⟩
      rw [← List.length_pos_iff, List.length_drop]
      omega
  · have hlt := hbuffered.resolve_left hnil
    rw [if_neg hnil] at h
    have hmin : min data.length (bufsize - buffered.length) = bufsize - buffered.length := by omega
    rw [split, if_neg hnil, hmin, if_pos (by omega)]
    refine ⟨_, _, _, rfl, (List.take_append_drop (bufsize - buffered.length) data).symm, ?_, ?_⟩
    · rw [← List.length_pos_iff, List.length_take]
      omega
    · rw [← List.length_pos_iff, List.length_drop]
      omega

/-- The blocks have the values up to those in the buffer. -/
structure Reads (codec : Codec) (bufsize : Nat) (s : Compressor) (added : List Nat) : Prop where
  content : ∃ blocks early late, Stream codec s.dst blocks ∧ decodeAll intsOf blocks = some early ∧
    Coded 0 s.buffer late s.iprev ∧ early ++ late = added
  bufsize_eq : s.bufsize = bufsize
  buffer_lt : s.buffer = [] ∨ s.buffer.length < bufsize

/-- Whatever comes behind the bytes, these values are not read from them. -/
def Lost (codec : Codec) (dst : Bytes) (all : List Nat) : Prop :=
  ∀ more blocks, readAll codec (dst ++ more) = some blocks → decodeAll intsOf blocks ≠ some all

variable {added : List Nat}

theorem reads_init (codec : Codec) (bufsize dstSize : Nat) : Reads codec bufsize (init bufsize dstSize) [] where
  content := ⟨[], [], [], .nil, rfl, .nil, rfl⟩
  bufsize_eq := rfl
  buffer_lt := .inl rfl

theorem Reads.buffer_le (h : Reads codec bufsize s added) : s.buffer.length ≤ bufsize := by
  rcases h.buffer_lt with hnil | hlt
  · rw [hnil]
    exact Nat.zero_le _
  · exact Nat.le_of_lt hlt

theorem intsOf_of_coded {block : Bytes} (h : Coded 0 block values last) : intsOf block = some values := by
  rw [intsOf, getInts_of_coded h (Nat.le_refl _)]
  rfl

theorem Reads.wrote (h : Reads codec bufsize s added) (hbufsize : bufsize < 2 ^ 32) (htakes : Takes codec s.dstAvail s.buffer) :
    Reads codec bufsize (s.wrote codec s.buffer) added := by
  obtain ⟨blocks, early, late, hstream, hearly, hlate, hadded⟩ := h.content
  have hlen : s.buffer.length < 2 ^ 32 := Nat.lt_of_le_of_lt h.buffer_le hbufsize
  refine ⟨⟨_, added, [], hstream.concat htakes hlen, ?_, .nil, List.append_nil _⟩, h.bufsize_eq, .inl rfl⟩
  rw [decodeAll_append, hearly, decodeAll, intsOf_of_coded hlate]
  simp [decodeAll, hadded]

theorem Reads.afterEmergency {size : Nat} (h : Reads codec bufsize s added) (hbufsize : bufsize < 2 ^ 32)
    (hidle : ¬ Idle s size) (hemergency : Emergency codec s size) :
    Reads codec bufsize (s.afterEmergency codec size) added := by
  unfold Compressor.afterEmergency
  split
  · rename_i hlow
    exact h.wrote hbufsize ⟨fun hnil => hidle ⟨hlow, hnil⟩, hemergency hlow⟩
  · exact h

/-- The result of `z_compressor_add_int` with room. -/
theorem addInt_eq (hspace : spaceForInt codec s current)
    (hbuffer : (s.afterEmergency codec 4).buffer.length ≤ (s.afterEmergency codec 4).bufsize) :
    s.addInt codec current =
      some ({ { s.afterEmergency codec 4 with iprev := current }.wroteAll codec
            (split (s.afterEmergency codec 4).bufsize (s.afterEmergency codec 4).buffer
              ((s.afterEmergency codec 4).difference current)).1 with
          buffer := (split (s.afterEmergency codec 4).bufsize (s.afterEmergency codec 4).buffer
            ((s.afterEmergency codec 4).difference current)).2 }, 0) := by
  obtain ⟨hemergency, hshort, hroom⟩ := hspace
  rw [Compressor.addInt, emergencyFlush_eq hemergency, if_neg hshort]
  exact addBuffer_of_room (s := { s.afterEmergency codec 4 with iprev := current }) hbuffer hroom

theorem Reads.iprev_le (h : Reads codec bufsize s added) (hsorted : ∀ v ∈ added, v ≤ current) : s.iprev ≤ current := by
  obtain ⟨blocks, early, late, -, -, hlate, hadded⟩ := h.content
  rcases hlate.last_mem with hzero | hmem
  · omega
  · exact hsorted _ (hadded ▸ List.mem_append_right _ hmem)

/-- Behind a smaller integer the difference does not wrap. -/
theorem difference_eq (hle : s.iprev ≤ current) (hcurrent : current < 2 ^ 64) :
    s.difference current = encodeVint (current - s.iprev) := by
  have hsub : current + 2 ^ 64 - s.iprev = current - s.iprev + 2 ^ 64 := by omega
  rw [Compressor.difference, hsub, Nat.add_mod_right, Nat.mod_eq_of_lt (by omega)]

/-- The lengths of the blocks of an integer. -/
theorem length_of_mem_split (hbufsize : bufsize < 2 ^ 32) (heq : s.bufsize = bufsize) (current : Nat)
    (block : Bytes) (hmem : block ∈ (split s.bufsize s.buffer (s.difference current)).1) : block.length < 2 ^ 32 := by
  have hle := length_split_le block hmem
  have hten : (s.difference current).length ≤ 10 := by
    rw [Compressor.difference, ← Coding.vintSize_eq (Nat.mod_lt _ (by decide)), Coding.vintSize]
    split_ifs <;> omega
  omega

/-- An integer that is not divided is behind the ones that were added. -/
theorem Reads.addInt (h : Reads codec bufsize s added) (hbufsize : bufsize < 2 ^ 32) (hspace : spaceForInt codec s current)
    (hsorted : ∀ v ∈ added, v ≤ current) (hcurrent : current < 2 ^ 64) (hundivided : undividedInt codec s current) :
    ∃ s', stepInt codec s current = some (s', 0) ∧ Reads codec bufsize s' (added ++ [current]) := by
  have hafter := h.afterEmergency hbufsize hundivided.1 hspace.1
  have hprev := hafter.iprev_le hsorted
  have hbuffer : (s.afterEmergency codec 4).buffer.length ≤ (s.afterEmergency codec 4).bufsize :=
    hafter.bufsize_eq ▸ hafter.buffer_le
  refine ⟨_, addInt_eq hspace hbuffer, ?_⟩
  obtain ⟨-, -, hroom⟩ := hspace
  have hrest := length_split_rest hbuffer (ne_nil_of_room hroom)
  have hlens := length_of_mem_split hbufsize hafter.bufsize_eq current
  obtain ⟨blocks, early, late, hstream, hearly, hlate, hadded⟩ := hafter.content
  obtain ⟨hall, -, hkept⟩ := wroteAll_spec (s := { s.afterEmergency codec 4 with iprev := current }) hstream hroom hlens
  have hcoded := hlate.concat hprev hcurrent
  rw [← difference_eq hprev hcurrent] at hcoded
  rcases split_of_undivided hundivided.2 (encodeVint_ne_nil _) (ne_nil_of_room hroom) with hsplit | hsplit
  · rw [hsplit] at hall hkept hrest ⊢
    refine ⟨⟨_, early, late ++ [current], hall, ?_, hcoded, ?_⟩, hkept.trans hafter.bufsize_eq, .inr ?_⟩
    · rw [List.append_nil]
      exact hearly
    · rw [← List.append_assoc, hadded]
    · rw [← hafter.bufsize_eq]
      exact hrest
  · rw [hsplit] at hall hkept ⊢
    refine ⟨⟨_, added ++ [current], [], hall, ?_, .nil, List.append_nil _⟩, hkept.trans hafter.bufsize_eq, .inl rfl⟩
    have hvalues : intsOf ((s.afterEmergency codec 4).buffer ++ (s.afterEmergency codec 4).difference current) =
        some (late ++ [current]) := intsOf_of_coded hcoded
    rw [decodeAll_append, hearly, decodeAll, hvalues]
    simp [decodeAll, ← hadded]

theorem Coded.eq_nil (h : Coded iprev [] values last) : values = [] := by
  generalize hbytes : ([] : Bytes) = bytes at h
  cases h with
  | nil => rfl
  | cons hle hlt hrest => exact absurd (List.append_eq_nil_iff.mp hbytes.symm).1 (encodeVint_ne_nil _)

theorem Reads.of_buffer_nil (h : Reads codec bufsize s added) (hnil : s.buffer = []) :
    ∃ blocks, Stream codec s.dst blocks ∧ decodeAll intsOf blocks = some added := by
  obtain ⟨blocks, early, late, hstream, hearly, hlate, hadded⟩ := h.content
  rw [hnil] at hlate
  rw [hlate.eq_nil, List.append_nil] at hadded
  exact ⟨blocks, hstream, hadded ▸ hearly⟩

/-! ### Lost values -/

theorem readFrom_append {dst : Bytes} (h : Stream codec dst blocks) (more : Bytes) {fuel : Nat} {found : List Bytes}
    (hread : readFrom codec fuel (dst ++ more) = some found) : blocks <+: found := by
  induction h generalizing fuel found with
  | nil => exact List.nil_prefix
  | @cons avail block rest blocks htakes hlen hrest ih =>
    have hframe := read_frame htakes.2 hlen (rest ++ more)
    have hsize := List.length_pos_iff.mpr htakes.1
    rw [← List.append_assoc] at hframe
    obtain ⟨b, buffer, hcons⟩ := List.exists_cons_of_ne_nil
      (List.append_ne_nil_of_left_ne_nil (List.append_ne_nil_of_left_ne_nil (frame_ne_nil codec avail block) rest) more)
    rw [hcons] at hframe hread
    cases fuel with
    | zero => cases hread
    | succ fuel =>
      rw [readFrom, hframe] at hread
      simp only [if_neg (Nat.pos_iff_ne_zero.mp hsize), Option.map_eq_some_iff] at hread
      obtain ⟨behind, hbehind, rfl⟩ := hread
      exact List.cons_prefix_cons.mpr ⟨rfl, ih hbehind⟩

theorem readFrom_append_nil {dst : Bytes} (h : Stream codec dst blocks) {avail : Nat} (hwrites : Writes codec avail [])
    (more : Bytes) {fuel : Nat} {found : List Bytes}
    (hread : readFrom codec fuel (dst ++ (frame codec avail [] ++ more)) = some found) : found = blocks := by
  induction h generalizing fuel found with
  | nil =>
    have hframe := read_frame hwrites (by decide) more
    obtain ⟨b, buffer, hcons⟩ := List.exists_cons_of_ne_nil
      (List.append_ne_nil_of_left_ne_nil (frame_ne_nil codec avail []) more)
    rw [List.nil_append, hcons] at hread
    rw [hcons] at hframe
    cases fuel with
    | zero => cases hread
    | succ fuel =>
      rw [readFrom, hframe] at hread
      exact (Option.some.inj hread).symm
  | @cons room block rest blocks htakes hlen hrest ih =>
    have hframe := read_frame htakes.2 hlen (rest ++ (frame codec avail [] ++ more))
    have hsize := List.length_pos_iff.mpr htakes.1
    rw [← List.append_assoc] at hframe
    obtain ⟨b, buffer, hcons⟩ := List.exists_cons_of_ne_nil
      (List.append_ne_nil_of_left_ne_nil (List.append_ne_nil_of_left_ne_nil (frame_ne_nil codec room block) rest)
        (frame codec avail [] ++ more))
    rw [hcons] at hframe hread
    cases fuel with
    | zero => cases hread
    | succ fuel =>
      rw [readFrom, hframe] at hread
      simp only [if_neg (Nat.pos_iff_ne_zero.mp hsize), Option.map_eq_some_iff] at hread
      obtain ⟨behind, hbehind, rfl⟩ := hread
      rw [ih hbehind]

theorem lost_of_unread {dst block : Bytes} (h : Stream codec dst blocks) (hmem : block ∈ blocks) (hnone : intsOf block = none)
    (all : List Nat) : Lost codec dst all := by
  intro more found hread hdecode
  obtain ⟨tail, rfl⟩ := readFrom_append h more hread
  rw [decodeAll_eq_none (List.mem_append_left tail hmem) hnone] at hdecode
  cases hdecode

theorem lost_of_empty {dst : Bytes} {avail : Nat} {early all : List Nat} (h : Stream codec dst blocks)
    (hearly : decodeAll intsOf blocks = some early) (hwrites : Writes codec avail []) (hne : early ≠ all) :
    Lost codec (dst ++ frame codec avail []) all := by
  intro more found hread hdecode
  rw [List.append_assoc] at hread
  rw [readFrom_append_nil h hwrites more hread, hearly] at hdecode
  exact hne (Option.some.inj hdecode)

theorem Lost.mono {dst dst' : Bytes} {all : List Nat} (h : Lost codec dst all) (hle : dst <+: dst') : Lost codec dst' all := by
  obtain ⟨tail, rfl⟩ := hle
  intro more blocks hread
  rw [List.append_assoc] at hread
  exact h (tail ++ more) blocks hread

/-! ### The destination grows -/

variable {s' : Compressor} {r size : Nat}

theorem dst_of_flushBuffer {wrote : Bool} (h : s.flushBuffer codec data = some (s', wrote)) : s.dst <+: s'.dst := by
  rw [Compressor.flushBuffer] at h
  split at h
  · cases h
  · dsimp only at h
    split at h
    · obtain ⟨rfl, -⟩ := Prod.mk.inj (Option.some.inj h)
      exact List.prefix_refl _
    · obtain ⟨rfl, -⟩ := Prod.mk.inj (Option.some.inj h)
      exact List.prefix_append _ _

theorem dst_of_emergencyFlush (h : s.emergencyFlush codec size = some (s', r)) : s.dst <+: s'.dst := by
  rw [Compressor.emergencyFlush] at h
  split at h
  · split at h
    · cases h
    · rename_i hflush
      obtain ⟨rfl, -⟩ := Prod.mk.inj (Option.some.inj h)
      exact dst_of_flushBuffer hflush
    · rename_i hflush
      split at h
      · obtain ⟨rfl, -⟩ := Prod.mk.inj (Option.some.inj h)
        exact dst_of_flushBuffer hflush
      · obtain ⟨rfl, -⟩ := Prod.mk.inj (Option.some.inj h)
        exact dst_of_flushBuffer hflush
  · obtain ⟨rfl, -⟩ := Prod.mk.inj (Option.some.inj h)
    exact List.prefix_refl _

theorem dst_of_addDirect (h : s.addDirect codec data = some (s', r)) : s.dst <+: s'.dst := by
  fun_induction Compressor.addDirect codec s data with
  | case1 => cases h
  | case2 s data hle next hflush =>
    obtain ⟨rfl, -⟩ := Prod.mk.inj (Option.some.inj h)
    exact dst_of_flushBuffer hflush
  | case3 s data hle next hflush ih => exact (dst_of_flushBuffer hflush).trans (ih h)
  | case4 | case5 =>
    obtain ⟨rfl, -⟩ := Prod.mk.inj (Option.some.inj h)
    exact List.prefix_refl _

theorem dst_of_addBuffer (h : s.addBuffer codec data = some (s', r)) : s.dst <+: s'.dst := by
  rw [Compressor.addBuffer] at h
  split at h
  · dsimp only at h
    split at h
    · split at h
      · cases h
      · rename_i hflush
        obtain ⟨rfl, -⟩ := Prod.mk.inj (Option.some.inj h)
        exact dst_of_flushBuffer hflush
      · rename_i hflush
        exact (dst_of_flushBuffer hflush).trans (dst_of_addDirect h)
    · have hdirect := dst_of_addDirect h
      exact hdirect
  · exact dst_of_addDirect h

theorem dst_of_stepInt (h : stepInt codec s current = some (s', r)) : s.dst <+: s'.dst := by
  rw [stepInt, Compressor.addInt] at h
  split at h
  · cases h
  · rename_i next hflush
    exact (dst_of_emergencyFlush hflush).trans (dst_of_addBuffer (s := { next with iprev := current }) h)
  · rename_i hflush
    obtain ⟨rfl, -⟩ := Prod.mk.inj (Option.some.inj h)
    exact dst_of_emergencyFlush hflush

theorem dst_of_flush (h : s.flush codec = some (s', r)) : s.dst <+: s'.dst := by
  rw [Compressor.flush] at h
  split at h
  · obtain ⟨rfl, -⟩ := Prod.mk.inj (Option.some.inj h)
    exact List.prefix_refl _
  · obtain ⟨⟨flushed, wrote⟩, hflush, heq⟩ := Option.map_eq_some_iff.mp h
    obtain ⟨rfl, -⟩ := Prod.mk.inj heq
    exact dst_of_flushBuffer hflush

theorem dst_of_exec {results : List Nat} (h : exec (stepInt codec) s values = some (s', results)) : s.dst <+: s'.dst := by
  induction values generalizing s results with
  | nil =>
    obtain ⟨rfl, -⟩ := Prod.mk.inj (Option.some.inj h)
    exact List.prefix_refl _
  | cons v values ih =>
    rw [exec_cons, Option.bind_eq_some_iff] at h
    obtain ⟨⟨next, r⟩, hstep, hmap⟩ := h
    obtain ⟨⟨last, results'⟩, hexec, heq⟩ := Option.map_eq_some_iff.mp hmap
    obtain ⟨rfl, -⟩ := Prod.mk.inj heq
    exact (dst_of_stepInt hstep).trans (ih hexec)

/-- Values that are lost behind a call do not come back. -/
theorem not_returned_of_lost {v : Nat} {all : List Nat}
    (h : ∀ s' r, stepInt codec s v = some (s', r) → Lost codec s'.dst all) :
    ¬ Returned codec (stepInt codec) intsOf s (v :: values) all := by
  rintro ⟨last, results, flushed, r, blocks, hexec, -, hflush, hread, hdecode⟩
  rw [exec_cons, Option.bind_eq_some_iff] at hexec
  obtain ⟨⟨s', r⟩, hstep, hmap⟩ := hexec
  obtain ⟨⟨last', results'⟩, hexec, heq⟩ := Option.map_eq_some_iff.mp hmap
  obtain ⟨rfl, -⟩ := Prod.mk.inj heq
  have hlost := (h s' r hstep).mono ((dst_of_exec hexec).trans (dst_of_flush hflush))
  exact hlost [] blocks (by rwa [List.append_nil]) hdecode

/-- An integer that is divided leaves a block that cannot be read. -/
theorem Reads.lost_of_divided (h : Reads codec bufsize s added) (hbufsize : bufsize < 2 ^ 32)
    (hspace : spaceForInt codec s current) (hidle : ¬ Idle s 4) (hdivided : ¬ undividedInt codec s current)
    (hstep : stepInt codec s current = some (s', r)) (all : List Nat) : Lost codec s'.dst all := by
  have hafter := h.afterEmergency hbufsize hidle hspace.1
  have hbuffer : (s.afterEmergency codec 4).buffer.length ≤ (s.afterEmergency codec 4).bufsize :=
    hafter.bufsize_eq ▸ hafter.buffer_le
  rw [stepInt, addInt_eq hspace hbuffer] at hstep
  obtain ⟨rfl, -⟩ := Prod.mk.inj (Option.some.inj hstep)
  obtain ⟨-, -, hroom⟩ := hspace
  have hlens := length_of_mem_split hbufsize hafter.bufsize_eq current
  obtain ⟨blocks, early, late, hstream, hearly, hlate, hadded⟩ := hafter.content
  obtain ⟨hall, -, hkept⟩ := wroteAll_spec (s := { s.afterEmergency codec 4 with iprev := current }) hstream hroom hlens
  have hlt : (s.afterEmergency codec 4).buffer = [] ∨
      (s.afterEmergency codec 4).buffer.length < (s.afterEmergency codec 4).bufsize := hafter.bufsize_eq ▸ hafter.buffer_lt
  obtain ⟨part, rest, more, hsplit, hbytes, hpart, hrest⟩ :=
    split_of_divided (fun hundivided => hdivided ⟨hidle, hundivided⟩) hlt (ne_nil_of_room hroom)
  have hnone : intsOf ((s.afterEmergency codec 4).buffer ++ part) = none := by
    rw [intsOf, getInts_of_part hlate hbytes hpart hrest]
    rfl
  refine lost_of_unread hall (List.mem_append_right blocks ?_) hnone all
  rw [hsplit]
  exact List.mem_cons_self

/-- An integer that is added behind an empty block is not read. -/
theorem Reads.lost_of_idle (h : Reads codec bufsize s added) (hspace : spaceForInt codec s current) (hidle : Idle s 4)
    (hstep : stepInt codec s current = some (s', r)) {all : List Nat} (hne : added ≠ all) : Lost codec s'.dst all := by
  have hafter : s.afterEmergency codec 4 = s.wrote codec [] := by
    rw [Compressor.afterEmergency, if_pos hidle.1, hidle.2]
  have hwrites := hspace.1 hidle.1
  rw [hidle.2] at hwrites
  obtain ⟨blocks, hstream, hdecode⟩ := h.of_buffer_nil hidle.2
  have hlost : Lost codec (s.wrote codec []).dst all := lost_of_empty hstream hdecode hwrites hne
  rw [stepInt, Compressor.addInt, emergencyFlush_eq hspace.1, if_neg hspace.2.1, hafter] at hstep
  exact hlost.mono (dst_of_addBuffer (s := { s.wrote codec [] with iprev := current }) hstep)

/-! ### Runs -/

theorem flush_eq (h : s.buffer = [] ∨ Takes codec s.dstAvail s.buffer) :
    ∃ r, s.flush codec = some (if s.buffer = [] then s else s.wrote codec s.buffer, r) := by
  rw [Compressor.flush]
  by_cases hnil : s.buffer = []
  · rw [if_pos hnil, if_pos hnil]
    exact ⟨0, rfl⟩
  · rw [if_neg hnil, if_neg hnil, flushBuffer_of_writes (h.resolve_left hnil).2]
    exact ⟨1, rfl⟩

theorem Reads.returned (h : Reads codec bufsize s added) (hbufsize : bufsize < 2 ^ 32)
    (hroom : s.buffer = [] ∨ Takes codec s.dstAvail s.buffer) : Returned codec (stepInt codec) intsOf s [] added := by
  obtain ⟨r, hflush⟩ := flush_eq hroom
  have hlast : ∃ blocks, Stream codec (if s.buffer = [] then s else s.wrote codec s.buffer).dst blocks ∧
      decodeAll intsOf blocks = some added := by
    split
    · rename_i hnil
      exact h.of_buffer_nil hnil
    · rename_i hne
      exact (h.wrote hbufsize (hroom.resolve_left hne)).of_buffer_nil rfl
  obtain ⟨blocks, hstream, hvalues⟩ := hlast
  exact ⟨s, [], _, r, blocks, rfl, by simp, hflush, readAll_of_stream hstream, hvalues⟩

theorem returned_cons {ι α : Type} {step : Compressor → ι → Option (Compressor × Nat)} {decode : Bytes → Option (List α)}
    {i : ι} {is : List ι} {s' : Compressor} {all : List α} (hstep : step s i = some (s', 0)) :
    Returned codec step decode s (i :: is) all ↔ Returned codec step decode s' is all := by
  constructor
  · rintro ⟨last, results, flushed, r, blocks, hexec, hzero, hrest⟩
    rw [exec_cons, hstep, Option.bind_some, Option.map_eq_some_iff] at hexec
    obtain ⟨⟨last', results'⟩, hexec, heq⟩ := hexec
    obtain ⟨rfl, rfl⟩ := Prod.mk.inj heq
    exact ⟨_, _, flushed, r, blocks, hexec, fun r hr => hzero r (List.mem_cons_of_mem _ hr), hrest⟩
  · rintro ⟨last, results, flushed, r, blocks, hexec, hzero, hrest⟩
    refine ⟨last, 0 :: results, flushed, r, blocks, ?_, ?_, hrest⟩
    · rw [exec_cons, hstep, Option.bind_some, hexec]
      rfl
    · intro r hr
      rcases List.mem_cons.mp hr with rfl | hmem
      · rfl
      · exact hzero r hmem

theorem Suffices.tail {ι : Type} {step : Compressor → ι → Option (Compressor × Nat)} {space : Compressor → ι → Prop} {i : ι}
    {is : List ι} (h : Suffices codec step space s (i :: is)) {s' : Compressor} {r : Nat}
    (hstep : step s i = some (s', r)) : Suffices codec step space s' is := by
  refine ⟨h.1.2 s' r hstep, fun last results hexec => h.2 last (r :: results) ?_⟩
  rw [exec_cons, hstep, Option.bind_some, hexec]
  rfl

/-- Behind integers that were added, the others come back with them when none of them is divided. -/
theorem returned_iff (h : Reads codec bufsize s added) (hbufsize : bufsize < 2 ^ 32)
    (hspace : Suffices codec (stepInt codec) (spaceForInt codec) s values)
    (hsorted : (added ++ values).Pairwise (· ≤ ·)) (hvalues : ∀ v ∈ values, v < 2 ^ 64) :
    Returned codec (stepInt codec) intsOf s values (added ++ values) ↔
      Meets (stepInt codec) (undividedInt codec) s values := by
  induction values generalizing s added with
  | nil =>
    rw [List.append_nil]
    exact iff_of_true (h.returned hbufsize (hspace.2 s [] rfl)) trivial
  | cons v values ih =>
    have hle : ∀ w ∈ added, w ≤ v := fun w hw => (List.pairwise_append.mp hsorted).2.2 w hw v List.mem_cons_self
    have hlt := hvalues v List.mem_cons_self
    have hrest : ∀ w ∈ values, w < 2 ^ 64 := fun w hw => hvalues w (List.mem_cons_of_mem _ hw)
    by_cases hundivided : undividedInt codec s v
    · -- The integer is read behind the ones before it.
      obtain ⟨s', hstep, hs'⟩ := h.addInt hbufsize hspace.1.1 hle hlt hundivided
      rw [List.append_cons] at hsorted ⊢
      rw [returned_cons hstep, ih hs' (hspace.tail hstep) hsorted hrest, Meets, and_iff_right hundivided]
      constructor
      · intro hmeets s'' r hstep'
        obtain ⟨rfl, -⟩ := Prod.mk.inj (Option.some.inj (hstep.symm.trans hstep'))
        exact hmeets
      · exact fun hmeets => hmeets s' 0 hstep
    · refine iff_of_false ?_ (fun hmeets => hundivided hmeets.1)
      refine not_returned_of_lost (fun s' r hstep => ?_)
      by_cases hidle : Idle s 4
      · exact h.lost_of_idle hspace.1.1 hidle hstep (by simp)
      · exact h.lost_of_divided hbufsize hspace.1.1 hidle hundivided hstep _

/-- The loop over the chunks does not end with a result of 0. -/
theorem addChunks_ne_zero (iov : List Bytes) : ∀ s' r, s.addChunks codec iov = some (s', r) → r ≠ 0 := by
  induction iov generalizing s with
  | nil =>
    intro s' r h
    cases h
  | cons chunk iov ih =>
    intro s' r h
    rw [Compressor.addChunks] at h
    split at h
    · cases h
    · exact ih s' r h
    · obtain ⟨-, rfl⟩ := Prod.mk.inj (Option.some.inj h)
      decide

theorem addBytes_ne_zero (current : Bytes) : ∀ s' r, s.addBytes codec current = some (s', r) → r ≠ 0 := by
  intro s' r h
  rw [Compressor.addBytes] at h
  split at h
  · cases h
  · rw [Compressor.addv] at h
    split at h
    · cases h
    · exact addChunks_ne_zero _ s' r h
    · obtain ⟨-, rfl⟩ := Prod.mk.inj (Option.some.inj h)
      decide
  · obtain ⟨-, rfl⟩ := Prod.mk.inj (Option.some.inj h)
    decide

theorem strings_returned_iff (bufsize dstSize : Nat) (strings : List Data) :
    Returned codec (stepBytes codec) bytesOf (init bufsize dstSize) strings (strings.map Subtype.val) ↔ strings = [] := by
  constructor
  · rintro ⟨last, results, flushed, r, blocks, hexec, hzero, -⟩
    cases strings with
    | nil => rfl
    | cons first strings =>
      rw [exec_cons, Option.bind_eq_some_iff] at hexec
      obtain ⟨⟨s', r'⟩, hstep, hmap⟩ := hexec
      obtain ⟨⟨last', results'⟩, -, heq⟩ := Option.map_eq_some_iff.mp hmap
      obtain ⟨-, rfl⟩ := Prod.mk.inj heq
      exact absurd (hzero r' List.mem_cons_self) (addBytes_ne_zero first.val s' r' hstep)
  · rintro rfl
    exact ⟨_, [], _, 0, [], rfl, by simp, if_pos rfl, rfl, rfl⟩

instance (codec : Codec) (s : Compressor) (size : Nat) (data : Compressor → Bytes) : Decidable (Space codec s size data) :=
  inferInstanceAs (Decidable (_ ∧ _ ∧ _))

instance (codec : Codec) (s : Compressor) (current : Nat) : Decidable (spaceForInt codec s current) :=
  inferInstanceAs (Decidable (Space _ _ _ _))

instance (codec : Codec) (s : Compressor) (current : Nat) : Decidable (undividedInt codec s current) :=
  inferInstanceAs (Decidable (_ ∧ _))

instance {ι : Type} (codec : Codec) (step : Compressor → ι → Option (Compressor × Nat)) (space : Compressor → ι → Prop)
    [∀ s i, Decidable (space s i)] (s : Compressor) (items : List ι) : Decidable (Suffices codec step space s items) :=
  match h : exec step s items with
  | none => decidable_of_iff (Meets step space s items) (by simp [Suffices, h])
  | some (last, _) =>
    decidable_of_iff (Meets step space s items ∧ (last.buffer = [] ∨ Takes codec last.dstAvail last.buffer))
      (by simp [Suffices, h])

end RaleighSL.Zcl.Compression
