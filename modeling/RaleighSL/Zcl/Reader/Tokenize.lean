import RaleighSL.Zcl.Reader.Methods
import RaleighSL.Zcl.Slice.Runs
import Mathlib.Data.List.TakeWhile

/-!
# Tokens over chunks

`z_v_reader_tokenize`: the parts of a token come from the chunks of a reader one after the other and
are appended to a slice. A chunk of separators only is skipped, and the separator that ends a token
may be the first byte of a chunk. Counts of bytes in memory have room in 64 bits.
-/
namespace RaleighSL.Zcl

structure Extent where
  offset : Nat
  length : Nat
  deriving DecidableEq, Repr

def Extent.reset : Extent := { offset := 0, length := 0 }

/-- `__istok`. Up to eight separators are compared from the last to the first one, without a loop. -/
def istok (c : Byte) (tokens : Bytes) : Bool :=
  if 1 ≤ tokens.length ∧ tokens.length ≤ 8 then tokens.reverse.foldl (fun r token => r || c == token) false
  else tokens.foldl (fun r token => r || c == token) false

/-- `__memtok_step`: whether no separator ends the token, and the extent. -/
def memtokStep (src tokens : Bytes) (extent : Extent) : Bool × Extent :=
  let head := if extent.length = 0 then src.takeWhile (istok · tokens) else []
  let offset := if extent.length = 0 then head.length else extent.offset
  let src := src.drop head.length
  let text := src.takeWhile (fun c => !istok c tokens)
  (text.length = src.length, { offset := offset, length := extent.length + text.length })

namespace ReaderMethods

/-- The loop of `z_v_reader_tokenize`. Each step takes a part, so that a reader has at most as many as it has bytes. -/
def tokenizeLoop {σ : Type} (vtable : ReaderMethods σ) (tokens : Bytes) :
    Nat → Extent → Slice.State → Nat → σ → Option (Nat × Slice.State × σ)
  | 0, _, _, _, _ => none
  | fuel + 1, extent, slice, nread, self => do
    let (buffer, self) ← vtable.next self
    if buffer.length = 0 then some (nread, slice, self)
    else
      let r := memtokStep buffer tokens extent
      if 0 < r.2.length then
        let offset := sizeSub r.2.offset extent.offset
        let length := sizeSub r.2.length extent.length
        let slice := Slice.append slice (buffer.drop offset) length
        if !r.1 then
          let lastRead := offset + length + 1
          some (nread + lastRead, slice, vtable.backup (sizeSub buffer.length lastRead) self)
        else vtable.tokenizeLoop tokens fuel r.2 slice (nread + buffer.length) self
      else vtable.tokenizeLoop tokens fuel Extent.reset slice (nread + buffer.length) self

/-- `z_v_reader_tokenize`: the number of bytes read, the token and the reader. -/
def tokenize {σ : Type} (vtable : ReaderMethods σ) (tokens : Bytes) (fuel : Nat) (self : σ) :
    Option (Nat × Slice.State × σ) := vtable.tokenizeLoop tokens fuel Extent.reset Slice.empty 0 self

end ReaderMethods

/-! ### Tokens of a string -/

/-- The length of the text at the start of a string with the separator that ends it. -/
def textRead (tokens str : Bytes) : Nat :=
  let text := str.takeWhile (fun c => c ∉ tokens)
  if text.length < str.length then text.length + 1 else text.length

/-- The first token of a string, and the number of bytes up to behind the separator that ends it. -/
def firstToken (tokens str : Bytes) : Bytes × Nat :=
  let rest := str.dropWhile (fun c => c ∈ tokens)
  (rest.takeWhile (fun c => c ∉ tokens), (str.takeWhile (fun c => c ∈ tokens)).length + textRead tokens rest)

/-- The pieces of a text that starts with some parts. -/
def textPieces (tokens : Bytes) : List Bytes → List Bytes
  | [] => []
  | part :: parts => if ∀ c ∈ part, c ∉ tokens then part :: textPieces tokens parts else [part.takeWhile (fun c => c ∉ tokens)]

def pieces (tokens : Bytes) : List Bytes → List Bytes
  | [] => []
  | part :: parts =>
    if ∀ c ∈ part, c ∈ tokens then pieces tokens parts else textPieces tokens (part.dropWhile (fun c => c ∈ tokens) :: parts)

variable {tokens part str : Bytes} {c : Byte}

theorem foldl_istok (l : Bytes) (r : Bool) : l.foldl (fun r token => r || c == token) r = (r || decide (c ∈ l)) := by
  induction l generalizing r with
  | nil => simp
  | cons token l ih =>
    rw [List.foldl_cons, ih, Bool.or_assoc]
    congr 1
    by_cases h : c = token
    · simp [h]
    · simp [h]

theorem istok_eq (c : Byte) (tokens : Bytes) : istok c tokens = decide (c ∈ tokens) := by
  rw [istok, foldl_istok, foldl_istok]
  simp

/-! ### Parts of a string -/

theorem takeWhile_length_eq_iff {p : Byte → Bool} : (part.takeWhile p).length = part.length ↔ ∀ c ∈ part, p c := by
  rw [← List.takeWhile_eq_self_iff]
  exact ⟨(List.takeWhile_prefix p).eq_of_length, congrArg List.length⟩

theorem textRead_append_of_all (h : ∀ c ∈ part, c ∉ tokens) (str : Bytes) :
    textRead tokens (part ++ str) = part.length + textRead tokens str := by
  simp only [textRead]
  rw [List.takeWhile_append_of_pos (by simpa using h), List.length_append, List.length_append]
  split_ifs <;> omega

theorem textRead_append_of_not (h : ¬ ∀ c ∈ part, c ∉ tokens) (str : Bytes) :
    (part.takeWhile (fun c => c ∉ tokens)).length < part.length ∧
      textRead tokens (part ++ str) = (part.takeWhile (fun c => c ∉ tokens)).length + 1 := by
  have hne : ¬ (part.takeWhile (fun c => c ∉ tokens)).length = part.length := by
    rw [takeWhile_length_eq_iff]
    simpa using h
  have hle := (List.takeWhile_prefix (l := part) (fun c => decide (c ∉ tokens))).length_le
  simp only [textRead]
  rw [List.takeWhile_append, if_neg hne, List.length_append, if_pos (by omega)]
  exact ⟨by omega, rfl⟩

theorem firstToken_append_of_all (h : ∀ c ∈ part, c ∈ tokens) (str : Bytes) :
    firstToken tokens (part ++ str) = ((firstToken tokens str).1, part.length + (firstToken tokens str).2) := by
  have hall : ∀ c ∈ part, decide (c ∈ tokens) = true := by simpa using h
  simp only [firstToken]
  rw [List.takeWhile_append_of_pos hall, List.dropWhile_append_of_pos hall, List.length_append, Nat.add_assoc]

/-- Behind the separators there is some text. -/
theorem text_pos (h : ¬ ∀ c ∈ part, c ∈ tokens) :
    0 < ((part.dropWhile (fun c => c ∈ tokens)).takeWhile (fun c => c ∉ tokens)).length := by
  have hhead := List.head?_dropWhile_not (fun c => decide (c ∈ tokens)) part
  cases hdrop : part.dropWhile (fun c => decide (c ∈ tokens)) with
  | nil =>
    rw [List.dropWhile_eq_nil_iff] at hdrop
    exact absurd (by simpa using hdrop) h
  | cons c text =>
    rw [hdrop] at hhead
    rw [List.takeWhile_cons_of_pos (by simpa using hhead)]
    exact Nat.succ_pos _

theorem firstToken_append_of_not (h : ¬ ∀ c ∈ part, c ∈ tokens) (str : Bytes) :
    (firstToken tokens (part ++ str)).2 = (part.takeWhile (fun c => c ∈ tokens)).length +
      textRead tokens (part.dropWhile (fun c => c ∈ tokens) ++ str) := by
  have hne : ¬ (part.takeWhile (fun c => c ∈ tokens)).length = part.length := by
    rw [takeWhile_length_eq_iff]
    simpa using h
  have hdrop : part.dropWhile (fun c => decide (c ∈ tokens)) ≠ [] := by
    rw [Ne, List.dropWhile_eq_nil_iff]
    simpa using h
  simp only [firstToken]
  rw [List.takeWhile_append, if_neg hne, List.dropWhile_append, if_neg (by simpa using hdrop)]

theorem textPieces_flatten (tokens : Bytes) (parts : List Bytes) :
    (textPieces tokens parts).flatten = parts.flatten.takeWhile (fun c => c ∉ tokens) := by
  induction parts with
  | nil => rfl
  | cons part parts ih =>
    rw [textPieces, List.flatten_cons, List.takeWhile_append]
    by_cases h : ∀ c ∈ part, c ∉ tokens
    · rw [if_pos h, if_pos (takeWhile_length_eq_iff.mpr (by simpa using h)), List.flatten_cons, ih]
    · rw [if_neg h, if_neg (by rw [takeWhile_length_eq_iff]; simpa using h), List.flatten_singleton]

theorem pieces_flatten (tokens : Bytes) (parts : List Bytes) :
    (pieces tokens parts).flatten = (firstToken tokens parts.flatten).1 := by
  induction parts with
  | nil => rfl
  | cons part parts ih =>
    rw [pieces, List.flatten_cons]
    by_cases h : ∀ c ∈ part, c ∈ tokens
    · rw [if_pos h, firstToken_append_of_all h, ih]
    · have hdrop : part.dropWhile (fun c => decide (c ∈ tokens)) ≠ [] := by
        rw [Ne, List.dropWhile_eq_nil_iff]
        simpa using h
      rw [if_neg h, textPieces_flatten, List.flatten_cons, firstToken, List.dropWhile_append, if_neg (by simpa using hdrop)]

namespace IovecReader

variable {iov : List Bytes} {reader : IovecReader} {pos : Nat}

/-- The parts that remain: what is left of the current chunk, and the following chunks. -/
def parts (iov : List Bytes) (reader : IovecReader) : List Bytes :=
  if reader.offset < (reader.current iov).length then (reader.current iov).drop reader.offset :: iov.drop (reader.ivec + 1)
  else iov.drop (reader.ivec + 1)

theorem At.parts_flatten (h : At iov reader pos) : (reader.parts iov).flatten = iov.flatten.drop pos := by
  have hparts : (reader.parts iov).flatten =
      (reader.current iov).drop reader.offset ++ (iov.drop (reader.ivec + 1)).flatten := by
    rw [parts]
    split_ifs with hmore
    · rfl
    · rw [List.drop_of_length_le (Nat.not_lt.mp hmore), List.nil_append]
  rw [hparts]
  by_cases hlt : reader.ivec < iov.length
  · rw [h.rest_eq hlt, current_eq hlt]
  · have hpos := h.pos_eq
    rw [List.take_of_length_le (Nat.not_lt.mp hlt)] at hpos
    rw [current, List.getD_eq_default _ _ (Nat.not_lt.mp hlt), List.drop_nil, List.drop_of_length_le (by omega),
      List.drop_of_length_le (by omega)]
    rfl

theorem At.next_parts (h : At iov reader pos) (hchunks : ∀ chunk ∈ iov, chunk ≠ []) :
    (reader.parts iov = [] ∧ reader.next iov = some ([], reader)) ∨
    ∃ part parts' reader', reader.parts iov = part :: parts' ∧ part ≠ [] ∧ reader.next iov = some (part, reader') ∧
      reader'.parts iov = parts' ∧ At iov reader' (pos + part.length) ∧ part.length ≤ reader'.offset := by
  by_cases hzero : reader.avail = 0
  · have hnil : (reader.parts iov).flatten = [] := by
      rw [h.parts_flatten]
      exact List.eq_nil_of_length_eq_zero (h.rest_length.trans hzero)
    refine .inl ⟨?_, if_pos hzero⟩
    rw [List.flatten_eq_nil_iff] at hnil
    rw [List.eq_nil_iff_forall_not_mem]
    intro part hpart
    have hpart' := hnil part hpart
    subst hpart'
    rw [parts] at hpart
    split_ifs at hpart with hmore
    · rcases List.mem_cons.mp hpart with heq | hmem
      · rw [eq_comm, List.drop_eq_nil_iff] at heq
        omega
      · exact hchunks [] (List.mem_of_mem_drop hmem) rfl
    · exact hchunks [] (List.mem_of_mem_drop hpart) rfl
  · right
    have hlt := h.lt_length (Nat.pos_of_ne_zero hzero)
    have hcurrent := current_eq hlt
    have hoffset := h.offset_le
    rw [parts, hcurrent]
    rw [hcurrent] at hoffset
    simp only [IovecReader.next, if_neg hzero, List.getElem?_eq_getElem hlt, Option.bind_eq_bind, Option.bind_some,
      sizeSub_of_le hoffset]
    by_cases hmore : reader.offset < iov[reader.ivec].length
    · have hall : (iov[reader.ivec].drop reader.offset).take (iov[reader.ivec].length - reader.offset) =
          iov[reader.ivec].drop reader.offset := List.take_of_length_le (by simp)
      rw [if_pos hmore, if_pos (by omega), bytesAt_of_le (by omega), hall, Option.bind_some]
      refine ⟨_, _, _, rfl, ?_, rfl, ?_, ?_, ?_⟩
      · rw [Ne, List.drop_eq_nil_iff]
        omega
      · rw [parts, current, List.getD_eq_getElem _ _ hlt, if_neg (by simp only; omega)]
      · rw [List.length_drop]
        exact h.advance hlt (by omega)
      · rw [List.length_drop]
        exact Nat.le_add_left _ _
    · have hend : reader.offset = (reader.current iov).length := by
        rw [hcurrent]
        omega
      have hnext : reader.ivec + 1 < iov.length := by
        by_contra hge
        have hleft := h.avail_eq_left hlt
        rw [List.drop_of_length_le (Nat.not_lt.mp hge)] at hleft
        simp only [List.flatten_nil, List.length_nil] at hleft
        omega
      have hadvance := (h.following hnext hend).advance hnext (n := iov[reader.ivec + 1].length) (by simp)
      rw [if_neg hmore, if_neg (by omega), List.getElem?_eq_getElem hnext, Option.bind_some]
      refine ⟨_, _, _, List.drop_eq_getElem_cons hnext, hchunks _ (List.getElem_mem hnext), rfl, ?_, ?_, Nat.le_refl _⟩
      · rw [parts, current, List.getD_eq_getElem _ _ hnext, if_neg (Nat.lt_irrefl _)]
      · simpa using hadvance

/-! ### The loop -/

/-- From a slice, a count and a place on, `n` more bytes are read, some pieces are appended as far as blocks take them, and
the reader goes on behind the bytes that were read. -/
def Reads (iov : List Bytes) (slice : Slice.State) (nread pos : Nat) (pieces : List Bytes) (n : Nat)
    (result : Option (Nat × Slice.State × IovecReader)) : Prop :=
  ∃ slice' reader', result = some (nread + n, slice', reader') ∧ slice'.Sound ∧
    slice'.content = slice.content ++ (pieces.map Slice.taken).flatten ∧ At iov reader' (pos + n)

variable {slice : Slice.State} {nread fuel : Nat} {extent : Extent}

theorem Reads.behind {slice' : Slice.State} {n m : Nat} {pieces : List Bytes}
    {result : Option (Nat × Slice.State × IovecReader)} {piece : Bytes}
    (h : Reads iov slice' (nread + n) (pos + n) pieces m result)
    (hcontent : slice'.content = slice.content ++ Slice.taken piece) :
    Reads iov slice nread pos (piece :: pieces) (n + m) result := by
  obtain ⟨slice'', reader', hresult, hsound, hcontent', hat⟩ := h
  refine ⟨slice'', reader', ?_, hsound, ?_, ?_⟩
  · rw [hresult, Nat.add_assoc]
  · rw [hcontent', hcontent, List.map_cons, List.flatten_cons, List.append_assoc]
  · rwa [← Nat.add_assoc]

/-- What is appended are the first bytes of the text. -/
theorem content_append_text (slice : Slice.State) (text : Bytes) {p : Byte → Bool} :
    (Slice.append slice text (text.takeWhile p).length).content = slice.content ++ Slice.taken (text.takeWhile p) := by
  have hle := (List.takeWhile_prefix (l := text) p).length_le
  have hpart := List.prefix_iff_eq_take.mp (List.takeWhile_prefix (l := text) p)
  rw [Slice.content_append, Slice.taken]
  conv_rhs => rw [hpart, List.length_take_of_le hle, List.take_take, Nat.min_eq_left (Nat.mod_le _ _)]

theorem At.reads_end (h : At iov reader pos) (hnext : reader.next iov = some ([], reader)) (hsound : slice.Sound) :
    Reads iov slice nread pos [] 0 ((methods iov).tokenizeLoop tokens (fuel + 1) extent slice nread reader) := by
  have hmethod : (methods iov).next reader = some ([], reader) := hnext
  refine ⟨slice, reader, ?_, hsound, (List.append_nil _).symm, h⟩
  simp only [ReaderMethods.tokenizeLoop, hmethod]
  rfl

/-- A part with some text from an offset on. The text ends in it, or the loop goes on. -/
theorem At.tokenizeLoop_part {part text : Bytes} {reader' : IovecReader} {offset : Nat} {extent' : Extent} {rest : List Bytes}
    (hnext : reader.next iov = some (part, reader')) (hat : At iov reader' (pos + part.length))
    (hback : part.length ≤ reader'.offset) (hsound : slice.Sound) (htext : part.drop offset = text)
    (hoffset : offset + text.length = part.length) (hsome : part ≠ [])
    (hstep : memtokStep part tokens extent =
      (decide ((text.takeWhile (fun c => c ∉ tokens)).length = text.length), extent'))
    (hextent : 0 < extent'.length) (hoff : sizeSub extent'.offset extent.offset = offset)
    (hlen : sizeSub extent'.length extent.length = (text.takeWhile (fun c => c ∉ tokens)).length)
    (ih : ∀ {slice' : Slice.State}, slice'.Sound → Reads iov slice' (nread + part.length) (pos + part.length)
      (textPieces tokens rest) (textRead tokens rest.flatten)
      ((methods iov).tokenizeLoop tokens fuel extent' slice' (nread + part.length) reader')) :
    Reads iov slice nread pos (textPieces tokens (text :: rest)) (offset + textRead tokens (text ++ rest.flatten))
      ((methods iov).tokenizeLoop tokens (fuel + 1) extent slice nread reader) := by
  have hloop : (methods iov).tokenizeLoop tokens (fuel + 1) extent slice nread reader =
      if !decide ((text.takeWhile (fun c => c ∉ tokens)).length = text.length) then
        some (nread + (offset + (text.takeWhile (fun c => c ∉ tokens)).length + 1),
          Slice.append slice text (text.takeWhile (fun c => c ∉ tokens)).length,
          reader'.backup (sizeSub part.length (offset + (text.takeWhile (fun c => c ∉ tokens)).length + 1)))
      else (methods iov).tokenizeLoop tokens fuel extent'
        (Slice.append slice text (text.takeWhile (fun c => c ∉ tokens)).length) (nread + part.length) reader' := by
    have hmethod : (methods iov).next reader = some (part, reader') := hnext
    rw [ReaderMethods.tokenizeLoop, hmethod, Option.bind_eq_bind, Option.bind_some]
    simp only [hstep, hoff, hlen, htext]
    rw [if_neg (by rwa [List.length_eq_zero_iff]), if_pos hextent]
    rfl
  have hle := (List.takeWhile_prefix (l := text) (fun c => decide (c ∉ tokens))).length_le
  have happend := hsound.append hle
  rw [hloop, textPieces]
  by_cases hall : ∀ c ∈ text, c ∉ tokens
  · have heq := takeWhile_length_eq_iff.mpr (show ∀ c ∈ text, decide (c ∉ tokens) = true by simpa using hall)
    have hself := List.takeWhile_eq_self_iff.mpr (show ∀ c ∈ text, decide (c ∉ tokens) = true by simpa using hall)
    rw [if_pos hall, if_neg (by simpa using heq), textRead_append_of_all hall, ← Nat.add_assoc, hoffset]
    refine (ih happend).behind ?_
    rw [content_append_text, hself]
  · obtain ⟨hlt, hread⟩ := textRead_append_of_not hall rest.flatten
    have hlast : offset + (text.takeWhile (fun c => c ∉ tokens)).length + 1 ≤ part.length := by omega
    have hplace := hat.back (show part.length - (offset + (text.takeWhile (fun c => c ∉ tokens)).length + 1) ≤
      reader'.offset by omega)
    rw [show pos + part.length - (part.length - (offset + (text.takeWhile (fun c => c ∉ tokens)).length + 1)) =
      pos + (offset + (text.takeWhile (fun c => c ∉ tokens)).length + 1) by omega] at hplace
    rw [if_neg hall, if_pos (by simpa using Nat.ne_of_lt hlt), hread, sizeSub_of_le hlast, ← Nat.add_assoc]
    refine ⟨_, _, rfl, happend, ?_, hplace⟩
    rw [content_append_text, List.map_singleton, List.flatten_singleton]

/-- Within a token. -/
theorem At.tokenizeLoop_text (h : At iov reader pos) (hchunks : ∀ chunk ∈ iov, chunk ≠ []) (hsound : slice.Sound)
    (hextent : 0 < extent.length) (hfuel : (reader.parts iov).flatten.length < fuel) :
    Reads iov slice nread pos (textPieces tokens (reader.parts iov)) (textRead tokens (reader.parts iov).flatten)
      ((methods iov).tokenizeLoop tokens fuel extent slice nread reader) := by
  induction fuel generalizing reader pos slice nread extent with
  | zero => omega
  | succ fuel ih =>
    obtain ⟨hparts, hnext⟩ | ⟨part, rest, reader', hparts, hsome, hnext, hrest, hat, hback⟩ := h.next_parts hchunks
    · rw [hparts]
      exact h.reads_end hnext hsound
    · rw [hparts, List.flatten_cons, List.length_append] at hfuel
      have hpos := List.length_pos_of_ne_nil hsome
      have hstep : memtokStep part tokens extent = (decide ((part.takeWhile (fun c => c ∉ tokens)).length = part.length),
          { offset := extent.offset, length := extent.length + (part.takeWhile (fun c => c ∉ tokens)).length }) := by
        simp [memtokStep, Nat.ne_of_gt hextent, istok_eq]
      rw [hparts, List.flatten_cons, ← Nat.zero_add (textRead tokens _)]
      exact At.tokenizeLoop_part hnext hat hback hsound List.drop_zero (Nat.zero_add _) hsome hstep
        (Nat.add_pos_left hextent _) ((sizeSub_of_le (Nat.le_refl _)).trans (Nat.sub_self _))
        ((sizeSub_of_le (Nat.le_add_right _ _)).trans (Nat.add_sub_cancel_left ..))
        (fun hsound' => hrest ▸ ih hat hsound' (Nat.add_pos_left hextent _) (by rw [hrest]; omega))

/-- In front of a token. -/
theorem At.tokenizeLoop_head (h : At iov reader pos) (hchunks : ∀ chunk ∈ iov, chunk ≠ []) (hsound : slice.Sound)
    (hfuel : (reader.parts iov).flatten.length < fuel) :
    Reads iov slice nread pos (pieces tokens (reader.parts iov)) (firstToken tokens (reader.parts iov).flatten).2
      ((methods iov).tokenizeLoop tokens fuel Extent.reset slice nread reader) := by
  induction fuel generalizing reader pos slice nread with
  | zero => omega
  | succ fuel ih =>
    obtain ⟨hparts, hnext⟩ | ⟨part, rest, reader', hparts, hsome, hnext, hrest, hat, hback⟩ := h.next_parts hchunks
    · rw [hparts]
      exact h.reads_end hnext hsound
    · rw [hparts, List.flatten_cons, List.length_append] at hfuel
      have hpos := List.length_pos_of_ne_nil hsome
      have hsplit := List.takeWhile_append_dropWhile (p := fun c => decide (c ∈ tokens)) (l := part)
      have hlen := congrArg List.length hsplit
      rw [List.length_append] at hlen
      have hdrop : part.drop (part.takeWhile (fun c => c ∈ tokens)).length = part.dropWhile (fun c => c ∈ tokens) := by
        conv_lhs => rhs; rw [← hsplit]
        exact List.drop_left
      have hstep : memtokStep part tokens Extent.reset =
          (decide (((part.dropWhile (fun c => c ∈ tokens)).takeWhile (fun c => c ∉ tokens)).length =
              (part.dropWhile (fun c => c ∈ tokens)).length),
            { offset := (part.takeWhile (fun c => c ∈ tokens)).length,
              length := 0 + ((part.dropWhile (fun c => c ∈ tokens)).takeWhile (fun c => c ∉ tokens)).length }) := by
        simp [memtokStep, Extent.reset, istok_eq, hdrop]
      rw [hparts, List.flatten_cons, pieces]
      by_cases hall : ∀ c ∈ part, c ∈ tokens
      · have hnil : part.dropWhile (fun c => decide (c ∈ tokens)) = [] := by
          rw [List.dropWhile_eq_nil_iff]
          simpa using hall
        have hmethod : (methods iov).next reader = some (part, reader') := hnext
        have hloop : (methods iov).tokenizeLoop tokens (fuel + 1) Extent.reset slice nread reader =
            (methods iov).tokenizeLoop tokens fuel Extent.reset slice (nread + part.length) reader' := by
          rw [ReaderMethods.tokenizeLoop, hmethod, Option.bind_eq_bind, Option.bind_some]
          simp only [hstep, hnil]
          rw [if_neg (by rwa [List.length_eq_zero_iff]), if_neg (by simp)]
        have hreads : Reads iov slice (nread + part.length) (pos + part.length) _ _ _ := ih hat hsound (by rw [hrest]; omega)
        rw [hrest] at hreads
        obtain ⟨slice', reader'', hresult, hsound', hcontent, hat'⟩ := hreads
        rw [if_pos hall, firstToken_append_of_all hall, hloop]
        exact ⟨slice', reader'', by rw [hresult, Nat.add_assoc], hsound', hcontent, by rwa [← Nat.add_assoc]⟩
      · have htext := text_pos hall
        rw [if_neg hall, firstToken_append_of_not hall]
        exact At.tokenizeLoop_part hnext hat hback hsound hdrop hlen hsome hstep
          (by rwa [Nat.zero_add]) ((sizeSub_of_le (Nat.zero_le _)).trans (Nat.sub_zero _))
          ((sizeSub_of_le (Nat.zero_le _)).trans ((Nat.sub_zero _).trans (Nat.zero_add _)))
          (fun hsound' => hrest ▸ hat.tokenizeLoop_text hchunks hsound' (by rwa [Nat.zero_add]) (by rw [hrest]; omega))

/-! ### The token -/

/-- The token as it is appended, piece by piece as far as blocks take them. -/
theorem At.tokenize_eq (tokens : Bytes) (h : At iov reader pos) (hchunks : ∀ chunk ∈ iov, chunk ≠ [])
    (hfuel : (iov.flatten.drop pos).length < fuel) : ∃ slice reader', (methods iov).tokenize tokens fuel reader =
        some ((firstToken tokens (iov.flatten.drop pos)).2, slice, reader') ∧ slice.Sound ∧
      slice.content = ((pieces tokens (reader.parts iov)).map Slice.taken).flatten ∧
      At iov reader' (pos + (firstToken tokens (iov.flatten.drop pos)).2) := by
  have hflatten := h.parts_flatten
  have hreads : Reads iov Slice.empty 0 pos _ _ ((methods iov).tokenize tokens fuel reader) :=
    h.tokenizeLoop_head hchunks Slice.sound_empty (hflatten ▸ hfuel)
  obtain ⟨slice, reader', hresult, hsound, hcontent, hat⟩ := hreads
  rw [hflatten, Nat.zero_add] at hresult
  rw [hflatten] at hat
  exact ⟨slice, reader', hresult, hsound, hcontent, hat⟩

/-- A slice with the whole token took each piece of it. -/
theorem At.pieces_fit (h : At iov reader pos)
    (hcontent : slice.content = ((pieces tokens (reader.parts iov)).map Slice.taken).flatten)
    (htoken : slice.content = (firstToken tokens (iov.flatten.drop pos)).1) :
    ∀ piece ∈ pieces tokens (reader.parts iov), piece.length < 2 ^ 32 := by
  refine Slice.fit_of_length_le ?_
  rw [pieces_flatten, h.parts_flatten, ← htoken, hcontent]

/-- Over any chunks with bytes, from any place on, the first token of the bytes that remain is returned, with the number of
bytes up to behind the separator that ends it, and the reader goes on from there, exactly when a block has room for each
piece of the token. -/
theorem tokenize_iff (tokens : Bytes) (h : At iov reader pos) (hchunks : ∀ chunk ∈ iov, chunk ≠ [])
    (hfuel : (iov.flatten.drop pos).length < fuel) :
    (∃ slice reader', (methods iov).tokenize tokens fuel reader =
        some ((firstToken tokens (iov.flatten.drop pos)).2, slice, reader') ∧
      Slice.Denotes slice (firstToken tokens (iov.flatten.drop pos)).1 ∧
      At iov reader' (pos + (firstToken tokens (iov.flatten.drop pos)).2)) ↔
    ∀ piece ∈ pieces tokens (reader.parts iov), piece.length < 2 ^ 32 := by
  obtain ⟨slice, reader', hresult, hsound, hcontent, hat⟩ := h.tokenize_eq tokens hchunks hfuel
  constructor
  · rintro ⟨slice', reader'', heq, ⟨-, htoken⟩, -⟩
    simp only [hresult, Option.some.injEq, Prod.mk.injEq, true_and] at heq
    obtain ⟨rfl, rfl⟩ := heq
    exact h.pieces_fit hcontent htoken
  · intro hfit
    refine ⟨slice, reader', hresult, ⟨hsound, ?_⟩, hat⟩
    rw [hcontent, List.map_congr_left (fun piece hpiece => Slice.taken_eq (hfit piece hpiece)), List.map_id', pieces_flatten,
      h.parts_flatten]

theorem tokenize_over_chunks : ∃ slice reader',
    (methods [[32, 65], [66], [32, 67]]).tokenize [32] 6 (opened [[32, 65], [66], [32, 67]]) = some (4, slice, reader') ∧
      Slice.Denotes slice [65, 66] ∧ At [[32, 65], [66], [32, 67]] reader' 4 := by
  have hpieces : pieces [32] ((opened [[32, 65], [66], [32, 67]]).parts [[32, 65], [66], [32, 67]]) = [[65], [66], []] := by
    decide +kernel
  have htoken : firstToken [32] ([[32, 65], [66], [32, 67]].flatten.drop 0) = ([65, 66], 4) := by decide +kernel
  have h := (tokenize_iff [32] (At.opened [[32, 65], [66], [32, 67]]) (by decide) (show _ < 6 by decide)).mpr
    (by rw [hpieces]; simp)
  rw [htoken] at h
  exact h

theorem pieces_replicate {n : Nat} (h : 0 < n) :
    pieces [32] ((opened [List.replicate n 65]).parts [List.replicate n 65]) = [List.replicate n 65] := by
  have hne : n ≠ 0 := Nat.ne_of_gt h
  simp [parts, opened, current, pieces, textPieces, hne, h]

/-- A token of `2 ^ 32` bytes in one chunk is lost. -/
theorem long_token_lost : ¬ ∃ slice reader',
    (methods [List.replicate (2 ^ 32) 65]).tokenize [32] (2 ^ 32 + 1) (opened [List.replicate (2 ^ 32) 65]) =
        some ((firstToken [32] (List.replicate (2 ^ 32) 65)).2, slice, reader') ∧
      Slice.Denotes slice (firstToken [32] (List.replicate (2 ^ 32) 65)).1 := by
  have hat := At.opened [List.replicate (2 ^ 32) (65 : Byte)]
  have hflatten : [List.replicate (2 ^ 32) (65 : Byte)].flatten.drop 0 = List.replicate (2 ^ 32) 65 := by
    rw [List.drop_zero, List.flatten_singleton]
  obtain ⟨slice, reader', hresult, -, hcontent, -⟩ := hat.tokenize_eq [32]
    (fun chunk hchunk => by
      rw [List.mem_singleton.mp hchunk, Ne, List.replicate_eq_nil_iff]
      exact Nat.ne_of_gt (Nat.two_pow_pos 32))
    (show _ < 2 ^ 32 + 1 by rw [hflatten, List.length_replicate]; exact Nat.lt_succ_self _)
  rw [hflatten] at hresult
  rintro ⟨slice', reader'', heq, -, htoken⟩
  simp only [hresult, Option.some.injEq, Prod.mk.injEq, true_and] at heq
  obtain ⟨rfl, rfl⟩ := heq
  have hfit := hat.pieces_fit hcontent (by rw [htoken, hflatten])
  rw [pieces_replicate (Nat.two_pow_pos 32)] at hfit
  have hlt := hfit _ (List.mem_singleton_self _)
  rw [List.length_replicate] at hlt
  exact Nat.lt_irrefl _ hlt

end IovecReader

end RaleighSL.Zcl
