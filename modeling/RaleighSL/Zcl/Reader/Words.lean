import RaleighSL.Zcl.Reader.Tokenize

/-!
# The words of a string

The words of a string are what stands between its separators. A tokenizer takes them one after the
other, from chunks that may have empty ones at the end, and a token without bytes is an empty slice.
-/
namespace RaleighSL.Zcl

def words (tokens str : Bytes) : List Bytes := (str.splitOnP tokens.contains).filter (fun word => !word.isEmpty)

variable {tokens str text : Bytes} {c : Byte}

theorem words_cons_separator (h : c ∈ tokens) (str : Bytes) : words tokens (c :: str) = words tokens str := by
  rw [words, List.splitOnP_cons_eq_if_modifyHead, if_pos (by simpa using h)]
  rfl

theorem words_separators {blanks : Bytes} (h : ∀ c ∈ blanks, c ∈ tokens) (str : Bytes) :
    words tokens (blanks ++ str) = words tokens str := by
  induction blanks with
  | nil => rfl
  | cons c blanks ih =>
    rw [List.cons_append, words_cons_separator (h c List.mem_cons_self)]
    exact ih (fun d hd => h d (List.mem_cons_of_mem c hd))

theorem words_of_text (h : ∀ c ∈ text, c ∉ tokens) : words tokens text = if text = [] then [] else [text] := by
  rw [words, List.splitOnP_eq_singleton (by simpa using h)]
  cases text <;> rfl

theorem words_text_cons (h : ∀ c ∈ text, c ∉ tokens) (hc : c ∈ tokens) (hsome : text ≠ []) (str : Bytes) :
    words tokens (text ++ c :: str) = text :: words tokens str := by
  rw [words, List.splitOnP_append_cons_of_forall_mem (by simpa using h) c (by simpa using hc), List.filter_cons_of_pos (by simpa using hsome)]
  rfl

/-- The text at the start of a string, and the words behind it. -/
theorem words_text (tokens str : Bytes) (hsome : str.takeWhile (fun c => c ∉ tokens) ≠ []) :
    words tokens str = str.takeWhile (fun c => c ∉ tokens) :: words tokens (str.drop (textRead tokens str)) := by
  have htext : ∀ c ∈ str.takeWhile (fun c => c ∉ tokens), c ∉ tokens := by
    intro c hc
    simpa using List.mem_takeWhile_imp hc
  have hsplit := List.takeWhile_append_dropWhile (p := fun c => decide (c ∉ tokens)) (l := str)
  have hhead := List.head?_dropWhile_not (fun c => decide (c ∉ tokens)) str
  generalize hword : str.takeWhile (fun c => decide (c ∉ tokens)) = word at hsome htext hsplit
  cases hrest : str.dropWhile (fun c => decide (c ∉ tokens)) with
  | nil =>
    rw [hrest, List.append_nil] at hsplit
    rw [textRead, hword, hsplit, if_neg (Nat.lt_irrefl _), List.drop_length, ← hsplit, words_of_text htext, if_neg hsome]
    rfl
  | cons c rest =>
    rw [hrest] at hsplit hhead
    have hc : c ∈ tokens := by simpa using hhead
    have hread : textRead tokens str = word.length + 1 := by
      rw [textRead, hword, if_pos]
      rw [← hsplit, List.length_append, List.length_cons]
      omega
    have hdrop : str.drop (word.length + 1) = rest := by
      rw [← hsplit, ← List.drop_drop, List.drop_left]
      rfl
    rw [hread, hdrop, ← words_text_cons htext hc hsome rest, hsplit]

/-- The first token is the first word, and the others stand behind it. -/
theorem words_eq (tokens str : Bytes) : words tokens str =
    if (firstToken tokens str).1 = [] then []
    else (firstToken tokens str).1 :: words tokens (str.drop (firstToken tokens str).2) := by
  have hblanks : ∀ c ∈ str.takeWhile (fun c => c ∈ tokens), c ∈ tokens := by
    intro c hc
    simpa using List.mem_takeWhile_imp hc
  have hsplit := List.takeWhile_append_dropWhile (p := fun c => decide (c ∈ tokens)) (l := str)
  have hwords := words_separators hblanks (str.dropWhile (fun c => c ∈ tokens))
  rw [hsplit] at hwords
  rw [hwords]
  by_cases hnone : (firstToken tokens str).1 = []
  · rw [if_pos hnone]
    have hhead := List.head?_dropWhile_not (fun c => decide (c ∈ tokens)) str
    simp only [firstToken] at hnone
    cases hrest : str.dropWhile (fun c => decide (c ∈ tokens)) with
    | nil => rfl
    | cons c rest =>
      rw [hrest] at hhead hnone
      rw [List.takeWhile_cons_of_pos (by simpa using hhead)] at hnone
      exact absurd hnone (List.cons_ne_nil _ _)
  · rw [if_neg hnone, words_text tokens _ hnone]
    have hdrop : str.drop (str.takeWhile (fun c => c ∈ tokens)).length = str.dropWhile (fun c => c ∈ tokens) := by
      conv_lhs => rhs; rw [← hsplit]
      exact List.drop_left
    rw [firstToken, ← List.drop_drop, hdrop]

/-- A string without words is separators only, and read as a whole. -/
theorem firstToken_of_nil (h : (firstToken tokens str).1 = []) : (firstToken tokens str).2 = str.length := by
  by_cases hall : ∀ c ∈ str, c ∈ tokens
  · have htoken := firstToken_append_of_all hall []
    rw [List.append_nil] at htoken
    rw [htoken]
    rfl
  · exact absurd h (List.ne_nil_of_length_pos (text_pos hall))

theorem firstToken_sublist (tokens str : Bytes) : ((firstToken tokens str).1).Sublist str :=
  (List.takeWhile_sublist _).trans (List.dropWhile_sublist _)

theorem firstToken_le (tokens str : Bytes) : (firstToken tokens str).2 ≤ str.length := by
  have hsplit := congrArg List.length (List.takeWhile_append_dropWhile (p := fun c => decide (c ∈ tokens)) (l := str))
  have hle := (List.takeWhile_prefix (l := str.dropWhile (fun c => decide (c ∈ tokens))) (fun c => decide (c ∉ tokens))).length_le
  rw [List.length_append] at hsplit
  simp only [firstToken, textRead]
  split_ifs <;> omega

theorem firstToken_pos (hsome : str ≠ []) : 0 < (firstToken tokens str).2 := by
  by_cases hnone : (firstToken tokens str).1 = []
  · rw [firstToken_of_nil hnone]
    exact List.length_pos_of_ne_nil hsome
  · have hpos := List.length_pos_of_ne_nil hnone
    simp only [firstToken, textRead] at hpos ⊢
    split_ifs <;> omega

/-! ### A token without bytes -/

namespace Slice

/-- A slice without bytes in its first block has none at all. -/
def State.Led (s : State) : Prop :=
  s.head.block₀.size = 0 → s.head.block₁.size = 0 ∧ s.head.block₂.size = 0 ∧ s.rest = []

variable {s : State}

theorem led_empty : empty.Led := fun _ => ⟨rfl, rfl, rfl⟩

theorem State.Led.append (h : s.Led) (data : Bytes) (size : Nat) : (append s data size).Led := by
  by_cases hfirst : s.head.block₀.size = 0
  · obtain ⟨hsecond, hthird, hrest⟩ := h hfirst
    intro _
    simp [Slice.append, hrest, putLast, Node.putTail, Block.isEmpty, hfirst, hsecond, hthird]
  · intro hzero
    refine absurd ?_ hfirst
    rw [← hzero, Slice.append]
    cases s.rest with
    | cons next rest => rfl
    | nil =>
      rw [putLast, Node.putTail]
      simp only [Block.isEmpty, hfirst, decide_false, Bool.not_false, if_true]
      split_ifs <;> rfl

theorem State.Led.content_eq_nil (h : s.Led) (hfirst : s.head.block₀.size = 0) (hsound : s.Sound) : s.content = [] := by
  obtain ⟨hsecond, hthird, hrest⟩ := h hfirst
  rw [hsound.content_eq_nil, State.blocks, hrest, Node.blocks]
  simp [hfirst, hsecond, hthird]

theorem State.Led.isEmpty_iff (h : s.Led) (hsound : s.Sound) : isEmpty s = true ↔ s.content = [] := by
  rw [hsound.isEmpty_iff.mpr (fun hfirst => h.content_eq_nil hfirst hsound), decide_eq_true_iff]

theorem State.Led.startsWith_iff (h : s.Led) (hsound : s.Sound) (c : Byte) :
    startsWith s [c] = true ↔ s.content.head? = some c := by
  rw [hsound.startsWith_eq_true]
  constructor
  · rintro ⟨-, rest, hcontent⟩
    rw [← hcontent]
    rfl
  · intro hhead
    have hsome : s.content ≠ [] := fun hnil => by rw [hnil] at hhead; cases hhead
    obtain ⟨rest, hrest⟩ := List.head?_eq_some_iff.mp hhead
    exact ⟨Nat.pos_of_ne_zero (fun hfirst => hsome (h.content_eq_nil hfirst hsound)), rest, hrest.symm⟩

end Slice

theorem ReaderMethods.tokenizeLoop_led {σ : Type} {vtable : ReaderMethods σ} {fuel nread n : Nat} {extent : Extent}
    {slice slice' : Slice.State} {self self' : σ} (h : slice.Led)
    (hloop : vtable.tokenizeLoop tokens fuel extent slice nread self = some (n, slice', self')) : slice'.Led := by
  induction fuel generalizing extent slice nread self with
  | zero => cases hloop
  | succ fuel ih =>
    simp only [tokenizeLoop, Option.bind_eq_bind, Option.bind_eq_some_iff] at hloop
    obtain ⟨⟨buffer, next⟩, -, hloop⟩ := hloop
    split_ifs at hloop
    · cases hloop
      exact h
    · cases hloop
      exact h.append _ _
    · exact ih (h.append _ _) hloop
    · exact ih h hloop

/-! ### Empty chunks at the end -/

namespace IovecReader

variable {iov : List Bytes} {reader : IovecReader} {pos : Nat}

theorem flatten_padded (iov : List Bytes) (k : Nat) : (iov ++ List.replicate k []).flatten = iov.flatten := by simp

theorem At.next_padded (h : At iov reader pos) (k : Nat) :
    reader.next (iov ++ List.replicate k []) = reader.next iov := by
  by_cases hzero : reader.avail = 0
  · rw [IovecReader.next, IovecReader.next, if_pos hzero, if_pos hzero]
  · have hlt := h.lt_length (Nat.pos_of_ne_zero hzero)
    have hoffset := h.offset_le
    have hleft := h.avail_eq_left hlt
    rw [current_eq hlt] at hoffset
    have hcurrent : (iov ++ List.replicate k [])[reader.ivec]? = iov[reader.ivec]? := List.getElem?_append_left hlt
    simp only [IovecReader.next, if_neg hzero, hcurrent, List.getElem?_eq_getElem hlt, Option.bind_eq_bind,
      Option.bind_some, sizeSub_of_le hoffset]
    by_cases hmore : 0 < iov[reader.ivec].length - reader.offset
    · rw [if_pos hmore, if_pos hmore]
    · have hnext : reader.ivec + 1 < iov.length := by
        by_contra hge
        rw [List.drop_of_length_le (Nat.not_lt.mp hge)] at hleft
        simp only [List.flatten_nil, List.length_nil] at hleft
        omega
      have hfollowing : (iov ++ List.replicate k [])[reader.ivec + 1]? = iov[reader.ivec + 1]? :=
        List.getElem?_append_left hnext
      rw [if_neg hmore, if_neg hmore, hfollowing]

theorem At.tokenizeLoop_padded {fuel nread : Nat} {extent : Extent} {slice : Slice.State} (h : At iov reader pos)
    (hchunks : ∀ chunk ∈ iov, chunk ≠ []) (k : Nat) :
    (methods (iov ++ List.replicate k [])).tokenizeLoop tokens fuel extent slice nread reader =
      (methods iov).tokenizeLoop tokens fuel extent slice nread reader := by
  induction fuel generalizing reader pos extent slice nread with
  | zero => rfl
  | succ fuel ih =>
    obtain ⟨data, reader', hnext, -, -, hat, -⟩ := h.next (h.safe_next hchunks)
    have hpadded : (methods (iov ++ List.replicate k [])).next reader = some (data, reader') :=
      (h.next_padded k).trans hnext
    have hplain : (methods iov).next reader = some (data, reader') := hnext
    simp only [ReaderMethods.tokenizeLoop, hpadded, hplain, Option.bind_eq_bind, Option.bind_some, ih hat]
    rfl

/-- What remains of the chunks behind a reader, where the chunks that are empty stand at the end. -/
def Remains (iov : List Bytes) (reader : IovecReader) (rest : Bytes) : Prop :=
  ∃ full k pos, iov = full ++ List.replicate k [] ∧ (∀ chunk ∈ full, chunk ≠ []) ∧ At full reader pos ∧
    full.flatten.drop pos = rest

theorem remains_opened (full : List Bytes) (h : ∀ chunk ∈ full, chunk ≠ []) (k : Nat) :
    Remains (full ++ List.replicate k []) (opened (full ++ List.replicate k [])) full.flatten := by
  refine ⟨full, k, 0, rfl, h, ?_, List.drop_zero⟩
  rw [opened, flatten_padded]
  exact At.opened full

/-- The first token of what remains is read into a slice, and the rest remains. -/
theorem Remains.tokenize {rest : Bytes} {fuel : Nat} (h : Remains iov reader rest) (hsmall : iov.flatten.length < 2 ^ 32)
    (hfuel : iov.flatten.length < fuel) (tokens : Bytes) : ∃ slice reader',
      (methods iov).tokenize tokens fuel reader = some ((firstToken tokens rest).2, slice, reader') ∧
      slice.Sound ∧ slice.Led ∧ slice.content = (firstToken tokens rest).1 ∧
      Remains iov reader' (rest.drop (firstToken tokens rest).2) := by
  obtain ⟨full, k, pos, rfl, hchunks, hat, rfl⟩ := h
  rw [flatten_padded] at hsmall hfuel
  have hle : (full.flatten.drop pos).length ≤ full.flatten.length := by
    rw [List.length_drop]
    exact Nat.sub_le _ _
  obtain ⟨slice, reader', hresult, hsound, hcontent, hat'⟩ := hat.tokenize_eq tokens hchunks (Nat.lt_of_le_of_lt hle hfuel)
  have hfit : ∀ piece ∈ pieces tokens (reader.parts full), piece.length < 2 ^ 32 := by
    intro piece hpiece
    have htoken := pieces_flatten tokens (reader.parts full)
    have hpart := (List.sublist_flatten_of_mem hpiece).length_le
    rw [htoken, hat.parts_flatten] at hpart
    have hshort := (firstToken_sublist tokens (full.flatten.drop pos)).length_le
    omega
  refine ⟨slice, reader', (hat.tokenizeLoop_padded hchunks k).trans hresult, hsound,
    ReaderMethods.tokenizeLoop_led Slice.led_empty hresult, ?_, full, k, _, rfl, hchunks, hat', (List.drop_drop ..).symm⟩
  rw [hcontent, List.map_congr_left (fun piece hpiece => Slice.taken_eq (hfit piece hpiece)), List.map_id', pieces_flatten,
    hat.parts_flatten]

end IovecReader

end RaleighSL.Zcl
