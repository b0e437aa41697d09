import RaleighSL.Zcl.Reader.Iovec

/-!
# Fetches from chunks

A fetch of the iovec reader over chunks with bytes has no result exactly when it takes all bytes
that remain over the end of a chunk: its loop then looks at an entry behind the array.
-/
namespace RaleighSL.Zcl.IovecReader

/-- The number of bytes left of the current chunk, or that of the following one if there are none. -/
def left (iov : List Bytes) (reader : IovecReader) : Nat :=
  if reader.offset < (reader.current iov).length then (reader.current iov).length - reader.offset
  else (iov.getD (reader.ivec + 1) []).length

variable {iov : List Bytes} {reader : IovecReader} {pos length : Nat}

/-- The loop does not end within the chunks when it takes all of them. -/
theorem fetchChunks_all (iov : List Bytes) : fetchChunks iov iov.flatten.length = none := by
  induction iov with
  | nil => rfl
  | cons base iov ih =>
    rw [List.flatten_cons, List.length_append, fetchChunks, if_pos (Nat.le_add_right _ _), Nat.add_sub_cancel_left, ih]
    rfl

theorem At.fetchFrom_none (h : At iov reader pos) (hlt : reader.ivec < iov.length)
    (hmore : iov[reader.ivec].length - reader.offset < reader.avail) :
    IovecReader.fetchFrom iov reader.avail iov[reader.ivec] reader = none := by
  have hoffset := h.offset_le
  rw [current_eq hlt] at hoffset
  have hleft := h.avail_eq_left hlt
  have hrest : reader.avail - (iov[reader.ivec].length - reader.offset) =
      (iov.drop (reader.ivec + 1)).flatten.length := by
    omega
  rw [IovecReader.fetchFrom, sizeSub_of_le hoffset, if_neg (Nat.not_le.mpr hmore), bytesAt_of_le (by omega), hrest,
    fetchChunks_all]
  rfl

/-- More bytes remain than are left when there is a chunk behind. -/
theorem At.following_lt (h : At iov reader pos) (hpos : 0 < reader.avail)
    (hend : reader.offset = (reader.current iov).length) : reader.ivec + 1 < iov.length := by
  have hlt := h.lt_length hpos
  have hleft := h.avail_eq_left hlt
  rw [current_eq hlt] at hend
  by_contra hge
  rw [List.drop_of_length_le (Nat.not_lt.mp hge)] at hleft
  simp only [List.flatten_nil, List.length_nil] at hleft
  omega

/-- All bytes that remain are not fetched over the end of a chunk. -/
theorem At.fetch_none (h : At iov reader pos) (hpos : 0 < reader.avail) (hleft : reader.left iov < reader.avail) :
    reader.fetch iov reader.avail = none := by
  have hlt := h.lt_length hpos
  have hcurrent := congrArg List.length (current_eq hlt)
  have hoffset := h.offset_le
  rw [left] at hleft
  rw [hcurrent] at hoffset hleft
  simp only [IovecReader.fetch, if_neg (Nat.lt_irrefl _), List.getElem?_eq_getElem hlt, Option.bind_eq_bind,
    Option.bind_some, sizeSub_of_le hoffset]
  by_cases hend : iov[reader.ivec].length - reader.offset = 0
  · have hnext := h.following_lt hpos (by omega)
    have hfollow := h.following hnext (by omega)
    rw [if_neg (by omega), List.getD_eq_getElem _ _ hnext] at hleft
    rw [if_pos hend, List.getElem?_eq_getElem hnext, Option.bind_some]
    exact hfollow.fetchFrom_none hnext hleft
  · rw [if_pos (by omega)] at hleft
    rw [if_neg hend]
    exact h.fetchFrom_none hlt hleft

/-- A fetch of some bytes has a result when they are there and others remain or one chunk has them. -/
theorem At.fetch_some (h : At iov reader pos) (hpos : 0 < length) (hle : length ≤ reader.avail)
    (hok : length < reader.avail ∨ length ≤ reader.left iov) :
    ∃ reader', reader.fetch iov length = some (some ((iov.flatten.drop pos).take length), reader') ∧
      At iov reader' (pos + length) := by
  have hsafe : Safe iov reader (.fetch length) := by
    intro hall
    have hleft : length ≤ reader.left iov := hok.resolve_left (by omega)
    rw [left] at hleft
    by_cases hmore : reader.offset < (reader.current iov).length
    · rw [if_pos hmore] at hleft
      exact .inl ⟨by omega, hmore⟩
    · rw [if_neg hmore] at hleft
      have hend : reader.offset = (reader.current iov).length := Nat.le_antisymm h.offset_le (Nat.not_lt.mp hmore)
      exact .inr ⟨hend, h.following_lt (by omega) hend, hleft⟩
  obtain ⟨hlack, -⟩ | ⟨-, hfetch⟩ := h.fetch hsafe
  · omega
  · exact hfetch

theorem fetch_lack (hlack : reader.avail < length) : reader.fetch iov length = some (none, reader) := if_pos hlack

theorem At.fetch_isSome_iff (h : At iov reader pos) (hpos : 0 < length) (hle : length ≤ reader.avail) :
    (reader.fetch iov length).isSome ↔ length < reader.avail ∨ length ≤ reader.left iov := by
  constructor
  · intro hsome
    by_contra hnot
    obtain ⟨hall, hleft⟩ := not_or.mp hnot
    obtain rfl : length = reader.avail := by omega
    rw [h.fetch_none hpos (Nat.not_le.mp hleft)] at hsome
    simp at hsome
  · intro hok
    obtain ⟨reader', hfetch, -⟩ := h.fetch_some hpos hle hok
    rw [hfetch]
    rfl

/-! ### The last chunk -/

/-- The last of some chunks is no longer than all of them, and as long only when it is the only one. -/
theorem flatten_le_last_iff {chunks : List Bytes} (hchunks : ∀ chunk ∈ chunks, chunk ≠ []) (hne : chunks ≠ []) :
    (chunks.getLastD []).length ≤ chunks.flatten.length ∧
      (chunks.flatten.length ≤ (chunks.getLastD []).length ↔ chunks.length = 1) := by
  cases chunks with
  | nil => exact absurd rfl hne
  | cons first behind =>
    cases behind with
    | nil => simp
    | cons next behind =>
      have hfirst := List.length_pos_iff.mpr (hchunks first List.mem_cons_self)
      have hlast := (List.sublist_flatten_of_mem (List.getLastD_mem_cons (l := behind) (a := next))).length_le
      rw [List.flatten_cons, List.length_append]
      simp only [List.length_cons, List.getLastD_cons]
      omega

theorem getLastD_drop {n : Nat} (hn : n < iov.length) : (iov.drop n).getLastD [] = iov.getLastD [] := by
  rw [List.getLastD_eq_getLast?, List.getLastD_eq_getLast?, List.getLast?_drop, if_neg (Nat.not_le.mpr hn)]

/-- One chunk has all the bytes that remain exactly when the last one has as many. -/
theorem At.avail_le_left_iff (h : At iov reader pos) (hchunks : ∀ chunk ∈ iov, chunk ≠ []) (hpos : 0 < reader.avail) :
    reader.avail ≤ reader.left iov ↔ reader.avail ≤ (iov.getLastD []).length := by
  have hlt := h.lt_length hpos
  have havail := h.avail_eq_left hlt
  have hcurrent := congrArg List.length (current_eq hlt)
  have hoffset := h.offset_le
  have hbehind : ∀ chunk ∈ iov.drop (reader.ivec + 1), chunk ≠ [] := fun _ hmem => hchunks _ (List.mem_of_mem_drop hmem)
  rw [left, hcurrent]
  rw [hcurrent] at hoffset
  by_cases hnext : reader.ivec + 1 < iov.length
  · have hcons := List.drop_eq_getElem_cons hnext
    obtain ⟨hlast, honly⟩ := flatten_le_last_iff hbehind (by rw [hcons]; exact List.cons_ne_nil _ _)
    rw [getLastD_drop hnext] at hlast honly
    have hsome := List.length_pos_iff.mpr (hchunks _ (List.getElem_mem hnext))
    have hsum := congrArg (fun chunks : List Bytes => chunks.flatten.length) hcons
    simp only [List.flatten_cons, List.length_append] at hsum
    by_cases hmore : reader.offset < iov[reader.ivec].length
    · rw [if_pos hmore]
      omega
    · have hall : reader.avail = (iov.drop (reader.ivec + 1)).flatten.length := by omega
      rw [if_neg hmore, List.getD_eq_getElem _ _ hnext, hall, honly, hsum, hcons, List.length_cons]
      constructor
      · intro hle
        have hnil : (iov.drop (reader.ivec + 1 + 1)).flatten = [] := List.eq_nil_of_length_eq_zero (by omega)
        by_contra hmany
        obtain ⟨chunk, hmem⟩ := List.exists_mem_of_ne_nil (iov.drop (reader.ivec + 1 + 1)) (fun heq => hmany (by rw [heq]; rfl))
        exact hchunks chunk (List.mem_of_mem_drop hmem) (List.flatten_eq_nil_iff.mp hnil chunk hmem)
      · intro hone
        rw [List.eq_nil_of_length_eq_zero (Nat.succ.inj hone)]
        exact Nat.le_refl _
  · have hlast : iov.getLastD [] = iov[reader.ivec] := by
      rw [← getLastD_drop hlt, List.drop_eq_getElem_cons hlt, List.drop_of_length_le (Nat.not_lt.mp hnext)]
      rfl
    rw [List.drop_of_length_le (Nat.not_lt.mp hnext)] at havail
    simp only [List.flatten_nil, List.length_nil] at havail
    rw [if_pos (by omega), hlast]
    omega

/-! ### The first part -/

/-- Over chunks with bytes the next part is what is left of one of them. -/
theorem At.next_left (h : At iov reader pos) (hchunks : ∀ chunk ∈ iov, chunk ≠ []) (hpos : 0 < reader.avail) :
    ∃ reader', reader.next iov = some ((iov.flatten.drop pos).take (reader.left iov), reader') ∧
      At iov reader' (pos + reader.left iov) ∧ reader.left iov ≤ reader'.offset ∧ 0 < reader.left iov ∧
      reader.left iov ≤ reader.avail ∧ (reader'.backup (reader.left iov)).left iov = reader.left iov := by
  have hlt := h.lt_length hpos
  have hcurrent := congrArg List.length (current_eq hlt)
  have hoffset := h.offset_le
  rw [left]
  rw [hcurrent] at hoffset ⊢
  simp only [IovecReader.next, if_neg (Nat.ne_of_gt hpos), List.getElem?_eq_getElem hlt, Option.bind_eq_bind,
    Option.bind_some, sizeSub_of_le hoffset]
  by_cases hmore : reader.offset < iov[reader.ivec].length
  · have hleft := h.avail_eq_left hlt
    have htake : (iov[reader.ivec].drop reader.offset ++ (iov.drop (reader.ivec + 1)).flatten).take
        (iov[reader.ivec].length - reader.offset) = iov[reader.ivec].drop reader.offset :=
      List.take_left' List.length_drop
    rw [if_pos hmore, if_pos (by omega), bytesAt_of_le (by omega), h.rest_eq hlt, htake,
      List.take_of_length_le (by rw [List.length_drop]), Option.bind_some]
    refine ⟨_, rfl, h.advance hlt (by omega), Nat.le_add_left _ _, by omega, by omega, ?_⟩
    simp only [backup, left, current, List.getD_eq_getElem _ _ hlt, sizeSub_of_le (Nat.le_add_left _ _), Nat.add_sub_cancel]
    rw [if_pos hmore]
  · have hend : reader.offset = (reader.current iov).length := by
      rw [hcurrent]
      omega
    have hnext := h.following_lt hpos hend
    have hfollow := h.following hnext hend
    have hchunk := List.length_pos_iff.mpr (hchunks _ (List.getElem_mem hnext))
    have hleft := hfollow.avail_eq_left hnext
    rw [if_neg hmore, if_neg (by omega), List.getElem?_eq_getElem hnext, Option.bind_some, List.getD_eq_getElem _ _ hnext,
      hfollow.rest_eq hnext, List.drop_zero, List.take_left]
    have hadvance := hfollow.advance hnext (n := iov[reader.ivec + 1].length) (by simp)
    refine ⟨_, rfl, by simpa using hadvance, Nat.le_refl _, hchunk, by simp only at hleft; omega, ?_⟩
    simp only [backup, left, current, List.getD_eq_getElem _ _ hnext, sizeSub_of_le (Nat.le_refl _), Nat.sub_self]
    rw [if_pos hchunk, Nat.sub_zero]

end RaleighSL.Zcl.IovecReader
