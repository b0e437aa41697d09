import RaleighSL.Zcl.Slice.Content

/-!
# The front of a slice

Four functions stop at a block without bytes: the length, the comparison and the test for a prefix
see no further, and the test for no bytes looks at the first block only. A prepend looks for a free
block in the first node and uses the first one, which is behind the blocks in front of it.
-/
namespace RaleighSL.Zcl.Slice

variable {s : State} {b : Block} {blocks : List Block} {node : Node} {data : Bytes} {size : Nat}

theorem inFront_empty (h : b.isEmpty = true) : inFront (b :: blocks) = [] :=
  List.takeWhile_cons_of_neg (by simp [h])

theorem inFront_cons (h : b.isEmpty = false) : inFront (b :: blocks) = b :: inFront blocks :=
  List.takeWhile_cons_of_pos (by simp [h])

theorem run_isPart (s : State) : s.run <+: s.content := by
  obtain ⟨rest, hrest⟩ := List.takeWhile_prefix (l := s.blocks) (fun b => !b.isEmpty)
  refine ⟨bytesOf rest, ?_⟩
  rw [State.run, State.content, ← bytesOf_append, inFront, hrest]

/-- All bytes are in front of the first block without bytes. -/
def State.Tight (s : State) : Prop := s.run = s.content

/-! ### The length -/

theorem lengthFrom_eq {n : Nat} (h : ∀ b ∈ blocks, b.Sound) (hn : n < 2 ^ 64) :
    lengthFrom blocks n = (n + (bytesOf (inFront blocks)).length) % 2 ^ 64 := by
  induction blocks generalizing n with
  | nil => exact (Nat.mod_eq_of_lt hn).symm
  | cons b blocks ih =>
    have hb := (h b List.mem_cons_self).length
    rw [lengthFrom]
    cases hempty : b.isEmpty
    · rw [if_neg (not_isEmpty_iff.mp hempty), inFront_cons hempty, bytesOf_cons, List.length_append, hb,
        ih (fun c hc => h c (List.mem_cons_of_mem b hc)) (Nat.mod_lt _ (by decide)), Nat.mod_add_mod, Nat.add_assoc]
    · rw [if_pos (isEmpty_iff.mp hempty), inFront_empty hempty]
      exact (Nat.mod_eq_of_lt hn).symm

theorem State.Sound.length_eq_iff (h : s.Sound) :
    length s = s.content.length ↔ s.Tight ∧ s.content.length < 2 ^ 64 := by
  have hlen : Slice.length s = s.run.length % 2 ^ 64 := by
    rw [Slice.length, lengthFrom_eq h (by decide), Nat.zero_add]
    rfl
  have hle := (run_isPart s).length_le
  rw [hlen]
  constructor
  · intro heq
    have hmod := Nat.mod_le s.run.length (2 ^ 64)
    have hlt := Nat.mod_lt s.run.length (show 0 < 2 ^ 64 by decide)
    exact ⟨(run_isPart s).eq_of_length (by omega), by omega⟩
  · rintro ⟨htight, hlt⟩
    rw [htight, Nat.mod_eq_of_lt hlt]

/-! ### No bytes -/

theorem State.Sound.isEmpty_iff (h : s.Sound) :
    isEmpty s = decide (s.content = []) ↔ (s.head.block₀.size = 0 → s.content = []) := by
  have hb : s.head.block₀.Sound := h _ List.mem_cons_self
  have hcontent : s.content = s.head.block₀.bytes ++ bytesOf (s.blocks.drop 1) := rfl
  rw [isEmpty, Block.isEmpty, decide_eq_decide]
  refine ⟨fun hiff hzero => hiff.mp hzero, fun himp => ⟨himp, fun hnil => ?_⟩⟩
  rw [hcontent, List.append_eq_nil_iff] at hnil
  exact hb.bytes_eq_nil.mp hnil.1

/-! ### Comparison -/

theorem Block.Sound.startsWith_iff (h : b.Sound) {n : Nat} (hn : n ≤ data.length) :
    b.startsWith data n = true ↔ data.take n <+: b.bytes := by
  rw [Block.startsWith, Bool.and_eq_true, decide_eq_true_iff, decide_eq_true_iff]
  constructor
  · rintro ⟨hle, htake⟩
    rw [← htake, Block.bytes]
    exact List.take_prefix_take_left hle
  · intro hpart
    have hle := hpart.length_le
    rw [List.length_take_of_le hn, h.length] at hle
    refine ⟨hle, ?_⟩
    have htake := List.prefix_iff_eq_take.mp hpart
    rw [List.length_take_of_le hn, Block.bytes, List.take_take, Nat.min_eq_left hle] at htake
    exact htake.symm

theorem equalsFrom_iff (h : ∀ b ∈ blocks, b.Sound) : equalsFrom blocks data = true ↔ data = bytesOf (inFront blocks) := by
  induction blocks generalizing data with
  | nil =>
    rw [equalsFrom, decide_eq_true_iff, List.length_eq_zero_iff]
    rfl
  | cons b blocks ih =>
    have hb := h b List.mem_cons_self
    have hlen := hb.length
    rw [equalsFrom]
    cases hempty : b.isEmpty
    · have hsize := not_isEmpty_iff.mp hempty
      rw [inFront_cons hempty, bytesOf_cons]
      by_cases hlt : data.length < b.size
      · rw [if_pos hlt]
        refine iff_of_false Bool.false_ne_true ?_
        rintro rfl
        rw [List.length_append, hlen] at hlt
        omega
      · have hmin : min data.length b.size = b.size := Nat.min_eq_right (Nat.not_lt.mp hlt)
        rw [if_neg hlt, hmin, if_neg hsize]
        have hstarts := hb.startsWith_iff (Nat.not_lt.mp hlt)
        by_cases hpre : data.take b.size = b.bytes
        · rw [hstarts.mpr (hpre ▸ List.prefix_refl _), if_neg (by decide), ih (fun c hc => h c (List.mem_cons_of_mem b hc))]
          constructor
          · intro hdrop
            rw [← hdrop, ← hpre, List.take_append_drop]
          · rintro rfl
            exact List.drop_left' hlen
        · rw [if_pos, iff_false_left Bool.false_ne_true]
          · rintro rfl
            exact hpre (by rw [← hlen, List.take_left])
          · rw [Bool.not_eq_true', ← Bool.not_eq_true, hstarts]
            intro hpart
            exact hpre (hpart.eq_of_length (by rw [List.length_take_of_le (Nat.not_lt.mp hlt), hlen]))
    · have hsize := isEmpty_iff.mp hempty
      rw [inFront_empty hempty, hsize, if_neg (Nat.not_lt_zero _), Nat.min_zero, if_pos rfl, decide_eq_true_iff,
        List.length_eq_zero_iff]
      rfl

/-- A comparison sees the run. -/
theorem State.Sound.equals_iff (h : s.Sound) :
    equals s data = decide (data = s.content) ↔ s.Tight ∨ (data ≠ s.content ∧ data ≠ s.run) := by
  rw [Bool.eq_iff_iff, equals, equalsFrom_iff h, decide_eq_true_iff]
  show (data = s.run ↔ data = s.content) ↔ s.run = s.content ∨ _
  constructor
  · intro hiff
    by_cases hdata : data = s.content
    · exact Or.inl ((hiff.mpr hdata).symm.trans hdata)
    · exact Or.inr ⟨hdata, fun hrun => hdata (hiff.mp hrun)⟩
  · rintro (htight | ⟨hcontent, hrun⟩)
    · rw [htight]
    · exact iff_of_false hrun hcontent

/-! ### Prefixes -/

theorem startsWithFrom_nil (blocks : List Block) : startsWithFrom blocks [] = true := by
  cases blocks with
  | nil => rfl
  | cons b blocks =>
    rw [startsWithFrom, List.length_nil, Nat.zero_min, if_pos rfl]
    rfl

/-- A prefix is found when the first block holds all of it. -/
theorem State.Sound.startsWith_eq_true (h : s.Sound) :
    startsWith s data = true ↔ data.length ≤ s.head.block₀.size ∧ data <+: s.content := by
  have hb : s.head.block₀.Sound := h _ List.mem_cons_self
  have hcontent : s.content = s.head.block₀.bytes ++ bytesOf (s.blocks.drop 1) := rfl
  have hstarts := hb.startsWith_iff (Nat.le_refl data.length)
  rw [List.take_length] at hstarts
  show startsWithFrom (s.head.block₀ :: s.blocks.drop 1) data = true ↔ _
  rw [startsWithFrom]
  by_cases hn : min data.length s.head.block₀.size = 0
  · rw [if_pos hn, decide_eq_true_iff]
    constructor
    · intro hzero
      rw [List.length_eq_zero_iff.mp hzero]
      exact ⟨Nat.zero_le _, List.nil_prefix⟩
    · rintro ⟨hle, -⟩
      rwa [Nat.min_eq_left hle] at hn
  · rw [if_neg hn]
    by_cases hpre : data <+: s.head.block₀.bytes
    · have hle := hpre.length_le
      rw [hb.length] at hle
      rw [hstarts.mpr hpre, if_neg (by decide), Nat.min_eq_left hle, List.drop_length, startsWithFrom_nil]
      exact iff_of_true rfl ⟨hle, by rw [hcontent]; exact hpre.trans (List.prefix_append ..)⟩
    · rw [if_pos (by rw [Bool.not_eq_true', ← Bool.not_eq_true, hstarts]; exact hpre)]
      refine iff_of_false Bool.false_ne_true ?_
      rintro ⟨hle, hpart⟩
      rw [hcontent] at hpart
      exact hpre (List.prefix_of_prefix_length_le hpart (List.prefix_append ..) (by rw [hb.length]; exact hle))

/-! ### Copying -/

theorem copyFrom_eq (h : ∀ b ∈ blocks, b.Sound) (size : Nat) : copyFrom blocks size = (bytesOf blocks).take size := by
  induction blocks generalizing size with
  | nil => rw [copyFrom, bytesOf_nil, List.take_nil]
  | cons b blocks ih =>
    have hlen := (h b List.mem_cons_self).length
    rw [copyFrom, ih (fun c hc => h c (List.mem_cons_of_mem b hc)), bytesOf_cons, List.take_append, Block.bytes,
      List.take_take, List.length_take_of_le (h b List.mem_cons_self).le]
    congr 2
    omega

/-! ### Prepending -/

/-- The bytes of the first node that are in front of its first free block. -/
def State.front (s : State) : Bytes := bytesOf (inFront s.head.blocks)

/-- The state lets a prepend put bytes in front: the first block is free, or no block of the first node is, or it makes no
difference that the bytes come behind the front, where the copied bytes of a size are the same as those they replace. -/
def CanPrepend (s : State) (data : Bytes) : Prop :=
  s.head.block₀.size = 0 ∨ (s.head.block₁.size ≠ 0 ∧ s.head.block₂.size ≠ 0) ∨
    data ++ s.front = s.front ++ data ∧
      (s.head.block₁.size = 0 ∨ s.head.block₁.size % 2 ^ 16 = s.head.block₀.size % 2 ^ 16)

def State.behind (s : State) : Bytes := bytesOf (s.rest.flatMap Node.blocks)

theorem content_head (s : State) : s.content =
    s.head.block₀.bytes ++ (s.head.block₁.bytes ++ (s.head.block₂.bytes ++ s.behind)) := rfl

theorem State.Sound.of_blocks {s' : State} (h : s.Sound) (hblocks : ∀ c ∈ s'.blocks, c ∈ s.blocks ∨ c.Sound) : s'.Sound := by
  intro c hc
  rcases hblocks c hc with hold | hnew
  · exact h c hold
  · exact hnew

/-- The first block is free. -/
theorem prepend_first (h : s.Sound) (hfree : s.head.block₀.size = 0) (hsize : size ≤ data.length) :
    (prepend s data size).Sound ∧ (prepend s data size).content = data.take (size % 2 ^ 32) ++ s.content := by
  have hempty := isEmpty_iff.mpr hfree
  have heq : prepend s data size = { s with head := { s.head with block₀ := Block.ofData data size } } := by
    rw [prepend, if_pos hempty]
  rw [heq]
  refine ⟨h.of_blocks ?_, ?_⟩
  · intro c hc
    rcases List.mem_cons.mp hc with rfl | hc
    · exact Or.inr (sound_ofData hsize)
    · exact Or.inl (List.mem_cons_of_mem _ hc)
  · rw [content_head, content_head s, bytes_of_isEmpty hempty, List.nil_append]
    rfl

/-- No block of the first node is free. -/
theorem prepend_full (h : s.Sound) (h₀ : s.head.block₀.size ≠ 0) (h₁ : s.head.block₁.size ≠ 0)
    (h₂ : s.head.block₂.size ≠ 0) (hsize : size ≤ data.length) :
    (prepend s data size).Sound ∧ (prepend s data size).content = data.take (size % 2 ^ 32) ++ s.content := by
  have heq : prepend s data size = { head := Node.single (Block.ofData data size), rest := s.head :: s.rest } := by
    rw [prepend, if_neg (not_isEmpty_iff.mpr h₀ ▸ Bool.false_ne_true),
      if_neg (not_isEmpty_iff.mpr h₁ ▸ Bool.false_ne_true), if_neg (not_isEmpty_iff.mpr h₂ ▸ Bool.false_ne_true)]
  rw [heq]
  refine ⟨h.of_blocks ?_, rfl⟩
  intro c hc
  rcases List.mem_cons.mp hc with rfl | hc
  · exact Or.inr (sound_ofData hsize)
  rcases List.mem_cons.mp hc with rfl | hc
  · exact Or.inr sound_zero
  rcases List.mem_cons.mp hc with rfl | hc
  · exact Or.inr sound_zero
  · exact Or.inl hc

/-- The second block is the first free one. -/
theorem prepend_second (h : s.Sound) (h₀ : s.head.block₀.size ≠ 0) (h₁ : s.head.block₁.size = 0)
    (hsize : size ≤ data.length) : (prepend s data size).Sound ∧ s.front = s.head.block₀.bytes ∧
      (prepend s data size).content = s.front ++ data.take (size % 2 ^ 32) ++ s.head.block₂.bytes ++ s.behind ∧
      s.content = s.front ++ s.head.block₂.bytes ++ s.behind := by
  have hempty := isEmpty_iff.mpr h₁
  have heq : prepend s data size = { s with head := { s.head with block₁ := Block.ofData data size } } := by
    rw [prepend, if_neg (not_isEmpty_iff.mpr h₀ ▸ Bool.false_ne_true), if_pos hempty]
    rfl
  have hfront : s.front = s.head.block₀.bytes := by
    rw [State.front, Node.blocks, inFront_cons (not_isEmpty_iff.mpr h₀), inFront_empty hempty, bytesOf_cons, bytesOf_nil,
      List.append_nil]
  rw [heq, hfront]
  refine ⟨h.of_blocks ?_, rfl, ?_, ?_⟩
  · intro c hc
    rcases List.mem_cons.mp hc with rfl | hc
    · exact Or.inl List.mem_cons_self
    rcases List.mem_cons.mp hc with rfl | hc
    · exact Or.inr (sound_ofData hsize)
    · exact Or.inl (List.mem_cons_of_mem _ (List.mem_cons_of_mem _ hc))
  · rw [content_head, List.append_assoc, List.append_assoc]
    rfl
  · rw [content_head, bytes_of_isEmpty hempty, List.nil_append, List.append_assoc]

/-- The second block with the two bytes of its size that are copied from the first one. -/
def State.moved (s : State) : Block := (s.head.move 2).block₁

/-- The third block is the first free one. -/
theorem prepend_third (data : Bytes) (size : Nat) (h₀ : s.head.block₀.size ≠ 0) (h₁ : s.head.block₁.size ≠ 0) (h₂ : s.head.block₂.size = 0) :
    prepend s data size = { s with head := { s.head.move 2 with block₂ := Block.ofData data size } } ∧
      s.front = s.head.block₀.bytes ++ s.head.block₁.bytes ∧
      (prepend s data size).content = s.head.block₀.bytes ++ s.moved.bytes ++ data.take (size % 2 ^ 32) ++ s.behind ∧
      s.content = s.front ++ s.behind := by
  have hempty := isEmpty_iff.mpr h₂
  have heq : prepend s data size = { s with head := { s.head.move 2 with block₂ := Block.ofData data size } } := by
    rw [prepend, if_neg (not_isEmpty_iff.mpr h₀ ▸ Bool.false_ne_true),
      if_neg (not_isEmpty_iff.mpr h₁ ▸ Bool.false_ne_true), if_pos hempty]
  have hfront : s.front = s.head.block₀.bytes ++ s.head.block₁.bytes := by
    rw [State.front, Node.blocks, inFront_cons (not_isEmpty_iff.mpr h₀), inFront_cons (not_isEmpty_iff.mpr h₁),
      inFront_empty hempty, bytesOf_cons, bytesOf_cons, bytesOf_nil, List.append_nil]
  refine ⟨heq, hfront, ?_, ?_⟩
  · rw [heq, content_head, List.append_assoc, List.append_assoc]
    rfl
  · rw [content_head, hfront, bytes_of_isEmpty hempty, List.nil_append, List.append_assoc]

theorem moved_eq_iff : s.moved.size = s.head.block₁.size ↔
    s.head.block₁.size % 2 ^ 16 = s.head.block₀.size % 2 ^ 16 := by
  show s.head.block₁.size / 256 ^ 2 * 256 ^ 2 + s.head.block₀.size % 256 ^ 2 = s.head.block₁.size ↔ _
  rw [show 256 ^ 2 = 2 ^ 16 from rfl]
  omega

theorem take_mod_eq_iff : data.take (data.length % 2 ^ 32) = data ↔ data.length < 2 ^ 32 := by
  constructor
  · intro heq
    have hlen := congrArg List.length heq
    rw [List.length_take_of_le (Nat.mod_le _ _)] at hlen
    omega
  · intro hlt
    rw [Nat.mod_eq_of_lt hlt, List.take_length]

theorem length_take_mod : (data.take (data.length % 2 ^ 32)).length = data.length % 2 ^ 32 :=
  List.length_take_of_le (Nat.mod_le _ _)

theorem prepend_second_iff (h : s.Sound) (h₀ : s.head.block₀.size ≠ 0) (h₁ : s.head.block₁.size = 0) :
    ((prepend s data data.length).Sound ∧ (prepend s data data.length).content = data ++ s.content) ↔
      data.length < 2 ^ 32 ∧ data ++ s.front = s.front ++ data := by
  obtain ⟨hsound, -, hnew, hold⟩ := prepend_second h h₀ h₁ (Nat.le_refl data.length)
  rw [hnew, hold, and_iff_right hsound]
  constructor
  · intro heq
    have hlen := congrArg List.length heq
    simp only [List.length_append, length_take_mod] at hlen
    have hlt : data.length < 2 ^ 32 := by omega
    rw [take_mod_eq_iff.mpr hlt, ← List.append_assoc, ← List.append_assoc, List.append_cancel_right_eq,
      List.append_cancel_right_eq] at heq
    exact ⟨hlt, heq.symm⟩
  · rintro ⟨hlt, hcomm⟩
    rw [take_mod_eq_iff.mpr hlt, ← List.append_assoc, ← List.append_assoc, hcomm]

theorem prepend_third_iff (h : s.Sound) (h₀ : s.head.block₀.size ≠ 0) (h₁ : s.head.block₁.size ≠ 0)
    (h₂ : s.head.block₂.size = 0) :
    ((prepend s data data.length).Sound ∧ (prepend s data data.length).content = data ++ s.content) ↔
      data.length < 2 ^ 32 ∧ data ++ s.front = s.front ++ data ∧
        s.head.block₁.size % 2 ^ 16 = s.head.block₀.size % 2 ^ 16 := by
  obtain ⟨hprepend, hfront, hnew, hold⟩ := prepend_third data data.length h₀ h₁ h₂
  have hb₁ : s.head.block₁.Sound := h _ (by simp [State.blocks, Node.blocks])
  rw [hnew, hold, ← moved_eq_iff]
  constructor
  · rintro ⟨hsound, heq⟩
    have hmoved : s.moved.Sound := hsound _ (by rw [hprepend]; simp [State.blocks, Node.blocks, State.moved])
    have hlen := congrArg List.length heq
    rw [hfront] at hlen
    simp only [List.length_append, length_take_mod, hmoved.length, hb₁.length] at hlen
    have hsize : s.moved.size = s.head.block₁.size / 2 ^ 16 * 2 ^ 16 + s.head.block₀.size % 2 ^ 16 := rfl
    have hlt : data.length < 2 ^ 32 := by omega
    have heqsize : s.moved.size = s.head.block₁.size := by
      rw [Nat.mod_eq_of_lt hlt] at hlen
      omega
    have hbytes : s.moved.bytes = s.head.block₁.bytes := by
      rw [Block.bytes, heqsize]
      rfl
    rw [take_mod_eq_iff.mpr hlt, hbytes, ← hfront, ← List.append_assoc, List.append_cancel_right_eq] at heq
    exact ⟨hlt, heq.symm, heqsize⟩
  · rintro ⟨hlt, hcomm, heqsize⟩
    have hmoved : s.moved = s.head.block₁ := by
      show { s.head.block₁ with size := s.moved.size } = _
      rw [heqsize]
    refine ⟨?_, ?_⟩
    · rw [hprepend]
      refine h.of_blocks ?_
      intro c hc
      rcases List.mem_cons.mp hc with rfl | hc
      · exact Or.inl List.mem_cons_self
      rcases List.mem_cons.mp hc with rfl | hc
      · exact Or.inr (show s.moved.Sound by rw [hmoved]; exact hb₁)
      rcases List.mem_cons.mp hc with rfl | hc
      · exact Or.inr (sound_ofData (Nat.le_refl _))
      · exact Or.inl (List.mem_cons_of_mem _ (List.mem_cons_of_mem _ (List.mem_cons_of_mem _ hc)))
    · rw [take_mod_eq_iff.mpr hlt, hmoved, ← hfront, ← List.append_assoc, hcomm]

/-- A prepend puts the bytes in front exactly when they fit a block and the state lets it. -/
theorem State.Sound.prepend_iff (h : s.Sound) :
    ((prepend s data data.length).Sound ∧ (prepend s data data.length).content = data ++ s.content) ↔
      data.length < 2 ^ 32 ∧ CanPrepend s data := by
  rw [CanPrepend]
  by_cases h₀ : s.head.block₀.size = 0
  · obtain ⟨hsound, hcontent⟩ := prepend_first h h₀ (Nat.le_refl data.length)
    rw [hcontent, List.append_cancel_right_eq, take_mod_eq_iff, and_iff_right hsound]
    simp [h₀]
  by_cases h₁ : s.head.block₁.size = 0
  · rw [prepend_second_iff h h₀ h₁]
    simp [h₀, h₁]
  by_cases h₂ : s.head.block₂.size = 0
  · rw [prepend_third_iff h h₀ h₁ h₂]
    simp [h₀, h₁, h₂]
  · obtain ⟨hsound, hcontent⟩ := prepend_full h h₀ h₁ h₂ (Nat.le_refl data.length)
    rw [hcontent, List.append_cancel_right_eq, take_mod_eq_iff, and_iff_right hsound]
    simp [h₁, h₂]

end RaleighSL.Zcl.Slice
