import RaleighSL.Zcl.Slice.Model

/-!
# The content of a slice

A slice stands for the bytes of its blocks, one after the other. An append puts bytes behind them
and a trim takes bytes away in front. The functions that take a block without bytes for the end
see the bytes in front of the first such block only.
-/
namespace RaleighSL.Zcl.Slice

def bytesOf (blocks : List Block) : Bytes := blocks.flatMap Block.bytes

/-- The bytes that a slice stands for. -/
def State.content (s : State) : Bytes := bytesOf s.blocks

def inFront (blocks : List Block) : List Block := blocks.takeWhile (fun b => !b.isEmpty)

/-- The bytes in front of the first block without bytes. -/
def State.run (s : State) : Bytes := bytesOf (inFront s.blocks)

/-- A block is within what it was made from, and its size has 32 bits. -/
structure Block.Sound (b : Block) : Prop where
  le : b.size ≤ b.data.length
  lt : b.size < 2 ^ 32

def State.Sound (s : State) : Prop := ∀ b ∈ s.blocks, b.Sound

variable {s : State} {b : Block} {blocks : List Block} {node : Node} {data : Bytes} {size : Nat}

/-! ### Blocks -/

theorem bytesOf_append (l m : List Block) : bytesOf (l ++ m) = bytesOf l ++ bytesOf m := List.flatMap_append

@[simp] theorem bytesOf_nil : bytesOf [] = [] := rfl

@[simp] theorem bytesOf_cons : bytesOf (b :: blocks) = b.bytes ++ bytesOf blocks := rfl

theorem isEmpty_iff : b.isEmpty = true ↔ b.size = 0 := decide_eq_true_iff

theorem not_isEmpty_iff : b.isEmpty = false ↔ b.size ≠ 0 := decide_eq_false_iff_not

theorem bytes_of_isEmpty (h : b.isEmpty = true) : b.bytes = [] := by
  rw [Block.bytes, isEmpty_iff.mp h, List.take_zero]

@[simp] theorem bytes_zero : Block.zero.bytes = [] := rfl

theorem Block.Sound.length (h : b.Sound) : b.bytes.length = b.size := List.length_take_of_le h.le

theorem Block.Sound.bytes_eq_nil (h : b.Sound) : b.bytes = [] ↔ b.size = 0 := by
  rw [← List.length_eq_zero_iff, h.length]

theorem sound_zero : Block.zero.Sound := ⟨Nat.le_refl 0, by decide⟩

theorem sound_ofData (h : size ≤ data.length) : (Block.ofData data size).Sound :=
  ⟨Nat.le_trans (Nat.mod_le _ _) h, Nat.mod_lt _ (by decide)⟩

theorem bytes_ofData : (Block.ofData data size).bytes = data.take (size % 2 ^ 32) := rfl

theorem bytes_ofData_all (h : data.length < 2 ^ 32) : (Block.ofData data data.length).bytes = data := by
  rw [bytes_ofData, Nat.mod_eq_of_lt h, List.take_length]

/-! ### Appending -/

/-- The free blocks at the end of a node, behind the others. -/
theorem putTail_split {node' : Node} (h : node.putTail b = some node') : ∃ l m m', node.blocks = l ++ m ∧
    (∀ c ∈ m, c.isEmpty = true) ∧ node'.blocks = l ++ b :: m' ∧ ∀ c ∈ m', c.isEmpty = true := by
  rw [Node.putTail] at h
  cases h₂ : node.block₂.isEmpty
  · simp [h₂] at h
  cases h₁ : node.block₁.isEmpty
  · simp [h₂, h₁] at h
    subst h
    refine ⟨[node.block₀, node.block₁], [node.block₂], [], rfl, ?_, rfl, by simp⟩
    simpa using h₂
  cases h₀ : node.block₀.isEmpty
  · simp [h₂, h₁, h₀] at h
    subst h
    refine ⟨[node.block₀], [node.block₁, node.block₂], [node.block₂], rfl, ?_, rfl, by simpa using h₂⟩
    simpa using ⟨h₁, h₂⟩
  · simp [h₂, h₁, h₀] at h
    subst h
    refine ⟨[], [node.block₀, node.block₁, node.block₂], [node.block₁, node.block₂], rfl, ?_, rfl, by simpa using ⟨h₁, h₂⟩⟩
    simpa using ⟨h₀, h₁, h₂⟩

/-- A block is put behind all blocks with bytes. -/
theorem putLast_split (b : Block) (node : Node) (rest : List Node) : ∃ l m m',
    node.blocks ++ rest.flatMap Node.blocks = l ++ m ∧ (∀ c ∈ m, c.isEmpty = true) ∧
    (putLast b node rest).1.blocks ++ (putLast b node rest).2.flatMap Node.blocks = l ++ b :: m' ∧
    ∀ c ∈ m', c.isEmpty = true := by
  induction rest generalizing node with
  | nil =>
    rw [putLast]
    cases hput : node.putTail b with
    | some node' =>
      obtain ⟨l, m, m', hblocks, hm, hblocks', hm'⟩ := putTail_split hput
      exact ⟨l, m, m', by simpa using hblocks, hm, by simpa using hblocks', hm'⟩
    | none =>
      refine ⟨node.blocks, [], [Block.zero, Block.zero], by simp, by simp, by simp [Node.single, Node.blocks], ?_⟩
      simp [Block.zero, Block.isEmpty]
  | cons next rest ih =>
    obtain ⟨l, m, m', hblocks, hm, hblocks', hm'⟩ := ih next
    refine ⟨node.blocks ++ l, m, m', ?_, hm, ?_, hm'⟩
    · rw [List.flatMap_cons, hblocks, List.append_assoc]
    · rw [putLast, List.flatMap_cons, hblocks', List.append_assoc]

theorem append_split (s : State) (data : Bytes) (size : Nat) : ∃ l m m', s.blocks = l ++ m ∧
    (∀ c ∈ m, c.isEmpty = true) ∧ (append s data size).blocks = l ++ Block.ofData data size :: m' ∧
    ∀ c ∈ m', c.isEmpty = true := putLast_split ..

theorem bytesOf_empty (h : ∀ c ∈ blocks, c.isEmpty = true) : bytesOf blocks = [] := by
  rw [bytesOf, List.flatMap_eq_nil_iff]
  exact fun c hc => bytes_of_isEmpty (h c hc)

theorem content_append (s : State) (data : Bytes) (size : Nat) :
    (append s data size).content = s.content ++ data.take (size % 2 ^ 32) := by
  obtain ⟨l, m, m', hblocks, hm, hblocks', hm'⟩ := append_split s data size
  rw [State.content, State.content, hblocks, hblocks', bytesOf_append, bytesOf_append, bytesOf_cons, bytesOf_empty hm,
    bytesOf_empty hm', bytes_ofData, List.append_nil, List.append_nil]

def taken (x : Bytes) : Bytes := x.take (x.length % 2 ^ 32)

theorem taken_eq (h : data.length < 2 ^ 32) : taken data = data := bytes_ofData_all h

/-- When the blocks take all bytes, each string fits its block. -/
theorem fit_of_length_le {xs : List Bytes} (h : xs.flatten.length ≤ (xs.map taken).flatten.length) : ∀ x ∈ xs, x.length < 2 ^ 32 := by
  have hle (ys : List Bytes) : (ys.map taken).flatten.length ≤ ys.flatten.length := by
    induction ys with
    | nil => exact Nat.le_refl 0
    | cons y ys ih =>
      rw [List.map_cons, List.flatten_cons, List.flatten_cons, List.length_append, List.length_append]
      exact Nat.add_le_add (Nat.le_trans (List.length_take_le ..) (Nat.mod_le _ _)) ih
  induction xs with
  | nil => simp
  | cons x xs ih =>
    have hrest := hle xs
    have hx : (taken x).length = x.length % 2 ^ 32 := List.length_take_of_le (Nat.mod_le _ _)
    rw [List.map_cons, List.flatten_cons, List.flatten_cons, List.length_append, List.length_append, hx] at h
    intro y hy
    rcases List.mem_cons.mp hy with rfl | hy
    · omega
    · exact ih (by omega) y hy

theorem sound_of_isEmpty (h : b.isEmpty = true) : b.Sound := by
  rw [isEmpty_iff] at h
  exact ⟨by omega, by omega⟩

theorem sound_empty : empty.Sound := by
  intro b hb
  exact sound_of_isEmpty (by revert b; decide)

theorem State.Sound.append (h : s.Sound) (hsize : size ≤ data.length) : (append s data size).Sound := by
  obtain ⟨l, m, m', hblocks, -, hblocks', hm'⟩ := append_split s data size
  intro c hc
  rw [hblocks', List.mem_append, List.mem_cons] at hc
  rcases hc with hc | rfl | hc
  · exact h c (by rw [hblocks]; exact List.mem_append_left m hc)
  · exact sound_ofData hsize
  · exact sound_of_isEmpty (hm' c hc)

/-- An append leaves a block with bytes where it is. -/
theorem append_getElem? {i : Nat} (data : Bytes) (size : Nat) (hi : s.blocks[i]? = some b) (hb : b.size ≠ 0) :
    (append s data size).blocks[i]? = some b ∧ ∃ j, i < j ∧
      (append s data size).blocks[j]? = some (Block.ofData data size) := by
  obtain ⟨l, m, m', hblocks, hm, hblocks', -⟩ := append_split s data size
  have hlt : i < l.length := by
    by_contra hle
    rw [hblocks, List.getElem?_append_right (Nat.not_lt.mp hle)] at hi
    exact hb (isEmpty_iff.mp (hm b (List.mem_of_getElem? hi)))
  refine ⟨?_, l.length, hlt, ?_⟩
  · rw [hblocks, List.getElem?_append_left hlt] at hi
    rw [hblocks', List.getElem?_append_left hlt, hi]
  · rw [hblocks', List.getElem?_append_right (Nat.le_refl _), Nat.sub_self]
    rfl

/-! ### Appending a slice -/

/-- As long as a block with bytes is in front of the loop, it does not end. -/
theorem addFrom_endless {i j fuel : Nat} (h : s.Sound) (hij : i ≤ j) (hj : s.blocks[j]? = some b) (hb : b.size ≠ 0) :
    addFrom fuel i s = none := by
  induction fuel generalizing s i j b with
  | zero => rfl
  | succ fuel ih =>
    have hi : i < s.blocks.length := Nat.lt_of_le_of_lt hij (List.getElem?_eq_some_iff.mp hj).1
    rw [addFrom, List.getElem?_eq_getElem hi]
    show addFrom fuel (i + 1) _ = none
    by_cases hzero : s.blocks[i].size ≠ 0
    · have hsound := h _ (List.getElem_mem hi)
      rw [if_pos hzero]
      obtain ⟨-, j', hlt, hj'⟩ := append_getElem? s.blocks[i].data s.blocks[i].size
        (List.getElem?_eq_getElem hi) hzero
      refine ih (h.append hsound.le) hlt hj' ?_
      show s.blocks[i].size % 2 ^ 32 ≠ 0
      rwa [Nat.mod_eq_of_lt hsound.lt]
    · rw [if_neg hzero]
      have hne : i ≠ j := by
        rintro rfl
        obtain rfl := Option.some.inj ((List.getElem?_eq_getElem hi).symm.trans hj)
        exact hzero hb
      exact ih h (Nat.lt_of_le_of_ne hij hne) hj hb

theorem addFrom_empty {i fuel : Nat} (h : ∀ b ∈ s.blocks, b.size = 0) (hi : i ≤ s.blocks.length)
    (hfuel : s.blocks.length - i < fuel) : addFrom fuel i s = some s := by
  induction fuel generalizing i with
  | zero => omega
  | succ fuel ih =>
    rw [addFrom]
    rcases Nat.lt_or_eq_of_le hi with hlt | rfl
    · rw [List.getElem?_eq_getElem hlt]
      show addFrom fuel (i + 1) _ = _
      rw [if_neg (not_not_intro (h _ (List.getElem_mem hlt)))]
      exact ih hlt (by omega)
    · rw [List.getElem?_eq_none (Nat.le_refl _)]

theorem State.Sound.content_eq_nil (h : s.Sound) : s.content = [] ↔ ∀ b ∈ s.blocks, b.size = 0 := by
  rw [State.content, bytesOf, List.flatMap_eq_nil_iff]
  exact forall₂_congr (fun b hb => (h b hb).bytes_eq_nil)

/-- For a slice with bytes the loop never ends. -/
theorem State.Sound.add_endless (h : s.Sound) (hne : s.content ≠ []) (fuel : Nat) : addFrom fuel 0 s = none := by
  rw [Ne, h.content_eq_nil] at hne
  push Not at hne
  obtain ⟨b, hb, hsize⟩ := hne
  obtain ⟨j, hj⟩ := List.mem_iff_getElem?.mp hb
  exact addFrom_endless h (Nat.zero_le j) hj hsize

theorem State.Sound.add_nil (h : s.Sound) (hnil : s.content = []) (slice : State) : add s slice = some s :=
  addFrom_empty (h.content_eq_nil.mp hnil) (Nat.zero_le _) (by omega)

/-! ### Trimming -/

theorem Block.Sound.trim (h : b.Sound) (n : Nat) :
    (b.trim n).1.Sound ∧ (b.trim n).1.bytes = b.bytes.drop n ∧ (b.trim n).2 = n - b.bytes.length := by
  have hle := h.le
  have hlt := h.lt
  have hlen := h.length
  refine ⟨⟨?_, ?_⟩, ?_, ?_⟩
  · show b.size - min n b.size ≤ (b.data.drop (min n b.size)).length
    rw [List.length_drop]
    omega
  · show b.size - min n b.size < 2 ^ 32
    omega
  · show (b.data.drop (min n b.size)).take (b.size - min n b.size) = (b.data.take b.size).drop n
    rw [List.drop_take]
    rcases Nat.le_total n b.size with hn | hn
    · rw [Nat.min_eq_left hn]
    · rw [Nat.min_eq_right hn, Nat.sub_self, List.take_zero, Nat.sub_eq_zero_of_le hn, List.take_zero]
  · show n - min n b.size = n - b.bytes.length
    omega

theorem Node.trim_spec (h : ∀ b ∈ node.blocks, b.Sound) (n : Nat) :
    (∀ b ∈ (node.trim n).1.blocks, b.Sound) ∧ bytesOf (node.trim n).1.blocks = (bytesOf node.blocks).drop n ∧
      (node.trim n).2 = n - (bytesOf node.blocks).length := by
  obtain ⟨hs₀, hb₀, hn₀⟩ := (h node.block₀ (by simp [Node.blocks])).trim n
  obtain ⟨hs₁, hb₁, hn₁⟩ := (h node.block₁ (by simp [Node.blocks])).trim (node.block₀.trim n).2
  obtain ⟨hs₂, hb₂, hn₂⟩ := (h node.block₂ (by simp [Node.blocks])).trim (node.block₁.trim (node.block₀.trim n).2).2
  refine ⟨?_, ?_, ?_⟩
  · simp only [Node.blocks, Node.trim, List.mem_cons, List.not_mem_nil, or_false]
    rintro b (rfl | rfl | rfl)
    · exact hs₀
    · exact hs₁
    · exact hs₂
  · simp only [Node.blocks, Node.trim, bytesOf_cons, bytesOf_nil, List.append_nil]
    rw [hb₀, hb₁, hb₂, hn₁, hn₀, List.drop_append, List.drop_append]
  · simp only [Node.trim, Node.blocks, bytesOf_cons, bytesOf_nil, List.append_nil, List.length_append]
    rw [hn₂, hn₁, hn₀, Nat.sub_sub, Nat.sub_sub]

theorem trimNodes_spec (nodes : List Node) (h : ∀ b ∈ nodes.flatMap Node.blocks, b.Sound) (n : Nat) :
    (∀ b ∈ (trimNodes n nodes).flatMap Node.blocks, b.Sound) ∧
      bytesOf ((trimNodes n nodes).flatMap Node.blocks) = (bytesOf (nodes.flatMap Node.blocks)).drop n := by
  induction nodes generalizing n with
  | nil => exact ⟨by simp [trimNodes], by simp [trimNodes]⟩
  | cons node nodes ih =>
    rw [List.flatMap_cons] at h ⊢
    obtain ⟨hs, hb, hn⟩ := Node.trim_spec (fun b hb => h b (List.mem_append_left _ hb)) n
    obtain ⟨hs', hb'⟩ := ih (fun b hb => h b (List.mem_append_right _ hb)) (node.trim n).2
    rw [trimNodes, List.flatMap_cons]
    refine ⟨?_, ?_⟩
    · intro b hb
      rcases List.mem_append.mp hb with hb | hb
      · exact hs b hb
      · exact hs' b hb
    · rw [bytesOf_append, bytesOf_append, hb, hb', hn, List.drop_append]

theorem State.Sound.ltrim (h : s.Sound) (n : Nat) : (ltrim s n).Sound ∧ (ltrim s n).content = s.content.drop n :=
  trimNodes_spec (s.head :: s.rest) h n

end RaleighSL.Zcl.Slice
