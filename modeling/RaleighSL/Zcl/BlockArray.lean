import RaleighSL.Library.Links
import RaleighSL.Library.Run
import RaleighSL.Zcl.Map

/-!
# The array of blocks

`tools/array/array.c` keeps the items of an array in blocks of 56 bytes, the first of which is a
part of the array itself. The tail is the block where the next item goes, and a block is added when
the number of items is a multiple of what a block has room for.

Blocks are numbered as they are allocated. An access to a block that was freed or outside a block
has no result, and neither has a division by zero. Allocations succeed.
-/
namespace RaleighSL.Zcl.BlockArray

open Library

def blockSize : Nat := 56

def ptrSize : Nat := 8

/-- The block in the array or another one. -/
inductive Place where
  | head
  | block (n : Nat)
  deriving DecidableEq, Repr

abbrev Items := { b : Bytes // b.length = blockSize }

structure Block where
  next : Option Nat
  items : Items
  deriving DecidableEq, Repr

/-- The blocks that were allocated, and their number. -/
structure Heap where
  blocks : Nat → Option Block
  made : Nat

structure State where
  head : Block
  heap : Heap
  tail : Place
  count : Nat
  typeSize : Nat
  perBlock : Nat

/-! ### Blocks -/

def State.blockAt (s : State) : Place → Option Block
  | .head => some s.head
  | .block n => s.heap.blocks n

def State.link (s : State) (p : Place) : Option (Option Nat) := (s.blockAt p).map Block.next

def State.setBlock (s : State) (b : Block) (p : Place) : State :=
  { s with
    head := match p with
      | .head => b
      | .block _ => s.head
    heap := { s.heap with
      blocks := match p with
        | .head => s.heap.blocks
        | .block n => Function.update s.heap.blocks n (some b) } }

def State.read (s : State) (p : Place) (offset size : Nat) : Option Bytes :=
  (s.blockAt p).bind (fun b =>
    if offset + size ≤ blockSize then some ((b.items.val.drop offset).take size) else none)

def Items.write (items : Items) (offset : Nat) (data : Bytes) (h : offset + data.length ≤ blockSize) : Items :=
  ⟨items.val.take offset ++ data ++ items.val.drop (offset + data.length), by
    have hlen := items.property
    simp only [List.length_append, List.length_take, List.length_drop]
    omega⟩

def State.write (s : State) (p : Place) (offset : Nat) (data : Bytes) : Option State :=
  (s.blockAt p).bind (fun b =>
    if h : offset + data.length ≤ blockSize then
      some (s.setBlock { b with items := Items.write b.items offset data h } p)
    else none)

/-! ### The calls -/

def openArray (heap : Heap) (items : Items) (typeSize : Nat) : Option State :=
  if typeSize = 0 then none
  else some
    { head := { next := none, items := items }
      heap := heap
      tail := .head
      count := 0
      typeSize := typeSize
      perBlock := blockSize / typeSize }

/-- The loop of `z_array_clear`. -/
def freeFrom : Nat → (Nat → Option Block) → Option Nat → Option (Nat → Option Block)
  | _, blocks, none => some blocks
  | 0, _, some _ => none
  | fuel + 1, blocks, some n => (blocks n).bind (fun b => freeFrom fuel (Function.update blocks n none) b.next)

/-- The fields that `z_array_clear` sets, with the blocks that are left. -/
def State.emptied (s : State) (blocks : Nat → Option Block) : State :=
  { s with head := { s.head with next := none }, heap := { s.heap with blocks := blocks }, count := 0 }

def clear (s : State) : Option State := (freeFrom s.heap.made s.heap.blocks s.head.next).map s.emptied

/-- The loop of `z_array_get_raw`. -/
def State.locate (s : State) : Nat → Nat → Place → Option (Place × Nat)
  | 0, _, _ => none
  | fuel + 1, index, p =>
    if index < s.perBlock then some (p, index)
    else (s.link p).bind (fun next => next.bind (fun n => s.locate fuel (index - s.perBlock) (.block n)))

/-- `z_array_get_raw`, with the bytes at the address. -/
def getRaw (s : State) (index : Nat) : Option Bytes :=
  (s.locate (index + 1) index .head).bind (fun r => s.read r.1 (r.2 * s.typeSize) s.typeSize)

def getRawPtr (s : State) (index : Nat) : Option Bytes :=
  (s.locate (index + 1) index .head).bind (fun r => s.read r.1 (r.2 * ptrSize) ptrSize)

/-- `__array_block_alloc`. -/
def State.addBlock (s : State) : State :=
  { s with heap :=
    { blocks := Function.update s.heap.blocks s.heap.made
        (some { next := none, items := ⟨List.replicate blockSize 0, List.length_replicate⟩ })
      made := s.heap.made + 1 } }

def State.grow (s : State) : Option State :=
  (s.addBlock.blockAt s.tail).map (fun b =>
    { s.addBlock.setBlock { b with next := some s.heap.made } s.tail with tail := .block s.heap.made })

/-- The room for the next item: the state in which the tail has it, and its index there. -/
def State.room (s : State) : Option (State × Nat) :=
  if s.perBlock = 0 then none
  else if s.count % s.perBlock = 0 ∧ 0 < s.count then s.grow.map (fun s => (s, 0))
  else some (s, s.count % s.perBlock)

/-- `z_array_push_back`, with the bytes at the address. -/
def pushBack (s : State) : Option (State × Bytes) :=
  s.room.bind (fun r => (r.1.read r.1.tail (r.2 * r.1.typeSize) r.1.typeSize).map (fun data =>
    ({ r.1 with count := r.1.count + 1 }, data)))

def itemOf (data : Bytes) (size : Nat) : Option Bytes := if size ≤ data.length then some (data.take size) else none

def pushBackCopy (s : State) (data : Bytes) : Option State :=
  s.room.bind (fun r => (itemOf data r.1.typeSize).bind (fun item =>
    (r.1.write r.1.tail (r.2 * r.1.typeSize) item).map (fun s => { s with count := s.count + 1 })))

def pushBackPtr (s : State) (ptr : Bytes) : Option State :=
  s.room.bind (fun r => (itemOf ptr ptrSize).bind (fun ptr =>
    (r.1.write r.1.tail (r.2 * ptrSize) ptr).map (fun s => { s with count := s.count + 1 })))

inductive Op where
  | pushBack
  | pushBackCopy (data : Bytes)
  | pushBackPtr (ptr : Bytes)
  | getRaw (index : Nat)
  | getRawPtr (index : Nat)

inductive Result where
  | status (n : Nat)
  | data (d : Bytes)
  deriving DecidableEq, Repr

def step (s : State) : Op → Option (State × Result)
  | .pushBack => (pushBack s).map (fun r => (r.1, .data r.2))
  | .pushBackCopy data => (pushBackCopy s data).map (fun s => (s, .status 0))
  | .pushBackPtr ptr => (pushBackPtr s ptr).map (fun s => (s, .status 0))
  | .getRaw index => (getRaw s index).map (fun d => (s, .data d))
  | .getRawPtr index => (getRawPtr s index).map (fun d => (s, .data d))

/-! ### The chain of blocks -/

/-- The blocks are linked from the array on, and the tail is the last one, or it was freed. -/
structure Inv (s : State) (chain : List Nat) : Prop where
  linked : Linked .block s.link .head chain
  nodup : chain.Nodup
  fresh : ∀ n, s.heap.made ≤ n → s.heap.blocks n = none
  tail : s.tail = endOf .block .head chain ∨ ∃ n < s.heap.made, s.tail = .block n ∧ s.heap.blocks n = none
  perBlock : s.perBlock = blockSize / s.typeSize
  typeSize : s.typeSize ≠ 0
  holds : s.tail ≠ .head → s.perBlock ≠ 0

variable {s s' : State} {chain : List Nat} {p : Place} {n : Nat} {b : Block}

theorem setBlock_link (hp : s.blockAt p = some b) (b' : Block) : (s.setBlock b' p).link = Function.update s.link p (some b'.next) := by
  funext q
  by_cases hq : q = p
  · subst hq
    rw [Function.update_self]
    cases q with
    | head => rfl
    | block n =>
      show (Function.update s.heap.blocks n (some b') n).map _ = _
      rw [Function.update_self, Option.map_some]
  · rw [Function.update_of_ne hq]
    cases p with
    | head =>
      cases q with
      | head => exact absurd rfl hq
      | block n => rfl
    | block m =>
      cases q with
      | head => rfl
      | block n =>
        have hnm : n ≠ m := fun heq => hq (heq ▸ rfl)
        show (Function.update s.heap.blocks m (some b') n).map _ = _
        rw [Function.update_of_ne hnm]
        rfl

theorem Inv.alive (h : Inv s chain) (hn : n ∈ chain) : ∃ b, s.heap.blocks n = some b := by
  obtain ⟨l, m, rfl⟩ := List.append_of_mem hn
  have hlinked := h.linked.suffix
  have hlink : s.link (.block n) = some m.head? := hlinked.2.link_eq
  obtain ⟨b, hb, -⟩ := Option.map_eq_some_iff.mp hlink
  exact ⟨b, hb⟩

theorem Inv.lt_made (h : Inv s chain) (hb : s.heap.blocks n = some b) : n < s.heap.made := by
  by_contra hle
  rw [h.fresh n (Nat.not_lt.mp hle)] at hb
  simp at hb

theorem Inv.length_le (h : Inv s chain) : chain.length ≤ s.heap.made := by
  have hsub : chain ⊆ List.range s.heap.made := by
    intro n hn
    obtain ⟨b, hb⟩ := h.alive hn
    exact List.mem_range.mpr (h.lt_made hb)
  have hle := h.nodup.length_le_of_subset hsub
  rwa [List.length_range] at hle

theorem Inv.places_nodup (h : Inv s chain) : (Place.head :: chain.map Place.block).Nodup := by
  rw [List.nodup_cons]
  exact ⟨by simp, h.nodup.map (fun m n hmn => Place.block.inj hmn)⟩

theorem Inv.count (h : Inv s chain) (count : Nat) : Inv { s with count := count } chain :=
  ⟨h.linked, h.nodup, h.fresh, h.tail, h.perBlock, h.typeSize, h.holds⟩

theorem Inv.write (h : Inv s chain) {offset : Nat} {data : Bytes} (hw : s.write p offset data = some s') : Inv s' chain := by
  rw [State.write, Option.bind_eq_some_iff] at hw
  obtain ⟨b, hb, hw⟩ := hw
  split_ifs at hw with hle
  obtain rfl := Option.some.inj hw
  have hsame : (s.setBlock { b with items := Items.write b.items offset data hle } p).link = s.link := by
    have hlink : some b.next = s.link p := by rw [State.link, hb, Option.map_some]
    rw [setBlock_link hb, hlink, Function.update_eq_self]
  cases p with
  | head => exact ⟨by rw [hsame]; exact h.linked, h.nodup, h.fresh, h.tail, h.perBlock, h.typeSize, h.holds⟩
  | block m =>
    have hm := h.lt_made hb
    refine ⟨by rw [hsame]; exact h.linked, h.nodup, ?_, ?_, h.perBlock, h.typeSize, h.holds⟩
    · intro n hn
      show Function.update s.heap.blocks m _ n = none
      have hle : s.heap.made ≤ n := hn
      rw [Function.update_of_ne (by omega)]
      exact h.fresh n hle
    · apply h.tail.imp_right
      rintro ⟨n, hn, htail, hnone⟩
      refine ⟨n, hn, htail, ?_⟩
      have hne : n ≠ m := by
        rintro rfl
        exact absurd (hnone.symm.trans hb) (by simp)
      show Function.update s.heap.blocks m _ n = none
      rw [Function.update_of_ne hne]
      exact hnone

theorem addBlock_blockAt (hp : p ≠ .block s.heap.made) : s.addBlock.blockAt p = s.blockAt p := by
  cases p with
  | head => rfl
  | block n =>
    have hn : n ≠ s.heap.made := fun heq => hp (congrArg Place.block heq)
    exact Function.update_of_ne hn ..

theorem addBlock_link : s.addBlock.link = Function.update s.link (.block s.heap.made) (some none) := by
  funext p
  by_cases hp : p = .block s.heap.made
  · subst hp
    rw [Function.update_self]
    show (Function.update s.heap.blocks s.heap.made _ s.heap.made).map Block.next = _
    rw [Function.update_self, Option.map_some]
  · rw [Function.update_of_ne hp, State.link, addBlock_blockAt hp, State.link]

theorem Inv.grow (h : Inv s chain) (hper : s.perBlock ≠ 0) (hg : s.grow = some s') :
    Inv s' (chain ++ [s.heap.made]) := by
  obtain ⟨b, hb, rfl⟩ := Option.map_eq_some_iff.mp hg
  have hmade : s.heap.made ∉ chain := by
    intro hmem
    obtain ⟨c, hc⟩ := h.alive hmem
    exact absurd (h.lt_made hc) (Nat.lt_irrefl _)
  have htail : s.tail = endOf .block .head chain := by
    rcases h.tail with htail | ⟨n, hn, htail, hnone⟩
    · exact htail
    · have hne : Place.block n ≠ .block s.heap.made := fun heq => Nat.ne_of_lt hn (Place.block.inj heq)
      rw [htail, addBlock_blockAt hne] at hb
      exact absurd (hnone.symm.trans hb) (by simp)
  have hlast : endOf Place.block .head chain ≠ .block s.heap.made := by
    intro heq
    have hmem : endOf Place.block .head chain ∈ Place.head :: chain.map Place.block := endOf_mem
    rw [heq] at hmem
    simp [hmade] at hmem
  have hlink : (s.addBlock.setBlock { b with next := some s.heap.made } s.tail).link =
      Function.update (Function.update s.link (.block s.heap.made) (some none)) (endOf .block .head chain)
        (some (some s.heap.made)) := by
    rw [setBlock_link hb, addBlock_link, htail]
  have hfresh (n : Nat) (hn : s.heap.made + 1 ≤ n) : s.addBlock.heap.blocks n = none := by
    have hne : n ≠ s.heap.made := by omega
    exact (Function.update_of_ne hne ..).trans (h.fresh n (by omega))
  refine ⟨?_, ?_, ?_, ?_, h.perBlock, h.typeSize, fun _ => hper⟩
  · show Linked .block (s.addBlock.setBlock { b with next := some s.heap.made } s.tail).link .head _
    have hlinked : Linked .block s.link .head (chain ++ []) := by
      rw [List.append_nil]
      exact h.linked
    have hnodup : (Place.head :: (chain ++ []).map Place.block).Nodup := by
      rw [List.append_nil]
      exact h.places_nodup
    rw [hlink]
    apply hlinked.insert hnodup
    · rw [Function.update_self]
    · rw [Function.update_of_ne (Ne.symm hlast), Function.update_self]
      exact hlinked.suffix.symm
    · intro q hq hne
      rw [Function.update_of_ne hne, Function.update_of_ne]
      rintro rfl
      rw [List.append_nil] at hq
      simp [hmade] at hq
  · rw [List.nodup_append]
    exact ⟨h.nodup, by simp, fun m hm n hn heq => hmade (by simp_all)⟩
  · intro n hn
    rw [htail] at hb ⊢
    cases hend : endOf Place.block .head chain with
    | head => exact hfresh n hn
    | block m =>
      rw [hend] at hb
      have hm : n ≠ m := by
        rintro rfl
        exact absurd ((hfresh n hn).symm.trans hb) (by simp)
      show Function.update s.addBlock.heap.blocks m _ n = none
      rw [Function.update_of_ne hm]
      exact hfresh n hn
  · left
    rw [endOf_concat]

/-! ### Every call keeps the chain -/

theorem Inv.of_room (h : Inv s chain) {r : State × Nat} (hr : s.room = some r) : ∃ chain', Inv r.1 chain' := by
  rw [State.room] at hr
  split_ifs at hr with hper hfull
  · obtain ⟨s', hs', rfl⟩ := Option.map_eq_some_iff.mp hr
    exact ⟨_, h.grow hper hs'⟩
  · obtain rfl := Option.some.inj hr
    exact ⟨chain, h⟩

theorem Inv.push (h : Inv s chain) (item : State → Option Bytes) (width : State → Nat)
    (hp : s.room.bind (fun r => (item r.1).bind (fun data => (r.1.write r.1.tail (r.2 * width r.1) data).map (fun s =>
      { s with count := s.count + 1 }))) = some s') : ∃ chain', Inv s' chain' := by
  obtain ⟨r, hr, hp⟩ := Option.bind_eq_some_iff.mp hp
  obtain ⟨data, -, hp⟩ := Option.bind_eq_some_iff.mp hp
  obtain ⟨t, ht, rfl⟩ := Option.map_eq_some_iff.mp hp
  obtain ⟨chain', hinv⟩ := h.of_room hr
  exact ⟨chain', (hinv.write ht).count _⟩

theorem Inv.step (h : Inv s chain) {op : Op} {r : State × Result} (hr : step s op = some r) : ∃ chain', Inv r.1 chain' := by
  cases op with
  | pushBack =>
    obtain ⟨q, hq, rfl⟩ := Option.map_eq_some_iff.mp hr
    obtain ⟨t, ht, hq⟩ := Option.bind_eq_some_iff.mp hq
    obtain ⟨data, -, rfl⟩ := Option.map_eq_some_iff.mp hq
    obtain ⟨chain', hinv⟩ := h.of_room ht
    exact ⟨chain', hinv.count _⟩
  | pushBackCopy data =>
    obtain ⟨q, hq, rfl⟩ := Option.map_eq_some_iff.mp hr
    exact h.push (fun s => itemOf data s.typeSize) State.typeSize hq
  | pushBackPtr ptr =>
    obtain ⟨q, hq, rfl⟩ := Option.map_eq_some_iff.mp hr
    exact h.push (fun _ => itemOf ptr ptrSize) (fun _ => ptrSize) hq
  | getRaw index =>
    obtain ⟨q, -, rfl⟩ := Option.map_eq_some_iff.mp hr
    exact ⟨chain, h⟩
  | getRawPtr index =>
    obtain ⟨q, -, rfl⟩ := Option.map_eq_some_iff.mp hr
    exact ⟨chain, h⟩

/-! ### Clearing -/

theorem freeFrom_chain {blocks : Nat → Option Block} {next : Option Nat} {fuel : Nat} (hhead : next = chain.head?)
    (hlinked : ∀ n l, n :: l <:+ chain → ∃ b, blocks n = some b ∧ b.next = l.head?) (hnodup : chain.Nodup)
    (hlen : chain.length ≤ fuel) :
    freeFrom fuel blocks next = some (fun n => if n ∈ chain then none else blocks n) := by
  induction chain generalizing blocks next fuel with
  | nil =>
    subst hhead
    cases fuel <;> simp [freeFrom]
  | cons m l ih =>
    obtain ⟨fuel, rfl⟩ := Nat.exists_eq_succ_of_ne_zero (Nat.ne_of_gt (Nat.lt_of_lt_of_le (Nat.succ_pos _) hlen))
    obtain ⟨b, hb, hnext⟩ := hlinked m l (List.suffix_refl _)
    obtain ⟨hm, hnodup⟩ := List.nodup_cons.mp hnodup
    subst hhead
    rw [List.head?_cons, freeFrom, hb, Option.bind_some, ih hnext ?_ hnodup (Nat.le_of_succ_le_succ hlen)]
    · congr 1
      funext n
      by_cases hn : n = m
      · subst hn
        simp
      · rw [Function.update_of_ne hn]
        simp [hn]
    · intro n l' hl'
      have hn : n ≠ m := by
        rintro rfl
        exact hm (hl'.subset List.mem_cons_self)
      rw [Function.update_of_ne hn]
      exact hlinked n l' (hl'.trans (List.suffix_cons m l))

theorem Inv.clear (h : Inv s chain) : ∃ blocks, clear s = some (s.emptied blocks) ∧ Inv (s.emptied blocks) [] ∧
    ∀ n, s.tail = .block n → blocks n = none := by
  have hhead : s.head.next = chain.head? := Option.some.inj h.linked.link_eq
  have hchain (n : Nat) (l : List Nat) (hl : n :: l <:+ chain) : ∃ b, s.heap.blocks n = some b ∧ b.next = l.head? := by
    obtain ⟨c, rfl⟩ := hl
    exact Option.map_eq_some_iff.mp h.linked.suffix.2.link_eq
  have hfree := freeFrom_chain hhead hchain h.nodup h.length_le
  have hmem (n : Nat) (hn : s.tail = .block n) : n ∈ chain ∨ (n < s.heap.made ∧ s.heap.blocks n = none) := by
    rcases h.tail with htail | ⟨m, hm, htail, hnone⟩
    · have hend : endOf Place.block .head chain ∈ Place.head :: chain.map Place.block := endOf_mem
      rw [← htail, hn] at hend
      exact Or.inl (by simpa using hend)
    · obtain rfl : n = m := Place.block.inj (hn.symm.trans htail)
      exact Or.inr ⟨hm, hnone⟩
  have hfreed (n : Nat) (hn : s.tail = .block n) : (if n ∈ chain then none else s.heap.blocks n) = none := by
    rcases hmem n hn with hn | ⟨-, hnone⟩
    · exact if_pos hn
    · rw [hnone, ite_self]
  refine ⟨fun n => if n ∈ chain then none else s.heap.blocks n, by rw [BlockArray.clear, hfree, Option.map_some],
    ⟨rfl, List.nodup_nil, ?_, ?_, h.perBlock, h.typeSize, h.holds⟩, hfreed⟩
  · intro n hn
    show (if n ∈ chain then none else s.heap.blocks n) = none
    rw [h.fresh n hn, ite_self]
  · cases htail : s.tail with
    | head => exact Or.inl htail
    | block n =>
      refine Or.inr ⟨n, ?_, htail, hfreed n htail⟩
      rcases hmem n htail with hn | ⟨hn, -⟩
      · obtain ⟨b, hb⟩ := h.alive hn
        exact h.lt_made hb
      · exact hn

theorem inv_open {heap : Heap} (hheap : ∀ n, heap.made ≤ n → heap.blocks n = none) (items : Items) {typeSize : Nat}
    (ho : openArray heap items typeSize = some s) : Inv s [] := by
  rw [openArray] at ho
  split_ifs at ho with htype
  obtain rfl := Option.some.inj ho
  exact ⟨rfl, List.nodup_nil, hheap, Or.inl rfl, rfl, htype, fun hne => absurd rfl hne⟩

/-- A cleared array is one that is opened anew in the same memory, if its tail is in the array. -/
theorem Inv.emptied_eq (h : Inv s chain) (htail : s.tail = .head) (blocks : Nat → Option Block) :
    openArray (s.emptied blocks).heap s.head.items s.typeSize = some (s.emptied blocks) := by
  rw [openArray, if_neg h.typeSize, State.emptied, htail, h.perBlock]

/-- Otherwise the next item goes into a block that was freed. -/
theorem Inv.pushBack_emptied (h : Inv s chain) (htail : s.tail ≠ .head) {blocks : Nat → Option Block}
    (hfreed : ∀ n, s.tail = .block n → blocks n = none) : pushBack (s.emptied blocks) = none := by
  have hper : (s.emptied blocks).perBlock ≠ 0 := h.holds htail
  have hroom : (s.emptied blocks).room = some (s.emptied blocks, 0 % s.perBlock) := by
    rw [State.room, if_neg hper, if_neg (fun hpos => Nat.lt_irrefl 0 hpos.2)]
    rfl
  rw [pushBack, hroom, Option.bind_some]
  cases hplace : s.tail with
  | head => exact absurd hplace htail
  | block n =>
    have hread (offset size : Nat) : (s.emptied blocks).read (s.emptied blocks).tail offset size = none := by
      show (State.blockAt (s.emptied blocks) s.tail).bind _ = none
      rw [hplace]
      show (blocks n).bind _ = none
      rw [hfreed n hplace]
      rfl
    rw [hread]
    rfl

theorem pushBack_open {heap : Heap} {items : Items} {typeSize : Nat} (ho : openArray heap items typeSize = some s)
    (hper : s.perBlock ≠ 0) : ∃ r, pushBack s = some r := by
  rw [openArray] at ho
  split_ifs at ho with htype
  obtain rfl := Option.some.inj ho
  have hle : typeSize ≤ blockSize := by
    by_contra hlt
    exact hper (Nat.div_eq_of_lt (Nat.not_le.mp hlt))
  simp [pushBack, State.room, hper, State.read, State.blockAt, hle]

end RaleighSL.Zcl.BlockArray
