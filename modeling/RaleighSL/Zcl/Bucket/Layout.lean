import RaleighSL.Zcl.Bucket.Node

/-!
# What is where in a node

A node has the keys of its entries one behind the other, free space, and the values in the
opposite order. The fetches give back the entries from every place between two of them, an
addition takes its part of the free space, and a removal sets one bit.

The calls on a node are calls on a list of entries as long as no size of an entry that wraps
around is taken for one that fits.
-/
namespace RaleighSL.Zcl.BucketNode
open RaleighSL.Library Coding

/-- The numbers of an entry are 32-bit numbers. -/
structure Sized (e : BucketEntry) : Prop where
  kprefix : e.kprefix < 2 ^ 32
  key : e.key.length < 2 ^ 32
  value : e.value.length < 2 ^ 32

def mark (removed : Bool) (head : Byte) : Byte := if removed then head ||| 1 else head

def keyGroup (e : BucketEntry) : Bytes :=
  encodeGroup [((headOf e).1, e.kprefix), ((headOf e).2.1, e.key.length), ((headOf e).2.2, e.value.length)]

def keyBytes (s : Stored) : Bytes := mark s.removed (headByte (headOf s.entry)) :: (keyGroup s.entry ++ s.entry.key)

def keyArea (l : List Stored) : Bytes := l.flatMap keyBytes

def valueArea (l : List Stored) : Bytes := l.reverse.flatMap (fun s => s.entry.value)

structure Holds (n : Node) (l : List Stored) : Prop where
  size : n.nhSize < 2 ^ 32
  length : headSize + n.body.length = n.nhSize
  body : ∃ free, n.body = keyArea l ++ free ++ valueArea l
  lastKey : n.nhLastKey = headSize + (keyArea l).length
  lastValue : n.nhLastValue + (valueArea l).length = n.nhSize
  nhPrefix : n.nhPrefix = l.any (fun s => 0 < s.entry.kprefix)
  sized : ∀ s ∈ l, Sized s.entry

variable {n n' : Node} {l : List Stored} {s : Stored} {e : BucketEntry} {pkey value index size : Nat}

/-! ### Heads -/

theorem headByte_decode : ∀ (a : Fin 8) (b c : Fin 4) (removed : Bool),
    fetchBits (mark removed (headByte (a.val, 1 + b.val, 1 + c.val))) 3 5 = a.val ∧
      fetchBits (mark removed (headByte (a.val, 1 + b.val, 1 + c.val))) 2 3 = b.val ∧
      fetchBits (mark removed (headByte (a.val, 1 + b.val, 1 + c.val))) 2 1 = c.val ∧
      decide (fetchBits (mark removed (headByte (a.val, 1 + b.val, 1 + c.val))) 1 0 ≠ 0) = removed := by
  decide +kernel

theorem mark_mark : ∀ (removed : Bool) (b : Byte), mark removed b ||| 1 = mark true b := by decide +kernel

theorem kheadSize_pos (length : Nat × Nat × Nat) : 0 < kheadSize length := by
  rw [kheadSize]
  omega

/-- The widths of an entry leave room for its numbers. -/
theorem headOf_spec (h : Sized e) :
    (headOf e).1 < 8 ∧ 1 ≤ (headOf e).2.1 ∧ (headOf e).2.1 ≤ 4 ∧ 1 ≤ (headOf e).2.2 ∧ (headOf e).2.2 ≤ 4 ∧
      e.kprefix < 256 ^ (headOf e).1 ∧ e.key.length < 256 ^ (headOf e).2.1 ∧ e.value.length < 256 ^ (headOf e).2.2 := by
  have hk := uint32Size_minimal h.key
  have hv := uint32Size_minimal h.value
  have hle := Coding.uint32Size_le
  refine ⟨?_, hk.1, hle _, hv.1, hle _, ?_, hk.2.1, hv.2.1⟩
  · rw [headOf, calcKhead]
    dsimp only
    split_ifs
    · exact Nat.lt_of_le_of_lt (hle _) (by decide)
    · decide
  · rw [headOf, calcKhead]
    dsimp only
    split_ifs with hpos
    · exact (uint32Size_minimal h.kprefix).2.1
    · show e.kprefix < 1
      omega

theorem length_keyGroup (e : BucketEntry) : (keyGroup e).length + 1 = kheadSize (headOf e) := by
  rw [keyGroup, length_encodeGroup, kheadSize]
  simp only [List.map_cons, List.map_nil, List.sum_cons, List.sum_nil]
  omega

theorem length_keyBytes (s : Stored) : (keyBytes s).length = kheadSize (headOf s.entry) + s.entry.key.length := by
  rw [keyBytes, List.length_cons, List.length_append, ← length_keyGroup]
  omega

theorem encodeKey_eq (e : BucketEntry) : encodeKey e = keyBytes { entry := e, removed := false } := rfl

theorem keyArea_cons (s : Stored) (l : List Stored) : keyArea (s :: l) = keyBytes s ++ keyArea l := rfl

theorem keyArea_append (l m : List Stored) : keyArea (l ++ m) = keyArea l ++ keyArea m := List.flatMap_append

theorem valueArea_cons (s : Stored) (l : List Stored) : valueArea (s :: l) = valueArea l ++ s.entry.value := by
  simp [valueArea]

theorem valueArea_append (l m : List Stored) : valueArea (l ++ m) = valueArea m ++ valueArea l := by
  simp [valueArea]

theorem length_areas (l : List Stored) : (keyArea l).length + (valueArea l).length = used l := by
  induction l with
  | nil => rfl
  | cons s l ih =>
    rw [keyArea_cons, valueArea_cons, List.length_append, List.length_append, length_keyBytes, used, List.map_cons,
      List.sum_cons, ← used, ← ih, entrySize]
    omega

/-! ### Fetches -/

/-- A place between two entries: those behind it are still to be fetched. -/
structure At (n : Node) (pkey value : Nat) (l : List Stored) : Prop where
  low : headSize ≤ pkey
  keys : ∃ rest, n.from pkey = keyArea l ++ rest
  lastKey : n.nhLastKey = pkey + (keyArea l).length
  values : ∃ before behind, n.body = before ++ valueArea l ++ behind ∧ value = headSize + before.length + (valueArea l).length
  sized : ∀ s ∈ l, Sized s.entry

def itemAt (pkey value index : Nat) (s : Stored) : Item :=
  { kprefix := s.entry.kprefix, keyData := pkey + kheadSize (headOf s.entry), keySize := s.entry.key.length,
    valueData := value - s.entry.value.length, valueSize := s.entry.value.length, isDeleted := s.removed,
    index := index + 1 }

def itemsAt : Nat → Nat → Nat → List Stored → List Item
  | _, _, _, [] => []
  | pkey, value, index, s :: l =>
    itemAt pkey value index s :: itemsAt (pkey + (keyBytes s).length) (value - s.entry.value.length) (index + 1) l

theorem Node.from_add (n : Node) (h : headSize ≤ pkey) (k : Nat) : n.from (pkey + k) = (n.from pkey).drop k := by
  rw [Node.from, Node.from, List.drop_drop]
  congr 1
  omega

theorem Holds.at (h : Holds n l) : At n headSize n.nhSize l where
  low := le_refl _
  keys := by
    obtain ⟨free, hbody⟩ := h.body
    refine ⟨free ++ valueArea l, ?_⟩
    rw [Node.from, hbody, Nat.sub_self, List.drop_zero, List.append_assoc]
  lastKey := h.lastKey
  values := by
    obtain ⟨free, hbody⟩ := h.body
    refine ⟨keyArea l ++ free, [], by rw [hbody, List.append_nil], ?_⟩
    rw [← h.length, hbody, List.length_append]
    omega
  sized := h.sized

theorem At.tail (h : At n pkey value (s :: l)) : At n (pkey + (keyBytes s).length) (value - s.entry.value.length) l where
  low := Nat.le_trans h.low (Nat.le_add_right _ _)
  keys := by
    obtain ⟨rest, hkeys⟩ := h.keys
    refine ⟨rest, ?_⟩
    rw [n.from_add h.low, hkeys, keyArea_cons, List.append_assoc, List.drop_left]
  lastKey := by
    rw [h.lastKey, keyArea_cons, List.length_append]
    omega
  values := by
    obtain ⟨before, behind, hbody, hvalue⟩ := h.values
    refine ⟨before, s.entry.value ++ behind, ?_, ?_⟩
    · rw [hbody, valueArea_cons]
      simp
    · rw [hvalue, valueArea_cons, List.length_append]
      omega
  sized := fun s' hs => h.sized s' (List.mem_cons_of_mem s hs)

theorem At.value_le (h : At n pkey value (s :: l)) : s.entry.value.length ≤ value := by
  obtain ⟨before, behind, -, hvalue⟩ := h.values
  rw [hvalue, valueArea_cons, List.length_append]
  omega

theorem At.itemFetch (h : At n pkey value (s :: l)) (index : Nat) :
    itemFetch n pkey value index = some (some (itemAt pkey value index s)) := by
  obtain ⟨rest, hkeys⟩ := h.keys
  have hs := h.sized s List.mem_cons_self
  obtain ⟨ha, hb, hb', hc, hc', hkp, hks, hvs⟩ := headOf_spec hs
  have hnot : ¬ n.nhLastKey ≤ pkey := by
    rw [h.lastKey, keyArea_cons, List.length_append, length_keyBytes]
    have hpos := kheadSize_pos (headOf s.entry)
    omega
  obtain ⟨hd₁, hd₂, hd₃, hd₄⟩ := headByte_decode ⟨(headOf s.entry).1, ha⟩ ⟨(headOf s.entry).2.1 - 1, by omega⟩
    ⟨(headOf s.entry).2.2 - 1, by omega⟩ s.removed
  simp only [Nat.add_sub_cancel' hb, Nat.add_sub_cancel' hc] at hd₁ hd₂ hd₃ hd₄
  have hgroup : decodeGroup (keyGroup s.entry ++ (s.entry.key ++ (keyArea l ++ rest)))
      [(headOf s.entry).1, (headOf s.entry).2.1, (headOf s.entry).2.2] =
        some [ s.entry.kprefix, s.entry.key.length, s.entry.value.length] := by
    have hdecode := @decodeGroup_encodeGroup [((headOf s.entry).1, s.entry.kprefix),
      ((headOf s.entry).2.1, s.entry.key.length), ((headOf s.entry).2.2, s.entry.value.length)]
      (by simpa using ⟨hkp, hks, hvs⟩) (s.entry.key ++ (keyArea l ++ rest))
    simp only [List.map_cons, List.map_nil] at hdecode
    exact hdecode
  have hfrom : n.from pkey = mark s.removed (headByte (headOf s.entry)) ::
      (keyGroup s.entry ++ (s.entry.key ++ (keyArea l ++ rest))) := by
    rw [hkeys, keyArea_cons, keyBytes]
    simp
  rw [BucketNode.itemFetch, if_neg hnot, hfrom]
  dsimp only
  rw [hd₁, hd₂, hd₃, Nat.add_sub_cancel' hb, Nat.add_sub_cancel' hc, hgroup, Option.bind_some]
  dsimp only
  rw [if_pos h.value_le, hd₄]
  rfl

theorem At.itemFetch_nil (h : At n pkey value []) (index : Nat) : BucketNode.itemFetch n pkey value index = some none := by
  have hlast := h.lastKey
  rw [BucketNode.itemFetch, if_pos (by simp [hlast, keyArea])]

theorem Node.slice_eq {offset : Nat} {data : Bytes} (tail : Bytes) (h : n.from offset = data ++ tail) :
    n.slice offset data.length = some data := by
  rw [Node.slice, h, if_pos (by simp), List.take_left]

theorem At.slice_key (h : At n pkey value (s :: l)) :
    n.slice (pkey + kheadSize (headOf s.entry)) s.entry.key.length = some s.entry.key := by
  obtain ⟨rest, hkeys⟩ := h.keys
  apply Node.slice_eq (keyArea l ++ rest)
  rw [n.from_add h.low, hkeys, keyArea_cons, keyBytes, ← length_keyGroup, List.append_assoc, List.cons_append,
    List.drop_succ_cons, List.append_assoc, List.drop_left]

theorem At.slice_value (h : At n pkey value (s :: l)) :
    n.slice (value - s.entry.value.length) s.entry.value.length = some s.entry.value := by
  obtain ⟨before, behind, hbody, hvalue⟩ := h.values
  have hoffset : value - s.entry.value.length - headSize = (before ++ valueArea l).length := by
    rw [hvalue, valueArea_cons, List.length_append, List.length_append]
    omega
  apply Node.slice_eq behind
  rw [Node.from, hoffset, hbody, valueArea_cons, ← List.append_assoc before, List.append_assoc, List.drop_left]

theorem At.read (h : At n pkey value (s :: l)) (index : Nat) : (itemAt pkey value index s).read n = some s := by
  simp only [itemAt, Item.read]
  rw [h.slice_key, h.slice_value]
  rfl

theorem At.itemsFrom (h : At n pkey value l) {fuel : Nat} (hfuel : l.length ≤ fuel) :
    (BucketNode.itemFetch n pkey value index).bind (BucketNode.itemsFrom n fuel) = some (itemsAt pkey value index l) := by
  induction l generalizing pkey value index fuel with
  | nil =>
    rw [h.itemFetch_nil, Option.bind_some]
    cases fuel <;> rfl
  | cons s l ih =>
    rw [h.itemFetch, Option.bind_some]
    cases fuel with
    | zero => simp at hfuel
    | succ fuel =>
      have hplace : (itemAt pkey value index s).keyData + (itemAt pkey value index s).keySize =
          pkey + (keyBytes s).length := by
        rw [length_keyBytes, ← Nat.add_assoc]
        rfl
      rw [BucketNode.itemsFrom, fetchNext, hplace]
      have hrest := @ih _ _ (index + 1) h.tail _ (Nat.le_of_succ_le_succ hfuel)
      rw [Option.bind_eq_some_iff] at hrest
      obtain ⟨next, hnext, hrest⟩ := hrest
      have hvalue : (itemAt pkey value index s).valueData = value - s.entry.value.length := rfl
      have hindex : (itemAt pkey value index s).index = index + 1 := rfl
      rw [hvalue, hindex, hnext, Option.bind_some, hrest]
      rfl

theorem At.mapM_read (h : At n pkey value l) : (itemsAt pkey value index l).mapM (Item.read n) = some l := by
  induction l generalizing pkey value index with
  | nil => rfl
  | cons s l ih =>
    rw [itemsAt, List.mapM_cons, h.read, ih h.tail]
    rfl

theorem length_le_keyArea (l : List Stored) : l.length ≤ (keyArea l).length := by
  induction l with
  | nil => exact Nat.zero_le _
  | cons s l ih =>
    have hpos := kheadSize_pos (headOf s.entry)
    rw [keyArea_cons, List.length_append, length_keyBytes, List.length_cons]
    omega

theorem Holds.items (h : Holds n l) : items n = some (itemsAt headSize n.nhSize 0 l) := by
  apply h.at.itemsFrom
  have hlen := length_le_keyArea l
  rw [h.lastKey]
  omega

/-- The fetches give back the entries in their order. -/
theorem Holds.contents (h : Holds n l) : contents n = some l := by
  rw [BucketNode.contents, h.items, Option.bind_some, h.at.mapM_read]

/-! ### Additions -/

theorem Holds.nhSize_eq (h : Holds n l) : ∃ free, n.body = keyArea l ++ free ++ valueArea l ∧
    n.nhSize = headSize + used l + free.length ∧ spaceAvail n = free.length := by
  obtain ⟨free, hbody⟩ := h.body
  have hlen := h.length
  have hused := length_areas l
  have hkey := h.lastKey
  have hval := h.lastValue
  have hsize := h.size
  rw [hbody, List.length_append, List.length_append] at hlen
  refine ⟨free, hbody, by omega, ?_⟩
  rw [spaceAvail, show n.nhLastValue + 2 ^ 32 - n.nhLastKey = free.length + 2 ^ 32 by omega, Nat.add_mod_right]
  exact Nat.mod_eq_of_lt (by omega)

theorem write_mid {a b c data : Bytes} {offset : Nat} (hoffset : offset = headSize + a.length) (hlen : b.length = data.length) :
    write (a ++ b ++ c) offset data = some (a ++ data ++ c) := by
  have hplace : offset - headSize = a.length := by omega
  have hdrop : (a ++ b ++ c).drop (a.length + data.length) = c := by rw [← hlen, ← List.length_append, List.drop_left]
  have htake : (a ++ b ++ c).take a.length = a := by rw [List.append_assoc, List.take_left]
  rw [write, hplace, if_pos ⟨by omega, by simp only [List.length_append]; omega⟩, hdrop, htake]

theorem exists_split (free : Bytes) {k : Nat} (hk : k ≤ free.length) : ∃ a b, free = a ++ b ∧ a.length = k :=
  ⟨free.take k, free.drop k, (List.take_append_drop k free).symm, List.length_take_of_le hk⟩

/-- The size of the entry has wrapped around and fits. -/
def Wraps (size : Nat) (l : List Stored) (e : BucketEntry) : Prop :=
  2 ^ 32 ≤ entrySize e ∧ entrySize e % 2 ^ 32 ≤ size - headSize - used l

theorem Holds.fits_iff (h : Holds n l) (hw : ¬ Wraps n.nhSize l e) :
    entrySize e % 2 ^ 32 ≤ spaceAvail n ↔ headSize + used l + entrySize e ≤ n.nhSize := by
  obtain ⟨free, -, hsize, hspace⟩ := h.nhSize_eq
  have hbound := h.size
  rw [hspace]
  by_cases hlarge : 2 ^ 32 ≤ entrySize e
  · refine iff_of_false (fun hc => hw ⟨hlarge, by omega⟩) (by omega)
  · rw [Nat.mod_eq_of_lt (not_le.mp hlarge)]
    omega

theorem Holds.hasSpace (h : Holds n l) (hw : ¬ Wraps n.nhSize l e) :
    hasSpace n e = decide (headSize + used l + entrySize e ≤ n.nhSize) := by
  rw [BucketNode.hasSpace, ← entrySize]
  simp only [h.fits_iff hw]

/-- The test of the addition is the one of `has_space`. -/
theorem append_refused (e : BucketEntry) (hs : BucketNode.hasSpace n e = false) : append n e = some (n, 1) := by
  rw [BucketNode.hasSpace, decide_eq_false_iff_not, not_le] at hs
  rw [append]
  dsimp only
  rw [Nat.mod_add_mod, Nat.add_comm e.key.length, if_pos hs]

theorem Holds.append (h : Holds n l) (he : Sized e) (hfit : headSize + used l + entrySize e ≤ n.nhSize) :
    ∃ n', append n e = some (n', 0) ∧ n'.nhSize = n.nhSize ∧ Holds n' (l ++ [{ entry := e, removed := false }]) := by
  obtain ⟨free, hbody, hsize, hspace⟩ := h.nhSize_eq
  have hbound := h.size
  have hentry : entrySize e = kheadSize (headOf e) + e.key.length + e.value.length := rfl
  have hkey := h.lastKey
  have hval := h.lastValue
  have hlen := h.length
  have hused := length_areas l
  rw [hbody, List.length_append, List.length_append] at hlen
  have hksize : (e.key.length + kheadSize (headOf e)) % 2 ^ 32 = kheadSize (headOf e) + e.key.length := by
    rw [Nat.add_comm, Nat.mod_eq_of_lt (by omega)]
  have hnot : ¬ spaceAvail n < (kheadSize (headOf e) + e.key.length + e.value.length) % 2 ^ 32 := by
    rw [hspace, Nat.mod_eq_of_lt (by omega)]
    omega
  have hlastValue : (n.nhLastValue + 2 ^ 32 - e.value.length) % 2 ^ 32 = n.nhLastValue - e.value.length := by
    rw [show n.nhLastValue + 2 ^ 32 - e.value.length = n.nhLastValue - e.value.length + 2 ^ 32 by omega, Nat.add_mod_right,
      Nat.mod_eq_of_lt (by omega)]
  obtain ⟨f₁, rest, hrest, hf₁⟩ := exists_split free (k := kheadSize (headOf e) + e.key.length) (by omega)
  rw [hrest, List.length_append] at hsize hlen hspace
  obtain ⟨f₂, f₃, hf, hf₂⟩ := exists_split rest (k := rest.length - e.value.length) (by omega)
  have hf₃ : f₃.length = e.value.length := by
    have hsum := congrArg List.length hf
    rw [List.length_append] at hsum
    omega
  have hbody₁ : n.body = keyArea l ++ f₁ ++ f₂ ++ f₃ ++ valueArea l := by
    rw [hbody, hrest, hf]
    simp
  have hwrite₁ : write n.body (n.nhLastValue - e.value.length) e.value =
      some (keyArea l ++ f₁ ++ f₂ ++ e.value ++ valueArea l) := by
    rw [hbody₁]
    apply write_mid _ hf₃
    simp only [List.length_append]
    omega
  have hwrite₂ : write (keyArea l ++ f₁ ++ f₂ ++ e.value ++ valueArea l) n.nhLastKey (encodeKey e) =
      some (keyArea l ++ encodeKey e ++ (f₂ ++ e.value ++ valueArea l)) := by
    have hassoc : keyArea l ++ f₁ ++ f₂ ++ e.value ++ valueArea l = keyArea l ++ f₁ ++ (f₂ ++ e.value ++ valueArea l) := by simp
    rw [hassoc]
    apply write_mid hkey
    rw [encodeKey_eq, length_keyBytes, hf₁]
  have hnew : keyArea (l ++ [{ entry := e, removed := false }]) = keyArea l ++ encodeKey e := by
    rw [keyArea_append, encodeKey_eq]
    simp [keyArea]
  have hnewValue : valueArea (l ++ [{ entry := e, removed := false }]) = e.value ++ valueArea l := by
    rw [valueArea_append]
    simp [valueArea]
  have hlastKey : (n.nhLastKey + (kheadSize (headOf e) + e.key.length)) % 2 ^ 32 =
      n.nhLastKey + (kheadSize (headOf e) + e.key.length) := Nat.mod_eq_of_lt (by omega)
  refine ⟨{ nhSize := n.nhSize, nhLastKey := n.nhLastKey + (kheadSize (headOf e) + e.key.length),
            nhLastValue := n.nhLastValue - e.value.length, nhItems := (n.nhItems + 1) % 2 ^ 16,
            nhPrefix := n.nhPrefix || decide (0 < e.kprefix),
            body := keyArea l ++ encodeKey e ++ (f₂ ++ e.value ++ valueArea l) }, ?_, rfl, ?_⟩
  · rw [BucketNode.append]
    dsimp only
    rw [hksize, if_neg hnot, hlastValue, hwrite₁, Option.bind_some, hwrite₂, Option.map_some, hlastKey]
  · refine ⟨hbound, ?_, ⟨f₂, ?_⟩, ?_, ?_, ?_, ?_⟩
    · simp only [List.length_append, encodeKey_eq, length_keyBytes]
      omega
    · rw [hnew, hnewValue]
      simp
    · rw [hnew, List.length_append, encodeKey_eq, length_keyBytes, hkey, Nat.add_assoc]
    · rw [hnewValue, List.length_append]
      show n.nhLastValue - e.value.length + _ = n.nhSize
      omega
    · rw [List.any_append, h.nhPrefix]
      simp
    · intro s hs
      rcases List.mem_append.mp hs with hs | hs
      · exact h.sized s hs
      · rw [List.mem_singleton.mp hs]
        exact he

/-! ### Removals -/

theorem itemsAt_getElem (l m : List Stored) (s : Stored) (pkey value index : Nat) :
    ∃ value' index', (itemsAt pkey value index (l ++ s :: m))[l.length]? =
      some (itemAt (pkey + (keyArea l).length) value' index' s) := by
  induction l generalizing pkey value index with
  | nil => exact ⟨value, index, by simp [itemsAt, keyArea]⟩
  | cons r l ih =>
    obtain ⟨value', index', hget⟩ := ih (pkey + (keyBytes r).length) (value - r.entry.value.length) (index + 1)
    refine ⟨value', index', ?_⟩
    rw [List.cons_append, itemsAt, List.length_cons, List.getElem?_cons_succ, hget, keyArea_cons, List.length_append,
      Nat.add_assoc]

theorem modify_length {α : Type*} (f : α → α) (l m : List α) (a : α) : (l ++ a :: m).modify l.length f = l ++ f a :: m := by
  induction l with
  | nil => rfl
  | cons b l ih => simp [ih]

theorem remove_eq (item : Item) {pbuf : Nat} {head : Byte} {buf : Bytes}
    (hplace : item.keyData - kheadSize (calcKhead item.kprefix item.keySize item.valueSize) = pbuf)
    (hfrom : n.from pbuf = head :: buf) :
    BucketNode.remove n item = some { n with body := n.body.set (pbuf - headSize) (head ||| 1) } := by
  unfold BucketNode.remove
  dsimp only
  rw [hplace]
  rw [hfrom]

theorem Holds.remove_at {before behind : List Stored} (h : Holds n (before ++ s :: behind)) (value index : Nat) :
    ∃ n', BucketNode.remove n (itemAt (headSize + (keyArea before).length) value index s) = some n' ∧
      n'.nhSize = n.nhSize ∧ Holds n' (before ++ { s with removed := true } :: behind) := by
  obtain ⟨free, hbody⟩ := h.body
  have harea (r : Stored) (he : r.entry = s.entry) : keyArea (before ++ r :: behind) =
      keyArea before ++ (mark r.removed (headByte (headOf s.entry)) :: (keyGroup s.entry ++ s.entry.key ++ keyArea behind)) := by
    rw [keyArea_append, keyArea_cons, keyBytes, he]
    rfl
  have hvalue : valueArea (before ++ { s with removed := true } :: behind) = valueArea (before ++ s :: behind) := by
    rw [valueArea_append, valueArea_append, valueArea_cons, valueArea_cons]
  have hoffset : headSize + (keyArea before).length - headSize = (keyArea before).length := Nat.add_sub_cancel_left ..
  have hfrom : n.from (headSize + (keyArea before).length) = mark s.removed (headByte (headOf s.entry)) ::
      (keyGroup s.entry ++ s.entry.key ++ keyArea behind ++ free ++ valueArea (before ++ s :: behind)) := by
    rw [Node.from, hoffset, hbody, harea s rfl, List.append_assoc (keyArea before), List.append_assoc (keyArea before),
      List.drop_left]
    rfl
  have hset : n.body.set (keyArea before).length (mark s.removed (headByte (headOf s.entry)) ||| 1) =
      keyArea (before ++ { s with removed := true } :: behind) ++ free ++ valueArea (before ++ s :: behind) := by
    rw [hbody, harea s rfl, harea { s with removed := true } rfl, mark_mark, List.append_assoc (keyArea before),
      List.append_assoc (keyArea before), List.set_append_right _ _ (le_refl _), Nat.sub_self]
    simp
  have hlen : (keyArea (before ++ { s with removed := true } :: behind)).length =
      (keyArea (before ++ s :: behind)).length := by
    rw [keyArea_append, keyArea_append, keyArea_cons, keyArea_cons]
    simp only [List.length_append, length_keyBytes]
  have hremove := remove_eq (itemAt (headSize + (keyArea before).length) value index s)
    (Nat.add_sub_cancel ..) hfrom
  rw [hoffset, hset] at hremove
  refine ⟨_, hremove, rfl, h.size, ?_, ⟨free, by rw [hvalue]⟩, ?_, ?_, ?_, ?_⟩
  · have hold := h.length
    rw [hbody] at hold
    simp only [List.length_append] at hold ⊢
    rw [hlen]
    exact hold
  · rw [hlen]
    exact h.lastKey
  · rw [hvalue]
    exact h.lastValue
  · have hold := h.nhPrefix
    rw [List.any_append, List.any_cons] at hold ⊢
    exact hold
  · intro r hr
    rcases List.mem_append.mp hr with hr | hr
    · exact h.sized r (List.mem_append_left _ hr)
    · rcases List.mem_cons.mp hr with rfl | hr
      · exact h.sized s (by simp)
      · exact h.sized r (by simp [hr])

theorem Holds.remove (h : Holds n l) {i : Nat} (hi : i < l.length) :
    ∃ its item n', BucketNode.items n = some its ∧ its[i]? = some item ∧ BucketNode.remove n item = some n' ∧
      n'.nhSize = n.nhSize ∧ Holds n' (l.modify i (fun s => { s with removed := true })) := by
  obtain ⟨before, s, behind, rfl, rfl⟩ : ∃ before s behind, l = before ++ s :: behind ∧ i = before.length :=
    ⟨l.take i, l[i], l.drop (i + 1), by simp, by simp [hi.le]⟩
  obtain ⟨value', index', hget⟩ := itemsAt_getElem before behind s headSize n.nhSize 0
  obtain ⟨n', hremove, hsize, hholds⟩ := h.remove_at value' index'
  refine ⟨_, _, n', h.items, hget, hremove, hsize, ?_⟩
  rw [modify_length]
  exact hholds

/-! ### Runs -/

/-- The numbers of an entry fit in 32 bits, and only an entry that is there is removed. -/
def Op.Legal (l : List Stored) : Op → Prop
  | .append e => Sized e
  | .remove i => i < l.length

/-- No entry is added whose size has wrapped around and fits. -/
def Op.Unwrapped (size : Nat) (l : List Stored) : Op → Prop
  | .append e => ¬ Wraps size l e
  | .remove _ => True

/-- The areas of the keys and the values do not overlap, the fetches give back the entries, and an entry that is
refused changes nothing. -/
structure Keeps (n : Node) (l : List Stored) : Prop where
  areas : headSize ≤ n.nhLastKey ∧ n.nhLastKey ≤ n.nhLastValue ∧ n.nhLastValue ≤ n.nhSize
  contents : contents n = some l
  refused : ∀ e n', append n e = some (n', 1) → n' = n

/-- Up to every call of the run, the node answers like the list of its entries and keeps them. -/
def Follows (n : Node) (l : List Stored) (ops : List Op) : Prop :=
  ∀ m, ∃ n', exec step n (ops.take m) = some (n', (specExec (specStep n.nhSize) l (ops.take m)).2) ∧
    Keeps n' (specExec (specStep n.nhSize) l (ops.take m)).1

/-- The condition holds in every call of a run on the list. -/
def Along (size : Nat) (C : List Stored → Op → Prop) : List Stored → List Op → Prop :=
  Meets (fun l op => some (specStep size l op)) C

variable {op : Op} {ops : List Op} {C : List Stored → Op → Prop}

instance : Decidable (Sized e) :=
  decidable_of_iff ( e.kprefix < 2 ^ 32 ∧ e.key.length < 2 ^ 32 ∧ e.value.length < 2 ^ 32)
    ⟨fun h => ⟨h.1, h.2.1, h.2.2⟩, fun h => ⟨ h.kprefix, h.key, h.value⟩⟩

instance : Decidable (Wraps size l e) := inferInstanceAs (Decidable (_ ∧ _))

instance : Decidable (op.Legal l) :=
  match op with
  | .append e => inferInstanceAs (Decidable (Sized e))
  | .remove i => inferInstanceAs (Decidable (i < l.length))

instance : Decidable (op.Unwrapped size l) :=
  match op with
  | .append e => inferInstanceAs (Decidable (¬ Wraps size l e))
  | .remove _ => isTrue trivial

instance [∀ l op, Decidable (C l op)] : Decidable (Along size C l ops) := inferInstanceAs (Decidable (Meets _ _ _ _))

theorem along_cons : Along size C l (op :: ops) ↔ C l op ∧ Along size C (specStep size l op).1 ops := by
  refine and_congr_right fun _ => ⟨fun h => h _ _ rfl, ?_⟩
  rintro h l' out hstep
  have hl' : (specStep size l op).1 = l' := congrArg Prod.fst (Option.some.inj hstep)
  rw [← hl']
  exact h

theorem append_result (h : append n e = some (n', 1)) : n' = n := by
  rw [append] at h
  split_ifs at h
  · exact (Prod.mk.inj (Option.some.inj h)).1.symm
  · simp [Option.bind_eq_some_iff] at h

theorem Holds.keeps (h : Holds n l) : Keeps n l where
  areas := by
    obtain ⟨free, -, hsize, -⟩ := h.nhSize_eq
    have hused := length_areas l
    have hkey := h.lastKey
    have hval := h.lastValue
    exact ⟨by omega, by omega, by omega⟩
  contents := h.contents
  refused _ _ := append_result

theorem create_holds (hhead : headSize ≤ size) (hsize : size < 2 ^ 32) :
    ∃ n, create size = some n ∧ n.nhSize = size ∧ Holds n [] := by
  refine ⟨_, if_neg (not_lt.mpr hhead), rfl, ?_⟩
  refine ⟨hsize, ?_, ⟨_, (List.append_nil _).symm⟩, rfl, rfl, rfl, by simp⟩
  simp only [List.length_replicate]
  omega

theorem Holds.step (h : Holds n l) (hl : op.Legal l) (hw : op.Unwrapped n.nhSize l) :
    ∃ n', BucketNode.step n op = some (n', (specStep n.nhSize l op).2) ∧ n'.nhSize = n.nhSize ∧
      Holds n' (specStep n.nhSize l op).1 := by
  cases op with
  | append e =>
    have hspace := h.hasSpace hw
    rw [BucketNode.step, specStep, hspace]
    by_cases hfit : headSize + used l + entrySize e ≤ n.nhSize
    · obtain ⟨n', happend, hsize, hholds⟩ := h.append hl hfit
      rw [if_pos hfit, happend, decide_eq_true hfit]
      exact ⟨n', rfl, hsize, hholds⟩
    · rw [decide_eq_false hfit] at hspace
      rw [if_neg hfit, append_refused e hspace, decide_eq_false hfit]
      exact ⟨n, rfl, rfl, h⟩
  | remove i =>
    obtain ⟨its, item, n', hitems, hget, hremove, hsize, hholds⟩ := h.remove hl
    rw [BucketNode.step, hitems, Option.bind_some, hget, Option.bind_some, hremove]
    exact ⟨n', rfl, hsize, hholds⟩

theorem Holds.run (h : Holds n l) (hl : Along n.nhSize (fun l op => op.Legal l ∧ op.Unwrapped n.nhSize l) l ops) :
    ∃ n', exec BucketNode.step n ops = some (n', (specExec (specStep n.nhSize) l ops).2) ∧
      Holds n' (specExec (specStep n.nhSize) l ops).1 := by
  induction ops generalizing n l with
  | nil => exact ⟨n, rfl, h⟩
  | cons op ops ih =>
    rw [along_cons] at hl
    obtain ⟨n₁, hstep, hsize, hholds⟩ := h.step hl.1.1 hl.1.2
    obtain ⟨n', hexec, hholds'⟩ := ih hholds (by rw [hsize]; exact hl.2)
    rw [hsize] at hexec hholds'
    refine ⟨n', ?_, hholds'⟩
    rw [exec_cons, hstep, Option.bind_some, hexec]
    rfl

theorem Holds.step_wraps (h : Holds n l) (hw : Wraps n.nhSize l e) {out : Out}
    (hstep : BucketNode.step n (.append e) = some (n', out)) : out ≠ (specStep n.nhSize l (.append e)).2 := by
  obtain ⟨free, -, hsize, hspace⟩ := h.nhSize_eq
  have hbound := h.size
  have hhas : BucketNode.hasSpace n e = true := by
    rw [BucketNode.hasSpace, ← entrySize, decide_eq_true_iff, hspace]
    have hle := hw.2
    omega
  have hnot : ¬ headSize + used l + entrySize e ≤ n.nhSize := by
    have hle := hw.1
    omega
  rw [BucketNode.step, Option.map_eq_some_iff] at hstep
  obtain ⟨r, -, hr⟩ := hstep
  rw [specStep, if_neg hnot, ← (Prod.mk.inj hr).2, hhas]
  simp

theorem Follows.nil (h : Holds n l) : Follows n l [] := by
  intro m
  rw [List.take_nil]
  exact ⟨n, rfl, h.keeps⟩

theorem follows_cons (h : Holds n l) (hl : op.Legal l) (hw : op.Unwrapped n.nhSize l) :
    ∃ n', n'.nhSize = n.nhSize ∧ Holds n' (specStep n.nhSize l op).1 ∧
      (Follows n l (op :: ops) ↔ Follows n' (specStep n.nhSize l op).1 ops) := by
  obtain ⟨n', hstep, hsize, hholds⟩ := h.step hl hw
  have htail (m : Nat) : exec BucketNode.step n ((op :: ops).take (m + 1)) =
      (exec BucketNode.step n' (ops.take m)).map (fun q => (q.1, (specStep n.nhSize l op).2 :: q.2)) := by
    rw [List.take_succ_cons, exec_cons, hstep, Option.bind_some]
  refine ⟨n', hsize, hholds, ?_⟩
  constructor
  · intro hf m
    obtain ⟨n₂, hexec, hkeeps⟩ := hf (m + 1)
    rw [htail, Option.map_eq_some_iff] at hexec
    obtain ⟨⟨n₃, outs⟩, hexec, heq⟩ := hexec
    obtain ⟨rfl, hcons⟩ := Prod.mk.inj heq
    have houts : outs = _ := (List.cons.inj hcons).2
    rw [hsize]
    exact ⟨n₃, by rw [hexec, houts], hkeeps⟩
  · intro hf m
    cases m with
    | zero => exact ⟨n, rfl, h.keeps⟩
    | succ m =>
      obtain ⟨n₂, hexec, hkeeps⟩ := hf m
      rw [hsize] at hexec hkeeps
      exact ⟨n₂, by rw [htail, hexec]; rfl, hkeeps⟩

theorem Holds.follows_iff (h : Holds n l) (hl : Along n.nhSize (fun l op => op.Legal l) l ops) :
    Follows n l ops ↔ Along n.nhSize (fun l op => op.Unwrapped n.nhSize l) l ops := by
  induction ops generalizing n l with
  | nil => exact iff_of_true (Follows.nil h) trivial
  | cons op ops ih =>
    rw [along_cons] at hl ⊢
    by_cases hw : op.Unwrapped n.nhSize l
    · obtain ⟨n', hsize, hholds, hiff⟩ := follows_cons h hl.1 hw
      have hrest := ih hholds (by rw [hsize]; exact hl.2)
      rw [hiff, hrest, hsize]
      exact (and_iff_right hw).symm
    · refine iff_of_false ?_ (fun hc => hw hc.1)
      intro hf
      obtain ⟨n₂, hexec, -⟩ := hf 1
      rw [List.take_succ_cons, List.take_zero, exec_cons, Option.bind_eq_some_iff] at hexec
      obtain ⟨⟨n₁, out⟩, hstep, hout⟩ := hexec
      cases op with
      | remove i => exact hw trivial
      | append e =>
        refine h.step_wraps (not_not.mp hw) hstep ?_
        exact (List.cons.inj (Prod.mk.inj (Option.some.inj hout)).2).1

/-- A node of the size can be made, and it follows the run. -/
def Faithful (size : Nat) (ops : List Op) : Prop := ∃ n, create size = some n ∧ Follows n [] ops

/-- A node keeps the entries of every run iff it has space for its header and no size of an entry wraps around into
the free space. -/
theorem faithful_iff (hsize : size < 2 ^ 32) (hl : Along size (fun l op => op.Legal l) [] ops) :
    Faithful size ops ↔ headSize ≤ size ∧ Along size (fun l op => op.Unwrapped size l) [] ops := by
  by_cases hhead : headSize ≤ size
  · obtain ⟨n, hcreate, hn, hholds⟩ := create_holds hhead hsize
    rw [← hn] at hl
    have hiff := hholds.follows_iff hl
    rw [hn] at hiff
    rw [Faithful, hcreate, and_iff_right hhead, ← hiff]
    simp
  · refine iff_of_false ?_ (fun hc => hhead hc.1)
    rintro ⟨n, hcreate, -⟩
    rw [create, if_pos (not_le.mp hhead)] at hcreate
    exact absurd hcreate (by simp)

/-- Two entries are added to a node of 47 bytes, a third one is refused, and the first one is removed. -/
theorem faithful_iff_small : Faithful 47
    [.append { kprefix := 0, key := [1, 2], value := [7] }, .append { kprefix := 2, key := [3], value := [] },
     .append { kprefix := 0, key := [4], value := [8] }, .remove 0] :=
  (faithful_iff (by decide) (by decide +kernel)).mpr ⟨by decide, by decide +kernel⟩

/-- An entry of 2 ^ 32 bytes is taken for one there is space for, in a node with 32 free bytes. -/
theorem wrapped_size_accepted : ¬ Faithful 64
    [.append { kprefix := 0, key := List.replicate (2 ^ 31) 0, value := List.replicate (2 ^ 31 - 9) 0 }] := by
  have hkhead : kheadSize (calcKhead 0 (2 ^ 31) (2 ^ 31 - 9)) = 9 := by decide
  rintro ⟨n, hcreate, hf⟩
  obtain ⟨n', hcreate', hn, hholds⟩ := create_holds (show headSize ≤ 64 by decide) (by decide)
  obtain rfl := Option.some.inj (hcreate'.symm.trans hcreate)
  have hwraps : Wraps n'.nhSize [] { kprefix := 0, key := List.replicate (2 ^ 31) 0, value := List.replicate (2 ^ 31 - 9) 0 } := by
    rw [hn, Wraps, entrySize, headOf]
    simp only [List.length_replicate, hkhead]
    exact ⟨by decide, by decide⟩
  have hlegal : Along n'.nhSize (fun l op => op.Legal l) []
      [.append { kprefix := 0, key := List.replicate (2 ^ 31) 0, value := List.replicate (2 ^ 31 - 9) 0 }] := by
    rw [along_cons]
    refine ⟨⟨by decide, ?_, ?_⟩, trivial⟩
    · simp only [List.length_replicate]
      decide
    · simp only [List.length_replicate]
      decide
  exact (along_cons.mp ((hholds.follows_iff hlegal).mp hf)).1 hwraps

end RaleighSL.Zcl.BucketNode
