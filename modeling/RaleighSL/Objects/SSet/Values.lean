import RaleighSL.Objects.SSet.Simulation

/-!
# Committed values

The value of a key is that of its item in memory, or what the block of its node
holds for it. A search finds it unless a prefix of the key misleads the search of
the block. A write changes the value of its key only, and a balance moves values
to other nodes without a change.
-/
namespace RaleighSL.Objects.SSet
open RaleighSL.Core RaleighSL.Library RaleighSL.Zcl

namespace Node

def stored (n : Node) : List (Bytes × Bytes) :=
  match n.block with
  | none => []
  | some b => decode b

def storedAt (n : Node) (k : Bytes) : Option Bytes := (n.stored.find? (fun p => p.1 = k)).map Prod.snd

def value (n : Node) (k : Bytes) : Option Bytes :=
  match n.memData.lookup k with
  | some item => if item.isDeleteMarker then none else some item.value
  | none => n.storedAt k

structure Encoded (n : Node) : Prop where
  stored : Stored n n.stored
  sorted : n.stored.Pairwise (fun p q => p.1 < q.1)

/-- No prefix of the key hides it from the search of the block. -/
def SearchOk (n : Node) (k : Bytes) : Prop :=
  n.memData.lookup k = none → n.storedAt k ≠ none → ¬ Misled k n.stored

instance (n : Node) (k : Bytes) : Decidable (n.SearchOk k) := inferInstanceAs (Decidable (_ → _ → _))

variable {n : Node} {k k' v : Bytes} {type : TxnType} {item : MapItem}

theorem stored_eq {l : List (Bytes × Bytes)} (h : Stored n l) : n.stored = l := by
  rw [Stored] at h
  rw [Node.stored]
  cases hb : n.block with
  | none =>
    simp only [hb] at h
    exact h.symm
  | some b =>
    simp only [hb] at h
    subst h
    exact decode_encode l

theorem Encoded.storedAt_eq_some (h : n.Encoded) : n.storedAt k = some v ↔ (k, v) ∈ n.stored := by
  constructor
  · intro hk
    rw [Node.storedAt, Option.map_eq_some_iff] at hk
    obtain ⟨p, hp, rfl⟩ := hk
    have hpk : p.1 = k := by simpa using List.find?_some hp
    rw [← hpk]
    exact List.mem_of_find?_eq_some hp
  · intro hk
    have hfind := SortedMap.find?_eq_some_of_mem h.sorted hk
    rw [Node.storedAt, Option.map_eq_some_iff]
    exact ⟨(k, v), by convert hfind, rfl⟩

/-- A search of the block finds nothing but what is stored. -/
theorem Encoded.search_sound (h : n.Encoded) (hk : n.block.bind (fun b => bucketSearch 0 b k) = some v) :
    n.storedAt k = some v := by
  rw [h.storedAt_eq_some]
  have hs := h.stored
  rw [Option.bind_eq_some_iff] at hk
  obtain ⟨b, hb, hk⟩ := hk
  rw [Stored] at hs
  simp only [hb] at hs
  rw [hs] at hk
  exact bucketSearch_sound hk

theorem Encoded.search_complete (h : n.Encoded) (hk : n.storedAt k = some v) (hm : ¬ Misled k n.stored) :
    n.block.bind (fun b => bucketSearch 0 b k) = some v := by
  rw [h.storedAt_eq_some] at hk
  have hs := h.stored
  rw [Stored] at hs
  cases hb : n.block with
  | none =>
    simp only [hb] at hs
    simp [hs] at hk
  | some b =>
    simp only [hb] at hs
    rw [Option.bind_some, hs]
    exact bucketSearch_complete 0 h.sorted hk hm

theorem Encoded.search_block (h : n.Encoded) (hm : n.storedAt k ≠ none → ¬ Misled k n.stored) :
    n.block.bind (fun b => bucketSearch 0 b k) = n.storedAt k := by
  cases hk : n.storedAt k with
  | none =>
    cases hs : n.block.bind (fun b => bucketSearch 0 b k) with
    | none => rfl
    | some v =>
      rw [h.search_sound hs] at hk
      exact absurd hk (by simp)
  | some v => exact h.search_complete hk (hm (by simp [hk]))

theorem Encoded.search_eq_value (h : n.Encoded) (hm : n.SearchOk k) : n.search k = n.value k := by
  rw [Node.search, Node.value]
  cases hk : n.memData.lookup k with
  | some item => rfl
  | none => exact h.search_block (hm hk)

@[simp] theorem bare_value (n : Node) (k : Bytes) : n.bare.value k = n.value k := rfl

@[simp] theorem bare_storedAt (n : Node) (k : Bytes) : n.bare.storedAt k = n.storedAt k := rfl

@[simp] theorem apply_storedAt (n : Node) (type : TxnType) (k : Bytes) (item : MapItem) (k' : Bytes) :
    (n.apply type k item).storedAt k' = n.storedAt k' := by
  rw [Node.storedAt, Node.stored, apply_block]
  rfl

theorem apply_mem_of_ne (h : k' ≠ k) : (n.apply type k item).memData.lookup k' = n.memData.lookup k' := by
  cases type <;> cases hl : n.memData.lookup k <;>
    simp [Node.apply, hl, SortedMap.lookup_insert_of_ne _ _ h, SortedMap.lookup_erase_of_ne _ h]

theorem apply_value_of_ne (h : k' ≠ k) : (n.apply type k item).value k' = n.value k' := by
  rw [Node.value, Node.value, apply_mem_of_ne h, apply_storedAt]

/-- An item in memory covers nothing in the block: without it the key has no value. -/
def RemoveOk (n : Node) (k : Bytes) : Prop := n.memData.lookup k ≠ none → n.storedAt k = none

instance (n : Node) (k : Bytes) : Decidable (n.RemoveOk k) := inferInstanceAs (Decidable (_ → _))

theorem apply_value_insert (n : Node) (k v : Bytes) : (n.apply .insert k ⟨v, false⟩).value k = some v := by
  simp [Node.apply, Node.value]

theorem apply_value_remove (h : n.RemoveOk k) (v : Bytes) :
    (n.apply .remove k ⟨v, true⟩).value k = none := by
  cases hm : n.memData.lookup k with
  | none => simp [Node.apply, Node.value, hm]
  | some item =>
    have hs : (n.apply .remove k ⟨v, true⟩).storedAt k = none := by
      rw [apply_storedAt]
      exact h (by simp [hm])
    rw [Node.value, hs]
    simp [Node.apply, hm]

end Node

variable {s s' : State} {L : Layers} {t : TxnId} {k v : Bytes} {id : NodeId} {n : Node} {f : Bytes}

theorem Indexed.encoded (h : Indexed s) (hn : s.nodes id = some n) :
    n.Encoded ∧ ∀ k, n.storedAt k ≠ none → Routes s k id := by
  obtain ⟨l, hl, hsort, hr⟩ := h.stored hn
  have hs := Node.stored_eq hl
  have henc : n.Encoded := ⟨by rw [hs]; exact hl, by rw [hs]; exact hsort⟩
  refine ⟨henc, ?_⟩
  intro k hk
  obtain ⟨v, hv⟩ := Option.ne_none_iff_exists'.mp hk
  rw [henc.storedAt_eq_some, hs] at hv
  exact hr _ hv

theorem Indexed.value_routes (h : Indexed s) (hn : s.nodes id = some n) (hk : n.value k = some v) : Routes s k id := by
  rw [Node.value] at hk
  cases hm : n.memData.lookup k with
  | some item => exact h.mem id n k hn (by simp [hm])
  | none =>
    simp only [hm] at hk
    exact (h.encoded hn).2 k (by simp [hk])

def valueAt (s : State) (k : Bytes) : Option Bytes := (nodeLookup s k).bind (fun p => p.2.value k)

def valueIn (m : SortedMap Bytes Node) (k : Bytes) : Option Bytes := (m.floor k).bind (fun p => p.2.value k)

theorem RouteOf.valueAt (hr : RouteOf s L k f id n) : SSet.valueAt s k = n.value k := by
  rw [SSet.valueAt, hr.lookup, Option.bind_some]

theorem RouteOf.valueIn (hr : RouteOf s L k f id n) : SSet.valueIn L.nodes k = n.value k := by
  rw [SSet.valueIn, hr.layer, Option.bind_some, Node.bare_value]

theorem Embeds.valueIn_eq (h : Embeds s L) (k : Bytes) : valueIn L.nodes k = valueAt s k := by
  obtain ⟨f, id, n, hr⟩ := h.route k
  rw [hr.valueIn, hr.valueAt]

theorem Indexed.valueAt_eq_some (h : Indexed s) : valueAt s k = some v ↔
    ∃ f id n, (f, id) ∈ s.root.entries ∧ s.nodes id = some n ∧ n.value k = some v := by
  constructor
  · intro hk
    rw [valueAt, Option.bind_eq_some_iff] at hk
    obtain ⟨⟨id, n⟩, hl, hv⟩ := hk
    obtain ⟨⟨f, hf⟩, hn⟩ := nodeLookup_eq_some hl
    exact ⟨f, id, n, SortedMap.floor_mem hf, hn, hv⟩
  · rintro ⟨f, id, n, -, hn, hv⟩
    rw [valueAt, nodeLookup_of_routes (h.value_routes hn hv) hn, Option.bind_some, hv]

/-! ### Writes -/

variable {m : SortedMap Bytes Node} {type : TxnType} {item : MapItem} {k' : Bytes} {p : Bytes × Node}

theorem floor_applyAt (type : TxnType) (item : MapItem) (hp : m.floor k = some p) {q : Bytes × Node}
    (hq : m.floor k' = some q) :
    (Layers.applyAt m k type item).floor k' = some (q.1, if q.1 = p.1 then p.2.apply type k item else q.2) := by
  have hmem : m.lookup p.1 ≠ none := by
    rw [SortedMap.mem_entries.mp (SortedMap.floor_mem hp)]
    simp
  rw [applyAt_eq hp, SortedMap.floor_insert_of_mem hmem _ hq]
  congr!

theorem floor_node_eq (hp : m.floor k = some p) {q : Bytes × Node} (hq : m.floor k' = some q) (h : q.1 = p.1) :
    q.2 = p.2 := by
  have h₁ := SortedMap.mem_entries.mp (SortedMap.floor_mem hp)
  have h₂ := SortedMap.mem_entries.mp (SortedMap.floor_mem hq)
  rw [h, h₁] at h₂
  exact (Option.some.inj h₂).symm

theorem valueIn_applyAt_self (hp : m.floor k = some p) :
    valueIn (Layers.applyAt m k type item) k = (p.2.apply type k item).value k := by
  rw [valueIn, floor_applyAt _ _ hp hp, if_pos rfl, Option.bind_some]

theorem valueIn_applyAt_of_ne (hne : m.entries ≠ []) (h : k' ≠ k) :
    valueIn (Layers.applyAt m k type item) k' = valueIn m k' := by
  cases hp : m.floor k with
  | none => exact absurd (SortedMap.floor_eq_none.mp hp) hne
  | some p =>
    cases hq : m.floor k' with
    | none => exact absurd (SortedMap.floor_eq_none.mp hq) hne
    | some q =>
      rw [valueIn, floor_applyAt _ _ hp hq, valueIn, hq, Option.bind_some, Option.bind_some]
      split_ifs with hqp
      · rw [Node.apply_value_of_ne h, floor_node_eq hp hq hqp]
      · rfl

theorem Write.Sound.value {w : Write} (h : w.Sound) (hok : w.type = .remove → n.RemoveOk k) :
    (n.apply w.type k w.item).value k = w.effect := by
  obtain ⟨t, type, v, d⟩ := w
  rcases h with ⟨rfl, rfl⟩ | ⟨rfl, rfl⟩
  · exact Node.apply_value_insert n k v
  · exact Node.apply_value_remove (hok rfl) v

theorem applyAt_nonempty (hne : m.entries ≠ []) : (Layers.applyAt m k type item).entries ≠ [] := by
  intro hnil
  cases hp : m.floor k with
  | none => exact hne (SortedMap.floor_eq_none.mp hp)
  | some p =>
    have hfloor := floor_applyAt type item hp hp
    rw [SortedMap.floor_eq_none.mpr hnil] at hfloor
    simp at hfloor

/-- The writes of a transaction to distinct keys. -/
theorem valueIn_applyAll (hne : m.entries ≠ []) {l : List (Bytes × Write)} (hl : l.Pairwise (fun p q => p.1 < q.1))
    (hsound : ∀ p ∈ l, p.2.Sound)
    (hok : ∀ p ∈ l, p.2.type = .remove → ∀ q, m.floor p.1 = some q → q.2.RemoveOk p.1) (k : Bytes) :
    valueIn (Layers.applyAll m l) k =
      match (l.find? (fun p => p.1 = k)).map Prod.snd with
      | none => valueIn m k
      | some w => w.effect := by
  induction l generalizing m with
  | nil => rfl
  | cons p l ih =>
    rw [List.pairwise_cons] at hl
    obtain ⟨q, hq⟩ : ∃ q, m.floor p.1 = some q := by
      cases hq : m.floor p.1 with
      | none => exact absurd (SortedMap.floor_eq_none.mp hq) hne
      | some q => exact ⟨q, rfl⟩
    have hself : valueIn (Layers.applyAt m p.1 p.2.type p.2.item) p.1 = p.2.effect := by
      rw [valueIn_applyAt_self hq]
      exact (hsound p List.mem_cons_self).value (fun ht => hok p List.mem_cons_self ht q hq)
    have hrest : ∀ p' ∈ l, p'.2.type = .remove →
        ∀ q', (Layers.applyAt m p.1 p.2.type p.2.item).floor p'.1 = some q' → q'.2.RemoveOk p'.1 := by
      intro p' hp' ht q' hq'
      have hkey : p'.1 ≠ p.1 := (hl.1 p' hp').ne'
      obtain ⟨r, hr⟩ : ∃ r, m.floor p'.1 = some r := by
        cases hr : m.floor p'.1 with
        | none => exact absurd (SortedMap.floor_eq_none.mp hr) hne
        | some r => exact ⟨r, rfl⟩
      have hrok := hok p' (List.mem_cons_of_mem _ hp') ht r hr
      rw [floor_applyAt _ _ hq hr] at hq'
      rw [← Option.some.inj hq']
      dsimp only
      split_ifs with hqr
      · rw [Node.RemoveOk, Node.apply_mem_of_ne hkey, Node.apply_storedAt, ← floor_node_eq hq hr hqr]
        exact hrok
      · exact hrok
    have ih := ih (applyAt_nonempty hne) hl.2 (fun p' hp' => hsound p' (List.mem_cons_of_mem _ hp')) hrest
    rw [Layers.applyAll, List.foldl_cons, ← Layers.applyAll, ih, List.find?_cons]
    by_cases hk : p.1 = k
    · subst hk
      have hnone : l.find? (fun q => decide (q.1 = p.1)) = none := by
        rw [List.find?_eq_none]
        intro q hq
        simpa using (hl.1 q hq).ne'
      rw [hnone]
      simp [hself]
    · simp [hk, valueIn_applyAt_of_ne hne (Ne.symm hk)]

/-! ### Balancing -/

def Node.Readable (n : Node) : Prop := ∀ it, blkIter n [] false = some it → it.fault = false

theorem Node.Encoded.block_lookup (h : n.Encoded) (k : Bytes) :
    (MapMerger.mapOf _ (blockItems_sorted h.sorted)).lookup k = (n.storedAt k).map (fun v => ⟨v, false⟩) := by
  ext item
  rw [← SortedMap.mem_entries, Option.map_eq_some_iff]
  simp only [MapMerger.mapOf, blockItems, List.mem_map, Prod.mk.injEq, h.storedAt_eq_some]
  constructor
  · rintro ⟨p, hp, rfl, hi⟩
    exact ⟨p.2, hp, hi⟩
  · rintro ⟨v, hv, hi⟩
    exact ⟨(k, v), hv, rfl, hi⟩

theorem Node.value_eq_some (n : Node) (k v : Bytes) :
    (n.memData.lookup k).or ((n.storedAt k).map (fun v => ⟨v, false⟩)) = some ⟨v, false⟩ ↔ n.value k = some v := by
  rw [Node.value]
  cases hm : n.memData.lookup k with
  | some item =>
    obtain ⟨w, d⟩ := item
    cases d <;> simp
  | none => simp

theorem nodeEntries_value (h : Indexed s) (hn : s.nodes id = some n) (hf : n.Readable) :
    ∃ l, nodeEntries s n 0 = some l ∧ ∀ k v, (k, v) ∈ l ↔ n.value k = some v := by
  obtain ⟨henc, -⟩ := h.encoded hn
  refine ⟨_, nodeEntries_of_not_fault (ownEntries_zero h hn) henc.stored henc.sorted hf, ?_⟩
  intro k v
  rw [mem_live, SortedMap.mem_entries, SortedMap.lookup_union, henc.block_lookup, Node.value_eq_some]

/-- A balance of nodes whose blocks can be read moves values, it does not change them. -/
theorem Exchanged.valueAt {rm : List NodeId} {ls : List (List (Bytes × Bytes))} (h : Indexed s) (hc : Cut s rm ls)
    (hx : Exchanged s rm ls s') (h' : Indexed s')
    (hrm : ∀ id ∈ rm, ∃ f, (f, id) ∈ s.root.entries)
    (hread : ∀ id ∈ rm, ∀ n, s.nodes id = some n → n.Readable) (k : Bytes) :
    SSet.valueAt s' k = SSet.valueAt s k := by
  have hnew (l : List (Bytes × Bytes)) (hl : l ∈ ls) (v : Bytes) :
      (Node.alloc (some (encode l))).value k = some v ↔ (k, v) ∈ l := by
    have hst : (Node.alloc (some (encode l))).stored = l := Node.stored_eq rfl
    have henc : (Node.alloc (some (encode l))).Encoded := ⟨by rw [hst]; rfl, by rw [hst]; exact hc.pairwise.1 l hl⟩
    rw [← hst, ← henc.storedAt_eq_some, hst]
    rfl
  ext v
  rw [h'.valueAt_eq_some, h.valueAt_eq_some]
  constructor
  · rintro ⟨f, id, n, hf, hn, hv⟩
    rcases (hx.root f id).mp hf with ⟨hf, hid⟩ | ⟨i, l, hl, rfl, rfl⟩
    · obtain ⟨m, hm, -⟩ := h.node _ hf
      rw [hx.kept id (h.freshNode id m hm), if_neg hid] at hn
      exact ⟨f, id, n, hf, hn, hv⟩
    · rw [hx.added i, hl, Option.map_some] at hn
      have hmem := List.mem_of_getElem? hl
      rw [← Option.some.inj hn, hnew l hmem] at hv
      obtain ⟨id, hid, n, L, hn, hL, hkL⟩ := (hc.contents (k, v)).mp (List.mem_flatten_of_mem hmem hv)
      obtain ⟨L', hL', hval⟩ := nodeEntries_value h hn (hread id hid n hn)
      obtain rfl : L = L' := Option.some.inj (hL.symm.trans hL')
      obtain ⟨f, hf⟩ := hrm id hid
      exact ⟨f, id, n, hf, hn, (hval k v).mp hkL⟩
  · rintro ⟨f, id, n, hf, hn, hv⟩
    by_cases hid : id ∈ rm
    · obtain ⟨L, hL, hval⟩ := nodeEntries_value h hn (hread id hid n hn)
      obtain ⟨l, hl, hkl⟩ := List.mem_flatten.mp ((hc.contents (k, v)).mpr ⟨id, hid, n, L, hn, hL, (hval k v).mpr hv⟩)
      obtain ⟨i, hi⟩ := List.getElem?_of_mem hl
      refine ⟨headKey l, s.nextNode + i, _, (hx.root _ _).mpr (Or.inr ⟨i, l, hi, rfl, rfl⟩), ?_, (hnew l hl v).mpr hkl⟩
      rw [hx.added i, hi]
      rfl
    · refine ⟨f, id, n, (hx.root f id).mpr (Or.inl ⟨hf, hid⟩), ?_, hv⟩
      rw [hx.kept id (h.freshNode id n hn), if_neg hid, hn]

def Fits (p : Bytes × Bytes) : Prop := p.1.length ≤ kprefixSize ∧ (entryAfter [] p).size ≤ blockSpace

instance (p : Bytes × Bytes) : Decidable (Fits p) := inferInstanceAs (Decidable (_ ∧ _))

theorem fillBlocks_defined {l : List (Bytes × Bytes)} (hl : ∀ p ∈ l, Fits p) (block : Bucket) (used : Nat)
    (prev : Bytes) : ∃ bs, fillBlocks block used prev l = some bs := by
  induction l generalizing block used prev with
  | nil => exact ⟨[block], rfl⟩
  | cons p l ih =>
    obtain ⟨hkey, hsize⟩ := hl p List.mem_cons_self
    have ih := ih (fun q hq => hl q (List.mem_cons_of_mem _ hq))
    rw [fillBlocks, if_neg (Nat.not_lt.mpr hkey)]
    split_ifs
    · exact ih _ _ _
    · obtain ⟨bs, hbs⟩ := ih [entryAfter [] p] (entryAfter [] p).size p.1
      exact ⟨block :: bs, by rw [hbs]; rfl⟩

theorem cutBlocks_defined {l : List (Bytes × Bytes)} (hl : ∀ p ∈ l, Fits p) : ∃ bs, cutBlocks l = some bs := by
  cases l with
  | nil => exact ⟨[], rfl⟩
  | cons p l =>
    obtain ⟨hkey, hsize⟩ := hl p List.mem_cons_self
    rw [cutBlocks, if_neg (Nat.not_lt.mpr hkey), if_pos hsize]
    exact fillBlocks_defined (fun q hq => hl q (List.mem_cons_of_mem _ hq)) _ _ _

/-- The blocks of the nodes that are too large can be read, and their live entries fit. -/
def BlocksOk (s : State) : Prop :=
  ∀ p ∈ s.root.entries, ∀ n ∈ s.nodes p.2, requiresBalance n →
    n.Readable ∧ ∀ l ∈ nodeEntries s n 0, ∀ q ∈ l, Fits q

theorem balanceNodes_defined (h : Indexed s) (hok : BlocksOk s) {es : List (Bytes × NodeId)}
    (hes : ∀ p ∈ es, p ∈ s.root.entries) : ∃ r, balanceNodes s (es.map Prod.snd) = some r := by
  induction es with
  | nil => exact ⟨([], []), rfl⟩
  | cons p es ih =>
    have hp := hes p List.mem_cons_self
    obtain ⟨r, hr⟩ := ih (fun q hq => hes q (List.mem_cons_of_mem _ hq))
    obtain ⟨n, hn, -⟩ := h.node p hp
    rw [List.map_cons, balanceNodes, hn, Option.bind_some, hr]
    split_ifs with hlarge
    · obtain ⟨hread, hfits⟩ := hok p hp n hn hlarge
      obtain ⟨l, hl, -⟩ := nodeEntries_value h hn hread
      obtain ⟨bs, hbs⟩ := cutBlocks_defined (hfits l hl)
      exact ⟨(p.2 :: r.1, bs ++ r.2), by rw [nodeBalance, hl, Option.bind_some, hbs]; rfl⟩
    · exact ⟨r, rfl⟩

/-- A balance whose blocks can be read and written keeps every committed value. -/
theorem Embeds.balance_value (h : Embeds s L) (hok : BalanceOk s) (hblocks : BlocksOk s) :
    ∃ s' L', (objectBalance s).bind objectCommit = some s' ∧ L.balance = some L' ∧ Embeds s' L' ∧
      ∀ k, valueAt s' k = valueAt s k := by
  obtain ⟨r, hr⟩ := balanceNodes_defined h.tidy.indexed hblocks (fun p hp => hp)
  have hb : objectBalance s = some (addBlocks { s with rmNodes := s.rmNodes ++ r.1 } r.2) := by
    rw [objectBalance, hr, Option.map_some]
  obtain ⟨rm, ls, s', hnodes, hquiet, hcut, hx, htidy, -, hrm, hreq⟩ := h.tidy.balanced hok hb
  have hs' : (objectBalance s).bind objectCommit = some s' := by rw [hb, Option.bind_some, hquiet]
  rcases h.balance hok with ⟨hnone, -⟩ | ⟨s₁, L', hs₁, hL', he⟩
  · rw [hs'] at hnone
    exact absurd hnone (by simp)
  · obtain rfl : s' = s₁ := Option.some.inj (hs'.symm.trans hs₁)
    refine ⟨s', L', hs', hL', he, ?_⟩
    apply hx.valueAt h.tidy.indexed hcut htidy.indexed hrm
    intro id hid n hn
    obtain ⟨f, hf⟩ := hrm id hid
    exact (hblocks _ hf n hn ((hreq hf hn).mp hid)).1

end RaleighSL.Objects.SSet
