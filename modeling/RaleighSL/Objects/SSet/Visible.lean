import RaleighSL.Objects.SSet.Store
import RaleighSL.Objects.SSet.Values

/-!
# What a transaction sees

The layers show a store: their committed values and what their pending writes
leave of the locked keys. A scan merges the pending writes of its transaction with
the items in memory and in the block, node after node, and returns the map that
the transaction sees, from the start key on. A scan from within the keys of a node
needs some care of its caller: the seek among the locks of the transaction stops
where it should, and with `includeKey` the memory has the start key, or nothing
but a delete marker right below it.
-/
namespace RaleighSL.Objects.SSet
open RaleighSL.Core RaleighSL.Library RaleighSL.Zcl

structure Refines (L : Layers) (A : Store) : Prop where
  map : ∀ k, A.map.lookup k = valueIn L.nodes k
  pending : ∀ k, A.pending.lookup k = (L.pending.lookup k).map (fun w => (w.txnId, w.effect))
  ended : A.ended = L.ended
  sound : ∀ k w, L.pending.lookup k = some w → w.txnId ≠ 0 ∧ w.Sound

variable {s : State} {L : Layers} {A : Store} {t : TxnId} {k v key : Bytes} {n : Node} {includeKey : Bool}
  {p : Bytes × Node}

theorem Refines.seen_lookup (h : Refines L A) (t : TxnId) (k : Bytes) :
    (A.seen t).lookup k = match L.pending.lookup k with
      | none => valueIn L.nodes k
      | some w => if w.txnId = t then w.effect else valueIn L.nodes k := by
  rw [Store.seen_lookup, h.pending k, h.map k]
  cases L.pending.lookup k <;> rfl

theorem Refines.closed (h : Refines L A) : A.Closed t k ↔ ∃ w, L.pending.lookup k = some w ∧ w.txnId ≠ t := by
  rw [Store.Closed, h.pending k]
  cases L.pending.lookup k <;> simp

/-! ### The iterators of a node -/

def covered (key : Bytes) (includeKey : Bool) (l : List MapEntry) : List MapEntry :=
  l.filter (fun e => inRange key includeKey e.1)

@[simp] theorem covered_nil_key (l : List MapEntry) : covered [] includeKey l = l := by
  simp [covered, inRange]

theorem covered_eq (hkey : key ≠ []) (l : List MapEntry) :
    covered key includeKey l = l.filter (fun e => decide (key < e.1 ∨ (includeKey = true ∧ e.1 = key))) := by
  simp [covered, inRange, hkey]

theorem covered_sorted (key : Bytes) (includeKey : Bool) {l : List MapEntry} (h : l.Pairwise (fun p q => p.1 < q.1)) :
    (covered key includeKey l).Pairwise (fun p q => p.1 < q.1) := h.filter _

/-- The end of a seek that leaves the start key out, with a key above it before a fault. -/
theorem stepOver_false (key : Bytes) {it : MapIterator} (h : ∀ e ∈ it.rest.tail, key < e.1)
    (hf : it.fault = true → ∃ e ∈ it.rest, key < e.1) :
    stepOver key false it = some { it with rest := it.rest.filter (fun e => decide (key < e.1)) } := by
  obtain ⟨rest, f⟩ := it
  cases rest with
  | nil => rfl
  | cons e l =>
    have hl : l.filter (fun e => decide (key < e.1)) = l := List.filter_eq_self.mpr (by simpa using h)
    by_cases he : e.1 ≤ key
    · have hnext : (MapIterator.mk (e :: l) f).next = some ⟨l, f⟩ := by
        rw [MapIterator.next, if_neg]
        · rfl
        rintro ⟨hlen, hfault⟩
        obtain rfl := List.eq_nil_of_length_eq_zero (Nat.succ.inj hlen)
        obtain ⟨x, hx, hlt⟩ := hf hfault
        rw [List.mem_singleton.mp hx] at hlt
        exact hlt.not_ge he
      rw [List.filter_cons_of_neg (by simpa using he), hl, stepOver]
      simpa [he] using hnext
    · rw [List.filter_cons_of_pos (by simpa using he), hl]
      simp [stepOver, he]

theorem stepOver_ofList_false (key : Bytes) {l : List MapEntry} (h : ∀ e ∈ l.tail, key < e.1) :
    stepOver key false (.ofList l) = some (.ofList (l.filter (fun e => decide (key < e.1)))) :=
  stepOver_false key h (by simp [MapIterator.ofList])

theorem stepOver_true (key : Bytes) (it : MapIterator) : stepOver key true it = some it := by
  rw [stepOver]
  split <;> simp

/-- The last item in memory that is not above the start key has that key. -/
def Node.SeekOk (n : Node) (key : Bytes) : Prop :=
  ∀ e ∈ (n.memData.entries.filter (fun e => decide (e.1 ≤ key))).getLast?, e.1 = key

instance (n : Node) (key : Bytes) : Decidable (n.SeekOk key) :=
  inferInstanceAs (Decidable (∀ e ∈ (n.memData.entries.filter (fun e => decide (e.1 ≤ key))).getLast?, e.1 = key))

/-- The last item in memory that is not above the start key has that key, or it is a delete marker. -/
def Node.SeekFit (n : Node) (key : Bytes) : Prop :=
  ∀ e ∈ (n.memData.entries.filter (fun e => decide (e.1 ≤ key))).getLast?, e.1 = key ∨ e.2.isDeleteMarker = true

instance (n : Node) (key : Bytes) : Decidable (n.SeekFit key) :=
  inferInstanceAs (Decidable (∀ e ∈ (n.memData.entries.filter (fun e => decide (e.1 ≤ key))).getLast?,
    e.1 = key ∨ e.2.isDeleteMarker = true))

theorem Node.SeekOk.fit (h : n.SeekOk key) : n.SeekFit key := fun e he => Or.inl (h e he)

/-- The entries left to an iterator are those that a scan covers, behind delete markers at most. -/
def Starts (key : Bytes) (includeKey : Bool) (all l : List MapEntry) : Prop :=
  l <:+ all ∧ covered key includeKey l = covered key includeKey all ∧
    ∀ e ∈ l, inRange key includeKey e.1 ∨ e.2.isDeleteMarker = true

instance (key : Bytes) (includeKey : Bool) (all l : List MapEntry) : Decidable (Starts key includeKey all l) :=
  inferInstanceAs (Decidable (_ ∧ _ ∧ _))

theorem Starts.sorted {all l : List MapEntry} (h : Starts key includeKey all l)
    (hall : all.Pairwise (fun p q => p.1 < q.1)) : l.Pairwise (fun p q => p.1 < q.1) := hall.sublist h.1.sublist

theorem Starts.refl {l : List MapEntry} (h : ∀ e ∈ l, inRange key includeKey e.1) : Starts key includeKey l l :=
  ⟨List.suffix_refl l, rfl, fun e he => Or.inl (h e he)⟩

theorem Starts.drop {pre l : List MapEntry} (hpre : ∀ e ∈ pre, ¬ inRange key includeKey e.1)
    (hl : ∀ e ∈ l, inRange key includeKey e.1 ∨ e.2.isDeleteMarker = true) : Starts key includeKey (pre ++ l) l := by
  refine ⟨List.suffix_append pre l, ?_, hl⟩
  have hnone : pre.filter (fun e => decide (inRange key includeKey e.1)) = [] := by
    rw [List.filter_eq_nil_iff]
    simpa using hpre
  rw [covered, covered, List.filter_append, hnone, List.nil_append]

theorem stepOver_ofList (key : Bytes) (includeKey : Bool) (l : List MapEntry) :
    ∃ l', stepOver key includeKey (.ofList l) = some (.ofList l') := by
  cases l with
  | nil => exact ⟨[], rfl⟩
  | cons e l =>
    by_cases h : !includeKey && decide (e.1 ≤ key)
    · exact ⟨l, by simpa [stepOver, MapIterator.ofList, h] using MapIterator.next_ofList (e :: l)⟩
    · exact ⟨e :: l, by simp only [stepOver, MapIterator.ofList, h]; rfl⟩

/-- A scan starts in memory where it should, or at a delete marker before that. -/
theorem memIter_starts (h : key ≠ [] → includeKey = true → n.SeekFit key) :
    ∃ l, memIter n key includeKey = some (.ofList l) ∧ Starts key includeKey n.memData.entries l := by
  by_cases hkey : key = []
  · exact ⟨n.memData.entries, by simp [memIter, hkey], Starts.refl (fun e he => Or.inl hkey)⟩
  have h := h hkey
  rw [memIter, if_neg hkey, seekLe]
  rcases SortedMap.drop_le n.memData.sorted key with ⟨-, hdrop, habove⟩ | ⟨pre, e, post, hl, hfilter, hdrop, he, hpre, hpost⟩
  · have hall : Starts key includeKey n.memData.entries n.memData.entries :=
      Starts.refl (fun e he => Or.inr (Or.inl (habove e he)))
    refine ⟨n.memData.entries, ?_, hall⟩
    rw [hdrop]
    cases includeKey with
    | true => exact stepOver_true _ _
    | false =>
      rw [stepOver_ofList_false key (fun e he => habove e (List.mem_of_mem_tail he))]
      rw [List.filter_eq_self.mpr (fun e he => by simp [habove e he])]
  · have hpost' : ∀ q ∈ post, inRange key includeKey q.1 ∨ q.2.isDeleteMarker = true :=
      fun q hq => Or.inl (Or.inr (Or.inl (hpost q hq)))
    have hpre' : ∀ q ∈ pre, ¬ inRange key includeKey q.1 := by
      intro q hq
      have hlt : q.1 < key := (hpre q hq).trans_le he
      simp [inRange, hkey, hlt.le, hlt.ne]
    rw [hdrop]
    cases includeKey with
    | true =>
      refine ⟨e :: post, stepOver_true _ _, ?_⟩
      rw [hl]
      apply Starts.drop hpre'
      intro q hq
      rcases List.mem_cons.mp hq with rfl | hq
      · exact (h rfl q (by simp [hfilter])).imp_left (fun hk => Or.inr (Or.inr ⟨rfl, hk⟩))
      · exact hpost' q hq
    | false =>
      refine ⟨post, ?_, ?_⟩
      · rw [stepOver_ofList_false key (by simpa using hpost), List.filter_cons_of_neg (by simpa using he),
          List.filter_eq_self.mpr (fun q hq => by simp [hpost q hq])]
      · rw [hl, List.append_cons]
        apply Starts.drop _ hpost'
        intro q hq
        rcases List.mem_append.mp hq with hq | hq
        · exact hpre' q hq
        · rw [List.mem_singleton.mp hq]
          simp [inRange, hkey, he]

/-- The block iterator starts at the first entry that a scan covers, unless it faults before that. -/
theorem seekGe_covered {it : MapIterator} (hs : it.rest.Pairwise (fun p q => p.1 < q.1)) (hkey : key ≠ [])
    (hf : it.fault = true → ∃ e ∈ it.rest, inRange key includeKey e.1) :
    (seekGe key it).bind (stepOver key includeKey) = some { it with rest := covered key includeKey it.rest } := by
  have hmono : it.rest.Pairwise (fun p q => decide (q.1 < key) = true → decide (p.1 < key) = true) :=
    hs.imp (fun hlt hq => decide_eq_true (hlt.trans (of_decide_eq_true hq)))
  have hseek : seekGe key it = some { it with rest := it.rest.filter (fun e => !decide (e.1 < key)) } := by
    rw [seekGe, SortedMap.dropWhile_eq_filter hmono, if_neg]
    rintro ⟨hnil, hfault⟩
    obtain ⟨e, he, hin⟩ := hf hfault
    have hlt := List.filter_eq_nil_iff.mp hnil e he
    simp only [inRange, hkey, false_or] at hin
    rcases hin with hin | ⟨-, rfl⟩
    · exact hlt (by simpa using hin.le)
    · simp at hlt
  rw [hseek, Option.bind_some, covered_eq hkey]
  cases includeKey with
  | true =>
    rw [stepOver_true]
    congr 3
    funext e
    rcases lt_trichotomy key e.1 with he | he | he
    · simp [he, he.le]
    · simp [he]
    · simp [he, he.le, he.ne]
  | false =>
    have htail (e : MapEntry) (he : e ∈ (it.rest.filter (fun e => !decide (e.1 < key))).tail) : key < e.1 := by
      cases hl : it.rest.filter (fun e => !decide (e.1 < key)) with
      | nil => simp [hl] at he
      | cons q l =>
        have hq : q ∈ it.rest.filter (fun e => !decide (e.1 < key)) := by simp [hl]
        have hlt : ∀ x ∈ l, q.1 < x.1 := (List.pairwise_cons.mp (hl ▸ hs.filter _)).1
        have hge : key ≤ q.1 := by simpa using (List.mem_filter.mp hq).2
        exact hge.trans_lt (hlt e (by simpa [hl] using he))
    have hfault (hfl : it.fault = true) : ∃ e ∈ it.rest.filter (fun e => !decide (e.1 < key)), key < e.1 := by
      obtain ⟨e, he, hin⟩ := hf hfl
      have hlt : key < e.1 := by simpa [inRange, hkey] using hin
      exact ⟨e, List.mem_filter.mpr ⟨he, by simpa using hlt.le⟩, hlt⟩
    rw [stepOver_false key htail hfault]
    simp only [List.filter_filter]
    congr 3
    funext e
    by_cases he : key < e.1
    · simp [he, he.le]
    · simp [he]

/-- The block of a node is iterated over from the first entry that a scan covers. -/
theorem blkIter_covered (hn : n.Encoded) (key : Bytes) (includeKey : Bool) :
    ∃ it, blkIter n [] false = some it ∧ it.rest <+: blockItems n.stored ∧
    (it.fault = false → it.rest = blockItems n.stored) ∧
      ((it.fault = true → ∃ e ∈ it.rest, inRange key includeKey e.1) →
        blkIter n key includeKey = some { it with rest := covered key includeKey it.rest }) := by
  obtain ⟨it, hit, hpre, hall⟩ := blkIter_rest hn.stored
  refine ⟨it, hit, hpre, hall, fun hf => ?_⟩
  have hs := (blockItems_sorted hn.sorted).sublist hpre.sublist
  by_cases hkey : key = []
  · subst hkey
    rw [covered_nil_key, ← hit, blkIter, blkIter]
    rfl
  · rw [← seekGe_covered hs hkey hf]
    rw [blkIter] at hit ⊢
    cases hb : n.block with
    | none =>
      simp only [hb, Option.some.injEq] at hit
      rw [← hit]
      cases includeKey <;> rfl
    | some b =>
      simp only [hb, if_true, Option.some.injEq] at hit
      simp [hit, hkey]

theorem blkIter_eq (hn : n.Encoded) (hr : n.Readable) :
    blkIter n key includeKey = some (.ofList (covered key includeKey (blockItems n.stored))) := by
  obtain ⟨it, hit, -, hall, hcov⟩ := blkIter_covered hn key includeKey
  have hfault := hr it hit
  rw [hcov (by simp [hfault]), hall hfault, hfault]
  rfl

/-! ### Blocks that cannot be read to their end -/

/-- The last key that a block iterator returns before it faults. -/
def Node.faultKey (n : Node) : Option Bytes :=
  (blkIter n [] false).bind (fun it => if it.fault then it.rest.getLast?.map Prod.fst else none)

/-- A transaction with the pending writes `own` in a node gets to a key before the block iterator faults. -/
def Node.Reaches (n : Node) (own : List MapEntry) (k : Bytes) : Prop :=
  ∀ last ∈ n.faultKey, MapMerger.Before last (n.memData.lookup last = none ∧ ∀ e ∈ own, e.1 ≠ last) k

instance (n : Node) (own : List MapEntry) (k : Bytes) : Decidable (n.Reaches own k) :=
  inferInstanceAs (Decidable (∀ last ∈ n.faultKey, _))

theorem Node.readable_iff (n : Node) : n.Readable ↔ n.faultKey = none := by
  have hne (b : Bucket) (hf : (bucketIter b).fault = true) : (bucketIter b).rest ≠ [] := by
    cases b with
    | nil => simp [bucketIter] at hf
    | cons e b => simp [bucketIter]
  cases hb : n.block with
  | none => simp [Readable, faultKey, blkIter, hb, MapIterator.ofList]
  | some b =>
    have hit : blkIter n [] false = some (bucketIter b) := by simp [blkIter, hb]
    simp only [Readable, faultKey, hit, Option.some.injEq, forall_eq', Option.bind_some]
    by_cases hf : (bucketIter b).fault = true
    · simpa [hf] using hne b hf
    · simp [hf]

/-- A block that faults is iterated over up to its fault, if a scan covers an entry before it. -/
theorem blkIter_cut (hn : n.Encoded) {last : Bytes} (hlast : n.faultKey = some last) (hin : inRange key includeKey last) :
    ∃ pre, blkIter n key includeKey = some { rest := pre, fault := true } ∧
      pre <+: covered key includeKey (blockItems n.stored) ∧ pre.getLast?.map Prod.fst = some last := by
  obtain ⟨it, hit, hpre, -, hcov⟩ := blkIter_covered hn key includeKey
  rw [Node.faultKey, hit, Option.bind_some] at hlast
  split_ifs at hlast with hf
  rw [Option.map_eq_some_iff] at hlast
  obtain ⟨e, he, rfl⟩ := hlast
  refine ⟨covered key includeKey it.rest, ?_, hpre.filter _, ?_⟩
  · rw [hcov (fun _ => ⟨e, List.mem_of_getLast? he, hin⟩), hf]
  · obtain ⟨init, hinit⟩ := List.getLast?_eq_some_iff.mp he
    rw [hinit, covered, List.filter_append, List.filter_cons_of_pos (by simpa using hin), List.filter_nil,
      List.getLast?_concat]
    rfl

theorem Node.Encoded.faultKey_stored (hn : n.Encoded) {last : Bytes} (hlast : n.faultKey = some last) :
    n.storedAt last ≠ none := by
  obtain ⟨pre, hit, hpre, hl⟩ := blkIter_cut hn hlast (Or.inl rfl : inRange [] true last)
  rw [Option.map_eq_some_iff] at hl
  obtain ⟨e, he, rfl⟩ := hl
  have hmem := hpre.subset (List.mem_of_getLast? he)
  rw [covered_nil_key, blockItems, List.mem_map] at hmem
  obtain ⟨⟨k, v⟩, hp, rfl⟩ := hmem
  rw [(hn.storedAt_eq_some).mpr hp]
  simp

/-! ### The view of a node -/

/-- A node of the layers has its block in order, and the keys of its items belong to it. -/
theorem Embeds.layer (h : Embeds s L) (hp : p ∈ L.nodes.entries) :
    p.2.Encoded ∧ (∀ k, p.2.memData.lookup k ≠ none → L.nodes.floor k = some p) ∧
      ∀ k, p.2.storedAt k ≠ none → L.nodes.floor k = some p := by
  obtain ⟨f, m⟩ := p
  have hm := SortedMap.mem_entries.mp hp
  rw [h.nodes f, Option.bind_eq_some_iff] at hm
  obtain ⟨id, hid, hn⟩ := hm
  rw [Option.map_eq_some_iff] at hn
  obtain ⟨n, hn, rfl⟩ := hn
  have hroute (k : Bytes) (hr : Routes s k id) : L.nodes.floor k = some (f, n.bare) := by
    obtain ⟨g, id', n', hr'⟩ := h.route k
    obtain ⟨g', hg'⟩ := hr
    rw [hr'.root] at hg'
    obtain ⟨-, rfl⟩ := Prod.mk.inj (Option.some.inj hg')
    obtain rfl : n' = n := Option.some.inj (hr'.node.symm.trans hn)
    rw [hr'.layer, (h.lookup_node hr' f).mp hid]
  obtain ⟨henc, hstored⟩ := h.tidy.indexed.encoded hn
  exact ⟨⟨henc.stored, henc.sorted⟩, fun k hk => hroute k (h.tidy.indexed.mem id n k hn hk),
    fun k hk => hroute k (hstored k hk)⟩

def Layers.ownIn (L : Layers) (t : TxnId) (f : Bytes) : List MapEntry := Layers.own t (L.locksOf f)

theorem Layers.ownIn_sorted (L : Layers) (t : TxnId) (f : Bytes) :
    (L.ownIn t f).Pairwise (fun p q => p.1 < q.1) := by
  rw [Layers.ownIn, Layers.own, List.pairwise_filterMap]
  refine (L.pending.sorted.filter _).imp ?_
  intro p q hlt e he e' he'
  split_ifs at he
  split_ifs at he'
  rw [← Option.some.inj he, ← Option.some.inj he']
  exact hlt

theorem Layers.mem_ownIn {f : Bytes} {item : MapItem} : (k, item) ∈ L.ownIn t f ↔
    ∃ w, L.pending.lookup k = some w ∧ w.txnId = t ∧ (L.nodes.floor k).map Prod.fst = some f ∧
      item = ⟨w.item.value, decide (w.type = .remove)⟩ := by
  simp only [Layers.ownIn, Layers.own, Layers.locksOf, List.mem_filterMap, List.mem_filter, decide_eq_true_eq]
  constructor
  · rintro ⟨⟨k', w⟩, ⟨hp, hf⟩, hitem⟩
    split_ifs at hitem with ht
    obtain ⟨rfl, rfl⟩ := Prod.mk.inj (Option.some.inj hitem)
    exact ⟨w, SortedMap.mem_entries.mp hp, ht, hf, rfl⟩
  · rintro ⟨w, hp, ht, hf, rfl⟩
    exact ⟨(k, w), ⟨SortedMap.mem_entries.mpr hp, hf⟩, by simp [ht]⟩

theorem lookup_covered {l : List MapEntry} (h : l.Pairwise (fun p q => p.1 < q.1)) (k : Bytes) :
    (MapMerger.mapOf _ (covered_sorted key includeKey h)).lookup k =
      if inRange key includeKey k then (MapMerger.mapOf l h).lookup k else none := by
  ext item
  rw [← SortedMap.mem_entries]
  simp only [MapMerger.mapOf, covered, List.mem_filter, decide_eq_true_eq]
  split_ifs with hk
  · rw [← SortedMap.mem_entries]
    simp [hk]
  · simp [hk]

theorem Starts.lookup {all l : List MapEntry} (h : Starts key includeKey all l)
    (hall : all.Pairwise (fun p q => p.1 < q.1)) (hk : inRange key includeKey k) :
    (MapMerger.mapOf l (h.sorted hall)).lookup k = (MapMerger.mapOf all hall).lookup k := by
  have hl := @lookup_covered key includeKey _ (h.sorted hall) k
  have hcov := @lookup_covered key includeKey _ hall k
  rw [if_pos hk] at hl hcov
  rw [← hl, ← hcov]
  congr 2
  exact h.2.1

/-- Before its start key a scan meets delete markers only. -/
theorem Starts.marker {all l : List MapEntry} (h : Starts key includeKey all l)
    (hall : all.Pairwise (fun p q => p.1 < q.1)) (hk : ¬ inRange key includeKey k) {item : MapItem}
    (hitem : (MapMerger.mapOf l (h.sorted hall)).lookup k = some item) : item.isDeleteMarker = true :=
  (h.2.2 (k, item) (SortedMap.mem_entries.mpr hitem)).resolve_left hk

/-- The merged items of a node are the entries that the transaction sees there. -/
theorem Refines.mem_view (hA : Refines L A) (h : Embeds s L) (hp : p ∈ L.nodes.entries) (henc : p.2.Encoded)
    {l₁ l₂ : List MapEntry} (h₁ : Starts key includeKey (L.ownIn t p.1) l₁)
    (h₂ : Starts key includeKey p.2.memData.entries l₂) :
    (k, v) ∈ MapMerger.live (MapMerger.unionOf (h₁.sorted (L.ownIn_sorted t p.1)) (h₂.sorted p.2.memData.sorted)
        (covered_sorted key includeKey (blockItems_sorted henc.sorted))).entries ↔
      (A.seen t).lookup k = some v ∧ L.nodes.floor k = some p ∧ inRange key includeKey k := by
  obtain ⟨-, hmem, hstored⟩ := h.layer hp
  rw [mem_live, SortedMap.mem_entries, MapMerger.unionOf, SortedMap.lookup_union, SortedMap.lookup_union,
    lookup_covered (blockItems_sorted henc.sorted), henc.block_lookup]
  by_cases hk : inRange key includeKey k
  · have hmap : (MapMerger.mapOf p.2.memData.entries p.2.memData.sorted).lookup k = p.2.memData.lookup k := rfl
    rw [h₁.lookup (L.ownIn_sorted t p.1) hk, h₂.lookup p.2.memData.sorted hk, hmap]
    simp only [hk, if_true, and_true]
    by_cases hf : L.nodes.floor k = some p
    · simp only [hf, and_true]
      rw [hA.seen_lookup, valueIn, hf, Option.bind_some]
      have hother (hw : ∀ w, L.pending.lookup k = some w → w.txnId ≠ t) :
          (MapMerger.mapOf _ (L.ownIn_sorted t p.1)).lookup k = none := by
        rw [SortedMap.lookup_eq_none]
        intro item hitem
        obtain ⟨w, hp, ht, -⟩ := Layers.mem_ownIn.mp hitem
        exact hw w hp ht
      cases hw : L.pending.lookup k with
      | none =>
        rw [hother (by simp [hw]), Option.none_or]
        exact Node.value_eq_some p.2 k v
      | some w =>
        by_cases ht : w.txnId = t
        · have hown : (MapMerger.mapOf _ (L.ownIn_sorted t p.1)).lookup k =
              some ⟨w.item.value, decide (w.type = .remove)⟩ := by
            rw [← SortedMap.mem_entries]
            exact Layers.mem_ownIn.mpr ⟨w, hw, ht, by rw [hf]; rfl, rfl⟩
          rw [hown]
          by_cases hr : w.type = .remove <;> simp [ht, hr, Write.effect]
        · rw [hother (by simp [hw, ht]), Option.none_or]
          simpa [ht] using Node.value_eq_some p.2 k v
    · have hown : (MapMerger.mapOf _ (L.ownIn_sorted t p.1)).lookup k = none := by
        rw [SortedMap.lookup_eq_none]
        intro item hitem
        obtain ⟨w, -, -, hfst, -⟩ := Layers.mem_ownIn.mp hitem
        exact hf (SortedMap.floor_eq_some_of_fst hfst (SortedMap.mem_entries.mp hp))
      have hmem' : p.2.memData.lookup k = none := by
        by_contra hc
        exact hf (hmem k hc)
      have hstored' : p.2.storedAt k = none := by
        by_contra hc
        exact hf (hstored k hc)
      simp [hf, hown, hmem', hstored']
  · simp only [hk, if_false, Option.or_none, and_false, iff_false]
    intro hlive
    rcases Option.or_eq_some_iff.mp hlive with hlive | ⟨-, hlive⟩
    · simpa using h₁.marker (L.ownIn_sorted t p.1) hk hlive
    · simpa using h₂.marker p.2.memData.sorted hk hlive

theorem Layers.own_drop {f : Bytes} (h : L.ownIn t f = []) (seek : Nat) : Layers.own t ((L.locksOf f).drop seek) = [] := by
  rw [Layers.ownIn, Layers.own, List.filterMap_eq_nil_iff] at h
  rw [Layers.own, List.filterMap_eq_nil_iff]
  exact fun q hq => h q (List.mem_of_mem_drop hq)

/-- The iterators over the locks and over the items in memory start right within a node. -/
def Layers.StartOk (L : Layers) (t : TxnId) (p : Bytes × Node) (key : Bytes) (includeKey : Bool) (seek : Nat) : Prop :=
  (∀ it ∈ stepOver key includeKey (.ofList (Layers.own t ((L.locksOf p.1).drop seek))),
    Starts key includeKey (L.ownIn t p.1) it.rest) ∧ (includeKey = true → p.2.SeekFit key)

theorem Layers.StartOk.of_none (h : L.ownIn t p.1 = []) (seek : Nat) (hseek : includeKey = true → p.2.SeekFit key) :
    L.StartOk t p key includeKey seek := by
  refine ⟨?_, hseek⟩
  rw [Layers.own_drop h, h]
  intro it hit
  obtain rfl : MapIterator.ofList [] = it := Option.some.inj hit
  exact Starts.refl (by simp)

/-- The block iterator of a scan has what the scan covers, or a beginning of it up to the fault of the block. -/
def BlockRead (n : Node) (key : Bytes) (includeKey : Bool) (it : MapIterator) : Prop :=
  it = .ofList (covered key includeKey (blockItems n.stored)) ∨
    ∃ last pre, n.faultKey = some last ∧ it = { rest := pre, fault := true } ∧
      pre <+: covered key includeKey (blockItems n.stored) ∧ pre.getLast?.map Prod.fst = some last

theorem Layers.iterOpen_starts (henc : p.2.Encoded) (hread : ∀ last ∈ p.2.faultKey, inRange key includeKey last) (seek : Nat)
    (hstart : key ≠ [] → L.StartOk t p key includeKey seek) :
    ∃ l₁ l₂ it, Starts key includeKey (L.ownIn t p.1) l₁ ∧ Starts key includeKey p.2.memData.entries l₂ ∧
      BlockRead p.2 key includeKey it ∧
      L.iterOpen p t key includeKey seek = some (MapMerger.three .txn .mem .blk (.ofList l₁) (.ofList l₂) it) := by
  obtain ⟨it, hit, hread⟩ : ∃ it, blkIter p.2 key includeKey = some it ∧ BlockRead p.2 key includeKey it := by
    cases hlast : p.2.faultKey with
    | none => exact ⟨_, blkIter_eq henc (p.2.readable_iff.mpr hlast), Or.inl rfl⟩
    | some last =>
      obtain ⟨pre, hit, hpre⟩ := blkIter_cut henc hlast (hread last hlast)
      exact ⟨_, hit, Or.inr ⟨last, pre, hlast, rfl, hpre⟩⟩
  obtain ⟨l₂, hl₂, h₂⟩ := memIter_starts (n := p.2) (fun hkey hi => (hstart hkey).2 hi)
  rw [Layers.iterOpen, hl₂, hit]
  by_cases hkey : key = []
  · exact ⟨L.ownIn t p.1, l₂, it, Starts.refl (fun e he => Or.inl hkey), h₂, hread, by simp [hkey, Layers.ownIn]⟩
  · obtain ⟨l₁, hl₁⟩ := stepOver_ofList key includeKey (Layers.own t ((L.locksOf p.1).drop seek))
    refine ⟨l₁, l₂, it, (hstart hkey).1 _ hl₁, h₂, hread, ?_⟩
    rw [if_neg hkey, hl₁]
    rfl

theorem inRange.of_le {k' : Bytes} (h : inRange key includeKey k) (hk : k ≤ k') : inRange key includeKey k' := by
  rcases h with h | h | ⟨hi, rfl⟩
  · exact Or.inl h
  · exact Or.inr (Or.inl (h.trans_le hk))
  · exact Or.inr (hk.lt_or_eq.imp id (fun heq => ⟨hi, heq.symm⟩))

theorem live_filter (P : Bytes → Prop) [DecidablePred P] (l : List MapEntry) :
    MapMerger.live (l.filter (fun e => decide (P e.1))) = (MapMerger.live l).filter (fun e => decide (P e.1)) := by
  simp only [MapMerger.live, List.filter_map, List.filter_filter, Function.comp_def, Bool.and_comm]

/-- The entries among `l` that a scan of a node gets to before it faults. -/
def Layers.reached (L : Layers) (t : TxnId) (p : Bytes × Node) (l : List (Bytes × Bytes)) : List (Bytes × Bytes) :=
  l.filter (fun e => p.2.Reaches (L.ownIn t p.1) e.1)

/-- The block of a node can be read to its end, or `count` of the entries `l` come before its fault. -/
def Layers.ReadsOf (L : Layers) (t : TxnId) (p : Bytes × Node) (l : List (Bytes × Bytes)) (count : Nat) : Prop :=
  p.2.Readable ∨ count ≤ (L.reached t p l).length

theorem Refines.scan_node (hA : Refines L A) (h : Embeds s L) (hp : p ∈ L.nodes.entries) (t : TxnId) (key : Bytes)
    (includeKey : Bool) (seek : Nat) : ∃ l : List (Bytes × Bytes), l.Pairwise (fun p q => p.1 < q.1) ∧
      (∀ k v, (k, v) ∈ l ↔ (A.seen t).lookup k = some v ∧ L.nodes.floor k = some p ∧ inRange key includeKey k) ∧
      ∀ count, 0 < count → (key ≠ [] → L.StartOk t p key includeKey seek) → L.ReadsOf t p l count →
        (L.iterOpen p t key includeKey seek).bind (fun m => m.collect (m.size + 1) count) = some (l.take count) := by
  classical
  obtain ⟨henc, -⟩ := h.layer hp
  obtain ⟨l, hs, hl⟩ : ∃ l : List (Bytes × Bytes), l.Pairwise (fun p q => p.1 < q.1) ∧
      ∀ k v, (k, v) ∈ l ↔ (A.seen t).lookup k = some v ∧ L.nodes.floor k = some p ∧ inRange key includeKey k := by
    refine ⟨_, (A.seen t).sorted.filter (fun e => L.nodes.floor e.1 = some p ∧ inRange key includeKey e.1), ?_⟩
    intro k v
    rw [List.mem_filter, SortedMap.mem_entries, decide_eq_true_eq]
  refine ⟨l, hs, hl, fun count hpos hstart hread => ?_⟩
  have hfault (last : Bytes) (hlast : p.2.faultKey = some last) : count ≤ (L.reached t p l).length :=
    hread.resolve_left (fun hr => by simp [p.2.readable_iff.mp hr] at hlast)
  have hin : ∀ last ∈ p.2.faultKey, inRange key includeKey last := by
    intro last hlast
    obtain ⟨⟨k, v⟩, hk⟩ := List.exists_mem_of_length_pos (hpos.trans_le (hfault last hlast))
    rw [Layers.reached, List.mem_filter, hl, decide_eq_true_eq] at hk
    exact hk.1.2.2.of_le (hk.2 last hlast).le
  obtain ⟨l₁, l₂, it, h₁, h₂, hit, hopen⟩ := Layers.iterOpen_starts henc hin seek hstart
  have hs₁ := h₁.sorted (L.ownIn_sorted t p.1)
  have hs₂ := h₂.sorted p.2.memData.sorted
  have hs₃ := covered_sorted key includeKey (blockItems_sorted henc.sorted)
  have hview : MapMerger.live (MapMerger.unionOf hs₁ hs₂ hs₃).entries = l :=
    SortedMap.list_ext (live_sorted (SortedMap.sorted _)) hs
      (fun k v => (hA.mem_view h hp henc h₁ h₂).trans (hl k v).symm)
  rw [hopen, Option.bind_some]
  rcases hit with rfl | ⟨last, pre, hlast, rfl, hpre, hend⟩
  · rw [MapMerger.collect_three (by decide) hs₁ hs₂ hs₃, hview]
  · have halone : (p.2.memData.lookup last = none ∧ ∀ e ∈ L.ownIn t p.1, e.1 ≠ last) →
        (∀ e ∈ l₁, e.1 ≠ last) ∧ ∀ e ∈ l₂, e.1 ≠ last := by
      rintro ⟨hmem, hown⟩
      refine ⟨fun e he => hown e (h₁.1.subset he), ?_⟩
      rintro e he rfl
      exact SortedMap.lookup_eq_none.mp hmem e.2 (h₂.1.subset he)
    rw [MapMerger.collect_three_cut (by decide) hs₁ hs₂ hs₃ hpre hend halone, hview]
    rw [live_filter (MapMerger.Before last _), hview]
    refine (hfault last hlast).trans_eq ?_
    simp only [Layers.reached, Node.Reaches, hlast, Option.mem_some_iff, forall_eq']

/-! ### Scans -/

/-- The entries of a node come before those of later nodes. -/
theorem parts_sorted {ps : List (Bytes × Node)} (hlt : ∀ q ∈ ps, p.1 < q.1) {l₁ l₂ : List (Bytes × Bytes)}
    (hs₁ : l₁.Pairwise (fun p q => p.1 < q.1)) (hs₂ : l₂.Pairwise (fun p q => p.1 < q.1))
    (hl₁ : ∀ k v, (k, v) ∈ l₁ → L.nodes.floor k = some p)
    (hl₂ : ∀ k v, (k, v) ∈ l₂ → ∃ q ∈ ps, L.nodes.floor k = some q) :
    (l₁ ++ l₂).Pairwise (fun p q => p.1 < q.1) := by
  rw [List.pairwise_append]
  refine ⟨hs₁, hs₂, ?_⟩
  rintro ⟨k, v⟩ hk ⟨k', v'⟩ hk'
  obtain ⟨q, hq, hf'⟩ := hl₂ k' v' hk'
  exact SortedMap.lt_of_floor_lt (hl₁ k v hk) hf' (hlt q hq)

/-- No entry of a later node comes before the fault of a block. -/
theorem Layers.ReadsOf.first (h : Embeds s L) (hp : p ∈ L.nodes.entries) {ps : List (Bytes × Node)}
    (hlt : ∀ q ∈ ps, p.1 < q.1) {l₁ l₂ : List (Bytes × Bytes)}
    (hl₂ : ∀ k v, (k, v) ∈ l₂ → ∃ q ∈ ps, L.nodes.floor k = some q) {count : Nat}
    (hread : L.ReadsOf t p (l₁ ++ l₂) count) : L.ReadsOf t p l₁ count := by
  cases hlast : p.2.faultKey with
  | none => exact Or.inl (p.2.readable_iff.mpr hlast)
  | some last =>
    obtain ⟨henc, -, hstored⟩ := h.layer hp
    have hfloor := hstored last (henc.faultKey_stored hlast)
    refine hread.imp_right (fun hcount => ?_)
    have hnone : L.reached t p l₂ = [] := by
      rw [Layers.reached, List.filter_eq_nil_iff]
      rintro ⟨k, v⟩ hk hr
      obtain ⟨q, hq, hf⟩ := hl₂ k v hk
      exact (SortedMap.lt_of_floor_lt hfloor hf (hlt q hq)).not_ge (of_decide_eq_true hr last hlast).le
    rwa [Layers.reached, List.filter_append, ← Layers.reached, ← Layers.reached, hnone, List.append_nil] at hcount

theorem Layers.ReadsOf.rest {l₁ l₂ : List (Bytes × Bytes)} {count : Nat} (hread : L.ReadsOf t p (l₁ ++ l₂) count) :
    L.ReadsOf t p l₂ (count - l₁.length) := by
  refine hread.imp_right (fun hcount => ?_)
  rw [Layers.reached, List.filter_append, List.length_append] at hcount
  have hle := List.length_filter_le (fun e => decide (p.2.Reaches (L.ownIn t p.1) e.1)) l₁
  rw [Layers.reached]
  omega

theorem Layers.scanNodes_cons {l₁ l₂ : List (Bytes × Bytes)} {seek count : Nat} {ps : List (Bytes × Node)}
    (h₁ : 0 < count →
      (L.iterOpen p t key includeKey seek).bind (fun m => m.collect (m.size + 1) count) = some (l₁.take count))
    (h₂ : L.scanNodes t includeKey seek ps [] (count - l₁.length) = some (l₂.take (count - l₁.length))) :
    L.scanNodes t includeKey seek (p :: ps) key count = some ((l₁ ++ l₂).take count) := by
  cases count with
  | zero => simp [Layers.scanNodes]
  | succ count =>
    have hleft : count + 1 - (l₁.take (count + 1)).length = count + 1 - l₁.length := by
      rw [List.length_take]
      omega
    rw [Layers.scanNodes, ← Option.bind_assoc, h₁ (Nat.succ_pos _), Option.bind_some, hleft, h₂, Option.map_some,
      List.take_append]

/-- The nodes after the first one are scanned from their beginning. -/
theorem Refines.scan_rest (hA : Refines L A) (h : Embeds s L) (includeKey : Bool) (seek : Nat)
    {ps : List (Bytes × Node)} (hps : ∀ p ∈ ps, p ∈ L.nodes.entries) (hsort : ps.Pairwise (fun p q => p.1 < q.1)) :
    ∃ l : List (Bytes × Bytes), l.Pairwise (fun p q => p.1 < q.1) ∧
      (∀ k v, (k, v) ∈ l ↔ (A.seen t).lookup k = some v ∧ ∃ p ∈ ps, L.nodes.floor k = some p) ∧
      ∀ count, (∀ p ∈ ps, L.ReadsOf t p l count) →
        L.scanNodes t includeKey seek ps [] count = some (l.take count) := by
  induction ps with
  | nil => exact ⟨[], List.Pairwise.nil, by simp, fun count _ => by simp [Layers.scanNodes]⟩
  | cons p ps ih =>
    rw [List.pairwise_cons] at hsort
    have hp := hps p List.mem_cons_self
    obtain ⟨l₁, hs₁, hl₁, hc₁⟩ := hA.scan_node h hp t [] includeKey seek
    obtain ⟨l₂, hs₂, hl₂, hc₂⟩ := ih (fun q hq => hps q (List.mem_cons_of_mem _ hq)) hsort.2
    have hlater (k v : Bytes) (hk : (k, v) ∈ l₂) : ∃ q ∈ ps, L.nodes.floor k = some q := ((hl₂ k v).mp hk).2
    refine ⟨l₁ ++ l₂, ?_, ?_, fun count hread => ?_⟩
    · exact parts_sorted hsort.1 hs₁ hs₂ (fun k v hk => ((hl₁ k v).mp hk).2.1) hlater
    · intro k v
      rw [List.mem_append, hl₁, hl₂]
      simp [inRange, and_or_left]
    · refine Layers.scanNodes_cons (fun hpos => ?_) (hc₂ _ (fun q hq => (hread q (List.mem_cons_of_mem _ hq)).rest))
      exact hc₁ count hpos (by simp) ((hread p List.mem_cons_self).first h hp hsort.1 hlater)

theorem Embeds.exists_floor (h : Embeds s L) (k : Bytes) : ∃ p ∈ L.nodes.entries, L.nodes.floor k = some p := by
  obtain ⟨f, id, n, hr⟩ := h.route k
  exact ⟨_, SortedMap.floor_mem hr.layer, hr.layer⟩

/-- The keys of a scan belong to the node of its start key or to a later one, and all keys of the later ones are asked
for. -/
theorem Embeds.inRange_iff (h : Embeds s L) {pre post : List (Bytes × Node)} {p : Bytes × Node}
    (hentries : L.nodes.entries = pre ++ p :: post) (hp : L.nodes.floor key = some p) (hkey : key ≠ []) (k : Bytes) :
    (L.nodes.floor k = some p ∧ inRange key includeKey k) ∨ (∃ q ∈ post, L.nodes.floor k = some q) ↔
      inRange key includeKey k := by
  have hsort := L.nodes.sorted
  rw [hentries, List.pairwise_append, List.pairwise_cons] at hsort
  obtain ⟨-, ⟨hlt, -⟩, hpre⟩ := hsort
  constructor
  · rintro (⟨-, hk⟩ | ⟨q, hq, hf⟩)
    · exact hk
    · exact Or.inr (Or.inl (SortedMap.lt_of_floor_lt hp hf (hlt q hq)))
  · intro hk
    obtain ⟨q, hq, hf⟩ := h.exists_floor k
    rw [hentries, List.mem_append, List.mem_cons] at hq
    rcases hq with hq | rfl | hq
    · have hkk : k < key := SortedMap.lt_of_floor_lt hf hp (hpre q hq p List.mem_cons_self)
      rcases hk with hk | hk | ⟨-, hk⟩
      · exact absurd hk hkey
      · exact absurd hk hkk.asymm
      · exact absurd hk hkk.ne
    · exact Or.inl ⟨hf, hk⟩
    · exact Or.inr ⟨q, hq, hf⟩

/-- A scan returns what the transaction sees from the start key on, if `count` entries come before the fault of each
block with one. -/
theorem Refines.scan (hA : Refines L A) (h : Embeds s L) (seek count : Nat)
    (hread : ∀ p ∈ L.scanStart key,
      L.ReadsOf t p ((A.seen t).entries.filter (fun e => inRange key includeKey e.1)) count)
    (hstart : 0 < count → key ≠ [] → ∀ p, L.nodes.floor key = some p → L.StartOk t p key includeKey seek) :
    L.scanNodes t includeKey seek (L.scanStart key) key count =
      some (((A.seen t).entries.filter (fun e => inRange key includeKey e.1)).take count) := by
  have hrange {l : List (Bytes × Bytes)} (hs : l.Pairwise (fun p q => p.1 < q.1))
      (hl : ∀ k v, (k, v) ∈ l ↔ (A.seen t).lookup k = some v ∧ inRange key includeKey k) :
      (A.seen t).entries.filter (fun e => inRange key includeKey e.1) = l := by
    apply SortedMap.list_ext ((A.seen t).sorted.filter _) hs
    intro k v
    rw [hl, List.mem_filter, SortedMap.mem_entries, decide_eq_true_eq]
  by_cases hkey : key = []
  · subst hkey
    rw [Layers.scanStart, if_pos rfl] at hread ⊢
    obtain ⟨l, hs, hl, hc⟩ := hA.scan_rest (t := t) h includeKey seek (fun p hp => hp) L.nodes.sorted
    have hall := hrange hs (fun k v => (hl k v).trans (by simp [inRange, h.exists_floor k]))
    rw [hall] at hread ⊢
    exact hc count hread
  · have hne : L.nodes.entries ≠ [] := by
      obtain ⟨p, hp, -⟩ := h.exists_floor key
      exact List.ne_nil_of_mem hp
    obtain ⟨pre, p, post, hentries, hp, hdrop⟩ := SortedMap.drop_floor hne key
    rw [Layers.scanStart, if_neg hkey, hdrop] at hread ⊢
    have hsort := L.nodes.sorted
    rw [hentries, List.pairwise_append, List.pairwise_cons] at hsort
    obtain ⟨-, ⟨hlt, hpost⟩, -⟩ := hsort
    have hmem := SortedMap.floor_mem hp
    obtain ⟨l₁, hs₁, hl₁, hc₁⟩ := hA.scan_node h hmem t key includeKey seek
    obtain ⟨l₂, hs₂, hl₂, hc₂⟩ := hA.scan_rest (t := t) h includeKey seek
      (fun q hq => by rw [hentries]; simp [hq]) hpost
    have hlater (k v : Bytes) (hk : (k, v) ∈ l₂) : ∃ q ∈ post, L.nodes.floor k = some q := ((hl₂ k v).mp hk).2
    have hall : (A.seen t).entries.filter (fun e => inRange key includeKey e.1) = l₁ ++ l₂ := by
      apply hrange
      · exact parts_sorted hlt hs₁ hs₂ (fun k v hk => ((hl₁ k v).mp hk).2.1) hlater
      · intro k v
        rw [List.mem_append, hl₁, hl₂, ← and_or_left, h.inRange_iff hentries hp hkey]
    rw [hall] at hread ⊢
    refine Layers.scanNodes_cons (fun hpos => ?_) (hc₂ _ (fun q hq => (hread q (List.mem_cons_of_mem _ hq)).rest))
    exact hc₁ count hpos (fun _ => hstart hpos hkey p hp) ((hread p List.mem_cons_self).first h hmem hlt hlater)

/-! ### Every object shows a store -/

theorem Embeds.nodes_map (h : Embeds s L) {ps : List (Bytes × Node)} (hps : ∀ p ∈ ps, p ∈ L.nodes.entries)
    (hsort : ps.Pairwise (fun p q => p.1 < q.1)) :
    ∃ l : List (Bytes × Bytes), l.Pairwise (fun p q => p.1 < q.1) ∧
      ∀ k v, (k, v) ∈ l ↔ ∃ p ∈ ps, L.nodes.floor k = some p ∧ p.2.value k = some v := by
  induction ps with
  | nil => exact ⟨[], List.Pairwise.nil, by simp⟩
  | cons p ps ih =>
    rw [List.pairwise_cons] at hsort
    obtain ⟨l, hs, hl⟩ := ih (fun q hq => hps q (List.mem_cons_of_mem _ hq)) hsort.2
    obtain ⟨henc, hmem, hstored⟩ := h.layer (hps p List.mem_cons_self)
    have hview (k v : Bytes) : (k, v) ∈ MapMerger.live (p.2.memData.union
        (MapMerger.mapOf _ (blockItems_sorted henc.sorted))).entries ↔
          L.nodes.floor k = some p ∧ p.2.value k = some v := by
      rw [mem_live, SortedMap.mem_entries, SortedMap.lookup_union, henc.block_lookup, Node.value_eq_some,
        eq_comm, iff_and_self]
      intro hv
      rw [eq_comm, Node.value] at hv
      cases hm : p.2.memData.lookup k with
      | some item => exact hmem k (by simp [hm])
      | none =>
        simp only [hm] at hv
        exact hstored k (by simp [hv])
    refine ⟨_, parts_sorted hsort.1 (live_sorted (SortedMap.sorted _)) hs (fun k v hk => ((hview k v).mp hk).1) ?_, ?_⟩
    · intro k v hk
      obtain ⟨q, hq, hf, -⟩ := (hl k v).mp hk
      exact ⟨q, hq, hf⟩
    · intro k v
      rw [List.mem_append, hview, hl]
      simp

theorem Embeds.exists_store (h : Embeds s L) (hsound : ∀ k w, L.pending.lookup k = some w → w.txnId ≠ 0 ∧ w.Sound) :
    ∃ A, Refines L A := by
  obtain ⟨l, hs, hl⟩ := h.nodes_map (fun p hp => hp) L.nodes.sorted
  let pending : SortedMap Bytes (TxnId × Option Bytes) :=
    { entries := L.pending.entries.map (fun p => (p.1, p.2.txnId, p.2.effect))
      sorted := List.pairwise_map.mpr L.pending.sorted }
  refine ⟨{ map := ⟨l, hs⟩, pending := pending, ended := L.ended }, ?_, ?_, rfl, hsound⟩
  · intro k
    ext v
    rw [← SortedMap.mem_entries, hl, valueIn, Option.bind_eq_some_iff]
    constructor
    · rintro ⟨p, -, hf, hv⟩
      exact ⟨p, hf, hv⟩
    · rintro ⟨p, hf, hv⟩
      exact ⟨p, SortedMap.floor_mem hf, hf, hv⟩
  · intro k
    ext w
    rw [← SortedMap.mem_entries, Option.map_eq_some_iff]
    simp only [pending, List.mem_map, Prod.mk.injEq]
    constructor
    · rintro ⟨p, hp, rfl, hw⟩
      exact ⟨p.2, SortedMap.mem_entries.mp hp, hw⟩
    · rintro ⟨w', hw', heq⟩
      exact ⟨(k, w'), SortedMap.mem_entries.mpr hw', rfl, heq⟩

end RaleighSL.Objects.SSet
