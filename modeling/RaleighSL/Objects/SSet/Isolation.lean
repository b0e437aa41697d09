import RaleighSL.Objects.SSet.Transactions

/-!
# Reads and pending writes

A read of somebody who has nothing pending on the keys read is compared with the
same read of the object without any pending write. A lookup of a locked key stops
in memory, so it is right for a live item there and for a key without any value.
Scans rank the layers rightly.
-/
namespace RaleighSL.Objects.SSet
open RaleighSL.Core RaleighSL.Library RaleighSL.Zcl

/-- The object as if no transaction had written anything that is still pending. -/
def unlocked (s : State) : State :=
  { s with
      nodes := fun id => (s.nodes id).map (fun n => { n with txnLocks := SortedMap.empty })
      txns := fun _ => none
      groups := fun _ => AtomGroup.empty }

variable {s : State} {L : Layers} {A : Store} {t : TxnId} {k v key : Bytes} {n : Node} {id : NodeId} {f : Bytes}
  {includeKey : Bool} {rs : List Request} {es : List Response}

theorem unlocked_nodes (h : (unlocked s).nodes id = some n) :
    ∃ n', s.nodes id = some n' ∧ n = { n' with txnLocks := SortedMap.empty } := by
  simp only [unlocked, Option.map_eq_some_iff] at h
  obtain ⟨n', hn, rfl⟩ := h
  exact ⟨n', hn, rfl⟩

theorem Indexed.unlocked (h : Indexed s) : Indexed (unlocked s) where
  nonempty := h.nonempty
  node p hp := by
    obtain ⟨n, hn, hf⟩ := h.node p hp
    exact ⟨{ n with txnLocks := SortedMap.empty }, by simp [SSet.unlocked, hn], hf⟩
  home id n hn := by
    obtain ⟨n', hn', -⟩ := unlocked_nodes hn
    exact h.home id n' hn'
  mem id n k hn hk := by
    obtain ⟨n', hn', rfl⟩ := unlocked_nodes hn
    exact h.mem id n' k hn' hk
  block id n b hn hb := by
    obtain ⟨n', hn', rfl⟩ := unlocked_nodes hn
    exact h.block id n' b hn' hb
  lock id n k a hn hk := by
    obtain ⟨n', hn', rfl⟩ := unlocked_nodes hn
    simp at hk
  txn a txn n ha := by simp [SSet.unlocked] at ha
  freshNode id n hn := by
    obtain ⟨n', hn', -⟩ := unlocked_nodes hn
    exact h.freshNode id n' hn'
  freshTxn a txn ha := by simp [SSet.unlocked] at ha

theorem Embeds.unlocked (h : Embeds s L) : Embeds (unlocked s) { L with pending := SortedMap.empty } where
  tidy :=
    { indexed := h.tidy.indexed.unlocked
      txnq := h.tidy.txnq
      dirtyq := h.tidy.dirtyq
      rmNodes := h.tidy.rmNodes
      addNodes := h.tidy.addNodes
      commitq := by
        intro id n hn
        obtain ⟨n', hn', rfl⟩ := unlocked_nodes hn
        exact h.tidy.commitq id n' hn'
      atom := by simp [SSet.unlocked]
      group := fun t => ⟨by simp [SSet.unlocked, AtomGroup.empty], by simp [SSet.unlocked, AtomGroup.empty],
        by simp [SSet.unlocked, AtomGroup.empty]⟩ }
  nodes f := by
    rw [h.nodes f]
    simp only [SSet.unlocked, Option.map_map]
    rfl
  pending k := by
    have hp : pendingAt (SSet.unlocked s) k = none := by
      rw [pendingAt]
      cases hn : nodeLookup (SSet.unlocked s) k with
      | none => rfl
      | some p =>
        rw [Option.bind_some]
        cases p.2.txnLocks.lookup k <;> rfl
    rw [hp]
    rfl
  ended := h.ended

/-! ### Lookups -/

theorem Embeds.serve_get (h : Embeds s L) (hend : t ∉ s.ended) (k : Bytes) :
    (SSet.serve s (.get t k)).map Prod.snd = L.get t k := by
  have hendL : t ∉ L.ended := by rwa [h.ended]
  have hserve : L.serve (.get t k) = (L.get t k).map (fun r => (L, r)) := by simp [Layers.serve, hendL]
  rcases h.serve (r := .get t k) trivial with ⟨hs, hL⟩ | ⟨s', L', e, hs, hL, -⟩
  · rw [hserve, Option.map_eq_none_iff] at hL
    rw [hs, hL]
    rfl
  · rw [hserve, Option.map_eq_some_iff] at hL
    obtain ⟨r, hr, heq⟩ := hL
    rw [hs, hr, (Prod.mk.inj heq).2]
    rfl

/-- A key with a live item in memory, or one that a search finds nowhere. -/
def Node.Uncovered (n : Node) (k : Bytes) : Prop :=
  match n.memData.lookup k with
  | some item => item.isDeleteMarker = false
  | none => n.block.bind (fun b => bucketSearch 0 b k) = none

theorem Node.uncovered_iff (n : Node) (k : Bytes) :
    found ((n.memData.lookup k).map MapItem.value) = found (n.search k) ↔ n.Uncovered k := by
  rw [Node.search, Node.Uncovered]
  cases hm : n.memData.lookup k with
  | some item => cases hd : item.isDeleteMarker <;> simp [found, hd]
  | none => cases hb : n.block.bind (fun b => bucketSearch 0 b k) <;> simp [found]

theorem Embeds.get_unlocked (h : Embeds s L) (hr : RouteOf s L k f id n) (hend : t ∉ s.ended) :
    (SSet.serve (SSet.unlocked s) (.get t k)).map Prod.snd = some (found (n.search k)) := by
  have hr' : RouteOf (SSet.unlocked s) { L with pending := SortedMap.empty } k f id
      { n with txnLocks := SortedMap.empty } := ⟨hr.root, by simp [SSet.unlocked, hr.node], hr.layer⟩
  rw [h.unlocked.serve_get (t := t) hend, hr'.get_eq]
  rfl

/-! ### Scans -/

/-- Without pending writes of the transaction in the nodes visited, the locks do not matter. -/
theorem Layers.scanNodes_unlocked {ps : List (Bytes × Node)} (hps : ∀ p ∈ ps, L.ownIn t p.1 = []) (seek : Nat)
    (key : Bytes) (count : Nat) :
    L.scanNodes t includeKey seek ps key count =
      { L with pending := SortedMap.empty }.scanNodes t includeKey seek ps key count := by
  induction ps generalizing key count with
  | nil => cases count <;> simp [Layers.scanNodes]
  | cons p ps ih =>
    cases count with
    | zero => simp [Layers.scanNodes]
    | succ count =>
      have hown := hps p List.mem_cons_self
      have hnone : { L with pending := SortedMap.empty }.locksOf p.1 = [] := rfl
      have hiter : L.iterOpen p t key includeKey seek =
          { L with pending := SortedMap.empty }.iterOpen p t key includeKey seek := by
        rw [Layers.iterOpen, Layers.iterOpen, hnone, ← Layers.ownIn, hown, Layers.own_drop hown, List.drop_nil]
        rfl
      rw [Layers.scanNodes, Layers.scanNodes, hiter]
      simp only [ih (fun q hq => hps q (List.mem_cons_of_mem _ hq))]

/-- Two ordered lists with the same bindings up to some point have the same beginning. -/
theorem take_eq_take {l l' : List (Bytes × Bytes)} (h : l.Pairwise (fun p q => p.1 < q.1))
    (h' : l'.Pairwise (fun p q => p.1 < q.1)) {count : Nat} {D : Bytes → Prop}
    (hD : ∀ k, D k → (l.take count).length = count ∧ ∀ p ∈ l.take count, p.1 < k)
    (heq : ∀ k v, ¬ D k → ((k, v) ∈ l ↔ (k, v) ∈ l')) : l'.take count = l.take count := by
  have hsplit : l' = l.take count ++ l'.filter (fun p => decide (p ∉ l.take count)) := by
    have hkept : ∀ p ∈ l.take count, ¬ D p.1 := fun p hp hd => lt_irrefl _ ((hD p.1 hd).2 p hp)
    apply SortedMap.list_ext h'
    · rw [List.pairwise_append]
      refine ⟨h.sublist (List.take_sublist _ _), h'.filter _, ?_⟩
      intro p hp q hq
      rw [List.mem_filter, decide_eq_true_eq] at hq
      by_cases hd : D q.1
      · exact (hD q.1 hd).2 p hp
      · have hql : q ∈ l := (heq q.1 q.2 hd).mpr hq.1
        rw [← List.take_append_drop count l, List.mem_append] at hql
        rw [← List.take_append_drop count l, List.pairwise_append] at h
        exact h.2.2 p hp q (hql.resolve_left hq.2)
    · intro k v
      rw [List.mem_append, List.mem_filter, decide_eq_true_eq]
      constructor
      · intro hk
        by_cases ht : (k, v) ∈ l.take count
        · exact Or.inl ht
        · exact Or.inr ⟨hk, ht⟩
      · rintro (hk | hk)
        · exact (heq k v (hkept _ hk)).mp (List.mem_of_mem_take hk)
        · exact hk.1
  by_cases hcount : (l.take count).length = count
  · rw [hsplit, List.take_left' hcount]
  · have hnone (k : Bytes) : ¬ D k := fun hd => hcount (hD k hd).1
    have hll : l = l' := SortedMap.list_ext h h' (fun k v => heq k v (hnone k))
    rw [hll]

/-- The transaction has nothing pending in the nodes that the scan visits. -/
def NoneIn (s : State) (t : TxnId) (key : Bytes) : Prop :=
  ∀ id ∈ scanStart s key, ∀ n ∈ s.nodes id, ownEntries s t n.txnLocks.entries = []

/-- The transaction has nothing pending on the keys read: its keys in the range of the scan come after
the last entry that the scan would return without any pending write. -/
def Unread (s : State) (t : TxnId) (key : Bytes) (includeKey : Bool) (count : Nat) : Prop :=
  ∀ k, Owns s t k → inRange key includeKey k →
    ∀ l, scan (unlocked s) t key includeKey count 0 = some l → l.length = count ∧ ∀ p ∈ l, p.1 < k

theorem Embeds.noneIn (h : Embeds s L) (hn : NoneIn s t key) : ∀ p ∈ L.scanStart key, L.ownIn t p.1 = [] := by
  obtain ⟨es, hes, hs, hL⟩ := h.scanStart_eq key
  intro p hp
  rw [hL] at hp
  obtain ⟨q, hq, rfl⟩ := List.mem_map.mp hp
  obtain ⟨n, hnode, -⟩ := h.tidy.indexed.node q (hes q hq)
  rw [Layers.ownIn, ← h.ownEntries_locksOf (hes q hq) hnode]
  exact hn q.2 (by rw [hs]; exact List.mem_map_of_mem hq) n hnode

theorem Refines.unlocked (hA : Refines L A) :
    Refines { L with pending := SortedMap.empty } { A with pending := SortedMap.empty } where
  map := hA.map
  pending _ := rfl
  ended := hA.ended
  sound k w hw := by simp at hw

theorem ScanOk.unlocked (h : ScanOk s t key includeKey) : ScanOk (unlocked s) t key includeKey := by
  refine ⟨?_, ?_⟩
  · intro id hid n hn
    obtain ⟨n', hn', rfl⟩ := unlocked_nodes hn
    exact h.1 id hid n' hn'
  · intro hkey
    have hnode : (nodeOf (SSet.unlocked s) key).memData = (nodeOf s key).memData ∧
        (nodeOf (SSet.unlocked s) key).txnLocks.entries = [] := by
      rw [nodeOf, nodeOf, nodeLookup, nodeLookup]
      have hroot : (SSet.unlocked s).root = s.root := rfl
      rw [hroot]
      cases s.root.floor key with
      | none => exact ⟨rfl, rfl⟩
      | some p => cases hn : s.nodes p.2 <;> simp [SSet.unlocked, hn, Node.alloc, SortedMap.empty]
    rw [hnode.2, Node.SeekOk, hnode.1]
    exact ⟨rfl, (h.2 hkey).2⟩

theorem Refines.serve_scan (hA : Refines L A) (h : Embeds s L) (hend : t ∉ s.ended) (hok : ScanOk s t key includeKey)
    (count seek : Nat) : SSet.scan s t key includeKey count seek =
      some (((A.seen t).entries.filter (fun e => inRange key includeKey e.1)).take count) := by
  obtain ⟨s', L', hserve, -, -⟩ := hA.serve h (r := .scan t key includeKey count seek) ⟨trivial, fun _ => hok⟩
  have hendA : t ∉ A.ended := by rwa [hA.ended, h.ended]
  rw [SSet.serve, if_neg hend, Option.map_eq_some_iff] at hserve
  obtain ⟨l, hl, heq⟩ := hserve
  have hans := (Prod.mk.inj heq).2
  simp only [Store.serve, Store.readBy, hendA, if_false, mapServe, Response.entries.injEq] at hans
  rw [hl, hans]

/-- A scan does not see what others have pending. -/
theorem scan_isolated (hA : Refines L A) (h : Embeds s L) (hend : t ∉ s.ended) {count : Nat} (seek : Nat)
    (hread : Unread s t key includeKey count) (hok : NoneIn s t key ∨ ScanOk s t key includeKey) :
    scan s t key includeKey count seek = scan (unlocked s) t key includeKey count seek := by
  rcases hok with hnone | hok
  · rw [h.scan, h.unlocked.scan, Layers.scanNodes_unlocked (h.noneIn hnone)]
    rfl
  · have hopen : t ∉ (unlocked s).ended := hend
    have hscan := hA.unlocked.serve_scan h.unlocked hopen hok.unlocked count
    rw [hA.serve_scan h hend hok, hscan seek, Option.some.injEq]
    refine take_eq_take (D := fun k => Owns s t k ∧ inRange key includeKey k) ((SortedMap.sorted _).filter _)
      ((SortedMap.sorted _).filter _) ?_ ?_
    · rintro k ⟨ho, hk⟩
      exact hread k ho hk _ (hscan 0)
    · intro k v hD
      rw [List.mem_filter, List.mem_filter, SortedMap.mem_entries, SortedMap.mem_entries, decide_eq_true_eq,
        and_congr_left_iff]
      intro hk
      have hnot : ¬ Owns s t k := fun ho => hD ⟨ho, hk⟩
      rw [h.owns_iff] at hnot
      rw [hA.seen_lookup, hA.unlocked.seen_lookup]
      cases hp : L.pending.lookup k with
      | none => rfl
      | some w =>
        have hw : w.txnId ≠ t := by simpa [hp] using hnot
        simp [hw]

/-- A read of somebody without pending writes on the keys read is that of the object without any. A
lookup of a key that somebody else has locked needs a live item in memory, or no value to find; a scan
must not seek among the locks of its own transaction. -/
theorem reads_isolated (hm : Meets serve LockOk create rs) (he : exec serve create rs = some (s, es))
    (hend : t ∉ s.ended) :
    (∀ k, ¬ Owns s t k → ((serve s (.get t k)).map Prod.snd = (serve (unlocked s) (.get t k)).map Prod.snd ↔
        pendingAt s k = none ∨ (nodeOf s k).Uncovered k)) ∧
      (∀ k, (nodeOf s k).SearchOk k →
        (serve (unlocked s) (.get t k)).map Prod.snd = some (found (valueAt s k))) ∧
      ∀ key includeKey count seek, Unread s t key includeKey count →
        (NoneIn s t key ∨ ScanOk s t key includeKey) →
        scan s t key includeKey count seek = scan (unlocked s) t key includeKey count seek := by
  obtain ⟨L, A, h, hA⟩ := run_embeds hm he
  refine ⟨?_, ?_, fun key includeKey count seek => scan_isolated hA h hend seek⟩
  · intro k ho
    obtain ⟨f, id, n, hr⟩ := h.route k
    rw [h.serve_get hend, h.get_unlocked hr hend, hr.get_eq, hr.nodeOf, Option.some.injEq]
    rw [h.owns_iff] at ho
    have hp := h.pending k
    cases hk : L.pending.lookup k with
    | none =>
      rw [hk, eq_comm, Option.map_eq_none_iff] at hp
      simp [hp]
    | some w =>
      have hw : w.txnId ≠ t := by simpa [hk] using ho
      have hpne : pendingAt s k ≠ none := by
        intro hc
        rw [hk, hc] at hp
        simp at hp
      simp only [hw, if_false, hpne, false_or]
      exact n.uncovered_iff k
  · intro k hs
    obtain ⟨f, id, n, hr⟩ := h.route k
    rw [hr.nodeOf] at hs
    rw [h.get_unlocked hr hend, (hr.encoded h).search_eq_value hs, hr.valueAt]

theorem reads_isolated_live : ∃ s es,
    exec serve create [.insert 0 false [1] [2], .insert 1 true [1] [3]] = some (s, es) ∧
      (serve s (.get 0 [1])).map Prod.snd = (serve (unlocked s) (.get 0 [1])).map Prod.snd := by
  obtain ⟨⟨s, es⟩, he⟩ := Option.isSome_iff_exists.mp
    (show (exec serve create [.insert 0 false [1] [2], .insert 1 true [1] [3]]).isSome by decide +kernel)
  have hs : (exec serve create [.insert 0 false [1] [2], .insert 1 true [1] [3]]).map (fun p =>
      (decide (0 ∈ p.1.ended), decide (Owns p.1 0 [1]),
        ((nodeOf p.1 [1]).memData.lookup [1]).map MapItem.isDeleteMarker)) = some (false, false, some false) := by
    decide +kernel
  simp only [he, Option.map_some, Option.some.injEq, Prod.mk.injEq, decide_eq_false_iff_not,
    Option.map_eq_some_iff] at hs
  obtain ⟨hend, hown, item, hitem, hlive⟩ := hs
  have hread := reads_isolated (by decide +kernel) he hend
  refine ⟨s, es, he, (hread.1 [1] hown).mpr (Or.inr ?_)⟩
  rw [Node.Uncovered, hitem]
  exact hlive

/-- A key that is only in a block is not found by others while a transaction has it locked. -/
theorem locked_key_not_found : ∃ s es,
    exec serve create [.insert 0 false [1] (List.replicate 4096 0), .balance, .insert 1 true [1] [2]] = some (s, es) ∧
      ¬ Owns s 0 [1] ∧ (serve s (.get 0 [1])).map Prod.snd = some (.code .dataKeyNotFound none) ∧
      (serve (unlocked s) (.get 0 [1])).map Prod.snd ≠ some (.code .dataKeyNotFound none) := by
  have hrun : (exec serve create
      [.insert 0 false [1] (List.replicate 4096 0), .balance, .insert 1 true [1] [2]]).map (fun p =>
        (decide (Owns p.1 0 [1]), (serve p.1 (.get 0 [1])).map Prod.snd,
          decide ((serve (unlocked p.1) (.get 0 [1])).map Prod.snd = some (.code .dataKeyNotFound none)))) =
      some (false, some (.code .dataKeyNotFound none), false) := by decide +kernel
  rw [Option.map_eq_some_iff] at hrun
  obtain ⟨⟨s, es⟩, he, hs⟩ := hrun
  simp only [Prod.mk.injEq, decide_eq_false_iff_not] at hs
  exact ⟨s, es, he, hs⟩

end RaleighSL.Objects.SSet
