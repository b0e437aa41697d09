import RaleighSL.Objects.SSet.Index

/-!
# Balancing

A balance cuts the contents of the large nodes into blocks, and the commit after
it exchanges these nodes for new ones. The new blocks hold the contents in key
order; since each node has the keys of one interval, the keys of the other nodes
keep their way through the tree.
-/
namespace RaleighSL.Objects.SSet
open RaleighSL.Core RaleighSL.Library RaleighSL.Zcl

variable {s s' : State} {k : Bytes} {id : NodeId} {n : Node}

/-! ### Cutting a sequence into blocks -/

theorem encodeFrom_append (prev : Bytes) (l : List (Bytes × Bytes)) (q p : Bytes × Bytes) :
    encodeFrom prev (l ++ [q, p]) = encodeFrom prev (l ++ [q]) ++ [entryAfter q.1 p] := by
  induction l generalizing prev with
  | nil => rfl
  | cons r l ih => simp [encodeFrom, ih]

/-- Non-empty pieces of a sequence, each encoded as one block. -/
def Pieces (l : List (Bytes × Bytes)) (bs : List Bucket) (ls : List (List (Bytes × Bytes))) : Prop :=
  bs = ls.map encode ∧ ls.flatten = l ∧ ∀ p ∈ ls, p ≠ []

theorem fillBlocks_pieces {l : List (Bytes × Bytes)} (l₀ : List (Bytes × Bytes)) {q : Bytes × Bytes} {used : Nat} {bs : List Bucket}
    (h : fillBlocks (encode (l₀ ++ [q])) used q.1 l = some bs) : ∃ ls, Pieces (l₀ ++ q :: l) bs ls := by
  induction l generalizing l₀ q used bs with
  | nil =>
    obtain rfl := Option.some.inj h
    exact ⟨[l₀ ++ [q]], by simp [Pieces]⟩
  | cons p l ih =>
    rw [fillBlocks] at h
    split_ifs at h
    · have henc : encode (l₀ ++ [q]) ++ [entryAfter q.1 p] = encode (l₀ ++ [q] ++ [p]) := by
        rw [List.append_assoc]
        exact (encodeFrom_append [] l₀ q p).symm
      rw [henc] at h
      simpa using ih _ h
    · rw [Option.map_eq_some_iff] at h
      obtain ⟨bs', hbs', rfl⟩ := h
      have hone : [entryAfter [] p] = encode ([] ++ [p]) := rfl
      rw [hone] at hbs'
      obtain ⟨ls, hmap, hflat, hne⟩ := ih _ hbs'
      refine ⟨(l₀ ++ [q]) :: ls, by simp [hmap], by simpa using hflat, ?_⟩
      intro x hx
      rcases List.mem_cons.mp hx with rfl | hx
      · simp
      · exact hne x hx

theorem cutBlocks_pieces {l : List (Bytes × Bytes)} {bs : List Bucket} (h : cutBlocks l = some bs) :
    ∃ ls, Pieces l bs ls := by
  cases l with
  | nil =>
    obtain rfl := Option.some.inj h
    exact ⟨[], by simp [Pieces]⟩
  | cons p l =>
    rw [cutBlocks] at h
    split_ifs at h
    exact fillBlocks_pieces [] h

/-! ### The contents of a node -/

theorem ownEntries_zero (h : Indexed s) (hn : s.nodes id = some n) : ownEntries s 0 n.txnLocks.entries = [] := by
  rw [ownEntries, List.filterMap_eq_nil_iff]
  rintro ⟨k, a⟩ hp
  obtain ⟨txn, htxn, ht, -⟩ := h.lock id n k a hn (SortedMap.mem_entries.mp hp)
  simp [htxn, ht]

def Stored (n : Node) (l : List (Bytes × Bytes)) : Prop :=
  match n.block with
  | none => l = []
  | some b => b = encode l

def blockItems (l : List (Bytes × Bytes)) : List MapEntry := l.map (fun p => (p.1, ⟨p.2, false⟩))

theorem blockItems_sorted {l : List (Bytes × Bytes)} (h : l.Pairwise (fun p q => p.1 < q.1)) :
    (blockItems l).Pairwise (fun p q => p.1 < q.1) := List.pairwise_map.mpr h

theorem live_take (l : List MapEntry) {n : Nat} (h : l.length ≤ n) : (MapMerger.live l).take n = MapMerger.live l := by
  rw [List.take_of_length_le]
  exact (by simpa [MapMerger.live] using (List.length_filter_le _ l).trans h)

theorem blkIter_rest {l : List (Bytes × Bytes)} (hl : Stored n l) :
    ∃ it, blkIter n [] false = some it ∧ it.rest <+: blockItems l ∧ (it.fault = false → it.rest = blockItems l) := by
  rw [Stored] at hl
  cases hb : n.block with
  | none =>
    simp only [hb] at hl
    exact ⟨.ofList [], by simp [blkIter, hb], by simp [MapIterator.ofList],
      by simp [MapIterator.ofList, hl, blockItems]⟩
  | some b =>
    simp only [hb] at hl
    subst hl
    exact ⟨bucketIter (encode l), by simp [blkIter, hb], bucketIter_prefix l, bucketIter_encode⟩

theorem nodeEntries_eq (h : Indexed s) (hn : s.nodes id = some n) {l L : List (Bytes × Bytes)} (hl : Stored n l)
    (hsort : l.Pairwise (fun p q => p.1 < q.1)) (hL : nodeEntries s n 0 = some L) :
    ∃ pre hpre, pre <+: blockItems l ∧
      L = MapMerger.live (n.memData.union (MapMerger.mapOf pre hpre)).entries := by
  obtain ⟨it, hit, hpre, -⟩ := blkIter_rest hl
  have hs : it.rest.Pairwise (fun p q => p.1 < q.1) := (blockItems_sorted hsort).sublist hpre.sublist
  refine ⟨it.rest, hs, hpre, ?_⟩
  simp only [nodeEntries, nodeIterOpen, txnIter, memIter, if_true, ownEntries_zero h hn, hit, Option.bind_some,
    Option.map_some] at hL
  have hc := MapMerger.collect_three_of_some (by decide) List.Pairwise.nil n.memData.sorted hs hL
  rw [hc, live_take]
  · rfl
  · rw [MapMerger.three_size]
    exact (MapMerger.unionOf_length_le _ _ _).trans (Nat.le_succ _)

theorem nodeEntries_of_not_fault (hown : ownEntries s 0 n.txnLocks.entries = []) {l : List (Bytes × Bytes)}
    (hl : Stored n l) (hsort : l.Pairwise (fun p q => p.1 < q.1))
    (hf : ∀ it, blkIter n [] false = some it → it.fault = false) :
    nodeEntries s n 0 = some (MapMerger.live (n.memData.union (MapMerger.mapOf _ (blockItems_sorted hsort))).entries) := by
  obtain ⟨it, hit, -, hall⟩ := blkIter_rest hl
  have hof : it = .ofList (blockItems l) := by
    have hfault := hf it hit
    rw [← hall hfault]
    cases it
    simp_all [MapIterator.ofList]
  simp only [nodeEntries, nodeIterOpen, txnIter, memIter, if_true, hown, hit, Option.bind_some,
    Option.map_some, hof]
  rw [MapMerger.collect_three (by decide) List.Pairwise.nil n.memData.sorted (blockItems_sorted hsort), live_take]
  · rfl
  · rw [MapMerger.three_size]
    exact (MapMerger.unionOf_length_le _ _ _).trans (Nat.le_succ _)

theorem live_sorted {l : List MapEntry} (h : l.Pairwise (fun p q => p.1 < q.1)) :
    (MapMerger.live l).Pairwise (fun p q => p.1 < q.1) :=
  List.pairwise_map.mpr (h.filter _)

theorem mem_live {l : List MapEntry} {k v : Bytes} : (k, v) ∈ MapMerger.live l ↔ (k, ⟨v, false⟩) ∈ l := by
  simp only [MapMerger.live, List.mem_map, List.mem_filter]
  constructor
  · rintro ⟨⟨k', v', b⟩, ⟨hm, hb⟩, heq⟩
    simp_all
  · intro hm
    exact ⟨_, ⟨hm, rfl⟩, rfl⟩

theorem Indexed.stored (h : Indexed s) (hn : s.nodes id = some n) :
    ∃ l, Stored n l ∧ l.Pairwise (fun p q => p.1 < q.1) ∧ ∀ p ∈ l, Routes s p.1 id := by
  cases hb : n.block with
  | none => exact ⟨[], by simp [Stored, hb], List.Pairwise.nil, by simp⟩
  | some b =>
    obtain ⟨l, -, rfl, hsort, hr⟩ := h.block id n b hn hb
    exact ⟨l, by simp [Stored, hb], hsort, hr⟩

theorem nodeEntries_routes (h : Indexed s) (hn : s.nodes id = some n) {L : List (Bytes × Bytes)}
    (hL : nodeEntries s n 0 = some L) : L.Pairwise (fun p q => p.1 < q.1) ∧ ∀ p ∈ L, Routes s p.1 id := by
  obtain ⟨l, hl, hsort, hr⟩ := h.stored hn
  obtain ⟨pre, hpre, hsub, rfl⟩ := nodeEntries_eq h hn hl hsort hL
  refine ⟨live_sorted (SortedMap.sorted _), ?_⟩
  rintro ⟨k, v⟩ hp
  have hlook := SortedMap.mem_entries.mp (mem_live.mp hp)
  rw [SortedMap.lookup_union, Option.or_eq_some_iff] at hlook
  rcases hlook with hm | ⟨-, hb⟩
  · exact h.mem id n k hn (by simp [hm])
  · have hin : (k, (⟨v, false⟩ : MapItem)) ∈ blockItems l := hsub.subset (SortedMap.mem_entries.mpr hb)
    simp only [blockItems, List.mem_map] at hin
    obtain ⟨p, hp, heq⟩ := hin
    exact congrArg Prod.fst heq ▸ hr p hp

/-! ### The nodes to exchange -/

/-- The contents of the removed nodes, cut into pieces. -/
structure Cut (s : State) (rm : List NodeId) (ls : List (List (Bytes × Bytes))) : Prop where
  nonempty : ∀ l ∈ ls, l ≠ []
  sorted : ls.flatten.Pairwise (fun p q => p.1 < q.1)
  owner : ∀ l ∈ ls, ∃ id ∈ rm, ∀ p ∈ l, Routes s p.1 id
  defined : ∀ id ∈ rm, ∃ n L, s.nodes id = some n ∧ nodeEntries s n 0 = some L
  contents : ∀ p, p ∈ ls.flatten ↔
    ∃ id ∈ rm, ∃ n L, s.nodes id = some n ∧ nodeEntries s n 0 = some L ∧ p ∈ L

theorem Indexed.floor_of_routes (h : Indexed s) {f : Bytes} (hm : (f, id) ∈ s.root.entries) (hr : Routes s k id) :
    s.root.floor k = some (f, id) := by
  obtain ⟨f', hf'⟩ := hr
  obtain ⟨n, hn, hfirst⟩ := h.node _ hm
  obtain ⟨n', hn', hfirst'⟩ := h.node _ (SortedMap.floor_mem hf')
  have hnn : n = n' := Option.some.inj (hn.symm.trans hn')
  have hff : f' = f := hfirst'.symm.trans (hnn ▸ hfirst)
  rw [hf', hff]

theorem Indexed.routes_lt (h : Indexed s) {p q : Bytes × NodeId} {k' : Bytes} (hp : p ∈ s.root.entries)
    (hq : q ∈ s.root.entries) (hlt : p.1 < q.1) (hk : Routes s k p.2) (hk' : Routes s k' q.2) : k < k' :=
  SortedMap.lt_of_floor_lt (h.floor_of_routes hp hk) (h.floor_of_routes hq hk') hlt

theorem nodeBalance_eq_some {bs : List Bucket} (h : nodeBalance s n = some bs) :
    ∃ L ls, nodeEntries s n 0 = some L ∧ Pieces L bs ls := by
  rw [nodeBalance, Option.bind_eq_some_iff] at h
  obtain ⟨L, hL, hcut⟩ := h
  obtain ⟨ls, hls⟩ := cutBlocks_pieces hcut
  exact ⟨L, ls, hL, hls⟩

theorem balanceNodes_cut (h : Indexed s) {es : List (Bytes × NodeId)} (hes : ∀ p ∈ es, p ∈ s.root.entries)
    (hsort : es.Pairwise (fun p q => p.1 < q.1)) {rm : List NodeId} {bs : List Bucket}
    (hb : balanceNodes s (es.map Prod.snd) = some (rm, bs)) :
    rm.Sublist (es.map Prod.snd) ∧
      (∀ id ∈ es.map Prod.snd, id ∈ rm ↔ ∀ n, s.nodes id = some n → requiresBalance n) ∧
      ∃ ls, bs = ls.map encode ∧ Cut s rm ls := by
  induction es generalizing rm bs with
  | nil =>
    obtain ⟨rfl, rfl⟩ := Prod.mk.inj (Option.some.inj hb)
    exact ⟨List.Sublist.refl _, by simp, [], rfl, by simp, List.Pairwise.nil, by simp, by simp, by simp⟩
  | cons e es ih =>
    rw [List.pairwise_cons] at hsort
    have ih' {rm : List NodeId} {bs : List Bucket} (hb : balanceNodes s (es.map Prod.snd) = some (rm, bs)) :=
      ih (fun p hp => hes p (List.mem_cons_of_mem _ hp)) hsort.2 hb
    have he := hes e List.mem_cons_self
    have hfresh : e.2 ∉ es.map Prod.snd := by
      intro hm
      obtain ⟨q, hq, heq⟩ := List.mem_map.mp hm
      obtain ⟨m, hm, hfm⟩ := h.node e he
      obtain ⟨m', hm', hfm'⟩ := h.node q (hes q (List.mem_cons_of_mem _ hq))
      rw [heq, hm] at hm'
      exact (hsort.1 q hq).ne (by rw [← hfm, ← hfm', Option.some.inj hm'])
    rw [List.map_cons, balanceNodes, Option.bind_eq_some_iff] at hb
    obtain ⟨n, hn, hb⟩ := hb
    split_ifs at hb with hreq
    · rw [Option.bind_eq_some_iff] at hb
      obtain ⟨bs₁, hbs₁, hb⟩ := hb
      rw [Option.map_eq_some_iff] at hb
      obtain ⟨⟨rm₂, bs₂⟩, hrest, heq⟩ := hb
      obtain ⟨rfl, rfl⟩ := Prod.mk.inj heq
      obtain ⟨hsub, hreqs, ls₂, rfl, hcut⟩ := ih' hrest
      obtain ⟨L, ls₁, hL, rfl, hflat, hne⟩ := nodeBalance_eq_some hbs₁
      obtain ⟨hLsort, hLr⟩ := nodeEntries_routes h hn hL
      refine ⟨hsub.cons_cons _, ?_, ls₁ ++ ls₂, by simp, ?_, ?_, ?_, ?_, ?_⟩
      · intro id hid
        rcases List.mem_cons.mp hid with rfl | hid
        · simp [hn, hreq]
        · have hidne : id ≠ e.2 := fun hc => hfresh (hc ▸ hid)
          rw [List.mem_cons, ← hreqs id hid]
          simp [hidne]
      · intro l hl
        rcases List.mem_append.mp hl with hl | hl
        · exact hne l hl
        · exact hcut.nonempty l hl
      · rw [List.flatten_append, hflat, List.pairwise_append]
        refine ⟨hLsort, hcut.sorted, ?_⟩
        intro p hp q hq
        obtain ⟨l, hl, hql⟩ := List.mem_flatten.mp hq
        obtain ⟨id, hid, hr⟩ := hcut.owner l hl
        obtain ⟨e', he', rfl⟩ := List.mem_map.mp (hsub.subset hid)
        exact h.routes_lt he (hes e' (List.mem_cons_of_mem _ he')) (hsort.1 e' he') (hLr p hp) (hr q hql)
      · intro l hl
        rcases List.mem_append.mp hl with hl | hl
        · exact ⟨e.2, List.mem_cons_self, fun p hp => hLr p (hflat ▸ List.mem_flatten_of_mem hl hp)⟩
        · obtain ⟨id, hid, hr⟩ := hcut.owner l hl
          exact ⟨id, List.mem_cons_of_mem _ hid, hr⟩
      · intro id hid
        rcases List.mem_cons.mp hid with rfl | hid
        · exact ⟨n, L, hn, hL⟩
        · exact hcut.defined id hid
      · intro p
        rw [List.flatten_append, hflat, List.mem_append, hcut.contents]
        simp [hn, hL]
    · obtain ⟨hsub, hreqs, ls, rfl, hcut⟩ := ih' hb
      refine ⟨hsub.cons _, ?_, ls, rfl, hcut⟩
      intro id hid
      rcases List.mem_cons.mp hid with rfl | hid
      · have hnot : e.2 ∉ rm := fun hc => hfresh (hsub.subset hc)
        simp [hn, hreq, hnot]
      · exact hreqs id hid

/-! ### The exchange -/

theorem addBlocks_eq (s : State) (bs : List Bucket) :
    addBlocks s bs =
      { s with
          nodes := (addBlocks s bs).nodes
          addNodes := s.addNodes ++ List.range' s.nextNode bs.length
          nextNode := s.nextNode + bs.length } := by
  induction bs generalizing s with
  | nil => simp [addBlocks]
  | cons b bs ih =>
    rw [addBlocks, ih]
    simp [List.range'_succ, Nat.add_assoc, Nat.add_comm 1]

theorem addBlocks_nodes (s : State) (bs : List Bucket) (id : NodeId) :
    (addBlocks s bs).nodes id = if id < s.nextNode then s.nodes id
      else (bs[id - s.nextNode]?.map (fun b => Node.alloc (some b))).or (s.nodes id) := by
  induction bs generalizing s with
  | nil => simp [addBlocks]
  | cons b bs ih =>
    rw [addBlocks, ih]
    dsimp only
    rcases lt_trichotomy id s.nextNode with hlt | rfl | hgt
    · simp [hlt, hlt.ne, Nat.lt_succ_of_lt hlt]
    · simp
    · have h₁ : ¬ id < s.nextNode + 1 := Nat.not_lt.mpr hgt
      have h₂ : ¬ id < s.nextNode := Nat.not_lt.mpr hgt.le
      have h₃ : id - s.nextNode = id - (s.nextNode + 1) + 1 := by
        rw [Nat.sub_add_eq, Nat.sub_add_cancel (Nat.sub_pos_of_lt hgt)]
      simp [h₁, h₂, h₃, hgt.ne']

/-- The nodes of the tree are there, under their first keys. -/
def Rooted (s : State) : Prop := ∀ p ∈ s.root.entries, ∃ n, s.nodes p.2 = some n ∧ n.firstKey = p.1

theorem Rooted.id_injective (h : Rooted s) {p q : Bytes × NodeId} (hp : p ∈ s.root.entries)
    (hq : q ∈ s.root.entries) (heq : p.2 = q.2) : p = q := by
  obtain ⟨n, hn, hf⟩ := h p hp
  obtain ⟨m, hm, hg⟩ := h q hq
  rw [heq, hm] at hn
  exact Prod.ext (by rw [← hf, ← hg, Option.some.inj hn]) heq

def LockedIn (s : State) (rm : List NodeId) (a : Addr) : Prop :=
  ∃ id ∈ rm, ∃ n k, s.nodes id = some n ∧ n.txnLocks.lookup k = some a

theorem detachNode_eq (h : Rooted s) {f : Bytes} (hm : (f, id) ∈ s.root.entries) (hn : s.nodes id = some n) :
    detachNode s id = some { s.freeNode id n with root := s.root.filter (fun p => p.2 ≠ id) } := by
  obtain ⟨n', hn', hfirst⟩ := h _ hm
  obtain rfl : n = n' := Option.some.inj (hn.symm.trans hn')
  have hroot : s.root.erase n.firstKey = s.root.filter (fun p => p.2 ≠ id) := by
    apply SortedMap.ext_entries
    apply List.filter_congr
    intro p hp
    by_cases hid : p.2 = id
    · rw [h.id_injective hp hm hid]
      simp [hfirst]
    · have hkey : p.1 ≠ n.firstKey := by
        intro hc
        have hlook := SortedMap.mem_entries.mp (show (p.1, p.2) ∈ s.root.entries from hp)
        rw [hc, hfirst, SortedMap.mem_entries.mp hm] at hlook
        exact hid (Option.some.inj hlook).symm
      simp [hid, hkey]
  rw [detachNode, hn, Option.map_some, hroot]

theorem detachNodes_eq (h : Rooted s) {rm : List NodeId} (hnd : rm.Nodup)
    (hrm : ∀ id ∈ rm, ∃ f, (f, id) ∈ s.root.entries) :
    ∃ s', rm.foldlM detachNode s = some s' ∧
      s' = { s with root := s.root.filter (fun p => p.2 ∉ rm), nodes := s'.nodes, txns := s'.txns } ∧
      (∀ id, s'.nodes id = if id ∈ rm then none else s.nodes id) ∧
      ∀ a txn, s'.txns a = some txn ↔ s.txns a = some txn ∧ ¬ LockedIn s rm a := by
  induction rm generalizing s with
  | nil =>
    have hroot : s.root.filter (fun p => p.2 ∉ ([] : List NodeId)) = s.root := by
      apply SortedMap.ext_entries
      simp [SortedMap.filter]
    exact ⟨s, rfl, by rw [hroot], by simp, by simp [LockedIn]⟩
  | cons id rm ih =>
    rw [List.nodup_cons] at hnd
    obtain ⟨f, hf⟩ := hrm id List.mem_cons_self
    obtain ⟨n, hn, -⟩ := h _ hf
    let s₁ : State := { s.freeNode id n with root := s.root.filter (fun p => p.2 ≠ id) }
    have hnode₁ (id' : NodeId) (hne : id' ≠ id) : s₁.nodes id' = s.nodes id' := by
      simp [s₁, State.freeNode, hne]
    have hrooted : Rooted s₁ := by
      intro p hp
      have hp' := List.mem_filter.mp hp
      have hne : p.2 ≠ id := by simpa using hp'.2
      rw [hnode₁ p.2 hne]
      exact h p hp'.1
    have hrm₁ (id' : NodeId) (hid' : id' ∈ rm) : ∃ f, (f, id') ∈ s₁.root.entries := by
      obtain ⟨f', hf'⟩ := hrm id' (List.mem_cons_of_mem _ hid')
      have hne : id' ≠ id := fun hc => hnd.1 (hc ▸ hid')
      exact ⟨f', List.mem_filter.mpr ⟨hf', by simpa using hne⟩⟩
    obtain ⟨s', hs', hframe, hnodes, htxns⟩ := ih hrooted hnd.2 hrm₁
    refine ⟨s', ?_, ?_, ?_, ?_⟩
    · rw [List.foldlM_cons, detachNode_eq h hf hn]
      exact hs'
    · have hroot : s₁.root.filter (fun p => p.2 ∉ rm) = s.root.filter (fun p => p.2 ∉ id :: rm) := by
        apply SortedMap.ext_entries
        simp [s₁, SortedMap.filter, List.filter_filter, Bool.and_comm]
      rw [hframe, hroot]
      rfl
    · intro id'
      rw [hnodes id']
      by_cases hne : id' = id
      · simp [hne, s₁, State.freeNode]
      · rw [hnode₁ id' hne]
        simp [hne]
    · intro a txn
      have hlocked : LockedIn s (id :: rm) a ↔
          (∃ k, n.txnLocks.lookup k = some a) ∨ LockedIn s₁ rm a := by
        constructor
        · rintro ⟨id', hid', m, k, hm, hk⟩
          rcases List.mem_cons.mp hid' with rfl | hid'
          · exact Or.inl ⟨k, Option.some.inj (hn.symm.trans hm) ▸ hk⟩
          · have hne : id' ≠ id := fun hc => hnd.1 (hc ▸ hid')
            exact Or.inr ⟨id', hid', m, k, (hnode₁ id' hne).trans hm, hk⟩
        · rintro (⟨k, hk⟩ | ⟨id', hid', m, k, hm, hk⟩)
          · exact ⟨id, List.mem_cons_self, n, k, hn, hk⟩
          · have hne : id' ≠ id := fun hc => hnd.1 (hc ▸ hid')
            exact ⟨id', List.mem_cons_of_mem _ hid', m, k, (hnode₁ id' hne).symm.trans hm, hk⟩
      have hin : a ∈ n.txnLocks.entries.map Prod.snd ↔ ∃ k, n.txnLocks.lookup k = some a := by
        simp [SortedMap.mem_entries]
      rw [htxns a txn, hlocked, ← hin]
      by_cases ha : a ∈ n.txnLocks.entries.map Prod.snd
      · simp only [s₁, State.freeNode, if_pos ha]
        simp [ha]
      · simp only [s₁, State.freeNode, if_neg ha]
        simp [ha]

def firstKeyAt (s : State) (id : NodeId) : Bytes := ((s.nodes id).map Node.firstKey).getD []

theorem attachNodes_eq {ids : List NodeId} (hids : ∀ id ∈ ids, ∃ n, s.nodes id = some n)
    (hnd : (ids.map (firstKeyAt s)).Nodup) (hnew : ∀ id ∈ ids, s.root.lookup (firstKeyAt s id) = none) :
    ∃ root, ids.foldlM attachNode s = some { s with root := root } ∧
      ∀ f id, (f, id) ∈ root.entries ↔ (f, id) ∈ s.root.entries ∨ (id ∈ ids ∧ f = firstKeyAt s id) := by
  induction ids generalizing s with
  | nil => exact ⟨s.root, rfl, by simp⟩
  | cons id ids ih =>
    rw [List.map_cons, List.nodup_cons] at hnd
    obtain ⟨n, hn⟩ := hids id List.mem_cons_self
    have hkey : n.firstKey = firstKeyAt s id := by simp [firstKeyAt, hn]
    let s₁ : State := { s with root := s.root.insert (firstKeyAt s id) id }
    have hstep : attachNode s id = some s₁ := by
      simp [attachNode, hn, hkey, hnew id List.mem_cons_self, s₁]
    obtain ⟨root, hroot, hmem⟩ := ih (s := s₁) (fun i hi => hids i (List.mem_cons_of_mem _ hi)) hnd.2 (by
      intro i hi
      have hne : firstKeyAt s i ≠ firstKeyAt s id := fun hc => hnd.1 (hc ▸ List.mem_map_of_mem hi)
      exact (SortedMap.lookup_insert_of_ne _ _ hne).trans (hnew i (List.mem_cons_of_mem _ hi)))
    refine ⟨root, ?_, ?_⟩
    · rw [List.foldlM_cons, hstep]
      exact hroot
    · intro f i
      have hins : (f, i) ∈ s₁.root.entries ↔ (f, i) ∈ s.root.entries ∨ (i = id ∧ f = firstKeyAt s id) := by
        rw [SortedMap.mem_entries, SortedMap.mem_entries]
        by_cases hf : f = firstKeyAt s id
        · simp [s₁, hf, hnew id List.mem_cons_self, eq_comm]
        · simp [s₁, hf, SortedMap.lookup_insert_of_ne _ _ hf]
      rw [hmem f i, hins, List.mem_cons]
      have hsame : firstKeyAt s₁ i = firstKeyAt s i := rfl
      rw [hsame]
      constructor
      · rintro ((h | ⟨rfl, h⟩) | h)
        · exact Or.inl h
        · exact Or.inr ⟨Or.inl rfl, h⟩
        · exact Or.inr ⟨Or.inr h.1, h.2⟩
      · rintro (h | ⟨rfl | hi, h⟩)
        · exact Or.inl (Or.inl h)
        · exact Or.inl (Or.inr ⟨rfl, h⟩)
        · exact Or.inr ⟨hi, h⟩

def headKey (l : List (Bytes × Bytes)) : Bytes := firstKey (encode l)

theorem headKey_mem {l : List (Bytes × Bytes)} (h : l ≠ []) : ∃ p ∈ l, p.1 = headKey l := by
  cases l with
  | nil => exact absurd rfl h
  | cons p l => exact ⟨p, List.mem_cons_self, (firstKey_encode p l).symm⟩

theorem headKey_le {l : List (Bytes × Bytes)} (h : l.Pairwise (fun p q => p.1 < q.1)) {q : Bytes × Bytes}
    (hq : q ∈ l) : headKey l ≤ q.1 := by
  cases l with
  | nil => simp at hq
  | cons p l =>
    rw [headKey, firstKey_encode]
    rcases List.mem_cons.mp hq with rfl | hq
    · exact le_rfl
    · exact ((List.pairwise_cons.mp h).1 q hq).le

theorem Cut.pairwise {rm : List NodeId} {ls : List (List (Bytes × Bytes))} (h : Cut s rm ls) :
    (∀ l ∈ ls, l.Pairwise (fun p q => p.1 < q.1)) ∧ ls.Pairwise (fun l l' => ∀ p ∈ l, ∀ q ∈ l', p.1 < q.1) :=
  List.pairwise_flatten.mp h.sorted

theorem Cut.headKeys_nodup {rm : List NodeId} {ls : List (List (Bytes × Bytes))} (h : Cut s rm ls) :
    (ls.map headKey).Nodup := by
  rw [List.Nodup, List.pairwise_map]
  refine h.pairwise.2.imp_of_mem ?_
  intro l l' hl hl' hlt
  obtain ⟨p, hp, hpk⟩ := headKey_mem (h.nonempty l hl)
  obtain ⟨q, hq, hqk⟩ := headKey_mem (h.nonempty l' hl')
  rw [← hpk, ← hqk]
  exact (hlt p hp q hq).ne

theorem Cut.headKey_new {rm : List NodeId} {ls : List (List (Bytes × Bytes))} (h : Cut s rm ls)
    {l : List (Bytes × Bytes)} (hl : l ∈ ls) (hid : id ∉ rm) : (headKey l, id) ∉ s.root.entries := by
  intro hm
  obtain ⟨p, hp, hpk⟩ := headKey_mem (h.nonempty l hl)
  obtain ⟨id', hid', hr⟩ := h.owner l hl
  obtain ⟨f, hf⟩ := hr p hp
  rw [hpk, SortedMap.floor_self hm] at hf
  obtain ⟨-, rfl⟩ := Prod.mk.inj (Option.some.inj hf)
  exact hid hid'

/-- The object after the removed nodes were exchanged for the new blocks. -/
structure Exchanged (s : State) (rm : List NodeId) (ls : List (List (Bytes × Bytes))) (s' : State) : Prop where
  root : ∀ f id, (f, id) ∈ s'.root.entries ↔
    ((f, id) ∈ s.root.entries ∧ id ∉ rm) ∨ ∃ i l, ls[i]? = some l ∧ f = headKey l ∧ id = s.nextNode + i
  kept : ∀ id < s.nextNode, s'.nodes id = if id ∈ rm then none else s.nodes id
  added : ∀ i, s'.nodes (s.nextNode + i) = ls[i]?.map (fun l => Node.alloc (some (encode l)))
  txns : ∀ a txn, s'.txns a = some txn ↔ s.txns a = some txn ∧ ¬ LockedIn s rm a
  frame : s' = { s with
    root := s'.root, nodes := s'.nodes, txns := s'.txns, nextNode := s.nextNode + ls.length }

theorem exchange_eq (h : Staged s) {rm : List NodeId} {ls : List (List (Bytes × Bytes))} (hcut : Cut s rm ls)
    (hnd : rm.Nodup) (hrm : ∀ id ∈ rm, ∃ f, (f, id) ∈ s.root.entries) :
    ∃ s', objectCommit (addBlocks { s with rmNodes := rm } (ls.map encode)) = commitAtoms s' ∧
      Exchanged s rm ls s' := by
  have hrooted : Rooted s := h.indexed.node
  have hlt (id : NodeId) (hid : ∃ f, (f, id) ∈ s.root.entries) : id < s.nextNode := by
    obtain ⟨f, hf⟩ := hid
    obtain ⟨n, hn, -⟩ := hrooted _ hf
    exact h.indexed.freshNode id n hn
  have hnone (id : NodeId) (hid : ¬ id < s.nextNode) : s.nodes id = none := by
    cases hn : s.nodes id with
    | none => rfl
    | some n => exact absurd (h.indexed.freshNode id n hn) hid
  let s₁ : State := { s with
    nodes := (addBlocks { s with rmNodes := rm } (ls.map encode)).nodes
    rmNodes := []
    addNodes := List.range' s.nextNode ls.length
    nextNode := s.nextNode + ls.length }
  have hnodes₁ (id : NodeId) (hid : id < s.nextNode) : s₁.nodes id = s.nodes id := by
    simp [s₁, addBlocks_nodes, hid]
  have hadd₁ (i : Nat) : s₁.nodes (s.nextNode + i) = ls[i]?.map (fun l => Node.alloc (some (encode l))) := by
    have hge : ¬ s.nextNode + i < s.nextNode := Nat.not_lt.mpr (Nat.le_add_right _ _)
    simp [s₁, addBlocks_nodes, hnone _ hge, Function.comp_def]
  have hrooted₁ : Rooted s₁ := by
    intro p hp
    rw [hnodes₁ p.2 (hlt p.2 ⟨p.1, hp⟩)]
    exact hrooted p hp
  obtain ⟨s₂, hs₂, hframe₂, hnodes₂, htxns₂⟩ := detachNodes_eq hrooted₁ hnd hrm
  have hadd₂ (i : Nat) : s₂.nodes (s.nextNode + i) = ls[i]?.map (fun l => Node.alloc (some (encode l))) := by
    have hnot : s.nextNode + i ∉ rm := fun hc =>
      absurd (hlt _ (hrm _ hc)) (Nat.not_lt.mpr (Nat.le_add_right _ _))
    rw [hnodes₂, if_neg hnot, hadd₁]
  have hfirst (i : Nat) (l : List (Bytes × Bytes)) (hl : ls[i]? = some l) :
      firstKeyAt s₂ (s.nextNode + i) = headKey l := by
    simp [firstKeyAt, hadd₂, hl, Node.firstKey, Node.alloc, headKey]
  have hids (id : NodeId) : id ∈ List.range' s.nextNode ls.length ↔ ∃ i l, ls[i]? = some l ∧ id = s.nextNode + i := by
    rw [List.mem_range'_1]
    constructor
    · rintro ⟨h₁, h₂⟩
      have hi : id - s.nextNode < ls.length := Nat.sub_lt_left_of_lt_add h₁ h₂
      exact ⟨id - s.nextNode, ls[id - s.nextNode], List.getElem?_eq_getElem hi, (Nat.add_sub_of_le h₁).symm⟩
    · rintro ⟨i, l, hl, rfl⟩
      obtain ⟨hi, -⟩ := List.getElem?_eq_some_iff.mp hl
      exact ⟨Nat.le_add_right _ _, Nat.add_lt_add_left hi _⟩
  have hkeys : (List.range' s.nextNode ls.length).map (firstKeyAt s₂) = ls.map headKey := by
    apply List.ext_getElem
    · simp
    · intro i hi hi'
      rw [List.getElem_map, List.getElem_map, List.getElem_range', Nat.one_mul]
      exact hfirst i _ (List.getElem?_eq_getElem _)
  have hroot₂ : s₂.root = s.root.filter (fun p => p.2 ∉ rm) := by rw [hframe₂]
  have hids₂ : s₂.addNodes = List.range' s.nextNode ls.length := by rw [hframe₂]
  have hlive₂ (id : NodeId) (hid : id ∈ List.range' s.nextNode ls.length) : ∃ n, s₂.nodes id = some n := by
    obtain ⟨i, l, hl, rfl⟩ := (hids id).mp hid
    exact ⟨_, by rw [hadd₂, hl]; rfl⟩
  have hnew₂ (id : NodeId) (hid : id ∈ List.range' s.nextNode ls.length) :
      s₂.root.lookup (firstKeyAt s₂ id) = none := by
    obtain ⟨i, l, hl, rfl⟩ := (hids id).mp hid
    rw [hfirst i l hl, hroot₂, SortedMap.lookup_eq_none]
    intro id' hm
    obtain ⟨hm, hid'⟩ := List.mem_filter.mp hm
    exact hcut.headKey_new (List.mem_of_getElem? hl) (by simpa using hid') hm
  obtain ⟨root, hatt, hmem⟩ := attachNodes_eq (s := { s₂ with addNodes := [] }) hlive₂
    (hkeys ▸ hcut.headKeys_nodup) hnew₂
  refine ⟨{ s₂ with addNodes := [], root := root }, ?_, ?_, ?_, ?_, ?_, ?_⟩
  · have hs₁ : { addBlocks { s with rmNodes := rm } (ls.map encode) with rmNodes := [] } = s₁ := by
      rw [addBlocks_eq]
      simp [s₁, h.addNodes]
    have hrm₁ : (addBlocks { s with rmNodes := rm } (ls.map encode)).rmNodes = rm := by rw [addBlocks_eq]
    rw [objectCommit, hrm₁, hs₁, hs₂, Option.bind_some, hids₂, hatt, Option.bind_some]
    rfl
  · intro f id
    have hold : (f, id) ∈ (s.root.filter (fun p => p.2 ∉ rm)).entries ↔ (f, id) ∈ s.root.entries ∧ id ∉ rm := by
      simp [SortedMap.filter]
    rw [hmem f id, hroot₂, hold, hids id]
    constructor
    · rintro (hm | ⟨⟨i, l, hl, rfl⟩, hf⟩)
      · exact Or.inl hm
      · exact Or.inr ⟨i, l, hl, hf.trans (hfirst i l hl), rfl⟩
    · rintro (hm | ⟨i, l, hl, hf, rfl⟩)
      · exact Or.inl hm
      · exact Or.inr ⟨⟨i, l, hl, rfl⟩, hf.trans (hfirst i l hl).symm⟩
  · intro id hid
    exact (hnodes₂ id).trans (by rw [hnodes₁ id hid])
  · exact hadd₂
  · intro a txn
    have hlock : LockedIn s₁ rm a ↔ LockedIn s rm a := by
      constructor
      · rintro ⟨id, hid, n, k, hn, hk⟩
        exact ⟨id, hid, n, k, (hnodes₁ id (hlt id (hrm id hid))) ▸ hn, hk⟩
      · rintro ⟨id, hid, n, k, hn, hk⟩
        exact ⟨id, hid, n, k, (hnodes₁ id (hlt id (hrm id hid))).trans hn, hk⟩
    rw [← hlock]
    exact htxns₂ a txn
  · rw [hframe₂]
    simp [s₁, h.addNodes, h.rmNodes]

/-! ### Routing after the exchange -/

section Routing

variable {rm : List NodeId} {ls : List (List (Bytes × Bytes))}

theorem Indexed.apart (h : Indexed s) {f f' : Bytes} {id' : NodeId} (hf : (f, id) ∈ s.root.entries)
    (hf' : (f', id') ∈ s.root.entries) (hne : id ≠ id') :
    (∀ k k', Routes s k id → Routes s k' id' → k < k') ∨ ∀ k k', Routes s k id → Routes s k' id' → k' < k := by
  rcases lt_trichotomy f f' with hlt | rfl | hgt
  · exact Or.inl (fun k k' hk hk' => h.routes_lt hf hf' hlt hk hk')
  · rw [SortedMap.mem_entries] at hf hf'
    exact absurd (Option.some.inj (hf.symm.trans hf')) hne
  · exact Or.inr (fun k k' hk hk' => h.routes_lt hf' hf hgt hk' hk)

theorem routes_self {f : Bytes} (hf : (f, id) ∈ s.root.entries) : Routes s f id := ⟨f, SortedMap.floor_self hf⟩

theorem Cut.head_owner (hc : Cut s rm ls) {l : List (Bytes × Bytes)} (hl : l ∈ ls) :
    ∃ id ∈ rm, Routes s (headKey l) id ∧ ∀ p ∈ l, Routes s p.1 id := by
  obtain ⟨id, hid, hr⟩ := hc.owner l hl
  obtain ⟨p, hp, hpk⟩ := headKey_mem (hc.nonempty l hl)
  exact ⟨id, hid, hpk ▸ hr p hp, hr⟩

theorem Exchanged.routes_kept (h : Indexed s) (hc : Cut s rm ls) (hx : Exchanged s rm ls s') (hr : Routes s k id)
    (hid : id ∉ rm) : Routes s' k id := by
  obtain ⟨f, hf⟩ := hr
  have hmem := SortedMap.floor_mem hf
  have hnew {l : List (Bytes × Bytes)} (hl : l ∈ ls) :
      ∃ f' id', (f', id') ∈ s.root.entries ∧
        ((f < f' ∧ f < headKey l ∧ k < headKey l) ∨ (f' < f ∧ headKey l < f ∧ headKey l < k)) := by
    obtain ⟨id', hid', hr', -⟩ := hc.head_owner hl
    have ⟨f', hf'⟩ := hr'
    have hmem' := SortedMap.floor_mem hf'
    have hne : id ≠ id' := fun hc => hid (hc ▸ hid')
    refine ⟨f', id', hmem', ?_⟩
    rcases h.apart hmem hmem' hne with hlt | hgt
    · exact Or.inl ⟨hlt _ _ (routes_self hmem) (routes_self hmem'), hlt _ _ (routes_self hmem) hr',
        hlt _ _ ⟨f, hf⟩ hr'⟩
    · exact Or.inr ⟨hgt _ _ (routes_self hmem) (routes_self hmem'), hgt _ _ (routes_self hmem) hr',
        hgt _ _ ⟨f, hf⟩ hr'⟩
  refine ⟨f, SortedMap.floor_eq_some_iff.mpr ⟨(hx.root f id).mpr (Or.inl ⟨hmem, hid⟩), ?_⟩⟩
  rcases SortedMap.floor_covers hf with ⟨hle, hmax⟩ | hfirst
  · left
    refine ⟨hle, ?_⟩
    rintro ⟨g, j⟩ hq hqk
    rcases (hx.root g j).mp hq with ⟨hq, -⟩ | ⟨i, l, hl, rfl, -⟩
    · exact hmax _ hq hqk
    · obtain ⟨f', id', -, ⟨-, -, hlt⟩ | ⟨-, hlt, -⟩⟩ := hnew (List.mem_of_getElem? hl)
      · exact absurd hlt (not_lt.mpr hqk)
      · exact hlt.le
  · right
    rintro ⟨g, j⟩ hq
    rcases (hx.root g j).mp hq with ⟨hq, -⟩ | ⟨i, l, hl, rfl, -⟩
    · exact hfirst _ hq
    · obtain ⟨f', id', hm, ⟨-, hf', hk'⟩ | ⟨hlt, -, -⟩⟩ := hnew (List.mem_of_getElem? hl)
      · exact ⟨hk', hf'.le⟩
      · exact absurd (hfirst _ hm).2 (not_le.mpr hlt)

theorem Exchanged.routes_new (h : Indexed s) (hc : Cut s rm ls) (hx : Exchanged s rm ls s') {i : Nat}
    {l : List (Bytes × Bytes)} (hl : ls[i]? = some l) {p : Bytes × Bytes} (hp : p ∈ l) :
    Routes s' p.1 (s.nextNode + i) := by
  have hlm := List.mem_of_getElem? hl
  obtain ⟨hsorts, hpair⟩ := hc.pairwise
  obtain ⟨id, hid, hhead, hr⟩ := hc.head_owner hlm
  refine ⟨headKey l, SortedMap.floor_eq_some_iff.mpr ⟨(hx.root _ _).mpr (Or.inr ⟨i, l, hl, rfl, rfl⟩), ?_⟩⟩
  left
  refine ⟨headKey_le (hsorts l hlm) hp, ?_⟩
  rintro ⟨g, j⟩ hq hqk
  rcases (hx.root g j).mp hq with ⟨hq, hj⟩ | ⟨i', l', hl', rfl, -⟩
  · obtain ⟨f, hf⟩ := hr p hp
    have hne : j ≠ id := fun hc => hj (hc ▸ hid)
    rcases h.apart hq (SortedMap.floor_mem hf) hne with hlt | hgt
    · exact (hlt _ _ (routes_self hq) hhead).le
    · exact absurd (hgt _ _ (routes_self hq) (hr p hp)) (not_lt.mpr hqk)
  · obtain ⟨hi, hgi⟩ := List.getElem?_eq_some_iff.mp hl
    obtain ⟨hi', hgi'⟩ := List.getElem?_eq_some_iff.mp hl'
    obtain ⟨q, hq, hqk'⟩ := headKey_mem (hc.nonempty l' (List.mem_of_getElem? hl'))
    obtain ⟨r, hr, hrk⟩ := headKey_mem (hc.nonempty l hlm)
    have hget := List.pairwise_iff_getElem.mp hpair
    rcases lt_trichotomy i' i with hlt | rfl | hgt
    · have hqr := hget i' i hi' hi hlt q (hgi' ▸ hq) r (hgi ▸ hr)
      rw [← hqk', ← hrk]
      exact hqr.le
    · rw [hl] at hl'
      rw [Option.some.inj hl']
    · have hpq := hget i i' hi hi' hgt p (hgi ▸ hp) q (hgi' ▸ hq)
      rw [hqk'] at hpq
      exact absurd hpq (not_lt.mpr hqk)

theorem Exchanged.indexed (h : Indexed s) (hc : Cut s rm ls) (hx : Exchanged s rm ls s')
    (hne : s'.root.entries ≠ []) : Indexed s' := by
  have hnext : s'.nextNode = s.nextNode + ls.length := by rw [hx.frame]
  have hnextTxn : s'.nextTxn = s.nextTxn := by rw [hx.frame]
  have hkept {id : NodeId} (hid : id < s.nextNode) {n : Node} (hn : s'.nodes id = some n) :
      id ∉ rm ∧ s.nodes id = some n := by
    rw [hx.kept id hid] at hn
    split_ifs at hn with hrm
    exact ⟨hrm, hn⟩
  have hadd {id : NodeId} (hid : ¬ id < s.nextNode) {n : Node} (hn : s'.nodes id = some n) :
      ∃ i l, id = s.nextNode + i ∧ ls[i]? = some l ∧ n = Node.alloc (some (encode l)) := by
    obtain ⟨i, rfl⟩ := Nat.exists_eq_add_of_le (Nat.not_lt.mp hid)
    rw [hx.added i, Option.map_eq_some_iff] at hn
    obtain ⟨l, hl, rfl⟩ := hn
    exact ⟨i, l, rfl, hl, rfl⟩
  refine ⟨hne, ?_, ?_, ?_, ?_, ?_, ?_, ?_, ?_⟩
  · rintro ⟨f, id⟩ hp
    rcases (hx.root f id).mp hp with ⟨hp, hid⟩ | ⟨i, l, hl, rfl, rfl⟩
    · obtain ⟨n, hn, hf⟩ := h.node _ hp
      exact ⟨n, by rw [hx.kept id (h.freshNode id n hn), if_neg hid, hn], hf⟩
    · exact ⟨Node.alloc (some (encode l)), by rw [hx.added i, hl]; rfl, rfl⟩
  · intro id n hn
    by_cases hid : id < s.nextNode
    · obtain ⟨hrm, hn⟩ := hkept hid hn
      obtain ⟨f, hf⟩ := h.home id n hn
      exact ⟨f, (hx.root f id).mpr (Or.inl ⟨hf, hrm⟩)⟩
    · obtain ⟨i, l, rfl, hl, -⟩ := hadd hid hn
      exact ⟨headKey l, (hx.root _ _).mpr (Or.inr ⟨i, l, hl, rfl, rfl⟩)⟩
  · intro id n k hn hk
    by_cases hid : id < s.nextNode
    · obtain ⟨hrm, hn⟩ := hkept hid hn
      exact hx.routes_kept h hc (h.mem id n k hn hk) hrm
    · obtain ⟨i, l, rfl, hl, rfl⟩ := hadd hid hn
      simp [Node.alloc] at hk
  · intro id n b hn hb
    by_cases hid : id < s.nextNode
    · obtain ⟨hrm, hn⟩ := hkept hid hn
      obtain ⟨l, hl, hbl, hsort, hr⟩ := h.block id n b hn hb
      exact ⟨l, hl, hbl, hsort, fun p hp => hx.routes_kept h hc (hr p hp) hrm⟩
    · obtain ⟨i, l, rfl, hl, rfl⟩ := hadd hid hn
      have hlm := List.mem_of_getElem? hl
      exact ⟨l, hc.nonempty l hlm, (Option.some.inj hb).symm, hc.pairwise.1 l hlm,
        fun p hp => hx.routes_new h hc hl hp⟩
  · intro id n k a hn hk
    by_cases hid : id < s.nextNode
    · obtain ⟨hrm, hn⟩ := hkept hid hn
      obtain ⟨txn, ha, hrest⟩ := h.lock id n k a hn hk
      refine ⟨txn, (hx.txns a txn).mpr ⟨ha, ?_⟩, hrest⟩
      rintro ⟨id', hid', n', k', hn', hk'⟩
      have hplace := (h.lock_place ha hn' hk').2.2.2
      rw [hrest.2.2.2] at hplace
      exact hrm (hplace ▸ hid')
    · obtain ⟨i, l, rfl, hl, rfl⟩ := hadd hid hn
      simp [Node.alloc] at hk
  · intro a txn n ha hn
    have ha' := ((hx.txns a txn).mp ha).1
    obtain ⟨hrm, hn⟩ := hkept (h.freshTxn a txn ha').2 hn
    exact hx.routes_kept h hc (h.txn a txn n ha' hn) hrm
  · intro id n hn
    rw [hnext]
    by_cases hid : id < s.nextNode
    · exact Nat.lt_add_right _ hid
    · obtain ⟨i, l, rfl, hl, -⟩ := hadd hid hn
      exact Nat.add_lt_add_left (List.getElem?_eq_some_iff.mp hl).1 _
  · intro a txn ha
    have hfresh := h.freshTxn a txn ((hx.txns a txn).mp ha).1
    rw [hnext, hnextTxn]
    exact ⟨hfresh.1, Nat.lt_add_right _ hfresh.2⟩

theorem Exchanged.staged (h : Staged s) (hc : Cut s rm ls) (hx : Exchanged s rm ls s')
    (hne : s'.root.entries ≠ []) : Staged s' := by
  have hq : s'.txnq = s.txnq := by rw [hx.frame]
  refine ⟨hx.indexed h.indexed hc hne, ?_, by rw [hx.frame, h.rmNodes], by rw [hx.frame, h.addNodes]⟩
  rw [hq]
  refine ⟨h.queued.nodup, ?_, ?_, ?_⟩
  · rw [hx.frame]
    exact h.queued.fresh
  · intro a ha txn htxn
    exact h.queued.owned a ha txn ((hx.txns a txn).mp htxn).1
  · intro a ha id n k hn hk
    by_cases hid : id < s.nextNode
    · rw [hx.kept id hid] at hn
      split_ifs at hn
      exact h.queued.unlocked a ha id n k hn hk
    · obtain ⟨i, rfl⟩ := Nat.exists_eq_add_of_le (Nat.not_lt.mp hid)
      rw [hx.added i, Option.map_eq_some_iff] at hn
      obtain ⟨l, -, rfl⟩ := hn
      simp [Node.alloc] at hk

end Routing

/-- What a balance does, and that the commit after it first exchanges the nodes. -/
theorem objectBalance_exchanges (h : Staged s) {s₁ : State} (hb : objectBalance s = some s₁) :
    ∃ rm ls s', balanceNodes s (s.root.entries.map Prod.snd) = some (rm, ls.map encode) ∧
      objectCommit s₁ = commitAtoms s' ∧ Cut s rm ls ∧ Exchanged s rm ls s' ∧
      (∀ id ∈ rm, ∃ f, (f, id) ∈ s.root.entries) ∧
      ∀ p ∈ s.root.entries, p.2 ∈ rm ↔ ∀ n, s.nodes p.2 = some n → requiresBalance n := by
  rw [objectBalance, Option.map_eq_some_iff] at hb
  obtain ⟨⟨rm, bs⟩, hb, rfl⟩ := hb
  obtain ⟨hsub, hreq, ls, rfl, hcut⟩ := balanceNodes_cut h.indexed (fun p hp => hp) s.root.sorted hb
  have hnd : (s.root.entries.map Prod.snd).Nodup := by
    rw [List.Nodup, List.pairwise_map]
    refine s.root.sorted.imp_of_mem ?_
    intro p q hp hq hlt hc
    exact hlt.ne (congrArg Prod.fst (Rooted.id_injective h.indexed.node hp hq hc))
  have hrm (id : NodeId) (hid : id ∈ rm) : ∃ f, (f, id) ∈ s.root.entries := by
    obtain ⟨p, hp, rfl⟩ := List.mem_map.mp (hsub.subset hid)
    exact ⟨p.1, hp⟩
  have hrmq : s.rmNodes ++ rm = rm := by rw [h.rmNodes, List.nil_append]
  obtain ⟨s', hcommit, hx⟩ := exchange_eq h hcut (hsub.nodup hnd) hrm
  refine ⟨rm, ls, s', hb, ?_, hcut, hx, hrm, fun p hp => hreq p.2 (List.mem_map_of_mem hp)⟩
  simpa only [hrmq] using hcommit

/-! ### The index in every run -/

/-- A node that a balance leaves in the tree, or replaces by at least one other. -/
def leavesNode (s : State) (id : NodeId) : Bool :=
  match s.nodes id with
  | none => false
  | some n => !decide (requiresBalance n) || decide (nodeEntries s n 0 ≠ some [])

/-- A balance must not find all nodes large and without a live entry. -/
def TreeOk (s : State) : Request → Prop
  | .balance => ∃ p ∈ s.root.entries, leavesNode s p.2 = true
  | _ => True

instance (s : State) : (r : Request) → Decidable (TreeOk s r)
  | .balance => inferInstanceAs (Decidable (∃ p ∈ s.root.entries, leavesNode s p.2 = true))
  | .insert .. => .isTrue trivial
  | .update .. => .isTrue trivial
  | .remove .. => .isTrue trivial
  | .get .. => .isTrue trivial
  | .scan .. => .isTrue trivial
  | .apply _ => .isTrue trivial
  | .revert _ => .isTrue trivial

theorem Exchanged.nonempty (h : Indexed s) {rm : List NodeId} {ls : List (List (Bytes × Bytes))} (hc : Cut s rm ls)
    (hx : Exchanged s rm ls s')
    (hreq : ∀ p ∈ s.root.entries, p.2 ∈ rm ↔ ∀ n, s.nodes p.2 = some n → requiresBalance n)
    (hok : ∃ p ∈ s.root.entries, leavesNode s p.2 = true) : s'.root.entries ≠ [] := by
  obtain ⟨p, hp, hleaves⟩ := hok
  obtain ⟨n, hn, -⟩ := h.node p hp
  by_cases hid : p.2 ∈ rm
  · have hbal : requiresBalance n := (hreq p hp).mp hid n hn
    obtain ⟨n', L, hn', hL⟩ := hc.defined p.2 hid
    obtain rfl : n = n' := Option.some.inj (hn.symm.trans hn')
    cases L with
    | nil => simp [leavesNode, hn, hbal, hL] at hleaves
    | cons q L =>
      obtain ⟨l, hl, -⟩ := List.mem_flatten.mp ((hc.contents q).mpr ⟨p.2, hid, n, _, hn, hL, List.mem_cons_self⟩)
      obtain ⟨i, hi⟩ := List.getElem?_of_mem hl
      exact List.ne_nil_of_mem ((hx.root _ _).mpr (Or.inr ⟨i, l, hi, rfl, rfl⟩))
  · exact List.ne_nil_of_mem ((hx.root p.1 p.2).mpr (Or.inl ⟨hp, hid⟩))

theorem Staged.serve (h : Staged s) {r : Request} (hok : TreeOk s r) {e : Response}
    (hr : serve s r = some (s', e)) : Staged s' := by
  cases r with
  | insert t u k v =>
    simp only [SSet.serve] at hr
    split_ifs at hr
    · exact (Prod.mk.inj (Option.some.inj hr)).1 ▸ h
    · rw [Option.bind_eq_some_iff] at hr
      obtain ⟨⟨s₁, c⟩, hi, hr⟩ := hr
      exact Staged.committed (r := (s₁, c, none)) (h.insert hi) hr
  | update t k v =>
    simp only [SSet.serve] at hr
    split_ifs at hr
    · exact (Prod.mk.inj (Option.some.inj hr)).1 ▸ h
    · rw [Option.bind_eq_some_iff] at hr
      obtain ⟨⟨s₁, c⟩, hu, hr⟩ := hr
      exact Staged.committed (r := (s₁, c)) (h.update hu) hr
  | remove t k =>
    simp only [SSet.serve] at hr
    split_ifs at hr
    · exact (Prod.mk.inj (Option.some.inj hr)).1 ▸ h
    · rw [Option.bind_eq_some_iff] at hr
      obtain ⟨⟨s₁, c⟩, hu, hr⟩ := hr
      exact Staged.committed (r := (s₁, c)) (h.remove hu) hr
  | get t k =>
    simp only [SSet.serve] at hr
    split_ifs at hr
    · exact (Prod.mk.inj (Option.some.inj hr)).1 ▸ h
    · rw [Option.map_eq_some_iff] at hr
      obtain ⟨c, -, hr⟩ := hr
      exact (Prod.mk.inj hr).1 ▸ h
  | scan t key i count seek =>
    simp only [SSet.serve] at hr
    split_ifs at hr
    · exact (Prod.mk.inj (Option.some.inj hr)).1 ▸ h
    · rw [Option.map_eq_some_iff] at hr
      obtain ⟨c, -, hr⟩ := hr
      exact (Prod.mk.inj hr).1 ▸ h
  | apply t =>
    simp only [SSet.serve] at hr
    split_ifs at hr
    · exact (Prod.mk.inj (Option.some.inj hr)).1 ▸ h
    · rw [Option.map_eq_some_iff] at hr
      obtain ⟨s₁, he, hr⟩ := hr
      exact (Prod.mk.inj hr).1 ▸ h.endTxn (fun s a s' hs ha => hs.objectApply ha) he
  | revert t =>
    simp only [SSet.serve] at hr
    split_ifs at hr
    · exact (Prod.mk.inj (Option.some.inj hr)).1 ▸ h
    · rw [Option.map_eq_some_iff] at hr
      obtain ⟨s₁, he, hr⟩ := hr
      exact (Prod.mk.inj hr).1 ▸ h.endTxn (fun s a s' hs ha => hs.objectRevert ha) he
  | balance =>
    simp only [SSet.serve, Option.bind_eq_some_iff, Option.map_eq_some_iff] at hr
    obtain ⟨s₁, hb, s₂, hc, hr⟩ := hr
    obtain ⟨rm, ls, s₃, -, hcommit, hcut, hx, -, hreq⟩ := objectBalance_exchanges h hb
    have hne := hx.nonempty h.indexed hcut hreq hok
    exact (Prod.mk.inj hr).1 ▸ (hx.staged h hcut hne).commitAtoms (hcommit ▸ hc)

theorem create_staged : Staged create := ⟨create_indexed, Queued.nil _, rfl, rfl⟩

/-- Every key has a node, the nodes have distinct first keys in tree order, and whatever a node
holds has a key that leads to it. -/
structure NodeIndex (s : State) : Prop where
  found : ∀ k, ∃ id n, nodeLookup s k = some (id, n)
  ordered : (s.root.entries.map (fun p => firstKeyAt s p.2)).Pairwise (· < ·)
  item : ∀ id n k, s.nodes id = some n → n.memData.lookup k ≠ none → nodeLookup s k = some (id, n)
  entry : ∀ id n b, s.nodes id = some n → n.block = some b →
    ∃ l, b = encode l ∧ ∀ p ∈ l, nodeLookup s p.1 = some (id, n)
  lock : ∀ id n k a, s.nodes id = some n → n.txnLocks.lookup k = some a → nodeLookup s k = some (id, n)
  atom : ∀ a txn n, s.txns a = some txn → s.nodes txn.node = some n → nodeLookup s txn.key = some (txn.node, n)

theorem nodeLookup_of_routes (hr : Routes s k id) (hn : s.nodes id = some n) : nodeLookup s k = some (id, n) := by
  obtain ⟨f, hf⟩ := hr
  simp [nodeLookup, hf, hn]

theorem Indexed.nodeIndex (h : Indexed s) : NodeIndex s where
  found k := by
    cases hf : s.root.floor k with
    | none => exact absurd (SortedMap.floor_eq_none.mp hf) h.nonempty
    | some p =>
      obtain ⟨n, hn, -⟩ := h.node p (SortedMap.floor_mem hf)
      exact ⟨p.2, n, by simp [nodeLookup, hf, hn]⟩
  ordered := by
    rw [List.pairwise_map]
    refine s.root.sorted.imp_of_mem ?_
    intro p q hp hq hlt
    obtain ⟨n, hn, hf⟩ := h.node p hp
    obtain ⟨m, hm, hg⟩ := h.node q hq
    simpa [firstKeyAt, hn, hm, hf, hg] using hlt
  item id n k hn hk := nodeLookup_of_routes (h.mem id n k hn hk) hn
  entry id n b hn hb := by
    obtain ⟨l, -, hl, -, hr⟩ := h.block id n b hn hb
    exact ⟨l, hl, fun p hp => nodeLookup_of_routes (hr p hp) hn⟩
  lock id n k a hn hk := by
    obtain ⟨txn, ha, -, -, rfl, rfl⟩ := h.lock id n k a hn hk
    exact nodeLookup_of_routes (h.txn a txn n ha hn) hn
  atom a txn n ha hn := nodeLookup_of_routes (h.txn a txn n ha hn) hn

/-- As long as no balance empties the tree, every state of every run has an index. -/
theorem run_keeps_index (rs : List Request) (es : List Response) (s : State) (hm : Meets serve TreeOk create rs)
    (he : exec serve create rs = some (s, es)) : NodeIndex s := by
  have hs : Staged s := exec_invariant (fun s i s' e hs hok hr => hs.serve hok hr) create_staged hm he
  exact hs.indexed.nodeIndex

theorem run_keeps_index_balanced : ∃ s es,
    exec serve create [.insert 0 false [1] (List.replicate 4096 0), .balance, .insert 1 false [2] [3]] = some (s, es) ∧
      NodeIndex s := by
  obtain ⟨⟨s, es⟩, he⟩ := Option.isSome_iff_exists.mp (show (exec serve create
    [.insert 0 false [1] (List.replicate 4096 0), .balance, .insert 1 false [2] [3]]).isSome by decide +kernel)
  exact ⟨s, es, he, run_keeps_index _ es s (by decide +kernel) he⟩

/-- The only key of the object is removed before its node is balanced. -/
theorem balance_empties_tree : ∃ s es,
    exec serve create [.insert 0 false [1] (List.replicate 4096 0), .remove 0 [1], .balance] = some (s, es) ∧
      ¬ NodeIndex s := by
  have hroot : (exec serve create [.insert 0 false [1] (List.replicate 4096 0), .remove 0 [1], .balance]).map
      (fun r => r.1.root.entries) = some [] := by decide +kernel
  rw [Option.map_eq_some_iff] at hroot
  obtain ⟨⟨s, es⟩, he, hs⟩ := hroot
  refine ⟨s, es, he, ?_⟩
  intro h
  obtain ⟨id, n, hl⟩ := h.found []
  have hnone : s.root.floor [] = none := SortedMap.floor_eq_none.mpr hs
  simp [nodeLookup, hnone] at hl

end RaleighSL.Objects.SSet
