import RaleighSL.Objects.SSet.Tidy

/-!
# The object and its layers

A tidy object shows the layers of its nodes and the pending writes of its lock
trees. Each request that keeps the object tidy does to the object what it does to
the layers, with the same response.
-/
namespace RaleighSL.Objects.SSet
open RaleighSL.Core RaleighSL.Library RaleighSL.Zcl

def pendingAt (s : State) (k : Bytes) : Option Txn :=
  (nodeLookup s k).bind (fun p => (p.2.txnLocks.lookup k).bind s.txns)

structure Embeds (s : State) (L : Layers) : Prop where
  tidy : Tidy s
  nodes : ∀ f, L.nodes.lookup f = (s.root.lookup f).bind (fun id => (s.nodes id).map Node.bare)
  pending : ∀ k, L.pending.lookup k = (pendingAt s k).map Txn.write
  ended : L.ended = s.ended

variable {s s' : State} {L : Layers} {t : TxnId} {k v : Bytes} {id : NodeId} {n : Node} {a : Addr} {txn : Txn}
  {type : TxnType} {item : MapItem}

theorem pendingAt_eq (hr : Routes s k id) (hn : s.nodes id = some n) :
    pendingAt s k = (n.txnLocks.lookup k).bind s.txns := by
  rw [pendingAt, nodeLookup_of_routes hr hn, Option.bind_some]

/-- The way of a key through the tree of nodes and through the layers. -/
structure RouteOf (s : State) (L : Layers) (k f : Bytes) (id : NodeId) (n : Node) : Prop where
  root : s.root.floor k = some (f, id)
  node : s.nodes id = some n
  layer : L.nodes.floor k = some (f, n.bare)

theorem RouteOf.routes {f : Bytes} (h : RouteOf s L k f id n) : Routes s k id := ⟨f, h.root⟩

theorem RouteOf.lookup {f : Bytes} (h : RouteOf s L k f id n) : nodeLookup s k = some (id, n) :=
  nodeLookup_of_routes h.routes h.node

theorem Embeds.lookup_ne_none (h : Embeds s L) (f : Bytes) : s.root.lookup f ≠ none ↔ L.nodes.lookup f ≠ none := by
  rw [h.nodes f]
  cases hf : s.root.lookup f with
  | none => simp
  | some id =>
    obtain ⟨n, hn, -⟩ := h.tidy.indexed.node _ (SortedMap.mem_entries.mpr hf)
    simp only at hn
    simp [hn]

theorem Embeds.route (h : Embeds s L) (k : Bytes) : ∃ f id n, RouteOf s L k f id n := by
  cases hf : s.root.floor k with
  | none => exact absurd (SortedMap.floor_eq_none.mp hf) h.tidy.indexed.nonempty
  | some p =>
    obtain ⟨f, id⟩ := p
    obtain ⟨n, hn, -⟩ := h.tidy.indexed.node _ (SortedMap.floor_mem hf)
    have hfst := SortedMap.floor_fst_congr h.lookup_ne_none k
    rw [hf, Option.map_some, eq_comm, Option.map_eq_some_iff] at hfst
    obtain ⟨⟨g, m⟩, hg, rfl⟩ := hfst
    have hm := SortedMap.mem_entries.mp (SortedMap.floor_mem hg)
    rw [h.nodes, SortedMap.mem_entries.mp (SortedMap.floor_mem hf)] at hm
    simp only at hn
    simp only [Option.bind_some, hn, Option.map_some, Option.some.injEq] at hm
    exact ⟨g, id, n, hf, hn, hm ▸ hg⟩

theorem Embeds.lock_cases (h : Embeds s L) {f : Bytes} (hr : RouteOf s L k f id n) :
    (n.txnLocks.lookup k = none ∧ L.pending.lookup k = none) ∨
      ∃ a txn, n.txnLocks.lookup k = some a ∧ s.txns a = some txn ∧ L.pending.lookup k = some txn.write := by
  have hp := h.pending k
  rw [pendingAt_eq hr.routes hr.node] at hp
  cases hk : n.txnLocks.lookup k with
  | none => exact Or.inl ⟨rfl, by simpa [hk] using hp⟩
  | some a =>
    obtain ⟨txn, ha, -⟩ := h.tidy.indexed.lock id n k a hr.node hk
    exact Or.inr ⟨a, txn, rfl, ha, by simpa [hk, ha] using hp⟩

@[simp] theorem bare_search (n : Node) (k : Bytes) : n.bare.search k = n.search k := rfl

theorem searchData_none (n : Node) (k : Bytes) :
    (searchData n k none).txn = none ∧ (searchData n k none).found = (n.search k).isSome ∧
      ∀ v, n.search k = some v → (searchData n k none).value = v := by
  cases hm : n.memData.lookup k with
  | some item => cases hd : item.isDeleteMarker <;> simp [searchData, Node.search, hm, hd]
  | none => cases hb : n.block.bind (fun b => bucketSearch 0 b k) <;> simp [searchData, Node.search, hm, hb]

/-! ### Changes of one node -/

@[simp] theorem apply_bare (n : Node) (type : TxnType) (k : Bytes) (item : MapItem) :
    (n.apply type k item).bare = n.bare.apply type k item := by
  cases type <;> cases hl : n.memData.lookup k <;> simp [Node.apply, Node.bare, hl]

theorem applyAt_eq {m : SortedMap Bytes Node} {f : Bytes} (h : m.floor k = some (f, n)) :
    Layers.applyAt m k type item = m.insert f (n.apply type k item) := by
  simp [Layers.applyAt, h]

theorem Embeds.lookup_node (h : Embeds s L) {f : Bytes} (hr : RouteOf s L k f id n) (g : Bytes) :
    s.root.lookup g = some id ↔ g = f := by
  constructor
  · intro hg
    have hm := Rooted.id_injective h.tidy.indexed.node (SortedMap.mem_entries.mpr hg) (SortedMap.floor_mem hr.root) rfl
    exact congrArg Prod.fst hm
  · rintro rfl
    exact SortedMap.mem_entries.mp (SortedMap.floor_mem hr.root)

theorem Embeds.replaced (h : Embeds s L) {f : Bytes} (hr : RouteOf s L k f id n) {n' : Node} {used : Nat}
    (hb : n'.block = n.block) (hl : n'.txnLocks = n.txnLocks) (hq : n'.commitq = n.commitq)
    (hmem : ∀ k, n'.memData.lookup k ≠ none → Routes s k id) :
    Embeds (replaced s id n' used) { L with nodes := L.nodes.insert f n'.bare } where
  tidy := h.tidy.replaced hr.node hb hl hq hmem
  nodes g := by
    rw [SortedMap.lookup_insert]
    by_cases hg : g = f
    · subst hg
      have hroot : (SSet.replaced s id n' used).root.lookup g = some id := (h.lookup_node hr g).mpr rfl
      rw [hroot]
      simp [SSet.replaced]
    · rw [if_neg hg, h.nodes g]
      cases hroot : s.root.lookup g with
      | none => simp [SSet.replaced, hroot]
      | some id' =>
        have hne : id' ≠ id := by
          rintro rfl
          exact hg ((h.lookup_node hr g).mp hroot)
        simp [SSet.replaced, hroot, hne]
  pending k' := by
    rw [h.pending k']
    congr 1
    obtain ⟨f', id', m, hr'⟩ := h.route k'
    have hr₁ : Routes (SSet.replaced s id n' used) k' id' := hr'.routes
    rw [pendingAt_eq hr'.routes hr'.node]
    by_cases hid : id' = id
    · subst hid
      have hnode : (SSet.replaced s id' n' used).nodes id' = some n' := by simp [SSet.replaced]
      obtain rfl : m = n := Option.some.inj (hr'.node.symm.trans hr.node)
      rw [pendingAt_eq hr₁ hnode, hl]
      rfl
    · have hnode : (SSet.replaced s id n' used).nodes id' = some m := by simpa [SSet.replaced, hid] using hr'.node
      rw [pendingAt_eq hr₁ hnode]
      rfl
  ended := h.ended

theorem routes_apply (hr : Routes s k id) {n : Node} (hmem : ∀ k, n.memData.lookup k ≠ none → Routes s k id)
    (k' : Bytes) (hk' : (n.apply type k item).memData.lookup k' ≠ none) : Routes s k' id := by
  by_cases hk : k' = k
  · exact hk ▸ hr
  · rw [apply_lookup, if_neg hk] at hk'
    exact hmem k' hk'

theorem Embeds.apply (h : Embeds s L) {f : Bytes} (hr : RouteOf s L k f id n) {used : Nat} :
    Embeds (SSet.replaced s id (n.apply type k item) used) (L.write 0 type k item) := by
  have hw : L.write 0 type k item = { L with nodes := L.nodes.insert f (n.apply type k item).bare } := by
    rw [Layers.write, if_pos rfl, applyAt_eq hr.layer, apply_bare]
  rw [hw]
  exact h.replaced hr (apply_block ..) (apply_txnLocks ..) (apply_commitq ..)
    (routes_apply hr.routes (fun k hk => h.tidy.indexed.mem id n k hr.node hk))

theorem Embeds.apply_twice (h : Embeds s L) {f : Bytes} (hr : RouteOf s L k f id n) {used : Nat} {type' : TxnType}
    {item' : MapItem} :
    Embeds (SSet.replaced s id ((n.apply type k item).apply type' k item') used)
      ((L.write 0 type k item).write 0 type' k item') := by
  have hin := SortedMap.mem_entries.mp (SortedMap.floor_mem hr.layer)
  have hfloor := SortedMap.floor_insert_of_mem (f := f) (by simp [hin]) (n.bare.apply type k item) hr.layer
  rw [if_pos rfl] at hfloor
  have hw : (L.write 0 type k item).write 0 type' k item' =
      { L with nodes := L.nodes.insert f ((n.apply type k item).apply type' k item').bare } := by
    simp only [Layers.write, if_true, applyAt_eq hr.layer, applyAt_eq hfloor, SortedMap.insert_insert, apply_bare]
  rw [hw]
  exact h.replaced hr (by simp) (by simp) (by simp)
    (routes_apply hr.routes
      (routes_apply hr.routes (fun k hk => h.tidy.indexed.mem id n k hr.node hk)))

theorem Embeds.locked (h : Embeds s L) {f : Bytes} (hr : RouteOf s L txn.key f txn.node n) (ht : txn.txnId ≠ 0)
    (hp : txn.parent = none) (hl : n.txnLocks.lookup txn.key = none) :
    Embeds (locked s n txn) (L.write txn.txnId txn.type txn.key txn.item) where
  tidy := h.tidy.locked ht hp hr.node hr.routes hl
  nodes g := by
    simp only [Layers.write, if_neg ht]
    rw [h.nodes g]
    cases hroot : s.root.lookup g with
    | none => simp [SSet.locked, hroot]
    | some id' =>
      by_cases hid : id' = txn.node
      · simp [SSet.locked, hroot, hid, hr.node, Node.bare]
      · simp [SSet.locked, hroot, hid]
  pending k' := by
    simp only [Layers.write, if_neg ht]
    rw [SortedMap.lookup_insert, h.pending k']
    obtain ⟨f', id', m, hr'⟩ := h.route k'
    have hr₁ : Routes (SSet.locked s n txn) k' id' := hr'.routes
    rw [pendingAt_eq hr'.routes hr'.node]
    have hfresh (b : Addr) (hb : m.txnLocks.lookup k' = some b) : b ≠ s.nextTxn := by
      obtain ⟨x, hx, -⟩ := h.tidy.indexed.lock id' m k' b hr'.node hb
      exact (h.tidy.indexed.freshTxn b x hx).1.ne
    by_cases hid : id' = txn.node
    · subst hid
      obtain rfl : m = n := Option.some.inj (hr'.node.symm.trans hr.node)
      have hnode : (SSet.locked s m txn).nodes txn.node =
          some { m with txnLocks := m.txnLocks.insert txn.key s.nextTxn } := by simp [SSet.locked]
      rw [pendingAt_eq hr₁ hnode]
      by_cases hk : k' = txn.key
      · simp [hk, SSet.locked, Txn.write]
      · simp only [if_neg hk, SortedMap.lookup_insert_of_ne _ _ hk]
        cases hb : m.txnLocks.lookup k' with
        | none => rfl
        | some b => simp [SSet.locked, hfresh b hb]
    · have hnode : (SSet.locked s n txn).nodes id' = some m := by simpa [SSet.locked, hid] using hr'.node
      have hk : k' ≠ txn.key := by
        rintro rfl
        have hsame := hr'.root.symm.trans hr.root
        exact hid (congrArg Prod.snd (Option.some.inj hsame))
      rw [pendingAt_eq hr₁ hnode, if_neg hk]
      cases hb : m.txnLocks.lookup k' with
      | none => rfl
      | some b => simp [SSet.locked, hfresh b hb]
  ended := by
    simp only [Layers.write, if_neg ht]
    exact h.ended

/-! ### The end of a transaction -/

theorem Embeds.closed_pending (h : Embeds s L) {f : Node → List Txn → Node} (hf : Closes f) (t : TxnId) (k : Bytes) :
    (L.release t).pending.lookup k = (pendingAt (closed s t f) k).map Txn.write := by
  rw [Layers.release, SortedMap.lookup_filter]
  obtain ⟨f', id, n, hr⟩ := h.route k
  have hr₁ : Routes (closed s t f) k id := hr.routes
  have hnode : (closed s t f).nodes id = some (f n (atomsAt s (s.groups t).chain id)) := by
    simp [closed, finished, hr.node]
  rw [pendingAt_eq hr₁ hnode, h.tidy.closed_lock hf hr.node]
  rcases h.lock_cases hr with ⟨hl, hp⟩ | ⟨a, txn, hl, ha, hp⟩
  · simp [hl, hp]
  · have hin : a ∈ (s.groups t).chain ↔ txn.txnId = t := by
      rw [(h.tidy.group t).mem a]
      simp [ha]
    by_cases ht : txn.txnId = t
    · simp [hl, hp, Option.filter_some, hin.mpr ht, Txn.write, ht]
    · simp [hl, hp, Option.filter_some, mt hin.mp ht, Txn.write, ht, closed, finished, ha]

theorem Embeds.revert (h : Embeds s L) (t : TxnId) : Embeds (closed s t Node.unlock) (L.release t) where
  tidy := h.tidy.closed closes_unlock t
  nodes g := by
    change L.nodes.lookup g = _
    rw [h.nodes g]
    cases hroot : s.root.lookup g with
    | none => simp [closed, finished, hroot]
    | some id => cases hn : s.nodes id <;> simp [closed, finished, hroot, hn, Node.unlock, Node.bare]
  pending k := h.closed_pending closes_unlock t k
  ended := congrArg (t :: ·) h.ended

theorem apply_comm (n : Node) {type' : TxnType} {k' : Bytes} {item' : MapItem} (hk : k ≠ k') :
    (n.apply type k item).apply type' k' item' = (n.apply type' k' item').apply type k item := by
  apply Node.ext
  · apply SortedMap.ext_lookup
    intro x
    simp only [apply_lookup]
    by_cases h₁ : x = k
    · subst h₁
      simp [hk]
    · by_cases h₂ : x = k'
      · subst h₂
        simp [Ne.symm hk]
      · simp [h₁, h₂]
  · simp
  · simp
  · simp only [apply_bufsize]
    split_ifs
    · rfl
    · rfl
    · rfl
    · omega
  · simp

def Node.applyWrites (n : Node) (l : List (Bytes × Write)) : Node :=
  l.foldl (fun n p => n.apply p.2.type p.1 p.2.item) n

theorem applyWrites_perm (n : Node) {l l' : List (Bytes × Write)} (hp : l.Perm l')
    (hkeys : ∀ p ∈ l, ∀ q ∈ l, p ≠ q → p.1 ≠ q.1) : n.applyWrites l = n.applyWrites l' := by
  apply hp.foldl_eq'
  intro p hpl q hql m
  by_cases hpq : p = q
  · rw [hpq]
  · exact apply_comm m (hkeys p hpl q hql hpq)

theorem applyAll_lookup (m : SortedMap Bytes Node) (l : List (Bytes × Write)) (f : Bytes) :
    (Layers.applyAll m l).lookup f =
      (m.lookup f).map (fun n => n.applyWrites (l.filter (fun p => (m.floor p.1).map Prod.fst = some f))) := by
  induction l generalizing m with
  | nil => cases hm : m.lookup f <;> simp [Layers.applyAll, Node.applyWrites, hm]
  | cons p l ih =>
    rw [Layers.applyAll, List.foldl_cons]
    cases hp : m.floor p.1 with
    | none =>
      have hat : Layers.applyAt m p.1 p.2.type p.2.item = m := by simp [Layers.applyAt, hp]
      rw [hat]
      refine (ih m).trans ?_
      simp [hp]
    | some q =>
      obtain ⟨g, n⟩ := q
      have hg := SortedMap.mem_entries.mp (SortedMap.floor_mem hp)
      rw [applyAt_eq hp]
      refine (ih _).trans ?_
      have hfst (x : Bytes) : ((m.insert g (n.apply p.2.type p.1 p.2.item)).floor x).map Prod.fst =
          (m.floor x).map Prod.fst := by
        apply SortedMap.floor_fst_congr
        intro y
        by_cases hy : y = g
        · simp [hy, hg]
        · simp [SortedMap.lookup_insert_of_ne _ _ hy]
      simp only [hfst]
      by_cases hf : f = g
      · subst hf
        simp [hg, hp, Node.applyWrites]
      · have hne : ¬ g = f := Ne.symm hf
        simp [SortedMap.lookup_insert_of_ne _ _ hf, hp, hne]

theorem absorb_bare (n : Node) (txs : List Txn) :
    (n.absorb txs).bare = n.bare.applyWrites (txs.map (fun txn => (txn.key, txn.write))) := by
  induction txs generalizing n with
  | nil => rfl
  | cons txn txs ih =>
    rw [absorb_cons, ih]
    by_cases ht : 0 < txn.txnId
    · simp [Node.absorb, ht, Node.applyWrites, Txn.write]
      rfl
    · simp [Node.absorb, ht, Node.applyWrites, Txn.write]

theorem Embeds.atoms_perm (h : Embeds s L) {f : Bytes} (hr : RouteOf s L k f id n) (t : TxnId) :
    ((atomsAt s (s.groups t).chain id).map (fun txn => (txn.key, txn.write))).Perm
      ((L.writesOf t).filter (fun p => (L.nodes.floor p.1).map Prod.fst = some f)) := by
  have haddr {a b : Addr} {x y : Txn} (ha : s.txns a = some x) (hb : s.txns b = some y) (hn : x.node = y.node)
      (hk : x.key = y.key) : a = b := by
    obtain ⟨m, hm, hma⟩ := h.tidy.atom a x ha
    obtain ⟨m', hm', hmb⟩ := h.tidy.atom b y hb
    rw [hn, hm'] at hm
    rw [hk, ← Option.some.inj hm, hmb] at hma
    exact (Option.some.inj hma).symm
  apply (List.perm_ext_iff_of_nodup ?_ ?_).mpr
  · rintro ⟨k', w⟩
    simp only [List.mem_map, h.tidy.mem_atomsAt, Layers.writesOf, List.mem_filter, SortedMap.mem_entries,
      decide_eq_true_eq]
    obtain ⟨f', id', m, hr'⟩ := h.route k'
    rw [hr'.layer]
    constructor
    · rintro ⟨txn, ⟨ht, rfl, a, ha⟩, heq⟩
      obtain ⟨rfl, rfl⟩ := Prod.mk.inj heq
      obtain ⟨m', hm', hlock⟩ := h.tidy.atom a txn ha
      have hroute := h.tidy.indexed.txn a txn m' ha hm'
      have hp := h.pending txn.key
      rw [pendingAt_eq hroute hm', hlock, Option.bind_some, ha, Option.map_some] at hp
      refine ⟨⟨hp, ht⟩, ?_⟩
      obtain ⟨g, hg⟩ := hroute
      have hgf := (h.lookup_node hr g).mp (SortedMap.mem_entries.mp (SortedMap.floor_mem hg))
      rw [hr'.root] at hg
      rw [Option.map_some, ← hgf]
      exact congrArg some (congrArg Prod.fst (Option.some.inj hg))
    · rintro ⟨⟨hp, ht⟩, hf⟩
      rcases h.lock_cases hr' with ⟨-, hnone⟩ | ⟨a, txn, hlock, ha, hp'⟩
      · rw [hp] at hnone
        exact absurd hnone (by simp)
      · obtain rfl : w = txn.write := Option.some.inj (hp.symm.trans hp')
        obtain ⟨-, -, rfl, rfl⟩ := h.tidy.indexed.lock_place ha hr'.node hlock
        refine ⟨txn, ⟨ht, ?_, a, ha⟩, rfl⟩
        obtain rfl : f' = f := Option.some.inj hf
        have hroot := SortedMap.mem_entries.mp (SortedMap.floor_mem hr'.root)
        have hroot' := SortedMap.mem_entries.mp (SortedMap.floor_mem hr.root)
        exact Option.some.inj (hroot.symm.trans hroot')
  · apply List.Nodup.map_on
    · intro x hx y hy hxy
      obtain ⟨-, hxn, a, ha⟩ := h.tidy.mem_atomsAt.mp hx
      obtain ⟨-, hyn, b, hb⟩ := h.tidy.mem_atomsAt.mp hy
      have hab := haddr ha hb (hxn.trans hyn.symm) (congrArg Prod.fst hxy)
      rw [hab, hb] at ha
      exact (Option.some.inj ha).symm
    · apply List.Nodup.filter
      apply List.Nodup.filterMap _ (h.tidy.group t).nodup
      intro a b x ha hb
      exact haddr ha hb rfl rfl
  · apply List.Nodup.filter
    apply List.Nodup.filter
    exact L.pending.sorted.imp (fun hlt hc => hlt.ne (congrArg Prod.fst hc))

theorem Embeds.applies (h : Embeds s L) (t : TxnId) :
    Embeds (closed s t Node.absorb) { L.release t with nodes := Layers.applyAll L.nodes (L.writesOf t) } where
  tidy := h.tidy.closed closes_absorb t
  nodes g := by
    rw [applyAll_lookup, h.nodes g]
    cases hroot : s.root.lookup g with
    | none => simp [closed, finished, hroot]
    | some id =>
      obtain ⟨n, hn, -⟩ := h.tidy.indexed.node _ (SortedMap.mem_entries.mpr hroot)
      have hself := SortedMap.floor_self (SortedMap.mem_entries.mpr hroot)
      obtain ⟨f, id', m, hr⟩ := h.route g
      rw [hr.root] at hself
      obtain ⟨rfl, rfl⟩ := Prod.mk.inj (Option.some.inj hself)
      obtain rfl : m = n := Option.some.inj (hr.node.symm.trans hn)
      have hperm := applyWrites_perm m.bare (h.atoms_perm hr t) (by
        intro p hp q hq hne hc
        have hp' := (h.atoms_perm hr t).subset hp
        have hq' := (h.atoms_perm hr t).subset hq
        simp only [Layers.writesOf, List.mem_filter] at hp' hq'
        have h₁ := SortedMap.mem_entries.mp (show (p.1, p.2) ∈ L.pending.entries from hp'.1.1)
        have h₂ := SortedMap.mem_entries.mp (show (q.1, q.2) ∈ L.pending.entries from hq'.1.1)
        rw [hc, h₂] at h₁
        exact hne (Prod.ext hc (Option.some.inj h₁).symm))
      simp [closed, finished, hroot, hr.node, absorb_bare, hperm]
  pending k := h.closed_pending closes_absorb t k
  ended := congrArg (t :: ·) h.ended

/-! ### Balancing -/

theorem Tidy.pendingAt_eq_some (h : Tidy s) : pendingAt s k = some txn ↔ ∃ a, s.txns a = some txn ∧ txn.key = k := by
  constructor
  · intro hp
    rw [pendingAt, Option.bind_eq_some_iff] at hp
    obtain ⟨⟨id, n⟩, hl, hp⟩ := hp
    rw [Option.bind_eq_some_iff] at hp
    obtain ⟨a, hk, ha⟩ := hp
    exact ⟨a, ha, (h.indexed.lock_place ha (nodeLookup_eq_some hl).2 hk).2.2.1⟩
  · rintro ⟨a, ha, rfl⟩
    obtain ⟨n, hn, hk⟩ := h.atom a txn ha
    rw [pendingAt_eq (h.indexed.txn a txn n ha hn) hn, hk, Option.bind_some, ha]

theorem nodeEntries_contents (h : Indexed s) (hn : s.nodes id = some n) : nodeEntries s n 0 = n.bare.contents := by
  simp only [nodeEntries, nodeIterOpen, txnIter, memIter, if_true, ownEntries_zero h hn, Option.bind_some]
  cases hb : blkIter n [] false with
  | none =>
    have hb' : blkIter n.bare [] false = none := hb
    simp [Node.contents, hb']
  | some it =>
    have hb' : blkIter n.bare [] false = some it := hb
    rw [Node.contents, hb']
    rfl

def bareAt (s : State) (id : NodeId) : Node := ((s.nodes id).map Node.bare).getD (Node.alloc none)

theorem Embeds.entries (h : Embeds s L) : L.nodes.entries = s.root.entries.map (fun p => (p.1, bareAt s p.2)) := by
  let m : SortedMap Bytes Node :=
    { entries := s.root.entries.map (fun p => (p.1, bareAt s p.2)), sorted := List.pairwise_map.mpr s.root.sorted }
  have hm : L.nodes = m := by
    apply SortedMap.ext_lookup
    intro f
    ext n
    rw [← SortedMap.mem_entries (m := m), h.nodes f]
    simp only [m, List.mem_map, Prod.mk.injEq]
    constructor
    · intro hf
      rw [Option.bind_eq_some_iff] at hf
      obtain ⟨id, hid, hn⟩ := hf
      exact ⟨(f, id), SortedMap.mem_entries.mpr hid, rfl, by rw [bareAt, hn, Option.getD_some]⟩
    · rintro ⟨⟨g, id⟩, hp, rfl, hb⟩
      obtain ⟨n', hn', -⟩ := h.tidy.indexed.node _ hp
      simp only at hn'
      rw [SortedMap.mem_entries.mp hp]
      simpa [bareAt, hn'] using hb
  rw [hm]

theorem blocks_eq (h : Indexed s) (es : List (Bytes × NodeId)) (hes : ∀ p ∈ es, p ∈ s.root.entries) :
    Layers.blocks (es.map (fun p => (p.1, bareAt s p.2))) = (balanceNodes s (es.map Prod.snd)).map Prod.snd := by
  induction es with
  | nil => rfl
  | cons p es ih =>
    have ih := ih (fun q hq => hes q (List.mem_cons_of_mem _ hq))
    obtain ⟨n, hn, -⟩ := h.node p (hes p List.mem_cons_self)
    have hbare : bareAt s p.2 = n.bare := by simp [bareAt, hn]
    have hreq : requiresBalance n.bare ↔ requiresBalance n := Iff.rfl
    simp only [List.map_cons, Layers.blocks, balanceNodes, hn, Option.bind_some, hbare, hreq]
    by_cases hb : requiresBalance n
    · rw [if_pos hb, if_pos hb, nodeBalance, nodeEntries_contents h hn, ih]
      cases n.bare.contents.bind cutBlocks with
      | none => rfl
      | some bs => cases balanceNodes s (es.map Prod.snd) <;> rfl
    · rw [if_neg hb, if_neg hb, ih]

theorem foldl_insert_blocks (bs : List Bucket) (hnd : (bs.map firstKey).Nodup) (m : SortedMap Bytes Node)
    (f : Bytes) (n : Node) :
    (bs.foldl (fun m b => m.insert (firstKey b) (Node.alloc (some b))) m).lookup f = some n ↔
      (m.lookup f = some n ∧ f ∉ bs.map firstKey) ∨ ∃ b ∈ bs, firstKey b = f ∧ n = Node.alloc (some b) := by
  induction bs generalizing m with
  | nil => simp
  | cons b bs ih =>
    rw [List.map_cons, List.nodup_cons] at hnd
    rw [List.foldl_cons, ih hnd.2, SortedMap.lookup_insert]
    by_cases hf : f = firstKey b
    · subst hf
      have hnot (b' : Bucket) (hb' : b' ∈ bs) : firstKey b' ≠ firstKey b := fun hc =>
        hnd.1 (hc ▸ List.mem_map_of_mem hb')
      rw [if_pos rfl]
      constructor
      · rintro (⟨hn, -⟩ | ⟨b', hb', hk, -⟩)
        · exact Or.inr ⟨b, List.mem_cons_self, rfl, (Option.some.inj hn).symm⟩
        · exact absurd hk (hnot b' hb')
      · rintro (⟨-, hc⟩ | ⟨b', hb', hk, rfl⟩)
        · exact absurd (List.mem_cons_self) hc
        · rcases List.mem_cons.mp hb' with rfl | hb'
          · exact Or.inl ⟨rfl, hnd.1⟩
          · exact absurd hk (hnot b' hb')
    · simp [hf, Ne.symm hf]

/-- A balance that frees no lock and leaves a node. -/
structure BalanceOk (s : State) : Prop where
  leaves : ∃ p ∈ s.root.entries, leavesNode s p.2 = true
  unlocked : ∀ p ∈ s.root.entries, ∀ n, s.nodes p.2 = some n → requiresBalance n → n.txnLocks.entries = []

theorem Tidy.exchanged (h : Tidy s) {rm : List NodeId} {ls : List (List (Bytes × Bytes))} (hc : Cut s rm ls)
    (hx : Exchanged s rm ls s') (hne : s'.root.entries ≠ [])
    (hun : ∀ id ∈ rm, ∀ n, s.nodes id = some n → n.txnLocks.entries = []) :
    Tidy s' ∧ s'.txns = s.txns := by
  have hfree (id : NodeId) (hid : id ∈ rm) (n : Node) (hn : s.nodes id = some n) (k : Bytes) :
      n.txnLocks.lookup k = none := by
    rw [SortedMap.lookup_eq_none, hun id hid n hn]
    simp
  have htxns : s'.txns = s.txns := by
    funext a
    ext txn
    rw [hx.txns a txn]
    constructor
    · exact fun ha => ha.1
    · intro ha
      refine ⟨ha, ?_⟩
      rintro ⟨id, hid, n, k, hn, hk⟩
      rw [hfree id hid n hn k] at hk
      exact absurd hk (by simp)
  have hnode {id : NodeId} {n : Node} (hn : s'.nodes id = some n) :
      s.nodes id = some n ∨ ∃ l, n = Node.alloc (some (encode l)) := by
    by_cases hid : id < s.nextNode
    · rw [hx.kept id hid] at hn
      split_ifs at hn
      exact Or.inl hn
    · obtain ⟨i, rfl⟩ := Nat.exists_eq_add_of_le (Nat.not_lt.mp hid)
      rw [hx.added i, Option.map_eq_some_iff] at hn
      obtain ⟨l, -, rfl⟩ := hn
      exact Or.inr ⟨l, rfl⟩
  refine ⟨⟨hx.indexed h.indexed hc hne, by rw [hx.frame, h.txnq], by rw [hx.frame, h.dirtyq],
    by rw [hx.frame, h.rmNodes], by rw [hx.frame, h.addNodes], ?_, ?_, ?_⟩, htxns⟩
  · intro id n hn
    rcases hnode hn with hn | ⟨l, rfl⟩
    · exact h.commitq id n hn
    · rfl
  · intro a txn ha
    rw [htxns] at ha
    obtain ⟨n, hn, hk⟩ := h.atom a txn ha
    have hid : txn.node ∉ rm := by
      intro hc
      rw [hfree _ hc n hn] at hk
      exact absurd hk (by simp)
    exact ⟨n, by rw [hx.kept _ (h.indexed.freshNode _ n hn), if_neg hid, hn], hk⟩
  · intro t
    have hgroups : s'.groups = s.groups := by rw [hx.frame]
    refine ⟨by rw [hgroups]; exact (h.group t).nodup, by rw [hgroups]; exact (h.group t).tail, ?_⟩
    intro a
    rw [hgroups, htxns]
    exact (h.group t).mem a

/-- What a balance that frees no lock and leaves a node does to a tidy object. -/
theorem Tidy.balanced (h : Tidy s) (hok : BalanceOk s) {s₁ : State} (hb : objectBalance s = some s₁) :
    ∃ rm ls s', balanceNodes s (s.root.entries.map Prod.snd) = some (rm, ls.map encode) ∧
      objectCommit s₁ = some s' ∧ Cut s rm ls ∧ Exchanged s rm ls s' ∧ Tidy s' ∧ s'.txns = s.txns ∧
      (∀ id ∈ rm, ∃ f, (f, id) ∈ s.root.entries) ∧
      ∀ {f id n}, (f, id) ∈ s.root.entries → s.nodes id = some n → (id ∈ rm ↔ requiresBalance n) := by
  have hstaged : Staged s := ⟨h.indexed, h.txnq ▸ Queued.nil s, h.rmNodes, h.addNodes⟩
  obtain ⟨rm, ls, s', hnodes, hcommit, hcut, hx, hrm, hreq⟩ := objectBalance_exchanges hstaged hb
  have hne := hx.nonempty h.indexed hcut hreq hok.leaves
  have hreq' {f : Bytes} {id : NodeId} {n : Node} (hf : (f, id) ∈ s.root.entries) (hn : s.nodes id = some n) :
      id ∈ rm ↔ requiresBalance n := by
    rw [hreq _ hf]
    simp [hn]
  obtain ⟨htidy, htxns⟩ := h.exchanged hcut hx hne (by
    intro id hid n hn
    obtain ⟨f, hf⟩ := hrm id hid
    exact hok.unlocked _ hf n hn ((hreq' hf hn).mp hid))
  refine ⟨rm, ls, s', hnodes, ?_, hcut, hx, htidy, htxns, hrm, hreq'⟩
  rw [hcommit, ← objectCommit_eq htidy.rmNodes htidy.addNodes]
  exact objectCommit_quiet s' htidy.txnq htidy.dirtyq htidy.rmNodes htidy.addNodes

theorem Embeds.balance (h : Embeds s L) (hok : BalanceOk s) :
    (objectBalance s).bind objectCommit = none ∧ L.balance = none ∨
      ∃ s' L', (objectBalance s).bind objectCommit = some s' ∧ L.balance = some L' ∧ Embeds s' L' := by
  have hblocks := blocks_eq h.tidy.indexed s.root.entries (fun p hp => hp)
  rw [← h.entries] at hblocks
  cases hb : objectBalance s with
  | none =>
    left
    rw [objectBalance, Option.map_eq_none_iff] at hb
    rw [hb] at hblocks
    exact ⟨rfl, by rw [Layers.balance, hblocks]; rfl⟩
  | some s₁ =>
    right
    obtain ⟨rm, ls, s', hnodes, hquiet, hcut, hx, htidy, htxns, -, hreq'⟩ := h.tidy.balanced hok hb
    rw [hnodes, Option.map_some] at hblocks
    refine ⟨s', _, by rw [Option.bind_some, hquiet], by rw [Layers.balance, hblocks, Option.map_some], htidy, ?_, ?_, ?_⟩
    · intro f
      have hkeys : (ls.map encode).map firstKey = ls.map headKey := by simp [headKey]
      ext n
      dsimp only
      rw [foldl_insert_blocks _ (hkeys ▸ hcut.headKeys_nodup), SortedMap.lookup_filter, hkeys]
      constructor
      · rintro (⟨hold, -⟩ | ⟨b, hb, hbf, rfl⟩)
        · rw [Option.filter_eq_some_iff, h.nodes f, Option.bind_eq_some_iff] at hold
          obtain ⟨⟨id, hroot, hn⟩, hlarge⟩ := hold
          rw [Option.map_eq_some_iff] at hn
          obtain ⟨m, hm, rfl⟩ := hn
          have hf := SortedMap.mem_entries.mpr hroot
          have hid : id ∉ rm := by
            rw [hreq' hf hm]
            exact of_decide_eq_true hlarge
          have hroot' := SortedMap.mem_entries.mp ((hx.root f id).mpr (Or.inl ⟨hf, hid⟩))
          rw [hroot', Option.bind_some, hx.kept id (h.tidy.indexed.freshNode id m hm), if_neg hid, hm]
          rfl
        · obtain ⟨l, hl, rfl⟩ := List.mem_map.mp hb
          obtain ⟨i, hi⟩ := List.getElem?_of_mem hl
          have hroot' := SortedMap.mem_entries.mp ((hx.root f _).mpr (Or.inr ⟨i, l, hi, hbf.symm, rfl⟩))
          rw [hroot', Option.bind_some, hx.added i, hi]
          rfl
      · intro hnew
        rw [Option.bind_eq_some_iff] at hnew
        obtain ⟨id, hroot, hn⟩ := hnew
        rcases (hx.root f id).mp (SortedMap.mem_entries.mpr hroot) with ⟨hf, hid⟩ | ⟨i, l, hl, rfl, rfl⟩
        · obtain ⟨m, hm, -⟩ := h.tidy.indexed.node _ hf
          simp only at hm
          rw [hx.kept id (h.tidy.indexed.freshNode id m hm), if_neg hid, hm, Option.map_some] at hn
          left
          constructor
          · rw [Option.filter_eq_some_iff, h.nodes f, SortedMap.mem_entries.mp hf, Option.bind_some, hm]
            refine ⟨hn, ?_⟩
            have hsmall : ¬ requiresBalance m := mt (hreq' hf hm).mpr hid
            rw [← Option.some.inj hn]
            exact decide_eq_true hsmall
          · intro hc
            obtain ⟨l, hl, rfl⟩ := List.mem_map.mp hc
            exact hcut.headKey_new hl hid hf
        · rw [hx.added i, hl, Option.map_some, Option.map_some] at hn
          exact Or.inr ⟨encode l, List.mem_map_of_mem (List.mem_of_getElem? hl), rfl, (Option.some.inj hn).symm⟩
    · intro k
      have hp : pendingAt s' k = pendingAt s k := by
        ext txn
        rw [htidy.pendingAt_eq_some, h.tidy.pendingAt_eq_some, htxns]
      rw [hp]
      exact h.pending k
    · have hended : s'.ended = s.ended := by rw [hx.frame]
      rw [hended]
      exact h.ended

/-! ### Scans -/

def writeAt (s : State) (a : Addr) : Write := ((s.txns a).map Txn.write).getD ⟨0, .insert, ⟨[], false⟩⟩

theorem Embeds.locksOf_eq (h : Embeds s L) {f : Bytes} (hf : (f, id) ∈ s.root.entries) (hn : s.nodes id = some n) :
    L.locksOf f = n.txnLocks.entries.map (fun p => (p.1, writeAt s p.2)) := by
  let m : SortedMap Bytes Write :=
    { entries := n.txnLocks.entries.map (fun p => (p.1, writeAt s p.2))
      sorted := List.pairwise_map.mpr n.txnLocks.sorted }
  let m' : SortedMap Bytes Write := L.pending.filter (fun p => (L.nodes.floor p.1).map Prod.fst = some f)
  have hm : m' = m := by
    apply SortedMap.ext_lookup
    intro k
    ext w
    rw [← SortedMap.mem_entries (m := m), ← SortedMap.mem_entries (m := m')]
    simp only [m, m', SortedMap.filter, List.mem_filter, List.mem_map, Prod.mk.injEq, SortedMap.mem_entries,
      decide_eq_true_eq]
    obtain ⟨f', id', n', hr⟩ := h.route k
    rw [hr.layer]
    have hsame : f' = f → id' = id := by
      rintro rfl
      have hroot := SortedMap.mem_entries.mp (SortedMap.floor_mem hr.root)
      exact Option.some.inj (hroot.symm.trans (SortedMap.mem_entries.mp hf))
    constructor
    · rintro ⟨hp, hff⟩
      obtain rfl := hsame (Option.some.inj hff)
      obtain rfl : n' = n := Option.some.inj (hr.node.symm.trans hn)
      rcases h.lock_cases hr with ⟨-, hnone⟩ | ⟨a, txn, hlock, ha, hp'⟩
      · rw [hp] at hnone
        exact absurd hnone (by simp)
      · refine ⟨(k, a), SortedMap.mem_entries.mpr hlock, rfl, ?_⟩
        rw [hp] at hp'
        simp [writeAt, ha, Option.some.inj hp']
    · rintro ⟨⟨k', a⟩, hmem, rfl, rfl⟩
      have hlock := SortedMap.mem_entries.mp hmem
      obtain ⟨txn, ha, -, -, rfl, rfl⟩ := h.tidy.indexed.lock id n _ a hn hlock
      have hroute := h.tidy.indexed.txn a txn n ha hn
      have hp := h.pending txn.key
      rw [pendingAt_eq hroute hn, hlock, Option.bind_some, ha, Option.map_some] at hp
      refine ⟨by simp [writeAt, ha, hp], ?_⟩
      have hfloor := h.tidy.indexed.floor_of_routes hf hroute
      rw [hr.root] at hfloor
      rw [Option.map_some]
      exact congrArg some (congrArg Prod.fst (Option.some.inj hfloor))
  exact congrArg SortedMap.entries hm

theorem ownEntries_eq (s : State) (t : TxnId) (l : List (Bytes × Addr)) (hl : ∀ p ∈ l, s.txns p.2 ≠ none) :
    ownEntries s t l = Layers.own t (l.map (fun p => (p.1, writeAt s p.2))) := by
  rw [ownEntries, Layers.own, List.filterMap_map]
  apply List.filterMap_congr
  intro p hp
  cases ha : s.txns p.2 with
  | none => exact absurd ha (hl p hp)
  | some txn => simp [writeAt, ha, Txn.write]

theorem Embeds.lock_live (h : Embeds s L) (hn : s.nodes id = some n) {p : Bytes × Addr} (hp : p ∈ n.txnLocks.entries) :
    s.txns p.2 ≠ none := by
  obtain ⟨txn, ha, -⟩ := h.tidy.indexed.lock id n p.1 p.2 hn (SortedMap.mem_entries.mp hp)
  simp [ha]

theorem Embeds.ownEntries_locksOf (h : Embeds s L) {f : Bytes} (hf : (f, id) ∈ s.root.entries)
    (hn : s.nodes id = some n) : ownEntries s t n.txnLocks.entries = Layers.own t (L.locksOf f) := by
  rw [h.locksOf_eq hf hn, ownEntries_eq s t n.txnLocks.entries (fun p hp => h.lock_live hn hp)]

theorem Embeds.iterOpen (h : Embeds s L) {f key : Bytes} {includeKey : Bool} {seek : Nat}
    (hf : (f, id) ∈ s.root.entries) (hn : s.nodes id = some n) :
    nodeIterOpen s n t key includeKey seek = L.iterOpen (f, n.bare) t key includeKey seek := by
  have hdrop := ownEntries_eq s t (n.txnLocks.entries.drop seek) (fun p hp => h.lock_live hn (List.mem_of_mem_drop hp))
  rw [nodeIterOpen, Layers.iterOpen, txnIter, h.ownEntries_locksOf hf hn, hdrop, List.map_drop, ← h.locksOf_eq hf hn]
  rfl

theorem Embeds.scanNodes (h : Embeds s L) {includeKey : Bool} {seek : Nat} {es : List (Bytes × NodeId)}
    (hes : ∀ p ∈ es, p ∈ s.root.entries) (key : Bytes) (count : Nat) :
    SSet.scanNodes s t includeKey seek (es.map Prod.snd) key count =
      L.scanNodes t includeKey seek (es.map (fun p => (p.1, bareAt s p.2))) key count := by
  induction es generalizing key count with
  | nil => cases count <;> simp [SSet.scanNodes, Layers.scanNodes]
  | cons p es ih =>
    cases count with
    | zero => simp [SSet.scanNodes, Layers.scanNodes]
    | succ count =>
      have hp := hes p List.mem_cons_self
      obtain ⟨n, hn, -⟩ := h.tidy.indexed.node p hp
      have hbare : bareAt s p.2 = n.bare := by simp [bareAt, hn]
      have ih := ih (fun q hq => hes q (List.mem_cons_of_mem _ hq))
      simp only [List.map_cons, SSet.scanNodes, Layers.scanNodes, hn, Option.bind_some, hbare, h.iterOpen hp hn, ih]

/-- The nodes that a scan visits. -/
theorem Embeds.scanStart_eq (h : Embeds s L) (key : Bytes) : ∃ es : List (Bytes × NodeId), (∀ p ∈ es, p ∈ s.root.entries) ∧
    SSet.scanStart s key = es.map Prod.snd ∧ L.scanStart key = es.map (fun p => (p.1, bareAt s p.2)) := by
  rw [SSet.scanStart, Layers.scanStart, h.entries]
  by_cases hk : key = []
  · exact ⟨s.root.entries, fun p hp => hp, if_pos hk, if_pos hk⟩
  · have htake : (((s.root.entries.map (fun p => (p.1, bareAt s p.2))).takeWhile
        (fun p => decide (p.1 ≤ key))).length) = (s.root.entries.takeWhile (fun p => decide (p.1 ≤ key))).length := by
      rw [List.takeWhile_map, List.length_map]
      rfl
    rw [if_neg hk, if_neg hk, htake, ← List.map_drop]
    exact ⟨_, fun p hp => List.mem_of_mem_drop hp, rfl, rfl⟩

theorem Embeds.scan (h : Embeds s L) (key : Bytes) (includeKey : Bool) (count seek : Nat) :
    SSet.scan s t key includeKey count seek = L.scanNodes t includeKey seek (L.scanStart key) key count := by
  obtain ⟨es, hes, hs, hL⟩ := h.scanStart_eq key
  rw [SSet.scan, hs, hL, h.scanNodes hes]

end RaleighSL.Objects.SSet
