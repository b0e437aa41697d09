import RaleighSL.Objects.SSet.Transactions

/-!
# Rollback

A run with the requests of a transaction is compared with the run without them.
As long as the others write other keys, the two objects have the same nodes and
differ in the pending writes of the transaction only. Its revert takes these away.
-/
namespace RaleighSL.Objects.SSet
open RaleighSL.Core RaleighSL.Library RaleighSL.Zcl

/-- The transaction that makes a request, zero for nobody. -/
def Request.user : Request → TxnId
  | .insert t _ _ _ => t
  | .update t _ _ => t
  | .remove t _ => t
  | .get t _ => t
  | .scan t _ _ _ _ => t
  | .apply t => t
  | .revert t => t
  | .balance => 0

def Request.isScan : Request → Bool
  | .scan _ _ _ _ _ => true
  | _ => false

/-- The second layers are the first ones without the pending writes of a transaction, which are to
keys of a given set. -/
structure Without (t : TxnId) (K : Bytes → Prop) (L L' : Layers) : Prop where
  nodes : L'.nodes = L.nodes
  pending : ∀ k, L'.pending.lookup k = (L.pending.lookup k).filter (fun w => w.txnId ≠ t)
  ended : L'.ended = L.ended
  keys : ∀ k w, L.pending.lookup k = some w → w.txnId = t → K k

variable {s s' s₁ : State} {L L' L₁ : Layers} {t t' : TxnId} {K : Bytes → Prop} {k v : Bytes} {r : Request}
  {e : Response} {type : TxnType} {item : MapItem} {u : Bool}

theorem Without.lookup (h : Without t K L L') (hk : ¬ K k) : L'.pending.lookup k = L.pending.lookup k := by
  rw [h.pending k]
  cases hw : L.pending.lookup k with
  | none => rfl
  | some w =>
    have hne : w.txnId ≠ t := fun hc => hk (h.keys k w hw hc)
    simp [Option.filter_some, hne]

/-! ### Requests of the transaction itself -/

theorem Layers.write_nodes (ht : t ≠ 0) : (L.write t type k item).nodes = L.nodes := by
  simp [Layers.write, ht]

theorem Layers.serve_nodes (hu : r.user ≠ 0) (hends : r.ends = none) (h : L.serve r = some (L₁, e)) :
    L₁.nodes = L.nodes := by
  have hsame (h : some (L, Response.code .txnNotFound none) = some (L₁, e)) : L₁.nodes = L.nodes := by
    obtain ⟨rfl, -⟩ := Prod.mk.inj (Option.some.inj h)
    rfl
  cases r with
  | insert t u k v =>
    simp only [Layers.serve] at h
    split_ifs at h
    · exact hsame h
    · rw [Layers.insert, Option.bind_eq_some_iff] at h
      obtain ⟨p, -, h⟩ := h
      split at h
      · split_ifs at h
        · obtain ⟨rfl, -⟩ := Prod.mk.inj (Option.some.inj h)
          rfl
        · obtain ⟨rfl, -⟩ := Prod.mk.inj (Option.some.inj h)
          rfl
      · split_ifs at h
        · obtain ⟨rfl, -⟩ := Prod.mk.inj (Option.some.inj h)
          rfl
        · obtain ⟨rfl, -⟩ := Prod.mk.inj (Option.some.inj h)
          exact Layers.write_nodes hu
  | update t k v =>
    simp only [Layers.serve] at h
    split_ifs at h
    · exact hsame h
    · rw [Layers.update, Option.bind_eq_some_iff] at h
      obtain ⟨p, -, h⟩ := h
      split at h
      · split_ifs at h
        obtain ⟨rfl, -⟩ := Prod.mk.inj (Option.some.inj h)
        rfl
      · split at h
        · obtain ⟨rfl, -⟩ := Prod.mk.inj (Option.some.inj h)
          rfl
        · rw [if_neg (show t ≠ 0 from hu)] at h
          exact absurd h (by simp)
  | remove t k =>
    simp only [Layers.serve] at h
    split_ifs at h
    · exact hsame h
    · rw [Layers.remove, Option.bind_eq_some_iff] at h
      obtain ⟨p, -, h⟩ := h
      split at h
      · split_ifs at h
        obtain ⟨rfl, -⟩ := Prod.mk.inj (Option.some.inj h)
        rfl
      · split at h
        · obtain ⟨rfl, -⟩ := Prod.mk.inj (Option.some.inj h)
          rfl
        · obtain ⟨rfl, -⟩ := Prod.mk.inj (Option.some.inj h)
          exact Layers.write_nodes hu
  | get t k =>
    simp only [Layers.serve] at h
    split_ifs at h
    · exact hsame h
    · rw [Option.map_eq_some_iff] at h
      obtain ⟨c, -, heq⟩ := h
      rw [← (Prod.mk.inj heq).1]
  | scan t key i count seek =>
    simp only [Layers.serve] at h
    split_ifs at h
    · exact hsame h
    · rw [Option.map_eq_some_iff] at h
      obtain ⟨c, -, heq⟩ := h
      rw [← (Prod.mk.inj heq).1]
  | apply t => simp [Request.ends] at hends
  | revert t => simp [Request.ends] at hends
  | balance => exact absurd rfl hu

theorem Request.target_user (hr : r.target = some (t, k)) : r.user = t := by
  cases r with
  | insert t' u k' v => exact (Prod.mk.inj (Option.some.inj hr)).1
  | update t' k' v => exact (Prod.mk.inj (Option.some.inj hr)).1
  | remove t' k' => exact (Prod.mk.inj (Option.some.inj hr)).1
  | _ => simp [Request.target] at hr

theorem Request.ends_user (hr : r.ends = some t) : r.user = t := by
  cases r with
  | apply t' => exact Option.some.inj hr
  | revert t' => exact Option.some.inj hr
  | _ => simp [Request.ends] at hr

theorem Without.own (h : Without t K L L') (ht : t ≠ 0) (hu : r.user = t) (hends : r.ends ≠ some t)
    (hK : ∀ k, r.target = some (t, k) → K k) (hserve : L.serve r = some (L₁, e)) : Without t K L₁ L' := by
  have hnone : r.ends = none := by
    cases hr : r.ends with
    | none => rfl
    | some t' =>
      rw [hr, ← Request.ends_user hr, hu] at hends
      exact absurd rfl hends
  have hnodes := Layers.serve_nodes (hu ▸ ht) hnone hserve
  cases Layers.serve_pending hserve with
  | adds t' k w ht' hend hr he hk hL =>
    obtain ⟨htarget, -, hw⟩ := Request.writes_target hr
    have htt : t' = t := (Request.target_user htarget).symm.trans hu
    subst hL
    refine ⟨h.nodes, ?_, h.ended, ?_⟩
    · intro k'
      rw [h.pending k']
      by_cases hkk : k' = k
      · rw [hkk, hk, SortedMap.lookup_insert_self]
        simp [Option.filter_some, hw, htt]
      · rw [SortedMap.lookup_insert_of_ne _ _ hkk]
    · intro k' w' hw' ht''
      by_cases hkk : k' = k
      · rw [hkk]
        exact hK k (htt ▸ htarget)
      · rw [SortedMap.lookup_insert_of_ne _ _ hkk] at hw'
        exact h.keys k' w' hw' ht''
  | releases t' ht' hend hr hp hended =>
    rw [hnone] at hr
    exact absurd hr (by simp)
  | keeps hp hended hw hends' =>
    exact ⟨h.nodes.trans hnodes.symm, fun k => by rw [hp]; exact h.pending k, h.ended.trans hended.symm,
      fun k w hk => h.keys k w (hp ▸ hk)⟩

/-! ### Requests of the others -/

theorem Without.write (h : Without t K L L') (ht : t' ≠ t) :
    Without t K (L.write t' type k item) (L'.write t' type k item) := by
  by_cases hz : t' = 0
  · rw [Layers.write, Layers.write, if_pos hz, if_pos hz]
    exact ⟨by simp only [h.nodes], h.pending, h.ended, h.keys⟩
  · rw [Layers.write, Layers.write, if_neg hz, if_neg hz]
    refine ⟨h.nodes, ?_, h.ended, ?_⟩
    · intro k'
      by_cases hk : k' = k
      · simp [hk, Option.filter_some, ht]
      · simp only [SortedMap.lookup_insert_of_ne _ _ hk]
        exact h.pending k'
    · intro k' w hw htw
      by_cases hk : k' = k
      · rw [hk, SortedMap.lookup_insert_self] at hw
        rw [← Option.some.inj hw] at htw
        exact absurd htw ht
      · rw [SortedMap.lookup_insert_of_ne _ _ hk] at hw
        exact h.keys k' w hw htw

/-- Both layers have a result, and they are related again. -/
def Steps (t : TxnId) (K : Bytes → Prop) (L₁ : Layers) (x : Option (Layers × Response)) : Prop :=
  ∃ L₁' e', x = some (L₁', e') ∧ Without t K L₁ L₁'

theorem Without.insert (h : Without t K L L') (ht : t' ≠ t) (hk : ¬ K k) (hL : L.insert t' u k v = some (L₁, e)) :
    Steps t K L₁ (L'.insert t' u k v) := by
  rw [Layers.insert] at hL ⊢
  rw [h.nodes, h.lookup hk]
  rw [Option.bind_eq_some_iff] at hL
  obtain ⟨p, hp, hL⟩ := hL
  rw [hp, Option.bind_some]
  cases hw : L.pending.lookup k with
  | some w =>
    simp only [hw] at hL ⊢
    split_ifs at hL ⊢
    · exact ⟨L', _, rfl, (Prod.mk.inj (Option.some.inj hL)).1 ▸ h⟩
    · exact ⟨L', _, rfl, (Prod.mk.inj (Option.some.inj hL)).1 ▸ h⟩
  | none =>
    simp only [hw] at hL ⊢
    split_ifs at hL ⊢
    · exact ⟨L', _, rfl, (Prod.mk.inj (Option.some.inj hL)).1 ▸ h⟩
    · exact ⟨_, _, rfl, (Prod.mk.inj (Option.some.inj hL)).1 ▸ h.write ht⟩

theorem Without.remove (h : Without t K L L') (ht : t' ≠ t) (hk : ¬ K k) (hL : L.remove t' k = some (L₁, e)) :
    Steps t K L₁ (L'.remove t' k) := by
  rw [Layers.remove] at hL ⊢
  rw [h.nodes, h.lookup hk]
  rw [Option.bind_eq_some_iff] at hL
  obtain ⟨p, hp, hL⟩ := hL
  rw [hp, Option.bind_some]
  cases hw : L.pending.lookup k with
  | some w =>
    simp only [hw] at hL ⊢
    split_ifs at hL ⊢
    exact ⟨L', _, rfl, (Prod.mk.inj (Option.some.inj hL)).1 ▸ h⟩
  | none =>
    simp only [hw] at hL ⊢
    cases hs : p.2.search k with
    | none =>
      simp only [hs] at hL ⊢
      exact ⟨L', _, rfl, (Prod.mk.inj (Option.some.inj hL)).1 ▸ h⟩
    | some old =>
      simp only [hs] at hL ⊢
      exact ⟨_, _, rfl, (Prod.mk.inj (Option.some.inj hL)).1 ▸ h.write ht⟩

theorem Without.update (h : Without t K L L') (ht : t' ≠ t) (hk : ¬ K k) (hL : L.update t' k v = some (L₁, e)) :
    Steps t K L₁ (L'.update t' k v) := by
  rw [Layers.update] at hL ⊢
  rw [h.nodes, h.lookup hk]
  rw [Option.bind_eq_some_iff] at hL
  obtain ⟨p, hp, hL⟩ := hL
  rw [hp, Option.bind_some]
  cases hw : L.pending.lookup k with
  | some w =>
    simp only [hw] at hL ⊢
    split_ifs at hL ⊢
    exact ⟨L', _, rfl, (Prod.mk.inj (Option.some.inj hL)).1 ▸ h⟩
  | none =>
    simp only [hw] at hL ⊢
    cases hs : p.2.search k with
    | none =>
      simp only [hs] at hL ⊢
      exact ⟨L', _, rfl, (Prod.mk.inj (Option.some.inj hL)).1 ▸ h⟩
    | some old =>
      simp only [hs] at hL ⊢
      split_ifs at hL ⊢ with hz
      refine ⟨_, _, rfl, (Prod.mk.inj (Option.some.inj hL)).1 ▸ ?_⟩
      exact (h.write (hz ▸ ht)).write (hz ▸ ht)

theorem Without.writesOf (h : Without t K L L') (ht : t' ≠ t) : L'.writesOf t' = L.writesOf t' := by
  apply SortedMap.list_ext (L'.writesOf_sorted t') (L.writesOf_sorted t')
  intro k w
  rw [Layers.mem_writesOf, Layers.mem_writesOf, h.pending k]
  constructor
  · rintro ⟨hw, htw⟩
    exact ⟨(Option.filter_eq_some_iff.mp hw).1, htw⟩
  · rintro ⟨hw, htw⟩
    refine ⟨Option.filter_eq_some_iff.mpr ⟨hw, ?_⟩, htw⟩
    rw [htw]
    simpa using ht

theorem Without.release (h : Without t K L L') (t' : TxnId) : Without t K (L.release t') (L'.release t') where
  nodes := h.nodes
  pending k := by
    rw [Layers.release_lookup, Layers.release_lookup, h.pending k, Option.filter_filter, Option.filter_filter]
    congr 1
    funext w
    rw [Bool.and_comm]
  ended := by rw [Layers.release, Layers.release, h.ended]
  keys k w hw := by
    rw [Layers.release_lookup, Option.filter_eq_some_iff] at hw
    exact h.keys k w hw.1

theorem Without.other (h : Without t K L L') (hu : r.user ≠ t) (hK : ∀ t' k, r.target = some (t', k) → ¬ K k)
    (hscan : r.isScan = false) (hL : L.serve r = some (L₁, e)) : Steps t K L₁ (L'.serve r) := by
  have hsame {c : Response} (hL : some (L, c) = some (L₁, e)) : Steps t K L₁ (some (L', c)) := by
    obtain ⟨rfl, -⟩ := Prod.mk.inj (Option.some.inj hL)
    exact ⟨L', c, rfl, h⟩
  cases r with
  | insert t' u k v =>
    simp only [Layers.serve, h.ended] at hL ⊢
    split_ifs at hL ⊢
    · exact hsame hL
    · exact h.insert hu (hK t' k rfl) hL
  | update t' k v =>
    simp only [Layers.serve, h.ended] at hL ⊢
    split_ifs at hL ⊢
    · exact hsame hL
    · exact h.update hu (hK t' k rfl) hL
  | remove t' k =>
    simp only [Layers.serve, h.ended] at hL ⊢
    split_ifs at hL ⊢
    · exact hsame hL
    · exact h.remove hu (hK t' k rfl) hL
  | get t' k =>
    simp only [Layers.serve, h.ended] at hL ⊢
    split_ifs at hL ⊢
    · exact hsame hL
    · rw [Option.map_eq_some_iff] at hL
      obtain ⟨c, hc, heq⟩ := hL
      obtain ⟨rfl, -⟩ := Prod.mk.inj heq
      rw [Layers.get, Option.map_eq_some_iff] at hc
      obtain ⟨p, hp, -⟩ := hc
      exact ⟨L', _, by rw [Layers.get, h.nodes, hp]; rfl, h⟩
  | scan t' key i count seek => simp [Request.isScan] at hscan
  | apply t' =>
    simp only [Layers.serve, h.ended] at hL ⊢
    split_ifs at hL ⊢
    · exact hsame hL
    · obtain ⟨rfl, -⟩ := Prod.mk.inj (Option.some.inj hL)
      have hr := h.release t'
      have hwrites := h.writesOf (show t' ≠ t from hu)
      exact ⟨_, _, rfl, by rw [h.nodes, hwrites], hr.pending, hr.ended, hr.keys⟩
  | revert t' =>
    simp only [Layers.serve, h.ended] at hL ⊢
    split_ifs at hL ⊢
    · exact hsame hL
    · obtain ⟨rfl, -⟩ := Prod.mk.inj (Option.some.inj hL)
      exact ⟨_, _, rfl, h.release t'⟩
  | balance =>
    simp only [Layers.serve, Option.map_eq_some_iff] at hL
    obtain ⟨L₂, hb, heq⟩ := hL
    obtain ⟨rfl, -⟩ := Prod.mk.inj heq
    rw [Layers.balance, Option.map_eq_some_iff] at hb
    obtain ⟨bs, hbs, rfl⟩ := hb
    set m := bs.foldl (fun m b => m.insert (firstKey b) (Node.alloc (some b)))
      (L.nodes.filter (fun p => ¬ requiresBalance p.2)) with hm
    have hL' : L'.serve .balance = some ({ nodes := m, pending := L'.pending, ended := L'.ended },
        .code .none none) := by
      rw [Layers.serve, Layers.balance, h.nodes, hbs]
      rfl
    exact ⟨_, _, hL', rfl, h.pending, h.ended, h.keys⟩

/-! ### The two objects -/

theorem Embeds.balanceOk_iff (h : Embeds s L) : BalanceOk s ↔
    (∃ p ∈ L.nodes.entries, ¬ requiresBalance p.2 ∨ p.2.contents ≠ some []) ∧
      ∀ p ∈ L.nodes.entries, requiresBalance p.2 → L.locksOf p.1 = [] := by
  have hnode {p : Bytes × NodeId} (hp : p ∈ s.root.entries) : ∃ n, s.nodes p.2 = some n ∧ bareAt s p.2 = n.bare := by
    obtain ⟨n, hn, -⟩ := h.tidy.indexed.node p hp
    exact ⟨n, hn, by simp [bareAt, hn]⟩
  have hleaves {p : Bytes × NodeId} (hp : p ∈ s.root.entries) : leavesNode s p.2 = true ↔
      ¬ requiresBalance (bareAt s p.2) ∨ (bareAt s p.2).contents ≠ some [] := by
    obtain ⟨n, hn, hb⟩ := hnode hp
    have hreq : requiresBalance n.bare ↔ requiresBalance n := Iff.rfl
    rw [leavesNode, hn, hb, hreq, ← nodeEntries_contents h.tidy.indexed hn]
    simp
  have hlocks {p : Bytes × NodeId} (hp : p ∈ s.root.entries) :
      (∀ n, s.nodes p.2 = some n → requiresBalance n → n.txnLocks.entries = []) ↔
        (requiresBalance (bareAt s p.2) → L.locksOf p.1 = []) := by
    obtain ⟨n, hn, hb⟩ := hnode hp
    have hreq : requiresBalance n.bare ↔ requiresBalance n := Iff.rfl
    rw [h.locksOf_eq hp hn, List.map_eq_nil_iff, hb, hreq]
    simp [hn]
  rw [h.entries]
  constructor
  · rintro ⟨⟨p, hp, hl⟩, hun⟩
    refine ⟨⟨_, List.mem_map_of_mem hp, (hleaves hp).mp hl⟩, ?_⟩
    intro q hq
    obtain ⟨p, hp, rfl⟩ := List.mem_map.mp hq
    exact (hlocks hp).mp (hun p hp)
  · rintro ⟨⟨q, hq, hl⟩, hun⟩
    obtain ⟨p, hp, rfl⟩ := List.mem_map.mp hq
    exact ⟨⟨p, hp, (hleaves hp).mpr hl⟩, fun p hp => (hlocks hp).mpr (hun _ (List.mem_map_of_mem hp))⟩

theorem Embeds.free_iff (h : Embeds s L) : Free s k ↔
    L.pending.lookup k = none ∧ (L.nodes.floor k).bind (fun p => p.2.search k) ≠ none := by
  obtain ⟨f, id, n, hr⟩ := h.route k
  rw [Free, h.pending k, Option.map_eq_none_iff, hr.lookup, hr.layer]
  rfl

theorem Without.lockOk (h : Without t K L L') (hs : Embeds s L) (hs' : Embeds s' L')
    (hK : ∀ t' k, r.target = some (t', k) → ¬ K k) (hok : LockOk s r) : LockOk s' r := by
  have hended : s'.ended = s.ended := by rw [← hs'.ended, ← hs.ended, h.ended]
  have howns (t' : TxnId) (k : Bytes) (hk : ¬ K k) : Owns s' t' k ↔ Owns s t' k := by
    rw [hs'.owns_iff, hs.owns_iff, h.lookup hk]
  cases r with
  | insert t' u k v =>
    rw [LockOk, hended, howns t' k (hK t' k rfl)]
    exact hok
  | update t' k v =>
    have hfree : Free s' k ↔ Free s k := by rw [hs'.free_iff, hs.free_iff, h.lookup (hK t' k rfl), h.nodes]
    rw [LockOk, hended, howns t' k (hK t' k rfl), hfree]
    exact hok
  | remove t' k =>
    rw [LockOk, hended, howns t' k (hK t' k rfl)]
    exact hok
  | balance =>
    rw [LockOk, hs'.balanceOk_iff, h.nodes]
    rw [LockOk, hs.balanceOk_iff] at hok
    refine ⟨hok.1, ?_⟩
    intro p hp hlarge
    have hnone := hok.2 p hp hlarge
    rw [Layers.locksOf, List.filter_eq_nil_iff] at hnone ⊢
    rintro ⟨k, w⟩ hw
    rw [SortedMap.mem_entries, h.pending k, Option.filter_eq_some_iff] at hw
    rw [h.nodes]
    exact hnone (k, w) (SortedMap.mem_entries.mpr hw.1)
  | _ => trivial

/-- Two objects that differ in the pending writes of a transaction. -/
def Apart (t : TxnId) (K : Bytes → Prop) (s s' : State) : Prop :=
  ∃ L L', Embeds s L ∧ Embeds s' L' ∧ Without t K L L'

theorem Apart.own (h : Apart t K s s') (ht : t ≠ 0) (hu : r.user = t) (hends : r.ends ≠ some t)
    (hK : ∀ k, r.target = some (t, k) → K k) (hok : LockOk s r) (hserve : serve s r = some (s₁, e)) :
    Apart t K s₁ s' := by
  obtain ⟨L, L', hs, hs', hw⟩ := h
  obtain ⟨L₁, hL, hs₁⟩ := hs.follows hok hserve
  exact ⟨L₁, L', hs₁, hs', hw.own ht hu hends hK hL⟩

theorem scan_unchanged {t' : TxnId} {key : Bytes} {i : Bool} {count seek : Nat}
    (h : serve s (.scan t' key i count seek) = some (s₁, e)) : s₁ = s := by
  rw [serve] at h
  split_ifs at h
  · exact (Prod.mk.inj (Option.some.inj h)).1.symm
  · rw [Option.map_eq_some_iff] at h
    obtain ⟨l, -, heq⟩ := h
    exact (Prod.mk.inj heq).1.symm

theorem Apart.other (h : Apart t K s s') (hu : r.user ≠ t) (hK : ∀ t' k, r.target = some (t', k) → ¬ K k)
    (hok : LockOk s r) (hserve : serve s r = some (s₁, e)) :
    (∀ s₁' e', serve s' r = some (s₁', e') → Apart t K s₁ s₁') ∧
      (r.isScan = false → ∃ s₁' e', serve s' r = some (s₁', e')) := by
  obtain ⟨L, L', hs, hs', hw⟩ := h
  have hok' := hw.lockOk hs hs' hK hok
  cases hscan : r.isScan with
  | true =>
    refine ⟨?_, by simp⟩
    intro s₁' e' hserve'
    cases r with
    | scan t' key i count seek =>
      rw [scan_unchanged hserve, scan_unchanged hserve']
      exact ⟨L, L', hs, hs', hw⟩
    | _ => simp [Request.isScan] at hscan
  | false =>
    obtain ⟨L₁, hL, hs₁⟩ := hs.follows hok hserve
    obtain ⟨L₁', e', hL', hw'⟩ := hw.other hu hK hscan hL
    rcases hs'.serve hok' with ⟨-, hnone⟩ | ⟨s₁', L₂, e₂, hserve', hL₂, hs₁'⟩
    · rw [hL'] at hnone
      exact absurd hnone (by simp)
    · rw [hL'] at hL₂
      obtain ⟨rfl, rfl⟩ := Prod.mk.inj (Option.some.inj hL₂)
      have hapart : Apart t K s₁ s₁' := ⟨L₁, L₁', hs₁, hs₁', hw'⟩
      refine ⟨?_, fun _ => ⟨s₁', e', hserve'⟩⟩
      intro s₂ e₂ hs₂
      rw [hserve'] at hs₂
      exact (Prod.mk.inj (Option.some.inj hs₂)).1 ▸ hapart

/-- The run with and the run without the requests of the transaction. -/
theorem Apart.run (h : Apart t K s s') (ht : t ≠ 0) {rs : List Request} (hends : ∀ r ∈ rs, r.ends ≠ some t)
    (hK : ∀ r ∈ rs, ∀ t' k, r.target = some (t', k) → (K k ↔ t' = t)) (hm : Meets serve LockOk s rs)
    {es : List Response} (he : exec serve s rs = some (s₁, es)) :
    (∀ s₁' es', exec serve s' (rs.filter (fun r => r.user ≠ t)) = some (s₁', es') → Apart t K s₁ s₁') ∧
      ((∀ r ∈ rs, r.isScan = false) →
        ∃ s₁' es', exec serve s' (rs.filter (fun r => r.user ≠ t)) = some (s₁', es')) := by
  induction rs generalizing s s' es with
  | nil =>
    obtain ⟨rfl, rfl⟩ := Prod.mk.inj (Option.some.inj he)
    refine ⟨?_, fun _ => ⟨s', [], rfl⟩⟩
    intro s₁' es' he'
    exact (Prod.mk.inj (Option.some.inj he')).1 ▸ h
  | cons r rs ih =>
    rw [exec_cons, Option.bind_eq_some_iff] at he
    obtain ⟨⟨s₂, e⟩, hserve, he⟩ := he
    rw [Option.map_eq_some_iff] at he
    obtain ⟨⟨s₃, es₃⟩, he, heq⟩ := he
    obtain ⟨rfl, rfl⟩ := Prod.mk.inj heq
    have hends' : ∀ r ∈ rs, r.ends ≠ some t := fun q hq => hends q (List.mem_cons_of_mem _ hq)
    have hK' : ∀ r ∈ rs, ∀ t' k, r.target = some (t', k) → (K k ↔ t' = t) :=
      fun q hq => hK q (List.mem_cons_of_mem _ hq)
    by_cases hu : r.user = t
    · have hown := h.own ht hu (hends r List.mem_cons_self)
        (fun k hr => (hK r List.mem_cons_self t k hr).mpr rfl) hm.1 hserve
      rw [List.filter_cons_of_neg (by simp [hu])]
      obtain ⟨h₁, h₂⟩ := ih hown hends' hK' (hm.2 s₂ e hserve) he
      exact ⟨h₁, fun hscan => h₂ (fun q hq => hscan q (List.mem_cons_of_mem _ hq))⟩
    · have hKr : ∀ t' k, r.target = some (t', k) → ¬ K k := by
        intro t' k hr hk
        exact hu ((Request.target_user hr).trans ((hK r List.mem_cons_self t' k hr).mp hk))
      obtain ⟨hstep, hdef⟩ := h.other hu hKr hm.1 hserve
      rw [List.filter_cons_of_pos (by simp [hu])]
      constructor
      · intro s₁' es' he'
        rw [exec_cons, Option.bind_eq_some_iff] at he'
        obtain ⟨⟨s₂', e'⟩, hserve', he'⟩ := he'
        rw [Option.map_eq_some_iff] at he'
        obtain ⟨⟨s₃', es₃'⟩, he', heq'⟩ := he'
        obtain ⟨rfl, rfl⟩ := Prod.mk.inj heq'
        exact (ih (hstep s₂' e' hserve') hends' hK' (hm.2 s₂ e hserve) he).1 _ _ he'
      · intro hscan
        obtain ⟨s₂', e', hserve'⟩ := hdef (hscan r List.mem_cons_self)
        obtain ⟨s₃', es₃', he'⟩ := (ih (hstep s₂' e' hserve') hends' hK' (hm.2 s₂ e hserve) he).2
          (fun q hq => hscan q (List.mem_cons_of_mem _ hq))
        exact ⟨s₃', e' :: es₃', by rw [exec_cons, hserve', Option.bind_some, he']; rfl⟩

theorem Layers.serve_open (hopen : t ∉ L.ended) (hends : r.ends ≠ some t) (h : L.serve r = some (L₁, e)) :
    t ∉ L₁.ended := by
  cases Layers.serve_pending h with
  | adds t' k w ht' hend hr he hk hL =>
    rw [hL]
    exact hopen
  | releases t' ht' hend hr hp hended =>
    have hne : t ≠ t' := fun hc => hends (hc ▸ hr)
    rw [hended, List.mem_cons, not_or]
    exact ⟨hne, hopen⟩
  | keeps hp hended hw hends' =>
    rw [hended]
    exact hopen

theorem Layers.run_open {rs : List Request} {es : List Response} (hopen : t ∉ L.ended)
    (hends : ∀ r ∈ rs, r.ends ≠ some t) (he : exec Layers.serve L rs = some (L₁, es)) : t ∉ L₁.ended := by
  have hm : Meets Layers.serve (fun _ r => r.ends ≠ some t ∧ True) L rs :=
    Meets.and_forall (meets_of_forall (fun _ _ => trivial) L rs) hends
  exact exec_invariant (I := fun L => t ∉ L.ended) (fun L r L' e h hok hserve => Layers.serve_open h hok.1 hserve)
    hopen hm he

theorem Embeds.serve_revert (h : Embeds s L) (ht : t ≠ 0) (hopen : t ∉ L.ended) :
    ∃ s', SSet.serve s (.revert t) = some (s', .code .none none) ∧ Embeds s' (L.release t) := by
  have hL : L.serve (.revert t) = some (L.release t, .code .none none) := by
    rw [Layers.serve, if_neg (by simp [ht, hopen])]
  rcases h.serve (r := .revert t) trivial with ⟨-, hnone⟩ | ⟨s', L', e, hserve, hL', hs'⟩
  · rw [hL] at hnone
    exact absurd hnone (by simp)
  · rw [hL] at hL'
    obtain ⟨rfl, rfl⟩ := Prod.mk.inj (Option.some.inj hL')
    exact ⟨s', hserve, hs'⟩

/-- With the pending writes of the transaction gone, the two objects hold the same. -/
theorem Apart.released (h : Apart t K s₁ s') (ht : t ≠ 0) (hopen : t ∉ s₁.ended)
    (hserve : serve s₁ (.revert t) = some (s, e)) (k : Bytes) : valueAt s k = valueAt s' k ∧ writeOn s k = writeOn s' k := by
  obtain ⟨L, L', hs₁, hs', hw⟩ := h
  obtain ⟨s₂, hserve', hs₂⟩ := hs₁.serve_revert ht (by rwa [hs₁.ended])
  rw [hserve] at hserve'
  obtain ⟨rfl, -⟩ := Prod.mk.inj (Option.some.inj hserve')
  constructor
  · rw [← hs₂.valueIn_eq, ← hs'.valueIn_eq, hw.nodes]
    rfl
  · rw [hs₂.writeOn, hs'.writeOn, hw.pending k, Layers.release_lookup]

/-- The revert of a transaction leaves the committed values and the pending writes of everybody else
as they are without any request of the transaction, if the others wrote other keys. -/
theorem revert_is_frame {rs₀ rs : List Request} {es₀ es : List Response} {s₀ : State}
    (hm₀ : Meets serve LockOk create rs₀) (he₀ : exec serve create rs₀ = some (s₀, es₀)) (ht : t ≠ 0)
    (hopen : t ∉ s₀.ended) (hnone : ∀ k, ¬ Owns s₀ t k) (hends : ∀ r ∈ rs, r.ends ≠ some t)
    (hkeys : ∀ r ∈ rs, ∀ r' ∈ rs, ∀ t' k, r.target = some (t, k) → r'.target = some (t', k) → t' = t)
    (hm : Meets serve LockOk s₀ rs) (he : exec serve s₀ rs = some (s₁, es)) :
    ∃ s, serve s₁ (.revert t) = some (s, .code .none none) ∧
      (∀ s' es', exec serve s₀ (rs.filter (fun r => r.user ≠ t)) = some (s', es') →
        ∀ k, valueAt s k = valueAt s' k ∧ writeOn s k = writeOn s' k) ∧
      ((∀ r ∈ rs, r.isScan = false) →
        ∃ s' es', exec serve s₀ (rs.filter (fun r => r.user ≠ t)) = some (s', es')) := by
  obtain ⟨L₀, A, hs₀, -⟩ := run_embeds hm₀ he₀
  have hnone' (k : Bytes) (w : Write) (hw : L₀.pending.lookup k = some w) : w.txnId ≠ t := by
    intro hc
    apply hnone k
    rw [hs₀.owns_iff, hw, Option.map_some, hc]
  have hstart : Apart t (fun k => ∃ r ∈ rs, r.target = some (t, k)) s₀ s₀ := by
    refine ⟨L₀, L₀, hs₀, hs₀, rfl, ?_, rfl, fun k w hw hc => absurd hc (hnone' k w hw)⟩
    intro k
    cases hw : L₀.pending.lookup k with
    | none => rfl
    | some w => simp [Option.filter_some, hnone' k w hw]
  have hK : ∀ r ∈ rs, ∀ t' k, r.target = some (t', k) → ((∃ r ∈ rs, r.target = some (t, k)) ↔ t' = t) := by
    intro r hr t' k htarget
    constructor
    · rintro ⟨r', hr', htarget'⟩
      exact hkeys r' hr' r hr t' k htarget' htarget
    · rintro rfl
      exact ⟨r, hr, htarget⟩
  obtain ⟨happart, hdefined⟩ := hstart.run ht hends hK hm he
  obtain ⟨L₁, hL₁, hs₁⟩ := exec_follows (R := Embeds) (A := Layers.serve)
    (fun s L r s' e h hok hserve => h.follows hok hserve) hs₀ hm he
  have hended : t ∉ L₁.ended := Layers.run_open (by rwa [hs₀.ended]) hends hL₁
  obtain ⟨s, hserve, -⟩ := hs₁.serve_revert ht hended
  refine ⟨s, hserve, ?_, hdefined⟩
  intro s' es' he' k
  exact (happart s' es' he').released ht (by rwa [← hs₁.ended]) hserve k

theorem revert_is_frame_interleaved : ∃ s₁ es s s' es',
    exec serve create [.insert 2 false [2] [3], .insert 1 false [1] [9], .insert 0 false [3] [4]] = some (s₁, es) ∧
      serve s₁ (.revert 1) = some (s, .code .none none) ∧
      exec serve create [.insert 2 false [2] [3], .insert 0 false [3] [4]] = some (s', es') ∧
      ∀ k, valueAt s k = valueAt s' k ∧ writeOn s k = writeOn s' k := by
  obtain ⟨⟨s₁, es⟩, he⟩ := Option.isSome_iff_exists.mp (show (exec serve create
    [.insert 2 false [2] [3], .insert 1 false [1] [9], .insert 0 false [3] [4]]).isSome by decide +kernel)
  have hnone (k : Bytes) : ¬ Owns create 1 k := by
    rw [create_embeds.owns_iff]
    simp [Layers.init]
  have hkeys : ∀ r ∈ [Request.insert 2 false [2] [3], .insert 1 false [1] [9], .insert 0 false [3] [4]],
      ∀ r' ∈ [Request.insert 2 false [2] [3], .insert 1 false [1] [9], .insert 0 false [3] [4]],
        ∀ t' k, r.target = some (1, k) → r'.target = some (t', k) → t' = 1 := by
    intro r hr r' hr' t' k htarget htarget'
    have hk : k = [1] := by
      simp only [List.mem_cons, List.not_mem_nil, or_false] at hr
      rcases hr with rfl | rfl | rfl <;> simp_all [Request.target]
    simp only [List.mem_cons, List.not_mem_nil, or_false] at hr'
    rcases hr' with rfl | rfl | rfl <;> simp_all [Request.target]
  have hm₀ : Meets serve LockOk create [] := trivial
  have he₀ : exec serve create [] = some (create, []) := rfl
  obtain ⟨s, hserve, hsame, hdefined⟩ := revert_is_frame (t := 1) hm₀ he₀ (by decide)
    (by decide) hnone (by decide) hkeys (by decide +kernel) he
  obtain ⟨s', es', he'⟩ := hdefined (by decide)
  exact ⟨s₁, es, s, s', es', he, hserve, he', hsame s' es' he'⟩

/-- An update queues two atoms for the key, the second frees the first while the transaction still
lists it, and the revert reads it. -/
theorem update_not_reverted : ∃ s₁ es,
    exec serve create [.insert 0 false [1] [2], .update 1 [1] [3]] = some (s₁, es) ∧
      ¬ ∃ s e, serve s₁ (.revert 1) = some (s, e) := by
  have hrun : (exec serve create [.insert 0 false [1] [2], .update 1 [1] [3]]).map (fun p =>
      (serve p.1 (.revert 1)).isSome) = some false := by decide +kernel
  rw [Option.map_eq_some_iff] at hrun
  obtain ⟨⟨s₁, es⟩, he, hs⟩ := hrun
  refine ⟨s₁, es, he, ?_⟩
  rintro ⟨s, e, hserve⟩
  simp [hserve] at hs

end RaleighSL.Objects.SSet
