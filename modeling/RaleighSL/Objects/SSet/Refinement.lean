import RaleighSL.Objects.SSet.Visible

/-!
# The object as a store

A request is answered as a store answers it, if it meets the conditions below on
the state before it. They exclude what the layers cannot tell apart: a key that a
prefix hides from the search of a block, a remove that uncovers a value in the
block, a lookup of a locked key that falls through to the wrong layer, and a scan
or a balance of a block that cannot be read.
-/
namespace RaleighSL.Objects.SSet
open RaleighSL.Core RaleighSL.Library RaleighSL.Zcl

def nodeOf (s : State) (k : Bytes) : Node := ((nodeLookup s k).map Prod.snd).getD (Node.alloc none)

def writeOn (s : State) (k : Bytes) : Option Write := (pendingAt s k).map Txn.write

namespace Node

/-- What a lookup finds below a lock, delete markers included. -/
def below (n : Node) (k : Bytes) : Option Bytes :=
  match n.memData.lookup k with
  | some item => some item.value
  | none => n.block.bind (fun b => bucketSearch 0 b k)

/-- A key with a live item in memory, or without any value in the node. -/
def Settled (n : Node) (k : Bytes) : Prop :=
  match n.memData.lookup k with
  | some item => item.isDeleteMarker = false
  | none => n.storedAt k = none

instance (n : Node) (k : Bytes) : Decidable (n.Settled k) :=
  match h : n.memData.lookup k with
  | some item => decidable_of_iff (item.isDeleteMarker = false) (by simp [Settled, h])
  | none => decidable_of_iff (n.storedAt k = none) (by simp [Settled, h])

end Node

/-- A lookup of a key that is not locked needs a search that is not misled. The owner of a lock
needs a pending value that no other one covers; anybody else a live item in memory or no value at all. -/
def ReadOk (n : Node) (t : TxnId) (k : Bytes) : Option Write → Prop
  | none => n.SearchOk k
  | some w => if w.txnId = t then w.type ≠ .remove ∧ ∀ v ∈ n.below k, v = w.item.value else n.Settled k

instance (n : Node) (t : TxnId) (k : Bytes) : (w : Option Write) → Decidable (ReadOk n t k w)
  | none => inferInstanceAs (Decidable (n.SearchOk k))
  | some w =>
    inferInstanceAs (Decidable (if w.txnId = t then w.type ≠ .remove ∧ ∀ v ∈ n.below k, v = w.item.value else n.Settled k))

instance (n : Node) : Decidable n.Readable :=
  inferInstanceAs (Decidable (∀ it ∈ blkIter n [] false, it.fault = false))

instance (s : State) : Decidable (BlocksOk s) :=
  inferInstanceAs (Decidable (∀ p ∈ s.root.entries, ∀ n ∈ s.nodes p.2, requiresBalance n →
    n.Readable ∧ ∀ l ∈ nodeEntries s n 0, ∀ q ∈ l, Fits q))

def ScanOk (s : State) (t : TxnId) (key : Bytes) (includeKey : Bool) : Prop :=
  (∀ id ∈ scanStart s key, ∀ n ∈ s.nodes id, n.Readable) ∧
    (key ≠ [] → ownEntries s t (nodeOf s key).txnLocks.entries = [] ∧
      (includeKey = true → (nodeOf s key).SeekOk key))

instance (s : State) (t : TxnId) (key : Bytes) (includeKey : Bool) : Decidable (ScanOk s t key includeKey) :=
  inferInstanceAs (Decidable (_ ∧ _))

/-- The requests that the layers answer as a store does. -/
def DataOk (s : State) : Request → Prop
  | .insert t allowUpdate k _ => t ∉ s.ended →
      (writeOn s k = none → allowUpdate = false → (nodeOf s k).SearchOk k) ∧
        ∀ w ∈ writeOn s k, w.txnId = t → w.type ≠ .remove
  | .update t k _ => t ∉ s.ended → writeOn s k = none → (nodeOf s k).SearchOk k
  | .remove t k => t ∉ s.ended → writeOn s k = none →
      (nodeOf s k).SearchOk k ∧ (t = 0 → (nodeOf s k).value k ≠ none → (nodeOf s k).RemoveOk k)
  | .get t k => t ∉ s.ended → ReadOk (nodeOf s k) t k (writeOn s k)
  | .scan t key includeKey _ _ => t ∉ s.ended → ScanOk s t key includeKey
  | .apply t => t ∉ s.ended → ∀ a ∈ (s.groups t).chain, ∀ txn ∈ s.txns a,
      txn.type = .remove → (nodeOf s txn.key).RemoveOk txn.key
  | .revert _ => True
  | .balance => BlocksOk s

instance (s : State) : (r : Request) → Decidable (DataOk s r)
  | .insert t u k _ => inferInstanceAs (Decidable (t ∉ s.ended → (writeOn s k = none → u = false →
      (nodeOf s k).SearchOk k) ∧ ∀ w ∈ writeOn s k, w.txnId = t → w.type ≠ .remove))
  | .update t k _ => inferInstanceAs (Decidable (t ∉ s.ended → writeOn s k = none → (nodeOf s k).SearchOk k))
  | .remove t k => inferInstanceAs (Decidable (t ∉ s.ended → writeOn s k = none →
      (nodeOf s k).SearchOk k ∧ (t = 0 → (nodeOf s k).value k ≠ none → (nodeOf s k).RemoveOk k)))
  | .get t k => inferInstanceAs (Decidable (t ∉ s.ended → ReadOk (nodeOf s k) t k (writeOn s k)))
  | .scan t key i _ _ => inferInstanceAs (Decidable (t ∉ s.ended → ScanOk s t key i))
  | .apply t => inferInstanceAs (Decidable (t ∉ s.ended → ∀ a ∈ (s.groups t).chain, ∀ txn ∈ s.txns a,
      txn.type = .remove → (nodeOf s txn.key).RemoveOk txn.key))
  | .revert _ => .isTrue trivial
  | .balance => inferInstanceAs (Decidable (BlocksOk s))

/-- The requests that keep track of their atoms and are answered as by a store. -/
def StepOk (s : State) (r : Request) : Prop := LockOk s r ∧ DataOk s r

instance (s : State) (r : Request) : Decidable (StepOk s r) := inferInstanceAs (Decidable (_ ∧ _))

variable {s s' : State} {L L' : Layers} {A : Store} {t : TxnId} {k v key : Bytes} {n : Node} {id : NodeId} {f : Bytes}
  {type : TxnType} {item : MapItem} {includeKey : Bool} {r : Request}

theorem RouteOf.nodeOf (hr : RouteOf s L k f id n) : SSet.nodeOf s k = n := by
  rw [SSet.nodeOf, hr.lookup]
  rfl

theorem Embeds.writeOn (h : Embeds s L) (k : Bytes) : SSet.writeOn s k = L.pending.lookup k := (h.pending k).symm

theorem RouteOf.encoded (h : Embeds s L) (hr : RouteOf s L k f id n) : n.Encoded := (h.tidy.indexed.encoded hr.node).1

/-! ### Writes -/

theorem Refines.write (hA : Refines L A) (hne : L.nodes.entries ≠ []) (hsound : Write.Sound ⟨t, type, item⟩)
    (hok : t = 0 → type = .remove → ∀ p, L.nodes.floor k = some p → p.2.RemoveOk k) :
    Refines (L.write t type k item) (A.write t k (Write.effect ⟨t, type, item⟩)) := by
  by_cases ht : t = 0
  · rw [Layers.write, if_pos ht, Store.write, if_pos ht]
    refine ⟨?_, hA.pending, hA.ended, hA.sound⟩
    intro k'
    rw [lookup_put, hA.map]
    split_ifs with hk
    · subst hk
      cases hp : L.nodes.floor k' with
      | none => exact absurd (SortedMap.floor_eq_none.mp hp) hne
      | some p =>
        rw [valueIn_applyAt_self hp]
        exact (hsound.value (fun hr => hok ht hr p hp)).symm
    · exact (valueIn_applyAt_of_ne hne hk).symm
  · rw [Layers.write, if_neg ht, Store.write, if_neg ht]
    refine ⟨hA.map, ?_, hA.ended, ?_⟩
    · intro k'
      by_cases hk : k' = k
      · simp [hk]
      · simp [SortedMap.lookup_insert_of_ne _ _ hk, hA.pending k']
    · intro k' w hw
      by_cases hk : k' = k
      · rw [hk, SortedMap.lookup_insert_self] at hw
        rw [← Option.some.inj hw]
        exact ⟨ht, hsound⟩
      · rw [SortedMap.lookup_insert_of_ne _ _ hk] at hw
        exact hA.sound k' w hw

theorem Embeds.nonempty (h : Embeds s L) : L.nodes.entries ≠ [] := by
  obtain ⟨f, id, n, hr⟩ := h.route []
  exact List.ne_nil_of_mem (SortedMap.floor_mem hr.layer)

/-- A request whose result the store shares. -/
def Matches (L : Layers) (A : Store) (r : Request) : Prop :=
  ∃ L', L.serve r = some (L', (A.serve r).2) ∧ Refines L' (A.serve r).1

theorem Matches.of_eq (L' : Layers) {B : Store} {e : Response} (hL : L.serve r = some (L', e)) (hB : A.serve r = (B, e))
    (h : Refines L' B) : Matches L A r := ⟨L', by rw [hB, hL], by rw [hB]; exact h⟩

/-- The map that a transaction sees at a key that nobody has locked, after a search that is not misled. -/
theorem Refines.seen_unlocked (hA : Refines L A) (h : Embeds s L) (hr : RouteOf s L k f id n)
    (hp : L.pending.lookup k = none) (hs : n.SearchOk k) : (A.seen t).lookup k = n.search k := by
  rw [hA.seen_lookup, hp, hr.valueIn, (hr.encoded h).search_eq_value hs]

theorem Refines.not_closed (hA : Refines L A) (hp : L.pending.lookup k = none) : ¬ A.Closed t k := by
  rw [hA.closed, hp]
  simp

theorem Refines.closed_of_ne {w : Write} (hA : Refines L A) (hp : L.pending.lookup k = some w) (ht : w.txnId ≠ t) :
    A.Closed t k := hA.closed.mpr ⟨w, hp, ht⟩

theorem Refines.insert (hA : Refines L A) (h : Embeds s L) {u : Bool} (hlock : LockOk s (.insert t u k v))
    (hdata : DataOk s (.insert t u k v)) : Matches L A (.insert t u k v) := by
  by_cases hend : t ∈ s.ended
  · exact .of_eq L (by simp [Layers.serve, h.ended, hend]; rfl)
      (by simp [Store.serve, Store.writeBy, hA.ended, h.ended, hend]) hA
  have hendL : t ∉ L.ended := by rwa [h.ended]
  have hendA : t ∉ A.ended := by rwa [hA.ended]
  obtain ⟨hsearch, hown⟩ := hdata hend
  rw [h.writeOn] at hsearch hown
  obtain ⟨f, id, n, hr⟩ := h.route k
  rw [hr.nodeOf] at hsearch
  cases hp : L.pending.lookup k with
  | none =>
    have hfree := hA.not_closed (t := t) hp
    by_cases hex : (n.search k).isSome ∧ u = false
    · have hseen := hA.seen_unlocked (t := t) h hr hp (hsearch hp hex.2)
      refine .of_eq L (e := .code .dataKeyExists none) ?_ (Store.writeBy_fails hendA hfree ?_ (by decide)) hA
      · simp [Layers.serve, hendL, Layers.insert, hr.layer, hp, hex]
      · simp [mapServe, hseen, hex]
    · have hins : mapServe (A.seen t) (.insert t u k v) = (put (A.seen t) k (some v), .code .none none) := by
        rw [mapServe, if_neg]
        rintro ⟨hs, hu⟩
        rw [hA.seen_unlocked h hr hp (hsearch hp hu)] at hs
        exact hex ⟨hs, hu⟩
      refine .of_eq (L.write t .insert k ⟨v, false⟩) (e := .code .none none) ?_
        (Store.writeBy_succeeds hendA hfree hins) ?_
      · simp [Layers.serve, hendL, Layers.insert, hr.layer, hp, hex]
      · rw [lookup_put, if_pos rfl]
        exact hA.write h.nonempty (Or.inl ⟨rfl, rfl⟩) (by simp)
  | some w =>
    by_cases ht : w.txnId = t
    · have hu : u = false := by
        by_contra hu
        exact hlock hend (by simpa using hu) (h.owns_iff.mpr (by rw [hp, Option.map_some, ht]))
      have hseen : (A.seen t).lookup k = some w.item.value := by
        have hne := hown w hp ht
        simp [hA.seen_lookup, hp, ht, Write.effect, hne]
      have hfree : ¬ A.Closed t k := by
        rw [hA.closed, hp]
        simp [ht]
      refine .of_eq L (e := .code .dataKeyExists none) ?_ (Store.writeBy_fails hendA hfree ?_ (by decide)) hA
      · simp [Layers.serve, hendL, Layers.insert, hr.layer, hp, ht, hu]
      · simp [mapServe, hseen, hu]
    · refine .of_eq L (e := .code .txnLockedKey none) ?_ (Store.writeBy_closed hendA (hA.closed_of_ne hp ht)) hA
      simp [Layers.serve, hendL, Layers.insert, hr.layer, hp, ht]

theorem Refines.remove (hA : Refines L A) (h : Embeds s L) (hlock : LockOk s (.remove t k))
    (hdata : DataOk s (.remove t k)) : Matches L A (.remove t k) := by
  by_cases hend : t ∈ s.ended
  · exact .of_eq L (by simp [Layers.serve, h.ended, hend]; rfl)
      (by simp [Store.serve, Store.writeBy, hA.ended, h.ended, hend]) hA
  have hendL : t ∉ L.ended := by rwa [h.ended]
  have hendA : t ∉ A.ended := by rwa [hA.ended]
  have hok := hdata hend
  rw [h.writeOn] at hok
  obtain ⟨f, id, n, hr⟩ := h.route k
  rw [hr.nodeOf] at hok
  cases hp : L.pending.lookup k with
  | none =>
    obtain ⟨hsearch, hremove⟩ := hok hp
    have hfree := hA.not_closed (t := t) hp
    have hseen := hA.seen_unlocked (t := t) h hr hp hsearch
    cases hs : n.search k with
    | none =>
      refine .of_eq L (e := .code .dataKeyNotFound none) ?_ (Store.writeBy_fails hendA hfree ?_ (by decide)) hA
      · simp [Layers.serve, hendL, Layers.remove, hr.layer, hp, hs]
      · simp [mapServe, hseen, hs]
    | some old =>
      have hrem : mapServe (A.seen t) (.remove t k) = (put (A.seen t) k none, .code .none (some old)) := by
        simp [mapServe, hseen, hs]
      refine .of_eq (L.write t .remove k ⟨[], true⟩) (e := .code .none (some old)) ?_
        (Store.writeBy_succeeds hendA hfree hrem) ?_
      · simp [Layers.serve, hendL, Layers.remove, hr.layer, hp, hs]
      · rw [lookup_put, if_pos rfl]
        apply hA.write h.nonempty (Or.inr ⟨rfl, rfl⟩)
        rintro ht - p hfloor
        rw [hr.layer] at hfloor
        rw [← Option.some.inj hfloor]
        have hvalue : n.value k ≠ none := by
          rw [← (hr.encoded h).search_eq_value hsearch, hs]
          simp
        exact hremove ht hvalue
  | some w =>
    have ht : w.txnId ≠ t := by
      intro ht
      exact hlock hend (h.owns_iff.mpr (by rw [hp, Option.map_some, ht]))
    refine .of_eq L (e := .code .txnLockedKey none) ?_ (Store.writeBy_closed hendA (hA.closed_of_ne hp ht)) hA
    simp [Layers.serve, hendL, Layers.remove, hr.layer, hp, ht]

/-- An update is a remove and an insert of one node, whatever the remove uncovers. -/
theorem Refines.replace (hA : Refines L A) (hne : L.nodes.entries ≠ []) (k v : Bytes) :
    Refines ((L.write 0 .remove k ⟨[], true⟩).write 0 .insert k ⟨v, false⟩) (A.write 0 k (some v)) := by
  have hw : (L.write 0 .remove k ⟨[], true⟩).write 0 .insert k ⟨v, false⟩ =
      { L with nodes := Layers.applyAt (Layers.applyAt L.nodes k .remove ⟨[], true⟩) k .insert ⟨v, false⟩ } := by
    simp [Layers.write]
  rw [hw, Store.write, if_pos rfl]
  refine ⟨?_, hA.pending, hA.ended, hA.sound⟩
  intro k'
  have hne' : (Layers.applyAt L.nodes k .remove ⟨[], true⟩).entries ≠ [] := applyAt_nonempty hne
  rw [lookup_put, hA.map]
  split_ifs with hk
  · subst hk
    cases hp : (Layers.applyAt L.nodes k' .remove ⟨[], true⟩).floor k' with
    | none => exact absurd (SortedMap.floor_eq_none.mp hp) hne'
    | some p => rw [valueIn_applyAt_self hp, Node.apply_value_insert]
  · rw [valueIn_applyAt_of_ne hne' hk, valueIn_applyAt_of_ne hne hk]

theorem Refines.update (hA : Refines L A) (h : Embeds s L) (hlock : LockOk s (.update t k v))
    (hdata : DataOk s (.update t k v)) : Matches L A (.update t k v) := by
  by_cases hend : t ∈ s.ended
  · exact .of_eq L (by simp [Layers.serve, h.ended, hend]; rfl)
      (by simp [Store.serve, Store.writeBy, hA.ended, h.ended, hend]) hA
  have hendL : t ∉ L.ended := by rwa [h.ended]
  have hendA : t ∉ A.ended := by rwa [hA.ended]
  have hok := hdata hend
  rw [h.writeOn] at hok
  obtain ⟨f, id, n, hr⟩ := h.route k
  rw [hr.nodeOf] at hok
  cases hp : L.pending.lookup k with
  | none =>
    have hfree := hA.not_closed (t := t) hp
    have hseen := hA.seen_unlocked (t := t) h hr hp (hok hp)
    cases hs : n.search k with
    | none =>
      refine .of_eq L (e := .code .dataKeyNotFound none) ?_ (Store.writeBy_fails hendA hfree ?_ (by decide)) hA
      · simp [Layers.serve, hendL, Layers.update, hr.layer, hp, hs]
      · simp [mapServe, hseen, hs]
    | some old =>
      have ht : t = 0 := by
        by_contra ht
        refine (hlock hend).2 ht ⟨?_, by simp [hr.lookup, hs]⟩
        simpa [hp] using h.pending k
      subst ht
      have hupd : mapServe (A.seen 0) (.update 0 k v) = (put (A.seen 0) k (some v), .code .none (some old)) := by
        simp [mapServe, hseen, hs]
      refine .of_eq ((L.write 0 .remove k ⟨[], true⟩).write 0 .insert k ⟨v, false⟩) (e := .code .none (some old))
        ?_ (Store.writeBy_succeeds hendA hfree hupd) ?_
      · simp [Layers.serve, hendL, Layers.update, hr.layer, hp, hs]
      · rw [lookup_put, if_pos rfl]
        exact hA.replace h.nonempty k v
  | some w =>
    have ht : w.txnId ≠ t := by
      intro ht
      exact (hlock hend).1 (h.owns_iff.mpr (by rw [hp, Option.map_some, ht]))
    refine .of_eq L (e := .code .txnLockedKey none) ?_ (Store.writeBy_closed hendA (hA.closed_of_ne hp ht)) hA
    simp [Layers.serve, hendL, Layers.update, hr.layer, hp, ht]

/-! ### Reads -/

/-- The answer of a map to a lookup. -/
def found : Option Bytes → Response
  | none => .code .dataKeyNotFound none
  | some v => .code .none (some v)

theorem mapServe_get (m : SortedMap Bytes Bytes) (t : TxnId) (k : Bytes) :
    mapServe m (.get t k) = (m, found (m.lookup k)) := by
  rw [mapServe]
  cases m.lookup k <;> rfl

/-- A lookup, by what is pending on the key and by what the node has below. -/
theorem RouteOf.get_eq (hr : RouteOf s L k f id n) (t : TxnId) :
    L.get t k = some (match L.pending.lookup k with
      | none => found (n.search k)
      | some w => if w.txnId = t then .code .none (some ((n.below k).getD w.item.value))
        else found ((n.memData.lookup k).map MapItem.value)) := by
  have hm : n.bare.memData.lookup k = n.memData.lookup k := rfl
  have hb : (n.bare.block.bind fun b => bucketSearch 0 b k) = n.block.bind fun b => bucketSearch 0 b k := rfl
  rw [Layers.get, hr.layer, Option.map_some]
  simp only [hm, hb]
  cases hp : L.pending.lookup k with
  | none =>
    cases hmem : n.memData.lookup k with
    | some item => cases hd : item.isDeleteMarker <;> simp [Node.search, hmem, hd, found]
    | none => cases hblk : n.block.bind (fun b => bucketSearch 0 b k) <;> simp [Node.search, hmem, hblk, found]
  | some w =>
    cases hmem : n.memData.lookup k with
    | some item => by_cases ht : w.txnId = t <;> simp [Node.below, hmem, ht, found]
    | none =>
      cases hblk : n.block.bind (fun b => bucketSearch 0 b k) <;> by_cases ht : w.txnId = t <;>
        simp [Node.below, hmem, hblk, ht, found]

theorem Refines.get (hA : Refines L A) (h : Embeds s L) (hdata : DataOk s (.get t k)) : Matches L A (.get t k) := by
  by_cases hend : t ∈ s.ended
  · exact .of_eq L (by simp [Layers.serve, h.ended, hend]; rfl)
      (by simp [Store.serve, Store.readBy, hA.ended, h.ended, hend]) hA
  have hendL : t ∉ L.ended := by rwa [h.ended]
  have hendA : t ∉ A.ended := by rwa [hA.ended]
  have hok := hdata hend
  rw [h.writeOn] at hok
  obtain ⟨f, id, n, hr⟩ := h.route k
  rw [hr.nodeOf] at hok
  have hget : L.get t k = some (found ((A.seen t).lookup k)) := by
    rw [hr.get_eq, hA.seen_lookup, hr.valueIn]
    cases hp : L.pending.lookup k with
    | none =>
      rw [hp] at hok
      simp only [(hr.encoded h).search_eq_value hok]
    | some w =>
      simp only [hp, ReadOk] at hok
      by_cases ht : w.txnId = t
      · simp only [ht, if_true] at hok ⊢
        have hbelow : (n.below k).getD w.item.value = w.item.value := by
          cases hb : n.below k with
          | none => rfl
          | some v => exact hok.2 v hb
        rw [hbelow, Write.effect, if_neg hok.1]
        rfl
      · simp only [ht, if_false] at hok ⊢
        rw [Node.Settled] at hok
        rw [Node.value]
        cases hm : n.memData.lookup k with
        | none =>
          simp only [hm] at hok
          simp [hok]
        | some item =>
          simp only [hm] at hok
          simp [hok]
  refine .of_eq L (e := found ((A.seen t).lookup k)) ?_ ?_ hA
  · simp [Layers.serve, hendL, hget]
  · simp [Store.serve, Store.readBy, hendA, mapServe_get]

theorem Embeds.readable_start (h : Embeds s L) (hread : ∀ id ∈ scanStart s key, ∀ n ∈ s.nodes id, n.Readable) :
    ∀ p ∈ L.scanStart key, p.2.Readable := by
  obtain ⟨es, hes, hs, hL⟩ := h.scanStart_eq key
  intro p hp
  rw [hL] at hp
  obtain ⟨q, hq, rfl⟩ := List.mem_map.mp hp
  obtain ⟨n, hn, -⟩ := h.tidy.indexed.node q (hes q hq)
  have hbare : bareAt s q.2 = n.bare := by simp [bareAt, hn]
  rw [hbare]
  exact hread q.2 (by rw [hs]; exact List.mem_map_of_mem hq) n hn

theorem Refines.scanned (hA : Refines L A) (h : Embeds s L) {count seek : Nat}
    (hdata : DataOk s (.scan t key includeKey count seek)) : Matches L A (.scan t key includeKey count seek) := by
  by_cases hend : t ∈ s.ended
  · exact .of_eq L (by simp [Layers.serve, h.ended, hend]; rfl)
      (by simp [Store.serve, Store.readBy, hA.ended, h.ended, hend]) hA
  have hendL : t ∉ L.ended := by rwa [h.ended]
  have hendA : t ∉ A.ended := by rwa [hA.ended]
  obtain ⟨hread, hstart⟩ := hdata hend
  have hstartL : key ≠ [] → ∀ p, L.nodes.floor key = some p → L.StartOk t p key includeKey seek := by
    intro hkey p hp
    obtain ⟨f, id, n, hr⟩ := h.route key
    rw [hr.layer] at hp
    rw [← Option.some.inj hp]
    have hok := hstart hkey
    rw [hr.nodeOf, h.ownEntries_locksOf (SortedMap.floor_mem hr.root) hr.node] at hok
    exact .of_none (p := (f, n.bare)) hok.1 seek (fun hi => (hok.2 hi).fit)
  have hscan := hA.scan h seek count (fun p hp => Or.inl (h.readable_start hread p hp)) (fun _ => hstartL)
  refine .of_eq L (e := .entries ((((A.seen t).entries).filter (fun e => inRange key includeKey e.1)).take count))
    ?_ ?_ hA
  · simp [Layers.serve, hendL, hscan]
  · simp [Store.serve, Store.readBy, hendA, mapServe]

/-! ### The end of a transaction, and balancing -/

theorem Layers.writesOf_sorted (L : Layers) (t : TxnId) : (L.writesOf t).Pairwise (fun p q => p.1 < q.1) :=
  L.pending.sorted.filter _

theorem Layers.mem_writesOf {p : Bytes × Write} : p ∈ L.writesOf t ↔ L.pending.lookup p.1 = some p.2 ∧ p.2.txnId = t := by
  rw [Layers.writesOf, List.mem_filter, ← SortedMap.mem_entries, decide_eq_true_eq]

theorem Refines.release (hA : Refines L A) (t : TxnId) (k : Bytes) :
    (A.pending.filter (fun p => p.2.1 ≠ t)).lookup k =
      ((L.release t).pending.lookup k).map (fun w => (w.txnId, w.effect)) := by
  rw [SortedMap.lookup_filter, hA.pending k, Layers.release, SortedMap.lookup_filter]
  cases hk : L.pending.lookup k with
  | none => rfl
  | some w => by_cases ht : w.txnId = t <;> simp [Option.filter_some, ht]

theorem Refines.release_sound (hA : Refines L A) {w : Write} (hw : (L.release t).pending.lookup k = some w) :
    w.txnId ≠ 0 ∧ w.Sound := by
  rw [Layers.release, SortedMap.lookup_filter, Option.filter_eq_some_iff] at hw
  exact hA.sound k w hw.1

theorem Refines.revert (hA : Refines L A) (h : Embeds s L) : Matches L A (.revert t) := by
  by_cases hend : t = 0 ∨ t ∈ s.ended
  · exact .of_eq L (by simp [Layers.serve, h.ended, hend]; rfl)
      (by simp [Store.serve, Store.finish, hA.ended, h.ended, hend]) hA
  have hendA : ¬ (t = 0 ∨ t ∈ A.ended) := by rwa [hA.ended, h.ended]
  refine .of_eq (L.release t) (by simp [Layers.serve, h.ended, hend]) (Store.finish_open hendA A.map) ?_
  exact ⟨hA.map, hA.release t, by simp [Layers.release, hA.ended], fun k w hw => hA.release_sound hw⟩

theorem Refines.apply (hA : Refines L A) (h : Embeds s L) (hdata : DataOk s (.apply t)) : Matches L A (.apply t) := by
  by_cases hend : t = 0 ∨ t ∈ s.ended
  · exact .of_eq L (by simp [Layers.serve, h.ended, hend]; rfl)
      (by simp [Store.serve, Store.finish, hA.ended, h.ended, hend]) hA
  have hopen : t ∉ s.ended := fun hc => hend (Or.inr hc)
  have hok : ∀ p ∈ L.writesOf t, p.2.type = .remove → ∀ q, L.nodes.floor p.1 = some q → q.2.RemoveOk p.1 := by
    rintro ⟨k, w⟩ hp hremove q hq
    obtain ⟨hk, ht⟩ := Layers.mem_writesOf.mp hp
    have hw := h.pending k
    simp only at hk ht hremove hq ⊢
    rw [hk, eq_comm, Option.map_eq_some_iff] at hw
    obtain ⟨txn, htxn, rfl⟩ := hw
    obtain ⟨a, ha, rfl⟩ := h.tidy.pendingAt_eq_some.mp htxn
    obtain ⟨f, id, n, hr⟩ := h.route txn.key
    rw [hr.layer] at hq
    rw [← Option.some.inj hq]
    have hchain : a ∈ (s.groups t).chain := ((h.tidy.group t).mem a).mpr ⟨txn, ha, ht⟩
    have hnode := hdata hopen a hchain txn ha hremove
    rw [hr.nodeOf] at hnode
    exact hnode
  have hvalue (k : Bytes) : (A.seen t).lookup k = valueIn (Layers.applyAll L.nodes (L.writesOf t)) k := by
    have hsound : ∀ p ∈ L.writesOf t, p.2.Sound := fun p hp => (hA.sound p.1 p.2 (Layers.mem_writesOf.mp hp).1).2
    rw [valueIn_applyAll h.nonempty (L.writesOf_sorted t) hsound hok k, hA.seen_lookup]
    have hfind : ((L.writesOf t).find? (fun p => p.1 = k)).map Prod.snd =
        (L.pending.lookup k).filter (fun w => w.txnId = t) := by
      have hf := SortedMap.lookup_filter L.pending (fun p => p.2.txnId = t) k
      rw [SortedMap.lookup] at hf
      rw [← hf]
      congr!
    rw [hfind]
    cases hk : L.pending.lookup k with
    | none => rfl
    | some w => by_cases ht : w.txnId = t <;> simp [Option.filter_some, ht]
  have hendA : ¬ (t = 0 ∨ t ∈ A.ended) := by rwa [hA.ended, h.ended]
  refine .of_eq ({ L.release t with nodes := Layers.applyAll L.nodes (L.writesOf t) })
    (by simp [Layers.serve, h.ended, hend]) (Store.finish_open hendA (A.seen t)) ?_
  exact ⟨hvalue, hA.release t, by simp [Layers.release, hA.ended], fun k w hw => hA.release_sound hw⟩

theorem Layers.balance_pending (hL : L.balance = some L') : L'.pending = L.pending ∧ L'.ended = L.ended := by
  rw [Layers.balance, Option.map_eq_some_iff] at hL
  obtain ⟨bs, -, rfl⟩ := hL
  exact ⟨rfl, rfl⟩

theorem Refines.balanced (hA : Refines L A) (h : Embeds s L) (h' : Embeds s' L') (hL : L.balance = some L')
    (hvalue : ∀ k, valueAt s' k = valueAt s k) : Refines L' A := by
  obtain ⟨hpending, hended⟩ := Layers.balance_pending hL
  refine ⟨?_, by rw [hpending]; exact hA.pending, by rw [hended]; exact hA.ended, by rw [hpending]; exact hA.sound⟩
  intro k
  rw [h'.valueIn_eq, hvalue, ← h.valueIn_eq, hA.map]

theorem Refines.balance (hA : Refines L A) (h : Embeds s L) (hlock : LockOk s .balance) (hdata : DataOk s .balance) :
    Matches L A .balance := by
  obtain ⟨s', L', -, hL, he, hvalue⟩ := h.balance_value hlock hdata
  exact .of_eq L' (e := .code .none none) (by simp [Layers.serve, hL]) rfl (hA.balanced h he hL hvalue)

theorem Refines.serve (hA : Refines L A) (h : Embeds s L) (hok : StepOk s r) :
    ∃ s' L', serve s r = some (s', (A.serve r).2) ∧ Embeds s' L' ∧ Refines L' (A.serve r).1 := by
  obtain ⟨hlock, hdata⟩ := hok
  have hm : Matches L A r := by
    cases r with
    | insert t u k v => exact hA.insert h hlock hdata
    | update t k v => exact hA.update h hlock hdata
    | remove t k => exact hA.remove h hlock hdata
    | get t k => exact hA.get h hdata
    | scan t key i count seek => exact hA.scanned h hdata
    | apply t => exact hA.apply h hdata
    | revert t => exact hA.revert h
    | balance => exact hA.balance h hlock hdata
  obtain ⟨L', hL, hR⟩ := hm
  rcases h.serve hlock with ⟨-, hnone⟩ | ⟨s', L₁, e, hs, hL₁, he⟩
  · rw [hL] at hnone
    exact absurd hnone (by simp)
  · rw [hL] at hL₁
    obtain ⟨rfl, rfl⟩ := Prod.mk.inj (Option.some.inj hL₁)
    exact ⟨s', L', hs, he, hR⟩

theorem init_refines : Refines Layers.init Store.init where
  map k := by
    have hr : Layers.init.nodes.floor k = some ([], Node.alloc none) := by
      simp only [Layers.init, SortedMap.floor, SortedMap.insert, SortedMap.insertList, SortedMap.empty]
      by_cases hk : ([] : Bytes) ≤ k <;> simp [hk]
    rw [valueIn, hr]
    rfl
  pending k := rfl
  ended := rfl
  sound k w hw := by simp [Layers.init] at hw

def Shows (s : State) (A : Store) : Prop := ∃ L, Embeds s L ∧ Refines L A

theorem create_shows : Shows create Store.init := ⟨Layers.init, create_embeds, init_refines⟩

theorem Shows.serve (h : Shows s A) (hok : StepOk s r) :
    ∃ s', SSet.serve s r = some (s', (A.serve r).2) ∧ Shows s' (A.serve r).1 := by
  obtain ⟨L, hs, hA⟩ := h
  obtain ⟨s', L', hserve, hs', hA'⟩ := hA.serve hs hok
  exact ⟨s', hserve, L', hs', hA'⟩

theorem Shows.run (h : Shows s A) {rs : List Request} (hm : Meets SSet.serve StepOk s rs) :
    ∃ s', exec SSet.serve s rs = some (s', (specExec Store.serve A rs).2) ∧ Shows s' (specExec Store.serve A rs).1 :=
  exec_simulates (fun _ _ _ h hok => h.serve hok) h hm

theorem Shows.valueAt (h : Shows s A) (k : Bytes) : SSet.valueAt s k = A.map.lookup k := by
  obtain ⟨L, hs, hA⟩ := h
  rw [hA.map, hs.valueIn_eq]

theorem Shows.writeOn (h : Shows s A) (k : Bytes) :
    A.pending.lookup k = (SSet.writeOn s k).map (fun w => (w.txnId, w.effect)) := by
  obtain ⟨L, hs, hA⟩ := h
  rw [hA.pending, hs.writeOn]

end RaleighSL.Objects.SSet
