import RaleighSL.Objects.SSet.Embed

/-!
# Requests on the object and on its layers

A request keeps track of its atoms if it is no second write of a transaction to a
key, no update of a stored key by a transaction and no balance of a node with
locks. In every run of such requests the object and its layers answer alike.
-/
namespace RaleighSL.Objects.SSet
open RaleighSL.Core RaleighSL.Library RaleighSL.Zcl

/-- A transaction has a pending write on a key. -/
def Owns (s : State) (t : TxnId) (k : Bytes) : Prop := (pendingAt s k).map Txn.txnId = some t

instance (s : State) (t : TxnId) (k : Bytes) : Decidable (Owns s t k) := inferInstanceAs (Decidable (_ = _))

/-- A key that nobody has locked and that a search finds. -/
def Free (s : State) (k : Bytes) : Prop :=
  pendingAt s k = none ∧ (nodeLookup s k).bind (fun p => p.2.search k) ≠ none

instance (s : State) (k : Bytes) : Decidable (Free s k) := inferInstanceAs (Decidable (_ ∧ _))

/-- The requests after which every atom is still in its lock tree and in the list of its transaction. -/
def LockOk (s : State) : Request → Prop
  | .insert t allowUpdate k _ => t ∉ s.ended → allowUpdate = true → ¬ Owns s t k
  | .update t k _ => t ∉ s.ended → ¬ Owns s t k ∧ (t ≠ 0 → ¬ Free s k)
  | .remove t k => t ∉ s.ended → ¬ Owns s t k
  | .balance => BalanceOk s
  | _ => True

instance (s : State) : Decidable (BalanceOk s) :=
  decidable_of_iff ((∃ p ∈ s.root.entries, leavesNode s p.2 = true) ∧
      ∀ p ∈ s.root.entries, ∀ n ∈ s.nodes p.2, requiresBalance n → n.txnLocks.entries = [])
    ⟨fun h => ⟨h.1, h.2⟩, fun h => ⟨h.leaves, h.unlocked⟩⟩

instance (s : State) : (r : Request) → Decidable (LockOk s r)
  | .insert t u k _ => inferInstanceAs (Decidable (t ∉ s.ended → u = true → ¬ Owns s t k))
  | .update t k _ => inferInstanceAs (Decidable (t ∉ s.ended → ¬ Owns s t k ∧ (t ≠ 0 → ¬ Free s k)))
  | .remove t k => inferInstanceAs (Decidable (t ∉ s.ended → ¬ Owns s t k))
  | .balance => inferInstanceAs (Decidable (BalanceOk s))
  | .get .. => .isTrue trivial
  | .scan .. => .isTrue trivial
  | .apply _ => .isTrue trivial
  | .revert _ => .isTrue trivial

variable {s s' : State} {L : Layers} {t : TxnId} {k v : Bytes} {id : NodeId} {n : Node} {a : Addr} {txn : Txn}
  {type : TxnType} {item : MapItem} {f : Bytes}

theorem Embeds.owns_iff (h : Embeds s L) : Owns s t k ↔ (L.pending.lookup k).map Write.txnId = some t := by
  rw [Owns, h.pending k, Option.map_map]
  rfl

/-- A write to a key that is not locked. -/
theorem Embeds.write (h : Embeds s L) (hr : RouteOf s L k f id n) (hl : n.txnLocks.lookup k = none) (t : TxnId)
    (type : TxnType) (item : MapItem) :
    ∃ s', (txnAdd s t id type k item).bind objectCommit = some s' ∧ Embeds s' (L.write t type k item) := by
  by_cases ht : t = 0
  · subst ht
    exact ⟨_, write_zero h.tidy hr.node, h.apply hr⟩
  · have hs : Embeds (SSet.locked s n ⟨t, id, type, k, item, none⟩) (L.write t type k item) := h.locked hr ht rfl hl
    exact ⟨_, write_txn h.tidy ht hr.node hl, hs⟩

theorem committed_error {r : Errno} (hr : r ≠ .none) (x : Option Bytes) :
    committed (s, r, x) = some (s, .code r x) := by
  simp [committed, hr]

theorem committed_none (s : State) (x : Option Bytes) :
    committed (s, .none, x) = (objectCommit s).map (fun s' => (s', .code .none x)) := by
  simp [committed]

theorem nodeMemSearch_locked (hl : n.txnLocks.lookup k = some a) (ha : s.txns a = some txn) :
    nodeMemSearch s n k true = some { txn := some (a, txn), fromMem := false, value := txn.item.value, found := true } := by
  simp [nodeMemSearch, hl, ha]

theorem nodeMemSearch_unlocked (b : Bool) (hl : n.txnLocks.lookup k = none) :
    nodeMemSearch s n k b = some (searchData n k none) := by
  simp [nodeMemSearch, hl]

theorem RouteOf.not_owns (hr : RouteOf s L k f id n) (hl : n.txnLocks.lookup k = some a)
    (ha : s.txns a = some txn) (ho : ¬ Owns s t k) : txn.txnId ≠ t := by
  intro ht
  apply ho
  rw [Owns, pendingAt_eq hr.routes hr.node, hl, Option.bind_some, ha, Option.map_some, ht]

/-- The object and its layers: both without a result, or both with the same response. -/
def Agree (s : State) (L : Layers) (r : Request) : Prop :=
  (serve s r = none ∧ L.serve r = none) ∨
    ∃ s' L' e, serve s r = some (s', e) ∧ L.serve r = some (L', e) ∧ Embeds s' L'

theorem Agree.unchanged (h : Embeds s L) {r : Request} {e : Response} (hs : serve s r = some (s, e))
    (hL : L.serve r = some (L, e)) : Agree s L r := Or.inr ⟨s, L, e, hs, hL, h⟩

theorem insert_unlocked (u : Bool) (hr : RouteOf s L k f id n) (hl : n.txnLocks.lookup k = none) :
    insert s t u k v = if (n.search k).isSome ∧ u = false then some (s, .dataKeyExists)
      else (txnAdd s t id .insert k ⟨v, false⟩).map (fun s' => (s', .none)) := by
  obtain ⟨htxn, hfound, -⟩ := searchData_none n k
  cases hsearch : n.search k <;> cases u <;>
    simp [insert, hr.lookup, nodeMemSearch_unlocked true hl, htxn, hfound, hsearch]

theorem insert_locked (u : Bool) (hr : RouteOf s L k f id n) (hl : n.txnLocks.lookup k = some a)
    (ha : s.txns a = some txn) :
    insert s t u k v = if txn.txnId ≠ t then some (s, .txnLockedKey)
      else if !u then some (s, .dataKeyExists)
      else (txnUpdate s t a txn .insert k v).map (fun s' => (s', .none)) := by
  simp [insert, hr.lookup, nodeMemSearch_locked hl ha]

theorem remove_unlocked (hr : RouteOf s L k f id n) (hl : n.txnLocks.lookup k = none) :
    remove s t k = match n.search k with
      | none => some (s, .dataKeyNotFound, none)
      | some v => (txnAdd s t id .remove k ⟨[], true⟩).map (fun s' => (s', .none, some v)) := by
  obtain ⟨htxn, hfound, hvalue⟩ := searchData_none n k
  cases hsearch : n.search k with
  | none => simp [remove, hr.lookup, nodeMemSearch_unlocked true hl, hfound, hsearch]
  | some v => simp [remove, hr.lookup, nodeMemSearch_unlocked true hl, htxn, hfound, hsearch, hvalue v hsearch]

theorem remove_locked (hr : RouteOf s L k f id n) (hl : n.txnLocks.lookup k = some a) (ha : s.txns a = some txn)
    (ht : txn.txnId ≠ t) : remove s t k = some (s, .txnLockedKey, none) := by
  simp [remove, hr.lookup, nodeMemSearch_locked hl ha, ht]

theorem Embeds.insert (h : Embeds s L) {u : Bool} (hok : LockOk s (.insert t u k v)) :
    Agree s L (.insert t u k v) := by
  by_cases hend : t ∈ s.ended
  · exact .unchanged h (e := .code .txnNotFound none) (by simp [serve, hend]) (by simp [Layers.serve, h.ended, hend])
  obtain ⟨f, id, n, hr⟩ := h.route k
  rcases h.lock_cases hr with ⟨hl, hp⟩ | ⟨a, txn, hl, ha, hp⟩
  · obtain ⟨s', hw, hs'⟩ := h.write hr hl t .insert ⟨v, false⟩
    rw [Option.bind_eq_some_iff] at hw
    obtain ⟨s₁, h₁, h₂⟩ := hw
    by_cases hfound : (n.search k).isSome ∧ u = false
    · have hins : SSet.insert s t u k v = some (s, .dataKeyExists) := by rw [insert_unlocked u hr hl, if_pos hfound]
      exact .unchanged h (e := .code .dataKeyExists none) (by simp [serve, hend, hins, committed_error])
        (by simp [Layers.serve, h.ended, hend, Layers.insert, hr.layer, hp, hfound])
    · exact Or.inr ⟨s', L.write t .insert k ⟨v, false⟩, .code .none none,
        by simp [serve, hend, insert_unlocked u hr hl, hfound, h₁, committed_none, h₂],
        by simp [Layers.serve, h.ended, hend, Layers.insert, hr.layer, hp, hfound], hs'⟩
  · by_cases ht : txn.txnId = t
    · cases u with
      | true => exact absurd ht (hr.not_owns hl ha (hok hend rfl))
      | false =>
        exact .unchanged h (e := .code .dataKeyExists none)
          (by simp [serve, hend, insert_locked false hr hl ha, ht, committed_error])
          (by simp [Layers.serve, h.ended, hend, Layers.insert, hr.layer, hp, Txn.write, ht])
    · exact .unchanged h (e := .code .txnLockedKey none)
        (by simp [serve, hend, insert_locked u hr hl ha, ht, committed_error])
        (by simp [Layers.serve, h.ended, hend, Layers.insert, hr.layer, hp, Txn.write, ht])

theorem Embeds.remove (h : Embeds s L) (hok : LockOk s (.remove t k)) : Agree s L (.remove t k) := by
  by_cases hend : t ∈ s.ended
  · exact .unchanged h (e := .code .txnNotFound none) (by simp [serve, hend]) (by simp [Layers.serve, h.ended, hend])
  obtain ⟨f, id, n, hr⟩ := h.route k
  rcases h.lock_cases hr with ⟨hl, hp⟩ | ⟨a, txn, hl, ha, hp⟩
  · cases hsearch : n.search k with
    | none =>
      exact .unchanged h (e := .code .dataKeyNotFound none)
        (by simp [serve, hend, remove_unlocked hr hl, hsearch, committed_error])
        (by simp [Layers.serve, h.ended, hend, Layers.remove, hr.layer, hp, hsearch])
    | some old =>
      obtain ⟨s', hw, hs'⟩ := h.write hr hl t .remove ⟨[], true⟩
      rw [Option.bind_eq_some_iff] at hw
      obtain ⟨s₁, h₁, h₂⟩ := hw
      exact Or.inr ⟨s', L.write t .remove k ⟨[], true⟩, .code .none (some old),
        by simp [serve, hend, remove_unlocked hr hl, hsearch, h₁, committed_none, h₂],
        by simp [Layers.serve, h.ended, hend, Layers.remove, hr.layer, hp, hsearch], hs'⟩
  · have ht := hr.not_owns hl ha (hok hend)
    exact .unchanged h (e := .code .txnLockedKey none)
      (by simp [serve, hend, remove_locked hr hl ha ht, committed_error])
      (by simp [Layers.serve, h.ended, hend, Layers.remove, hr.layer, hp, Txn.write, ht])

theorem update_zero (h : Embeds s L) (hr : RouteOf s L k f id n) (hl : n.txnLocks.lookup k = none) {old : Bytes}
    (hsearch : n.search k = some old) : (update s 0 k v).bind committed =
      some (replaced s id ((n.apply .remove k ⟨[], true⟩).apply .insert k ⟨v, false⟩) 2, .code .none (some old)) := by
  have h₁ := txnAdd_zero .remove k ⟨[], true⟩ hr.node
  let s₁ := enqueued s n ⟨0, id, .remove, k, ⟨[], true⟩, none⟩
  have hnode : s₁.nodes id = some { n with commitq := n.commitq ++ [s.nextTxn] } := by simp [s₁, enqueued]
  have hlookup : nodeLookup s₁ k = some (id, { n with commitq := n.commitq ++ [s.nextTxn] }) :=
    nodeLookup_of_routes (s := s₁) hr.routes hnode
  obtain ⟨htxn, hfound, -⟩ := searchData_none { n with commitq := n.commitq ++ [s.nextTxn] } k
  have hsearch' : { n with commitq := n.commitq ++ [s.nextTxn] }.search k = some old := hsearch
  have hins : insert s₁ 0 true k v =
      (txnAdd s₁ 0 id .insert k ⟨v, false⟩).map (fun s' => (s', .none)) := by
    rw [insert, hlookup, Option.bind_some,
      nodeMemSearch_unlocked (n := { n with commitq := n.commitq ++ [s.nextTxn] }) true hl, Option.bind_some]
    simp only [htxn, hfound, hsearch', Option.isSome_some, if_true, Bool.not_true, Bool.false_eq_true, if_false]
  have hw := write_zero_twice h.tidy hr.node h₁ .insert ⟨v, false⟩
  rw [Option.bind_eq_some_iff] at hw
  obtain ⟨s₂, h₂, h₃⟩ := hw
  have h₂' : txnAdd s₁ 0 id .insert k ⟨v, false⟩ = some s₂ := h₂
  have hrem : remove s 0 k = some (s₁, .none, some old) := by
    simp [remove_unlocked hr hl, hsearch, h₁, s₁]
  rw [update, hrem, Option.bind_some]
  simp only [if_true, hins, h₂', Option.map_some, Option.bind_some]
  rw [committed_none, h₃, Option.map_some]

theorem Embeds.update (h : Embeds s L) (hok : LockOk s (.update t k v)) : Agree s L (.update t k v) := by
  by_cases hend : t ∈ s.ended
  · exact .unchanged h (e := .code .txnNotFound none) (by simp [serve, hend]) (by simp [Layers.serve, h.ended, hend])
  obtain ⟨f, id, n, hr⟩ := h.route k
  rcases h.lock_cases hr with ⟨hl, hp⟩ | ⟨a, txn, hl, ha, hp⟩
  · cases hsearch : n.search k with
    | none =>
      exact .unchanged h (e := .code .dataKeyNotFound none)
        (by simp [serve, hend, SSet.update, remove_unlocked hr hl, hsearch, committed_error])
        (by simp [Layers.serve, h.ended, hend, Layers.update, hr.layer, hp, hsearch])
    | some old =>
      have hfree : Free s k := by
        refine ⟨?_, ?_⟩
        · rw [pendingAt_eq hr.routes hr.node, hl]
          rfl
        · simp [hr.lookup, hsearch]
      have ht : t = 0 := by
        by_contra ht
        exact (hok hend).2 ht hfree
      subst ht
      have hs : serve s (.update 0 k v) = some (SSet.replaced s id
          ((n.apply .remove k ⟨[], true⟩).apply .insert k ⟨v, false⟩) 2, .code .none (some old)) := by
        rw [serve, if_neg hend, update_zero h hr hl hsearch]
      exact Or.inr ⟨_, (L.write 0 .remove k ⟨[], true⟩).write 0 .insert k ⟨v, false⟩, .code .none (some old),
        hs, by simp [Layers.serve, h.ended, hend, Layers.update, hr.layer, hp, hsearch], h.apply_twice hr⟩
  · have ht := hr.not_owns hl ha (hok hend).1
    exact .unchanged h (e := .code .txnLockedKey none)
      (by simp [serve, hend, SSet.update, remove_locked hr hl ha ht, committed_error])
      (by simp [Layers.serve, h.ended, hend, Layers.update, hr.layer, hp, Txn.write, ht])

theorem Embeds.get (h : Embeds s L) : Agree s L (.get t k) := by
  by_cases hend : t ∈ s.ended
  · exact .unchanged h (e := .code .txnNotFound none) (by simp [serve, hend]) (by simp [Layers.serve, h.ended, hend])
  obtain ⟨f, id, n, hr⟩ := h.route k
  have hb : (n.bare.block.bind fun b => bucketSearch 0 b k) = n.block.bind fun b => bucketSearch 0 b k := rfl
  have hm : n.bare.memData.lookup k = n.memData.lookup k := rfl
  have hget : (SSet.get s t k).map (fun r => Response.code r.1 r.2) = L.get t k := by
    rcases h.lock_cases hr with ⟨hl, hp⟩ | ⟨a, txn, hl, ha, hp⟩
    · rw [SSet.get, hr.lookup, Option.bind_some, nodeMemSearch_unlocked (n := n) false hl, Layers.get, hr.layer]
      simp only [Option.map_some, hp, hm, hb]
      cases hmem : n.memData.lookup k with
      | some item => cases hd : item.isDeleteMarker <;> simp [searchData, hmem, hd]
      | none => cases hblk : n.block.bind (fun b => bucketSearch 0 b k) <;> simp [searchData, hmem, hblk]
    · have hsearch : nodeMemSearch s n k false = some (searchData n k (some (a, txn))) := by
        simp [nodeMemSearch, hl, ha]
      rw [SSet.get, hr.lookup, Option.bind_some, hsearch, Layers.get, hr.layer]
      simp only [Option.map_some, hp, hm, hb, Txn.write]
      cases hmem : n.memData.lookup k with
      | some item => by_cases ht : txn.txnId = t <;> simp [searchData, hmem, ht]
      | none =>
        cases hblk : n.block.bind (fun b => bucketSearch 0 b k) <;>
          by_cases ht : txn.txnId = t <;> simp [searchData, hmem, hblk, ht]
  have hsome : ∃ r, SSet.get s t k = some r := by
    cases hg : SSet.get s t k with
    | some r => exact ⟨r, rfl⟩
    | none => simp [hg, Layers.get, hr.layer] at hget
  obtain ⟨r, hg⟩ := hsome
  rw [hg, Option.map_some] at hget
  exact .unchanged h (e := .code r.1 r.2) (by simp [serve, hend, hg])
    (by simp [Layers.serve, h.ended, hend, ← hget])

theorem Embeds.serve (h : Embeds s L) {r : Request} (hok : LockOk s r) : Agree s L r := by
  cases r with
  | insert t u k v => exact h.insert hok
  | update t k v => exact h.update hok
  | remove t k => exact h.remove hok
  | get t k => exact h.get
  | scan t key includeKey count seek =>
    have hscan := h.scan (t := t) key includeKey count seek
    by_cases hend : t ∈ s.ended
    · exact .unchanged h (e := .code .txnNotFound none) (by simp [SSet.serve, hend])
        (by simp [Layers.serve, h.ended, hend])
    · cases hs : SSet.scan s t key includeKey count seek with
      | none =>
        rw [hs] at hscan
        exact Or.inl ⟨by simp [SSet.serve, hend, hs], by simp [Layers.serve, h.ended, hend, ← hscan]⟩
      | some l =>
        rw [hs] at hscan
        exact .unchanged h (e := .entries l) (by simp [SSet.serve, hend, hs])
          (by simp [Layers.serve, h.ended, hend, ← hscan])
  | apply t =>
    by_cases hend : t = 0 ∨ t ∈ s.ended
    · exact .unchanged h (e := .code .txnNotFound none) (by simp [SSet.serve, hend])
        (by simp [Layers.serve, h.ended, hend])
    · exact Or.inr ⟨_, _, .code .none none, by simp [SSet.serve, hend, endTxn_apply h.tidy t],
        by simp [Layers.serve, h.ended, hend], h.applies t⟩
  | revert t =>
    by_cases hend : t = 0 ∨ t ∈ s.ended
    · exact .unchanged h (e := .code .txnNotFound none) (by simp [SSet.serve, hend])
        (by simp [Layers.serve, h.ended, hend])
    · exact Or.inr ⟨_, _, .code .none none, by simp [SSet.serve, hend, endTxn_revert h.tidy t],
        by simp [Layers.serve, h.ended, hend], h.revert t⟩
  | balance =>
    have heq : SSet.serve s .balance = ((objectBalance s).bind objectCommit).map (fun s' => (s', .code .none none)) := by
      rw [SSet.serve]
      cases objectBalance s <;> rfl
    rcases h.balance hok with ⟨hs, hL⟩ | ⟨s', L', hs, hL, he⟩
    · exact Or.inl ⟨by rw [heq, hs]; rfl, by simp [Layers.serve, hL]⟩
    · exact Or.inr ⟨s', L', .code .none none, by rw [heq, hs]; rfl, by simp [Layers.serve, hL], he⟩

theorem create_embeds : Embeds create Layers.init where
  tidy :=
    { indexed := create_indexed
      txnq := rfl
      dirtyq := rfl
      rmNodes := rfl
      addNodes := rfl
      commitq := by
        intro id n hn
        by_cases hid : id = 0
        · simp only [create, hid, Function.update_self, Option.some.injEq] at hn
          simp [← hn, Node.alloc]
        · simp [create, hid] at hn
      atom := by simp [create]
      group := fun t => ⟨by simp [create, AtomGroup.empty], by simp [create, AtomGroup.empty],
        by simp [create, AtomGroup.empty]⟩ }
  nodes f := by
    by_cases hf : f = []
    · simp [Layers.init, create, hf, Node.bare, Node.alloc]
    · simp [Layers.init, create, SortedMap.lookup_insert_of_ne _ _ hf]
  pending k := by
    have hp : pendingAt create k = none := by
      rw [pendingAt]
      cases hn : nodeLookup create k with
      | none => rfl
      | some p =>
        rw [Option.bind_some]
        cases p.2.txnLocks.lookup k <;> rfl
    rw [hp]
    rfl
  ended := rfl

end RaleighSL.Objects.SSet
