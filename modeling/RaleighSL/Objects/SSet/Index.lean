import RaleighSL.Library.Run
import RaleighSL.Objects.SSet.Model

/-!
# The tree of nodes

Every key belongs to one node: the last one whose first key is not above it, or
the first node of the tree. The invariant says that the tree is not empty, that
its nodes are there under their first keys, and that the items, the block and the
atoms of a node have keys of that node. Every step of the object keeps it, as long
as a balance does not remove the last node.
-/
namespace RaleighSL.Objects.SSet
open RaleighSL.Core RaleighSL.Library RaleighSL.Zcl

def Routes (s : State) (k : Bytes) (id : NodeId) : Prop := ∃ f, s.root.floor k = some (f, id)

/-- A block holds a non-empty sequence in key order, with keys of one node. -/
def BlockOf (s : State) (id : NodeId) (b : Bucket) : Prop :=
  ∃ l, l ≠ [] ∧ b = encode l ∧ l.Pairwise (fun p q => p.1 < q.1) ∧ ∀ p ∈ l, Routes s p.1 id

def LockOf (s : State) (id : NodeId) (k : Bytes) (a : Addr) : Prop :=
  ∃ txn, s.txns a = some txn ∧ txn.txnId ≠ 0 ∧ txn.parent = none ∧ txn.key = k ∧ txn.node = id

def Unlocked (s : State) (a : Addr) : Prop :=
  ∀ id n k, s.nodes id = some n → n.txnLocks.lookup k ≠ some a

structure Indexed (s : State) : Prop where
  nonempty : s.root.entries ≠ []
  node : ∀ p ∈ s.root.entries, ∃ n, s.nodes p.2 = some n ∧ n.firstKey = p.1
  home : ∀ id n, s.nodes id = some n → ∃ f, (f, id) ∈ s.root.entries
  mem : ∀ id n k, s.nodes id = some n → n.memData.lookup k ≠ none → Routes s k id
  block : ∀ id n b, s.nodes id = some n → n.block = some b → BlockOf s id b
  lock : ∀ id n k a, s.nodes id = some n → n.txnLocks.lookup k = some a → LockOf s id k a
  txn : ∀ a txn n, s.txns a = some txn → s.nodes txn.node = some n → Routes s txn.key txn.node
  freshNode : ∀ id n, s.nodes id = some n → id < s.nextNode
  freshTxn : ∀ a txn, s.txns a = some txn → a < s.nextTxn ∧ txn.node < s.nextNode

/-- Atoms that wait for their commit: each once, of a transaction, in no lock tree. -/
structure Queued (s : State) (l : List Addr) : Prop where
  nodup : l.Nodup
  fresh : ∀ a ∈ l, a < s.nextTxn
  owned : ∀ a ∈ l, ∀ txn, s.txns a = some txn → txn.txnId ≠ 0
  unlocked : ∀ a ∈ l, Unlocked s a

/-- The object between two commits, with no nodes to exchange. -/
structure Staged (s : State) : Prop where
  indexed : Indexed s
  queued : Queued s s.txnq
  rmNodes : s.rmNodes = []
  addNodes : s.addNodes = []

variable {s s' : State} {t : TxnId} {k v : Bytes} {id : NodeId} {n n' : Node} {a : Addr} {txn : Txn}

theorem nodeLookup_eq_some (h : nodeLookup s k = some (id, n)) : Routes s k id ∧ s.nodes id = some n := by
  rw [nodeLookup, Option.bind_eq_some_iff] at h
  obtain ⟨⟨f, id'⟩, hf, hn⟩ := h
  rw [Option.map_eq_some_iff] at hn
  obtain ⟨n', hn', heq⟩ := hn
  obtain ⟨rfl, rfl⟩ := Prod.mk.inj heq
  exact ⟨⟨f, hf⟩, hn'⟩

theorem create_indexed : Indexed create where
  nonempty := by simp [create, SortedMap.insert, SortedMap.insertList, SortedMap.empty]
  node p hp := by
    simp only [create, SortedMap.insert, SortedMap.insertList, SortedMap.empty, List.mem_singleton] at hp
    exact ⟨Node.alloc none, by simp [create, hp], by simp [hp, Node.firstKey, Node.alloc]⟩
  home id n hn := by
    by_cases hid : id = 0
    · exact ⟨[], by simp [hid, create, SortedMap.insert, SortedMap.insertList, SortedMap.empty]⟩
    · simp [create, hid] at hn
  mem id n k hn hk := by
    by_cases hid : id = 0
    · simp only [create, hid, Function.update_self, Option.some.injEq] at hn
      simp [← hn, Node.alloc] at hk
    · simp [create, hid] at hn
  block id n b hn hb := by
    by_cases hid : id = 0
    · simp only [create, hid, Function.update_self, Option.some.injEq] at hn
      simp [← hn, Node.alloc] at hb
    · simp [create, hid] at hn
  lock id n k a hn hk := by
    by_cases hid : id = 0
    · simp only [create, hid, Function.update_self, Option.some.injEq] at hn
      simp [← hn, Node.alloc] at hk
    · simp [create, hid] at hn
  txn := by simp [create]
  freshNode id n hn := by
    by_cases hid : id = 0
    · simp [hid, create]
    · simp [create, hid] at hn
  freshTxn := by simp [create]

theorem Indexed.congr (h : Indexed s) (hroot : s'.root = s.root) (hnodes : s'.nodes = s.nodes)
    (htxns : s'.txns = s.txns) (hn : s'.nextNode = s.nextNode) (ht : s'.nextTxn = s.nextTxn) : Indexed s' := by
  have hr (k : Bytes) (id : NodeId) : Routes s' k id ↔ Routes s k id := by rw [Routes, Routes, hroot]
  have hb (id : NodeId) (b : Bucket) : BlockOf s' id b ↔ BlockOf s id b := by simp only [BlockOf, hr]
  have hl (id : NodeId) (k : Bytes) (a : Addr) : LockOf s' id k a ↔ LockOf s id k a := by
    rw [LockOf, LockOf, htxns]
  exact ⟨hroot ▸ h.nonempty, by rw [hroot, hnodes]; exact h.node, by rw [hroot, hnodes]; exact h.home,
    by simp only [hnodes, hr]; exact h.mem, by simp only [hnodes, hb]; exact h.block,
    by simp only [hnodes, hl]; exact h.lock, by simp only [hnodes, htxns, hr]; exact h.txn,
    by rw [hnodes, hn]; exact h.freshNode, by rw [htxns, hn, ht]; exact h.freshTxn⟩

theorem Queued.congr {l : List Addr} (h : Queued s l) (hnodes : s'.nodes = s.nodes) (htxns : s'.txns = s.txns)
    (ht : s'.nextTxn = s.nextTxn) : Queued s' l := by
  refine ⟨h.nodup, ?_, ?_, ?_⟩
  · rw [ht]
    exact h.fresh
  · rw [htxns]
    exact h.owned
  · intro a ha id n k hn
    rw [hnodes] at hn
    exact h.unlocked a ha id n k hn

theorem Queued.nil (s : State) : Queued s [] := ⟨List.nodup_nil, by simp, by simp, by simp⟩

theorem Queued.tail {l : List Addr} (h : Queued s (a :: l)) : Queued s l :=
  ⟨h.nodup.of_cons, fun b hb => h.fresh b (List.mem_cons_of_mem _ hb),
    fun b hb => h.owned b (List.mem_cons_of_mem _ hb), fun b hb => h.unlocked b (List.mem_cons_of_mem _ hb)⟩

theorem setNode_cases {m : Node} {id' : NodeId} (h : (s.setNode id n).nodes id' = some m) :
    (id' = id ∧ m = n) ∨ (id' ≠ id ∧ s.nodes id' = some m) := by
  by_cases hid : id' = id
  · subst hid
    simp only [State.setNode, Function.update_self, Option.some.injEq] at h
    exact Or.inl ⟨rfl, h.symm⟩
  · right
    exact ⟨hid, by simpa [State.setNode, hid] using h⟩

theorem freeTxn_eq_some {b : Addr} (h : (s.freeTxn a).txns b = some txn) : b ≠ a ∧ s.txns b = some txn := by
  by_cases hab : b = a
  · simp [State.freeTxn, hab] at h
  · exact ⟨hab, by simpa [State.freeTxn, hab] using h⟩

theorem allocTxn_cases {b : Addr} {x : Txn} (h : (allocTxn s txn).txns b = some x) :
    (b = s.nextTxn ∧ x = txn) ∨ s.txns b = some x := by
  by_cases hbn : b = s.nextTxn
  · subst hbn
    simp only [allocTxn, Function.update_self, Option.some.injEq] at h
    exact Or.inl ⟨rfl, h.symm⟩
  · right
    simpa [allocTxn, hbn] using h

/-- A node may change as long as its block stays and its keys remain its own. -/
theorem Indexed.setNode (h : Indexed s) (hn : s.nodes id = some n) (hb : n'.block = n.block)
    (hmem : ∀ k, n'.memData.lookup k ≠ none → Routes s k id)
    (hlock : ∀ k a, n'.txnLocks.lookup k = some a → LockOf s id k a) : Indexed (s.setNode id n') := by
  have hlive {id' : NodeId} {m : Node} (hm : (s.setNode id n').nodes id' = some m) : ∃ m', s.nodes id' = some m' := by
    rcases setNode_cases hm with ⟨rfl, -⟩ | ⟨-, hm⟩
    · exact ⟨n, hn⟩
    · exact ⟨m, hm⟩
  refine ⟨h.nonempty, ?_, ?_, ?_, ?_, ?_, ?_, ?_, h.freshTxn⟩
  · intro p hp
    obtain ⟨m, hm, hf⟩ := h.node p hp
    by_cases hid : p.2 = id
    · refine ⟨n', by simp [State.setNode, hid], ?_⟩
      rw [hid, hn] at hm
      rw [← hf, ← Option.some.inj hm, Node.firstKey, Node.firstKey, hb]
    · exact ⟨m, by simpa [State.setNode, hid] using hm, hf⟩
  · intro id' m hm
    obtain ⟨m', hm'⟩ := hlive hm
    exact h.home id' m' hm'
  · intro id' m k hm hk
    rcases setNode_cases hm with ⟨rfl, rfl⟩ | ⟨-, hm⟩
    · exact hmem k hk
    · exact h.mem id' m k hm hk
  · intro id' m b hm hmb
    rcases setNode_cases hm with ⟨rfl, rfl⟩ | ⟨-, hm⟩
    · exact h.block id' n b hn (hb ▸ hmb)
    · exact h.block id' m b hm hmb
  · intro id' m k a hm hk
    rcases setNode_cases hm with ⟨rfl, rfl⟩ | ⟨-, hm⟩
    · exact hlock k a hk
    · exact h.lock id' m k a hm hk
  · intro a txn m ha hm
    obtain ⟨m', hm'⟩ := hlive hm
    exact h.txn a txn m' ha hm'
  · intro id' m hm
    obtain ⟨m', hm'⟩ := hlive hm
    exact h.freshNode id' m' hm'

theorem Indexed.freeTxn (h : Indexed s) (ha : Unlocked s a) : Indexed (s.freeTxn a) := by
  refine ⟨h.nonempty, h.node, h.home, h.mem, h.block, ?_, ?_, h.freshNode, ?_⟩
  · intro id n k b hn hk
    obtain ⟨txn, htxn, hrest⟩ := h.lock id n k b hn hk
    have hab : b ≠ a := fun hc => ha id n k hn (hc ▸ hk)
    exact ⟨txn, by simpa [State.freeTxn, hab] using htxn, hrest⟩
  · intro b txn n hb hn
    exact h.txn b txn n (freeTxn_eq_some hb).2 hn
  · intro b txn hb
    exact h.freshTxn b txn (freeTxn_eq_some hb).2

theorem Queued.freeTxn {l : List Addr} (h : Queued s l) : Queued (s.freeTxn a) l :=
  ⟨h.nodup, h.fresh, fun b hb _ hx => h.owned b hb _ (freeTxn_eq_some hx).2, h.unlocked⟩

theorem Queued.setNode {l : List Addr} (h : Queued s l) (hn : s.nodes id = some n)
    (hsub : ∀ k b, n'.txnLocks.lookup k = some b → n.txnLocks.lookup k = some b ∨ b ∉ l) :
    Queued (s.setNode id n') l := by
  refine ⟨h.nodup, h.fresh, h.owned, ?_⟩
  intro b hb id' m k hm hk
  rcases setNode_cases hm with ⟨rfl, rfl⟩ | ⟨-, hm⟩
  · rcases hsub k b hk with hk | hk
    · exact h.unlocked b hb _ n k hn hk
    · exact hk hb
  · exact h.unlocked b hb id' m k hm hk

theorem Indexed.allocTxn (h : Indexed s) (hr : Routes s txn.key txn.node) (hid : txn.node < s.nextNode) :
    Indexed (allocTxn s txn) := by
  refine ⟨h.nonempty, h.node, h.home, h.mem, h.block, ?_, ?_, h.freshNode, ?_⟩
  · intro id n k b hn hk
    obtain ⟨x, hx, hrest⟩ := h.lock id n k b hn hk
    have hbn : b ≠ s.nextTxn := (h.freshTxn b x hx).1.ne
    exact ⟨x, by simpa [SSet.allocTxn, hbn] using hx, hrest⟩
  · intro b x n hb hn
    rcases allocTxn_cases hb with ⟨-, rfl⟩ | hb
    · exact hr
    · exact h.txn b x n hb hn
  · intro b x hb
    rcases allocTxn_cases hb with ⟨rfl, rfl⟩ | hb
    · exact ⟨Nat.lt_succ_self _, hid⟩
    · exact ⟨(h.freshTxn b x hb).1.trans (Nat.lt_succ_self _), (h.freshTxn b x hb).2⟩

theorem Queued.allocTxn {l : List Addr} (h : Queued s l) : Queued (allocTxn s txn) l := by
  refine ⟨h.nodup, fun a ha => (h.fresh a ha).trans (Nat.lt_succ_self _), ?_, h.unlocked⟩
  intro a ha x hx
  rcases allocTxn_cases hx with ⟨rfl, -⟩ | hx
  · exact absurd (h.fresh _ ha) (lt_irrefl _)
  · exact h.owned a ha x hx

theorem Queued.push (hi : Indexed s) (h : Queued s s.txnq) (ht : txn.txnId ≠ 0) :
    Queued (SSet.allocTxn s txn) (s.txnq ++ [s.nextTxn]) := by
  have hs : Queued (SSet.allocTxn s txn) s.txnq := h.allocTxn
  refine ⟨?_, ?_, ?_, ?_⟩
  · rw [List.nodup_append]
    refine ⟨h.nodup, List.nodup_singleton _, ?_⟩
    intro a ha b hb hab
    rw [List.mem_singleton.mp hb] at hab
    exact (h.fresh a ha).ne hab
  · intro a ha
    rcases List.mem_append.mp ha with ha | ha
    · exact hs.fresh a ha
    · rw [List.mem_singleton.mp ha]
      exact Nat.lt_succ_self _
  · intro a ha x hx
    rcases List.mem_append.mp ha with ha | ha
    · exact hs.owned a ha x hx
    · rw [List.mem_singleton.mp ha] at hx
      simp only [SSet.allocTxn, Function.update_self, Option.some.injEq] at hx
      exact hx ▸ ht
  · intro a ha
    rcases List.mem_append.mp ha with ha | ha
    · exact hs.unlocked a ha
    · rw [List.mem_singleton.mp ha]
      intro id n k hn hk
      obtain ⟨x, hx, -⟩ := hi.lock id n k _ hn hk
      exact absurd (hi.freshTxn _ x hx).1 (lt_irrefl _)

/-! ### Writes -/

theorem Staged.enqueue (h : Staged s) (he : enqueue s id a = some s') : Staged s' := by
  rw [SSet.enqueue, Option.map_eq_some_iff] at he
  obtain ⟨n, hn, rfl⟩ := he
  have hs : Indexed (s.setNode id { n with commitq := n.commitq ++ [a] }) := h.indexed.setNode hn rfl
    (fun k hk => h.indexed.mem id n k hn hk) (fun k a hk => h.indexed.lock id n k a hn hk)
  have hq : Queued (s.setNode id { n with commitq := n.commitq ++ [a] }) s.txnq :=
    h.queued.setNode hn (fun k b hk => Or.inl hk)
  exact ⟨hs.congr rfl rfl rfl rfl rfl, hq.congr rfl rfl rfl, h.rmNodes, h.addNodes⟩

theorem Staged.txnAdd (h : Staged s) {type : TxnType} {item : MapItem} (hr : Routes s k id)
    (hn : s.nodes id = some n) (ha : txnAdd s t id type k item = some s') : Staged s' := by
  have hs : Indexed (allocTxn s ⟨t, id, type, k, item, none⟩) := h.indexed.allocTxn hr (h.indexed.freshNode id n hn)
  rw [SSet.txnAdd] at ha
  by_cases ht : t = 0
  · simp only [ht, if_true] at ha hs
    exact Staged.enqueue ⟨hs, h.queued.allocTxn, h.rmNodes, h.addNodes⟩ ha
  · simp only [ht, if_false, Option.map_eq_some_iff] at ha
    obtain ⟨g, -, rfl⟩ := ha
    exact ⟨hs.congr rfl rfl rfl rfl rfl, (h.queued.push h.indexed ht).congr rfl rfl rfl, h.rmNodes, h.addNodes⟩

theorem Staged.txnUpdate (h : Staged s) {type : TxnType} (hn : s.nodes txn.node = some n)
    (hk : Routes s k txn.node) (hx : Routes s txn.key txn.node)
    (hu : txnUpdate s t a txn type k v = some s') : Staged s' := by
  rw [SSet.txnUpdate, Option.bind_eq_some_iff] at hu
  obtain ⟨c, -, hu⟩ := hu
  have hs : Indexed (allocTxn s ⟨t, txn.node, c.1, if c.2 then txn.key else k,
      if c.2 then txn.item else ⟨v, false⟩, some a⟩) :=
    h.indexed.allocTxn (by split_ifs <;> assumption) (h.indexed.freshNode _ n hn)
  by_cases ht : t = 0
  · simp only [ht, if_true] at hu hs
    exact Staged.enqueue ⟨hs, h.queued.allocTxn, h.rmNodes, h.addNodes⟩ hu
  · simp only [ht, if_false, Option.map_eq_some_iff] at hu
    obtain ⟨g, -, rfl⟩ := hu
    exact ⟨hs.congr rfl rfl rfl rfl rfl, (h.queued.push h.indexed ht).congr rfl rfl rfl, h.rmNodes, h.addNodes⟩

/-- The atom that a search reports locks the key of the search. -/
theorem nodeMemSearch_lock {e : Entry} {b : Bool} (hs : nodeMemSearch s n k b = some e)
    (he : e.txn = some (a, txn)) : n.txnLocks.lookup k = some a ∧ s.txns a = some txn := by
  rw [nodeMemSearch] at hs
  cases hl : n.txnLocks.lookup k with
  | none =>
    simp only [hl, Option.some.injEq] at hs
    subst hs
    rw [searchData] at he
    cases hm : n.memData.lookup k with
    | none => cases hb : n.block.bind (fun b => bucketSearch 0 b k) <;> simp [hm, hb] at he
    | some item => simp [hm] at he
  | some a' =>
    simp only [hl, Option.map_eq_some_iff] at hs
    obtain ⟨txn', ha', rfl⟩ := hs
    have hp : some (a', txn') = some (a, txn) := by
      rw [← he]
      cases b with
      | true => rfl
      | false =>
        rw [if_neg (by simp), searchData]
        cases hm : n.memData.lookup k with
        | none => cases hb : n.block.bind (fun b => bucketSearch 0 b k) <;> rfl
        | some item => rfl
    obtain ⟨rfl, rfl⟩ := Prod.mk.inj (Option.some.inj hp)
    exact ⟨rfl, ha'⟩

/-- What a successful insertion does: a new atom, or one over an own atom. -/
theorem insert_cases {u : Bool} {r : Errno} (h : insert s t u k v = some (s', r)) :
    (s' = s ∧ r ≠ .none) ∨ r = .none ∧ ∃ id n, Routes s k id ∧ s.nodes id = some n ∧
      (txnAdd s t id .insert k ⟨v, false⟩ = some s' ∨
        ∃ a txn, n.txnLocks.lookup k = some a ∧ s.txns a = some txn ∧
          txnUpdate s t a txn .insert k v = some s') := by
  rw [insert, Option.bind_eq_some_iff] at h
  obtain ⟨⟨id, n⟩, hl, h⟩ := h
  rw [Option.bind_eq_some_iff] at h
  obtain ⟨e, hs, h⟩ := h
  obtain ⟨hr, hn⟩ := nodeLookup_eq_some hl
  have hadd (h : (txnAdd s t id .insert k ⟨v, false⟩).map (fun s' => (s', Errno.none)) = some (s', r)) :
      r = .none ∧ txnAdd s t id .insert k ⟨v, false⟩ = some s' := by
    rw [Option.map_eq_some_iff] at h
    obtain ⟨s₁, h₁, h⟩ := h
    obtain ⟨rfl, rfl⟩ := Prod.mk.inj h
    exact ⟨rfl, h₁⟩
  dsimp only at h
  by_cases hf : e.found = true
  · rw [if_pos hf] at h
    cases he : e.txn with
    | none =>
      simp only [he] at h
      split_ifs at h with hu
      · obtain ⟨rfl, rfl⟩ := Prod.mk.inj (Option.some.inj h)
        exact Or.inl ⟨rfl, by decide⟩
      · exact Or.inr ⟨(hadd h).1, id, n, hr, hn, Or.inl (hadd h).2⟩
    | some p =>
      obtain ⟨a, txn⟩ := p
      simp only [he] at h
      split_ifs at h with hne hu
      · obtain ⟨rfl, rfl⟩ := Prod.mk.inj (Option.some.inj h)
        exact Or.inl ⟨rfl, by decide⟩
      · obtain ⟨rfl, rfl⟩ := Prod.mk.inj (Option.some.inj h)
        exact Or.inl ⟨rfl, by decide⟩
      · rw [Option.map_eq_some_iff] at h
        obtain ⟨s₁, h₁, h⟩ := h
        obtain ⟨rfl, rfl⟩ := Prod.mk.inj h
        have hlock := nodeMemSearch_lock hs he
        exact Or.inr ⟨rfl, id, n, hr, hn, Or.inr ⟨a, txn, hlock.1, hlock.2, h₁⟩⟩
  · rw [if_neg hf] at h
    exact Or.inr ⟨(hadd h).1, id, n, hr, hn, Or.inl (hadd h).2⟩

theorem remove_cases {r : Errno × Option Bytes} (h : remove s t k = some (s', r)) :
    (s' = s ∧ r.1 ≠ .none) ∨ r.1 = .none ∧ ∃ id n, Routes s k id ∧ s.nodes id = some n ∧
      (txnAdd s t id .remove k ⟨[], true⟩ = some s' ∨
        ∃ a txn, n.txnLocks.lookup k = some a ∧ s.txns a = some txn ∧
          txnUpdate s t a txn .remove [] [] = some s') := by
  rw [remove, Option.bind_eq_some_iff] at h
  obtain ⟨⟨id, n⟩, hl, h⟩ := h
  rw [Option.bind_eq_some_iff] at h
  obtain ⟨e, hs, h⟩ := h
  obtain ⟨hr, hn⟩ := nodeLookup_eq_some hl
  dsimp only at h
  by_cases hf : e.found = true
  · rw [if_pos hf] at h
    cases he : e.txn with
    | none =>
      simp only [he, Option.map_eq_some_iff] at h
      obtain ⟨s₁, h₁, h⟩ := h
      obtain ⟨rfl, rfl⟩ := Prod.mk.inj h
      exact Or.inr ⟨rfl, id, n, hr, hn, Or.inl h₁⟩
    | some p =>
      obtain ⟨a, txn⟩ := p
      simp only [he] at h
      split_ifs at h with hne
      · obtain ⟨rfl, rfl⟩ := Prod.mk.inj (Option.some.inj h)
        exact Or.inl ⟨rfl, by decide⟩
      · rw [Option.map_eq_some_iff] at h
        obtain ⟨s₁, h₁, h⟩ := h
        obtain ⟨rfl, rfl⟩ := Prod.mk.inj h
        have hlock := nodeMemSearch_lock hs he
        exact Or.inr ⟨rfl, id, n, hr, hn, Or.inr ⟨a, txn, hlock.1, hlock.2, h₁⟩⟩
  · rw [if_neg hf] at h
    obtain ⟨rfl, rfl⟩ := Prod.mk.inj (Option.some.inj h)
    exact Or.inl ⟨rfl, by decide⟩

theorem Indexed.lock_place (h : Indexed s) (ha : s.txns a = some txn) (hn : s.nodes id = some n)
    (hk : n.txnLocks.lookup k = some a) :
    txn.txnId ≠ 0 ∧ txn.parent = none ∧ txn.key = k ∧ txn.node = id := by
  obtain ⟨x, hx, hrest⟩ := h.lock id n k a hn hk
  rw [ha] at hx
  exact Option.some.inj hx ▸ hrest

theorem Staged.rewrite (h : Staged s) {type : TxnType} {k' : Bytes} (hr : Routes s k id) (hn : s.nodes id = some n)
    (hl : n.txnLocks.lookup k = some a) (ha : s.txns a = some txn) (hk' : Routes s k' id)
    (hu : SSet.txnUpdate s t a txn type k' v = some s') : Staged s' := by
  obtain ⟨-, -, hkey, hnode⟩ := h.indexed.lock_place ha hn hl
  subst hkey
  subst hnode
  exact h.txnUpdate hn hk' hr hu

theorem Staged.insert (h : Staged s) {u : Bool} {r : Errno} (hi : insert s t u k v = some (s', r)) :
    Staged s' := by
  rcases insert_cases hi with ⟨rfl, -⟩ | ⟨-, id, n, hr, hn, ha | ⟨a, txn, hl, ha, hu⟩⟩
  · exact h
  · exact h.txnAdd hr hn ha
  · exact h.rewrite hr hn hl ha hr hu

theorem txnUpdate_remove (s : State) (t : TxnId) (a : Addr) (txn : Txn) (k v : Bytes) :
    txnUpdate s t a txn .remove [] [] = txnUpdate s t a txn .remove k v := by
  cases htype : txn.type <;> simp [txnUpdate, compose, htype]

theorem Staged.remove (h : Staged s) {r : Errno × Option Bytes} (hr : remove s t k = some (s', r)) :
    Staged s' := by
  rcases remove_cases hr with ⟨rfl, -⟩ | ⟨-, id, n, hr, hn, ha | ⟨a, txn, hl, ha, hu⟩⟩
  · exact h
  · exact h.txnAdd hr hn ha
  · rw [txnUpdate_remove s t a txn k []] at hu
    exact h.rewrite hr hn hl ha hr hu

theorem Staged.update (h : Staged s) {r : Errno × Option Bytes} (hu : update s t k v = some (s', r)) :
    Staged s' := by
  rw [SSet.update, Option.bind_eq_some_iff] at hu
  obtain ⟨⟨s₁, r₁⟩, hrem, hu⟩ := hu
  have h₁ := h.remove hrem
  split_ifs at hu
  · rw [Option.map_eq_some_iff] at hu
    obtain ⟨⟨s₂, r₂⟩, hins, hu⟩ := hu
    obtain ⟨rfl, -⟩ := Prod.mk.inj hu
    exact h₁.insert hins
  · obtain ⟨rfl, -⟩ := Prod.mk.inj (Option.some.inj hu)
    exact h₁

/-! ### Commit of the atoms -/

theorem Indexed.txnDetach (h : Indexed s) {l : List Addr} (hq : Queued s l) (ha : s.txns a = some txn)
    (hd : txnDetach s txn = some s') :
    Indexed s' ∧ Queued s' l ∧ Unlocked s' a ∧ s'.txns = s.txns := by
  rw [SSet.txnDetach, Option.map_eq_some_iff] at hd
  obtain ⟨m, hm, rfl⟩ := hd
  have hsub (k : Bytes) (b : Addr) (hk : (m.txnLocks.erase txn.key).lookup k = some b) :
      k ≠ txn.key ∧ m.txnLocks.lookup k = some b := by
    rw [SortedMap.lookup_erase] at hk
    split_ifs at hk with hkey
    exact ⟨hkey, hk⟩
  refine ⟨?_, ?_, ?_, rfl⟩
  · exact h.setNode hm rfl (fun k hk => h.mem _ m k hm hk)
      (fun k b hk => h.lock _ m k b hm (hsub k b hk).2)
  · exact hq.setNode hm (fun k b hk => Or.inl (hsub k b hk).2)
  · intro id n k hn hk
    rcases setNode_cases hn with ⟨rfl, rfl⟩ | ⟨hid, hn⟩
    · exact (hsub k a hk).1 (h.lock_place ha hm (hsub k a hk).2).2.2.1.symm
    · exact hid (h.lock_place ha hn hk).2.2.2.symm

theorem Indexed.txnRevert (h : Indexed s) {l : List Addr} (hq : Queued s l) (hr : txnRevert s a = some s') :
    Indexed s' ∧ Queued s' l := by
  rw [SSet.txnRevert, Option.bind_eq_some_iff] at hr
  obtain ⟨txn, ha, hr⟩ := hr
  rw [Option.map_eq_some_iff] at hr
  obtain ⟨s₁, hd, rfl⟩ := hr
  obtain ⟨h₁, hq₁, hun, -⟩ := h.txnDetach hq ha hd
  exact ⟨h₁.freeTxn hun, hq₁.freeTxn⟩

theorem Indexed.txnAttach (h : Indexed s) {l : List Addr} (hq : Queued s (a :: l)) (ha : s.txns a = some txn)
    (hp : txn.parent = none) (hat : txnAttach s a txn = some s') : Indexed s' ∧ Queued s' l := by
  have ht : txn.txnId ≠ 0 := hq.owned a List.mem_cons_self txn ha
  rw [SSet.txnAttach, Option.map_eq_some_iff] at hat
  obtain ⟨n, hn, hs⟩ := hat
  have hcase (k : Bytes) (b : Addr) (hk : (n.txnLocks.insert txn.key a).lookup k = some b) :
      (k = txn.key ∧ b = a) ∨ (k ≠ txn.key ∧ n.txnLocks.lookup k = some b) := by
    rw [SortedMap.lookup_insert] at hk
    split_ifs at hk with hkey
    · exact Or.inl ⟨hkey, (Option.some.inj hk).symm⟩
    · exact Or.inr ⟨hkey, hk⟩
  have hset : Indexed (s.setNode txn.node { n with txnLocks := n.txnLocks.insert txn.key a }) := by
    refine h.setNode hn rfl (fun k hk => h.mem _ n k hn hk) ?_
    intro k b hk
    rcases hcase k b hk with ⟨rfl, rfl⟩ | ⟨-, hk⟩
    · exact ⟨txn, ha, ht, hp, rfl, rfl⟩
    · exact h.lock _ n k b hn hk
  have hqset : Queued (s.setNode txn.node { n with txnLocks := n.txnLocks.insert txn.key a }) l := by
    refine hq.tail.setNode hn ?_
    intro k b hk
    rcases hcase k b hk with ⟨-, rfl⟩ | ⟨-, hk⟩
    · exact Or.inr (List.nodup_cons.mp hq.nodup).1
    · exact Or.inl hk
  cases hold : n.txnLocks.lookup txn.key with
  | none =>
    simp only [hold] at hs
    exact hs ▸ ⟨hset, hqset⟩
  | some old =>
    simp only [hold] at hs
    subst hs
    refine ⟨hset.freeTxn ?_, hqset.freeTxn⟩
    obtain ⟨x, hx, -, -, hxk, hxn⟩ := h.lock _ n _ old hn hold
    have hne : old ≠ a := by
      rintro rfl
      exact hq.unlocked old List.mem_cons_self _ n _ hn hold
    intro id m k hm hk
    rcases setNode_cases hm with ⟨rfl, rfl⟩ | ⟨hid, hm⟩
    · rcases hcase k old hk with ⟨-, hc⟩ | ⟨hkey, hk⟩
      · exact hne hc
      · exact hkey ((h.lock_place hx hn hk).2.2.1.symm.trans hxk)
    · exact hid ((h.lock_place hx hm hk).2.2.2.symm.trans hxn)

theorem Indexed.txnCommit (h : Indexed s) {l : List Addr} (hq : Queued s (a :: l))
    (hc : txnCommit s a = some s') : Indexed s' ∧ Queued s' l := by
  rw [SSet.txnCommit, Option.bind_eq_some_iff] at hc
  obtain ⟨txn, ha, hc⟩ := hc
  cases hp : txn.parent with
  | none =>
    simp only [hp] at hc
    exact h.txnAttach hq ha hp hc
  | some p =>
    simp only [hp, Option.map_eq_some_iff] at hc
    obtain ⟨s₁, hr, rfl⟩ := hc
    obtain ⟨h₁, hq₁⟩ := h.txnRevert hq hr
    split_ifs
    · exact ⟨h₁.freeTxn (hq₁.unlocked a List.mem_cons_self), hq₁.tail.freeTxn⟩
    · exact ⟨h₁, hq₁.tail⟩

section Apply

variable (n : Node) (type : TxnType) (k : Bytes) (item : MapItem)

@[simp] theorem apply_block : (n.apply type k item).block = n.block := by
  cases type <;> cases hl : n.memData.lookup k <;> simp [Node.apply, hl]

@[simp] theorem apply_txnLocks : (n.apply type k item).txnLocks = n.txnLocks := by
  cases type <;> cases hl : n.memData.lookup k <;> simp [Node.apply, hl]

@[simp] theorem apply_commitq : (n.apply type k item).commitq = n.commitq := by
  cases type <;> cases hl : n.memData.lookup k <;> simp [Node.apply, hl]

/-- What becomes of the item under the key of an atom. -/
def applied : TxnType → MapItem → Option MapItem → Option MapItem
  | .remove, _, some _ => none
  | _, item, _ => some item

theorem apply_lookup (k' : Bytes) : (n.apply type k item).memData.lookup k' =
    if k' = k then applied type item (n.memData.lookup k) else n.memData.lookup k' := by
  cases type <;> cases hl : n.memData.lookup k <;>
    simp [Node.apply, applied, hl, SortedMap.lookup_insert, SortedMap.lookup_erase]

theorem apply_bufsize : (n.apply type k item).bufsize =
    if type = .remove then n.bufsize else (n.bufsize + k.length + item.value.length) % 2 ^ 32 := by
  cases type <;> cases hl : n.memData.lookup k <;> simp [Node.apply, hl]

end Apply

theorem Indexed.txnApply (h : Indexed s) (hx : txnApply s a = some s') : Indexed s' := by
  rw [SSet.txnApply, Option.bind_eq_some_iff] at hx
  obtain ⟨txn, ha, hx⟩ := hx
  rw [Option.bind_eq_some_iff] at hx
  obtain ⟨s₁, hd, hx⟩ := hx
  rw [Option.map_eq_some_iff] at hx
  obtain ⟨n, hn, rfl⟩ := hx
  have h₁ : Indexed s₁ ∧ Unlocked s₁ a ∧ s₁.txns = s.txns := by
    split_ifs at hd with ht
    · obtain ⟨h₁, -, hun, htx⟩ := h.txnDetach (Queued.nil s) ha hd
      exact ⟨h₁, hun, htx⟩
    · obtain rfl := Option.some.inj hd
      refine ⟨h, ?_, rfl⟩
      intro id m k hm hk
      exact ht (Nat.pos_of_ne_zero (h.lock_place ha hm hk).1)
  obtain ⟨h₁, hun, htx⟩ := h₁
  have hset : Indexed (s₁.setNode txn.node (n.apply txn.type txn.key txn.item)) := by
    refine h₁.setNode hn (apply_block n _ _ _) ?_ ?_
    · intro k hk
      by_cases hkey : k = txn.key
      · rw [hkey]
        exact h₁.txn a txn n (by rw [htx, ha]) hn
      · rw [apply_lookup, if_neg hkey] at hk
        exact h₁.mem _ n k hn hk
    · intro k b hk
      rw [apply_txnLocks] at hk
      exact h₁.lock _ n k b hn hk
  refine hset.freeTxn ?_
  intro id m k hm
  rcases setNode_cases hm with ⟨rfl, rfl⟩ | ⟨-, hm⟩
  · rw [apply_txnLocks]
    exact hun _ n k hn
  · exact hun id m k hm

/-- What each defined step of a loop keeps, the loop keeps. -/
theorem foldlM_keeps {β : Type} {I : State → Prop} {f : State → β → Option State}
    (hf : ∀ s b s', I s → f s b = some s' → I s') {l : List β} (h : I s) (hl : l.foldlM f s = some s') : I s' := by
  induction l generalizing s with
  | nil => exact Option.some.inj hl ▸ h
  | cons b l ih =>
    rw [List.foldlM_cons, Option.bind_eq_bind, Option.bind_eq_some_iff] at hl
    obtain ⟨s₁, h₁, hl⟩ := hl
    exact ih (hf s b s₁ h h₁) hl

theorem Indexed.applyNode (h : Indexed s) (hx : applyNode s id = some s') : Indexed s' := by
  rw [SSet.applyNode, Option.bind_eq_some_iff] at hx
  obtain ⟨n, hn, hx⟩ := hx
  refine foldlM_keeps (fun s b s' hs hb => hs.txnApply hb) ?_ hx
  exact h.setNode hn rfl (fun k hk => h.mem _ n k hn hk) (fun k a hk => h.lock _ n k a hn hk)

theorem Indexed.txnCommits (h : Indexed s) {l : List Addr} (hq : Queued s l)
    (hc : l.foldlM SSet.txnCommit s = some s') : Indexed s' := by
  induction l generalizing s with
  | nil => exact Option.some.inj hc ▸ h
  | cons a l ih =>
    rw [List.foldlM_cons, Option.bind_eq_bind, Option.bind_eq_some_iff] at hc
    obtain ⟨s₁, h₁, hc⟩ := hc
    obtain ⟨hi, hq⟩ := h.txnCommit hq h₁
    exact ih hi hq hc

/-! ### The commit of the object -/

/-- Two states that differ in their nodes and atoms only. -/
structure SameFrame (s s' : State) : Prop where
  root : s'.root = s.root
  groups : s'.groups = s.groups
  ended : s'.ended = s.ended
  txnq : s'.txnq = s.txnq
  dirtyq : s'.dirtyq = s.dirtyq
  rmNodes : s'.rmNodes = s.rmNodes
  addNodes : s'.addNodes = s.addNodes
  nextNode : s'.nextNode = s.nextNode
  nextTxn : s'.nextTxn = s.nextTxn

theorem SameFrame.refl (s : State) : SameFrame s s := ⟨rfl, rfl, rfl, rfl, rfl, rfl, rfl, rfl, rfl⟩

theorem SameFrame.trans {s₁ : State} (h : SameFrame s s₁) (h' : SameFrame s₁ s') : SameFrame s s' :=
  ⟨h'.root.trans h.root, h'.groups.trans h.groups, h'.ended.trans h.ended, h'.txnq.trans h.txnq,
    h'.dirtyq.trans h.dirtyq, h'.rmNodes.trans h.rmNodes, h'.addNodes.trans h.addNodes,
    h'.nextNode.trans h.nextNode, h'.nextTxn.trans h.nextTxn⟩

theorem sameFrame_setNode (s : State) (id : NodeId) (n : Node) : SameFrame s (s.setNode id n) := by
  constructor <;> rfl

theorem sameFrame_freeTxn (s : State) (a : Addr) : SameFrame s (s.freeTxn a) := by
  constructor <;> rfl

theorem sameFrame_txnDetach (h : txnDetach s txn = some s') : SameFrame s s' := by
  rw [txnDetach, Option.map_eq_some_iff] at h
  obtain ⟨n, -, rfl⟩ := h
  exact sameFrame_setNode s _ _

theorem sameFrame_txnRevert (h : txnRevert s a = some s') : SameFrame s s' := by
  rw [txnRevert, Option.bind_eq_some_iff] at h
  obtain ⟨txn, -, h⟩ := h
  rw [Option.map_eq_some_iff] at h
  obtain ⟨s₁, hd, rfl⟩ := h
  exact (sameFrame_txnDetach hd).trans (sameFrame_freeTxn s₁ a)

theorem sameFrame_txnCommit (h : txnCommit s a = some s') : SameFrame s s' := by
  rw [txnCommit, Option.bind_eq_some_iff] at h
  obtain ⟨txn, -, h⟩ := h
  cases hp : txn.parent with
  | none =>
    simp only [hp, txnAttach, Option.map_eq_some_iff] at h
    obtain ⟨n, -, rfl⟩ := h
    cases n.txnLocks.lookup txn.key with
    | none => exact sameFrame_setNode s _ _
    | some old => exact (sameFrame_setNode s _ _).trans (sameFrame_freeTxn _ old)
  | some p =>
    simp only [hp, Option.map_eq_some_iff] at h
    obtain ⟨s₁, hr, rfl⟩ := h
    split_ifs
    · exact (sameFrame_txnRevert hr).trans (sameFrame_freeTxn s₁ a)
    · exact sameFrame_txnRevert hr

theorem sameFrame_txnApply (h : txnApply s a = some s') : SameFrame s s' := by
  rw [txnApply, Option.bind_eq_some_iff] at h
  obtain ⟨txn, -, h⟩ := h
  rw [Option.bind_eq_some_iff] at h
  obtain ⟨s₁, hd, h⟩ := h
  rw [Option.map_eq_some_iff] at h
  obtain ⟨n, -, rfl⟩ := h
  refine SameFrame.trans ?_ ((sameFrame_setNode s₁ _ _).trans (sameFrame_freeTxn _ a))
  split_ifs at hd
  · exact sameFrame_txnDetach hd
  · exact Option.some.inj hd ▸ SameFrame.refl s

theorem sameFrame_foldlM {β : Type} {f : State → β → Option State}
    (hf : ∀ s b s', f s b = some s' → SameFrame s s') {l : List β} (h : l.foldlM f s = some s') : SameFrame s s' :=
  foldlM_keeps (I := SameFrame s) (fun _ b _ hs hb => hs.trans (hf _ b _ hb)) (SameFrame.refl s) h

theorem sameFrame_applyNode (h : applyNode s id = some s') : SameFrame s s' := by
  rw [applyNode, Option.bind_eq_some_iff] at h
  obtain ⟨n, -, h⟩ := h
  exact (sameFrame_setNode s id _).trans (sameFrame_foldlM (fun s b s' hb => sameFrame_txnApply hb) h)

/-- The two loops of a commit over the queued atoms. -/
def commitAtoms (s : State) : Option State :=
  (s.txnq.foldlM txnCommit { s with txnq := [] }).bind (fun s =>
    s.dirtyq.foldlM applyNode { s with dirtyq := [] })

theorem objectCommit_eq (hrm : s.rmNodes = []) (hadd : s.addNodes = []) : objectCommit s = commitAtoms s := by
  obtain ⟨root, nodes, txns, groups, ended, txnq, dirtyq, rmNodes, addNodes, nextNode, nextTxn⟩ := s
  obtain rfl : rmNodes = [] := hrm
  obtain rfl : addNodes = [] := hadd
  rfl

theorem Staged.commitAtoms (h : Staged s) (hc : commitAtoms s = some s') : Staged s' := by
  rw [SSet.commitAtoms, Option.bind_eq_some_iff] at hc
  obtain ⟨s₁, hx, hy⟩ := hc
  have hf₁ := sameFrame_foldlM (fun s b s' hb => sameFrame_txnCommit hb) hx
  have hf₂ := sameFrame_foldlM (fun s b s' hb => sameFrame_applyNode hb) hy
  have h₀ : Indexed { s with txnq := [] } := h.indexed.congr rfl rfl rfl rfl rfl
  have hq₀ : Queued { s with txnq := [] } s.txnq := h.queued.congr rfl rfl rfl
  have h₁ : Indexed { s₁ with dirtyq := [] } := (h₀.txnCommits hq₀ hx).congr rfl rfl rfl rfl rfl
  refine ⟨foldlM_keeps (fun s id s' hs hb => hs.applyNode hb) h₁ hy, ?_, ?_, ?_⟩
  · rw [hf₂.txnq, hf₁.txnq]
    exact Queued.nil _
  · rw [hf₂.rmNodes, hf₁.rmNodes, h.rmNodes]
  · rw [hf₂.addNodes, hf₁.addNodes, h.addNodes]

theorem Staged.objectCommit (h : Staged s) (hc : objectCommit s = some s') : Staged s' :=
  h.commitAtoms (objectCommit_eq h.rmNodes h.addNodes ▸ hc)

theorem Staged.committed {r : State × Errno × Option Bytes} {e : Response} (h : Staged r.1)
    (hc : committed r = some (s', e)) : Staged s' := by
  rw [SSet.committed, Option.map_eq_some_iff] at hc
  obtain ⟨s₁, h₁, heq⟩ := hc
  obtain ⟨rfl, -⟩ := Prod.mk.inj heq
  split_ifs at h₁
  · exact h.objectCommit h₁
  · exact Option.some.inj h₁ ▸ h

theorem Staged.objectApply (h : Staged s) (ho : objectApply s a = some s') : Staged s' := by
  rw [SSet.objectApply, Option.bind_eq_some_iff] at ho
  obtain ⟨txn, -, ho⟩ := ho
  exact h.enqueue ho

theorem Staged.objectRevert (h : Staged s) (ho : objectRevert s a = some s') : Staged s' := by
  have hf := sameFrame_txnRevert ho
  obtain ⟨hi, hq⟩ := h.indexed.txnRevert h.queued ho
  exact ⟨hi, hf.txnq ▸ hq, hf.rmNodes.trans h.rmNodes, hf.addNodes.trans h.addNodes⟩

theorem Staged.endTxn {f : State → Addr → Option State}
    (hf : ∀ s a s', Staged s → f s a = some s' → Staged s') (h : Staged s) (he : endTxn s t f = some s') :
    Staged s' := by
  rw [SSet.endTxn, Option.bind_eq_some_iff] at he
  obtain ⟨s₁, h₁, he⟩ := he
  rw [Option.map_eq_some_iff] at he
  obtain ⟨s₂, h₂, rfl⟩ := he
  have hs₁ : Staged s₁ := foldlM_keeps hf h h₁
  have hs₂ : Staged s₂ := by
    split_ifs at h₂
    · exact Option.some.inj h₂ ▸ hs₁
    · exact hs₁.objectCommit h₂
  exact ⟨hs₂.indexed.congr rfl rfl rfl rfl rfl, hs₂.queued.congr rfl rfl rfl, hs₂.rmNodes, hs₂.addNodes⟩

end RaleighSL.Objects.SSet
