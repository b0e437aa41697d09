import RaleighSL.Objects.SSet.Layers

/-!
# What the requests do to a tidy object

Between two requests the queues are empty, every atom locks its key in its node,
and the group of a transaction lists its atoms. From such a state each request
has an exact result, and it shows in the layers of the object.
-/
namespace RaleighSL.Objects.SSet
open RaleighSL.Core RaleighSL.Library RaleighSL.Zcl

/-- The list of a transaction holds its atoms, in the order of their registration. -/
structure GroupOf (s : State) (t : TxnId) : Prop where
  nodup : (s.groups t).chain.Nodup
  tail : (s.groups t).tail = (s.groups t).chain.getLast?
  mem : ∀ a, a ∈ (s.groups t).chain ↔ ∃ txn, s.txns a = some txn ∧ txn.txnId = t

structure Tidy (s : State) : Prop where
  indexed : Indexed s
  txnq : s.txnq = []
  dirtyq : s.dirtyq = []
  rmNodes : s.rmNodes = []
  addNodes : s.addNodes = []
  commitq : ∀ id n, s.nodes id = some n → n.commitq = []
  atom : ∀ a txn, s.txns a = some txn → ∃ n, s.nodes txn.node = some n ∧ n.txnLocks.lookup txn.key = some a
  group : ∀ t, GroupOf s t

variable {s s' : State} {t : TxnId} {k v : Bytes} {id : NodeId} {n : Node} {a : Addr} {txn : Txn}
  {type : TxnType} {item : MapItem}

/-! ### Atoms applied to their node -/

/-- The node after atoms were applied to it; those of a transaction leave its lock tree. -/
def Node.absorb (n : Node) (txs : List Txn) : Node :=
  txs.foldl (fun n txn =>
    (if 0 < txn.txnId then { n with txnLocks := n.txnLocks.erase txn.key } else n).apply
      txn.type txn.key txn.item) n

theorem txnApply_eq (ha : s.txns a = some txn) (hn : s.nodes txn.node = some n) :
    txnApply s a = some ((s.setNode txn.node (n.absorb [txn])).freeTxn a) := by
  by_cases ht : 0 < txn.txnId
  · simp [txnApply, ha, txnDetach, hn, ht, State.setNode, Node.absorb]
  · simp [txnApply, ha, hn, ht, Node.absorb]

theorem txnApplies_eq {l : List Addr} (hnd : l.Nodup) (hn : s.nodes id = some n)
    (hl : ∀ a ∈ l, ∃ txn, s.txns a = some txn ∧ txn.node = id) :
    l.foldlM txnApply s = some
      { s with
          nodes := Function.update s.nodes id (some (n.absorb (l.filterMap s.txns)))
          txns := fun a => if a ∈ l then none else s.txns a } := by
  induction l generalizing s n with
  | nil =>
    have hset : Function.update s.nodes id (some n) = s.nodes := by rw [← hn, Function.update_eq_self]
    simp [Node.absorb, hset]
  | cons a l ih =>
    rw [List.nodup_cons] at hnd
    obtain ⟨txn, ha, rfl⟩ := hl a List.mem_cons_self
    rw [List.foldlM_cons, txnApply_eq ha hn]
    have htxns (b : Addr) (hb : b ∈ l) :
        ((s.setNode txn.node (n.absorb [txn])).freeTxn a).txns b = s.txns b := by
      have hne : b ≠ a := fun hc => hnd.1 (hc ▸ hb)
      simp [State.freeTxn, State.setNode, hne]
    have hrest := ih (s := (s.setNode txn.node (n.absorb [txn])).freeTxn a) (n := n.absorb [txn]) hnd.2
      (by simp [State.freeTxn, State.setNode]) (by
        intro b hb
        rw [htxns b hb]
        exact hl b (List.mem_cons_of_mem _ hb))
    rw [Option.bind_eq_bind, Option.bind_some, hrest]
    have hmap : l.filterMap ((s.setNode txn.node (n.absorb [txn])).freeTxn a).txns = l.filterMap s.txns :=
      List.filterMap_congr htxns
    have hfree : (fun b => if b ∈ l then none else ((s.setNode txn.node (n.absorb [txn])).freeTxn a).txns b) =
        fun b => if b ∈ a :: l then none else s.txns b := by
      funext b
      by_cases hba : b = a
      · simp [hba, State.freeTxn]
      · simp [hba, State.freeTxn, State.setNode]
    rw [hmap, hfree]
    simp [State.freeTxn, State.setNode, ha, Node.absorb]

theorem applyNode_eq (hn : s.nodes id = some n) (hnd : n.commitq.Nodup)
    (hl : ∀ a ∈ n.commitq, ∃ txn, s.txns a = some txn ∧ txn.node = id) :
    applyNode s id = some
      { s with
          nodes := Function.update s.nodes id
            (some ({ n with commitq := [] }.absorb (n.commitq.filterMap s.txns)))
          txns := fun a => if a ∈ n.commitq then none else s.txns a } := by
  rw [applyNode, hn, Option.bind_some,
    txnApplies_eq (s := s.setNode id { n with commitq := [] }) (n := { n with commitq := [] }) hnd
      (by simp [State.setNode]) hl]
  simp [State.setNode]

/-- Without queued atoms of transactions a commit only applies the atoms queued on nodes. -/
theorem objectCommit_applies (s : State) (hq : s.txnq = []) (hrm : s.rmNodes = []) (hadd : s.addNodes = []) :
    objectCommit s = s.dirtyq.foldlM applyNode { s with dirtyq := [] } := by
  have hs : s.txnq.foldlM txnCommit { s with txnq := [] } = some s := by
    rw [hq]
    exact congrArg some (State.ext rfl rfl rfl rfl rfl hq.symm rfl rfl rfl rfl rfl)
  rw [objectCommit_eq hrm hadd, commitAtoms, hs, Option.bind_some]

theorem objectCommit_quiet (s : State) (hq : s.txnq = []) (hd : s.dirtyq = []) (hrm : s.rmNodes = [])
    (hadd : s.addNodes = []) : objectCommit s = some s := by
  rw [objectCommit_applies s hq hrm hadd, hd]
  exact congrArg some (State.ext rfl rfl rfl rfl rfl rfl hd.symm rfl rfl rfl rfl)

theorem objectCommit_dirty (s : State) (id : NodeId) (n : Node) (hq : s.txnq = []) (hrm : s.rmNodes = [])
    (hadd : s.addNodes = [])
    (hd : s.dirtyq = [id]) (hn : s.nodes id = some n) (hnd : n.commitq.Nodup)
    (hl : ∀ a ∈ n.commitq, ∃ txn, s.txns a = some txn ∧ txn.node = id) :
    objectCommit s = some
      { s with
          dirtyq := []
          nodes := Function.update s.nodes id
            (some ({ n with commitq := [] }.absorb (n.commitq.filterMap s.txns)))
          txns := fun a => if a ∈ n.commitq then none else s.txns a } := by
  rw [objectCommit_applies s hq hrm hadd, hd, List.foldlM_cons,
    applyNode_eq (s := { s with dirtyq := [] }) hn hnd hl]
  rfl

/-! ### Writes without a transaction -/

theorem Tidy.fresh_none (h : Tidy s) (ha : s.nextTxn ≤ a) : s.txns a = none := by
  cases htxn : s.txns a with
  | none => rfl
  | some txn => exact absurd (h.indexed.freshTxn a txn htxn).1 (Nat.not_lt.mpr ha)

/-- The object after a node was changed in place by atoms that came and went. -/
def replaced (s : State) (id : NodeId) (n : Node) (used : Nat) : State :=
  { s with nodes := Function.update s.nodes id (some n), nextTxn := s.nextTxn + used }

def enqueued (s : State) (n : Node) (txn : Txn) : State :=
  { s with
      txns := Function.update s.txns s.nextTxn (some txn)
      nextTxn := s.nextTxn + 1
      nodes := Function.update s.nodes txn.node (some { n with commitq := n.commitq ++ [s.nextTxn] })
      dirtyq := moveFront txn.node s.dirtyq }

theorem txnAdd_zero (type : TxnType) (k : Bytes) (item : MapItem) (hn : s.nodes id = some n) :
    txnAdd s 0 id type k item = some (enqueued s n ⟨0, id, type, k, item, none⟩) := by
  simp [txnAdd, enqueue, allocTxn, hn, State.setNode, enqueued]

theorem write_zero (h : Tidy s) (hn : s.nodes id = some n) :
    (txnAdd s 0 id type k item).bind objectCommit = some (replaced s id (n.apply type k item) 1) := by
  have hq := h.commitq id n hn
  rw [txnAdd_zero _ _ _ hn, Option.bind_some]
  have hcommit := objectCommit_dirty (enqueued s n ⟨0, id, type, k, item, none⟩) id
    { n with commitq := [s.nextTxn] } h.txnq h.rmNodes h.addNodes
    (by simp [enqueued, moveFront, h.dirtyq]) (by simp [enqueued, hq]) (by simp) (by simp [enqueued])
  have hnode : { n with commitq := [] } = n := by rw [← hq]
  have htxns : (fun a => if a = s.nextTxn then none
      else Function.update s.txns s.nextTxn (some ⟨0, id, type, k, item, none⟩) a) = s.txns := by
    funext a
    by_cases ha : a = s.nextTxn
    · simp [ha, h.fresh_none le_rfl]
    · simp [ha]
  rw [hcommit]
  simp [enqueued, replaced, Node.absorb, hnode, htxns, h.dirtyq]

theorem write_zero_twice (h : Tidy s) (hn : s.nodes id = some n) {s₁ : State}
    (h₁ : txnAdd s 0 id type k item = some s₁) (type' : TxnType) (item' : MapItem) :
    (txnAdd s₁ 0 id type' k item').bind objectCommit =
      some (replaced s id ((n.apply type k item).apply type' k item') 2) := by
  have hq := h.commitq id n hn
  rw [txnAdd_zero _ _ _ hn] at h₁
  obtain rfl := Option.some.inj h₁
  rw [txnAdd_zero _ _ _ (n := { n with commitq := [s.nextTxn] }) (by simp [enqueued, hq]), Option.bind_some]
  have hcommit := objectCommit_dirty
    (enqueued (enqueued s n ⟨0, id, type, k, item, none⟩) { n with commitq := [s.nextTxn] }
      ⟨0, id, type', k, item', none⟩)
    id { n with commitq := [s.nextTxn, s.nextTxn + 1] } h.txnq h.rmNodes h.addNodes
    (by simp [enqueued, moveFront, h.dirtyq]) (by simp [enqueued]) (by simp) (by simp [enqueued])
  have hnode : { n with commitq := [] } = n := by rw [← hq]
  have htxns : (fun a => if a = s.nextTxn ∨ a = s.nextTxn + 1 then none
      else Function.update (Function.update s.txns s.nextTxn (some ⟨0, id, type, k, item, none⟩)) (s.nextTxn + 1)
        (some ⟨0, id, type', k, item', none⟩) a) = s.txns := by
    funext a
    by_cases ha : a = s.nextTxn
    · simp [ha, h.fresh_none le_rfl]
    · by_cases ha' : a = s.nextTxn + 1
      · simp [ha', h.fresh_none (Nat.le_succ s.nextTxn)]
      · simp [ha, ha']
  rw [hcommit]
  simp [enqueued, replaced, Node.absorb, hnode, htxns, h.dirtyq, Nat.add_assoc]

theorem Indexed.bump (h : Indexed s) (used : Nat) : Indexed { s with nextTxn := s.nextTxn + used } :=
  ⟨h.nonempty, h.node, h.home, h.mem, h.block, h.lock, h.txn, h.freshNode,
    fun a txn ha => ⟨Nat.lt_add_right used (h.freshTxn a txn ha).1, (h.freshTxn a txn ha).2⟩⟩

theorem Tidy.replaced (h : Tidy s) {n' : Node} {used : Nat} (hn : s.nodes id = some n) (hb : n'.block = n.block)
    (hl : n'.txnLocks = n.txnLocks) (hq : n'.commitq = n.commitq)
    (hmem : ∀ k, n'.memData.lookup k ≠ none → Routes s k id) : Tidy (replaced s id n' used) where
  indexed := (h.indexed.setNode hn hb hmem (fun k a hk => h.indexed.lock id n k a hn (hl ▸ hk))).bump used
  txnq := h.txnq
  dirtyq := h.dirtyq
  rmNodes := h.rmNodes
  addNodes := h.addNodes
  commitq id' m hm := by
    rcases setNode_cases hm with ⟨rfl, rfl⟩ | ⟨-, hm⟩
    · rw [hq]
      exact h.commitq _ n hn
    · exact h.commitq id' m hm
  atom a txn ha := by
    obtain ⟨m, hm, hk⟩ := h.atom a txn ha
    by_cases hid : txn.node = id
    · refine ⟨n', by simp [SSet.replaced, hid], ?_⟩
      rw [hid, hn] at hm
      rw [hl, Option.some.inj hm, hk]
    · exact ⟨m, by simpa [SSet.replaced, hid] using hm, hk⟩
  group t := ⟨(h.group t).nodup, (h.group t).tail, (h.group t).mem⟩

/-! ### Writes of a transaction -/

def locked (s : State) (n : Node) (txn : Txn) : State :=
  { s with
      txns := Function.update s.txns s.nextTxn (some txn)
      nextTxn := s.nextTxn + 1
      nodes := Function.update s.nodes txn.node (some { n with txnLocks := n.txnLocks.insert txn.key s.nextTxn })
      groups := Function.update s.groups txn.txnId
        { chain := (s.groups txn.txnId).chain ++ [s.nextTxn], tail := some s.nextTxn } }

theorem write_txn (h : Tidy s) (ht : t ≠ 0) (hn : s.nodes id = some n) (hl : n.txnLocks.lookup k = none) :
    (txnAdd s t id type k item).bind objectCommit = some (locked s n ⟨t, id, type, k, item, none⟩) := by
  have hlive (a : Addr) (ha : a ∈ (s.groups t).chain) : s.live a = true := by
    obtain ⟨txn, htxn, -⟩ := ((h.group t).mem a).mp ha
    simp [State.live, htxn]
  have hadd := AtomGroup.add_eq (h.group t).nodup (h.group t).tail hlive s.nextTxn
  rw [txnAdd, if_neg ht, hadd, Option.map_some, Option.bind_some]
  simp [objectCommit, h.rmNodes, h.addNodes, allocTxn, h.txnq, txnCommit, txnAttach, hn, hl, State.setNode, h.dirtyq,
    locked]

theorem Tidy.locked (h : Tidy s) (ht : txn.txnId ≠ 0) (hp : txn.parent = none) (hn : s.nodes txn.node = some n)
    (hr : Routes s txn.key txn.node) (hl : n.txnLocks.lookup txn.key = none) : Tidy (locked s n txn) := by
  have htxns {b : Addr} {x : Txn} (hb : (SSet.locked s n txn).txns b = some x) :
      (b = s.nextTxn ∧ x = txn) ∨ (b ≠ s.nextTxn ∧ s.txns b = some x) := by
    by_cases hbn : b = s.nextTxn
    · subst hbn
      simp only [SSet.locked, Function.update_self, Option.some.injEq] at hb
      exact Or.inl ⟨rfl, hb.symm⟩
    · exact Or.inr ⟨hbn, by simpa [SSet.locked, hbn] using hb⟩
  have halloc := h.indexed.allocTxn hr (h.indexed.freshNode _ n hn)
  have hnode : (allocTxn s txn).nodes txn.node = some n := hn
  refine ⟨?_, h.txnq, h.dirtyq, h.rmNodes, h.addNodes, ?_, ?_, ?_⟩
  · have hset : Indexed ((allocTxn s txn).setNode txn.node { n with txnLocks := n.txnLocks.insert txn.key s.nextTxn }) := by
      refine halloc.setNode hnode rfl (fun k hk => halloc.mem _ n k hnode hk) ?_
      intro k a hk
      rw [SortedMap.lookup_insert] at hk
      split_ifs at hk with hkey
      · rw [← Option.some.inj hk]
        exact ⟨txn, by simp [allocTxn], ht, hp, hkey.symm, rfl⟩
      · exact halloc.lock _ n k a hnode hk
    exact hset.congr rfl rfl rfl rfl rfl
  · intro id m hm
    rcases setNode_cases (s := s) hm with ⟨rfl, rfl⟩ | ⟨-, hm⟩
    · exact h.commitq _ n hn
    · exact h.commitq id m hm
  · intro a x ha
    rcases htxns ha with ⟨rfl, rfl⟩ | ⟨hne, ha⟩
    · exact ⟨{ n with txnLocks := n.txnLocks.insert x.key s.nextTxn }, by simp [SSet.locked], by simp⟩
    · obtain ⟨m, hm, hk⟩ := h.atom a x ha
      by_cases hid : x.node = txn.node
      · rw [hid, hn] at hm
        obtain rfl := Option.some.inj hm
        have hkey : x.key ≠ txn.key := by
          intro hc
          rw [hc, hl] at hk
          exact absurd hk (by simp)
        exact ⟨{ n with txnLocks := n.txnLocks.insert txn.key s.nextTxn }, by simp [SSet.locked, hid],
          (SortedMap.lookup_insert_of_ne _ _ hkey).trans hk⟩
      · exact ⟨m, by simpa [SSet.locked, hid] using hm, hk⟩
  · intro t
    have hfresh : s.nextTxn ∉ (s.groups t).chain := by
      intro hc
      obtain ⟨x, hx, -⟩ := ((h.group t).mem _).mp hc
      exact absurd (h.indexed.freshTxn _ x hx).1 (lt_irrefl _)
    by_cases htt : t = txn.txnId
    · subst htt
      refine ⟨?_, ?_, ?_⟩
      · simp only [SSet.locked, Function.update_self, List.nodup_append]
        refine ⟨(h.group _).nodup, List.nodup_singleton _, ?_⟩
        rintro a ha b hb rfl
        exact hfresh (List.mem_singleton.mp hb ▸ ha)
      · simp [SSet.locked]
      · intro a
        simp only [SSet.locked, Function.update_self, List.mem_append, List.mem_singleton, (h.group _).mem a]
        by_cases ha : a = s.nextTxn
        · simp [ha]
        · simp [ha]
    · refine ⟨by simpa [SSet.locked, htt] using (h.group t).nodup, by simpa [SSet.locked, htt] using (h.group t).tail, ?_⟩
      intro a
      simp only [SSet.locked, Function.update_of_ne htt, (h.group t).mem a]
      by_cases ha : a = s.nextTxn
      · have hnone := h.fresh_none (le_refl s.nextTxn)
        simp [ha, hnone, Ne.symm htt]
      · simp [ha]

/-! ### The end of a transaction -/

def atomsAt (s : State) (l : List Addr) (id : NodeId) : List Txn :=
  (l.filterMap s.txns).filter (fun txn => txn.node = id)

def commitqAt (s : State) (id : NodeId) : List Addr := ((s.nodes id).map Node.commitq).getD []

def drained (s : State) (ds : List NodeId) : State :=
  { s with
      nodes := fun id =>
        if id ∈ ds then
          (s.nodes id).map (fun n => { n with commitq := [] }.absorb (n.commitq.filterMap s.txns))
        else s.nodes id
      txns := fun a => (s.txns a).filter (fun txn => ¬ (txn.node ∈ ds ∧ a ∈ commitqAt s txn.node)) }

/-- The queue of a node holds atoms of this node, each once. -/
def QueueOk (s : State) (id : NodeId) : Prop :=
  ∃ n, s.nodes id = some n ∧ n.commitq.Nodup ∧ ∀ a ∈ n.commitq, ∃ txn, s.txns a = some txn ∧ txn.node = id

theorem applyNodes_eq {ds : List NodeId} (hnd : ds.Nodup) (hds : ∀ id ∈ ds, QueueOk s id) :
    ds.foldlM applyNode s = some (drained s ds) := by
  induction ds generalizing s with
  | nil =>
    have hs : drained s [] = s := by
      apply State.ext <;> simp [drained]
      funext a
      cases s.txns a <;> rfl
    rw [hs]
    rfl
  | cons id ds ih =>
    rw [List.nodup_cons] at hnd
    obtain ⟨n, hn, hq, hl⟩ := hds id List.mem_cons_self
    let s₁ : State :=
      { s with
          nodes := Function.update s.nodes id (some ({ n with commitq := [] }.absorb (n.commitq.filterMap s.txns)))
          txns := fun a => if a ∈ n.commitq then none else s.txns a }
    have hstep : applyNode s id = some s₁ := applyNode_eq hn hq hl
    have hnode (id' : NodeId) (hne : id' ≠ id) : s₁.nodes id' = s.nodes id' := by simp [s₁, hne]
    have htxn (a : Addr) (txn : Txn) (ha : s.txns a = some txn) (hne : txn.node ≠ id) : s₁.txns a = some txn := by
      have hnot : a ∉ n.commitq := by
        intro hc
        obtain ⟨x, hx, hxn⟩ := hl a hc
        rw [ha] at hx
        exact hne (Option.some.inj hx ▸ hxn)
      simp [s₁, hnot, ha]
    have hother (id' : NodeId) (hid' : id' ∈ ds) : QueueOk s₁ id' := by
      have hne : id' ≠ id := fun hc => hnd.1 (hc ▸ hid')
      obtain ⟨m, hm, hmq, hml⟩ := hds id' (List.mem_cons_of_mem _ hid')
      refine ⟨m, (hnode id' hne).trans hm, hmq, ?_⟩
      intro a ha
      obtain ⟨txn, htx, rfl⟩ := hml a ha
      exact ⟨txn, htxn a txn htx hne, rfl⟩
    rw [List.foldlM_cons, hstep, Option.bind_eq_bind, Option.bind_some, ih hnd.2 hother]
    congr 1
    apply State.ext <;> try rfl
    · funext id'
      by_cases hid : id' = id
      · subst hid
        simp [drained, hnd.1, s₁, hn]
      · by_cases hin : id' ∈ ds
        · obtain ⟨m, hm, -, hml⟩ := hds id' (List.mem_cons_of_mem _ hin)
          have hmap : m.commitq.filterMap s₁.txns = m.commitq.filterMap s.txns := by
            apply List.filterMap_congr
            intro a ha
            obtain ⟨txn, htx, rfl⟩ := hml a ha
            rw [htxn a txn htx hid, htx]
          simp [drained, hin, hnode id' hid, hm, hmap]
        · simp [drained, hin, hid, hnode id' hid]
    · funext a
      cases ha : s.txns a with
      | none => simp [drained, s₁, ha]
      | some txn =>
        by_cases hid : txn.node = id
        · by_cases hc : a ∈ n.commitq
          · have hcq : commitqAt s id = n.commitq := by simp [commitqAt, hn]
            simp [drained, s₁, ha, hc, Option.filter_some, hid, hcq]
          · have hcq : commitqAt s id = n.commitq := by simp [commitqAt, hn]
            simp [drained, s₁, ha, hc, Option.filter_some, hid, hcq, hnd.1]
        · have hcq : commitqAt s₁ txn.node = commitqAt s txn.node := by rw [commitqAt, commitqAt, hnode _ hid]
          simp [drained, ha, htxn a txn ha hid, Option.filter_some, hcq, hid]

theorem objectApplies_eq {l : List Addr} (hd : s.dirtyq.Nodup)
    (hl : ∀ a ∈ l, ∃ txn n, s.txns a = some txn ∧ s.nodes txn.node = some n) :
    ∃ ds, l.foldlM objectApply s = some
        { s with
            nodes := fun id => (s.nodes id).map (fun n =>
              { n with commitq := n.commitq ++ l.filter (fun a => (s.txns a).map Txn.node = some id) })
            dirtyq := ds } ∧
      ds.Nodup ∧ ∀ id, id ∈ ds ↔ id ∈ s.dirtyq ∨ ∃ a ∈ l, (s.txns a).map Txn.node = some id := by
  induction l generalizing s with
  | nil =>
    refine ⟨s.dirtyq, ?_, hd, by simp⟩
    apply congrArg some
    apply State.ext <;> simp
  | cons a l ih =>
    obtain ⟨txn, n, ha, hn⟩ := hl a List.mem_cons_self
    let s₁ : State := { s.setNode txn.node { n with commitq := n.commitq ++ [a] } with
      dirtyq := moveFront txn.node s.dirtyq }
    have hstep : objectApply s a = some s₁ := by simp [objectApply, ha, enqueue, hn, s₁]
    have hmem (id : NodeId) : id ∈ moveFront txn.node s.dirtyq ↔ id = txn.node ∨ id ∈ s.dirtyq := by
      by_cases hid : id = txn.node <;> simp [moveFront, hid]
    have hnode (id : NodeId) : s₁.nodes id = (s.nodes id).map (fun n =>
        { n with commitq := n.commitq ++ if txn.node = id then [a] else [] }) := by
      by_cases hid : id = txn.node
      · simp [s₁, State.setNode, hid, hn]
      · cases hm : s.nodes id <;> simp [s₁, State.setNode, hid, hm, Ne.symm hid]
    obtain ⟨ds, hds, hnd, hin⟩ := ih (s := s₁) (by
        simp only [s₁, moveFront, List.nodup_cons]
        exact ⟨by simp, hd.filter _⟩) (by
        intro b hb
        obtain ⟨x, m, hx, hm⟩ := hl b (List.mem_cons_of_mem _ hb)
        exact ⟨x, _, hx, by rw [hnode, hm, Option.map_some]⟩)
    refine ⟨ds, ?_, hnd, ?_⟩
    · rw [List.foldlM_cons, hstep, Option.bind_eq_bind, Option.bind_some, hds]
      apply congrArg some
      apply State.ext <;> try rfl
      funext id
      dsimp only
      rw [hnode id, Option.map_map]
      congr 1
      funext m
      by_cases hid : txn.node = id <;> simp [s₁, State.setNode, hid, ha]
    · intro id
      rw [hin id]
      simp only [s₁, hmem, List.mem_cons, exists_eq_or_imp, ha, Option.map_some, Option.some.injEq, State.setNode]
      constructor
      · rintro ((rfl | h) | h)
        · exact Or.inr (Or.inl rfl)
        · exact Or.inl h
        · exact Or.inr (Or.inr h)
      · rintro (h | rfl | h)
        · exact Or.inl (Or.inr h)
        · exact Or.inl (Or.inl rfl)
        · exact Or.inr h

def finished (s : State) (l : List Addr) (f : Node → List Txn → Node) : State :=
  { s with
      nodes := fun id => (s.nodes id).map (fun n => f n (atomsAt s l id))
      txns := fun a => if a ∈ l then none else s.txns a }

theorem filter_filterMap_atoms (s : State) (l : List Addr) (id : NodeId) :
    (l.filter (fun a => (s.txns a).map Txn.node = some id)).filterMap s.txns = atomsAt s l id := by
  induction l with
  | nil => rfl
  | cons a l ih =>
    rw [atomsAt] at ih ⊢
    cases ha : s.txns a with
    | none => simpa [ha] using ih
    | some txn =>
      by_cases hid : txn.node = id <;> simpa [ha, hid] using ih

theorem finished_nil (s : State) {f : Node → List Txn → Node} (hf : ∀ n, f n [] = n) : finished s [] f = s := by
  apply State.ext <;> simp [finished, atomsAt, hf]

theorem Tidy.chain_live (h : Tidy s) (ha : a ∈ (s.groups t).chain) :
    ∃ txn n, s.txns a = some txn ∧ txn.txnId = t ∧ s.nodes txn.node = some n ∧ n.txnLocks.lookup txn.key = some a := by
  obtain ⟨txn, htxn, ht⟩ := ((h.group t).mem a).mp ha
  obtain ⟨n, hn, hk⟩ := h.atom a txn htxn
  exact ⟨txn, n, htxn, ht, hn, hk⟩

theorem applies_chain (h : Tidy s) (t : TxnId) :
    ((s.groups t).chain.foldlM objectApply s).bind objectCommit =
      some (finished s (s.groups t).chain Node.absorb) := by
  obtain ⟨ds, hds, hnd, hin⟩ := objectApplies_eq (s := s) (l := (s.groups t).chain) (by simp [h.dirtyq]) (by
    intro a ha
    obtain ⟨txn, n, htxn, -, hn, -⟩ := h.chain_live ha
    exact ⟨txn, n, htxn, hn⟩)
  rw [hds, Option.bind_some]
  let s₁ : State := { s with
    nodes := fun id => (s.nodes id).map (fun n =>
      { n with commitq := n.commitq ++ (s.groups t).chain.filter (fun a => (s.txns a).map Txn.node = some id) })
    dirtyq := [] }
  have hnode (id : NodeId) (n : Node) (hn : s.nodes id = some n) : s₁.nodes id = some
      { n with commitq := (s.groups t).chain.filter (fun a => (s.txns a).map Txn.node = some id) } := by
    simp [s₁, hn, h.commitq id n hn]
  have hcommitq (id : NodeId) (n : Node) (hn : s.nodes id = some n) :
      commitqAt s₁ id = (s.groups t).chain.filter (fun a => (s.txns a).map Txn.node = some id) := by
    rw [commitqAt, hnode id n hn]
    rfl
  have hqueue (id : NodeId) (hid : id ∈ ds) : QueueOk s₁ id := by
    obtain ⟨a, ha, hnodeOf⟩ := ((hin id).mp hid).resolve_left (by simp [h.dirtyq])
    obtain ⟨txn, n, htxn, -, hn, -⟩ := h.chain_live ha
    obtain rfl : txn.node = id := by simpa [htxn] using hnodeOf
    refine ⟨_, hnode _ n hn, (h.group t).nodup.filter _, ?_⟩
    intro b hb
    obtain ⟨hb, hbn⟩ := List.mem_filter.mp hb
    simpa using hbn
  have hcommit : objectCommit { s₁ with dirtyq := ds } = ds.foldlM applyNode s₁ :=
    objectCommit_applies { s₁ with dirtyq := ds } h.txnq h.rmNodes h.addNodes
  rw [hcommit, applyNodes_eq hnd hqueue]
  apply congrArg some
  apply State.ext <;> try rfl
  · funext id
    cases hn : s.nodes id with
    | none => simp [drained, finished, s₁, hn]
    | some n =>
      have hq : { n with commitq := [] } = n := by rw [← h.commitq id n hn]
      by_cases hid : id ∈ ds
      · have hatoms := filter_filterMap_atoms s (s.groups t).chain id
        simp only [drained, hid, if_true, hnode id n hn, Option.map_some, finished, hn, hq]
        rw [← hatoms]
      · have hnil : (s.groups t).chain.filter (fun a => (s.txns a).map Txn.node = some id) = [] := by
          rw [List.filter_eq_nil_iff]
          intro a ha hc
          exact hid ((hin id).mpr (Or.inr ⟨a, ha, of_decide_eq_true hc⟩))
        have hatoms : atomsAt s (s.groups t).chain id = [] := by rw [← filter_filterMap_atoms, hnil]; rfl
        simp only [drained, hid, if_false, hnode id n hn, hnil, hq, finished, hn, Option.map_some, hatoms]
        rfl
  · funext a
    cases ha : s.txns a with
    | none => simp [drained, finished, s₁, ha]
    | some txn =>
      obtain ⟨n, hn, -⟩ := h.atom a txn ha
      have hiff : (txn.node ∈ ds ∧ a ∈ commitqAt s₁ txn.node) ↔ a ∈ (s.groups t).chain := by
        rw [hcommitq _ n hn, List.mem_filter, hin]
        constructor
        · exact fun hc => hc.2.1
        · intro hc
          exact ⟨Or.inr ⟨a, hc, by simp [ha]⟩, hc, by simp [ha]⟩
      have hs₁ : s₁.txns a = some txn := ha
      simp only [drained, hs₁, Option.filter_some, hiff, finished, ha]
      by_cases hc : a ∈ (s.groups t).chain <;> simp [hc]
  · exact h.dirtyq.symm

/-- The node after atoms were taken out of its lock tree. -/
def Node.unlock (n : Node) (txs : List Txn) : Node :=
  { n with txnLocks := txs.foldl (fun m txn => m.erase txn.key) n.txnLocks }

theorem reverts_eq {l : List Addr} (hnd : l.Nodup)
    (hl : ∀ a ∈ l, ∃ txn n, s.txns a = some txn ∧ s.nodes txn.node = some n) :
    l.foldlM objectRevert s = some (finished s l Node.unlock) := by
  induction l generalizing s with
  | nil =>
    rw [finished_nil s (fun n => rfl)]
    rfl
  | cons a l ih =>
    rw [List.nodup_cons] at hnd
    obtain ⟨txn, n, ha, hn⟩ := hl a List.mem_cons_self
    let s₁ : State := (s.setNode txn.node (n.unlock [txn])).freeTxn a
    have hstep : objectRevert s a = some s₁ := by
      simp [objectRevert, txnRevert, txnDetach, ha, hn, s₁, Node.unlock]
    have htxn (b : Addr) (hb : b ∈ l) : s₁.txns b = s.txns b := by
      have hne : b ≠ a := fun hc => hnd.1 (hc ▸ hb)
      simp [s₁, State.freeTxn, State.setNode, hne]
    have hnode (id : NodeId) : s₁.nodes id = (s.nodes id).map (fun n =>
        n.unlock (if txn.node = id then [txn] else [])) := by
      by_cases hid : id = txn.node
      · simp [s₁, State.freeTxn, State.setNode, hid, hn]
      · cases hm : s.nodes id <;> simp [s₁, State.freeTxn, State.setNode, hid, hm, Ne.symm hid, Node.unlock]
    have hatoms (id : NodeId) : atomsAt s (a :: l) id = (if txn.node = id then [txn] else []) ++ atomsAt s₁ l id := by
      have hmap : l.filterMap s₁.txns = l.filterMap s.txns := List.filterMap_congr htxn
      by_cases hid : txn.node = id <;> simp [atomsAt, ha, hid, hmap]
    rw [List.foldlM_cons, hstep, Option.bind_eq_bind, Option.bind_some, ih hnd.2 (by
      intro b hb
      obtain ⟨x, m, hx, hm⟩ := hl b (List.mem_cons_of_mem _ hb)
      exact ⟨x, _, (htxn b hb).trans hx, by rw [hnode, hm, Option.map_some]⟩)]
    apply congrArg some
    apply State.ext <;> try rfl
    · funext id
      simp only [finished]
      rw [hnode id, hatoms id, Option.map_map]
      congr 1
      funext m
      simp [Node.unlock]
    · funext b
      by_cases hba : b = a
      · simp [finished, hba, s₁, State.freeTxn]
      · simp [finished, hba, s₁, State.freeTxn, State.setNode]

def closed (s : State) (t : TxnId) (f : Node → List Txn → Node) : State :=
  { finished s (s.groups t).chain f with
      groups := Function.update s.groups t AtomGroup.empty
      ended := t :: s.ended }

theorem Tidy.tail_none (h : Tidy s) (ht : (s.groups t).tail = none) : (s.groups t).chain = [] := by
  rw [(h.group t).tail] at ht
  exact List.getLast?_eq_none_iff.mp ht

theorem endTxn_apply (h : Tidy s) (t : TxnId) : endTxn s t objectApply = some (closed s t Node.absorb) := by
  by_cases ht : (s.groups t).tail = none
  · have hnil := h.tail_none ht
    have hfin := finished_nil s (f := Node.absorb) (fun n => rfl)
    simp [endTxn, hnil, ht, closed, hfin]
  · have happ := applies_chain h t
    rw [Option.bind_eq_some_iff] at happ
    obtain ⟨s₁, h₁, h₂⟩ := happ
    simp [endTxn, h₁, ht, h₂, closed, finished]

theorem endTxn_revert (h : Tidy s) (t : TxnId) : endTxn s t objectRevert = some (closed s t Node.unlock) := by
  have hrev := reverts_eq (h.group t).nodup (fun a ha => by
    obtain ⟨txn, n, htxn, -, hn, -⟩ := h.chain_live ha
    exact ⟨txn, n, htxn, hn⟩)
  have hcommit : objectCommit (finished s (s.groups t).chain Node.unlock) =
      some (finished s (s.groups t).chain Node.unlock) :=
    objectCommit_quiet _ h.txnq h.dirtyq h.rmNodes h.addNodes
  rw [endTxn, hrev, Option.bind_some]
  by_cases ht : (s.groups t).tail = none
  · rw [if_pos ht]
    rfl
  · rw [if_neg ht, hcommit]
    rfl

/-- What the end of a transaction does to a node: the atoms leave the lock tree, and at most the
items under their keys change. -/
structure Closes (f : Node → List Txn → Node) : Prop where
  block : ∀ n txs, (f n txs).block = n.block
  commitq : ∀ n txs, (f n txs).commitq = n.commitq
  mem : ∀ n txs k, (f n txs).memData.lookup k ≠ none → n.memData.lookup k ≠ none ∨ ∃ txn ∈ txs, txn.key = k
  lock : ∀ n txs k, (∀ txn ∈ txs, txn.txnId ≠ 0) →
    (f n txs).txnLocks.lookup k = if k ∈ txs.map Txn.key then none else n.txnLocks.lookup k

theorem foldl_erase_lookup (txs : List Txn) (m : SortedMap Bytes Addr) (k : Bytes) :
    (txs.foldl (fun m txn => m.erase txn.key) m).lookup k = if k ∈ txs.map Txn.key then none else m.lookup k := by
  induction txs generalizing m with
  | nil => simp
  | cons txn txs ih =>
    rw [List.foldl_cons, ih, SortedMap.lookup_erase]
    by_cases hk : k = txn.key <;> simp [hk]

theorem closes_unlock : Closes Node.unlock where
  block _ _ := rfl
  commitq _ _ := rfl
  mem _ _ _ hk := Or.inl hk
  lock n txs k _ := foldl_erase_lookup txs n.txnLocks k

theorem absorb_cons (n : Node) (txn : Txn) (txs : List Txn) : n.absorb (txn :: txs) = (n.absorb [txn]).absorb txs := rfl

theorem closes_absorb : Closes Node.absorb where
  block n txs := by
    induction txs generalizing n with
    | nil => rfl
    | cons txn txs ih =>
      rw [absorb_cons, ih]
      by_cases ht : 0 < txn.txnId <;> simp [Node.absorb, ht]
  commitq n txs := by
    induction txs generalizing n with
    | nil => rfl
    | cons txn txs ih =>
      rw [absorb_cons, ih]
      by_cases ht : 0 < txn.txnId <;> simp [Node.absorb, ht]
  mem n txs k := by
    induction txs generalizing n with
    | nil => exact Or.inl
    | cons txn txs ih =>
      rw [absorb_cons]
      intro hk
      rcases ih _ hk with hk | ⟨x, hx, hxk⟩
      · by_cases hkey : k = txn.key
        · exact Or.inr ⟨txn, List.mem_cons_self, hkey.symm⟩
        · left
          by_cases ht : 0 < txn.txnId <;> simpa [Node.absorb, ht, apply_lookup, hkey] using hk
      · exact Or.inr ⟨x, List.mem_cons_of_mem _ hx, hxk⟩
  lock n txs k := by
    induction txs generalizing n with
    | nil => simp [Node.absorb]
    | cons txn txs ih =>
      intro htxs
      have ht : 0 < txn.txnId := Nat.pos_of_ne_zero (htxs txn List.mem_cons_self)
      rw [absorb_cons, ih _ (fun x hx => htxs x (List.mem_cons_of_mem _ hx))]
      by_cases hk : k = txn.key
      · simp [hk, Node.absorb, ht]
      · simp [hk, Node.absorb, ht, SortedMap.lookup_erase_of_ne _ hk]

/-- The keys that a list of atoms locks in a node. -/
theorem Tidy.mem_atomsAt (h : Tidy s) : txn ∈ atomsAt s (s.groups t).chain id ↔
    txn.txnId = t ∧ txn.node = id ∧ ∃ a, s.txns a = some txn := by
  simp only [atomsAt, List.mem_filter, List.mem_filterMap, decide_eq_true_eq]
  constructor
  · rintro ⟨⟨a, ha, htxn⟩, hid⟩
    obtain ⟨x, hx, ht⟩ := ((h.group t).mem a).mp ha
    rw [htxn] at hx
    exact ⟨Option.some.inj hx ▸ ht, hid, a, htxn⟩
  · rintro ⟨ht, hid, a, ha⟩
    exact ⟨⟨a, ((h.group t).mem a).mpr ⟨txn, ha, ht⟩, ha⟩, hid⟩

theorem Tidy.atom_id_ne (h : Tidy s) (ha : s.txns a = some txn) : txn.txnId ≠ 0 := by
  obtain ⟨n, hn, hk⟩ := h.atom a txn ha
  exact (h.indexed.lock_place ha hn hk).1

theorem Tidy.closed_lock (h : Tidy s) {f : Node → List Txn → Node} (hf : Closes f) (hn : s.nodes id = some n)
    (k : Bytes) : (f n (atomsAt s (s.groups t).chain id)).txnLocks.lookup k =
      (n.txnLocks.lookup k).filter (fun a => a ∉ (s.groups t).chain) := by
  rw [hf.lock n _ k (fun txn htxn => by
    obtain ⟨-, -, a, ha⟩ := h.mem_atomsAt.mp htxn
    exact h.atom_id_ne ha)]
  cases hk : n.txnLocks.lookup k with
  | none => simp
  | some b =>
    obtain ⟨x, hx, -, -, hxk, hxid⟩ := h.indexed.lock id n k b hn hk
    have hiff : k ∈ (atomsAt s (s.groups t).chain id).map Txn.key ↔ b ∈ (s.groups t).chain := by
      rw [List.mem_map]
      constructor
      · rintro ⟨y, hy, hyk⟩
        obtain ⟨ht, hid, c, hc⟩ := h.mem_atomsAt.mp hy
        obtain ⟨m, hm, hmk⟩ := h.atom c y hc
        rw [hid, hn] at hm
        rw [hyk, ← Option.some.inj hm, hk] at hmk
        exact ((h.group t).mem b).mpr ⟨y, Option.some.inj hmk ▸ hc, ht⟩
      · intro hb
        obtain ⟨y, hy, ht⟩ := ((h.group t).mem b).mp hb
        rw [hx] at hy
        obtain rfl := Option.some.inj hy
        exact ⟨x, h.mem_atomsAt.mpr ⟨ht, hxid, b, hx⟩, hxk⟩
    by_cases hb : b ∈ (s.groups t).chain
    · simp [hiff.mpr hb, hb, Option.filter_some]
    · simp [mt hiff.mp hb, hb, Option.filter_some]

theorem Tidy.closed (h : Tidy s) {f : Node → List Txn → Node} (hf : Closes f) (t : TxnId) : Tidy (closed s t f) := by
  have hnode {id : NodeId} {m : Node} (hm : (SSet.closed s t f).nodes id = some m) :
      ∃ n, s.nodes id = some n ∧ m = f n (atomsAt s (s.groups t).chain id) := by
    simp only [SSet.closed, finished, Option.map_eq_some_iff] at hm
    obtain ⟨n, hn, rfl⟩ := hm
    exact ⟨n, hn, rfl⟩
  have hnode' {id : NodeId} {n : Node} (hn : s.nodes id = some n) :
      (SSet.closed s t f).nodes id = some (f n (atomsAt s (s.groups t).chain id)) := by
    simp [SSet.closed, finished, hn]
  have htxns {a : Addr} {txn : Txn} : (SSet.closed s t f).txns a = some txn ↔
      s.txns a = some txn ∧ a ∉ (s.groups t).chain := by
    by_cases ha : a ∈ (s.groups t).chain <;> simp [SSet.closed, finished, ha]
  have hlock {id : NodeId} {n : Node} (hn : s.nodes id = some n) {k : Bytes} {a : Addr} :
      (f n (atomsAt s (s.groups t).chain id)).txnLocks.lookup k = some a ↔
        n.txnLocks.lookup k = some a ∧ a ∉ (s.groups t).chain := by
    rw [h.closed_lock hf hn, Option.filter_eq_some_iff]
    simp
  have hroutes (k : Bytes) (id : NodeId) : Routes (SSet.closed s t f) k id ↔ Routes s k id := Iff.rfl
  refine ⟨⟨h.indexed.nonempty, ?_, ?_, ?_, ?_, ?_, ?_, ?_, ?_⟩, h.txnq, h.dirtyq, h.rmNodes, h.addNodes, ?_, ?_, ?_⟩
  · intro p hp
    obtain ⟨n, hn, hfirst⟩ := h.indexed.node p hp
    refine ⟨_, hnode' hn, ?_⟩
    rw [Node.firstKey, hf.block]
    exact hfirst
  · intro id m hm
    obtain ⟨n, hn, -⟩ := hnode hm
    exact h.indexed.home id n hn
  · intro id m k hm hk
    obtain ⟨n, hn, rfl⟩ := hnode hm
    rcases hf.mem n _ k hk with hk | ⟨txn, htxn, rfl⟩
    · exact h.indexed.mem id n k hn hk
    · obtain ⟨-, rfl, a, ha⟩ := h.mem_atomsAt.mp htxn
      exact h.indexed.txn a txn n ha hn
  · intro id m b hm hb
    obtain ⟨n, hn, rfl⟩ := hnode hm
    rw [hf.block] at hb
    exact h.indexed.block id n b hn hb
  · intro id m k a hm hk
    obtain ⟨n, hn, rfl⟩ := hnode hm
    obtain ⟨hk, ha⟩ := (hlock hn).mp hk
    obtain ⟨txn, htxn, hrest⟩ := h.indexed.lock id n k a hn hk
    exact ⟨txn, htxns.mpr ⟨htxn, ha⟩, hrest⟩
  · intro a txn m ha hm
    obtain ⟨n, hn, -⟩ := hnode hm
    exact h.indexed.txn a txn n (htxns.mp ha).1 hn
  · intro id m hm
    obtain ⟨n, hn, -⟩ := hnode hm
    exact h.indexed.freshNode id n hn
  · intro a txn ha
    exact h.indexed.freshTxn a txn (htxns.mp ha).1
  · intro id m hm
    obtain ⟨n, hn, rfl⟩ := hnode hm
    rw [hf.commitq]
    exact h.commitq id n hn
  · intro a txn ha
    obtain ⟨ha, hnot⟩ := htxns.mp ha
    obtain ⟨n, hn, hk⟩ := h.atom a txn ha
    exact ⟨_, hnode' hn, (hlock hn).mpr ⟨hk, hnot⟩⟩
  · intro t'
    by_cases ht : t' = t
    · subst ht
      refine ⟨by simp [SSet.closed, AtomGroup.empty], by simp [SSet.closed, AtomGroup.empty], ?_⟩
      intro a
      simp only [SSet.closed, AtomGroup.empty, Function.update_self, List.not_mem_nil, false_iff]
      rintro ⟨txn, ha, ht⟩
      obtain ⟨ha, hnot⟩ := htxns.mp ha
      exact hnot (((h.group t').mem a).mpr ⟨txn, ha, ht⟩)
    · refine ⟨by simpa [SSet.closed, ht] using (h.group t').nodup, by simpa [SSet.closed, ht] using (h.group t').tail, ?_⟩
      intro a
      have hgroup : ((SSet.closed s t f).groups t').chain = (s.groups t').chain := by simp [SSet.closed, ht]
      rw [hgroup, (h.group t').mem a]
      constructor
      · rintro ⟨txn, ha, rfl⟩
        refine ⟨txn, htxns.mpr ⟨ha, ?_⟩, rfl⟩
        intro hc
        obtain ⟨x, hx, hxt⟩ := ((h.group t).mem a).mp hc
        rw [ha] at hx
        exact ht (Option.some.inj hx ▸ hxt)
      · rintro ⟨txn, ha, htx⟩
        exact ⟨txn, (htxns.mp ha).1, htx⟩

end RaleighSL.Objects.SSet
