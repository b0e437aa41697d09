import RaleighSL.Core.Transaction
import RaleighSL.Zcl.Bucket

/-!
# The sorted set object

`objects/sset/sset.c` spreads a set over nodes. A node has a tree of in-memory
items, a tree of the atoms that lock its keys and a block; the tree of nodes is
ordered by the first key of the blocks. Writes go through queues that
`__object_commit` empties, and `__object_balance` cuts the contents of a node into
new blocks.

Trees are finite maps in key order, nodes and atoms are reached through their
addresses. A result `none` stands for undefined behaviour (an atom or node that
was freed, a missing node, an overrun buffer) or for a loop that does not end.
Allocation never fails. The flag `requires_balancing` and the key and value
statistics of a node are not read by any of these functions and are left out.
-/
namespace RaleighSL.Objects.SSet
open RaleighSL.Core RaleighSL.Library RaleighSL.Zcl

abbrev NodeId := Nat

inductive TxnType where
  | insert
  | update
  | remove
  deriving DecidableEq, Repr

structure Txn where
  txnId : TxnId
  node : NodeId
  type : TxnType
  key : Bytes
  item : MapItem
  parent : Option Addr
  deriving DecidableEq, Repr

@[ext] structure Node where
  memData : SortedMap Bytes MapItem
  txnLocks : SortedMap Bytes Addr
  block : Option Bucket
  bufsize : Nat
  commitq : List Addr

/-- `__sset_block_first_key`: empty without a block. -/
def Node.firstKey (n : Node) : Bytes :=
  match n.block with
  | none => []
  | some b => Zcl.firstKey b

def Node.alloc (block : Option Bucket) : Node :=
  { memData := SortedMap.empty, txnLocks := SortedMap.empty, block := block, bufsize := 0, commitq := [] }

/-- The object, the atoms its transactions registered and the transactions that have ended. -/
@[ext] structure State where
  root : SortedMap Bytes NodeId
  nodes : NodeId → Option Node
  txns : Addr → Option Txn
  groups : TxnId → AtomGroup
  ended : List TxnId
  txnq : List Addr
  dirtyq : List NodeId
  rmNodes : List NodeId
  addNodes : List NodeId
  nextNode : NodeId
  nextTxn : Addr

/-- `__object_create`: one node without a block. -/
def create : State :=
  { root := SortedMap.empty.insert [] 0
    nodes := Function.update (fun _ => none) 0 (some (Node.alloc none))
    txns := fun _ => none
    groups := fun _ => AtomGroup.empty
    ended := []
    txnq := []
    dirtyq := []
    rmNodes := []
    addNodes := []
    nextNode := 1
    nextTxn := 1 }

namespace State

def live (s : State) (a : Addr) : Bool := (s.txns a).isSome

def setNode (s : State) (id : NodeId) (n : Node) : State :=
  { s with nodes := Function.update s.nodes id (some n) }

def freeTxn (s : State) (a : Addr) : State := { s with txns := Function.update s.txns a none }

/-- `__sset_node_free`: the atoms in the lock tree of a node are freed with it. -/
def freeNode (s : State) (id : NodeId) (n : Node) : State :=
  { s with
      nodes := Function.update s.nodes id none
      txns := fun a => if a ∈ n.txnLocks.entries.map Prod.snd then none else s.txns a }

end State

/-! ### Lookup -/

/-- What `__sset_node_mem_search` leaves in its `struct sset_entry` and returns. -/
structure Entry where
  txn : Option (Addr × Txn)
  fromMem : Bool
  value : Bytes
  found : Bool

/-- The search below the lock tree. -/
def searchData (n : Node) (k : Bytes) (txn : Option (Addr × Txn)) : Entry :=
  match n.memData.lookup k with
  | some item =>
    { txn := txn, fromMem := true, value := item.value, found := !item.isDeleteMarker || txn.isSome }
  | none =>
    match n.block.bind (fun b => bucketSearch 0 b k) with
    | some v => { txn := txn, fromMem := false, value := v, found := true }
    | none =>
      { txn := txn, fromMem := false, value := (txn.map (fun p => p.2.item.value)).getD [], found := txn.isSome }

def nodeMemSearch (s : State) (n : Node) (k : Bytes) (stopIfHasTxn : Bool) : Option Entry :=
  match n.txnLocks.lookup k with
  | none => some (searchData n k none)
  | some a => (s.txns a).map (fun txn =>
      if stopIfHasTxn then { txn := some (a, txn), fromMem := false, value := txn.item.value, found := true }
      else searchData n k (some (a, txn)))

def nodeLookup (s : State) (k : Bytes) : Option (NodeId × Node) :=
  (s.root.floor k).bind (fun p => (s.nodes p.2).map (fun n => (p.2, n)))

/-! ### Writes -/

/-- `z_dlink_move` of a node to the front of the dirty queue. -/
def moveFront (id : NodeId) (q : List NodeId) : List NodeId := id :: q.filter (fun i => i ≠ id)

/-- Queue an atom on its node for the next commit. -/
def enqueue (s : State) (id : NodeId) (a : Addr) : Option State :=
  (s.nodes id).map (fun n =>
    { s.setNode id { n with commitq := n.commitq ++ [a] } with dirtyq := moveFront id s.dirtyq })

def allocTxn (s : State) (txn : Txn) : State :=
  { s with txns := Function.update s.txns s.nextTxn (some txn), nextTxn := s.nextTxn + 1 }

def txnAdd (s : State) (t : TxnId) (id : NodeId) (type : TxnType) (k : Bytes) (item : MapItem) :
    Option State :=
  let s' := allocTxn s ⟨t, id, type, k, item, none⟩
  if t = 0 then enqueue s' id s.nextTxn
  else ((s.groups t).add s.live s.nextTxn).map (fun g =>
    { s' with groups := Function.update s.groups t g, txnq := s.txnq ++ [s.nextTxn] })

/-- The type of an atom written over another one of the same transaction, and whether it keeps the
item of the other. An atom of type `update` is never in a lock tree; written over with an insert it
would keep the item that the commit frees. -/
def compose : TxnType → TxnType → Option (TxnType × Bool)
  | .insert, .remove => some (.remove, true)
  | .insert, _ => some (.insert, false)
  | .update, .insert => none
  | .update, type => some (type, true)
  | .remove, .remove => some (.remove, true)
  | .remove, _ => some (.update, false)

def txnUpdate (s : State) (t : TxnId) (old : Addr) (txn : Txn) (type : TxnType) (k v : Bytes) :
    Option State :=
  (compose txn.type type).bind (fun c =>
    let new : Txn := ⟨t, txn.node, c.1, if c.2 then txn.key else k, if c.2 then txn.item else ⟨v, false⟩, some old⟩
    let s' := allocTxn s new
    if t = 0 then enqueue s' txn.node s.nextTxn
    else ((s.groups t).replace s'.live old (if c.1 = .remove then none else some s.nextTxn)).map (fun g =>
      { s' with groups := Function.update s.groups t g, txnq := s.txnq ++ [s.nextTxn] }))

def insert (s : State) (t : TxnId) (allowUpdate : Bool) (k v : Bytes) : Option (State × Errno) :=
  (nodeLookup s k).bind (fun p =>
    (nodeMemSearch s p.2 k true).bind (fun e =>
      let add := (txnAdd s t p.1 .insert k ⟨v, false⟩).map (fun s' => (s', Errno.none))
      if e.found then
        match e.txn with
        | some (a, txn) =>
          if txn.txnId ≠ t then some (s, .txnLockedKey)
          else if !allowUpdate then some (s, .dataKeyExists)
          else (txnUpdate s t a txn .insert k v).map (fun s' => (s', .none))
        | none => if !allowUpdate then some (s, .dataKeyExists) else add
      else add))

def remove (s : State) (t : TxnId) (k : Bytes) : Option (State × Errno × Option Bytes) :=
  (nodeLookup s k).bind (fun p =>
    (nodeMemSearch s p.2 k true).bind (fun e =>
      if e.found then
        match e.txn with
        | some (a, txn) =>
          if txn.txnId ≠ t then some (s, .txnLockedKey, none)
          else (txnUpdate s t a txn .remove [] []).map (fun s' => (s', .none, some e.value))
        | none => (txnAdd s t p.1 .remove k ⟨[], true⟩).map (fun s' => (s', .none, some e.value))
      else some (s, .dataKeyNotFound, none)))

def update (s : State) (t : TxnId) (k v : Bytes) : Option (State × Errno × Option Bytes) :=
  (remove s t k).bind (fun r =>
    if r.2.1 = .none then (insert r.1 t true k v).map (fun q => (q.1, q.2, r.2.2)) else some r)

/-! ### Commit -/

/-- `__sset_txn_detach`: whichever atom has the key leaves the lock tree of the node. -/
def txnDetach (s : State) (txn : Txn) : Option State :=
  (s.nodes txn.node).map (fun n => s.setNode txn.node { n with txnLocks := n.txnLocks.erase txn.key })

/-- `__sset_txn_attach`: an atom with the same key is replaced and freed. -/
def txnAttach (s : State) (a : Addr) (txn : Txn) : Option State :=
  (s.nodes txn.node).map (fun n =>
    let s' := s.setNode txn.node { n with txnLocks := n.txnLocks.insert txn.key a }
    match n.txnLocks.lookup txn.key with
    | none => s'
    | some old => s'.freeTxn old)

def txnRevert (s : State) (a : Addr) : Option State :=
  (s.txns a).bind (fun txn => (txnDetach s txn).map (fun s => s.freeTxn a))

def txnCommit (s : State) (a : Addr) : Option State :=
  (s.txns a).bind (fun txn =>
    match txn.parent with
    | some p => (txnRevert s p).map (fun s => if txn.type = .remove then s.freeTxn a else s)
    | none => txnAttach s a txn)

/-- The in-memory items of a node after an atom. -/
def Node.apply (n : Node) (type : TxnType) (key : Bytes) (item : MapItem) : Node :=
  match type with
  | .remove =>
    match n.memData.lookup key with
    | some _ => { n with memData := n.memData.erase key }
    | none => { n with memData := n.memData.insert key item }
  | _ =>
    { n with
        memData := n.memData.insert key item
        bufsize := (n.bufsize + key.length + item.value.length) % 2 ^ 32 }

def txnApply (s : State) (a : Addr) : Option State :=
  (s.txns a).bind (fun txn =>
    (if 0 < txn.txnId then txnDetach s txn else some s).bind (fun s =>
      (s.nodes txn.node).map (fun n => (s.setNode txn.node (n.apply txn.type txn.key txn.item)).freeTxn a)))

/-- `__sset_node_detach` and `__sset_node_free` of a node that was balanced. -/
def detachNode (s : State) (id : NodeId) : Option State :=
  (s.nodes id).map (fun n => { s.freeNode id n with root := s.root.erase n.firstKey })

/-- `__sset_node_attach`: a node with the same first key is replaced and freed. -/
def attachNode (s : State) (id : NodeId) : Option State :=
  (s.nodes id).bind (fun n =>
    match s.root.lookup n.firstKey with
    | none => some { s with root := s.root.insert n.firstKey id }
    | some old => (s.nodes old).map (fun o =>
        { s.freeNode old o with root := s.root.insert n.firstKey id }))

def applyNode (s : State) (id : NodeId) : Option State :=
  (s.nodes id).bind (fun n => n.commitq.foldlM txnApply (s.setNode id { n with commitq := [] }))

def objectCommit (s : State) : Option State :=
  (s.rmNodes.foldlM detachNode { s with rmNodes := [] }).bind (fun s =>
    (s.addNodes.foldlM attachNode { s with addNodes := [] }).bind (fun s =>
      (s.txnq.foldlM txnCommit { s with txnq := [] }).bind (fun s =>
        s.dirtyq.foldlM applyNode { s with dirtyq := [] })))

def objectApply (s : State) (a : Addr) : Option State :=
  (s.txns a).bind (fun txn => enqueue s txn.node a)

def objectRevert (s : State) (a : Addr) : Option State := txnRevert s a

/-! ### Iteration -/

/-- The three iterators of a node, in the order of their addition to the merger. -/
inductive Source where
  | txn
  | mem
  | blk
  deriving DecidableEq, Repr

def ownEntries (s : State) (t : TxnId) (locks : List (Bytes × Addr)) : List MapEntry :=
  locks.filterMap (fun p => (s.txns p.2).bind (fun txn =>
    if txn.txnId = t then some (p.1, ⟨txn.item.value, decide (txn.type = .remove)⟩) else none))

/-- The end of `z_map_iterator_seek_to`: without `include_key` an entry not above the key is skipped. -/
def stepOver (key : Bytes) (includeKey : Bool) (it : MapIterator) : Option MapIterator :=
  match it.rest with
  | [] => some it
  | e :: _ => if !includeKey && decide (e.1 ≤ key) then it.next else some it

/-- `z_tree_iter_seek_le`: from the last entry at or below the key, or from the first one. -/
def seekLe (key : Bytes) (l : List MapEntry) : List MapEntry :=
  l.drop ((l.takeWhile (fun e => decide (e.1 ≤ key))).length - 1)

/-- `__bucket_iter_seek`. -/
def seekGe (key : Bytes) (it : MapIterator) : Option MapIterator :=
  if it.rest.dropWhile (fun e => decide (e.1 < key)) = [] ∧ it.fault then none
  else some { it with rest := it.rest.dropWhile (fun e => decide (e.1 < key)) }

/-- The iterator over the locks of a node. Its seek compares the key with bytes of the atoms that
are not their keys, so it may stop at any of them: `seek` is the one it stops at. -/
def txnIter (s : State) (n : Node) (t : TxnId) (key : Bytes) (includeKey : Bool) (seek : Nat) :
    Option MapIterator :=
  if key = [] then some (MapIterator.ofList (ownEntries s t n.txnLocks.entries))
  else stepOver key includeKey (MapIterator.ofList (ownEntries s t (n.txnLocks.entries.drop seek)))

def memIter (n : Node) (key : Bytes) (includeKey : Bool) : Option MapIterator :=
  if key = [] then some (MapIterator.ofList n.memData.entries)
  else stepOver key includeKey (MapIterator.ofList (seekLe key n.memData.entries))

def blkIter (n : Node) (key : Bytes) (includeKey : Bool) : Option MapIterator :=
  match n.block with
  | none => some (MapIterator.ofList [])
  | some b =>
    if key = [] then some (bucketIter b)
    else (seekGe key (bucketIter b)).bind (stepOver key includeKey)

def nodeIterOpen (s : State) (n : Node) (t : TxnId) (key : Bytes) (includeKey : Bool) (seek : Nat) :
    Option (MapMerger Source) :=
  (txnIter s n t key includeKey seek).bind (fun i₁ =>
    (memIter n key includeKey).bind (fun i₂ =>
      (blkIter n key includeKey).map (fun i₃ =>
        MapMerger.three .txn .mem .blk i₁ i₂ i₃)))

/-! ### Balancing -/

def blockSpace : Nat := 8192 - 32

def syncSize : Nat := 4096

def kprefixSize : Nat := 128

def requiresBalance (n : Node) : Prop := syncSize ≤ n.bufsize

instance (n : Node) : Decidable (requiresBalance n) := inferInstanceAs (Decidable (_ ≤ _))

/-- The block loop of `__sset_node_balance` with a block begun: `prev` is its last key and `used` its
bytes. An entry that does not fit starts the next block. A key longer than the prefix buffer
overruns it; an entry that does not fit an empty block is tried forever. -/
def fillBlocks (block : Bucket) (used : Nat) (prev : Bytes) : List (Bytes × Bytes) → Option (List Bucket)
  | [] => some [block]
  | p :: l =>
    if kprefixSize < p.1.length then none
    else if used + (entryAfter prev p).size ≤ blockSpace then
      fillBlocks (block ++ [entryAfter prev p]) (used + (entryAfter prev p).size) p.1 l
    else if (entryAfter [] p).size ≤ blockSpace then
      (fillBlocks [entryAfter [] p] (entryAfter [] p).size p.1 l).map (block :: ·)
    else none

def cutBlocks : List (Bytes × Bytes) → Option (List Bucket)
  | [] => some []
  | p :: l =>
    if kprefixSize < p.1.length then none
    else if (entryAfter [] p).size ≤ blockSpace then
      fillBlocks [entryAfter [] p] (entryAfter [] p).size p.1 l
    else none

/-- All live entries of a node as a transaction sees them. -/
def nodeEntries (s : State) (n : Node) (t : TxnId) : Option (List (Bytes × Bytes)) :=
  (nodeIterOpen s n t [] false 0).bind (fun m => m.collect (m.size + 1) (m.size + 1))

def nodeBalance (s : State) (n : Node) : Option (List Bucket) := (nodeEntries s n 0).bind cutBlocks

/-- The first loop of `__object_balance`, over the nodes in tree order. -/
def balanceNodes (s : State) : List NodeId → Option (List NodeId × List Bucket)
  | [] => some ([], [])
  | id :: ids =>
    (s.nodes id).bind (fun n =>
      if requiresBalance n then
        (nodeBalance s n).bind (fun bs =>
          (balanceNodes s ids).map (fun r => (id :: r.1, bs ++ r.2)))
      else balanceNodes s ids)

/-- A node for each new block, queued in `add_nodes`. -/
def addBlocks (s : State) : List Bucket → State
  | [] => s
  | b :: bs =>
    addBlocks
      { s with
          nodes := Function.update s.nodes s.nextNode (some (Node.alloc (some b)))
          addNodes := s.addNodes ++ [s.nextNode]
          nextNode := s.nextNode + 1 } bs

def objectBalance (s : State) : Option State :=
  (balanceNodes s (s.root.entries.map Prod.snd)).map (fun r =>
    addBlocks { s with rmNodes := s.rmNodes ++ r.1 } r.2)

/-! ### Reads -/

def get (s : State) (t : TxnId) (k : Bytes) : Option (Errno × Option Bytes) :=
  (nodeLookup s k).bind (fun p =>
    (nodeMemSearch s p.2 k false).map (fun e =>
      if e.found then
        match e.txn with
        | some (_, txn) =>
          if txn.txnId = t then (.none, some e.value)
          else if e.fromMem then (.none, some e.value)
          else (.dataKeyNotFound, none)
        | none => (.none, some e.value)
      else (.dataKeyNotFound, none)))

/-- The node loop of `raleighsl_sset_scan`; only the first node is entered at the start key. -/
def scanNodes (s : State) (t : TxnId) (includeKey : Bool) (seek : Nat) :
    List NodeId → Bytes → Nat → Option (List (Bytes × Bytes))
  | [], _, _ => some []
  | _, _, 0 => some []
  | id :: ids, key, count + 1 =>
    (s.nodes id).bind (fun n =>
      (nodeIterOpen s n t key includeKey seek).bind (fun m =>
        (m.collect (m.size + 1) (count + 1)).bind (fun r =>
          (scanNodes s t includeKey seek ids [] (count + 1 - r.length)).map (r ++ ·))))

/-- The nodes a scan visits: all, or those from the one that covers the start key. -/
def scanStart (s : State) (key : Bytes) : List NodeId :=
  if key = [] then s.root.entries.map Prod.snd
  else
    (s.root.entries.drop ((s.root.entries.takeWhile (fun p => decide (p.1 ≤ key))).length - 1)).map Prod.snd

def scan (s : State) (t : TxnId) (key : Bytes) (includeKey : Bool) (count seek : Nat) :
    Option (List (Bytes × Bytes)) :=
  scanNodes s t includeKey seek (scanStart s key) key count

/-! ### Requests -/

inductive Request where
  | insert (t : TxnId) (allowUpdate : Bool) (k v : Bytes)
  | update (t : TxnId) (k v : Bytes)
  | remove (t : TxnId) (k : Bytes)
  | get (t : TxnId) (k : Bytes)
  | scan (t : TxnId) (key : Bytes) (includeKey : Bool) (count seek : Nat)
  | apply (t : TxnId)
  | revert (t : TxnId)
  | balance

inductive Response where
  | code (r : Errno) (value : Option Bytes)
  | entries (l : List (Bytes × Bytes))
  deriving DecidableEq, Repr

/-- A write that returned without an error is followed by `__object_commit`. -/
def committed (r : State × Errno × Option Bytes) : Option (State × Response) :=
  (if r.2.1 = .none then objectCommit r.1 else some r.1).map (fun s => (s, .code r.2.1 r.2.2))

/-- The end of a transaction: every atom in list order, then the commit of the object if the
transaction has a group for it. -/
def endTxn (s : State) (t : TxnId) (f : State → Addr → Option State) : Option State :=
  ((s.groups t).chain.foldlM f s).bind (fun s' =>
    (if (s.groups t).tail = none then some s' else objectCommit s').map (fun s'' =>
      { s'' with groups := Function.update s''.groups t AtomGroup.empty, ended := t :: s.ended }))

def serve (s : State) : Request → Option (State × Response)
  | .insert t allowUpdate k v =>
    if t ∈ s.ended then some (s, .code .txnNotFound none)
    else (insert s t allowUpdate k v).bind (fun r => committed (r.1, r.2, none))
  | .update t k v =>
    if t ∈ s.ended then some (s, .code .txnNotFound none) else (update s t k v).bind committed
  | .remove t k =>
    if t ∈ s.ended then some (s, .code .txnNotFound none) else (remove s t k).bind committed
  | .get t k =>
    if t ∈ s.ended then some (s, .code .txnNotFound none)
    else (get s t k).map (fun r => (s, .code r.1 r.2))
  | .scan t key includeKey count seek =>
    if t ∈ s.ended then some (s, .code .txnNotFound none)
    else (scan s t key includeKey count seek).map (fun l => (s, .entries l))
  | .apply t =>
    if t = 0 ∨ t ∈ s.ended then some (s, .code .txnNotFound none)
    else (endTxn s t objectApply).map (fun s' => (s', .code .none none))
  | .revert t =>
    if t = 0 ∨ t ∈ s.ended then some (s, .code .txnNotFound none)
    else (endTxn s t objectRevert).map (fun s' => (s', .code .none none))
  | .balance => (objectBalance s).bind (fun s' => (objectCommit s').map (fun s'' => (s'', .code .none none)))

end RaleighSL.Objects.SSet
