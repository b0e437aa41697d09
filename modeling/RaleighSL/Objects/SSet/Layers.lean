import RaleighSL.Objects.SSet.Balance

/-!
# The object without addresses

The nodes of the object under their first keys, without locks and queues, and
apart from them the pending write of each locked key. Reads and writes of this
machine search and change the same layers of a node as the object does. Where
the object loses track of its atoms, that is a second write of a transaction to
one key, or an update of a stored key by a transaction, the machine has no result.
-/
namespace RaleighSL.Objects.SSet
open RaleighSL.Core RaleighSL.Library RaleighSL.Zcl

/-- A pending write. -/
structure Write where
  txnId : TxnId
  type : TxnType
  item : MapItem
  deriving DecidableEq, Repr

structure Layers where
  nodes : SortedMap Bytes Node
  pending : SortedMap Bytes Write
  ended : List TxnId

def Write.effect (w : Write) : Option Bytes := if w.type = .remove then none else some w.item.value

/-- A pending write is an insert of a value or a remove with a delete marker. -/
def Write.Sound (w : Write) : Prop :=
  (w.type = .insert ∧ w.item.isDeleteMarker = false) ∨ (w.type = .remove ∧ w.item.isDeleteMarker = true)

def Txn.write (txn : Txn) : Write := { txnId := txn.txnId, type := txn.type, item := txn.item }

namespace Node

def bare (n : Node) : Node := { n with txnLocks := SortedMap.empty, commitq := [] }

/-- The value that a search below the locks finds. -/
def search (n : Node) (k : Bytes) : Option Bytes :=
  match n.memData.lookup k with
  | some item => if item.isDeleteMarker then none else some item.value
  | none => n.block.bind (fun b => bucketSearch 0 b k)

/-- The live entries of a node, whatever transactions have pending. -/
def contents (n : Node) : Option (List (Bytes × Bytes)) :=
  (blkIter n [] false).bind (fun it =>
    (MapMerger.three Source.txn .mem .blk (.ofList []) (.ofList n.memData.entries) it).collect
      ((MapMerger.three Source.txn .mem .blk (.ofList []) (.ofList n.memData.entries) it).size + 1)
      ((MapMerger.three Source.txn .mem .blk (.ofList []) (.ofList n.memData.entries) it).size + 1))

end Node

namespace Layers

def init : Layers :=
  { nodes := SortedMap.empty.insert [] (Node.alloc none), pending := SortedMap.empty, ended := [] }

def applyAt (m : SortedMap Bytes Node) (k : Bytes) (type : TxnType) (item : MapItem) : SortedMap Bytes Node :=
  match m.floor k with
  | none => m
  | some p => m.insert p.1 (p.2.apply type k item)

def write (L : Layers) (t : TxnId) (type : TxnType) (k : Bytes) (item : MapItem) : Layers :=
  if t = 0 then { L with nodes := applyAt L.nodes k type item }
  else { L with pending := L.pending.insert k { txnId := t, type := type, item := item } }

def insert (L : Layers) (t : TxnId) (allowUpdate : Bool) (k v : Bytes) : Option (Layers × Response) :=
  (L.nodes.floor k).bind (fun p =>
    match L.pending.lookup k with
    | some w =>
      if w.txnId ≠ t then some (L, .code .txnLockedKey none)
      else if allowUpdate then none else some (L, .code .dataKeyExists none)
    | none =>
      if (p.2.search k).isSome ∧ allowUpdate = false then some (L, .code .dataKeyExists none)
      else some (L.write t .insert k ⟨v, false⟩, .code .none none))

def remove (L : Layers) (t : TxnId) (k : Bytes) : Option (Layers × Response) :=
  (L.nodes.floor k).bind (fun p =>
    match L.pending.lookup k with
    | some w => if w.txnId ≠ t then some (L, .code .txnLockedKey none) else none
    | none =>
      match p.2.search k with
      | none => some (L, .code .dataKeyNotFound none)
      | some v => some (L.write t .remove k ⟨[], true⟩, .code .none (some v)))

def update (L : Layers) (t : TxnId) (k v : Bytes) : Option (Layers × Response) :=
  (L.nodes.floor k).bind (fun p =>
    match L.pending.lookup k with
    | some w => if w.txnId ≠ t then some (L, .code .txnLockedKey none) else none
    | none =>
      match p.2.search k with
      | none => some (L, .code .dataKeyNotFound none)
      | some old =>
        if t = 0 then
          some ((L.write 0 .remove k ⟨[], true⟩).write 0 .insert k ⟨v, false⟩, .code .none (some old))
        else none)

/-- A lookup of a locked key finds what the layers below the lock have. Its owner is also shown the
pending value; anybody else only what is in memory. -/
def get (L : Layers) (t : TxnId) (k : Bytes) : Option Response :=
  (L.nodes.floor k).map (fun p =>
    match L.pending.lookup k, p.2.memData.lookup k, p.2.block.bind (fun b => bucketSearch 0 b k) with
    | none, some item, _ => if item.isDeleteMarker then .code .dataKeyNotFound none else .code .none (some item.value)
    | none, none, some v => .code .none (some v)
    | none, none, none => .code .dataKeyNotFound none
    | some _, some item, _ => .code .none (some item.value)
    | some w, none, some v => if w.txnId = t then .code .none (some v) else .code .dataKeyNotFound none
    | some w, none, none => if w.txnId = t then .code .none (some w.item.value) else .code .dataKeyNotFound none)

def locksOf (L : Layers) (f : Bytes) : List (Bytes × Write) :=
  L.pending.entries.filter (fun p => (L.nodes.floor p.1).map Prod.fst = some f)

def own (t : TxnId) (l : List (Bytes × Write)) : List MapEntry :=
  l.filterMap (fun p => if p.2.txnId = t then some (p.1, ⟨p.2.item.value, decide (p.2.type = .remove)⟩) else none)

def iterOpen (L : Layers) (p : Bytes × Node) (t : TxnId) (key : Bytes) (includeKey : Bool) (seek : Nat) :
    Option (MapMerger Source) :=
  (if key = [] then some (.ofList (own t (L.locksOf p.1)))
    else stepOver key includeKey (.ofList (own t ((L.locksOf p.1).drop seek)))).bind (fun i₁ =>
      (memIter p.2 key includeKey).bind (fun i₂ =>
        (blkIter p.2 key includeKey).map (fun i₃ => MapMerger.three .txn .mem .blk i₁ i₂ i₃)))

def scanNodes (L : Layers) (t : TxnId) (includeKey : Bool) (seek : Nat) :
    List (Bytes × Node) → Bytes → Nat → Option (List (Bytes × Bytes))
  | [], _, _ => some []
  | _, _, 0 => some []
  | p :: ps, key, count + 1 =>
    (L.iterOpen p t key includeKey seek).bind (fun m =>
      (m.collect (m.size + 1) (count + 1)).bind (fun r =>
        (scanNodes L t includeKey seek ps [] (count + 1 - r.length)).map (r ++ ·)))

def scanStart (L : Layers) (key : Bytes) : List (Bytes × Node) :=
  if key = [] then L.nodes.entries
  else L.nodes.entries.drop ((L.nodes.entries.takeWhile (fun p => decide (p.1 ≤ key))).length - 1)

def writesOf (L : Layers) (t : TxnId) : List (Bytes × Write) := L.pending.entries.filter (fun p => p.2.txnId = t)

def release (L : Layers) (t : TxnId) : Layers :=
  { L with pending := L.pending.filter (fun p => p.2.txnId ≠ t), ended := t :: L.ended }

def applyAll (m : SortedMap Bytes Node) (l : List (Bytes × Write)) : SortedMap Bytes Node :=
  l.foldl (fun m p => applyAt m p.1 p.2.type p.2.item) m

/-- The blocks for the nodes that are too large. -/
def blocks : List (Bytes × Node) → Option (List Bucket)
  | [] => some []
  | p :: l =>
    if requiresBalance p.2 then
      (p.2.contents.bind cutBlocks).bind (fun bs => (blocks l).map (bs ++ ·))
    else blocks l

def balance (L : Layers) : Option Layers :=
  (blocks L.nodes.entries).map (fun bs =>
    { L with
        nodes := bs.foldl (fun m b => m.insert (firstKey b) (Node.alloc (some b)))
          (L.nodes.filter (fun p => ¬ requiresBalance p.2)) })

def serve (L : Layers) : Request → Option (Layers × Response)
  | .insert t allowUpdate k v =>
    if t ∈ L.ended then some (L, .code .txnNotFound none) else L.insert t allowUpdate k v
  | .update t k v => if t ∈ L.ended then some (L, .code .txnNotFound none) else L.update t k v
  | .remove t k => if t ∈ L.ended then some (L, .code .txnNotFound none) else L.remove t k
  | .get t k => if t ∈ L.ended then some (L, .code .txnNotFound none) else (L.get t k).map (fun r => (L, r))
  | .scan t key includeKey count seek =>
    if t ∈ L.ended then some (L, .code .txnNotFound none)
    else (L.scanNodes t includeKey seek (L.scanStart key) key count).map (fun l => (L, .entries l))
  | .apply t =>
    if t = 0 ∨ t ∈ L.ended then some (L, .code .txnNotFound none)
    else some ({ L.release t with nodes := applyAll L.nodes (L.writesOf t) }, .code .none none)
  | .revert t =>
    if t = 0 ∨ t ∈ L.ended then some (L, .code .txnNotFound none) else some (L.release t, .code .none none)
  | .balance => L.balance.map (fun L' => (L', .code .none none))

end Layers

end RaleighSL.Objects.SSet
