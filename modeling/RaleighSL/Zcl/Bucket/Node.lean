import RaleighSL.Zcl.Bucket
import RaleighSL.Zcl.Coding.IntGroup
import RaleighSL.Library.Run

/-!
# The node of a bucket

`tools/bucket/bucket-vprefix.c` keeps the entries of a bucket in one block of memory. The
keys grow up behind the header, each with a head byte and its three lengths, and the values
grow down from the end of the block. An entry that is fetched has the places of its key and
of its value; the place of the value comes from the one of the entry before.

The lengths and offsets are 32-bit numbers, and so is the sum that is compared with the free
space. A write that leaves the memory behind the header has no result.
-/
namespace RaleighSL.Zcl.BucketNode
open RaleighSL.Library Coding

def headSize : Nat := 32

/-- The fields of the header that are used, and the bytes behind the header. -/
structure Node where
  nhSize : Nat
  nhLastKey : Nat
  nhLastValue : Nat
  nhItems : Nat
  nhPrefix : Bool
  body : Bytes
  deriving DecidableEq, Repr

/-- `__node_create`. A block that is smaller than the header is overrun. -/
def create (size : Nat) : Option Node :=
  if size < headSize then none
  else
    some { nhSize := size, nhLastKey := headSize, nhLastValue := size, nhItems := 0, nhPrefix := false,
           body := List.replicate (size - headSize) 0 }

def Node.from (n : Node) (offset : Nat) : Bytes := n.body.drop (offset - headSize)

def write (body : Bytes) (offset : Nat) (data : Bytes) : Option Bytes :=
  if headSize ≤ offset ∧ offset - headSize + data.length ≤ body.length then
    some (body.take (offset - headSize) ++ data ++ body.drop (offset - headSize + data.length))
  else none

def spaceAvail (n : Node) : Nat := (n.nhLastValue + 2 ^ 32 - n.nhLastKey) % 2 ^ 32

/-- `__node_calc_khead`: the widths of the prefix, key and value lengths. -/
def calcKhead ( kprefix ksize vsize : Nat) : Nat × Nat × Nat :=
  (if 0 < kprefix then uint32Size kprefix else 0, uint32Size ksize, uint32Size vsize)

def kheadSize (length : Nat × Nat × Nat) : Nat := 1 + length.1 + length.2.1 + length.2.2

def headOf (e : BucketEntry) : Nat × Nat × Nat := calcKhead e.kprefix e.key.length e.value.length

/-- `__node_has_space`, where all operands are 32-bit numbers. -/
def hasSpace (n : Node) (e : BucketEntry) : Bool :=
  decide ((kheadSize (headOf e) + e.key.length + e.value.length) % 2 ^ 32 ≤ spaceAvail n)

def headByte (length : Nat × Nat × Nat) : Byte :=
  Fin.ofNat 256 (length.1 <<< 5 ||| (length.2.1 - 1) <<< 3 ||| (length.2.2 - 1) <<< 1)

def encodeKey (e : BucketEntry) : Bytes :=
  headByte (headOf e) :: encodeGroup [((headOf e).1, e.kprefix), ((headOf e).2.1, e.key.length),
    ((headOf e).2.2, e.value.length)] ++ e.key

def append (n : Node) (e : BucketEntry) : Option (Node × Nat) :=
  let ksize := (e.key.length + kheadSize (headOf e)) % 2 ^ 32
  if spaceAvail n < (ksize + e.value.length) % 2 ^ 32 then some (n, 1)
  else
    let lastValue := (n.nhLastValue + 2 ^ 32 - e.value.length) % 2 ^ 32
    (write n.body lastValue e.value).bind (fun body => (write body n.nhLastKey (encodeKey e)).map (fun body =>
      ({ nhSize := n.nhSize, nhLastKey := (n.nhLastKey + ksize) % 2 ^ 32, nhLastValue := lastValue,
         nhItems := (n.nhItems + 1) % 2 ^ 16, nhPrefix := n.nhPrefix || decide (0 < e.kprefix), body := body }, 0)))

/-- `z_bucket_entry_t`: the slices are places in the node. -/
structure Item where
  kprefix : Nat
  keyData : Nat
  keySize : Nat
  valueData : Nat
  valueSize : Nat
  isDeleted : Bool
  index : Nat
  deriving DecidableEq, Repr

/-- `__node_item_fetch`, behind an entry with the given place of its value and index. -/
def itemFetch (n : Node) (pkey valueData index : Nat) : Option (Option Item) :=
  if n.nhLastKey ≤ pkey then some none
  else
    match n.from pkey with
    | [] => none
    | head :: buf =>
      let length := (fetchBits head 3 5, 1 + fetchBits head 2 3, 1 + fetchBits head 2 1)
      (decodeGroup buf [length.1, length.2.1, length.2.2]).bind (fun ints =>
        match ints with
        | [ kprefix, ksize, vsize] =>
          if vsize ≤ valueData then
            some (some { kprefix := kprefix, keyData := pkey + kheadSize length, keySize := ksize,
                         valueData := valueData - vsize, valueSize := vsize,
                         isDeleted := decide (fetchBits head 1 0 ≠ 0), index := index + 1 })
          else none
        | _ => none)

def fetchFirst (n : Node) : Option (Option Item) := itemFetch n headSize n.nhSize 0

def fetchNext (n : Node) (item : Item) : Option (Option Item) :=
  itemFetch n (item.keyData + item.keySize) item.valueData item.index

def remove (n : Node) (item : Item) : Option Node :=
  let pbuf := item.keyData - kheadSize (calcKhead item.kprefix item.keySize item.valueSize)
  match n.from pbuf with
  | [] => none
  | head :: _ => some { n with body := n.body.set (pbuf - headSize) (head ||| 1) }

/-! ### The entries of a node -/

/-- An entry, and whether it is marked as removed. -/
structure Stored where
  entry : BucketEntry
  removed : Bool
  deriving DecidableEq, Repr

def itemsFrom (n : Node) : Nat → Option Item → Option (List Item)
  | _, none => some []
  | 0, some _ => none
  | fuel + 1, some item => (fetchNext n item).bind (fun next => (itemsFrom n fuel next).map (item :: ·))

/-- All entries, by `fetch_first` and `fetch_next`. Every one takes at least one byte of the keys. -/
def items (n : Node) : Option (List Item) := (fetchFirst n).bind (itemsFrom n n.nhLastKey)

def Node.slice (n : Node) (offset size : Nat) : Option Bytes :=
  if size ≤ (n.from offset).length then some ((n.from offset).take size) else none

def Item.read (n : Node) (item : Item) : Option Stored :=
  (n.slice item.keyData item.keySize).bind (fun key => (n.slice item.valueData item.valueSize).map (fun value =>
    { entry := { kprefix := item.kprefix, key := key, value := value }, removed := item.isDeleted }))

def contents (n : Node) : Option (List Stored) := (items n).bind (fun items => items.mapM (Item.read n))

/-! ### Calls -/

/-- A removal is of an entry that was fetched, here by its place among the entries. -/
inductive Op where
  | append (e : BucketEntry)
  | remove (i : Nat)
  deriving DecidableEq, Repr

/-- What `has_space` said before an addition, and the result. -/
structure Out where
  space : Bool
  result : Nat
  deriving DecidableEq, Repr

def step (n : Node) : Op → Option (Node × Out)
  | .append e => (append n e).map (fun r => (r.1, { space := hasSpace n e, result := r.2 }))
  | .remove i => (items n).bind (fun items => items[i]?.bind (fun item => (remove n item).map (fun n =>
      (n, { space := true, result := 0 }))))

def entrySize (e : BucketEntry) : Nat := kheadSize (headOf e) + e.key.length + e.value.length

def used (l : List Stored) : Nat := (l.map (fun s => entrySize s.entry)).sum

/-- The calls on a list of entries, for a node of the size. -/
def specStep (size : Nat) (l : List Stored) : Op → List Stored × Out
  | .append e =>
    if headSize + used l + entrySize e ≤ size then (l ++ [{ entry := e, removed := false }], { space := true, result := 0 })
    else (l, { space := false, result := 1 })
  | .remove i => (l.modify i (fun s => { s with removed := true }), { space := true, result := 0 })

end RaleighSL.Zcl.BucketNode
