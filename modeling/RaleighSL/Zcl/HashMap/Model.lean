import RaleighSL.Library.Run
import RaleighSL.Zcl.Size
import Mathlib.Logic.Function.Basic
import Mathlib.Tactic.Common
import Mathlib.Algebra.Order.Ring.Int

/-!
# The hash map with open addressing

`tools/map/hashmap-open.c` keeps the entries of a map in one array and looks for a key in the
slots of a probe, which depend on the hash of the key and on the number of slots.
`tools/map/hashmap.c` doubles the array when a new entry finds no place. The constructor does not
set the size.

An access outside the array has no result, and neither has a comparison with an empty slot or the
removal from a slot that was not found. Allocations succeed.
-/
namespace RaleighSL.Zcl.HashMap

/-! ### The probe -/

def ilog2 (n : UInt32) : UInt32 :=
  let lg2 : UInt32 := if n &&& (n - 1) ≠ 0 then 1 else 0
  let (lg2, n) := if n >>> 16 ≠ 0 then (lg2 + 16, n >>> 16) else (lg2, n)
  let (lg2, n) := if n >>> 8 ≠ 0 then (lg2 + 8, n >>> 8) else (lg2, n)
  let (lg2, n) := if n >>> 4 ≠ 0 then (lg2 + 4, n >>> 4) else (lg2, n)
  let (lg2, n) := if n >>> 2 ≠ 0 then (lg2 + 2, n >>> 2) else (lg2, n)
  if n >>> 1 ≠ 0 then lg2 + 1 else lg2

/-- The slots of the inner loop of `__entry_probe`. -/
def probeFrom (mask shift : UInt64) : Nat → UInt64 → UInt64 → List Nat
  | 0, _, _ => []
  | count + 1, i, p =>
    let i := (i <<< 2) + i + p + 1
    (i &&& mask).toNat :: probeFrom mask shift count i (p >>> shift)

/-- The slots of `__entry_probe`, in order. -/
def probe (capacity : UInt32) (hash : UInt64) : List Nat :=
  let mask := (capacity - 1).toUInt64
  (hash &&& mask).toNat :: probeFrom mask (ilog2 capacity).toUInt64 capacity.toNat hash hash

/-! ### The table -/

structure OhtNode (δ : Type*) where
  hash : UInt64
  data : Option δ
  deriving DecidableEq, Repr

def OhtNode.zero {δ : Type*} : OhtNode δ := { hash := 0, data := none }

structure State (δ : Type*) where
  buckets : List (OhtNode δ)
  capacity : UInt32
  size : UInt32
  /-- There is a function `data_free`. -/
  frees : Bool
  deriving DecidableEq, Repr

variable {δ κ : Type*}

def State.free (s : State δ) (l : List δ) : List δ := if s.frees then l else []

variable [DecidableEq κ] (key : δ → κ)

/-- `__entry_match`. -/
def OhtNode.isMatch (node : OhtNode δ) (hash : UInt64) (k : κ) : Option Bool :=
  if node.hash = hash then node.data.map (fun d => key d = k) else some false

/-- `__node_lookup` in some slots. -/
def State.lookupIn (s : State δ) (hash : UInt64) (k : κ) : List Nat → Option (Option Nat)
  | [] => some none
  | i :: slots => (s.buckets[i]?).bind (fun node => (node.isMatch key hash k).bind (fun found =>
      if found then some (some i) else s.lookupIn hash k slots))

def State.lookup (s : State δ) (hash : UInt64) (k : κ) : Option (Option Nat) :=
  s.lookupIn key hash k (probe s.capacity hash)

/-- The loop of `__open_hash_map_put` over some slots, with `ientry`: the slot of the key, or the empty one. -/
def State.placeIn (s : State δ) (hash : UInt64) (k : κ) : Option Nat → List Nat → Option (Option Nat × Bool)
  | ientry, [] => some (ientry, false)
  | ientry, i :: slots => (s.buckets[i]?).bind (fun node =>
      if ientry = none ∧ node.data = none then s.placeIn hash k (some i) slots
      else (node.isMatch key hash k).bind (fun found => if found then some (some i, true) else s.placeIn hash k ientry slots))

variable [DecidableEq δ]

/-- `__open_hash_map_put`: the state, what is freed and the result. -/
def openPut (s : State δ) (hash : UInt64) (d : δ) : Option (State δ × List δ × Nat) :=
  (s.placeIn key hash (key d) none (probe s.capacity hash)).bind (fun place =>
    match place with
    | (some i, true) => (s.buckets[i]?).map (fun node =>
        ({ s with buckets := s.buckets.set i { node with data := some d } },
          if node.data = some d then [] else s.free node.data.toList, 0))
    | (some i, false) => if i < s.buckets.length then
        some ({ s with buckets := s.buckets.set i { hash := hash, data := some d }, size := s.size + 1 }, [], 0)
      else none
    | (none, _) => some (s, [], 1))

/-- The loop of `__open_hash_map_resize` over the old slots from the last to the first. -/
def reinsert : State δ → List (OhtNode δ) → Option (State δ × List δ)
  | s, [] => some (s, [])
  | s, node :: nodes =>
    match node.data with
    | none => reinsert s nodes
    | some d => (openPut key s node.hash d).bind (fun r => (reinsert r.1 nodes).map (fun q => (q.1, r.2.1 ++ q.2)))

/-- `__open_hash_map_resize`. -/
def resize (s : State δ) (capacity : UInt32) : Option (State δ × List δ) :=
  reinsert key { s with buckets := List.replicate capacity.toNat OhtNode.zero, capacity := capacity }
    s.buckets.reverse

omit [DecidableEq δ] in
def openPop (s : State δ) (hash : UInt64) (k : κ) : Option (State δ × Option δ) :=
  (s.lookup key hash k).bind (fun slot => slot.bind (fun i => (s.buckets[i]?).map (fun node =>
    ({ s with buckets := s.buckets.set i OhtNode.zero }, node.data))))

/-! ### The calls -/

variable (hash : κ → UInt64)

def put (s : State δ) (d : δ) : Option (State δ × List δ × Nat) :=
  (openPut key s (hash (key d)) d).bind (fun r =>
    if r.2.2 ≠ 0 then
      (resize key r.1 (r.1.size <<< 1)).bind (fun q => (openPut key q.1 (hash (key d)) d).map (fun p =>
        (p.1, q.2 ++ p.2.1, p.2.2)))
    else some r)

omit [DecidableEq δ] in
def get (s : State δ) (k : κ) : Option (Option δ) :=
  (s.lookup key (hash k) k).bind (fun slot =>
    match slot with
    | none => some none
    | some i => (s.buckets[i]?).map OhtNode.data)

omit [DecidableEq δ] in
def remove (s : State δ) (k : κ) : Option (State δ × List δ × Nat) :=
  (openPop key s (hash k) k).map (fun r =>
    match r.2 with
    | none => (r.1, [], 1)
    | some d => (r.1, s.free [d], 0))

inductive Op (δ κ : Type*) where
  | put (d : δ)
  | get (k : κ)
  | pop (k : κ)
  | remove (k : κ)

inductive Result (δ : Type*) where
  | status (n : Nat)
  | data (d : Option δ)
  deriving DecidableEq, Repr

/-- A call with what it returns and what it frees. -/
def step (s : State δ) : Op δ κ → Option (State δ × Result δ × List δ)
  | .put d => (put key hash s d).map (fun r => (r.1, .status r.2.2, r.2.1))
  | .get k => (get key hash s k).map (fun d => (s, .data d, []))
  | .pop k => (openPop key s (hash k) k).map (fun r => (r.1, .data r.2, []))
  | .remove k => (remove key hash s k).map (fun r => (r.1, .status r.2.2, r.2.1))

/-- `z_hash_map_alloc`, in memory where the size is some number. -/
def alloc (δ : Type*) (frees : Bool) (capacity size : UInt32) : State δ where
  buckets := List.replicate (alignUp capacity 8).toNat OhtNode.zero
  capacity := alignUp capacity 8
  size := size
  frees := frees

end RaleighSL.Zcl.HashMap
