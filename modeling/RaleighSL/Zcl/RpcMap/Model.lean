import RaleighSL.Library.Chain
import RaleighSL.Library.Run
import Mathlib.Algebra.Order.Ring.Nat

/-!
# The map of pending calls

`io/rpc/rpc-map.c`: a hash table with chains that go through the calls themselves. A call is
known by its address. The memory of a new table holds anything until it is cleared, and the
number of bytes to clear is an `unsigned int`. The hash function is a parameter. The loops are bounded by a number, and a call
that trips the assertion or never returns has no result.
-/
namespace RaleighSL.Zcl.RpcMap

open Library

variable {γ : Type*}

/-- `struct z_rpc_map` and the fields of the calls in memory. -/
structure State (γ : Type*) where
  /-- The field `entry` of each bucket. -/
  buckets : Nat → Option γ
  size : Nat
  mask : Nat
  used : Nat
  /-- The field `hash` of a call. -/
  hash : γ → Option γ
  refs : γ → Nat
  /-- The field `req_id` of the context of a call. -/
  reqId : γ → UInt64

/-- A place that has a pointer to a call. -/
inductive Place (γ : Type*) where
  | bucket (i : Nat)
  | link (p : γ)

def State.read (s : State γ) : Place γ → Option γ
  | .bucket i => s.buckets i
  | .link p => s.hash p

/-- `z_atomic_inc` of an `unsigned int`. -/
def inc (n : Nat) : Nat := (n + 1) % 2 ^ 32

/-- `z_atomic_dec` of an `unsigned int`. -/
def dec (n : Nat) : Nat := (n + (2 ^ 32 - 1)) % 2 ^ 32

/-- `z_hash64a`. Each byte replaces what the bytes before it gave. -/
def hash64a (value : UInt64) : UInt64 :=
  ([56, 48, 40, 32, 24, 16, 8, 0] : List UInt64).foldl (fun _ k => (((value >>> k) &&& 0xff) ^^^ 5) * 0x100000001b3) 0xcbf29ce484222325

section

variable (hash64 : UInt64 → UInt64)

/-- `__htable_get_bucket`. -/
def slot (mask : Nat) (oid : UInt64) : Nat := (hash64 oid).toNat &&& mask

def newSize (required : Nat) : Nat → Nat → Option Nat
  | 0, _ => none
  | n + 1, size => if size < required then newSize required n (size * 2 % 2 ^ 32) else some size

def nodeBytes : Nat := 16

/-- The buckets of a new table after `z_memzero`. -/
def cleared (memory : Nat → Option γ) (size : Nat) : Nat → Option γ :=
  fun i => if i * nodeBytes < size * nodeBytes % 2 ^ 32 then none else memory i

/-- `__htable_find`: the place with the call, or the one behind the last call. -/
def State.find (s : State γ) (oid : UInt64) : Nat → Place γ → Option (Place γ)
  | 0, _ => none
  | n + 1, e =>
    match s.read e with
    | none => some e
    | some p => if s.reqId p = oid then some e else find s oid n (.link p)

/-- `__htable_find_entry`: the place with the call, if there is one. -/
def State.findEntry (s : State γ) (oid : UInt64) : Nat → Place γ → Option (Option (Place γ))
  | 0, _ => none
  | n + 1, e =>
    match s.read e with
    | none => some none
    | some p => if s.reqId p = oid then some (some e) else findEntry s oid n (.link p)

variable [DecidableEq γ]

def State.write (s : State γ) (e : Place γ) (p : Option γ) : State γ :=
  match e with
  | .bucket i => { s with buckets := Function.update s.buckets i p }
  | .link q => { s with hash := Function.update s.hash q p }

/-- The inner loop of `__htable_resize`, over the buckets of the new table and the links. -/
def relink (index : γ → Nat) : Nat → Option γ → (Nat → Option γ) × (γ → Option γ) →
    Option ((Nat → Option γ) × (γ → Option γ))
  | 0, _, _ => none
  | _ + 1, none, t => some t
  | n + 1, some p, (buckets, hash) =>
    relink index n (hash p)
      (Function.update buckets (index p) (some p), Function.update hash p (buckets (index p)))

/-- `__htable_resize`, when the allocation succeeds. -/
def State.resize (s : State γ) (memory : Nat → Option γ) (n required : Nat) : Option (State γ) :=
  (newSize required n 32).bind (fun size =>
    ((List.range s.size).foldlM
      (fun t i => relink (fun p => slot hash64 (size - 1) (s.reqId p)) n (s.buckets i) t)
      (cleared memory size, s.hash)).map (fun t =>
        { s with size := size, mask := size - 1, buckets := t.1, hash := t.2 }))

/-- `z_rpc_map_open`, with `__htable_open`. -/
def mapOpen (s : State γ) (memory : Nat → Option γ) (n : Nat) : Option (State γ) :=
  State.resize hash64 { s with used := 0, size := 0, mask := 0, buckets := fun _ => none } memory n 32

/-- `z_rpc_call_alloc`. -/
def State.alloc (s : State γ) (call : γ) (id : UInt64) : State γ :=
  { s with
    hash := Function.update s.hash call none
    refs := Function.update s.refs call 1
    reqId := Function.update s.reqId call id }

/-- `__htable_try_insert`. -/
def State.tryInsert (s : State γ) (memory : Nat → Option γ) (n : Nat) (entry : γ) : Option (State γ) :=
  (s.find (s.reqId entry) n (.bucket (slot hash64 s.mask (s.reqId entry)))).bind (fun node =>
    if (s.read node).isSome then none
    else
      let s := { s with hash := Function.update s.hash entry none }.write node (some entry)
      let s := { s with refs := Function.update s.refs entry (inc (s.refs entry)), used := inc s.used }
      if s.size * 2 % 2 ^ 32 ≤ s.used then s.resize hash64 memory n s.used else some s)

/-- `__htable_lookup`. -/
def State.lookup (s : State γ) (n : Nat) (oid : UInt64) : Option (State γ × Option γ) :=
  (s.findEntry oid n (.bucket (slot hash64 s.mask oid))).map (fun node =>
    match node.bind s.read with
    | some entry => ({ s with refs := Function.update s.refs entry (inc (s.refs entry)) }, some entry)
    | none => (s, none))

/-- `__htable_remove`. -/
def State.remove (s : State γ) (n : Nat) (oid : UInt64) : Option (State γ × Option γ) :=
  (s.findEntry oid n (.bucket (slot hash64 s.mask oid))).map (fun node =>
    match node with
    | some e =>
      match s.read e with
      | some entry => ({ s.write e (s.hash entry) with used := dec s.used }, some entry)
      | none => (s, none)
    | none => (s, none))

/-- A call of the map. An addition has the address and the identifier of its call, and what the memory of a new table
holds. -/
inductive Op (γ : Type*) where
  | add (call : γ) (id : UInt64) (memory : Nat → Option γ)
  | get (id : UInt64)
  | remove (id : UInt64)

/-- `z_rpc_map_add`, `z_rpc_map_get` and `z_rpc_map_remove`. -/
def step (n : Nat) (s : State γ) : Op γ → Option (State γ × Option γ)
  | .add call id memory => ((s.alloc call id).tryInsert hash64 memory n call).map (fun s => (s, some call))
  | .get id => s.lookup hash64 n id
  | .remove id => s.remove hash64 n id

end

end RaleighSL.Zcl.RpcMap
