import RaleighSL.Library.Buckets
import RaleighSL.Library.Run
import Mathlib.Data.List.Basic
import Mathlib.Algebra.Order.Ring.Int

/-!
# The cache

`tools/cache/cache.c` keeps entries with reference counts in a hash table and in the lists of
a policy: one list for LRU; for 2Q the entries that were used again, those that came in, and
those that are about to go. An entry that is removed or evicted stays in memory until its
last reference is released, and is then given to `entry_free`.

The doubly linked lists are lists with the head first. A call that reads an entry that has
been freed has no result, and neither has a call that never returns. What the callers hold is
part of the state, and so are the calls of `entry_free`, each with what was true of the entry
at that moment.
-/
namespace RaleighSL.Zcl.Cache

open Library

inductive Kind where
  | lru
  | q2
  deriving DecidableEq, Repr

/-- The lists of the two policies. -/
inductive Queue where
  | lru
  | am
  | a1in
  | a1out
  deriving DecidableEq, Repr

def Queue.kind : Queue → Kind
  | .lru => .lru
  | _ => .q2

/-- `enum entry_states`, with one value for each list. -/
inductive EntryState where
  | isNew
  | isEvicted
  | isIn (q : Queue)
  deriving DecidableEq, Repr

/-- A call of `entry_free`: whether the entry was still in the table or in a list, and how many references the
callers had. -/
structure FreeCall (ε : Type*) where
  entry : ε
  linked : Bool
  holders : Nat
  deriving DecidableEq, Repr

structure Table (ε : Type*) where
  size : Nat
  used : Nat
  buckets : Nat → List ε

structure State (ε κ : Type*) where
  hit : Nat
  miss : Nat
  usage : Nat
  capacity : Nat
  table : Table ε
  kind : Kind
  kin : Nat
  kout : Nat
  /-- The counters `am_size`, `a1in_size` and `a1out_size`. -/
  sizes : Queue → Nat
  lists : Queue → List ε
  oid : ε → κ
  refs : ε → Nat
  state : ε → EntryState
  /-- The entries that were inserted and have not been freed. -/
  inserted : List ε
  /-- The entries that were not inserted because there was an older one. -/
  refused : List ε
  /-- The references of the callers. -/
  held : ε → Nat
  calls : List (FreeCall ε)
  /-- The entries in the order of their insertion. -/
  history : List ε
  /-- The entry that was inserted last for an object and not removed. -/
  latest : κ → Option ε

variable {ε κ : Type*}

/-- The counters have 32 bits. -/
def inc (n : Nat) : Nat := if n + 1 = 2 ^ 32 then 0 else n + 1

def dec (n : Nat) : Nat := if n = 0 then 2 ^ 32 - 1 else n - 1

/-! ### The hash table -/

/-- The loop of `__htable_resize` that finds the size, which never ends above 2^31. -/
def tableSize (required : Nat) : Nat → Nat → Option Nat
  | 0, _ => none
  | n + 1, size => if size < required then tableSize required n (size * 2) else some size

section

variable (hash : κ → Nat)

def slot (size : Nat) (k : κ) : Nat := hash k &&& (size - 1)

/-- `__htable_resize`. -/
def Table.resize (t : Table ε) (oid : ε → κ) (required : Nat) : Option (Table ε) :=
  (tableSize required 26 64).map (fun size =>
    { t with size := size, buckets := rehash (fun e => slot hash size (oid e)) (contents t.size t.buckets) })

/-- `__htable_find` and `__htable_find_entry`. -/
def Table.find [DecidableEq κ] (t : Table ε) (oid : ε → κ) (k : κ) : Option ε :=
  (t.buckets (slot hash t.size k)).find? (fun e => oid e = k)

/-- `__htable_try_insert` of an entry that is not there, with the growth of the table. -/
def Table.insert (t : Table ε) (oid : ε → κ) (e : ε) : Option (Table ε) :=
  let i := slot hash t.size (oid e)
  let t' : Table ε := { t with used := inc t.used, buckets := Function.update t.buckets i (t.buckets i ++ [e]) }
  if (t.size * 2) % 2 ^ 32 ≤ t'.used then t'.resize hash oid t'.used else some t'

/-- `__htable_remove` and `__htable_remove_entry` of an entry that is there. -/
def Table.remove [DecidableEq ε] (t : Table ε) (oid : ε → κ) (e : ε) : Table ε :=
  let i := slot hash t.size (oid e)
  { t with used := dec t.used, buckets := Function.update t.buckets i ((t.buckets i).erase e) }

end

/-! ### Entries and lists -/

variable [DecidableEq ε]

/-- The entry may be read: it was allocated and has not been freed. -/
def State.Valid (s : State ε κ) (e : ε) : Prop := e ∈ s.inserted ∨ e ∈ s.refused

instance (s : State ε κ) (e : ε) : Decidable (s.Valid e) := inferInstanceAs (Decidable (_ ∨ _))

/-- The entry can be reached from the table or from a list. -/
def State.reachable (s : State ε κ) (e : ε) : Bool :=
  e ∈ contents s.table.size s.table.buckets || [Queue.lru, .am, .a1in, .a1out].any (fun q => e ∈ s.lists q)

/-- `z_dlink_del`. -/
def State.unlink (s : State ε κ) (e : ε) : State ε κ := { s with lists := fun q => (s.lists q).erase e }

/-- `z_dlink_move`. -/
def State.relink (s : State ε κ) (q : Queue) (e : ε) : State ε κ :=
  { s with lists := Function.update (fun q => (s.lists q).erase e) q (e :: (s.lists q).erase e) }

def State.resize (s : State ε κ) (q : Queue) (f : Nat → Nat) : State ε κ :=
  { s with sizes := Function.update s.sizes q (f (s.sizes q)) }

def State.enter (s : State ε κ) (q : Queue) (e : ε) : State ε κ :=
  { s with
    lists := Function.update s.lists q (e :: s.lists q)
    state := Function.update s.state e (.isIn q) }

/-- An entry goes from a list to the head of another one, and both are counted. -/
def State.transfer (s : State ε κ) (q q' : Queue) (e : ε) : State ε κ :=
  { s with
    lists := Function.update (fun q => (s.lists q).erase e) q' (e :: (s.lists q').erase e)
    sizes := Function.update (Function.update s.sizes q' (inc (s.sizes q'))) q (dec (s.sizes q))
    state := Function.update s.state e (.isIn q') }

def release (s : State ε κ) (e : ε) : Option (State ε κ) :=
  if s.Valid e ∧ 0 < s.refs e then
    let s' := { s with refs := Function.update s.refs e (s.refs e - 1) }
    if s.refs e = 1 then
      some { s' with
        usage := dec s.usage
        inserted := s.inserted.erase e
        refused := s.refused.erase e
        calls := s.calls ++ [⟨e, s.reachable e, s.held e⟩] }
    else some s'
  else none

def lruInsert (s : State ε κ) (e : ε) : State ε κ :=
  if s.state e = .isNew then s.enter .lru e else s.relink .lru e

def q2Insert (s : State ε κ) (e : ε) : State ε κ :=
  match s.state e with
  | .isIn .am => s.relink .am e
  | .isIn .a1out => s.transfer .a1out .am e
  | .isIn .a1in => s.relink .a1in e
  | _ => (s.enter .a1in e).resize .a1in inc

def policyUpdate (s : State ε κ) (e : ε) : State ε κ :=
  if s.state e = .isEvicted then s
  else
    match s.kind with
    | .lru => lruInsert s e
    | .q2 => q2Insert s e

/-- The list whose counter `__q2_remove` changes. -/
def counted (s : State ε κ) (e : ε) : Option Queue :=
  match s.kind, s.state e with
  | .q2, .isIn .am => some .am
  | .q2, .isIn .a1in => some .a1in
  | .q2, .isIn .a1out => some .a1out
  | _, _ => none

def policyRemove (s : State ε κ) (e : ε) : Option (State ε κ) :=
  release (((counted s e).elim s (fun q => s.resize q dec)).unlink e) e

variable (hash : κ → Nat)

def entryReclaim (s : State ε κ) (e : ε) : Option (State ε κ × Bool) :=
  if s.Valid e then
    if e ∈ s.table.buckets (slot hash s.table.size (s.oid e)) then
      (release ({ s with table := s.table.remove hash s.oid e }.unlink e) e).map (fun s' => (s', true))
    else some (s, false)
  else none

/-- `__lru_reclaim`, over the entries of the list from its end. The function says whether an entry may be evicted. -/
def lruReclaim (evict : Nat → ε → Bool) : List ε → Nat → State ε κ → Option (State ε κ)
  | [], _, s => some s
  | e :: l, usage, s =>
    if s.capacity < usage then
      if evict usage e then (entryReclaim hash s e).bind (fun r => lruReclaim evict l (usage - 1) r.1) else some s
    else some s

def reclaimLast (s : State ε κ) (q : Queue) : Option (State ε κ × Bool) :=
  (s.lists q).getLast?.bind (fun e => entryReclaim hash (s.resize q dec) e)

def pageOut (s : State ε κ) : Option (State ε κ) :=
  (s.lists .a1in).getLast?.bind (fun e =>
    if s.Valid e then some (s.transfer .a1in .a1out e) else none)

/-- `__q2_reclaim`. When nothing can be evicted the loop goes on for ever. -/
def q2Reclaim : Nat → State ε κ → Option (State ε κ)
  | 0, _ => none
  | n + 1, s =>
    if s.capacity < s.usage ∧ 0 < s.sizes .a1in then
      if s.kin < s.sizes .a1in then
        (pageOut s).bind (fun s =>
          if s.kout < s.sizes .a1out then
            (reclaimLast hash s .a1out).bind (fun r => if r.2 then q2Reclaim n r.1 else some r.1)
          else q2Reclaim n s)
      else if 0 < s.sizes .am then
        (reclaimLast hash s .am).bind (fun r => if r.2 then q2Reclaim n r.1 else some r.1)
      else none
    else some s

/-- The function `reclaim` of the policy. Each round of the loop of 2Q takes an entry from a list. -/
def policyReclaim (evict : Nat → ε → Bool) (s : State ε κ) : Option (State ε κ) :=
  match s.kind with
  | .lru => lruReclaim hash evict (s.lists .lru).reverse s.usage s
  | .q2 => q2Reclaim hash ((s.lists .a1in).length + (s.lists .am).length + 1) s

/-! ### The calls -/

variable [DecidableEq κ]

/-- `z_cache_entry_init` of a new entry and `z_cache_try_insert`. -/
def tryInsert (evict : Nat → ε → Bool) (s : State ε κ) (e : ε) (k : κ) : Option (State ε κ × Option ε) :=
  let s := { s with
    oid := Function.update s.oid e k
    refs := Function.update s.refs e 1
    state := Function.update s.state e .isNew }
  match s.table.find hash s.oid k with
  | some old =>
    some (policyUpdate { s with
      refs := Function.update s.refs old (inc (s.refs old))
      held := Function.update (Function.update s.held e 1) old (s.held old + 1)
      refused := e :: s.refused
      hit := (s.hit + 1) % 2 ^ 64 } e, some old)
  | none =>
    (s.table.insert hash s.oid e).bind (fun table =>
      let s := policyUpdate { s with
        table := table
        refs := Function.update s.refs e (inc (s.refs e))
        held := Function.update s.held e 1
        inserted := e :: s.inserted
        history := s.history ++ [e]
        latest := Function.update s.latest k (some e) } e
      (policyReclaim hash evict { s with miss := (s.miss + 1) % 2 ^ 64, usage := inc s.usage }).map (fun s => (s, none)))

def lookup (s : State ε κ) (k : κ) : State ε κ × Option ε :=
  match s.table.find hash s.oid k with
  | some e =>
    let s := policyUpdate { s with
      refs := Function.update s.refs e (inc (s.refs e))
      held := Function.update s.held e (s.held e + 1) } e
    ({ s with hit := (s.hit + 1) % 2 ^ 64 }, some e)
  | none => ({ s with miss := (s.miss + 1) % 2 ^ 64 }, none)

/-- `z_cache_remove`. The state of the entry is written after the reference of the table has been released. -/
def remove (s : State ε κ) (k : κ) : Option (State ε κ × Option ε) :=
  match s.table.find hash s.oid k with
  | some e =>
    (policyRemove { s with table := s.table.remove hash s.oid e, latest := Function.update s.latest k none } e).bind
      (fun s => if s.Valid e then some ({ s with state := Function.update s.state e .isEvicted }, some e) else none)
  | none => some (s, none)

def reclaim (evict : Nat → ε → Bool) (s : State ε κ) (capacity : Nat) : Option (State ε κ) :=
  policyReclaim hash evict { s with capacity := capacity }

inductive Op (ε κ : Type*) where
  | tryInsert (e : ε) (k : κ) (evict : Nat → ε → Bool)
  | lookup (k : κ)
  | remove (k : κ)
  | release (e : ε)
  | reclaim (capacity : Nat) (evict : Nat → ε → Bool)
  /-- A caller gives the memory of an entry back that was not inserted. -/
  | drop (e : ε)

def step (s : State ε κ) : Op ε κ → Option (State ε κ × Option ε)
  | .tryInsert e k evict => tryInsert hash evict s e k
  | .lookup k => some (lookup hash s k)
  | .remove k => remove hash s k
  | .release e => (release { s with held := Function.update s.held e (s.held e - 1) } e).map (fun s => (s, none))
  | .reclaim capacity evict => (reclaim hash evict s capacity).map (fun s => (s, none))
  | .drop e => some ({ s with refused := s.refused.erase e, held := Function.update s.held e 0 }, none)

/-- What the callers do: a new entry is inserted, a reference that was obtained is released once, and only an entry
that was not inserted is dropped. -/
def Allowed (s : State ε κ) : Op ε κ → Prop
  | .tryInsert e _ _ => e ∉ s.inserted ∧ e ∉ s.refused
  | .lookup _ => True
  | .remove _ => True
  | .release e => 0 < s.held e
  | .reclaim _ _ => True
  | .drop e => e ∈ s.refused

/-- There is no older entry for the object of a new one, an entry that is removed is held by someone, and there is
room in the counters. -/
def Sound (s : State ε κ) : Op ε κ → Prop
  | .tryInsert _ k _ => s.table.find hash s.oid k = none ∧ s.usage < 2 ^ 31
  | .lookup k => ∀ e ∈ s.table.find hash s.oid k, s.refs e + 1 < 2 ^ 32
  | .remove k => ∀ e ∈ s.table.find hash s.oid k, 0 < s.held e
  | _ => True

instance (s : State ε κ) : (op : Op ε κ) → Decidable (Allowed s op)
  | .tryInsert _ _ _ => inferInstanceAs (Decidable (_ ∧ _))
  | .lookup _ => .isTrue trivial
  | .remove _ => .isTrue trivial
  | .release _ => inferInstanceAs (Decidable (_ < _))
  | .reclaim _ _ => .isTrue trivial
  | .drop _ => inferInstanceAs (Decidable (_ ∈ _))

instance (s : State ε κ) : (op : Op ε κ) → Decidable (Sound hash s op)
  | .tryInsert _ _ _ => inferInstanceAs (Decidable (_ ∧ _))
  | .lookup k => inferInstanceAs (Decidable (∀ e ∈ s.table.find hash s.oid k, _))
  | .remove k => inferInstanceAs (Decidable (∀ e ∈ s.table.find hash s.oid k, _))
  | .release _ => .isTrue trivial
  | .reclaim _ _ => .isTrue trivial
  | .drop _ => .isTrue trivial

def alloc (kind : Kind) (capacity : Nat) (oid : ε → κ) : Option (State ε κ) :=
  (tableSize capacity 26 64).map (fun size =>
    { hit := 0
      miss := 0
      usage := 0
      capacity := capacity
      table := ⟨size, 0, fun _ => []⟩
      kind := kind
      kin := 1
      kout := capacity / 2
      sizes := fun _ => 0
      lists := fun _ => []
      oid := oid
      refs := fun _ => 0
      state := fun _ => .isNew
      inserted := []
      refused := []
      held := fun _ => 0
      calls := []
      history := []
      latest := fun _ => none })

end RaleighSL.Zcl.Cache
