import RaleighSL.Semantics.Flat

/-!
# Semantic requests

`core/semantic.c` creates, opens, unlinks and renames objects through the functions
of the semantic, here the flat one. A request is one scheduled task. Create, unlink
and rename run under the write lock of the semantic and go on to the commit of the
semantic if their function returned no error; open only reads.

What the object and its plugin give back is part of the request: the result of
`raleighsl_object_create`, whether the object cache had memory for the object, and the
results of its open and unlink methods.
-/
namespace RaleighSL.Core.Semantic
open RaleighSL.Core RaleighSL.Zcl RaleighSL.Objects RaleighSL.Semantics RaleighSL.Semantics.Flat

def reservedOids : Oid := 128

/-- `struct raleighsl_semantic`: the root object of the flat semantic and `next_oid`. -/
structure State where
  root : SSet.State
  nextOid : Oid

/-- After `raleighsl_semantic_alloc` and `__semantic_init`. -/
def State.init : State := { root := SSet.create, nextOid := reservedOids }

inductive Request where
  | create (name : Bytes) (alloc : Alloc) (created : Errno)
  | «open» (name : Bytes) (cached : Bool) (opened : Errno)
  | unlink (name : Bytes) (alloc : Alloc) (cached : Bool) (unlinked : Errno)
  | rename (oldName newName : Bytes) (alloc newAlloc : Alloc)

def Request.names : Request → List Bytes
  | .create name _ _ => [name]
  | .open name _ _ => [name]
  | .unlink name _ _ _ => [name]
  | .rename oldName newName _ _ => [oldName, newName]

/-- The error the task is notified with, or the object id of a create or an open. -/
abbrev Response := Except Errno (Option Oid)

instance : DecidableEq Response
  | .ok x, .ok y => decidable_of_iff (x = y) (by simp)
  | .error e, .error e' => decidable_of_iff (e = e') (by simp)
  | .ok _, .error _ => .isFalse (by simp)
  | .error _, .ok _ => .isFalse (by simp)

variable (hash : Bytes → Bytes)

/-- `raleighsl_semantic_create`. A name that the lookup finds is returned as it is. -/
def create (s : State) (name : Bytes) (alloc : Alloc) (created : Errno) : Option (State × Response) :=
  (Flat.lookup hash s.root name).bind (fun
    | .error .objectNotFound =>
      (Flat.create hash s.root name s.nextOid alloc).map (fun r =>
        let s' : State := { root := r.1, nextOid := (s.nextOid + 1) % 2 ^ 64 }
        if r.2 ≠ .none then (s', .error r.2)
        else if created ≠ .none then (s', .error created)
        else (s', .ok (some s.nextOid)))
    | .error errno => some (s, .error errno)
    | .ok oid => some (s, .ok (some oid)))

def «open» (s : State) (name : Bytes) (cached : Bool) (opened : Errno) : Option Response :=
  (Flat.lookup hash s.root name).map (fun
    | .error errno => .error errno
    | .ok oid =>
      if !cached then .error .noMemory
      else if opened ≠ .none then .error opened
      else .ok (some oid))

def unlink (s : State) (name : Bytes) (alloc : Alloc) (cached : Bool) (unlinked : Errno) : Option (State × Response) :=
  (Flat.unlink hash s.root name alloc).map (fun r =>
    let s' : State := { s with root := r.1 }
    match r.2 with
    | .error errno => (s', .error errno)
    | .ok _ =>
      if !cached then (s', .error .noMemory)
      else if unlinked ≠ .none then (s', .error unlinked)
      else (s', .ok none))

/-- `raleighsl_semantic_rename`. A new name that the lookup finds is left alone without an error. -/
def rename (s : State) (oldName newName : Bytes) (alloc newAlloc : Alloc) : Option (State × Response) :=
  (Flat.lookup hash s.root newName).bind (fun
    | .error .objectNotFound =>
      (Flat.unlink hash s.root oldName alloc).bind (fun r =>
        match r.2 with
        | .error errno => some ({ s with root := r.1 }, .error errno)
        | .ok oid =>
          (Flat.create hash r.1 newName oid newAlloc).map (fun q =>
            if q.2 ≠ .none then ({ s with root := q.1 }, .error q.2) else ({ s with root := q.1 }, .ok none)))
    | .error errno => some (s, .error errno)
    | .ok _ => some (s, .ok none))

/-- The end of a task that writes: without an error it goes on to its commit. -/
def committed (r : State × Response) : Option (State × Response) :=
  match r.2 with
  | .error _ => some r
  | .ok _ => (Flat.commit r.1.root).map (fun root => ({ r.1 with root := root }, r.2))

/-- `__sched_semantic_task_exec`. -/
def serve (s : State) : Request → Option (State × Response)
  | .create name alloc created => (create hash s name alloc created).bind committed
  | .open name cached opened => (Semantic.open hash s name cached opened).map (fun r => (s, r))
  | .unlink name alloc cached unlinked => (unlink hash s name alloc cached unlinked).bind committed
  | .rename oldName newName alloc newAlloc => (rename hash s oldName newName alloc newAlloc).bind committed

end RaleighSL.Core.Semantic
