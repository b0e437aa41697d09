import RaleighSL.Core.Errno
import Mathlib.Data.List.Sort
import Mathlib.Tactic.Common

/-!
# The deque object

`objects/deque/deque.c` keeps the committed entries in one list, and for each
end a list of pending pushes, a removal cursor into the committed list and the
id of the transaction that holds the end. The C fields come in front/back
pairs selected by a flag; here a pair is a function of the end.

A result `none` stands for undefined behaviour: an entry that was freed is read,
or the list head is deleted as if it were an entry. Allocation never fails.
-/
namespace RaleighSL.Objects.Deque
open RaleighSL.Core

inductive End where
  | front
  | back
  deriving DecidableEq, Repr

def End.other : End → End
  | .front => .back
  | .back => .front

@[simp] theorem other_other (e : End) : e.other.other = e := by
  cases e <;> rfl

theorem other_ne (e : End) : e.other ≠ e := by
  cases e <;> simp [End.other]

theorem eq_other_of_ne {e e' : End} (h : e' ≠ e) : e' = e.other := by
  cases e <;> cases e' <;> simp_all [End.other]

structure Entry (α : Type*) where
  addr : Addr
  data : α
  deriving DecidableEq, Repr

/-- Target of a removal cursor: the list head `&deque->data` or an entry. -/
inductive Cursor where
  | head
  | node (a : Addr)
  deriving DecidableEq, Repr

structure State (α : Type*) where
  data : List (Entry α)
  pending : End → List (Entry α)
  removed : End → Option Cursor
  txnId : End → TxnId
  nextAddr : Addr

variable {α : Type*}

def create : State α :=
  { data := [], pending := fun _ => [], removed := fun _ => none, txnId := fun _ => 0, nextAddr := 1 }

/-- The list as it is walked from an end: by `next` at the front, by `prev` at the back. -/
def view {β : Type*} : End → List β → List β
  | .front, l => l
  | .back, l => l.reverse

def cursorOf : List (Entry α) → Cursor
  | [] => .head
  | x :: _ => .node x.addr

/-- The entry at an address and the node after it. A freed address is not in the list. -/
def stepCursor (a : Addr) : List (Entry α) → Option (Entry α × Cursor)
  | [] => none
  | x :: l => if x.addr = a then some (x, cursorOf l) else stepCursor a l

/-- A new entry in the pending list of an end, which the caller now owns. -/
def addPending (d : State α) (t : TxnId) (e : End) (x : α) : State α :=
  { d with
      pending := Function.update d.pending e (⟨d.nextAddr, x⟩ :: d.pending e)
      txnId := Function.update d.txnId e t
      nextAddr := d.nextAddr + 1 }

/-- `raleighsl_deque_push`: the lock check, the new entry and, when the transaction does not
hold the end yet, the request to register the end's atom. -/
def push (d : State α) (t : TxnId) (e : End) (x : α) : State α × Errno × Bool :=
  if 0 < d.txnId e ∧ d.txnId e ≠ t then (d, .txnLockedOperation, false)
  else (addPending d t e x, .none, decide (t ≠ 0 ∧ t ≠ d.txnId e))

/-- The entry under the removal cursor, which starts at its end when it is `NULL`. -/
def cursorStart (d : State α) (e : End) : Option Addr :=
  match d.removed e with
  | some (.node a) => some a
  | _ => (view e d.data).head?.map Entry.addr

/-- The data branch of `raleighsl_deque_pop`: return the entry under the cursor and move the
cursor on. The end is locked but no atom is registered. -/
def popData (d : State α) (t : TxnId) (e : End) : Option (State α × Entry α) :=
  ((cursorStart d e).bind (fun a => stepCursor a (view e d.data))).map (fun r =>
    ({ d with
        removed := Function.update d.removed e (some r.2)
        txnId := Function.update d.txnId e t }, r.1))

/-- `raleighsl_deque_pop`: own pending entries first, then the data, then the pending
entries of the other end. -/
def pop (d : State α) (t : TxnId) (e : End) : Option (State α × Errno × Option (Entry α)) :=
  if 0 < d.txnId e ∧ d.txnId e ≠ t then some (d, .txnLockedOperation, none)
  else
    match d.pending e with
    | x :: l => some ({ d with pending := Function.update d.pending e l }, .none, some x)
    | [] =>
      if d.removed e ≠ some .head ∧ d.data ≠ [] then
        (popData d t e).map (fun r => (r.1, .none, some r.2))
      else
        match (d.pending e.other).getLast? with
        | some x =>
          some ({ d with pending := Function.update d.pending e.other (d.pending e.other).dropLast },
            .none, some x)
        | none => some (d, .dataNoItems, none)

/-- The removal loop of `__object_commit`: entries are freed until the walk reaches the cursor.
Reaching the list head under any other cursor deletes the head itself. -/
def removeTo (c : Cursor) : List (Entry α) → Option (List (Entry α))
  | [] => if c = .head then some [] else none
  | x :: l => if c = .node x.addr then some (x :: l) else removeTo c l

/-- `z_dlink_move` to the front of the data, `z_dlink_move_tail` to its back. -/
def addAt {β : Type*} : End → β → List β → List β
  | .front, x, l => x :: l
  | .back, x, l => l ++ [x]

@[simp] theorem view_view {β : Type*} (e : End) (l : List β) : view e (view e l) = l := by
  cases e <;> simp [view]

@[simp] theorem view_addAt {β : Type*} (e : End) (x : β) (l : List β) :
    view e (addAt e x l) = x :: view e l := by
  cases e <;> simp [view, addAt]

@[simp] theorem view_nil {β : Type*} (e : End) : view e ([] : List β) = [] := by
  cases e <;> rfl

theorem view_other {β : Type*} (e : End) (l : List β) : view e.other l = (view e l).reverse := by
  cases e <;> simp [view, End.other]

theorem view_perm {β : Type*} (e : End) (l : List β) : (view e l).Perm l := by
  cases e
  · exact List.Perm.refl _
  · exact List.reverse_perm l

theorem view_eq_nil {β : Type*} {e : End} {l : List β} : view e l = [] ↔ l = [] := by
  cases e <;> simp [view]

theorem mem_view {β : Type*} {e : End} {l : List β} {x : β} : x ∈ view e l ↔ x ∈ l := by
  cases e <;> simp [view]

theorem view_map {β γ : Type*} (f : β → γ) (e : End) (l : List β) :
    view e (l.map f) = (view e l).map f := by
  cases e <;> simp [view]

theorem nodup_view {β : Type*} {e : End} {l : List β} : (view e l).Nodup ↔ l.Nodup := by
  cases e
  · rfl
  · exact List.nodup_reverse

theorem foldl_addAt {β : Type*} (e : End) (p l : List β) :
    p.reverse.foldl (fun l x => addAt e x l) l = view e (p ++ view e l) := by
  induction p generalizing l with
  | nil => simp
  | cons x p ih =>
    rw [List.reverse_cons, List.foldl_append, ih]
    cases e <;> simp [addAt, view]

theorem addAt_map {β γ : Type*} (f : β → γ) (e : End) (x : β) (l : List β) :
    (addAt e x l).map f = addAt e (f x) (l.map f) := by
  cases e <;> simp [addAt]

/-- The data list after the entries popped at an end are removed. -/
def kept (d : State α) (e : End) : Option (List (Entry α)) :=
  match d.removed e with
  | none => some d.data
  | some c => (removeTo c (view e d.data)).map (view e)

/-- The half of `__object_commit` that settles one end. -/
def commitEnd (d : State α) (e : End) : Option (State α) :=
  (kept d e).map (fun l =>
    { d with
        data := (d.pending e).reverse.foldl (fun l x => addAt e x l) l
        pending := Function.update d.pending e []
        removed := Function.update d.removed e none })

def objectCommit (d : State α) : Option (State α) :=
  (if d.txnId .front = 0 then commitEnd d .front else some d).bind (fun d =>
    if d.txnId .back = 0 then commitEnd d .back else some d)

def objectApply (d : State α) (e : End) : State α :=
  { d with txnId := Function.update d.txnId e 0 }

/-- The end cleared by `__object_revert`: chosen by transaction id, the front first. -/
def revertEnd (d : State α) (e : End) : End :=
  if d.txnId e = d.txnId .front then .front else .back

def objectRevert (d : State α) (e : End) : State α :=
  { d with
      pending := Function.update d.pending (revertEnd d e) []
      removed := Function.update d.removed (revertEnd d e) none
      txnId := Function.update d.txnId e 0 }

end RaleighSL.Objects.Deque
