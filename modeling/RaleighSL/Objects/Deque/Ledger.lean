import RaleighSL.Library.Run
import RaleighSL.Objects.Deque.Sequential

/-!
# The deque under transactions: requests, history and ledger

A request is a push or a pop of some caller followed by `__object_commit`, or the
end of a transaction: `apply` or `revert` on its registered atoms and then
`__object_commit`. The events of a run are its history. The ledger reads a
history without looking at the deque: the sequence with every settled push
added at its end and every settled pop removed, the actions of the transactions
that are still open, and the deliveries that were not rolled back.
-/
namespace RaleighSL.Objects.Deque
open RaleighSL.Core RaleighSL.Library

variable {α : Type*}

/-- The object together with the atoms its transactions registered for it. -/
structure System (α : Type*) where
  deque : State α
  atoms : TxnId → List End
  ended : List TxnId

inductive Request (α : Type*) where
  | push (t : TxnId) (e : End) (x : α)
  | pop (t : TxnId) (e : End)
  | apply (t : TxnId)
  | revert (t : TxnId)

inductive Event (α : Type*) where
  | pushed (t : TxnId) (e : End) (x : Entry α)
  | popped (t : TxnId) (e : End) (x : Entry α)
  | applied (t : TxnId)
  | reverted (t : TxnId)
  | refused (r : Errno)

def System.init (d : State α) : System α := { deque := d, atoms := fun _ => [], ended := [] }

/-- The end of a transaction: every atom in registration order, then the commit of the object.
An object without atoms of the transaction is not in its list and sees no commit. -/
def finish (s : System α) (t : TxnId) (f : State α → End → State α) : Option (System α) :=
  (if s.atoms t = [] then some s.deque else objectCommit ((s.atoms t).foldl f s.deque)).map (fun d =>
    { deque := d, atoms := Function.update s.atoms t [], ended := t :: s.ended })

def serve (s : System α) : Request α → Option (System α × Event α)
  | .push t e x =>
    if t ∈ s.ended then some (s, .refused .txnNotFound)
    else
      (objectCommit (push s.deque t e x).1).map (fun d =>
        ({ s with
            deque := d
            atoms := if (push s.deque t e x).2.2 then Function.update s.atoms t (s.atoms t ++ [e])
              else s.atoms },
          if (push s.deque t e x).2.1 = .none then .pushed t e ⟨s.deque.nextAddr, x⟩
          else .refused (push s.deque t e x).2.1))
  | .pop t e =>
    if t ∈ s.ended then some (s, .refused .txnNotFound)
    else
      (pop s.deque t e).bind (fun r => (objectCommit r.1).map (fun d =>
        ({ s with deque := d }, match r.2.2 with
          | some x => .popped t e x
          | none => .refused r.2.1)))
  | .apply t =>
    if t = 0 ∨ t ∈ s.ended then some (s, .refused .txnNotFound)
    else (finish s t objectApply).map (fun s' => (s', .applied t))
  | .revert t =>
    if t = 0 ∨ t ∈ s.ended then some (s, .refused .txnNotFound)
    else (finish s t objectRevert).map (fun s' => (s', .reverted t))

/-- A push or a pop as it acts on the sequence. -/
inductive Act (α : Type*) where
  | push (e : End) (x : Entry α)
  | pop (x : Entry α)

def Act.run (l : List (Entry α)) : Act α → List (Entry α)
  | .push e x => addAt e x l
  | .pop x => l.filter (fun y => y.addr ≠ x.addr)

def effect (as : List (Act α)) (l : List (Entry α)) : List (Entry α) := as.foldl Act.run l

def pops : List (Act α) → List Addr
  | [] => []
  | .push _ _ :: as => pops as
  | .pop x :: as => x.addr :: pops as

structure Ledger (α : Type*) where
  seq : List (Entry α)
  acts : TxnId → List (Act α)
  delivered : List (TxnId × Addr)

namespace Ledger

def init (l : List (Entry α)) : Ledger α := { seq := l, acts := fun _ => [], delivered := [] }

/-- One more action of a caller, not settled yet. -/
def record (led : Ledger α) (t : TxnId) (a : Act α) : Ledger α :=
  { led with
      acts := Function.update led.acts t (led.acts t ++ [a])
      delivered := match a with
        | .push _ _ => led.delivered
        | .pop x => led.delivered ++ [(t, x.addr)] }

/-- The actions of a caller take effect on the sequence. -/
def settle (led : Ledger α) (t : TxnId) : Ledger α :=
  { led with seq := effect (led.acts t) led.seq, acts := Function.update led.acts t [] }

/-- The actions of a caller are forgotten, with the deliveries among them. -/
def forget (led : Ledger α) (t : TxnId) : Ledger α :=
  { led with
      acts := Function.update led.acts t []
      delivered := led.delivered.filter (fun p => p.1 ≠ t) }

/-- A call without a transaction is settled at once. -/
def post (led : Ledger α) (t : TxnId) (a : Act α) : Ledger α :=
  if t = 0 then (led.record 0 a).settle 0 else led.record t a

def step (led : Ledger α) : Event α → Ledger α
  | .pushed t e x => led.post t (.push e x)
  | .popped t _ x => led.post t (.pop x)
  | .applied t => led.settle t
  | .reverted t => led.forget t
  | .refused _ => led

/-- The ledger of a history that starts from a sequence. -/
def ofHistory (l : List (Entry α)) (h : List (Event α)) : Ledger α := h.foldl step (init l)

theorem ofHistory_append (l : List (Entry α)) (h : List (Event α)) (ev : Event α) :
    ofHistory l (h ++ [ev]) = (ofHistory l h).step ev := by
  simp [ofHistory]

end Ledger

/-- What an end holds of a field, if it is owned by the caller. -/
def owned (d : State α) (t : TxnId) (f : End → List (Entry α)) (e : End) : List (Entry α) :=
  if d.txnId e = t then f e else []

/-- The deque, its layout and the ledger agree. The actions of each caller amount to removing
what it took and adding what it has pending, whatever lies between. -/
structure Core (d : State α) (L : Layout α) (led : Ledger α) : Prop where
  distinct : Distinct d
  rep : Rep d L
  seq : led.seq = d.data
  net : ∀ t m, (∀ y ∈ m, y.addr ∉ pops (led.acts t)) →
    effect (led.acts t) (owned d t L.taken .front ++ (m ++ (owned d t L.taken .back).reverse)) =
      owned d t d.pending .front ++ (m ++ (owned d t d.pending .back).reverse)
  nodup : (led.delivered.map Prod.snd).Nodup
  gone : ∀ p ∈ led.delivered, (∀ y ∈ L.mid, y.addr ≠ p.2) ∧ ∀ e, ∀ y ∈ d.pending e, y.addr ≠ p.2
  taken : ∀ e, ∀ y ∈ L.taken e, (d.txnId e, y.addr) ∈ led.delivered
  acts : ∀ t, ∀ a ∈ pops (led.acts t), (t, a) ∈ led.delivered
  old : ∀ p ∈ led.delivered, p.2 < d.nextAddr

/-- An end with nothing pending and nothing taken. -/
def Idle (d : State α) (L : Layout α) (e : End) : Prop := d.pending e = [] ∧ L.taken e = []

end RaleighSL.Objects.Deque
