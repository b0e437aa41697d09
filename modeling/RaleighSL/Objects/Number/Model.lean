import RaleighSL.Core.Errno
import RaleighSL.Library.Run
import Mathlib.Logic.Function.Iterate
import Mathlib.Tactic.Common
import Mathlib.Algebra.Order.Ring.Int

/-!
# The number object

`objects/number/number.c` keeps the committed value, the value under work and the
id of the transaction that owns the latter. A write goes to the value under work
and takes the number for its transaction. The commit of the object publishes it
when no transaction owns the number.

A value is a 64-bit signed integer. Signed overflow, and the division of the
smallest value by minus one, are undefined and have no result. Allocation never
fails.
-/
namespace RaleighSL.Objects.Number
open RaleighSL.Core RaleighSL.Library

/-- The values of an `int64_t`. -/
def InRange (x : Int) : Prop := -2 ^ 63 ≤ x ∧ x < 2 ^ 63

instance (x : Int) : Decidable (InRange x) := inferInstanceAs (Decidable (_ ∧ _))

def Value := { x : Int // InRange x }
  deriving DecidableEq

namespace Value

def zero : Value := ⟨0, by decide⟩

def exact (x : Int) : Option Value := if h : InRange x then some ⟨x, h⟩ else none

def add (a b : Value) : Option Value := exact (a.1 + b.1)

def mul (a b : Value) : Option Value := exact (a.1 * b.1)

/-- `/` of C, which truncates. -/
def div (a b : Value) : Option Value := exact (a.1.tdiv b.1)

/-- `%` of C, with the sign of the dividend. -/
def mod (a b : Value) : Option Value := exact (a.1.tmod b.1)

end Value

structure State where
  readValue : Value
  writeValue : Value
  txnId : TxnId
  deriving DecidableEq

def create : State := { readValue := .zero, writeValue := .zero, txnId := 0 }

/-- What a write operation leaves and returns. The flag asks for the number's atom to be added
to the transaction. -/
structure Outcome where
  state : State
  errno : Errno
  current : Option Value := none
  mody : Option Value := none
  add : Bool := false
  deriving DecidableEq

def get (n : State) (t : TxnId) : Value := if t ≠ 0 ∧ n.txnId = t then n.writeValue else n.readValue

def locked (n : State) (t : TxnId) : Prop := 0 < n.txnId ∧ n.txnId ≠ t

instance (n : State) (t : TxnId) : Decidable (locked n t) := inferInstanceAs (Decidable (_ ∧ _))

def refuse (n : State) (e : Errno) : Outcome := { state := n, errno := e }

/-- The end all successful write operations have: the atom of a transaction that does not own the
number yet, the value under work and the owner. -/
def store (n : State) (t : TxnId) (v : Value) (current mody : Option Value) : Outcome :=
  { state := { n with writeValue := v, txnId := t }, errno := .none, current := current, mody := mody,
    add := decide (t ≠ 0 ∧ n.txnId ≠ t) }

def set (n : State) (t : TxnId) (v : Value) : Outcome :=
  if locked n t then refuse n .txnLockedOperation else store n t v none none

def cas (n : State) (t : TxnId) (old new : Value) : Outcome :=
  if locked n t then refuse n .txnLockedOperation
  else if n.writeValue ≠ old then { refuse n .dataCas with current := some n.writeValue }
  else store n t new (some n.writeValue) none

/-- `raleighsl_number_add` and `raleighsl_number_mul`, which differ in the operation. -/
def arith (op : Value → Value → Option Value) (n : State) (t : TxnId) (v : Value) : Option Outcome :=
  if locked n t then some (refuse n .txnLockedOperation)
  else (op n.writeValue v).map (fun r => store n t r (some r) none)

def add : State → TxnId → Value → Option Outcome := arith Value.add

def mul : State → TxnId → Value → Option Outcome := arith Value.mul

/-- `raleighsl_number_div`: the divisor is checked before the lock. -/
def div (n : State) (t : TxnId) (divy : Value) : Option Outcome :=
  if divy = .zero then some (refuse n .numberDivmodByzero)
  else if locked n t then some (refuse n .txnLockedOperation)
  else
    (Value.div n.writeValue divy).bind (fun q =>
      (Value.mod n.writeValue divy).map (fun m => store n t q (some q) (some m)))

def objectApply (n : State) : State := { n with readValue := n.writeValue, txnId := 0 }

def objectRevert (n : State) : State := { n with writeValue := n.readValue, txnId := 0 }

def objectCommit (n : State) : State := if n.txnId = 0 then { n with readValue := n.writeValue } else n

/-! ### Requests -/

/-- The object, how often each transaction has its atom, and the transactions that have ended. -/
structure System where
  number : State
  atoms : TxnId → Nat
  ended : List TxnId

inductive Request where
  | get (t : TxnId)
  | set (t : TxnId) (v : Value)
  | cas (t : TxnId) (old new : Value)
  | add (t : TxnId) (v : Value)
  | mul (t : TxnId) (v : Value)
  | div (t : TxnId) (divy : Value)
  | apply (t : TxnId)
  | revert (t : TxnId)
  deriving DecidableEq

structure Response where
  errno : Errno
  current : Option Value := none
  mody : Option Value := none
  deriving DecidableEq

def System.init : System := { number := create, atoms := fun _ => 0, ended := [] }

/-- The caller of a request, zero without a transaction. -/
def Request.user : Request → TxnId
  | .get t => t
  | .set t _ => t
  | .cas t _ _ => t
  | .add t _ => t
  | .mul t _ => t
  | .div t _ => t
  | .apply t => t
  | .revert t => t

def Request.run (n : State) : Request → Option Outcome
  | .set t v => some (Number.set n t v)
  | .cas t old new => some (Number.cas n t old new)
  | .add t v => Number.add n t v
  | .mul t v => Number.mul n t v
  | .div t divy => Number.div n t divy
  | _ => none

/-- A write that succeeds is followed by the commit of the object. -/
def write (s : System) (t : TxnId) (o : Outcome) : System × Response :=
  ({ s with
      number := if o.errno = .none then objectCommit o.state else o.state
      atoms := if o.add then Function.update s.atoms t (s.atoms t + 1) else s.atoms },
    { errno := o.errno, current := o.current, mody := o.mody })

/-- The end of a transaction: each of its atoms, then the commit of the object. An object without
atoms of the transaction is not in its list and sees no commit. -/
def finish (s : System) (t : TxnId) (f : State → State) : System :=
  { number := if s.atoms t = 0 then s.number else objectCommit (f^[s.atoms t] s.number)
    atoms := Function.update s.atoms t 0
    ended := t :: s.ended }

def serve (s : System) (r : Request) : Option (System × Response) :=
  if r.user ∈ s.ended then some (s, { errno := .txnNotFound })
  else
    match r with
    | .get t => some (s, { errno := .none, current := some (get s.number t) })
    | .apply t => some (if t = 0 then (s, { errno := .txnNotFound }) else (finish s t objectApply, { errno := .none }))
    | .revert t => some (if t = 0 then (s, { errno := .txnNotFound }) else (finish s t objectRevert, { errno := .none }))
    | w => (w.run s.number).map (write s w.user)

end RaleighSL.Objects.Number
