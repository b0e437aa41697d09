import RaleighSL.Core.Errno
import RaleighSL.Zcl.RwcSem
import Mathlib.Logic.Function.Basic
import Mathlib.Algebra.Order.Ring.Int

/-!
# Object tasks and transaction tasks

The scheduler runs two kinds of tasks over shared objects. An object task
(`core/object.c`) opens, reads or writes one object and commits what it wrote. A
transaction task (`core/transaction.c`) takes its transaction, raises a barrier on
every object of it, takes their locks, applies or reverts the atoms, commits the
objects and gives everything back. Any number of tasks run at once, and a task
takes one atomic step at a time: a compare-and-swap on a semaphore, an access to a
field the tasks share, or a call of a plugin function, whose result is an input.

The semaphores are given by their fields with a reader count that does not
overflow. A task in a wait queue may be run again at any time.
-/
namespace RaleighSL.Core.Scheduler
open RaleighSL.Zcl.RwcSem

inductive SchedState where
  | schedOpen
  | schedRead
  | schedWrite
  | schedCommit
  deriving DecidableEq, Repr

/-- `__sched_state_rwc_op`. -/
def SchedState.op : SchedState → Op
  | .schedOpen => .write
  | .schedRead => .read
  | .schedWrite => .write
  | .schedCommit => .commit

/-- What the caller of `raleighsl_exec_read` or `raleighsl_exec_write` put in the flags of the task. -/
inductive Flags where
  | read
  | write
  deriving DecidableEq, Repr

def Flags.state : Flags → SchedState
  | .read => .schedRead
  | .write => .schedWrite

/-- Where an object task is in `raleighsl_exec_*` and `__sched_object_task_exec`. -/
inductive ObjectPc where
  /-- The transaction was found in the cache, its read is still to be acquired. -/
  | opening
  | allocating
  | start (state : SchedState)
  | check (state : SchedState)
  | acquire (state : SchedState)
  | waiting (state : SchedState)
  | running (state : SchedState)
  /-- The write function returned, the commit flag is still to be set. -/
  | flagging
  | switching (current next : SchedState)
  /-- With the result the task is notified with, if it is complete. -/
  | releasing (current next : SchedState) (result : Option Errno)
  | finishing
  deriving DecidableEq

structure ObjectTask (ω : Type*) where
  object : ω
  flags : Flags
  txn : TxnId
  pc : ObjectPc
  deriving DecidableEq

inductive CommitType where
  | apply
  | revert
  deriving DecidableEq, Repr

/-- Where a transaction task is in `__txn_commit_task` and `__sched_txn_task_exec`. The lists are the
groups a loop has still to go through. -/
inductive TxnPc (ω : Type*) where
  | flag
  | acquire
  | barrier
  | raisePending (todo : List ω)
  | raiseLock (object : ω) (todo : List ω)
  | lock (todo : List ω)
  | write (commitType : CommitType)
  | commit (commitType : CommitType) (errno : Errno) (todo : List ω)
  | complete (commitType : CommitType) (errno : Errno)
  | unlock (errno : Errno)
  | releaseLock (errno : Errno) (todo : List ω)
  | clearPending (errno : Errno) (object : ω) (todo : List ω)
  | release (errno : Errno)
  | notify (errno : Errno)
  deriving DecidableEq

structure TxnTask (ω : Type*) where
  txn : TxnId
  commitType : CommitType
  pc : TxnPc ω
  deriving DecidableEq

inductive Task (ω : Type*) where
  | object (u : ObjectTask ω)
  | txn (u : TxnTask ω)
  deriving DecidableEq

/-- `struct txn_obj_group`. -/
structure Group (ω α : Type*) where
  object : ω
  atoms : List α
  deriving DecidableEq

inductive TxnState where
  | waitCommit
  | dontCommit
  | committed
  | rolledback
  deriving DecidableEq, Repr

/-- `struct raleighsl_transaction`, and whether the cache still knows it. -/
structure Txn (ω α : Type*) where
  rwc : Sem
  groups : List (Group ω α)
  state : TxnState
  cached : Bool

/-- `struct raleighsl_object`: the fields the scheduler uses. -/
structure Object where
  rwc : Sem
  pendingTxnId : TxnId
  isOpen : Bool

structure State (ω κ α : Type*) where
  tasks : κ → Option (Task ω)
  objects : ω → Object
  txns : TxnId → Txn ω α
  nextTxnId : TxnId
  /-- Who is in a section under the ticket lock of the transaction manager. -/
  ticket : Option κ

/-- What a called function gives back: its error code, whether memory was there, and for a write in a
transaction the atoms the transaction has on the object from now on, if the write touched them. -/
structure Input (α : Type*) where
  errno : Errno := .none
  alloc : Bool := true
  atoms : Option (List α) := none

inductive Act (ω κ α : Type*) where
  | createTxn (alloc : Bool)
  | createObject (o : ω)
  | submit (k : κ) (o : ω) (flags : Flags) (t : TxnId)
  | request (k : κ) (t : TxnId) (commitType : CommitType)
  | run (k : κ) (input : Input α)

/-- What a step shows to the outside. -/
inductive Event (ω κ α : Type*) where
  | silent
  | opened (k : κ) (o : ω) (errno : Errno)
  | read (k : κ) (o : ω) (errno : Errno)
  | wrote (k : κ) (o : ω) (errno : Errno)
  | committed (k : κ) (o : ω) (errno : Errno)
  | began (k : κ) (t : TxnId) (commitType : CommitType) (state : TxnState) (groups : List (Group ω α))
  | applied (k : κ) (t : TxnId) (o : ω) (atom : α)
  | reverted (k : κ) (t : TxnId) (o : ω) (atom : α)
  | txnCommitted (k : κ) (t : TxnId) (o : ω) (errno : Errno)
  | completed (k : κ) (t : TxnId) (state : TxnState)
  | asserted (k : κ) (o : ω) (holds : Bool)
  | notified (k : κ) (errno : Errno)
  | txnNotified (k : κ) (t : TxnId) (errno : Errno)
  deriving DecidableEq

variable {ω κ α : Type*}

def Txn.fresh : Txn ω α := { rwc := .free, groups := [], state := .waitCommit, cached := true }

def Txn.objects (x : Txn ω α) : List ω := x.groups.map Group.object

def State.init : State ω κ α where
  tasks _ := none
  objects _ := { rwc := .free, pendingTxnId := 0, isOpen := false }
  txns _ := { Txn.fresh with cached := false }
  nextTxnId := 1
  ticket := none

variable [DecidableEq ω] [DecidableEq κ]

namespace State

def setTask (s : State ω κ α) (k : κ) (task : Option (Task ω)) : State ω κ α :=
  { s with tasks := Function.update s.tasks k task }

def setObject (s : State ω κ α) (o : ω) (x : Object) : State ω κ α :=
  { s with objects := Function.update s.objects o x }

def setTxn (s : State ω κ α) (t : TxnId) (x : Txn ω α) : State ω κ α :=
  { s with txns := Function.update s.txns t x }

end State

/-- The writes of `raleighsl_transaction_add` and `_replace` on the group of one object. The group is
added behind the others if there is none. -/
def setAtoms (o : ω) (atoms : List α) : List (Group ω α) → List (Group ω α)
  | [] => [{ object := o, atoms := atoms }]
  | g :: gs => if g.object = o then { g with atoms := atoms } :: gs else g :: setAtoms o atoms gs

def Txn.touch (x : Txn ω α) (o : ω) : Option (List α) → Txn ω α
  | none => x
  | some atoms => { x with groups := setAtoms o atoms x.groups }

/-- The next atom of the loop over the groups, and the groups without it. -/
def nextAtom : List (Group ω α) → Option (ω × α × List (Group ω α))
  | [] => none
  | { object := o, atoms := a :: atoms } :: gs => some (o, a, { object := o, atoms := atoms } :: gs)
  | { object := o, atoms := [] } :: gs => (nextAtom gs).map (fun r => (r.1, r.2.1, { object := o, atoms := [] } :: r.2.2))

def objectStep (s : State ω κ α) (k : κ) (u : ObjectTask ω) (input : Input α) : Option (State ω κ α × Event ω κ α) :=
  let goto (s : State ω κ α) (pc : ObjectPc) := s.setTask k (some (.object { u with pc := pc }))
  let x := s.objects u.object
  match u.pc with
  | .opening =>
    let t := s.txns u.txn
    match t.rwc.acquire .read with
    | some rwc => some (goto (s.setTxn u.txn { t with rwc := rwc }) .allocating, .silent)
    | none => if t.rwc.spins .read then none else some (s.setTask k none, .notified k .txnClosed)
  | .allocating => some (goto s (if input.alloc then .start .schedOpen else .finishing), .silent)
  | .start state =>
    some (goto s (.check (if state = .schedOpen ∧ x.isOpen then u.flags.state else state)), .silent)
  | .check state =>
    some (goto s (if state ≠ .schedCommit ∧ x.pendingTxnId ≠ 0 then .start state else .acquire state), .silent)
  | .acquire state =>
    match x.rwc.acquire state.op with
    | some rwc => some (goto (s.setObject u.object { x with rwc := rwc }) (.running state), .silent)
    | none => if x.rwc.spins state.op then none else some (goto s (.waiting state), .silent)
  | .waiting state => some (goto s (.start state), .silent)
  | .running .schedOpen =>
    let errno := if x.isOpen then .none else input.errno
    if errno = .none then
      some (goto (s.setObject u.object { x with isOpen := true }) (.switching .schedOpen u.flags.state),
        .opened k u.object errno)
    else some (goto s (.releasing .schedOpen .schedOpen (some errno)), .opened k u.object errno)
  | .running .schedRead =>
    some (goto s (.releasing .schedRead .schedRead (if input.errno = .schedYield then none else some input.errno)),
      .read k u.object input.errno)
  | .running .schedWrite =>
    let t := (s.txns u.txn).touch u.object input.atoms
    if input.errno = .none then
      some (goto (if u.txn = 0 then s else s.setTxn u.txn t) .flagging, .wrote k u.object input.errno)
    else
      some (goto (if u.txn = 0 then s else s.setTxn u.txn { t with state := .dontCommit })
        (.releasing .schedWrite .schedWrite (some input.errno)), .wrote k u.object input.errno)
  | .running .schedCommit =>
    some (goto s (.releasing .schedCommit .schedCommit (some input.errno)), .committed k u.object input.errno)
  | .flagging =>
    some (goto (s.setObject u.object { x with rwc := x.rwc.setCommit }) (.switching .schedWrite .schedCommit), .silent)
  | .switching current next =>
    match x.rwc.switch current.op next.op with
    | some rwc => some (goto (s.setObject u.object { x with rwc := rwc }) (.running next), .silent)
    | none =>
      if next = .schedRead ∧ x.rwc.spins .read then none else some (goto s (.releasing current next none), .silent)
  | .releasing current next result =>
    let s := s.setObject u.object { x with rwc := x.rwc.drop current.op }
    match result with
    | none => some (goto s (.start next), .silent)
    | some errno => some (goto s .finishing, .notified k errno)
  | .finishing =>
    let t := s.txns u.txn
    some ((if u.txn = 0 then s else s.setTxn u.txn { t with rwc := t.rwc.drop .read }).setTask k none, .silent)

def txnStep (s : State ω κ α) (k : κ) (u : TxnTask ω) (input : Input α) : Option (State ω κ α × Event ω κ α) :=
  let goto (s : State ω κ α) (pc : TxnPc ω) := s.setTask k (some (.txn { u with pc := pc }))
  let t := s.txns u.txn
  match u.pc with
  | .flag => some (goto (s.setTxn u.txn { t with rwc := t.rwc.setCommit }) .acquire, .silent)
  | .acquire =>
    match t.rwc.acquire .commit with
    | some rwc => some (goto (s.setTxn u.txn { t with rwc := rwc }) .barrier, .silent)
    | none => some (s, .silent)
  | .barrier =>
    if s.ticket ≠ none then none
    else if ∀ o ∈ t.objects, (s.objects o).pendingTxnId = 0 then
      some (goto { s with ticket := some k } (.raisePending t.objects), .silent)
    else some (s, .silent)
  | .raisePending [] => some (goto { s with ticket := none } (.lock t.objects), .silent)
  | .raisePending (o :: todo) =>
    some (goto (s.setObject o { s.objects o with pendingTxnId := u.txn }) (.raiseLock o todo), .silent)
  | .raiseLock o todo =>
    some (goto (s.setObject o { s.objects o with rwc := (s.objects o).rwc.setLock }) (.raisePending todo), .silent)
  | .lock [] =>
    some (goto s (.write (if u.commitType = .apply ∧ t.state = .dontCommit then .revert else u.commitType)),
      .began k u.txn u.commitType t.state t.groups)
  | .lock (o :: todo) =>
    match (s.objects o).rwc.acquire .lock with
    | some rwc => some (goto (s.setObject o { s.objects o with rwc := rwc }) (.lock todo), .silent)
    | none => some (s, .silent)
  | .write commitType =>
    match nextAtom t.groups with
    | none => some (goto s (.commit commitType .none t.objects), .silent)
    | some (o, a, groups) =>
      some (s.setTxn u.txn { t with groups := groups },
        match commitType with
        | .apply => .applied k u.txn o a
        | .revert => .reverted k u.txn o a)
  | .commit commitType errno [] => some (goto s (.complete commitType errno), .silent)
  | .commit commitType _ (o :: todo) =>
    some (goto s (.commit commitType input.errno todo), .txnCommitted k u.txn o input.errno)
  | .complete commitType errno =>
    if errno = .none ∧ commitType = .apply then
      if t.state = .dontCommit then
        some (goto (s.setTxn u.txn { t with state := .rolledback }) (.unlock .txnRolledback),
          .completed k u.txn .rolledback)
      else some (goto (s.setTxn u.txn { t with state := .committed }) (.unlock errno), .completed k u.txn .committed)
    else some (goto (s.setTxn u.txn { t with state := .rolledback }) (.unlock errno), .completed k u.txn .rolledback)
  | .unlock errno =>
    if s.ticket ≠ none then none else some (goto { s with ticket := some k } (.releaseLock errno t.objects), .silent)
  | .releaseLock errno [] => some (goto { s with ticket := none } (.release errno), .silent)
  | .releaseLock errno (o :: todo) =>
    some (goto (s.setObject o { s.objects o with rwc := (s.objects o).rwc.drop .lock }) (.clearPending errno o todo),
      .asserted k o ((s.objects o).pendingTxnId = u.txn))
  | .clearPending errno o todo =>
    some (goto (s.setObject o { s.objects o with pendingTxnId := 0 }) (.releaseLock errno todo), .silent)
  | .release errno => some (goto (s.setTxn u.txn { t with rwc := t.rwc.drop .commit }) (.notify errno), .silent)
  | .notify errno => some (s.setTask k none, .txnNotified k u.txn errno)

def step (s : State ω κ α) : Act ω κ α → Option (State ω κ α × Event ω κ α)
  | .createTxn alloc =>
    let t := s.nextTxnId + 1
    some ({ if alloc then s.setTxn t .fresh else s with nextTxnId := t }, .silent)
  | .createObject o => some (s.setObject o { s.objects o with isOpen := true }, .silent)
  | .submit k o flags t =>
    if s.tasks k ≠ none then none
    else if t = 0 then
      some (s.setTask k (some (.object { object := o, flags := flags, txn := t, pc := .allocating })), .silent)
    else if (s.txns t).cached then
      some (s.setTask k (some (.object { object := o, flags := flags, txn := t, pc := .opening })), .silent)
    else some (s, .notified k .txnNotFound)
  | .request k t commitType =>
    if s.tasks k ≠ none then none
    else if (s.txns t).cached then
      some ((s.setTxn t { s.txns t with cached := false }).setTask k
        (some (.txn { txn := t, commitType := commitType, pc := .flag })), .silent)
    else some (s, .notified k .txnNotFound)
  | .run k input =>
    match s.tasks k with
    | none => none
    | some (.object u) => objectStep s k u input
    | some (.txn u) => txnStep s k u input

/-- Some steps of one task in a row, in which every function it calls succeeds. -/
def runs (k : κ) (n : Nat) : List (Act ω κ α) := List.replicate n (.run k {})

end RaleighSL.Core.Scheduler
