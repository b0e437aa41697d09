import RaleighSL.Core.Scheduler.Model

/-!
# What a step of a task can do

The relations below list the steps of the object tasks and of the transaction
tasks once, so that an invariant is a case analysis of them and never unfolds a
step. Most steps of an object task only move it on. The others take or give back
the read of its transaction, act on the semaphore of its object, or run the write
function; an invariant that does not look at where exactly a task goes has these
cases only.
-/
namespace RaleighSL.Core.Scheduler
open RaleighSL.Zcl.RwcSem

variable {ω κ α : Type*}

namespace State

section
variable [DecidableEq κ] (s : State ω κ α) (k : κ) (task : Option (Task ω))

@[simp] theorem setTask_tasks : (s.setTask k task).tasks = Function.update s.tasks k task := rfl

@[simp] theorem setTask_objects : (s.setTask k task).objects = s.objects := rfl

@[simp] theorem setTask_txns : (s.setTask k task).txns = s.txns := rfl

@[simp] theorem setTask_nextTxnId : (s.setTask k task).nextTxnId = s.nextTxnId := rfl

@[simp] theorem setTask_ticket : (s.setTask k task).ticket = s.ticket := rfl

end

section
variable [DecidableEq ω] (s : State ω κ α) (o : ω) (x : Object)

@[simp] theorem setObject_tasks : (s.setObject o x).tasks = s.tasks := rfl

@[simp] theorem setObject_objects : (s.setObject o x).objects = Function.update s.objects o x := rfl

@[simp] theorem setObject_txns : (s.setObject o x).txns = s.txns := rfl

@[simp] theorem setObject_nextTxnId : (s.setObject o x).nextTxnId = s.nextTxnId := rfl

@[simp] theorem setObject_ticket : (s.setObject o x).ticket = s.ticket := rfl

end

section
variable (s : State ω κ α) (t : TxnId) (y : Txn ω α)

@[simp] theorem setTxn_tasks : (s.setTxn t y).tasks = s.tasks := rfl

@[simp] theorem setTxn_objects : (s.setTxn t y).objects = s.objects := rfl

@[simp] theorem setTxn_txns : (s.setTxn t y).txns = Function.update s.txns t y := rfl

@[simp] theorem setTxn_nextTxnId : (s.setTxn t y).nextTxnId = s.nextTxnId := rfl

@[simp] theorem setTxn_ticket : (s.setTxn t y).ticket = s.ticket := rfl

@[simp] theorem ite_setTxn_tasks (p : Prop) [Decidable p] : (if p then s else s.setTxn t y).tasks = s.tasks := by
  split_ifs <;> rfl

end

end State

variable [DecidableEq ω] [DecidableEq κ]

def ObjectPc.holds : ObjectPc → Option Op
  | .running state => some state.op
  | .flagging => some .write
  | .switching current _ => some current.op
  | .releasing current _ _ => some current.op
  | _ => none

/-- The task has set the commit flag and its commit is not over. -/
def ObjectPc.committing : ObjectPc → Bool
  | .start .schedCommit => true
  | .check .schedCommit => true
  | .acquire .schedCommit => true
  | .waiting .schedCommit => true
  | .running .schedCommit => true
  | .switching _ .schedCommit => true
  | .releasing _ .schedCommit _ => true
  | _ => false

/-- A commit that is released is over. -/
def ObjectPc.ends : ObjectPc → Bool
  | .switching .schedCommit _ => false
  | .releasing .schedCommit _ none => false
  | _ => true

def ObjectTask.at (u : ObjectTask ω) (pc : ObjectPc) : Option (Task ω) := some (.object { u with pc := pc })

/-- A write function has run: the transaction may have other atoms on the object, and a failure marks it. -/
def Txn.afterWrite (x : Txn ω α) (o : ω) (input : Input α) : Txn ω α :=
  if input.errno = .none then x.touch o input.atoms else { x.touch o input.atoms with state := .dontCommit }

inductive ObjectBranch (s : State ω κ α) (k : κ) (u : ObjectTask ω) (input : Input α) :
    State ω κ α → Event ω κ α → Prop where
  | enter {rwc : Sem} (hpc : u.pc = .opening) (ha : (s.txns u.txn).rwc.acquire .read = some rwc) :
    ObjectBranch s k u input ((s.setTxn u.txn { s.txns u.txn with rwc := rwc }).setTask k (u.at .allocating)) .silent
  | closed (hpc : u.pc = .opening) (ha : (s.txns u.txn).rwc.acquire .read = none) :
    ObjectBranch s k u input (s.setTask k none) (.notified k .txnClosed)
  | allocate (hpc : u.pc = .allocating) :
    ObjectBranch s k u input (s.setTask k (u.at (if input.alloc then .start .schedOpen else .finishing))) .silent
  | start {state : SchedState} (hpc : u.pc = .start state) :
    ObjectBranch s k u input (s.setTask k (u.at
      (.check (if state = .schedOpen ∧ (s.objects u.object).isOpen then u.flags.state else state)))) .silent
  | check {state : SchedState} (hpc : u.pc = .check state) :
    ObjectBranch s k u input (s.setTask k (u.at
      (if state ≠ .schedCommit ∧ (s.objects u.object).pendingTxnId ≠ 0 then .start state else .acquire state))) .silent
  | acquire {state : SchedState} {rwc : Sem} (hpc : u.pc = .acquire state)
    (ha : (s.objects u.object).rwc.acquire state.op = some rwc) :
    ObjectBranch s k u input ((s.setObject u.object { s.objects u.object with rwc := rwc }).setTask k (u.at (.running state)))
      .silent
  | refused {state : SchedState} (hpc : u.pc = .acquire state) :
    ObjectBranch s k u input (s.setTask k (u.at (.waiting state))) .silent
  | woken {state : SchedState} (hpc : u.pc = .waiting state) :
    ObjectBranch s k u input (s.setTask k (u.at (.start state))) .silent
  | opened (hpc : u.pc = .running .schedOpen) :
    ObjectBranch s k u input ((s.setObject u.object { s.objects u.object with isOpen := true }).setTask k
      (u.at (.switching .schedOpen u.flags.state))) (.opened k u.object .none)
  | notOpened {errno : Errno} (hpc : u.pc = .running .schedOpen) (herr : errno ≠ .none) :
    ObjectBranch s k u input (s.setTask k (u.at (.releasing .schedOpen .schedOpen (some errno)))) (.opened k u.object errno)
  | read (hpc : u.pc = .running .schedRead) :
    ObjectBranch s k u input (s.setTask k (u.at
      (.releasing .schedRead .schedRead (if input.errno = .schedYield then none else some input.errno))))
      (.read k u.object input.errno)
  | wrote (hpc : u.pc = .running .schedWrite) (herr : input.errno = .none) :
    ObjectBranch s k u input
      ((if u.txn = 0 then s else s.setTxn u.txn ((s.txns u.txn).afterWrite u.object input)).setTask k (u.at .flagging))
      (.wrote k u.object .none)
  | failed (hpc : u.pc = .running .schedWrite) (herr : input.errno ≠ .none) :
    ObjectBranch s k u input
      ((if u.txn = 0 then s else s.setTxn u.txn ((s.txns u.txn).afterWrite u.object input)).setTask k
        (u.at (.releasing .schedWrite .schedWrite (some input.errno)))) (.wrote k u.object input.errno)
  | commit (hpc : u.pc = .running .schedCommit) :
    ObjectBranch s k u input (s.setTask k (u.at (.releasing .schedCommit .schedCommit (some input.errno))))
      (.committed k u.object input.errno)
  | flag (hpc : u.pc = .flagging) :
    ObjectBranch s k u input ((s.setObject u.object
      { s.objects u.object with rwc := (s.objects u.object).rwc.setCommit }).setTask k
        (u.at (.switching .schedWrite .schedCommit))) .silent
  | switch {current next : SchedState} {rwc : Sem} (hpc : u.pc = .switching current next)
    (hs : (s.objects u.object).rwc.switch current.op next.op = some rwc) :
    ObjectBranch s k u input ((s.setObject u.object { s.objects u.object with rwc := rwc }).setTask k (u.at (.running next)))
      .silent
  | notSwitched {current next : SchedState} (hpc : u.pc = .switching current next) :
    ObjectBranch s k u input (s.setTask k (u.at (.releasing current next none))) .silent
  | again {current next : SchedState} (hpc : u.pc = .releasing current next none) :
    ObjectBranch s k u input ((s.setObject u.object
      { s.objects u.object with rwc := (s.objects u.object).rwc.drop current.op }).setTask k (u.at (.start next))) .silent
  | done {current next : SchedState} {errno : Errno} (hpc : u.pc = .releasing current next (some errno)) :
    ObjectBranch s k u input ((s.setObject u.object
      { s.objects u.object with rwc := (s.objects u.object).rwc.drop current.op }).setTask k (u.at .finishing))
      (.notified k errno)
  | leave (hpc : u.pc = .finishing) :
    ObjectBranch s k u input
      ((if u.txn = 0 then s else s.setTxn u.txn { s.txns u.txn with rwc := (s.txns u.txn).rwc.drop .read }).setTask k none)
      .silent

/-- A step that leaves objects and transactions alone. -/
structure Passes (pc pc' : ObjectPc) : Prop where
  opening : pc ≠ .opening
  opening' : pc' ≠ .opening
  holds : pc'.holds = pc.holds
  committing : pc'.committing = pc.committing
  ends : pc.ends = true → pc'.ends = true

inductive ObjectMove (s : State ω κ α) (k : κ) (u : ObjectTask ω) (input : Input α) : State ω κ α → Prop where
  | enter {rwc : Sem} (hpc : u.pc = .opening) (ha : (s.txns u.txn).rwc.acquire .read = some rwc) :
    ObjectMove s k u input ((s.setTxn u.txn { s.txns u.txn with rwc := rwc }).setTask k (u.at .allocating))
  | closed (hpc : u.pc = .opening) : ObjectMove s k u input (s.setTask k none)
  | pass {pc : ObjectPc} (hpass : Passes u.pc pc) : ObjectMove s k u input (s.setTask k (u.at pc))
  | opened (hpc : u.pc = .running .schedOpen) :
    ObjectMove s k u input ((s.setObject u.object { s.objects u.object with isOpen := true }).setTask k
      (u.at (.switching .schedOpen u.flags.state)))
  | acquire {state : SchedState} {rwc : Sem} (hpc : u.pc = .acquire state)
    (ha : (s.objects u.object).rwc.acquire state.op = some rwc) :
    ObjectMove s k u input ((s.setObject u.object { s.objects u.object with rwc := rwc }).setTask k (u.at (.running state)))
  | wrote {pc : ObjectPc} (hpc : u.pc = .running .schedWrite) (hopening : pc ≠ .opening) (hholds : pc.holds = some .write)
    (hcommitting : pc.committing = false) :
    ObjectMove s k u input
      ((if u.txn = 0 then s else s.setTxn u.txn ((s.txns u.txn).afterWrite u.object input)).setTask k (u.at pc))
  | flag (hpc : u.pc = .flagging) :
    ObjectMove s k u input ((s.setObject u.object { s.objects u.object with rwc := (s.objects u.object).rwc.setCommit }).setTask
      k (u.at (.switching .schedWrite .schedCommit)))
  | switch {current next : SchedState} {rwc : Sem} (hpc : u.pc = .switching current next)
    (hs : (s.objects u.object).rwc.switch current.op next.op = some rwc) :
    ObjectMove s k u input ((s.setObject u.object { s.objects u.object with rwc := rwc }).setTask k (u.at (.running next)))
  | again {current next : SchedState} (hpc : u.pc = .releasing current next none) :
    ObjectMove s k u input ((s.setObject u.object
      { s.objects u.object with rwc := (s.objects u.object).rwc.drop current.op }).setTask k (u.at (.start next)))
  | done {current next : SchedState} {errno : Errno} (hpc : u.pc = .releasing current next (some errno)) :
    ObjectMove s k u input ((s.setObject u.object
      { s.objects u.object with rwc := (s.objects u.object).rwc.drop current.op }).setTask k (u.at .finishing))
  | leave (hpc : u.pc = .finishing) :
    ObjectMove s k u input
      ((if u.txn = 0 then s else s.setTxn u.txn { s.txns u.txn with rwc := (s.txns u.txn).rwc.drop .read }).setTask k none)

variable {s s' : State ω κ α} {k : κ} {u : ObjectTask ω} {input : Input α} {e : Event ω κ α}

theorem objectStep_branch (h : objectStep s k u input = some (s', e)) : ObjectBranch s k u input s' e := by
  cases hpc : u.pc with
  | opening =>
    simp only [objectStep, hpc] at h
    split at h
    · next rwc ha =>
      obtain ⟨rfl, rfl⟩ := Prod.mk.inj (Option.some.inj h)
      exact .enter hpc ha
    · next ha =>
      split_ifs at h
      obtain ⟨rfl, rfl⟩ := Prod.mk.inj (Option.some.inj h)
      exact .closed hpc ha
  | allocating =>
    simp only [objectStep, hpc] at h
    obtain ⟨rfl, rfl⟩ := Prod.mk.inj (Option.some.inj h)
    exact .allocate hpc
  | start state =>
    simp only [objectStep, hpc] at h
    obtain ⟨rfl, rfl⟩ := Prod.mk.inj (Option.some.inj h)
    exact .start hpc
  | check state =>
    simp only [objectStep, hpc] at h
    obtain ⟨rfl, rfl⟩ := Prod.mk.inj (Option.some.inj h)
    exact .check hpc
  | acquire state =>
    simp only [objectStep, hpc] at h
    split at h
    · next rwc ha =>
      obtain ⟨rfl, rfl⟩ := Prod.mk.inj (Option.some.inj h)
      exact .acquire hpc ha
    · split_ifs at h
      obtain ⟨rfl, rfl⟩ := Prod.mk.inj (Option.some.inj h)
      exact .refused hpc
  | waiting state =>
    simp only [objectStep, hpc] at h
    obtain ⟨rfl, rfl⟩ := Prod.mk.inj (Option.some.inj h)
    exact .woken hpc
  | running state =>
    cases state with
    | schedOpen =>
      simp only [objectStep, hpc] at h
      by_cases herr : (if (s.objects u.object).isOpen = true then Errno.none else input.errno) = .none
      · rw [if_pos herr] at h
        obtain ⟨rfl, rfl⟩ := Prod.mk.inj (Option.some.inj h)
        rw [herr]
        exact .opened hpc
      · rw [if_neg herr] at h
        obtain ⟨rfl, rfl⟩ := Prod.mk.inj (Option.some.inj h)
        exact .notOpened hpc herr
    | schedRead =>
      simp only [objectStep, hpc] at h
      obtain ⟨rfl, rfl⟩ := Prod.mk.inj (Option.some.inj h)
      exact .read hpc
    | schedWrite =>
      simp only [objectStep, hpc] at h
      by_cases herr : input.errno = .none
      · rw [if_pos herr] at h
        obtain ⟨rfl, rfl⟩ := Prod.mk.inj (Option.some.inj h)
        have hw : ObjectBranch s k u input _ _ := .wrote hpc herr
        rw [Txn.afterWrite, if_pos herr] at hw
        rwa [herr]
      · rw [if_neg herr] at h
        obtain ⟨rfl, rfl⟩ := Prod.mk.inj (Option.some.inj h)
        have hw : ObjectBranch s k u input _ _ := .failed hpc herr
        rwa [Txn.afterWrite, if_neg herr] at hw
    | schedCommit =>
      simp only [objectStep, hpc] at h
      obtain ⟨rfl, rfl⟩ := Prod.mk.inj (Option.some.inj h)
      exact .commit hpc
  | flagging =>
    simp only [objectStep, hpc] at h
    obtain ⟨rfl, rfl⟩ := Prod.mk.inj (Option.some.inj h)
    exact .flag hpc
  | switching current next =>
    simp only [objectStep, hpc] at h
    split at h
    · next rwc hs =>
      obtain ⟨rfl, rfl⟩ := Prod.mk.inj (Option.some.inj h)
      exact .switch hpc hs
    · split_ifs at h
      obtain ⟨rfl, rfl⟩ := Prod.mk.inj (Option.some.inj h)
      exact .notSwitched hpc
  | releasing current next result =>
    cases result with
    | none =>
      simp only [objectStep, hpc] at h
      obtain ⟨rfl, rfl⟩ := Prod.mk.inj (Option.some.inj h)
      exact .again hpc
    | some errno =>
      simp only [objectStep, hpc] at h
      obtain ⟨rfl, rfl⟩ := Prod.mk.inj (Option.some.inj h)
      exact .done hpc
  | finishing =>
    simp only [objectStep, hpc] at h
    obtain ⟨rfl, rfl⟩ := Prod.mk.inj (Option.some.inj h)
    exact .leave hpc

theorem ObjectBranch.move (h : ObjectBranch s k u input s' e) : ObjectMove s k u input s' := by
  cases h with
  | enter hpc ha => exact .enter hpc ha
  | closed hpc => exact .closed hpc
  | allocate hpc =>
    apply ObjectMove.pass
    rw [hpc]
    split_ifs
    · exact ⟨by simp, by simp, rfl, rfl, fun _ => rfl⟩
    · exact ⟨by simp, by simp, rfl, rfl, fun _ => rfl⟩
  | @start state hpc =>
    apply ObjectMove.pass
    rw [hpc]
    split_ifs with hopen
    · rw [hopen.1]
      cases u.flags with
      | read => exact ⟨by simp, by simp, rfl, rfl, fun _ => rfl⟩
      | write => exact ⟨by simp, by simp, rfl, rfl, fun _ => rfl⟩
    · cases state <;> exact ⟨by simp, by simp, rfl, rfl, fun _ => rfl⟩
  | @check state hpc =>
    apply ObjectMove.pass
    rw [hpc]
    split_ifs
    · cases state <;> exact ⟨by simp, by simp, rfl, rfl, fun _ => rfl⟩
    · cases state <;> exact ⟨by simp, by simp, rfl, rfl, fun _ => rfl⟩
  | acquire hpc ha => exact .acquire hpc ha
  | @refused state hpc =>
    apply ObjectMove.pass
    rw [hpc]
    cases state <;> exact ⟨by simp, by simp, rfl, rfl, fun _ => rfl⟩
  | @woken state hpc =>
    apply ObjectMove.pass
    rw [hpc]
    cases state <;> exact ⟨by simp, by simp, rfl, rfl, fun _ => rfl⟩
  | opened hpc => exact .opened hpc
  | notOpened hpc => exact .pass (hpc ▸ ⟨by simp, by simp, rfl, rfl, fun _ => rfl⟩)
  | read hpc => exact .pass (hpc ▸ ⟨by simp, by simp, rfl, rfl, fun _ => rfl⟩)
  | wrote hpc => exact .wrote hpc (by simp) rfl rfl
  | failed hpc => exact .wrote hpc (by simp) rfl rfl
  | commit hpc => exact .pass (hpc ▸ ⟨by simp, by simp, rfl, rfl, fun _ => rfl⟩)
  | flag hpc => exact .flag hpc
  | switch hpc hs => exact .switch hpc hs
  | @notSwitched current next hpc =>
    apply ObjectMove.pass
    rw [hpc]
    cases current <;> cases next <;> exact ⟨by simp, by simp, rfl, rfl, fun h => h⟩
  | again hpc => exact .again hpc
  | done hpc => exact .done hpc
  | leave hpc => exact .leave hpc

theorem objectStep_move (h : objectStep s k u input = some (s', e)) : ObjectMove s k u input s' :=
  (objectStep_branch h).move

def Event.ofObject : Event ω κ α → Bool
  | .silent => true
  | .opened _ _ _ => true
  | .read _ _ _ => true
  | .wrote _ _ _ => true
  | .committed _ _ _ => true
  | .notified _ _ => true
  | _ => false

theorem objectStep_event (h : objectStep s k u input = some (s', e)) : e.ofObject = true := by
  cases objectStep_branch h <;> rfl

/-! ### Transaction tasks -/

def TxnTask.at (v : TxnTask ω) (pc : TxnPc ω) : Option (Task ω) := some (.txn { v with pc := pc })

/-- The state a transaction ends in and the error its task is notified with. -/
def completion (commitType : CommitType) (errno : Errno) (state : TxnState) : TxnState × Errno :=
  if errno = .none ∧ commitType = .apply then
    if state = .dontCommit then (.rolledback, .txnRolledback) else (.committed, errno)
  else (.rolledback, errno)

def atomEvent (k : κ) (t : TxnId) (o : ω) (a : α) : CommitType → Event ω κ α
  | .apply => .applied k t o a
  | .revert => .reverted k t o a

inductive TxnMove (s : State ω κ α) (k : κ) (v : TxnTask ω) (input : Input α) : State ω κ α → Event ω κ α → Prop where
  | flag (hpc : v.pc = .flag) :
    TxnMove s k v input ((s.setTxn v.txn { s.txns v.txn with rwc := (s.txns v.txn).rwc.setCommit }).setTask k
      (v.at .acquire)) .silent
  | take {rwc : Sem} (hpc : v.pc = .acquire) (ha : (s.txns v.txn).rwc.acquire .commit = some rwc) :
    TxnMove s k v input ((s.setTxn v.txn { s.txns v.txn with rwc := rwc }).setTask k (v.at .barrier)) .silent
  | retry (hpc : ∀ errno, v.pc ≠ .notify errno) : TxnMove s k v input s .silent
  | barrier (hpc : v.pc = .barrier) (hticket : s.ticket = none)
    (hfree : ∀ o ∈ (s.txns v.txn).objects, (s.objects o).pendingTxnId = 0) :
    TxnMove s k v input ({ s with ticket := some k }.setTask k (v.at (.raisePending (s.txns v.txn).objects))) .silent
  | raised (hpc : v.pc = .raisePending []) :
    TxnMove s k v input ({ s with ticket := none }.setTask k (v.at (.lock (s.txns v.txn).objects))) .silent
  | raisePending {o : ω} {todo : List ω} (hpc : v.pc = .raisePending (o :: todo)) :
    TxnMove s k v input ((s.setObject o { s.objects o with pendingTxnId := v.txn }).setTask k
      (v.at (.raiseLock o todo))) .silent
  | raiseLock {o : ω} {todo : List ω} (hpc : v.pc = .raiseLock o todo) :
    TxnMove s k v input ((s.setObject o { s.objects o with rwc := (s.objects o).rwc.setLock }).setTask k
      (v.at (.raisePending todo))) .silent
  | began (hpc : v.pc = .lock []) :
    TxnMove s k v input
      (s.setTask k (v.at (.write
        (if v.commitType = .apply ∧ (s.txns v.txn).state = .dontCommit then .revert else v.commitType))))
      (.began k v.txn v.commitType (s.txns v.txn).state (s.txns v.txn).groups)
  | lock {o : ω} {todo : List ω} {rwc : Sem} (hpc : v.pc = .lock (o :: todo))
    (ha : (s.objects o).rwc.acquire .lock = some rwc) :
    TxnMove s k v input ((s.setObject o { s.objects o with rwc := rwc }).setTask k (v.at (.lock todo))) .silent
  | atom {commitType : CommitType} {o : ω} {a : α} {groups : List (Group ω α)} (hpc : v.pc = .write commitType)
    (ha : nextAtom (s.txns v.txn).groups = some (o, a, groups)) :
    TxnMove s k v input (s.setTxn v.txn { s.txns v.txn with groups := groups }) (atomEvent k v.txn o a commitType)
  | written {commitType : CommitType} (hpc : v.pc = .write commitType) (ha : nextAtom (s.txns v.txn).groups = none) :
    TxnMove s k v input (s.setTask k (v.at (.commit commitType .none (s.txns v.txn).objects))) .silent
  | commit {commitType : CommitType} {errno : Errno} {o : ω} {todo : List ω}
    (hpc : v.pc = .commit commitType errno (o :: todo)) :
    TxnMove s k v input (s.setTask k (v.at (.commit commitType input.errno todo))) (.txnCommitted k v.txn o input.errno)
  | committed {commitType : CommitType} {errno : Errno} (hpc : v.pc = .commit commitType errno []) :
    TxnMove s k v input (s.setTask k (v.at (.complete commitType errno))) .silent
  | complete {commitType : CommitType} {errno : Errno} (hpc : v.pc = .complete commitType errno) :
    TxnMove s k v input
      ((s.setTxn v.txn { s.txns v.txn with state := (completion commitType errno (s.txns v.txn).state).1 }).setTask k
        (v.at (.unlock (completion commitType errno (s.txns v.txn).state).2)))
      (.completed k v.txn (completion commitType errno (s.txns v.txn).state).1)
  | unlock {errno : Errno} (hpc : v.pc = .unlock errno) (hticket : s.ticket = none) :
    TxnMove s k v input ({ s with ticket := some k }.setTask k (v.at (.releaseLock errno (s.txns v.txn).objects))) .silent
  | unlocked {errno : Errno} (hpc : v.pc = .releaseLock errno []) :
    TxnMove s k v input ({ s with ticket := none }.setTask k (v.at (.release errno))) .silent
  | releaseLock {errno : Errno} {o : ω} {todo : List ω} (hpc : v.pc = .releaseLock errno (o :: todo)) :
    TxnMove s k v input
      ((s.setObject o { s.objects o with rwc := (s.objects o).rwc.drop .lock }).setTask k (v.at (.clearPending errno o todo)))
      (.asserted k o ((s.objects o).pendingTxnId = v.txn))
  | clearPending {errno : Errno} {o : ω} {todo : List ω} (hpc : v.pc = .clearPending errno o todo) :
    TxnMove s k v input ((s.setObject o { s.objects o with pendingTxnId := 0 }).setTask k
      (v.at (.releaseLock errno todo))) .silent
  | release {errno : Errno} (hpc : v.pc = .release errno) :
    TxnMove s k v input ((s.setTxn v.txn { s.txns v.txn with rwc := (s.txns v.txn).rwc.drop .commit }).setTask k
      (v.at (.notify errno))) .silent
  | notify {errno : Errno} (hpc : v.pc = .notify errno) :
    TxnMove s k v input (s.setTask k none) (.txnNotified k v.txn errno)

variable {v : TxnTask ω}

theorem txnStep_move (h : txnStep s k v input = some (s', e)) : TxnMove s k v input s' e := by
  cases hpc : v.pc with
  | flag =>
    simp only [txnStep, hpc] at h
    obtain ⟨rfl, rfl⟩ := Prod.mk.inj (Option.some.inj h)
    exact .flag hpc
  | acquire =>
    simp only [txnStep, hpc] at h
    split at h
    · next rwc ha =>
      obtain ⟨rfl, rfl⟩ := Prod.mk.inj (Option.some.inj h)
      exact .take hpc ha
    · obtain ⟨rfl, rfl⟩ := Prod.mk.inj (Option.some.inj h)
      exact .retry (by simp [hpc])
  | barrier =>
    simp only [txnStep, hpc] at h
    split_ifs at h with hticket hfree
    · obtain ⟨rfl, rfl⟩ := Prod.mk.inj (Option.some.inj h)
      exact .barrier hpc (not_not.mp hticket) hfree
    · obtain ⟨rfl, rfl⟩ := Prod.mk.inj (Option.some.inj h)
      exact .retry (by simp [hpc])
  | raisePending todo =>
    cases todo with
    | nil =>
      simp only [txnStep, hpc] at h
      obtain ⟨rfl, rfl⟩ := Prod.mk.inj (Option.some.inj h)
      exact .raised hpc
    | cons o todo =>
      simp only [txnStep, hpc] at h
      obtain ⟨rfl, rfl⟩ := Prod.mk.inj (Option.some.inj h)
      exact .raisePending hpc
  | raiseLock o todo =>
    simp only [txnStep, hpc] at h
    obtain ⟨rfl, rfl⟩ := Prod.mk.inj (Option.some.inj h)
    exact .raiseLock hpc
  | lock todo =>
    cases todo with
    | nil =>
      simp only [txnStep, hpc] at h
      obtain ⟨rfl, rfl⟩ := Prod.mk.inj (Option.some.inj h)
      exact .began hpc
    | cons o todo =>
      simp only [txnStep, hpc] at h
      split at h
      · next rwc ha =>
        obtain ⟨rfl, rfl⟩ := Prod.mk.inj (Option.some.inj h)
        exact .lock hpc ha
      · obtain ⟨rfl, rfl⟩ := Prod.mk.inj (Option.some.inj h)
        exact .retry (by simp [hpc])
  | write commitType =>
    simp only [txnStep, hpc] at h
    split at h
    · next ha =>
      obtain ⟨rfl, rfl⟩ := Prod.mk.inj (Option.some.inj h)
      exact .written hpc ha
    · next o a groups ha =>
      obtain ⟨rfl, rfl⟩ := Prod.mk.inj (Option.some.inj h)
      exact .atom hpc ha
  | commit commitType errno todo =>
    cases todo with
    | nil =>
      simp only [txnStep, hpc] at h
      obtain ⟨rfl, rfl⟩ := Prod.mk.inj (Option.some.inj h)
      exact .committed hpc
    | cons o todo =>
      simp only [txnStep, hpc] at h
      obtain ⟨rfl, rfl⟩ := Prod.mk.inj (Option.some.inj h)
      exact .commit hpc
  | complete commitType errno =>
    have hc : TxnMove s k v input _ _ := .complete hpc
    simp only [txnStep, hpc] at h
    split_ifs at h with h₁ h₂
    · obtain ⟨rfl, rfl⟩ := Prod.mk.inj (Option.some.inj h)
      rwa [completion, if_pos h₁, if_pos h₂] at hc
    · obtain ⟨rfl, rfl⟩ := Prod.mk.inj (Option.some.inj h)
      rwa [completion, if_pos h₁, if_neg h₂] at hc
    · obtain ⟨rfl, rfl⟩ := Prod.mk.inj (Option.some.inj h)
      rwa [completion, if_neg h₁] at hc
  | unlock errno =>
    simp only [txnStep, hpc] at h
    split_ifs at h with hticket
    obtain ⟨rfl, rfl⟩ := Prod.mk.inj (Option.some.inj h)
    exact .unlock hpc (not_not.mp hticket)
  | releaseLock errno todo =>
    cases todo with
    | nil =>
      simp only [txnStep, hpc] at h
      obtain ⟨rfl, rfl⟩ := Prod.mk.inj (Option.some.inj h)
      exact .unlocked hpc
    | cons o todo =>
      simp only [txnStep, hpc] at h
      obtain ⟨rfl, rfl⟩ := Prod.mk.inj (Option.some.inj h)
      exact .releaseLock hpc
  | clearPending errno o todo =>
    simp only [txnStep, hpc] at h
    obtain ⟨rfl, rfl⟩ := Prod.mk.inj (Option.some.inj h)
    exact .clearPending hpc
  | release errno =>
    simp only [txnStep, hpc] at h
    obtain ⟨rfl, rfl⟩ := Prod.mk.inj (Option.some.inj h)
    exact .release hpc
  | notify errno =>
    simp only [txnStep, hpc] at h
    obtain ⟨rfl, rfl⟩ := Prod.mk.inj (Option.some.inj h)
    exact .notify hpc

/-! ### The system -/

inductive Move (s : State ω κ α) : Act ω κ α → State ω κ α → Event ω κ α → Prop where
  | createTxn :
    Move s (.createTxn true) { s.setTxn (s.nextTxnId + 1) .fresh with nextTxnId := s.nextTxnId + 1 } .silent
  | noMemory : Move s (.createTxn false) { s with nextTxnId := s.nextTxnId + 1 } .silent
  | createObject {o : ω} : Move s (.createObject o) (s.setObject o { s.objects o with isOpen := true }) .silent
  | submit {k : κ} {u : ObjectTask ω} (hk : s.tasks k = none)
    (hu : u.pc = .allocating ∧ u.txn = 0 ∨ u.pc = .opening ∧ (s.txns u.txn).cached = true) :
    Move s (.submit k u.object u.flags u.txn) (s.setTask k (some (.object u))) .silent
  | notFound {a : Act ω κ α} {k : κ} : Move s a s (.notified k .txnNotFound)
  | request {k : κ} {t : TxnId} {commitType : CommitType} (hk : s.tasks k = none) (hc : (s.txns t).cached = true) :
    Move s (.request k t commitType) ((s.setTxn t { s.txns t with cached := false }).setTask k
      (some (.txn { txn := t, commitType := commitType, pc := .flag }))) .silent
  | object {k : κ} {u : ObjectTask ω} {input : Input α} {s' : State ω κ α} {e : Event ω κ α}
    (hu : s.tasks k = some (.object u)) (hs : objectStep s k u input = some (s', e)) : Move s (.run k input) s' e
  | txn {k : κ} {v : TxnTask ω} {input : Input α} {s' : State ω κ α} {e : Event ω κ α}
    (hv : s.tasks k = some (.txn v)) (hs : txnStep s k v input = some (s', e)) : Move s (.run k input) s' e

theorem step_move {a : Act ω κ α} (h : step s a = some (s', e)) : Move s a s' e := by
  cases a with
  | createTxn alloc =>
    cases alloc with
    | false =>
      obtain ⟨rfl, rfl⟩ := Prod.mk.inj (Option.some.inj h)
      exact .noMemory
    | true =>
      obtain ⟨rfl, rfl⟩ := Prod.mk.inj (Option.some.inj h)
      exact .createTxn
  | createObject o =>
    obtain ⟨rfl, rfl⟩ := Prod.mk.inj (Option.some.inj h)
    exact .createObject
  | submit k o flags t =>
    simp only [step, ite_not] at h
    split_ifs at h with hk h0 hc
    · obtain ⟨rfl, rfl⟩ := Prod.mk.inj (Option.some.inj h)
      exact .submit (u := { object := o, flags := flags, txn := t, pc := .allocating }) hk (Or.inl ⟨rfl, h0⟩)
    · obtain ⟨rfl, rfl⟩ := Prod.mk.inj (Option.some.inj h)
      exact .submit (u := { object := o, flags := flags, txn := t, pc := .opening }) hk (Or.inr ⟨rfl, hc⟩)
    · obtain ⟨rfl, rfl⟩ := Prod.mk.inj (Option.some.inj h)
      exact .notFound
  | request k t commitType =>
    simp only [step, ite_not] at h
    split_ifs at h with hk hc
    · obtain ⟨rfl, rfl⟩ := Prod.mk.inj (Option.some.inj h)
      exact .request hk hc
    · obtain ⟨rfl, rfl⟩ := Prod.mk.inj (Option.some.inj h)
      exact .notFound
  | run k input =>
    simp only [step] at h
    split at h
    · exact absurd h (by simp)
    · next u hu => exact .object hu h
    · next v hv => exact .txn hv h

end RaleighSL.Core.Scheduler
