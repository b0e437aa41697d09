import RaleighSL.Core.Scheduler.Barrier

/-!
# What a step does to the semaphore of an object

Object tasks and transaction tasks share the semaphore of an object. What a task
holds of it, and whether it has set the commit flag and its commit is not over, can
be read off the place the task is at. Seen from one object a step of the system
does nothing or is one of a few moves of one task.
-/
namespace RaleighSL.Core.Scheduler
open RaleighSL.Library RaleighSL.Zcl.RwcSem

variable {ω κ α : Type*} [DecidableEq ω]

def TxnPc.locked (objects : List ω) : TxnPc ω → List ω
  | .lock todo => objects.filter (· ∉ todo)
  | .write _ => objects
  | .commit _ _ _ => objects
  | .complete _ _ => objects
  | .unlock _ => objects
  | .releaseLock _ todo => todo
  | .clearPending _ _ todo => todo
  | _ => []

def holdOf (objects : TxnId → List ω) (o : ω) : Option (Task ω) → Option Op
  | some (.object u) => if u.object = o then u.pc.holds else none
  | some (.txn v) => if o ∈ v.pc.locked (objects v.txn) then some .lock else none
  | none => none

def objectHold (s : State ω κ α) (o : ω) (k : κ) : Option Op := holdOf (fun t => (s.txns t).objects) o (s.tasks k)

/-- The task has a commit of the object under way. -/
def waitsOf (o : ω) : Option (Task ω) → Bool
  | some (.object u) => u.object = o && u.pc.committing
  | _ => false

def objectWaits (s : State ω κ α) (o : ω) (k : κ) : Bool := waitsOf o (s.tasks k)

variable {s s' : State ω κ α} {k k' : κ} {u : ObjectTask ω} {v : TxnTask ω} {input : Input α} {e : Event ω κ α}
variable {o : ω} {pc : TxnPc ω} {objects : List ω} {a : Act ω κ α}

theorem objectHold_object (hu : s.tasks k = some (.object u)) : objectHold s u.object k = u.pc.holds := by
  simp [objectHold, holdOf, hu]

theorem objectWaits_object (hu : s.tasks k = some (.object u)) : objectWaits s u.object k = u.pc.committing := by
  simp [objectWaits, waitsOf, hu]

theorem objectHold_txn (hv : s.tasks k = some (.txn v)) :
    objectHold s o k = if o ∈ v.pc.locked (s.txns v.txn).objects then some .lock else none := by
  simp [objectHold, holdOf, hv]

theorem objectWaits_txn (hv : s.tasks k = some (.txn v)) : objectWaits s o k = false := by
  simp [objectWaits, waitsOf, hv]

theorem TxnPc.commits_of_locked (h : o ∈ pc.locked objects) : pc.commits = true := by
  cases pc with
  | flag => exact absurd h List.not_mem_nil
  | acquire => exact absurd h List.not_mem_nil
  | notify errno => exact absurd h List.not_mem_nil
  | _ => rfl

/-- What a task holds depends on the groups of its transaction only while it holds its commit. -/
theorem holdOf_congr {objects objects' : TxnId → List ω} {task : Option (Task ω)}
    (h : ∀ v, task = some (.txn v) → v.pc.commits = true → objects' v.txn = objects v.txn) (o : ω) :
    holdOf objects' o task = holdOf objects o task := by
  cases task with
  | none => rfl
  | some task =>
    cases task with
    | object u => rfl
    | txn v =>
      cases hc : v.pc.commits with
      | true => simp only [holdOf, h v rfl hc]
      | false =>
        have hnone (objects : List ω) : ¬ o ∈ v.pc.locked objects := by
          intro hmem
          rw [TxnPc.commits_of_locked hmem] at hc
          exact absurd hc (by decide)
        simp [holdOf, hnone]

/-- The moves on the semaphore of the object, with what the task holds and whether its commit is under
way afterwards. -/
inductive SemMove (s : State ω κ α) (k : κ) : ω → Sem → Option Op → Bool → Prop where
  | acquire {o : ω} {op : Op} {x : Sem} (hhold : objectHold s o k = none)
    (hwaits : objectWaits s o k = decide (op = .commit)) (ha : (s.objects o).rwc.acquire op = some x) :
    SemMove s k o x (some op) (op = .commit)
  | flag {u : ObjectTask ω} (hu : s.tasks k = some (.object u)) (hpc : u.pc = .flagging) :
    SemMove s k u.object (s.objects u.object).rwc.setCommit (some .write) true
  | switchRead {u : ObjectTask ω} {current : SchedState} {x : Sem} (hu : s.tasks k = some (.object u))
    (hpc : u.pc = .switching current .schedRead) (hop : current.op = .write)
    (hs : (s.objects u.object).rwc.switch .write .read = some x) : SemMove s k u.object x (some .read) false
  | switchCommit {u : ObjectTask ω} {current : SchedState} {x : Sem} (hu : s.tasks k = some (.object u))
    (hpc : u.pc = .switching current .schedCommit) (hop : current.op = .write)
    (hs : (s.objects u.object).rwc.switch .write .commit = some x) : SemMove s k u.object x (some .commit) true
  | drop {u : ObjectTask ω} {current next : SchedState} {result : Option Errno} {waits : Bool}
    (hu : s.tasks k = some (.object u)) (hpc : u.pc = .releasing current next result)
    (hwaits : waits = true → u.pc.committing = true ∧ current.op ≠ .commit) :
    SemMove s k u.object ((s.objects u.object).rwc.drop current.op) none waits
  | raise {v : TxnTask ω} {o : ω} {todo : List ω} (hv : s.tasks k = some (.txn v)) (hpc : v.pc = .raiseLock o todo) :
    SemMove s k o (s.objects o).rwc.setLock none false
  | unlock {o : ω} (hhold : objectHold s o k = some .lock) (hwaits : objectWaits s o k = false) :
    SemMove s k o ((s.objects o).rwc.drop .lock) none false

variable [DecidableEq κ]

inductive SemStep (s : State ω κ α) (a : Act ω κ α) (s' : State ω κ α) (o : ω) : Prop where
  | same (hx : (s'.objects o).rwc = (s.objects o).rwc) (hhold : objectHold s' o = objectHold s o)
    (hwaits : objectWaits s' o = objectWaits s o)
  | move {k : κ} {input : Input α} {hold : Option Op} {waits : Bool} (ha : a = .run k input)
    (hhold : objectHold s' o = Function.update (objectHold s o) k hold)
    (hwaits : objectWaits s' o = Function.update (objectWaits s o) k waits)
    (hm : SemMove s k o (s'.objects o).rwc hold waits)

/-- The tasks at places the step function can bring them to. -/
structure SemInv (s : State ω κ α) : Prop where
  barrier : BarrierInv s
  ends : ∀ k u, s.tasks k = some (.object u) → u.pc.ends = true

omit [DecidableEq κ] in
theorem init_semInv : SemInv (State.init : State ω κ α) where
  barrier := init_barrierInv
  ends _ _ h := absurd h (by simp [State.init])

/-! ### A step of one task -/

section
variable {task : Option (Task ω)} (htasks : s'.tasks = Function.update s.tasks k task)
variable (hgroups : ∀ j v, j ≠ k → s.tasks j = some (.txn v) → v.pc.commits = true →
  (s'.txns v.txn).objects = (s.txns v.txn).objects)
include htasks

theorem objectWaits_update : objectWaits s' o = Function.update (objectWaits s o) k (waitsOf o task) := by
  funext j
  by_cases hj : j = k
  · rw [hj, Function.update_self, objectWaits, htasks, Function.update_self]
  · rw [Function.update_of_ne hj, objectWaits, htasks, Function.update_of_ne hj]
    rfl

include hgroups in
theorem objectHold_update :
    objectHold s' o = Function.update (objectHold s o) k (holdOf (fun t => (s'.txns t).objects) o task) := by
  funext j
  by_cases hj : j = k
  · rw [hj, Function.update_self, objectHold, htasks, Function.update_self]
  · rw [Function.update_of_ne hj, objectHold, htasks, Function.update_of_ne hj]
    exact holdOf_congr (fun v hv hc => hgroups j v hj hv hc) o

theorem semStep_same (hgroups : ∀ j v, j ≠ k → s.tasks j = some (.txn v) → v.pc.commits = true →
      (s'.txns v.txn).objects = (s.txns v.txn).objects)
    (hx : (s'.objects o).rwc = (s.objects o).rwc)
    (hhold : holdOf (fun t => (s'.txns t).objects) o task = objectHold s o k)
    (hwaits : waitsOf o task = objectWaits s o k) : SemStep s a s' o := by
  apply SemStep.same hx
  · rw [objectHold_update htasks hgroups, hhold, Function.update_eq_self]
  · rw [objectWaits_update htasks, hwaits, Function.update_eq_self]

end

theorem semStep_object (hu : s.tasks k = some (.object u)) {pc : ObjectPc} {x : Object}
    (htasks : s'.tasks = Function.update s.tasks k (u.at pc)) (htxns : s'.txns = s.txns)
    (hx : s'.objects = Function.update s.objects u.object x)
    (hm : SemMove s k u.object x.rwc pc.holds pc.committing) : SemStep s (.run k input) s' o := by
  have hgroups : ∀ j v, j ≠ k → s.tasks j = some (.txn v) → v.pc.commits = true →
      (s'.txns v.txn).objects = (s.txns v.txn).objects := fun _ _ _ _ _ => by rw [htxns]
  by_cases ho : o = u.object
  · subst ho
    apply SemStep.move rfl (objectHold_update htasks hgroups) (objectWaits_update htasks)
    rw [hx, Function.update_self]
    simpa [holdOf, waitsOf, ObjectTask.at] using hm
  · have ho' : u.object ≠ o := Ne.symm ho
    refine semStep_same htasks hgroups ?_ ?_ ?_
    · rw [hx, Function.update_of_ne ho]
    · simp [holdOf, ObjectTask.at, objectHold, hu, ho']
    · simp [waitsOf, ObjectTask.at, objectWaits, hu, ho']

theorem semStep_objectPass (hu : s.tasks k = some (.object u)) {pc : ObjectPc} (hholds : pc.holds = u.pc.holds)
    (hcommitting : pc.committing = u.pc.committing) (htasks : s'.tasks = Function.update s.tasks k (u.at pc))
    (hgroups : ∀ j v, j ≠ k → s.tasks j = some (.txn v) → v.pc.commits = true →
      (s'.txns v.txn).objects = (s.txns v.txn).objects)
    (hx : ∀ o, (s'.objects o).rwc = (s.objects o).rwc) : SemStep s a s' o := by
  refine semStep_same htasks hgroups (hx o) ?_ ?_
  · simp [holdOf, ObjectTask.at, objectHold, hu, hholds]
  · simp [waitsOf, ObjectTask.at, objectWaits, hu, hcommitting]

theorem semStep_objectGone (hu : s.tasks k = some (.object u)) (hholds : u.pc.holds = none)
    (hcommitting : u.pc.committing = false) (htasks : s'.tasks = Function.update s.tasks k none)
    (hgroups : ∀ t, (s'.txns t).objects = (s.txns t).objects) (hx : s'.objects = s.objects) :
    SemStep s a s' o := by
  refine semStep_same htasks (fun _ v _ _ _ => hgroups v.txn) (by rw [hx]) ?_ ?_
  · simp [holdOf, objectHold, hu, hholds]
  · simp [waitsOf, objectWaits, hu, hcommitting]

/-- A switch succeeds from write to read, on an object without flags, or from write to commit. -/
theorem switch_cases {x x' : Sem} {current next : SchedState} (h : x.switch current.op next.op = some x') :
    current.op = .write ∧ (next = .schedRead ∧ x.commit = false ∧ x.lock = false ∨ next = .schedCommit) := by
  cases current <;> cases next <;> simp [SchedState.op, Sem.switch] at h ⊢ <;> exact h.1

theorem SchedState.op_eq_commit {state : SchedState} : state.op = .commit ↔ state = .schedCommit := by
  cases state <;> simp [SchedState.op]

theorem ObjectPc.committing_acquire (state : SchedState) :
    (ObjectPc.acquire state).committing = decide (state.op = .commit) := by
  cases state <;> rfl

theorem ObjectPc.committing_running (state : SchedState) :
    (ObjectPc.running state).committing = decide (state.op = .commit) := by
  cases state <;> rfl

theorem SemInv.objectMove (h : SemInv s) (hu : s.tasks k = some (.object u)) (hm : ObjectMove s k u input s') :
    SemStep s (.run k input) s' o := by
  have hends := h.ends k u hu
  have hgroups (rwc : Sem) (t : TxnId) :
      (Function.update s.txns u.txn { s.txns u.txn with rwc := rwc } t).objects = (s.txns t).objects := by
    by_cases ht : t = u.txn
    · rw [ht, Function.update_self]
      rfl
    · rw [Function.update_of_ne ht]
  cases hm with
  | enter hpc ha =>
    exact semStep_objectPass hu (by rw [hpc]; rfl) (by rw [hpc]; rfl) rfl (fun _ v _ _ _ => hgroups _ v.txn) (fun _ => rfl)
  | closed hpc => exact semStep_objectGone hu (by rw [hpc]; rfl) (by rw [hpc]; rfl) rfl (fun _ => rfl) rfl
  | pass hpass => exact semStep_objectPass hu hpass.holds hpass.committing rfl (fun _ _ _ _ _ => rfl) (fun _ => rfl)
  | opened hpc =>
    refine semStep_objectPass hu (by rw [hpc]; rfl) ?_ rfl (fun _ _ _ _ _ => rfl) ?_
    · rw [hpc]
      cases u.flags <;> rfl
    · intro o'
      by_cases ho : o' = u.object
      · simp [ho]
      · simp [ho]
  | @acquire state rwc hpc ha =>
    refine semStep_object hu rfl rfl rfl ?_
    rw [ObjectPc.committing_running]
    apply SemMove.acquire _ _ ha
    · rw [objectHold_object hu, hpc]
      rfl
    · rw [objectWaits_object hu, hpc, ObjectPc.committing_acquire]
  | wrote hpc hopening hholds hcommitting =>
    have hholds' : _ = u.pc.holds := hholds.trans (by rw [hpc]; rfl)
    have hcommitting' : _ = u.pc.committing := hcommitting.trans (by rw [hpc]; rfl)
    split_ifs with h0
    · exact semStep_objectPass hu hholds' hcommitting' rfl (fun _ _ _ _ _ => rfl) (fun _ => rfl)
    · refine semStep_objectPass hu hholds' hcommitting' rfl ?_ (fun _ => rfl)
      intro j v _ hj hc
      have hne : v.txn ≠ u.txn := (h.barrier.txn.not_reading hj hc hu (by simp [hpc])).symm
      simp [hne]
  | flag hpc => exact semStep_object hu rfl rfl rfl (.flag hu hpc)
  | @switch current next rwc hpc hs =>
    refine semStep_object hu rfl rfl rfl ?_
    obtain ⟨hop, hnext⟩ := switch_cases hs
    rw [hop] at hs
    obtain ⟨rfl, -⟩ | rfl := hnext
    · exact .switchRead hu hpc hop hs
    · exact .switchCommit hu hpc hop hs
  | @again current next hpc =>
    refine semStep_object hu rfl rfl rfl (.drop hu hpc ?_)
    intro hwaits
    rw [hpc] at hends ⊢
    constructor
    · cases next <;> first | rfl | exact absurd hwaits (by decide)
    · rw [ne_eq, SchedState.op_eq_commit]
      rintro rfl
      exact absurd hends (by simp [ObjectPc.ends])
  | @done current next errno hpc =>
    exact semStep_object hu rfl rfl rfl (.drop hu hpc (fun hwaits => absurd hwaits (by simp [ObjectPc.committing])))
  | leave hpc =>
    split_ifs with h0
    · exact semStep_objectGone hu (by rw [hpc]; rfl) (by rw [hpc]; rfl) rfl (fun _ => rfl) rfl
    · exact semStep_objectGone hu (by rw [hpc]; rfl) (by rw [hpc]; rfl) rfl (fun t => hgroups _ t) rfl

theorem semStep_txnPass (hv : s.tasks k = some (.txn v)) {pc : TxnPc ω}
    (hlocked : ∀ o, o ∈ pc.locked (s.txns v.txn).objects ↔ o ∈ v.pc.locked (s.txns v.txn).objects)
    (htasks : s'.tasks = Function.update s.tasks k (v.at pc)) (hgroups : ∀ t, (s'.txns t).objects = (s.txns t).objects)
    (hx : ∀ o, (s'.objects o).rwc = (s.objects o).rwc) : SemStep s a s' o := by
  refine semStep_same htasks (fun _ v _ _ _ => hgroups v.txn) (hx o) ?_ ?_
  · simp [holdOf, TxnTask.at, objectHold, hv, hgroups, hlocked o]
  · rw [objectWaits_txn hv]
    rfl

theorem semStep_txn (hv : s.tasks k = some (.txn v)) {pc : TxnPc ω} {o' : ω} {x : Object}
    (hlocked : ∀ o, o ≠ o' → (o ∈ pc.locked (s.txns v.txn).objects ↔ o ∈ v.pc.locked (s.txns v.txn).objects))
    (htasks : s'.tasks = Function.update s.tasks k (v.at pc)) (htxns : s'.txns = s.txns)
    (hx : s'.objects = Function.update s.objects o' x)
    (hm : SemMove s k o' x.rwc (if o' ∈ pc.locked (s.txns v.txn).objects then some .lock else none) false) :
    SemStep s (.run k input) s' o := by
  have hgroups : ∀ j v, j ≠ k → s.tasks j = some (.txn v) → v.pc.commits = true →
      (s'.txns v.txn).objects = (s.txns v.txn).objects := fun _ _ _ _ _ => by rw [htxns]
  by_cases ho : o = o'
  · subst ho
    apply SemStep.move rfl (objectHold_update htasks hgroups) (objectWaits_update htasks)
    rw [hx, Function.update_self, htxns]
    exact hm
  · refine semStep_same htasks hgroups ?_ ?_ ?_
    · rw [hx, Function.update_of_ne ho]
    · simp [holdOf, TxnTask.at, objectHold, hv, htxns, hlocked o ho]
    · rw [objectWaits_txn hv]
      rfl

theorem SemInv.txnMove (h : SemInv s) (hv : s.tasks k = some (.txn v)) (hm : TxnMove s k v input s' e) :
    SemStep s (.run k input) s' o := by
  have hsuffix := (h.barrier.marks k v hv).suffix
  have hnodup := h.barrier.txn.nodup v.txn
  have hid (o : ω) (t : TxnId) (o' : ω) :
      (Function.update s.objects o { s.objects o with pendingTxnId := t } o').rwc = (s.objects o').rwc := by
    by_cases ho : o' = o
    · rw [ho, Function.update_self]
    · rw [Function.update_of_ne ho]
  have hgroups (y : Txn ω α) (hy : y.objects = (s.txns v.txn).objects) (t : TxnId) :
      (Function.update s.txns v.txn y t).objects = (s.txns t).objects := by
    by_cases ht : t = v.txn
    · rw [ht, Function.update_self]
      exact hy
    · rw [Function.update_of_ne ht]
  cases hm with
  | flag hpc => exact semStep_txnPass hv (fun _ => by rw [hpc]; rfl) rfl (hgroups _ (by rfl)) (fun _ => rfl)
  | take hpc ha => exact semStep_txnPass hv (fun _ => by rw [hpc]; rfl) rfl (hgroups _ (by rfl)) (fun _ => rfl)
  | retry => exact .same rfl rfl rfl
  | barrier hpc => exact semStep_txnPass hv (fun _ => by rw [hpc]; rfl) rfl (fun _ => rfl) (fun _ => rfl)
  | raised hpc =>
    refine semStep_txnPass hv ?_ rfl (fun _ => rfl) (fun _ => rfl)
    simp [hpc, TxnPc.locked]
  | raisePending hpc => exact semStep_txnPass hv (fun _ => by rw [hpc]; rfl) rfl (fun _ => rfl) (hid _ _)
  | raiseLock hpc => exact semStep_txn hv (fun _ _ => by rw [hpc]; rfl) rfl rfl rfl (.raise hv hpc)
  | began hpc =>
    refine semStep_txnPass hv ?_ rfl (fun _ => rfl) (fun _ => rfl)
    simp [hpc, TxnPc.locked]
  | @lock o todo rwc hpc ha =>
    rw [hpc] at hsuffix
    have hmem : o ∈ (s.txns v.txn).objects := hsuffix.subset List.mem_cons_self
    have hnotin : o ∉ todo := (List.nodup_cons.mp (hnodup.sublist hsuffix.sublist)).1
    refine semStep_txn hv ?_ rfl rfl rfl ?_
    · intro o' ho'
      simp [hpc, TxnPc.locked, ho']
    · rw [if_pos (by simp [TxnPc.locked, hmem, hnotin])]
      refine SemMove.acquire ?_ (objectWaits_txn hv) ha
      simp [objectHold_txn hv, hpc, TxnPc.locked]
  | atom hpc ha =>
    have htasks : s.tasks = Function.update s.tasks k (v.at v.pc) := by
      rw [show v.at v.pc = s.tasks k from hv.symm, Function.update_eq_self]
    exact semStep_txnPass hv (fun _ => Iff.rfl) htasks (hgroups _ (nextAtom_objects ha)) (fun _ => rfl)
  | written hpc => exact semStep_txnPass hv (fun _ => by rw [hpc]; rfl) rfl (fun _ => rfl) (fun _ => rfl)
  | commit hpc => exact semStep_txnPass hv (fun _ => by rw [hpc]; rfl) rfl (fun _ => rfl) (fun _ => rfl)
  | committed hpc => exact semStep_txnPass hv (fun _ => by rw [hpc]; rfl) rfl (fun _ => rfl) (fun _ => rfl)
  | complete hpc => exact semStep_txnPass hv (fun _ => by rw [hpc]; rfl) rfl (hgroups _ (by rfl)) (fun _ => rfl)
  | unlock hpc => exact semStep_txnPass hv (fun _ => by rw [hpc]; rfl) rfl (fun _ => rfl) (fun _ => rfl)
  | unlocked hpc => exact semStep_txnPass hv (fun _ => by rw [hpc]; rfl) rfl (fun _ => rfl) (fun _ => rfl)
  | @releaseLock errno o todo hpc =>
    rw [hpc] at hsuffix
    have hnotin : o ∉ todo := (List.nodup_cons.mp (hnodup.sublist hsuffix.sublist)).1
    refine semStep_txn hv ?_ rfl rfl rfl ?_
    · intro o' ho'
      simp [hpc, TxnPc.locked, ho']
    · rw [if_neg (by simpa [TxnPc.locked] using hnotin)]
      refine SemMove.unlock ?_ (objectWaits_txn hv)
      simp [objectHold_txn hv, hpc, TxnPc.locked]
  | clearPending hpc => exact semStep_txnPass hv (fun _ => by rw [hpc]; rfl) rfl (fun _ => rfl) (hid _ _)
  | release hpc => exact semStep_txnPass hv (fun _ => by rw [hpc]; rfl) rfl (hgroups _ (by rfl)) (fun _ => rfl)
  | notify hpc =>
    refine semStep_same rfl (fun _ _ _ _ _ => rfl) rfl ?_ ?_
    · simp [objectHold_txn hv, hpc, TxnPc.locked, holdOf]
    · rw [objectWaits_txn hv]
      rfl

/-! ### A step of the system -/

omit [DecidableEq κ] in
theorem SemInv.keep (h : SemInv s) [DecidableEq κ] (htasks : s'.tasks = s.tasks)
    (hgroups : ∀ t, t ≤ s.nextTxnId → (s'.txns t).objects = (s.txns t).objects)
    (hx : ∀ o, (s'.objects o).rwc = (s.objects o).rwc) : SemStep s a s' o := by
  refine .same (hx o) ?_ ?_
  · funext j
    rw [objectHold, htasks]
    apply holdOf_congr
    intro v hv _
    have hok := h.barrier.txn.tasks j
    rw [hv] at hok
    exact hgroups v.txn hok.2.1
  · funext j
    rw [objectWaits, htasks]
    rfl

theorem SemInv.semStep (h : SemInv s) (hs : step s a = some (s', e)) : SemStep s a s' o := by
  cases step_move hs with
  | createTxn =>
    refine h.keep rfl ?_ (fun _ => rfl)
    intro t ht
    have hne : t ≠ s.nextTxnId + 1 := Nat.ne_of_lt (Nat.lt_succ_of_le ht)
    simp [hne]
  | noMemory => exact h.keep rfl (fun _ _ => rfl) (fun _ => rfl)
  | @createObject o =>
    refine h.keep rfl (fun _ _ => rfl) ?_
    intro o'
    by_cases ho : o' = o
    · simp [ho]
    · simp [ho]
  | @submit k u hk hu =>
    refine semStep_same rfl (fun _ _ _ _ _ => rfl) rfl ?_ ?_
    · obtain ⟨hpc, -⟩ | ⟨hpc, -⟩ := hu
      · simp [holdOf, objectHold, hk, hpc, ObjectPc.holds]
      · simp [holdOf, objectHold, hk, hpc, ObjectPc.holds]
    · obtain ⟨hpc, -⟩ | ⟨hpc, -⟩ := hu
      · simp [waitsOf, objectWaits, hk, hpc, ObjectPc.committing]
      · simp [waitsOf, objectWaits, hk, hpc, ObjectPc.committing]
  | notFound => exact .same rfl rfl rfl
  | @request k t commitType hk hc =>
    have hgroups (t' : TxnId) : (Function.update s.txns t { s.txns t with cached := false } t').objects =
        (s.txns t').objects := by
      by_cases ht : t' = t
      · rw [ht, Function.update_self]
        rfl
      · rw [Function.update_of_ne ht]
    refine semStep_same rfl (fun _ v _ _ _ => hgroups v.txn) rfl ?_ ?_
    · simp [holdOf, objectHold, hk, TxnPc.locked]
    · simp [waitsOf, objectWaits, hk]
  | object hu hs => exact h.objectMove hu (objectStep_move hs)
  | txn hv hs => exact h.txnMove hv (txnStep_move hs)

theorem ObjectMove.ends (hm : ObjectMove s k u input s') (hu : u.pc.ends = true) :
    ∃ task, s'.tasks = Function.update s.tasks k task ∧ ∀ u', task = some (.object u') → u'.pc.ends = true := by
  have hat {pc : ObjectPc} (hends : pc.ends = true) (u' : ObjectTask ω) (hu' : u.at pc = some (.object u')) :
      u'.pc.ends = true := by
    obtain rfl := Task.object.inj (Option.some.inj hu')
    exact hends
  cases hm with
  | enter hpc ha => exact ⟨_, rfl, hat rfl⟩
  | closed hpc => exact ⟨_, rfl, by simp⟩
  | pass hpass => exact ⟨_, rfl, hat (hpass.ends hu)⟩
  | opened hpc => exact ⟨_, rfl, hat rfl⟩
  | acquire hpc ha => exact ⟨_, rfl, hat rfl⟩
  | @wrote pc hpc hopening hholds hcommitting =>
    have hends : pc.ends = true := by
      cases pc with
      | switching current next => cases current <;> first | rfl | simp [ObjectPc.holds, SchedState.op] at hholds
      | releasing current next result => cases current <;> first | rfl | simp [ObjectPc.holds, SchedState.op] at hholds
      | _ => rfl
    split_ifs
    · exact ⟨_, rfl, hat hends⟩
    · exact ⟨_, rfl, hat hends⟩
  | flag hpc => exact ⟨_, rfl, hat rfl⟩
  | switch hpc hs => exact ⟨_, rfl, hat rfl⟩
  | again hpc => exact ⟨_, rfl, hat rfl⟩
  | done hpc => exact ⟨_, rfl, hat rfl⟩
  | leave hpc =>
    split_ifs
    · exact ⟨_, rfl, by simp⟩
    · exact ⟨_, rfl, by simp⟩

theorem TxnMove.tasks (hm : TxnMove s k v input s' e) (hv : s.tasks k = some (.txn v)) :
    ∃ task, s'.tasks = Function.update s.tasks k task ∧ ∀ u, task ≠ some (.object u) := by
  cases hm with
  | retry => exact ⟨s.tasks k, by simp, by simp [hv]⟩
  | atom hpc ha => exact ⟨s.tasks k, by simp, by simp [hv]⟩
  | _ => exact ⟨_, rfl, by simp [TxnTask.at]⟩

theorem SemInv.step (h : SemInv s) (hs : Scheduler.step s a = some (s', e)) : SemInv s' where
  barrier := h.barrier.step hs
  ends j w hj := by
    have hupdate {k : κ} {task : Option (Task ω)} (htasks : s'.tasks = Function.update s.tasks k task)
        (hends : ∀ u, task = some (.object u) → u.pc.ends = true) : w.pc.ends = true := by
      rw [htasks] at hj
      by_cases hjk : j = k
      · rw [hjk, Function.update_self] at hj
        exact hends w hj
      · rw [Function.update_of_ne hjk] at hj
        exact h.ends j w hj
    cases step_move hs with
    | createTxn => exact h.ends j w hj
    | noMemory => exact h.ends j w hj
    | createObject => exact h.ends j w hj
    | submit hk hu =>
      refine hupdate rfl ?_
      intro u' hu'
      obtain rfl := Task.object.inj (Option.some.inj hu')
      obtain ⟨hpc, -⟩ | ⟨hpc, -⟩ := hu <;> rw [hpc] <;> rfl
    | notFound => exact h.ends j w hj
    | request hk hc => exact hupdate rfl (by simp)
    | object hu hs =>
      obtain ⟨task, htasks, hends⟩ := (objectStep_move hs).ends (h.ends _ _ hu)
      exact hupdate htasks hends
    | txn hv hs =>
      obtain ⟨task, htasks, hnot⟩ := (txnStep_move hs).tasks hv
      exact hupdate htasks (fun u hu => absurd hu (hnot u))

end RaleighSL.Core.Scheduler
