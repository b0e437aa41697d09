import RaleighSL.Core.Scheduler.Transactions

/-!
# The transaction barrier

`__txn_mgr_acquire_barrier` and `__txn_mgr_release_locks` run under one ticket lock
and go through the objects of the transaction one by one. At every step of every
run the objects a transaction has marked so far carry its id, those it still has
to mark carry none, and nobody else is in such a section. So the barrier marks all
objects or none, no two transactions past it share an object, and a release finds
its own id on every object.
-/
namespace RaleighSL.Core.Scheduler
open RaleighSL.Library RaleighSL.Zcl.RwcSem

variable {ω κ α : Type*}

/-- The task is in a section under the ticket lock. -/
def TxnPc.inSection : TxnPc ω → Bool
  | .raisePending _ => true
  | .raiseLock _ _ => true
  | .releaseLock _ _ => true
  | .clearPending _ _ _ => true
  | _ => false

/-- The objects the task has still to mark. -/
def TxnPc.unraised : TxnPc ω → List ω
  | .raisePending todo => todo
  | .raiseLock _ todo => todo
  | _ => []

/-- The objects a loop over the groups has not finished. -/
def TxnPc.todo : TxnPc ω → List ω
  | .raisePending todo => todo
  | .raiseLock o todo => o :: todo
  | .lock todo => todo
  | .releaseLock _ todo => todo
  | .clearPending _ o todo => o :: todo
  | _ => []

/-- From the end of its barrier to the start of its release. -/
def TxnPc.pastBarrier : TxnPc ω → Bool
  | .lock _ => true
  | .write _ => true
  | .commit _ _ _ => true
  | .complete _ _ => true
  | .unlock _ => true
  | _ => false

variable [DecidableEq ω]

/-- The objects that carry the id of the task's transaction. -/
def TxnPc.marked (objects : List ω) : TxnPc ω → List ω
  | .raisePending todo => objects.filter (· ∉ todo)
  | .raiseLock _ todo => objects.filter (· ∉ todo)
  | .lock _ => objects
  | .write _ => objects
  | .commit _ _ _ => objects
  | .complete _ _ => objects
  | .unlock _ => objects
  | .releaseLock _ todo => todo
  | .clearPending _ o todo => o :: todo
  | _ => []

structure Marks (s : State ω κ α) (k : κ) (v : TxnTask ω) : Prop where
  pending : ∀ o ∈ v.pc.marked (s.txns v.txn).objects, (s.objects o).pendingTxnId = v.txn
  free : ∀ o ∈ v.pc.unraised, (s.objects o).pendingTxnId = 0
  suffix : v.pc.todo <:+ (s.txns v.txn).objects
  ticket : v.pc.inSection = true → s.ticket = some k

structure BarrierInv (s : State ω κ α) : Prop where
  txn : TxnInv s
  marks : ∀ k v, s.tasks k = some (.txn v) → Marks s k v
  owner : ∀ o, (s.objects o).pendingTxnId ≠ 0 →
    ∃ k v, s.tasks k = some (.txn v) ∧ o ∈ v.pc.marked (s.txns v.txn).objects

variable {s s' : State ω κ α} {k k' : κ} {u : ObjectTask ω} {v v' : TxnTask ω} {input : Input α} {e : Event ω κ α}
variable {t : TxnId} {o : ω} {pc : TxnPc ω} {objects : List ω}

theorem TxnPc.commits_of_marked (h : o ∈ pc.marked objects) : pc.commits = true := by
  cases pc with
  | flag => exact absurd h List.not_mem_nil
  | acquire => exact absurd h List.not_mem_nil
  | notify errno => exact absurd h List.not_mem_nil
  | _ => rfl

omit [DecidableEq ω] in
theorem TxnPc.inSection_of_unraised (h : o ∈ pc.unraised) : pc.inSection = true := by
  cases pc with
  | raisePending todo => rfl
  | raiseLock o todo => rfl
  | _ => exact absurd h List.not_mem_nil

theorem init_barrierInv : BarrierInv (State.init : State ω κ α) where
  txn := init_txnInv
  marks _ _ h := absurd h (by simp [State.init])
  owner _ h := absurd rfl h

theorem BarrierInv.single (h : BarrierInv s) (hv : s.tasks k = some (.txn v)) (hv' : s.tasks k' = some (.txn v'))
    (ht : v'.txn = v.txn) : k' = k := by
  apply h.txn.single k k' v.txn
  · rw [hv]
    rfl
  · rw [hv', ← ht]
    rfl

theorem BarrierInv.marked_single (h : BarrierInv s) (hv : s.tasks k = some (.txn v)) (hv' : s.tasks k' = some (.txn v'))
    (ho : o ∈ v.pc.marked (s.txns v.txn).objects) (ho' : o ∈ v'.pc.marked (s.txns v'.txn).objects) : k' = k := by
  apply h.single hv hv'
  rw [← (h.marks k v hv).pending o ho, ← (h.marks k' v' hv').pending o ho']

theorem BarrierInv.txn_ne_zero (h : BarrierInv s) (hv : s.tasks k = some (.txn v)) : v.txn ≠ 0 := by
  have hok := h.txn.tasks k
  rw [hv] at hok
  exact hok.1

/-- What a task relies on, under a step of another task. -/
theorem Marks.frame (h : Marks s k v)
    (hobjects : v.pc.commits = true → (s'.txns v.txn).objects = (s.txns v.txn).objects)
    (hpending : ∀ o, o ∈ v.pc.marked (s.txns v.txn).objects ∨ o ∈ v.pc.unraised →
      (s'.objects o).pendingTxnId = (s.objects o).pendingTxnId)
    (hticket : v.pc.inSection = true → s'.ticket = s.ticket) : Marks s' k v := by
  have hmarked : v.pc.marked (s'.txns v.txn).objects = v.pc.marked (s.txns v.txn).objects := by
    cases hc : v.pc.commits with
    | true => rw [hobjects hc]
    | false =>
      cases hpc : v.pc <;> simp [hpc, TxnPc.commits] at hc <;> rfl
  refine ⟨?_, ?_, ?_, ?_⟩
  · intro o ho
    rw [hmarked] at ho
    rw [hpending o (Or.inl ho)]
    exact h.pending o ho
  · intro o ho
    rw [hpending o (Or.inr ho)]
    exact h.free o ho
  · cases hc : v.pc.commits with
    | true =>
      rw [hobjects hc]
      exact h.suffix
    | false => cases hpc : v.pc <;> simp [hpc, TxnPc.commits] at hc <;> exact List.nil_suffix
  · intro hsec
    rw [hticket hsec]
    exact h.ticket hsec

variable [DecidableEq κ]

/-- What has to be checked of a step of one task. -/
theorem BarrierInv.of_update (htxn : TxnInv s') {task : Option (Task ω)}
    (htasks : s'.tasks = Function.update s.tasks k task)
    (hothers : ∀ j v, j ≠ k → s.tasks j = some (.txn v) → Marks s' j v ∧
      (v.pc.commits = true → (s'.txns v.txn).objects = (s.txns v.txn).objects))
    (hself : ∀ v, task = some (.txn v) → Marks s' k v)
    (howner : ∀ o, (s'.objects o).pendingTxnId ≠ 0 →
      (∃ j v, j ≠ k ∧ s.tasks j = some (.txn v) ∧ o ∈ v.pc.marked (s.txns v.txn).objects) ∨
      ∃ v, task = some (.txn v) ∧ o ∈ v.pc.marked (s'.txns v.txn).objects) : BarrierInv s' where
  txn := htxn
  marks j v hj := by
    rw [htasks] at hj
    by_cases hjk : j = k
    · rw [hjk, Function.update_self] at hj
      rw [hjk]
      exact hself v hj
    · rw [Function.update_of_ne hjk] at hj
      exact (hothers j v hjk hj).1
  owner o ho := by
    obtain ⟨j, v, hjk, hj, hmem⟩ | ⟨v, htask, hmem⟩ := howner o ho
    · refine ⟨j, v, ?_, ?_⟩
      · rw [htasks, Function.update_of_ne hjk]
        exact hj
      · rw [(hothers j v hjk hj).2 (TxnPc.commits_of_marked hmem)]
        exact hmem
    · refine ⟨k, v, ?_, hmem⟩
      rw [htasks, Function.update_self]
      exact htask

/-- A step that marks nothing, under no ticket and not of a transaction task. -/
theorem BarrierInv.aside (h : BarrierInv s) (htxn : TxnInv s') {task : Option (Task ω)}
    (htasks : s'.tasks = Function.update s.tasks k task) (hk : requestOf (s.tasks k) = none)
    (hself : ∀ v, task = some (.txn v) → Marks s' k v)
    (hobjects : ∀ j v, s.tasks j = some (.txn v) → v.pc.commits = true →
      (s'.txns v.txn).objects = (s.txns v.txn).objects)
    (hpending : ∀ o, (s'.objects o).pendingTxnId = (s.objects o).pendingTxnId) (hticket : s'.ticket = s.ticket) :
    BarrierInv s' := by
  refine BarrierInv.of_update htxn htasks ?_ hself ?_
  · intro j v _ hj
    exact ⟨(h.marks j v hj).frame (hobjects j v hj) (fun o _ => hpending o) (fun _ => hticket), hobjects j v hj⟩
  · intro o ho
    rw [hpending] at ho
    obtain ⟨j, v, hj, hmem⟩ := h.owner o ho
    refine Or.inl ⟨j, v, ?_, hj, hmem⟩
    rintro rfl
    simp [hj, requestOf] at hk

theorem BarrierInv.objectMove (h : BarrierInv s) (hu : s.tasks k = some (.object u)) (hm : ObjectMove s k u input s') :
    BarrierInv s' := by
  have htxn := h.txn.objectMove hu hm
  have hk : requestOf (s.tasks k) = none := by
    rw [hu]
    rfl
  have hnot (pc : ObjectPc) (v : TxnTask ω) (hc : u.at pc = some (.txn v)) : Marks s' k v := by
    simp [ObjectTask.at] at hc
  have hnone (v : TxnTask ω) (hc : none = some (Task.txn v)) : Marks s' k v := by
    simp at hc
  have hpending (x : Object) (hx : x.pendingTxnId = (s.objects u.object).pendingTxnId) (o : ω) :
      (Function.update s.objects u.object x o).pendingTxnId = (s.objects o).pendingTxnId := by
    by_cases ho : o = u.object
    · rw [ho, Function.update_self]
      exact hx
    · rw [Function.update_of_ne ho]
  have hgroups (y : Txn ω α) (hy : y.objects = (s.txns u.txn).objects) (t : TxnId) :
      (Function.update s.txns u.txn y t).objects = (s.txns t).objects := by
    by_cases ht : t = u.txn
    · rw [ht, Function.update_self]
      exact hy
    · rw [Function.update_of_ne ht]
  cases hm with
  | enter hpc ha =>
    exact h.aside htxn rfl hk (hnot _) (fun _ v _ _ => hgroups _ (by rfl) v.txn) (fun _ => rfl) rfl
  | closed hpc => exact h.aside htxn rfl hk hnone (fun _ _ _ _ => rfl) (fun _ => rfl) rfl
  | pass hpass => exact h.aside htxn rfl hk (hnot _) (fun _ _ _ _ => rfl) (fun _ => rfl) rfl
  | opened hpc => exact h.aside htxn rfl hk (hnot _) (fun _ _ _ _ => rfl) (hpending _ rfl) rfl
  | acquire hpc ha => exact h.aside htxn rfl hk (hnot _) (fun _ _ _ _ => rfl) (hpending _ rfl) rfl
  | wrote hpc hopening hholds hcommitting =>
    split_ifs at htxn ⊢ with h0
    · exact h.aside htxn rfl hk (fun v hc => by simp [ObjectTask.at] at hc) (fun _ _ _ _ => rfl) (fun _ => rfl) rfl
    · refine h.aside htxn rfl hk (fun v hc => by simp [ObjectTask.at] at hc) ?_ (fun _ => rfl) rfl
      intro j v hj hc
      have hne : v.txn ≠ u.txn := (h.txn.not_reading hj hc hu (by simp [hpc])).symm
      simp [hne]
  | flag hpc => exact h.aside htxn rfl hk (hnot _) (fun _ _ _ _ => rfl) (hpending _ rfl) rfl
  | switch hpc hs => exact h.aside htxn rfl hk (hnot _) (fun _ _ _ _ => rfl) (hpending _ rfl) rfl
  | again hpc => exact h.aside htxn rfl hk (hnot _) (fun _ _ _ _ => rfl) (hpending _ rfl) rfl
  | done hpc => exact h.aside htxn rfl hk (hnot _) (fun _ _ _ _ => rfl) (hpending _ rfl) rfl
  | leave hpc =>
    split_ifs at htxn ⊢ with h0
    · exact h.aside htxn rfl hk (fun v hc => by simp at hc) (fun _ _ _ _ => rfl) (fun _ => rfl) rfl
    · exact h.aside htxn rfl hk (fun v hc => by simp at hc)
        (fun _ v _ _ => hgroups _ (by rfl) v.txn) (fun _ => rfl) rfl

/-- A step of a transaction task that leaves the ids on the objects alone. -/
theorem BarrierInv.txnWork (h : BarrierInv s) (htxn : TxnInv s') (hv : s.tasks k = some (.txn v)) {pc : TxnPc ω}
    (htasks : s'.tasks = Function.update s.tasks k (v.at pc))
    (hobjects : ∀ t, (s'.txns t).objects = (s.txns t).objects)
    (hpending : ∀ o, (s'.objects o).pendingTxnId = (s.objects o).pendingTxnId)
    (hticket : s'.ticket = s.ticket ∨ s.ticket = none ∨ v.pc.inSection = true)
    (hmarked : ∀ o, o ∈ pc.marked (s.txns v.txn).objects ↔ o ∈ v.pc.marked (s.txns v.txn).objects)
    (hfree : ∀ o ∈ pc.unraised, (s.objects o).pendingTxnId = 0)
    (hsuffix : pc.todo <:+ (s.txns v.txn).objects) (hsection : pc.inSection = true → s'.ticket = some k) :
    BarrierInv s' := by
  refine BarrierInv.of_update htxn htasks ?_ ?_ ?_
  · intro j w hj hw
    refine ⟨(h.marks j w hw).frame (fun _ => hobjects _) (fun o _ => hpending o) ?_, fun _ => hobjects _⟩
    intro hsec
    have hholder := (h.marks j w hw).ticket hsec
    obtain hsame | hnone | hself := hticket
    · exact hsame
    · rw [hholder] at hnone
      exact absurd hnone (by simp)
    · rw [(h.marks k v hv).ticket hself] at hholder
      exact absurd (Option.some.inj hholder).symm hj
  · rintro w hw
    obtain rfl : { v with pc := pc } = w := Task.txn.inj (Option.some.inj hw)
    refine ⟨?_, ?_, ?_, hsection⟩
    · intro o ho
      rw [hobjects] at ho
      rw [hpending]
      exact (h.marks k v hv).pending o ((hmarked o).mp ho)
    · intro o ho
      rw [hpending]
      exact hfree o ho
    · rw [hobjects]
      exact hsuffix
  · intro o ho
    rw [hpending] at ho
    obtain ⟨j, w, hw, hmem⟩ := h.owner o ho
    by_cases hj : j = k
    · subst hj
      obtain rfl : v = w := Task.txn.inj (Option.some.inj (hv.symm.trans hw))
      refine Or.inr ⟨_, rfl, ?_⟩
      rw [hobjects]
      exact (hmarked o).mpr hmem
    · exact Or.inl ⟨j, w, hj, hw, hmem⟩

theorem BarrierInv.mark (h : BarrierInv s) (hv : s.tasks k = some (.txn v)) {todo : List ω}
    (hpc : v.pc = .raisePending (o :: todo))
    (htxn : TxnInv ((s.setObject o { s.objects o with pendingTxnId := v.txn }).setTask k (v.at (.raiseLock o todo)))) :
    BarrierInv ((s.setObject o { s.objects o with pendingTxnId := v.txn }).setTask k (v.at (.raiseLock o todo))) := by
  have hmarks := h.marks k v hv
  have hfree (o' : ω) (ho' : o' ∈ o :: todo) : (s.objects o').pendingTxnId = 0 := by
    apply hmarks.free
    rw [hpc]
    exact ho'
  have hsuffix : o :: todo <:+ (s.txns v.txn).objects := by
    have hs := hmarks.suffix
    rwa [hpc] at hs
  have hnotin : o ∉ todo := (List.nodup_cons.mp ((h.txn.nodup v.txn).sublist hsuffix.sublist)).1
  have hother (j : κ) (w : TxnTask ω) (hj : j ≠ k) (hw : s.tasks j = some (.txn w)) :
      o ∉ w.pc.marked (s.txns w.txn).objects ∧ o ∉ w.pc.unraised := by
    constructor
    · intro hmem
      have hid := (h.marks j w hw).pending o hmem
      rw [hfree o List.mem_cons_self] at hid
      exact h.txn_ne_zero hw hid.symm
    · intro hmem
      have hticket := (h.marks j w hw).ticket (TxnPc.inSection_of_unraised hmem)
      rw [hmarks.ticket (by rw [hpc]; rfl)] at hticket
      exact hj (Option.some.inj hticket).symm
  refine BarrierInv.of_update htxn rfl ?_ ?_ ?_
  · intro j w hj hw
    refine ⟨(h.marks j w hw).frame (fun _ => rfl) ?_ (fun _ => rfl), fun _ => rfl⟩
    intro o' ho'
    have hne : o' ≠ o := by
      rintro rfl
      exact ho'.elim (hother j w hj hw).1 (hother j w hj hw).2
    simp [hne]
  · rintro w hw
    obtain rfl : { v with pc := .raiseLock o todo } = w := Task.txn.inj (Option.some.inj hw)
    refine ⟨?_, ?_, hsuffix, fun _ => hmarks.ticket (by rw [hpc]; rfl)⟩
    · intro o' ho'
      by_cases heq : o' = o
      · simp [heq]
      · simp only [State.setTask_objects, State.setObject_objects, Function.update_of_ne heq]
        apply hmarks.pending
        rw [hpc]
        simpa [TxnPc.marked, heq] using ho'
    · intro o' ho'
      have hne : o' ≠ o := by
        rintro rfl
        exact hnotin ho'
      simp only [State.setTask_objects, State.setObject_objects, Function.update_of_ne hne]
      exact hfree o' (List.mem_cons_of_mem o ho')
  · intro o' ho'
    by_cases heq : o' = o
    · refine Or.inr ⟨_, rfl, ?_⟩
      have hmem : o ∈ (s.txns v.txn).objects := hsuffix.subset List.mem_cons_self
      simpa [TxnPc.marked, heq, hnotin] using hmem
    · simp only [State.setTask_objects, State.setObject_objects, Function.update_of_ne heq] at ho'
      obtain ⟨j, w, hw, hmem⟩ := h.owner o' ho'
      by_cases hj : j = k
      · subst hj
        obtain rfl : v = w := Task.txn.inj (Option.some.inj (hv.symm.trans hw))
        refine Or.inr ⟨_, rfl, ?_⟩
        rw [hpc] at hmem
        simpa [TxnPc.marked, heq] using hmem
      · exact Or.inl ⟨j, w, hj, hw, hmem⟩

theorem BarrierInv.unmark (h : BarrierInv s) (hv : s.tasks k = some (.txn v)) {errno : Errno} {todo : List ω}
    (hpc : v.pc = .clearPending errno o todo)
    (htxn : TxnInv ((s.setObject o { s.objects o with pendingTxnId := 0 }).setTask k (v.at (.releaseLock errno todo)))) :
    BarrierInv ((s.setObject o { s.objects o with pendingTxnId := 0 }).setTask k (v.at (.releaseLock errno todo))) := by
  have hmarks := h.marks k v hv
  have hmine (o' : ω) (ho' : o' ∈ o :: todo) : o' ∈ v.pc.marked (s.txns v.txn).objects := by
    rw [hpc]
    exact ho'
  have hsuffix : o :: todo <:+ (s.txns v.txn).objects := by
    have hs := hmarks.suffix
    rwa [hpc] at hs
  have hnotin : o ∉ todo := (List.nodup_cons.mp ((h.txn.nodup v.txn).sublist hsuffix.sublist)).1
  have hother (j : κ) (w : TxnTask ω) (hj : j ≠ k) (hw : s.tasks j = some (.txn w)) :
      o ∉ w.pc.marked (s.txns w.txn).objects ∧ o ∉ w.pc.unraised := by
    constructor
    · intro hmem
      exact hj (h.marked_single hv hw (hmine o List.mem_cons_self) hmem)
    · intro hmem
      have hticket := (h.marks j w hw).ticket (TxnPc.inSection_of_unraised hmem)
      rw [hmarks.ticket (by rw [hpc]; rfl)] at hticket
      exact hj (Option.some.inj hticket).symm
  refine BarrierInv.of_update htxn rfl ?_ ?_ ?_
  · intro j w hj hw
    refine ⟨(h.marks j w hw).frame (fun _ => rfl) ?_ (fun _ => rfl), fun _ => rfl⟩
    intro o' ho'
    have hne : o' ≠ o := by
      rintro rfl
      exact ho'.elim (hother j w hj hw).1 (hother j w hj hw).2
    simp [hne]
  · rintro w hw
    obtain rfl : { v with pc := .releaseLock errno todo } = w := Task.txn.inj (Option.some.inj hw)
    refine ⟨?_, by simp [TxnPc.unraised], (List.suffix_cons o todo).trans hsuffix, fun _ => hmarks.ticket (by rw [hpc]; rfl)⟩
    intro o' ho'
    have hne : o' ≠ o := by
      rintro rfl
      exact hnotin ho'
    simp only [State.setTask_objects, State.setObject_objects, Function.update_of_ne hne]
    exact hmarks.pending o' (hmine o' (List.mem_cons_of_mem o ho'))
  · intro o' ho'
    have hne : o' ≠ o := by
      rintro rfl
      simp at ho'
    simp only [State.setTask_objects, State.setObject_objects, Function.update_of_ne hne] at ho'
    obtain ⟨j, w, hw, hmem⟩ := h.owner o' ho'
    by_cases hj : j = k
    · subst hj
      obtain rfl : v = w := Task.txn.inj (Option.some.inj (hv.symm.trans hw))
      refine Or.inr ⟨_, rfl, ?_⟩
      rw [hpc] at hmem
      exact (List.mem_cons.mp hmem).resolve_left hne
    · exact Or.inl ⟨j, w, hj, hw, hmem⟩

theorem BarrierInv.txnMove (h : BarrierInv s) (hv : s.tasks k = some (.txn v)) (hm : TxnMove s k v input s' e) :
    BarrierInv s' := by
  have htxn := h.txn.txnMove hv hm
  have hmarks := h.marks k v hv
  have hsuffix := hmarks.suffix
  have hfree := hmarks.free
  have hticket := hmarks.ticket
  have hrwc (o : ω) (x : Object) (hx : x.pendingTxnId = (s.objects o).pendingTxnId) (o' : ω) :
      (Function.update s.objects o x o').pendingTxnId = (s.objects o').pendingTxnId := by
    by_cases ho : o' = o
    · rw [ho, Function.update_self]
      exact hx
    · rw [Function.update_of_ne ho]
  have hgroups (y : Txn ω α) (hy : y.objects = (s.txns v.txn).objects) (t : TxnId) :
      (Function.update s.txns v.txn y t).objects = (s.txns t).objects := by
    by_cases ht : t = v.txn
    · rw [ht, Function.update_self]
      exact hy
    · rw [Function.update_of_ne ht]
  have hnil (o : ω) (ho : o ∈ ([] : List ω)) : (s.objects o).pendingTxnId = 0 := absurd ho List.not_mem_nil
  cases hm with
  | flag hpc =>
    exact h.txnWork htxn hv rfl (hgroups _ (by rfl)) (fun _ => rfl) (Or.inl rfl) (fun _ => by rw [hpc]; rfl) hnil
      List.nil_suffix (by simp [TxnPc.inSection])
  | take hpc ha =>
    exact h.txnWork htxn hv rfl (hgroups _ (by rfl)) (fun _ => rfl) (Or.inl rfl) (fun _ => by rw [hpc]; rfl) hnil
      List.nil_suffix (by simp [TxnPc.inSection])
  | retry => exact h
  | barrier hpc hnone hall =>
    refine h.txnWork htxn hv rfl (fun _ => rfl) (fun _ => rfl) (Or.inr (Or.inl hnone)) ?_ hall List.suffix_rfl (fun _ => rfl)
    simp [hpc, TxnPc.marked]
  | raised hpc =>
    refine h.txnWork htxn hv rfl (fun _ => rfl) (fun _ => rfl) (Or.inr (Or.inr (by rw [hpc]; rfl))) ?_ hnil
      List.suffix_rfl (by simp [TxnPc.inSection])
    simp [hpc, TxnPc.marked]
  | raisePending hpc => exact h.mark hv hpc htxn
  | @raiseLock o todo hpc =>
    rw [hpc] at hsuffix hfree hticket
    exact h.txnWork htxn hv rfl (fun _ => rfl) (hrwc _ _ (by rfl)) (Or.inl rfl) (fun _ => by rw [hpc]; rfl) hfree
      ((List.suffix_cons o todo).trans hsuffix) (fun _ => hticket rfl)
  | began hpc =>
    exact h.txnWork htxn hv rfl (fun _ => rfl) (fun _ => rfl) (Or.inl rfl) (fun _ => by rw [hpc]; rfl) hnil
      List.nil_suffix (by simp [TxnPc.inSection])
  | @lock o todo rwc hpc ha =>
    rw [hpc] at hsuffix
    exact h.txnWork htxn hv rfl (fun _ => rfl) (hrwc _ _ (by rfl)) (Or.inl rfl) (fun _ => by rw [hpc]; rfl) hnil
      ((List.suffix_cons o todo).trans hsuffix) (by simp [TxnPc.inSection])
  | atom hpc ha =>
    have htasks : s.tasks = Function.update s.tasks k (v.at v.pc) := by
      rw [show v.at v.pc = s.tasks k from hv.symm, Function.update_eq_self]
    exact h.txnWork htxn hv htasks (hgroups _ (nextAtom_objects ha)) (fun _ => rfl) (Or.inl rfl) (fun _ => Iff.rfl) hfree
      hsuffix hticket
  | written hpc ha =>
    exact h.txnWork htxn hv rfl (fun _ => rfl) (fun _ => rfl) (Or.inl rfl) (fun _ => by rw [hpc]; rfl) hnil
      List.nil_suffix (by simp [TxnPc.inSection])
  | commit hpc =>
    exact h.txnWork htxn hv rfl (fun _ => rfl) (fun _ => rfl) (Or.inl rfl) (fun _ => by rw [hpc]; rfl) hnil
      List.nil_suffix (by simp [TxnPc.inSection])
  | committed hpc =>
    exact h.txnWork htxn hv rfl (fun _ => rfl) (fun _ => rfl) (Or.inl rfl) (fun _ => by rw [hpc]; rfl) hnil
      List.nil_suffix (by simp [TxnPc.inSection])
  | complete hpc =>
    exact h.txnWork htxn hv rfl (hgroups _ (by rfl)) (fun _ => rfl) (Or.inl rfl) (fun _ => by rw [hpc]; rfl) hnil
      List.nil_suffix (by simp [TxnPc.inSection])
  | unlock hpc hnone =>
    exact h.txnWork htxn hv rfl (fun _ => rfl) (fun _ => rfl) (Or.inr (Or.inl hnone)) (fun _ => by rw [hpc]; rfl) hnil
      List.suffix_rfl (fun _ => rfl)
  | unlocked hpc =>
    exact h.txnWork htxn hv rfl (fun _ => rfl) (fun _ => rfl) (Or.inr (Or.inr (by rw [hpc]; rfl)))
      (fun _ => by rw [hpc]; rfl) hnil List.nil_suffix (by simp [TxnPc.inSection])
  | releaseLock hpc =>
    rw [hpc] at hsuffix hticket
    exact h.txnWork htxn hv rfl (fun _ => rfl) (hrwc _ _ (by rfl)) (Or.inl rfl) (fun _ => by rw [hpc]; rfl) hnil
      hsuffix (fun _ => hticket rfl)
  | clearPending hpc => exact h.unmark hv hpc htxn
  | release hpc =>
    exact h.txnWork htxn hv rfl (hgroups _ (by rfl)) (fun _ => rfl) (Or.inl rfl) (fun _ => by rw [hpc]; rfl) hnil
      List.nil_suffix (by simp [TxnPc.inSection])
  | notify hpc =>
    refine BarrierInv.of_update htxn rfl ?_ (by simp) ?_
    · intro j w _ hw
      exact ⟨(h.marks j w hw).frame (fun _ => rfl) (fun _ _ => rfl) (fun _ => rfl), fun _ => rfl⟩
    · intro o ho
      obtain ⟨j, w, hw, hmem⟩ := h.owner o ho
      refine Or.inl ⟨j, w, ?_, hw, hmem⟩
      rintro rfl
      obtain rfl : v = w := Task.txn.inj (Option.some.inj (hv.symm.trans hw))
      rw [hpc] at hmem
      exact absurd hmem List.not_mem_nil

omit [DecidableEq κ] in
theorem BarrierInv.keep (h : BarrierInv s) (htxn : TxnInv s') (htasks : s'.tasks = s.tasks)
    (hobjects : ∀ t, t ≤ s.nextTxnId → (s'.txns t).objects = (s.txns t).objects)
    (hpending : ∀ o, (s'.objects o).pendingTxnId = (s.objects o).pendingTxnId) (hticket : s'.ticket = s.ticket) :
    BarrierInv s' where
  txn := htxn
  marks j v hj := by
    rw [htasks] at hj
    have hok := h.txn.tasks j
    rw [hj] at hok
    exact (h.marks j v hj).frame (fun _ => hobjects _ hok.2.1) (fun o _ => hpending o) (fun _ => hticket)
  owner o ho := by
    rw [hpending] at ho
    obtain ⟨j, v, hj, hmem⟩ := h.owner o ho
    have hok := h.txn.tasks j
    rw [hj] at hok
    refine ⟨j, v, ?_, ?_⟩
    · rw [htasks]
      exact hj
    · rw [hobjects _ hok.2.1]
      exact hmem

theorem BarrierInv.step (h : BarrierInv s) {a : Act ω κ α} (hs : Scheduler.step s a = some (s', e)) : BarrierInv s' := by
  have htxn := h.txn.step hs
  cases step_move hs with
  | createTxn =>
    refine h.keep htxn rfl ?_ (fun _ => rfl) rfl
    intro t ht
    have hne : t ≠ s.nextTxnId + 1 := Nat.ne_of_lt (Nat.lt_succ_of_le ht)
    simp [hne]
  | noMemory => exact h.keep htxn rfl (fun _ _ => rfl) (fun _ => rfl) rfl
  | @createObject o =>
    refine h.keep htxn rfl (fun _ _ => rfl) ?_ rfl
    intro o'
    by_cases ho : o' = o
    · simp [ho]
    · simp [ho]
  | submit hk hu => exact h.aside htxn rfl (by rw [hk]; rfl) (by simp) (fun _ _ _ _ => rfl) (fun _ => rfl) rfl
  | notFound => exact h
  | @request k t commitType hk hc =>
    refine h.aside htxn rfl (by rw [hk]; rfl) ?_ ?_ (fun _ => rfl) rfl
    · intro v hv
      obtain rfl : { txn := t, commitType := commitType, pc := .flag } = v := Task.txn.inj (Option.some.inj hv)
      exact ⟨by simp [TxnPc.marked], by simp [TxnPc.unraised], List.nil_suffix, by simp [TxnPc.inSection]⟩
    · intro j v _ _
      by_cases ht : v.txn = t
      · simp [ht, Txn.objects]
      · simp [ht]
  | object hu hs => exact h.objectMove hu (objectStep_move hs)
  | txn hv hs => exact h.txnMove hv (txnStep_move hs)

/-! ### Runs -/

theorem TxnPc.marked_pastBarrier (h : pc.pastBarrier = true) : pc.marked objects = objects := by
  cases pc <;> simp [TxnPc.pastBarrier] at h <;> rfl

theorem TxnPc.marked_eq_nil (h : pc.pastBarrier = false) (hsec : pc.inSection = false) : pc.marked objects = [] := by
  cases pc <;> simp [TxnPc.pastBarrier, TxnPc.inSection] at h hsec <;> rfl

structure BarrierSafe (s : State ω κ α) : Prop where
  allOrNothing : s.ticket = none → ∀ k v, s.tasks k = some (.txn v) →
    (∀ o ∈ (s.txns v.txn).objects, (s.objects o).pendingTxnId = v.txn) ∨
    ∀ o ∈ (s.txns v.txn).objects, (s.objects o).pendingTxnId ≠ v.txn
  owned : ∀ k v, s.tasks k = some (.txn v) → v.pc.pastBarrier = true →
    ∀ o ∈ (s.txns v.txn).objects, (s.objects o).pendingTxnId = v.txn
  disjoint : ∀ k k' v v', k' ≠ k → s.tasks k = some (.txn v) → s.tasks k' = some (.txn v') →
    v.pc.pastBarrier = true → v'.pc.pastBarrier = true → ∀ o ∈ (s.txns v.txn).objects, o ∉ (s.txns v'.txn).objects

omit [DecidableEq κ] in
theorem BarrierInv.safe (h : BarrierInv s) : BarrierSafe s where
  allOrNothing hticket k v hv := by
    cases hpast : v.pc.pastBarrier with
    | true =>
      left
      intro o ho
      apply (h.marks k v hv).pending
      rw [TxnPc.marked_pastBarrier hpast]
      exact ho
    | false =>
      right
      intro o _ hid
      have hsec : v.pc.inSection = false := by
        rw [← Bool.not_eq_true]
        intro hc
        have hmine := (h.marks k v hv).ticket hc
        rw [hticket] at hmine
        exact absurd hmine (by simp)
      obtain ⟨j, w, hw, hmem⟩ := h.owner o (by rw [hid]; exact h.txn_ne_zero hv)
      have htxn : w.txn = v.txn := ((h.marks j w hw).pending o hmem).symm.trans hid
      obtain rfl := h.single hv hw htxn
      obtain rfl : v = w := Task.txn.inj (Option.some.inj (hv.symm.trans hw))
      rw [TxnPc.marked_eq_nil hpast hsec] at hmem
      exact absurd hmem List.not_mem_nil
  owned k v hv hpast o ho := by
    apply (h.marks k v hv).pending
    rw [TxnPc.marked_pastBarrier hpast]
    exact ho
  disjoint k k' v v' hne hv hv' hpast hpast' o ho ho' := by
    apply hne
    apply h.marked_single hv hv' (o := o)
    · rw [TxnPc.marked_pastBarrier hpast]
      exact ho
    · rw [TxnPc.marked_pastBarrier hpast']
      exact ho'

/-- The release of an object finds the id it expects there. -/
theorem BarrierInv.asserted (h : BarrierInv s) {a : Act ω κ α} {holds : Bool} (hs : Scheduler.step s a = some (s', e))
    (he : e = .asserted k o holds) : holds = true := by
  cases step_move hs with
  | object hu hs =>
    have hobject := objectStep_event hs
    rw [he] at hobject
    exact absurd hobject (by simp [Event.ofObject])
  | txn hv hs =>
    cases txnStep_move hs with
    | @atom commitType _ _ _ hpc ha => cases commitType <;> simp [atomEvent] at he
    | releaseLock hpc =>
      have hid := (h.marks _ _ hv).pending _ (by rw [hpc]; exact List.mem_cons_self)
      simp only [Event.asserted.injEq] at he
      rw [← he.2.2]
      simp [hid]
    | _ => simp at he
  | _ => simp at he

/-- In every state of every run the barrier is all or nothing outside the ticket lock, a transaction
past it owns its objects, two transactions past it share none, and no release meets a foreign id. -/
theorem run_barrier_safe {acts : List (Act ω κ α)} {events : List (Event ω κ α)}
    (he : exec step State.init acts = some (s, events)) :
    BarrierSafe s ∧ ∀ k o holds, .asserted k o holds ∈ events → holds = true := by
  have hinv : BarrierInv s ∧ ∀ k o holds, .asserted k o holds ∈ [] ++ events → holds = true := by
    refine exec_events (C := fun _ _ => True)
      (I := fun s h => BarrierInv s ∧ ∀ k o holds, .asserted k o holds ∈ h → holds = true) ?_ ?_
      (meets_of_forall (fun _ _ => trivial) _ _) he
    · intro s h a s' e hI _ hs
      refine ⟨hI.1.step hs, ?_⟩
      intro k o holds hmem
      rw [List.mem_append, List.mem_singleton] at hmem
      obtain hmem | he := hmem
      · exact hI.2 k o holds hmem
      · exact hI.1.asserted hs he.symm
    · exact ⟨init_barrierInv, by simp⟩
  exact ⟨hinv.1.safe, hinv.2⟩

/-- Two transactions on one object: the second finds the barrier raised and tries again after the release
of the first. -/
def sharedObject : List (Act Nat Nat Nat) :=
  List.flatten [[.createObject 0, .createTxn true, .createTxn true, .submit 0 0 .write 2], runs 0 5,
    [.run 0 { atoms := some [7] }], runs 0 5, [.submit 1 0 .write 3], runs 1 5, [.run 1 { atoms := some [8] }], runs 1 5,
    [.request 2 2 .apply, .request 3 3 .revert], runs 3 2, runs 2 6, runs 3 1, runs 2 13, runs 3 4]

theorem run_barrier_safe_two : ∃ s events, exec step State.init sharedObject = some (s, events) ∧
    (s.objects 0).pendingTxnId = 3 ∧ .asserted 2 0 true ∈ events ∧ BarrierSafe s := by
  have hfacts : (exec step State.init sharedObject).map
      (fun r => ((r.1.objects 0).pendingTxnId, decide (.asserted 2 0 true ∈ r.2))) = some (3, true) := by
    decide +kernel
  rw [Option.map_eq_some_iff] at hfacts
  obtain ⟨⟨s, events⟩, he, hfacts⟩ := hfacts
  obtain ⟨hpending, hasserted⟩ := Prod.mk.inj hfacts
  exact ⟨s, events, he, hpending, of_decide_eq_true hasserted, (run_barrier_safe he).1⟩

end RaleighSL.Core.Scheduler
