import RaleighSL.Core.Scheduler.Transactions

/-!
# The outcome of a transaction

What the system shows of a transaction is a list of events of one shape: the atoms
are applied or reverted one after the other, the objects are committed, the state
of the transaction is set and its task is notified. The list is read off here at
every step of every run. From it follows when the notification agrees with what was
done to the atoms.
-/
namespace RaleighSL.Core.Scheduler
open RaleighSL.Library RaleighSL.Zcl.RwcSem

variable {ω κ α : Type*}

/-- The transaction whose task caused the event. -/
def Event.txnId : Event ω κ α → Option TxnId
  | .began _ t _ _ _ => some t
  | .applied _ t _ _ => some t
  | .reverted _ t _ _ => some t
  | .txnCommitted _ t _ _ => some t
  | .completed _ t _ => some t
  | .txnNotified _ t _ => some t
  | _ => none

def history (t : TxnId) (events : List (Event ω κ α)) : List (Event ω κ α) :=
  events.filter (fun e => e.txnId = some t)

def atomsOf (groups : List (Group ω α)) : List (ω × α) := groups.flatMap (fun g => g.atoms.map (fun a => (g.object, a)))

def appliedOf (t : TxnId) (events : List (Event ω κ α)) : List (ω × α) :=
  events.filterMap (fun e =>
    match e with
    | .applied _ t' o a => if t' = t then some (o, a) else none
    | _ => none)

def revertedOf (t : TxnId) (events : List (Event ω κ α)) : List (ω × α) :=
  events.filterMap (fun e =>
    match e with
    | .reverted _ t' o a => if t' = t then some (o, a) else none
    | _ => none)

/-- The error of the last object commit for the transaction. -/
def lastErrno (t : TxnId) (events : List (Event ω κ α)) : Errno :=
  ((events.filterMap (fun e =>
    match e with
    | .txnCommitted _ t' _ errno => if t' = t then some errno else none
    | _ => none)).getLast?).getD .none

/-- The notification and the final state agree with what was done to the atoms. -/
def Agrees (commitType : CommitType) (state : TxnState) (atoms applied reverted : List (ω × α)) (final : TxnState)
    (errno : Errno) : Prop :=
  (applied = atoms ∧ reverted = [] ∧ errno = .none ∧ final = .committed ∧ commitType = .apply ∧ state ≠ .dontCommit ∨
    reverted = atoms ∧ applied = [] ∧ final = .rolledback) ∧
  (commitType = .apply → state = .dontCommit → errno = .txnRolledback)

/-- A request to commit does not meet a failed write, and the last object commit does not fail unless there
was nothing to apply. An object commit may also return by itself what a failed write asks for. -/
def Agreeable (commitType : CommitType) (state : TxnState) (atoms : List (ω × α)) (last : Errno) : Prop :=
  commitType = .apply → if state = .dontCommit then last = .txnRolledback else last = .none ∨ atoms = []

/-- What is done to the atoms in the end. -/
def effective (commitType : CommitType) (state : TxnState) : CommitType :=
  if commitType = .apply ∧ state = .dontCommit then .revert else commitType

theorem agrees_iff (commitType : CommitType) (state : TxnState) (atoms : List (ω × α)) (last : Errno) :
    Agrees commitType state atoms
      (if effective commitType state = .apply then atoms else []) (if effective commitType state = .apply then [] else atoms)
      (completion (effective commitType state) last state).1 (completion (effective commitType state) last state).2 ↔
    Agreeable commitType state atoms last := by
  cases commitType with
  | revert => simp [Agrees, Agreeable, effective, completion]
  | apply =>
    by_cases hstate : state = .dontCommit
    · simp [Agrees, Agreeable, effective, completion, hstate]
    · by_cases hlast : last = .none
      · simp [Agrees, Agreeable, effective, completion, hstate, hlast]
      · simp [Agrees, Agreeable, effective, completion, hstate, hlast, eq_comm]

/-! ### The shape of the history -/

variable {s s' : State ω κ α} {k k' : κ} {u : ObjectTask ω} {v : TxnTask ω} {input : Input α} {e : Event ω κ α}
variable {t : TxnId} {o : ω} {events : List (Event ω κ α)}

theorem history_append (e : Event ω κ α) :
    history t (events ++ [e]) = if e.txnId = some t then history t events ++ [e] else history t events := by
  rw [history, List.filter_append]
  split_ifs with he
  · simp [history, he]
  · simp [history, he]

theorem nextAtom_atomsOf {gs gs' : List (Group ω α)} {a : α} (h : nextAtom gs = some (o, a, gs')) :
    atomsOf gs = (o, a) :: atomsOf gs' := by
  induction gs generalizing gs' with
  | nil => simp [nextAtom] at h
  | cons g gs ih =>
    obtain ⟨o', atoms⟩ := g
    cases atoms with
    | nil =>
      simp only [nextAtom, Option.map_eq_some_iff] at h
      obtain ⟨⟨o₁, a₁, gs₁⟩, h₁, h₂⟩ := h
      simp only [Prod.mk.injEq] at h₂
      obtain ⟨rfl, rfl, rfl⟩ := h₂
      simpa [atomsOf] using ih h₁
    | cons a' atoms =>
      simp only [nextAtom, Option.some.injEq, Prod.mk.injEq] at h
      obtain ⟨rfl, rfl, rfl⟩ := h
      simp [atomsOf]

theorem nextAtom_none {gs : List (Group ω α)} (h : nextAtom gs = none) : atomsOf gs = [] := by
  induction gs with
  | nil => rfl
  | cons g gs ih =>
    obtain ⟨o', atoms⟩ := g
    cases atoms with
    | nil =>
      simp only [nextAtom, Option.map_eq_none_iff] at h
      simpa [atomsOf] using ih h
    | cons a' atoms => simp [nextAtom] at h

def atomLog (k : κ) (t : TxnId) (commitType : CommitType) (state : TxnState) (groups : List (Group ω α))
    (done : List (ω × α)) : List (Event ω κ α) :=
  .began k t commitType state groups :: done.map (fun p => atomEvent k t p.1 p.2 (effective commitType state))

def commitLog (k : κ) (t : TxnId) (commitType : CommitType) (state : TxnState) (groups : List (Group ω α))
    (results : List (ω × Errno)) : List (Event ω κ α) :=
  atomLog k t commitType state groups (atomsOf groups) ++ results.map (fun r => .txnCommitted k t r.1 r.2)

def lastResult (results : List (ω × Errno)) : Errno := (results.getLast?.map Prod.snd).getD .none

def outcomeLog (k : κ) (t : TxnId) (commitType : CommitType) (state : TxnState) (groups : List (Group ω α))
    (results : List (ω × Errno)) : List (Event ω κ α) :=
  commitLog k t commitType state groups results ++
    [.completed k t (completion (effective commitType state) (lastResult results) state).1]

/-- The history of its transaction, by where the task is. -/
def Logged (y : Txn ω α) (k : κ) (v : TxnTask ω) (log : List (Event ω κ α)) : Prop :=
  let completed (errno : Errno) := ∃ state groups results, log = outcomeLog k v.txn v.commitType state groups results ∧
    errno = (completion (effective v.commitType state) (lastResult results) state).2
  match v.pc with
  | .write commitType => commitType = effective v.commitType y.state ∧ ∃ groups done,
      done ++ atomsOf y.groups = atomsOf groups ∧ log = atomLog k v.txn v.commitType y.state groups done
  | .commit commitType errno _ => commitType = effective v.commitType y.state ∧ ∃ groups results,
      errno = lastResult results ∧ log = commitLog k v.txn v.commitType y.state groups results
  | .complete commitType errno => commitType = effective v.commitType y.state ∧ ∃ groups results,
      errno = lastResult results ∧ log = commitLog k v.txn v.commitType y.state groups results
  | .unlock errno => completed errno
  | .releaseLock errno _ => completed errno
  | .clearPending errno _ _ => completed errno
  | .release errno => completed errno
  | .notify errno => completed errno
  | _ => log = []

/-- The history of a transaction whose task was notified. -/
def Closed (k : κ) (t : TxnId) (errno : Errno) (log : List (Event ω κ α)) : Prop :=
  ∃ commitType state groups results, log = outcomeLog k t commitType state groups results ++ [.txnNotified k t errno] ∧
    errno = (completion (effective commitType state) (lastResult results) state).2

structure OutcomeInv (s : State ω κ α) (events : List (Event ω κ α)) : Prop where
  txn : TxnInv s
  fresh : ∀ t, (s.txns t).cached = true ∨ s.nextTxnId < t → history t events = []
  running : ∀ k v, s.tasks k = some (.txn v) → Logged (s.txns v.txn) k v (history v.txn events)
  closed : ∀ k t errno, .txnNotified k t errno ∈ events → Closed k t errno (history t events) ∧
    (s.txns t).cached = false ∧ t ≤ s.nextTxnId ∧ ∀ j, requestOf (s.tasks j) ≠ some t

theorem init_outcomeInv : OutcomeInv (State.init : State ω κ α) [] where
  txn := init_txnInv
  fresh _ _ := rfl
  running _ _ h := absurd h (by simp [State.init])
  closed _ _ _ h := absurd h List.not_mem_nil

theorem Logged.frame {y y' : Txn ω α} {log : List (Event ω κ α)} (h : Logged y k v log)
    (hy : v.pc.commits = true → y'.state = y.state ∧ y'.groups = y.groups) : Logged y' k v log := by
  cases hpc : v.pc with
  | write commitType =>
    have hsame := hy (by rw [hpc]; rfl)
    simp only [Logged, hpc] at h ⊢
    rwa [hsame.1, hsame.2]
  | commit commitType errno todo =>
    have hsame := hy (by rw [hpc]; rfl)
    simp only [Logged, hpc] at h ⊢
    rwa [hsame.1]
  | complete commitType errno =>
    have hsame := hy (by rw [hpc]; rfl)
    simp only [Logged, hpc] at h ⊢
    rwa [hsame.1]
  | _ =>
    simp only [Logged, hpc] at h ⊢
    exact h

theorem OutcomeInv.aside (h : OutcomeInv s events) (htxn : TxnInv s') (he : e.txnId = none)
    (hfresh : ∀ t, (s'.txns t).cached = true ∨ s'.nextTxnId < t → (s.txns t).cached = true ∨ s.nextTxnId < t)
    (hnext : s.nextTxnId ≤ s'.nextTxnId)
    (hclosed : ∀ t, t ≤ s.nextTxnId → (s.txns t).cached = false → (∀ j, requestOf (s.tasks j) ≠ some t) →
      (s'.txns t).cached = false ∧ ∀ j, requestOf (s'.tasks j) ≠ some t)
    (hrun : ∀ k v, s'.tasks k = some (.txn v) → Logged (s'.txns v.txn) k v (history v.txn events)) :
    OutcomeInv s' (events ++ [e]) := by
  have hsame (t : TxnId) : history t (events ++ [e]) = history t events := by
    rw [history_append, if_neg]
    rw [he]
    simp
  refine ⟨htxn, ?_, ?_, ?_⟩
  · intro t ht
    rw [hsame]
    exact h.fresh t (hfresh t ht)
  · intro k v hv
    rw [hsame]
    exact hrun k v hv
  · intro k t errno hmem
    rw [List.mem_append, List.mem_singleton] at hmem
    obtain hmem | rfl := hmem
    · obtain ⟨hlog, hcached, hle, hreq⟩ := h.closed k t errno hmem
      obtain ⟨hcached', hreq'⟩ := hclosed t hle hcached hreq
      rw [hsame]
      exact ⟨hlog, hcached', Nat.le_trans hle hnext, hreq'⟩
    · simp [Event.txnId] at he

variable [DecidableEq κ]

/-- What has to be checked of a step of a transaction task. -/
theorem OutcomeInv.update (h : OutcomeInv s events) (htxn : TxnInv s') (hv : s.tasks k = some (.txn v))
    {task : Option (Task ω)} (htasks : s'.tasks = Function.update s.tasks k task) (hnext : s'.nextTxnId = s.nextTxnId)
    (htxns : ∀ t, t ≠ v.txn → s'.txns t = s.txns t) (hcached : ∀ t, (s'.txns t).cached = (s.txns t).cached)
    (hevent : e.txnId = none ∨ e.txnId = some v.txn)
    (hself : ∀ w, task = some (.txn w) → w.txn = v.txn ∧ Logged (s'.txns v.txn) k w (history v.txn (events ++ [e])))
    (hnotified : ∀ k' t errno, e = .txnNotified k' t errno →
      task = none ∧ t = v.txn ∧ Closed k' t errno (history t (events ++ [e]))) : OutcomeInv s' (events ++ [e]) := by
  have hok := h.txn.tasks k
  rw [hv] at hok
  have hreq : requestOf (s.tasks k) = some v.txn := by
    rw [hv]
    rfl
  have hsame (t : TxnId) (ht : t ≠ v.txn) : history t (events ++ [e]) = history t events := by
    rw [history_append, if_neg]
    intro hc
    rw [hc] at hevent
    simp [ht] at hevent
  have hothers (j : κ) (hj : j ≠ k) (t : TxnId) (ht : requestOf (s.tasks j) = some t) : t ≠ v.txn := by
    rintro rfl
    exact hj (h.txn.single k j v.txn hreq ht)
  refine ⟨htxn, ?_, ?_, ?_⟩
  · intro t ht
    rw [hcached, hnext] at ht
    have hne : t ≠ v.txn := by
      rintro rfl
      have hf : (s.txns v.txn).cached = false := hok.2.2
      rw [hf] at ht
      exact ht.elim (by simp) (Nat.not_lt.mpr hok.2.1)
    rw [hsame t hne]
    exact h.fresh t ht
  · intro j w hw
    rw [htasks] at hw
    by_cases hj : j = k
    · rw [hj, Function.update_self] at hw
      rw [hj, (hself w hw).1]
      exact (hself w hw).2
    · rw [Function.update_of_ne hj] at hw
      have hne : w.txn ≠ v.txn := hothers j hj w.txn (by rw [hw]; rfl)
      rw [hsame w.txn hne, htxns w.txn hne]
      exact h.running j w hw
  · intro k' t errno hmem
    rw [List.mem_append, List.mem_singleton] at hmem
    obtain hmem | he := hmem
    · obtain ⟨hlog, hf, hle, hnone⟩ := h.closed k' t errno hmem
      have hne : t ≠ v.txn := by
        rintro rfl
        exact hnone k hreq
      rw [hsame t hne, hcached, hnext]
      refine ⟨hlog, hf, hle, ?_⟩
      intro j hj
      rw [htasks] at hj
      by_cases hjk : j = k
      · rw [hjk, Function.update_self] at hj
        cases task with
        | none => simp [requestOf] at hj
        | some task =>
          cases task with
          | object u => simp [requestOf] at hj
          | txn w => exact hne ((Option.some.inj hj).symm.trans (hself w rfl).1)
      · rw [Function.update_of_ne hjk] at hj
        exact hnone j hj
    · obtain ⟨rfl, rfl, hlog⟩ := hnotified k' t errno he.symm
      rw [hcached, hnext]
      refine ⟨hlog, hok.2.2, hok.2.1, ?_⟩
      intro j hj
      rw [htasks] at hj
      by_cases hjk : j = k
      · rw [hjk, Function.update_self] at hj
        simp [requestOf] at hj
      · rw [Function.update_of_ne hjk] at hj
        exact hothers j hjk _ hj rfl

theorem OutcomeInv.quiet (h : OutcomeInv s events) (htxn : TxnInv s') (hv : s.tasks k = some (.txn v)) {pc : TxnPc ω}
    (htasks : s'.tasks = Function.update s.tasks k (v.at pc)) (hnext : s'.nextTxnId = s.nextTxnId)
    (htxns : s'.txns = s.txns) (he : e.txnId = none)
    (hlog : Logged (s.txns v.txn) k { v with pc := pc } (history v.txn events)) : OutcomeInv s' (events ++ [e]) := by
  refine h.update htxn hv htasks hnext (fun _ _ => by rw [htxns]) (fun _ => by rw [htxns]) (Or.inl he) ?_ ?_
  · intro w hw
    obtain rfl : { v with pc := pc } = w := Task.txn.inj (Option.some.inj hw)
    rw [htxns, history_append, if_neg]
    · exact ⟨rfl, hlog⟩
    · rw [he]
      simp
  · rintro k' t errno rfl
    simp [Event.txnId] at he

variable [DecidableEq ω]

theorem OutcomeInv.txnMove (h : OutcomeInv s events) (hv : s.tasks k = some (.txn v)) (hm : TxnMove s k v input s' e) :
    OutcomeInv s' (events ++ [e]) := by
  have htxn := h.txn.txnMove hv hm
  have hlog := h.running k v hv
  have hself {y : Txn ω α} {e : Event ω κ α} (pc : TxnPc ω)
      (hpc : Logged y k { v with pc := pc } (history v.txn (events ++ [e]))) (w : TxnTask ω)
      (hw : v.at pc = some (.txn w)) : w.txn = v.txn ∧ Logged y k w (history v.txn (events ++ [e])) := by
    obtain rfl : { v with pc := pc } = w := Task.txn.inj (Option.some.inj hw)
    exact ⟨rfl, hpc⟩
  have hquiet {e : Event ω κ α} (he : e.txnId = none) : history v.txn (events ++ [e]) = history v.txn events := by
    rw [history_append, if_neg]
    rw [he]
    simp
  have hshown {e : Event ω κ α} (he : e.txnId = some v.txn) :
      history v.txn (events ++ [e]) = history v.txn events ++ [e] := by
    rw [history_append, if_pos he]
  have hne (y : Txn ω α) (t : TxnId) (ht : t ≠ v.txn) : Function.update s.txns v.txn y t = s.txns t :=
    Function.update_of_ne ht ..
  have hcached (y : Txn ω α) (hy : y.cached = (s.txns v.txn).cached) (t : TxnId) :
      (Function.update s.txns v.txn y t).cached = (s.txns t).cached := by
    by_cases ht : t = v.txn
    · rw [ht, Function.update_self]
      exact hy
    · rw [Function.update_of_ne ht]
  cases hm with
  | flag hpc =>
    refine h.update htxn hv rfl rfl (hne _) (hcached _ (by rfl)) (Or.inl rfl) (hself _ ?_) (by simp)
    rw [hquiet rfl]
    simpa only [Logged, hpc] using hlog
  | take hpc ha =>
    refine h.update htxn hv rfl rfl (hne _) (hcached _ (by rfl)) (Or.inl rfl) (hself _ ?_) (by simp)
    rw [hquiet rfl]
    simpa only [Logged, hpc] using hlog
  | retry =>
    refine h.update htxn hv (Function.update_eq_self k s.tasks).symm rfl (fun _ _ => rfl) (fun _ => rfl) (Or.inl rfl) ?_
      (by simp)
    intro w hw
    obtain rfl : v = w := Task.txn.inj (Option.some.inj (hv.symm.trans hw))
    rw [hquiet rfl]
    exact ⟨rfl, hlog⟩
  | barrier hpc => exact h.quiet htxn hv rfl rfl rfl rfl (by simpa only [Logged, hpc] using hlog)
  | raised hpc => exact h.quiet htxn hv rfl rfl rfl rfl (by simpa only [Logged, hpc] using hlog)
  | raisePending hpc => exact h.quiet htxn hv rfl rfl rfl rfl (by simpa only [Logged, hpc] using hlog)
  | raiseLock hpc => exact h.quiet htxn hv rfl rfl rfl rfl (by simpa only [Logged, hpc] using hlog)
  | began hpc =>
    refine h.update htxn hv rfl rfl (fun _ _ => rfl) (fun _ => rfl) (Or.inr rfl) (hself _ ?_) (by simp)
    rw [hshown rfl]
    simp only [Logged, hpc] at hlog
    rw [hlog]
    exact ⟨rfl, (s.txns v.txn).groups, [], rfl, rfl⟩
  | lock hpc ha => exact h.quiet htxn hv rfl rfl rfl rfl (by simpa only [Logged, hpc] using hlog)
  | @atom commitType o a groups hpc ha =>
    have hevent : (atomEvent k v.txn o a commitType : Event ω κ α).txnId = some v.txn := by
      cases commitType <;> rfl
    refine h.update htxn hv (Function.update_eq_self k s.tasks).symm rfl (hne _) (hcached _ (by rfl)) (Or.inr hevent) ?_ ?_
    · intro w hw
      obtain rfl : v = w := Task.txn.inj (Option.some.inj (hv.symm.trans hw))
      refine ⟨rfl, ?_⟩
      rw [hshown hevent]
      simp only [Logged, hpc] at hlog ⊢
      obtain ⟨rfl, groups', done, hdone, heq⟩ := hlog
      refine ⟨by simp, groups', done ++ [(o, a)], ?_, ?_⟩
      · rw [← hdone, nextAtom_atomsOf ha]
        simp
      · rw [heq]
        simp [atomLog]
    · intro k' t errno hc
      cases commitType <;> simp [atomEvent] at hc
  | written hpc ha =>
    refine h.update htxn hv rfl rfl (fun _ _ => rfl) (fun _ => rfl) (Or.inl rfl) (hself _ ?_) (by simp)
    rw [hquiet rfl]
    simp only [Logged, hpc] at hlog ⊢
    obtain ⟨heff, groups, done, hdone, heq⟩ := hlog
    rw [nextAtom_none ha, List.append_nil] at hdone
    refine ⟨heff, groups, [], rfl, ?_⟩
    rw [heq, hdone]
    simp [commitLog]
  | @commit commitType errno o todo hpc =>
    refine h.update htxn hv rfl rfl (fun _ _ => rfl) (fun _ => rfl) (Or.inr rfl) (hself _ ?_) (by simp)
    rw [hshown rfl]
    simp only [Logged, hpc] at hlog ⊢
    obtain ⟨heff, groups, results, herr, heq⟩ := hlog
    refine ⟨heff, groups, results ++ [(o, input.errno)], by simp [lastResult], ?_⟩
    rw [heq]
    simp [commitLog]
  | committed hpc => exact h.quiet htxn hv rfl rfl rfl rfl (by simpa only [Logged, hpc] using hlog)
  | complete hpc =>
    refine h.update htxn hv rfl rfl (hne _) (hcached _ (by rfl)) (Or.inr rfl) (hself _ ?_) (by simp)
    rw [hshown rfl]
    simp only [Logged, hpc] at hlog ⊢
    obtain ⟨rfl, groups, results, rfl, heq⟩ := hlog
    exact ⟨(s.txns v.txn).state, groups, results, by rw [heq]; rfl, rfl⟩
  | unlock hpc => exact h.quiet htxn hv rfl rfl rfl rfl (by simpa only [Logged, hpc] using hlog)
  | unlocked hpc => exact h.quiet htxn hv rfl rfl rfl rfl (by simpa only [Logged, hpc] using hlog)
  | releaseLock hpc => exact h.quiet htxn hv rfl rfl rfl rfl (by simpa only [Logged, hpc] using hlog)
  | clearPending hpc => exact h.quiet htxn hv rfl rfl rfl rfl (by simpa only [Logged, hpc] using hlog)
  | release hpc =>
    refine h.update htxn hv rfl rfl (hne _) (hcached _ (by rfl)) (Or.inl rfl) (hself _ ?_) (by simp)
    rw [hquiet rfl]
    simpa only [Logged, hpc] using hlog
  | notify hpc =>
    refine h.update htxn hv rfl rfl (fun _ _ => rfl) (fun _ => rfl) (Or.inr rfl) (by simp) ?_
    intro k' t errno he
    obtain ⟨rfl, rfl, rfl⟩ : k = k' ∧ v.txn = t ∧ _ = errno := by simpa using he
    rw [hshown rfl]
    simp only [Logged, hpc] at hlog
    obtain ⟨state, groups, results, heq, herr⟩ := hlog
    exact ⟨rfl, rfl, v.commitType, state, groups, results, by rw [heq], herr⟩

omit [DecidableEq ω] in
/-- A step of the system beside the transaction tasks. The transactions whose tasks are at work stay as
they are. -/
theorem OutcomeInv.others (h : OutcomeInv s events) (htxn : TxnInv s') (he : e.txnId = none) {task : Option (Task ω)}
    (htasks : s'.tasks = Function.update s.tasks k task) (hk : requestOf (s.tasks k) = none) (htask : requestOf task = none)
    (hnext : s'.nextTxnId = s.nextTxnId) (hcached : ∀ t, (s'.txns t).cached = (s.txns t).cached)
    (hstay : ∀ j v, s.tasks j = some (.txn v) → v.pc.commits = true →
      (s'.txns v.txn).state = (s.txns v.txn).state ∧ (s'.txns v.txn).groups = (s.txns v.txn).groups) :
    OutcomeInv s' (events ++ [e]) := by
  have hreq (j : κ) : requestOf (s'.tasks j) = requestOf (s.tasks j) := by
    rw [htasks]
    by_cases hj : j = k
    · rw [hj, Function.update_self, htask, hk]
    · rw [Function.update_of_ne hj]
  refine h.aside htxn he ?_ (Nat.le_of_eq hnext.symm) ?_ ?_
  · intro t ht
    rwa [hcached, hnext] at ht
  · intro t _ hf hnone
    rw [hcached]
    exact ⟨hf, fun j => by rw [hreq]; exact hnone j⟩
  · intro j v hj
    have hold : s.tasks j = some (.txn v) := by
      rw [htasks] at hj
      by_cases hjk : j = k
      · rw [hjk, Function.update_self] at hj
        rw [hj] at htask
        simp [requestOf] at htask
      · rwa [Function.update_of_ne hjk] at hj
    exact (h.running j v hold).frame (hstay j v hold)

theorem OutcomeInv.objectMove (h : OutcomeInv s events) (hu : s.tasks k = some (.object u))
    (hm : ObjectMove s k u input s') (he : e.txnId = none) : OutcomeInv s' (events ++ [e]) := by
  have htxn := h.txn.objectMove hu hm
  have hk : requestOf (s.tasks k) = none := by
    rw [hu]
    rfl
  have hrwc (rwc : Sem) (t : TxnId) : (Function.update s.txns u.txn { s.txns u.txn with rwc := rwc } t).cached =
      (s.txns t).cached ∧ (Function.update s.txns u.txn { s.txns u.txn with rwc := rwc } t).state = (s.txns t).state ∧
      (Function.update s.txns u.txn { s.txns u.txn with rwc := rwc } t).groups = (s.txns t).groups := by
    by_cases ht : t = u.txn
    · rw [ht, Function.update_self]
      exact ⟨rfl, rfl, rfl⟩
    · rw [Function.update_of_ne ht]
      exact ⟨rfl, rfl, rfl⟩
  cases hm with
  | enter hpc ha => exact h.others htxn he rfl hk rfl rfl (fun t => (hrwc _ t).1) (fun _ v _ _ => (hrwc _ v.txn).2)
  | wrote hpc hopening hholds hcommitting =>
    split_ifs at htxn ⊢ with h0
    · exact h.others htxn he rfl hk rfl rfl (fun _ => rfl) (fun _ _ _ _ => ⟨rfl, rfl⟩)
    · refine h.others htxn he rfl hk rfl rfl ?_ ?_
      · exact (Function.forall_update_iff s.txns (fun t y => y.cached = (s.txns t).cached)).mpr
          ⟨Txn.afterWrite_cached _, fun _ _ => rfl⟩
      · intro j v hj hc
        have hne : v.txn ≠ u.txn := (h.txn.not_reading hj hc hu (by simp [hpc])).symm
        simp [hne]
  | leave hpc =>
    split_ifs at htxn ⊢ with h0
    · exact h.others htxn he rfl hk rfl rfl (fun _ => rfl) (fun _ _ _ _ => ⟨rfl, rfl⟩)
    · exact h.others htxn he rfl hk rfl rfl (fun t => (hrwc _ t).1) (fun _ v _ _ => (hrwc _ v.txn).2)
  | _ => exact h.others htxn he rfl hk rfl rfl (fun _ => rfl) (fun _ _ _ _ => ⟨rfl, rfl⟩)

omit [DecidableEq κ] [DecidableEq ω] in
theorem txnId_of_ofObject (he : e.ofObject = true) : e.txnId = none := by
  cases e <;> simp [Event.ofObject] at he <;> rfl

omit [DecidableEq κ] [DecidableEq ω] in
theorem OutcomeInv.createTxn (h : OutcomeInv s events)
    (htxn : TxnInv { s.setTxn (s.nextTxnId + 1) .fresh with nextTxnId := s.nextTxnId + 1 }) :
    OutcomeInv { s.setTxn (s.nextTxnId + 1) .fresh with nextTxnId := s.nextTxnId + 1 } (events ++ [.silent]) := by
  have hold (t : TxnId) (ht : t ≤ s.nextTxnId) : Function.update s.txns (s.nextTxnId + 1) Txn.fresh t = s.txns t :=
    Function.update_of_ne (Nat.ne_of_lt (Nat.lt_succ_of_le ht)) ..
  refine h.aside htxn rfl ?_ (Nat.le_succ _) ?_ ?_
  · intro t ht
    by_cases hle : t ≤ s.nextTxnId
    · have ht' : (Function.update s.txns (s.nextTxnId + 1) Txn.fresh t).cached = true ∨ s.nextTxnId + 1 < t := ht
      rw [hold t hle] at ht'
      exact ht'.imp_right Nat.lt_of_succ_lt
    · exact Or.inr (Nat.lt_of_not_le hle)
  · intro t hle hf hnone
    refine ⟨?_, hnone⟩
    show (Function.update s.txns (s.nextTxnId + 1) Txn.fresh t).cached = false
    rw [hold t hle]
    exact hf
  · intro j v hj
    have hok := h.txn.tasks j
    rw [show s.tasks j = some (.txn v) from hj] at hok
    show Logged (Function.update s.txns (s.nextTxnId + 1) Txn.fresh v.txn) j v (history v.txn events)
    rw [hold v.txn hok.2.1]
    exact h.running j v hj

omit [DecidableEq ω] in
theorem OutcomeInv.request (h : OutcomeInv s events) {commitType : CommitType}
    (htxn : TxnInv ((s.setTxn t { s.txns t with cached := false }).setTask k
      (some (.txn { txn := t, commitType := commitType, pc := .flag }))))
    (hc : (s.txns t).cached = true) :
    OutcomeInv ((s.setTxn t { s.txns t with cached := false }).setTask k
      (some (.txn { txn := t, commitType := commitType, pc := .flag }))) (events ++ [.silent]) := by
  refine h.aside htxn rfl ?_ (Nat.le_refl _) ?_ ?_
  · intro t' ht'
    by_cases heq : t' = t
    · rw [heq]
      exact Or.inl hc
    · simpa [heq] using ht'
  · intro t' _ hf hnone
    have hne : t' ≠ t := by
      rintro rfl
      rw [hf] at hc
      exact absurd hc (by decide)
    refine ⟨by simpa [hne] using hf, ?_⟩
    intro j hj
    by_cases hjk : j = k
    · simp [hjk, requestOf, hne.symm] at hj
    · exact hnone j (by simpa [hjk] using hj)
  · intro j v hj
    by_cases hjk : j = k
    · obtain rfl : { txn := t, commitType := commitType, pc := .flag } = v := by simpa [hjk] using hj
      exact h.fresh t (Or.inl hc)
    · have hold : s.tasks j = some (.txn v) := by simpa [hjk] using hj
      apply (h.running j v hold).frame
      intro _
      by_cases ht : v.txn = t
      · simp [ht]
      · simp [ht]

theorem OutcomeInv.step (h : OutcomeInv s events) {a : Act ω κ α} (hs : Scheduler.step s a = some (s', e)) :
    OutcomeInv s' (events ++ [e]) := by
  have htxn := h.txn.step hs
  cases step_move hs with
  | createTxn => exact h.createTxn htxn
  | noMemory =>
    refine h.aside htxn rfl ?_ (Nat.le_succ _) ?_ h.running
    · exact fun t ht => ht.imp_right (fun hlt => Nat.lt_of_succ_lt hlt)
    · exact fun t _ hf hnone => ⟨hf, hnone⟩
  | createObject => exact h.aside htxn rfl (fun _ ht => ht) (Nat.le_refl _) (fun _ _ hf hnone => ⟨hf, hnone⟩) h.running
  | submit hk hu => exact h.others htxn rfl rfl (by rw [hk]; rfl) rfl rfl (fun _ => rfl) (fun _ _ _ _ => ⟨rfl, rfl⟩)
  | notFound => exact h.aside htxn rfl (fun _ ht => ht) (Nat.le_refl _) (fun _ _ hf hnone => ⟨hf, hnone⟩) h.running
  | request hk hc => exact h.request htxn hc
  | object hu hs => exact h.objectMove hu (objectStep_move hs) (txnId_of_ofObject (objectStep_event hs))
  | txn hv hs => exact h.txnMove hv (txnStep_move hs)

/-! ### Runs -/

omit [DecidableEq κ] [DecidableEq ω] in
theorem appliedOf_history : appliedOf t (history t events) = appliedOf t events := by
  rw [appliedOf, history, List.filterMap_filter, appliedOf]
  congr 1
  funext e
  cases e <;> simp [Event.txnId]

omit [DecidableEq κ] [DecidableEq ω] in
theorem revertedOf_history : revertedOf t (history t events) = revertedOf t events := by
  rw [revertedOf, history, List.filterMap_filter, revertedOf]
  congr 1
  funext e
  cases e <;> simp [Event.txnId]

omit [DecidableEq κ] [DecidableEq ω] in
theorem lastErrno_history : lastErrno t (history t events) = lastErrno t events := by
  rw [lastErrno, history, List.filterMap_filter, lastErrno]
  congr 3
  funext e
  cases e <;> simp [Event.txnId]

section
variable {commitType : CommitType} {state : TxnState} {groups : List (Group ω α)} {results : List (ω × Errno)}
variable {errno : Errno}

omit [DecidableEq κ] [DecidableEq ω] in
theorem appliedOf_log : appliedOf t (outcomeLog k t commitType state groups results ++ [.txnNotified k t errno]) =
    if effective commitType state = .apply then atomsOf groups else [] := by
  cases heff : effective commitType state with
  | apply => simp [appliedOf, outcomeLog, commitLog, atomLog, atomEvent, heff, List.filterMap_map]
  | revert => simp [appliedOf, outcomeLog, commitLog, atomLog, atomEvent, heff, List.filterMap_map]

omit [DecidableEq κ] [DecidableEq ω] in
theorem revertedOf_log : revertedOf t (outcomeLog k t commitType state groups results ++ [.txnNotified k t errno]) =
    if effective commitType state = .apply then [] else atomsOf groups := by
  cases heff : effective commitType state with
  | apply => simp [revertedOf, outcomeLog, commitLog, atomLog, atomEvent, heff, List.filterMap_map]
  | revert => simp [revertedOf, outcomeLog, commitLog, atomLog, atomEvent, heff, List.filterMap_map]

omit [DecidableEq κ] [DecidableEq ω] in
theorem lastErrno_log : lastErrno t (outcomeLog k t commitType state groups results ++ [.txnNotified k t errno]) =
    lastResult results := by
  cases heff : effective commitType state with
  | apply => simp [lastErrno, lastResult, outcomeLog, commitLog, atomLog, atomEvent, heff, List.filterMap_map]
  | revert => simp [lastErrno, lastResult, outcomeLog, commitLog, atomLog, atomEvent, heff, List.filterMap_map]

omit [DecidableEq κ] [DecidableEq ω] in
theorem mem_history : e ∈ history t events ↔ e ∈ events ∧ e.txnId = some t := by
  simp [history]

omit [DecidableEq κ] [DecidableEq ω] in
theorem began_mem_log (results : List (ω × Errno)) (errno : Errno) {commitType' : CommitType} {state' : TxnState} {groups' : List (Group ω α)} :
    .began k t commitType' state' groups' ∈ outcomeLog k t commitType state groups results ++ [.txnNotified k t errno] ↔
      commitType' = commitType ∧ state' = state ∧ groups' = groups := by
  cases heff : effective commitType state with
  | apply => simp [outcomeLog, commitLog, atomLog, atomEvent, heff]
  | revert => simp [outcomeLog, commitLog, atomLog, atomEvent, heff]

omit [DecidableEq κ] [DecidableEq ω] in
theorem completed_mem_log (k : κ) (t : TxnId) (groups : List (Group ω α)) (results : List (ω × Errno))
    (errno : Errno) {final : TxnState} :
    .completed k t final ∈ outcomeLog k t commitType state groups results ++ [.txnNotified k t errno] ↔
      final = (completion (effective commitType state) (lastResult results) state).1 := by
  cases heff : effective commitType state with
  | apply => simp [outcomeLog, commitLog, atomLog, atomEvent, heff]
  | revert => simp [outcomeLog, commitLog, atomLog, atomEvent, heff]

end

/-- In every run, once the task of a transaction was notified: it began its work once, with one request on
one state of the transaction and its groups, and it completed once. The notification and the final state
agree with what was done to the atoms if and only if the request was not a commit of a transaction with a
failed write, and the last object commit succeeded. -/
theorem run_outcome_agrees_iff {acts : List (Act ω κ α)} (he : exec step State.init acts = some (s, events))
    {errno : Errno} (hn : .txnNotified k t errno ∈ events) : ∃ commitType state groups final,
    (∀ commitType' state' groups', .began k t commitType' state' groups' ∈ events ↔
      commitType' = commitType ∧ state' = state ∧ groups' = groups) ∧
    (∀ final', .completed k t final' ∈ events ↔ final' = final) ∧
    (Agrees commitType state (atomsOf groups) (appliedOf t events) (revertedOf t events) final errno ↔
      Agreeable commitType state (atomsOf groups) (lastErrno t events)) := by
  have hinv : OutcomeInv s ([] ++ events) :=
    exec_events (C := fun _ _ => True) (fun _ _ _ _ _ hI _ hs => hI.step hs) init_outcomeInv
      (meets_of_forall (fun _ _ => trivial) _ _) he
  obtain ⟨⟨commitType, state, groups, results, hlog, herr⟩, -⟩ := hinv.closed k t errno hn
  rw [List.nil_append] at hlog
  refine ⟨commitType, state, groups, (completion (effective commitType state) (lastResult results) state).1, ?_, ?_, ?_⟩
  · intro commitType' state' groups'
    rw [← began_mem_log results errno, ← hlog, mem_history]
    simp [Event.txnId]
  · intro final'
    rw [← completed_mem_log k t groups results errno, ← hlog, mem_history]
    simp [Event.txnId]
  · rw [← appliedOf_history, ← revertedOf_history, ← lastErrno_history, hlog, appliedOf_log, revertedOf_log, lastErrno_log,
      herr]
    exact agrees_iff commitType state (atomsOf groups) (lastResult results)

/-- A transaction that wrote one object and is committed or rolled back. -/
def oneObject (commitType : CommitType) : List (Act Nat Nat Nat) :=
  List.flatten [[.createObject 0, .createTxn true, .submit 0 0 .write 2], runs 0 5, [.run 0 { atoms := some [7] }],
    runs 0 5, [.request 2 2 commitType], runs 2 19]

theorem run_outcome_agrees_iff_apply : ∃ s events, exec step State.init (oneObject .apply) = some (s, events) ∧
    .began 2 2 .apply .waitCommit [⟨0, [7]⟩] ∈ events ∧
    Agrees .apply .waitCommit [(0, 7)] (appliedOf 2 events) (revertedOf 2 events) .committed .none := by
  have hfacts : (exec step State.init (oneObject .apply)).map (fun r =>
      (decide (.txnNotified 2 2 .none ∈ r.2), decide (.began 2 2 .apply .waitCommit [⟨0, [7]⟩] ∈ r.2),
        decide (.completed 2 2 .committed ∈ r.2), lastErrno 2 r.2)) = some (true, true, true, .none) := by
    decide +kernel
  rw [Option.map_eq_some_iff] at hfacts
  obtain ⟨⟨s, events⟩, he, hfacts⟩ := hfacts
  simp only [Prod.mk.injEq, decide_eq_true_eq] at hfacts
  obtain ⟨hn, hb, hc, hlast⟩ := hfacts
  obtain ⟨commitType, state, groups, final, hbegan, hcompleted, hiff⟩ := run_outcome_agrees_iff he hn
  obtain ⟨rfl, rfl, rfl⟩ := (hbegan _ _ _).mp hb
  obtain rfl := (hcompleted _).mp hc
  refine ⟨s, events, he, hb, hiff.mpr ?_⟩
  rw [hlast]
  simp [Agreeable]

/-- A transaction with a failed write: its commit reverts the atoms and is notified as a success. -/
def failedWrite : List (Act Nat Nat Nat) :=
  List.flatten [[.createObject 0, .createTxn true, .submit 0 0 .write 2], runs 0 5, [.run 0 { atoms := some [7] }],
    runs 0 5, [.submit 1 0 .write 2], runs 1 5, [.run 1 { errno := .dataKeyExists }], runs 1 2,
    [.request 2 2 .apply], runs 2 19]

theorem failed_write_commit_succeeds : ∃ s events, exec step State.init failedWrite = some (s, events) ∧
    .began 2 2 .apply .dontCommit [⟨0, [7]⟩] ∈ events ∧ .completed 2 2 .rolledback ∈ events ∧
    .txnNotified 2 2 .none ∈ events ∧ revertedOf 2 events = [(0, 7)] ∧
    ¬ Agrees .apply .dontCommit [(0, 7)] (appliedOf 2 events) (revertedOf 2 events) .rolledback .none := by
  have hfacts : (exec step State.init failedWrite).map (fun r =>
      (decide (.began 2 2 .apply .dontCommit [⟨0, [7]⟩] ∈ r.2), decide (.completed 2 2 .rolledback ∈ r.2),
        decide (.txnNotified 2 2 .none ∈ r.2), revertedOf 2 r.2)) = some (true, true, true, [(0, 7)]) := by
    decide +kernel
  rw [Option.map_eq_some_iff] at hfacts
  obtain ⟨⟨s, events⟩, he, hfacts⟩ := hfacts
  simp only [Prod.mk.injEq, decide_eq_true_eq] at hfacts
  obtain ⟨hb, hc, hn, hr⟩ := hfacts
  refine ⟨s, events, he, hb, hc, hn, hr, ?_⟩
  intro hagrees
  exact absurd (hagrees.2 rfl rfl) (by decide)

end RaleighSL.Core.Scheduler
