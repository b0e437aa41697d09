import RaleighSL.Core.Scheduler.Moves
import RaleighSL.Zcl.RwcHolders

/-!
# Who uses a transaction

An object task of a transaction reads the semaphore of the transaction from the
moment it is let in until it is done, and the one task that commits the transaction
or rolls it back holds the commit of it. Therefore the groups of a transaction stay
as they are while the transaction task is at work.
-/
namespace RaleighSL.Core.Scheduler
open RaleighSL.Library RaleighSL.Zcl.RwcSem

variable {ω κ α : Type*}

def TxnPc.commits : TxnPc ω → Bool
  | .flag => false
  | .acquire => false
  | .notify _ => false
  | _ => true

def txnHold (t : TxnId) : Option (Task ω) → Option Op
  | some (.object u) => if u.txn = t ∧ t ≠ 0 ∧ u.pc ≠ .opening then some .read else none
  | some (.txn u) => if u.txn = t ∧ u.pc.commits then some .commit else none
  | none => none

def requestOf : Option (Task ω) → Option TxnId
  | some (.txn u) => some u.txn
  | _ => none

/-- The transactions of a task have been created, and the one it commits has left the cache. -/
def TaskOk (nextTxnId : TxnId) (cached : TxnId → Bool) : Option (Task ω) → Prop
  | some (.object u) => u.txn ≤ nextTxnId ∧ (u.pc = .opening → u.txn ≠ 0)
  | some (.txn u) => u.txn ≠ 0 ∧ u.txn ≤ nextTxnId ∧ cached u.txn = false
  | none => True

structure TxnInv (s : State ω κ α) : Prop where
  held : ∀ t, Held (s.txns t).rwc (txnHold t ∘ s.tasks)
  tasks : ∀ k, TaskOk s.nextTxnId (fun t => (s.txns t).cached) (s.tasks k)
  single : ∀ k k' t, requestOf (s.tasks k) = some t → requestOf (s.tasks k') = some t → k' = k
  cached : ∀ t, (s.txns t).cached = true → t ≠ 0 ∧ t ≤ s.nextTxnId
  nodup : ∀ t, (s.txns t).objects.Nodup

variable {s s' : State ω κ α} {k k' : κ} {u : ObjectTask ω} {v : TxnTask ω} {input : Input α} {e : Event ω κ α}
variable {t : TxnId} {o : ω}

theorem init_txnInv : TxnInv (State.init : State ω κ α) where
  held _ := held_free
  tasks _ := trivial
  single _ _ _ h := absurd h (by simp [State.init, requestOf])
  cached _ h := absurd h (by simp [State.init])
  nodup _ := List.nodup_nil

/-- No object task of the transaction is under way while its commit is held. -/
theorem TxnInv.not_reading (h : TxnInv s) (hv : s.tasks k = some (.txn v)) (hc : v.pc.commits = true)
    (hu : s.tasks k' = some (.object u)) (hpc : u.pc ≠ .opening) : u.txn ≠ v.txn := by
  intro ht
  have hok := h.tasks k
  rw [hv] at hok
  have hhold : (txnHold v.txn ∘ s.tasks) k = some .commit := by simp [txnHold, hv, hc]
  have hread : (txnHold v.txn ∘ s.tasks) k' = some .read := by simp [txnHold, hu, ht, hok.1, hpc]
  exact (h.held v.txn).readers_eq_zero.mp ((h.held v.txn).commit k hhold).2 k' hread

/-- An id that was not handed out yet is in nobody's hands. -/
theorem TxnInv.unused (h : TxnInv s) (ht : s.nextTxnId < t) : txnHold t ∘ s.tasks = fun _ => none := by
  funext j
  have hok := h.tasks j
  show txnHold t (s.tasks j) = none
  cases htask : s.tasks j with
  | none => rfl
  | some task =>
    rw [htask] at hok
    cases task with
    | object u =>
      have hne : u.txn ≠ t := Nat.ne_of_lt (Nat.lt_of_le_of_lt hok.1 ht)
      simp [txnHold, hne]
    | txn v =>
      have hne : v.txn ≠ t := Nat.ne_of_lt (Nat.lt_of_le_of_lt hok.2.1 ht)
      simp [txnHold, hne]

/-- The cache gives a transaction away once, so its task is the only one. -/
theorem TxnInv.not_requested (h : TxnInv s) (hc : (s.txns t).cached = true) (j : κ) : requestOf (s.tasks j) ≠ some t := by
  intro hj
  have hok := h.tasks j
  cases htask : s.tasks j with
  | none => simp [htask, requestOf] at hj
  | some task =>
    rw [htask] at hok hj
    cases task with
    | object u => simp [requestOf] at hj
    | txn v =>
      obtain rfl : v.txn = t := Option.some.inj hj
      have hf : (s.txns v.txn).cached = false := hok.2.2
      rw [hf] at hc
      exact absurd hc (by decide)

theorem TxnInv.skipTxnId (h : TxnInv s) : TxnInv { s with nextTxnId := s.nextTxnId + 1 } where
  held := h.held
  tasks j := by
    have hok := h.tasks j
    show TaskOk (s.nextTxnId + 1) (fun t => (s.txns t).cached) (s.tasks j)
    cases htask : s.tasks j with
    | none => trivial
    | some task =>
      rw [htask] at hok
      cases task with
      | object u => exact ⟨Nat.le_succ_of_le hok.1, hok.2⟩
      | txn v => exact ⟨hok.1, Nat.le_succ_of_le hok.2.1, hok.2.2⟩
  single := h.single
  cached t ht := ⟨(h.cached t ht).1, Nat.le_succ_of_le (h.cached t ht).2⟩
  nodup := h.nodup

theorem TxnInv.createTxn (h : TxnInv s) :
    TxnInv { s.setTxn (s.nextTxnId + 1) .fresh with nextTxnId := s.nextTxnId + 1 } where
  held := by
    refine (Function.forall_update_iff s.txns (fun t y => Held y.rwc (txnHold t ∘ s.tasks))).mpr ⟨?_, fun t _ => h.held t⟩
    rw [h.unused (Nat.lt_succ_self _)]
    exact held_free
  tasks j := by
    have hok := h.tasks j
    have hok' := h.skipTxnId.tasks j
    show TaskOk (s.nextTxnId + 1) (fun t => (Function.update s.txns (s.nextTxnId + 1) Txn.fresh t).cached) (s.tasks j)
    cases htask : s.tasks j with
    | none => trivial
    | some task =>
      simp only [htask] at hok hok'
      cases task with
      | object u => exact hok'
      | txn v =>
        refine ⟨hok'.1, hok'.2.1, ?_⟩
        have hne : v.txn ≠ s.nextTxnId + 1 := Nat.ne_of_lt (Nat.lt_succ_of_le hok.2.1)
        show (Function.update s.txns (s.nextTxnId + 1) Txn.fresh v.txn).cached = false
        rw [Function.update_of_ne hne]
        exact hok.2.2
  single := h.single
  cached := by
    refine (Function.forall_update_iff s.txns (fun t y => y.cached = true → t ≠ 0 ∧ t ≤ s.nextTxnId + 1)).mpr ⟨?_, ?_⟩
    · exact fun _ => ⟨Nat.succ_ne_zero _, Nat.le_refl _⟩
    · exact fun t _ ht => ⟨(h.cached t ht).1, Nat.le_succ_of_le (h.cached t ht).2⟩
  nodup := (Function.forall_update_iff s.txns (fun _ y => y.objects.Nodup)).mpr ⟨List.nodup_nil, fun t _ => h.nodup t⟩

variable [DecidableEq κ]

/-- What has to be checked of a step that changes one task. -/
theorem TxnInv.update (h : TxnInv s) {task : Option (Task ω)} (htasks : s'.tasks = Function.update s.tasks k task)
    (hnext : s'.nextTxnId = s.nextTxnId) (hcached : ∀ t, (s'.txns t).cached = (s.txns t).cached)
    (hreq : ∀ t, requestOf task = some t → requestOf (s.tasks k) = some t)
    (hok : TaskOk s.nextTxnId (fun t => (s.txns t).cached) task) (hnodup : ∀ t, (s'.txns t).objects.Nodup)
    (hheld : ∀ t, Held (s'.txns t).rwc (Function.update (txnHold t ∘ s.tasks) k (txnHold t task))) : TxnInv s' where
  held t := by
    rw [htasks, Function.comp_update]
    exact hheld t
  tasks j := by
    simp only [hnext, hcached, htasks]
    by_cases hj : j = k
    · rw [hj, Function.update_self]
      exact hok
    · rw [Function.update_of_ne hj]
      exact h.tasks j
  single j j' t hj hj' := by
    rw [htasks] at hj hj'
    have hold (i : κ) (hi : requestOf (Function.update s.tasks k task i) = some t) : requestOf (s.tasks i) = some t := by
      by_cases hik : i = k
      · rw [hik, Function.update_self] at hi
        rw [hik]
        exact hreq t hi
      · rwa [Function.update_of_ne hik] at hi
    exact h.single j j' t (hold j hj) (hold j' hj')
  cached t ht := by
    rw [hcached] at ht
    rw [hnext]
    exact h.cached t ht
  nodup := hnodup

theorem TxnInv.held_same (h : TxnInv s) {task : Option (Task ω)} (hhold : txnHold t task = txnHold t (s.tasks k))
    {x : Sem} (hx : x = (s.txns t).rwc) : Held x (Function.update (txnHold t ∘ s.tasks) k (txnHold t task)) := by
  rw [hx, hhold, show txnHold t (s.tasks k) = (txnHold t ∘ s.tasks) k from rfl, Function.update_eq_self]
  exact h.held t

theorem TxnInv.request (h : TxnInv s) (hk : s.tasks k = none) (hc : (s.txns t).cached = true) (ct : CommitType) :
    TxnInv ((s.setTxn t { s.txns t with cached := false }).setTask k
      (some (.txn { txn := t, commitType := ct, pc := .flag }))) where
  held := by
    refine (Function.forall_update_iff s.txns (fun t' y => Held y.rwc (txnHold t' ∘ Function.update s.tasks k
      (some (.txn { txn := t, commitType := ct, pc := .flag }))))).mpr ?_
    have hheld (t' : TxnId) : Held (s.txns t').rwc (txnHold t' ∘ Function.update s.tasks k
        (some (.txn { txn := t, commitType := ct, pc := .flag }))) := by
      rw [Function.comp_update]
      apply h.held_same ?_ rfl
      simp [txnHold, hk, TxnPc.commits]
    exact ⟨hheld t, fun t' _ => hheld t'⟩
  tasks j := by
    have hcached (t' : TxnId) (hf : (s.txns t').cached = false) :
        (Function.update s.txns t { s.txns t with cached := false } t').cached = false := by
      by_cases ht : t' = t
      · simp [ht]
      · simpa [ht] using hf
    show TaskOk s.nextTxnId (fun t' => (Function.update s.txns t { s.txns t with cached := false } t').cached)
      (Function.update s.tasks k (some (.txn { txn := t, commitType := ct, pc := .flag })) j)
    by_cases hj : j = k
    · rw [hj, Function.update_self]
      exact ⟨(h.cached t hc).1, (h.cached t hc).2, by simp⟩
    · rw [Function.update_of_ne hj]
      have hok := h.tasks j
      cases htask : s.tasks j with
      | none => trivial
      | some task =>
        rw [htask] at hok
        cases task with
        | object u => exact hok
        | txn v => exact ⟨hok.1, hok.2.1, hcached v.txn hok.2.2⟩
  single j j' t' hj hj' := by
    have hold (i : κ) (hi : i ≠ k) (hreq : requestOf (Function.update s.tasks k
        (some (.txn { txn := t, commitType := ct, pc := .flag })) i) = some t') : requestOf (s.tasks i) = some t' := by
      rwa [Function.update_of_ne hi] at hreq
    have hnew (hreq : requestOf (Function.update s.tasks k
        (some (.txn { txn := t, commitType := ct, pc := .flag })) k) = some t') : t = t' := by
      rw [Function.update_self] at hreq
      exact Option.some.inj hreq
    by_cases hjk : j = k
    · subst hjk
      obtain rfl := hnew hj
      by_cases hjk' : j' = j
      · exact hjk'
      · exact absurd (hold j' hjk' hj') (h.not_requested hc j')
    · by_cases hjk' : j' = k
      · subst hjk'
        obtain rfl := hnew hj'
        exact absurd (hold j hjk hj) (h.not_requested hc j)
      · exact h.single j j' t' (hold j hjk hj) (hold j' hjk' hj')
  cached := by
    refine (Function.forall_update_iff s.txns (fun t' y => y.cached = true → t' ≠ 0 ∧ t' ≤ s.nextTxnId)).mpr
      ⟨?_, fun t' _ => h.cached t'⟩
    intro hf
    exact absurd hf (by simp)
  nodup := (Function.forall_update_iff s.txns (fun _ y => y.objects.Nodup)).mpr ⟨h.nodup t, fun t' _ => h.nodup t'⟩

theorem TxnInv.submit (h : TxnInv s) (hk : s.tasks k = none) (hu : u.pc = .allocating ∧ u.txn = 0 ∨
    u.pc = .opening ∧ (s.txns u.txn).cached = true) : TxnInv (s.setTask k (some (.object u))) := by
  refine h.update rfl rfl (fun _ => rfl) ?_ ?_ h.nodup ?_
  · intro t ht
    simp [requestOf] at ht
  · obtain ⟨hpc, h0⟩ | ⟨hpc, hc⟩ := hu
    · exact ⟨h0 ▸ Nat.zero_le _, by simp [hpc]⟩
    · exact ⟨(h.cached _ hc).2, fun _ => (h.cached _ hc).1⟩
  · intro t
    apply h.held_same ?_ rfl
    obtain ⟨hpc, h0⟩ | ⟨hpc, hc⟩ := hu
    · by_cases ht : u.txn = t
      · simp [txnHold, hk, ← ht, h0]
      · simp [txnHold, hk, ht]
    · simp [txnHold, hk, hpc]

/-! ### Steps -/

variable [DecidableEq ω]

theorem map_object_setAtoms (atoms : List α) (gs : List (Group ω α)) : (setAtoms o atoms gs).map Group.object =
    if o ∈ gs.map Group.object then gs.map Group.object else gs.map Group.object ++ [o] := by
  induction gs with
  | nil => rfl
  | cons g gs ih =>
    by_cases hg : g.object = o
    · simp [setAtoms, hg]
    · have hg' : ¬ o = g.object := fun hc => hg hc.symm
      simp only [setAtoms, if_neg hg, List.map_cons, ih, List.mem_cons, hg', false_or]
      split_ifs <;> rfl

theorem Txn.afterWrite_rwc (y : Txn ω α) : (y.afterWrite o input).rwc = y.rwc := by
  cases h : input.atoms <;> simp only [Txn.afterWrite, Txn.touch, h] <;> split_ifs <;> rfl

theorem Txn.afterWrite_cached (y : Txn ω α) : (y.afterWrite o input).cached = y.cached := by
  cases h : input.atoms <;> simp only [Txn.afterWrite, Txn.touch, h] <;> split_ifs <;> rfl

theorem Txn.afterWrite_nodup {y : Txn ω α} (hy : y.objects.Nodup) : (y.afterWrite o input).objects.Nodup := by
  have htouch : (y.touch o input.atoms).objects.Nodup := by
    cases input.atoms with
    | none => exact hy
    | some atoms =>
      show ((setAtoms o atoms y.groups).map Group.object).Nodup
      rw [map_object_setAtoms]
      split_ifs with hmem
      · exact hy
      · rw [List.nodup_append]
        refine ⟨hy, List.nodup_singleton o, ?_⟩
        intro a ha b hb hab
        rw [List.mem_singleton] at hb
        exact hmem (hb ▸ hab ▸ ha)
  rw [Txn.afterWrite]
  split_ifs
  · exact htouch
  · exact htouch

omit [DecidableEq ω] in
theorem nextAtom_objects {gs gs' : List (Group ω α)} {a : α} (h : nextAtom gs = some (o, a, gs')) :
    gs'.map Group.object = gs.map Group.object := by
  induction gs generalizing gs' with
  | nil => simp [nextAtom] at h
  | cons g gs ih =>
    obtain ⟨o', atoms⟩ := g
    cases atoms with
    | nil =>
      simp only [nextAtom, Option.map_eq_some_iff] at h
      obtain ⟨⟨o₁, a₁, gs₁⟩, h₁, h₂⟩ := h
      simp only [Prod.mk.injEq] at h₂
      obtain ⟨rfl, rfl, rfl⟩ := h₂
      simp [ih h₁]
    | cons a' atoms =>
      simp only [nextAtom, Option.some.injEq, Prod.mk.injEq] at h
      obtain ⟨rfl, rfl, rfl⟩ := h
      rfl

omit [DecidableEq ω] in
/-- An object task that is let in already and stays so. -/
theorem TxnInv.objectWork (h : TxnInv s) (hu : s.tasks k = some (.object u)) {pc : ObjectPc} (hpc : u.pc ≠ .opening)
    (hpc' : pc ≠ .opening) (htasks : s'.tasks = Function.update s.tasks k (u.at pc)) (hnext : s'.nextTxnId = s.nextTxnId)
    (hcached : ∀ t, (s'.txns t).cached = (s.txns t).cached) (hrwc : ∀ t, (s'.txns t).rwc = (s.txns t).rwc)
    (hnodup : ∀ t, (s'.txns t).objects.Nodup) : TxnInv s' := by
  have hok := h.tasks k
  rw [hu] at hok
  apply h.update htasks hnext hcached
  · intro t ht
    simp [requestOf, ObjectTask.at] at ht
  · exact ⟨hok.1, fun hc => absurd hc hpc'⟩
  · exact hnodup
  · intro t
    apply h.held_same ?_ (hrwc t)
    simp [txnHold, ObjectTask.at, hu, hpc, hpc']

omit [DecidableEq ω] in
/-- The two kinds of steps on the semaphore of a transaction: nothing else of it changes, and the other
transactions are left alone. -/
theorem TxnInv.setRwc (h : TxnInv s) {task : Option (Task ω)} {x : Sem} {y : Txn ω α}
    (hy : y = { s.txns t with rwc := x })
    (htasks : s'.tasks = Function.update s.tasks k task) (htxns : s'.txns = Function.update s.txns t y)
    (hnext : s'.nextTxnId = s.nextTxnId) (hreq : ∀ t, requestOf task = some t → requestOf (s.tasks k) = some t)
    (hok : TaskOk s.nextTxnId (fun t => (s.txns t).cached) task)
    (hheld : Held x (Function.update (txnHold t ∘ s.tasks) k (txnHold t task)))
    (hothers : ∀ t', t' ≠ t → txnHold t' task = txnHold t' (s.tasks k)) : TxnInv s' := by
  subst hy
  refine h.update htasks hnext ?_ hreq hok ?_ ?_
  · rw [htxns]
    exact (Function.forall_update_iff s.txns (fun t y => y.cached = (s.txns t).cached)).mpr ⟨rfl, fun _ _ => rfl⟩
  · rw [htxns]
    exact (Function.forall_update_iff s.txns (fun _ y => y.objects.Nodup)).mpr ⟨h.nodup t, fun t' _ => h.nodup t'⟩
  · rw [htxns]
    exact (Function.forall_update_iff s.txns (fun t' y => Held y.rwc
      (Function.update (txnHold t' ∘ s.tasks) k (txnHold t' task)))).mpr
        ⟨hheld, fun t' ht' => h.held_same (hothers t' ht') rfl⟩

theorem TxnInv.objectMove (h : TxnInv s) (hu : s.tasks k = some (.object u)) (hm : ObjectMove s k u input s') :
    TxnInv s' := by
  have hok := h.tasks k
  rw [hu] at hok
  cases hm with
  | enter hpc ha =>
    have hne := hok.2 hpc
    have hnone : (txnHold u.txn ∘ s.tasks) k = none := by simp [txnHold, hu, hpc]
    have hread : txnHold u.txn (u.at .allocating) = some .read := by simp [txnHold, ObjectTask.at, hne]
    refine h.setRwc rfl rfl rfl rfl ?_ ⟨hok.1, fun _ => hne⟩ ?_ ?_
    · intro t ht
      simp [requestOf, ObjectTask.at] at ht
    · rw [hread]
      exact (h.held u.txn).acquire hnone ha
    · intro t ht
      simp [txnHold, ObjectTask.at, hu, ht.symm]
  | closed hpc =>
    refine h.update rfl rfl (fun _ => rfl) ?_ trivial h.nodup ?_
    · intro t ht
      simp [requestOf] at ht
    · intro t
      apply h.held_same ?_ rfl
      simp [txnHold, hu, hpc]
  | pass hpass => exact h.objectWork hu hpass.opening hpass.opening' rfl rfl (fun _ => rfl) (fun _ => rfl) h.nodup
  | opened hpc => exact h.objectWork hu (by simp [hpc]) (by simp) rfl rfl (fun _ => rfl) (fun _ => rfl) h.nodup
  | acquire hpc ha => exact h.objectWork hu (by simp [hpc]) (by simp) rfl rfl (fun _ => rfl) (fun _ => rfl) h.nodup
  | wrote hpc hopening hholds hcommitting =>
    split_ifs with h0
    · exact h.objectWork hu (by simp [hpc]) hopening rfl rfl (fun _ => rfl) (fun _ => rfl) h.nodup
    · refine h.objectWork hu (by simp [hpc]) hopening rfl rfl ?_ ?_ ?_
      · exact (Function.forall_update_iff s.txns (fun t y => y.cached = (s.txns t).cached)).mpr
          ⟨Txn.afterWrite_cached _, fun _ _ => rfl⟩
      · exact (Function.forall_update_iff s.txns (fun t y => y.rwc = (s.txns t).rwc)).mpr
          ⟨Txn.afterWrite_rwc _, fun _ _ => rfl⟩
      · exact (Function.forall_update_iff s.txns (fun _ y => y.objects.Nodup)).mpr
          ⟨Txn.afterWrite_nodup (h.nodup u.txn), fun t _ => h.nodup t⟩
  | flag hpc => exact h.objectWork hu (by simp [hpc]) (by simp) rfl rfl (fun _ => rfl) (fun _ => rfl) h.nodup
  | switch hpc hs => exact h.objectWork hu (by simp [hpc]) (by simp) rfl rfl (fun _ => rfl) (fun _ => rfl) h.nodup
  | again hpc => exact h.objectWork hu (by simp [hpc]) (by simp) rfl rfl (fun _ => rfl) (fun _ => rfl) h.nodup
  | done hpc => exact h.objectWork hu (by simp [hpc]) (by simp) rfl rfl (fun _ => rfl) (fun _ => rfl) h.nodup
  | leave hpc =>
    split_ifs with h0
    · refine h.update rfl rfl (fun _ => rfl) ?_ trivial h.nodup ?_
      · intro t ht
        simp [requestOf] at ht
      · intro t
        apply h.held_same ?_ rfl
        by_cases ht : u.txn = t
        · simp [txnHold, hu, ← ht, h0]
        · simp [txnHold, hu, ht]
    · have hread : (txnHold u.txn ∘ s.tasks) k = some .read := by simp [txnHold, hu, hpc, h0]
      refine h.setRwc rfl rfl rfl rfl ?_ trivial ((h.held u.txn).drop hread (by simp)) ?_
      · intro t ht
        simp [requestOf] at ht
      · intro t ht
        simp [txnHold, hu, ht.symm]

omit [DecidableEq ω] in
theorem TxnInv.txnWork (h : TxnInv s) (hv : s.tasks k = some (.txn v)) {pc : TxnPc ω} (hpc : pc.commits = v.pc.commits)
    (htasks : s'.tasks = Function.update s.tasks k (v.at pc)) (hnext : s'.nextTxnId = s.nextTxnId)
    (hcached : ∀ t, (s'.txns t).cached = (s.txns t).cached) (hrwc : ∀ t, (s'.txns t).rwc = (s.txns t).rwc)
    (hobjects : ∀ t, (s'.txns t).objects = (s.txns t).objects) : TxnInv s' := by
  have hok := h.tasks k
  rw [hv] at hok
  refine h.update htasks hnext hcached ?_ hok ?_ ?_
  · intro t ht
    rw [hv]
    exact ht
  · intro t
    rw [hobjects]
    exact h.nodup t
  · intro t
    apply h.held_same ?_ (hrwc t)
    simp [txnHold, TxnTask.at, hv, hpc]

theorem TxnInv.txnMove (h : TxnInv s) (hv : s.tasks k = some (.txn v)) (hm : TxnMove s k v input s' e) :
    TxnInv s' := by
  have hok := h.tasks k
  rw [hv] at hok
  have hreq (pc : TxnPc ω) (t : TxnId) (ht : requestOf (v.at pc) = some t) : requestOf (s.tasks k) = some t := by
    rw [hv]
    exact ht
  have hothers (pc : TxnPc ω) (t : TxnId) (ht : t ≠ v.txn) : txnHold t (v.at pc) = txnHold t (s.tasks k) := by
    simp [txnHold, TxnTask.at, hv, ht.symm]
  have hhold (pc : TxnPc ω) : txnHold v.txn (v.at pc) = if pc.commits then some .commit else none := by
    simp [txnHold, TxnTask.at]
  cases hm with
  | flag hpc =>
    refine h.setRwc rfl rfl rfl rfl (hreq _) hok ?_ (hothers _)
    have hsame : txnHold v.txn (v.at .acquire) = (txnHold v.txn ∘ s.tasks) k := by
      simp [txnHold, TxnTask.at, hv, hpc, TxnPc.commits]
    rw [hsame, Function.update_eq_self]
    exact (h.held v.txn).setCommit
  | take hpc ha =>
    refine h.setRwc rfl rfl rfl rfl (hreq _) hok ?_ (hothers _)
    rw [hhold]
    exact (h.held v.txn).acquire (by simp [txnHold, hv, hpc, TxnPc.commits]) ha
  | retry => exact h
  | barrier hpc => exact h.txnWork hv (by rw [hpc]; rfl) rfl rfl (fun _ => rfl) (fun _ => rfl) (fun _ => rfl)
  | raised hpc => exact h.txnWork hv (by rw [hpc]; rfl) rfl rfl (fun _ => rfl) (fun _ => rfl) (fun _ => rfl)
  | raisePending hpc => exact h.txnWork hv (by rw [hpc]; rfl) rfl rfl (fun _ => rfl) (fun _ => rfl) (fun _ => rfl)
  | raiseLock hpc => exact h.txnWork hv (by rw [hpc]; rfl) rfl rfl (fun _ => rfl) (fun _ => rfl) (fun _ => rfl)
  | began hpc => exact h.txnWork hv (by rw [hpc]; rfl) rfl rfl (fun _ => rfl) (fun _ => rfl) (fun _ => rfl)
  | lock hpc => exact h.txnWork hv (by rw [hpc]; rfl) rfl rfl (fun _ => rfl) (fun _ => rfl) (fun _ => rfl)
  | atom hpc ha =>
    have htasks : s.tasks = Function.update s.tasks k (v.at v.pc) := by
      rw [show v.at v.pc = s.tasks k from hv.symm, Function.update_eq_self]
    refine h.txnWork hv rfl htasks rfl ?_ ?_ ?_
    · exact (Function.forall_update_iff s.txns (fun t y => y.cached = (s.txns t).cached)).mpr ⟨rfl, fun _ _ => rfl⟩
    · exact (Function.forall_update_iff s.txns (fun t y => y.rwc = (s.txns t).rwc)).mpr ⟨rfl, fun _ _ => rfl⟩
    · exact (Function.forall_update_iff s.txns (fun t y => y.objects = (s.txns t).objects)).mpr
        ⟨nextAtom_objects ha, fun _ _ => rfl⟩
  | written hpc => exact h.txnWork hv (by rw [hpc]; rfl) rfl rfl (fun _ => rfl) (fun _ => rfl) (fun _ => rfl)
  | commit hpc => exact h.txnWork hv (by rw [hpc]; rfl) rfl rfl (fun _ => rfl) (fun _ => rfl) (fun _ => rfl)
  | committed hpc => exact h.txnWork hv (by rw [hpc]; rfl) rfl rfl (fun _ => rfl) (fun _ => rfl) (fun _ => rfl)
  | complete hpc =>
    refine h.txnWork hv (by rw [hpc]; rfl) rfl rfl ?_ ?_ ?_
    · exact (Function.forall_update_iff s.txns (fun t y => y.cached = (s.txns t).cached)).mpr ⟨rfl, fun _ _ => rfl⟩
    · exact (Function.forall_update_iff s.txns (fun t y => y.rwc = (s.txns t).rwc)).mpr ⟨rfl, fun _ _ => rfl⟩
    · exact (Function.forall_update_iff s.txns (fun t y => y.objects = (s.txns t).objects)).mpr ⟨rfl, fun _ _ => rfl⟩
  | unlock hpc => exact h.txnWork hv (by rw [hpc]; rfl) rfl rfl (fun _ => rfl) (fun _ => rfl) (fun _ => rfl)
  | unlocked hpc => exact h.txnWork hv (by rw [hpc]; rfl) rfl rfl (fun _ => rfl) (fun _ => rfl) (fun _ => rfl)
  | releaseLock hpc => exact h.txnWork hv (by rw [hpc]; rfl) rfl rfl (fun _ => rfl) (fun _ => rfl) (fun _ => rfl)
  | clearPending hpc => exact h.txnWork hv (by rw [hpc]; rfl) rfl rfl (fun _ => rfl) (fun _ => rfl) (fun _ => rfl)
  | release hpc =>
    refine h.setRwc rfl rfl rfl rfl (hreq _) hok ?_ (hothers _)
    rw [hhold]
    exact (h.held v.txn).drop (by simp [txnHold, hv, hpc, TxnPc.commits]) (by simp)
  | notify hpc =>
    refine h.update rfl rfl (fun _ => rfl) ?_ trivial h.nodup ?_
    · intro t ht
      simp [requestOf] at ht
    · intro t
      apply h.held_same ?_ rfl
      simp [txnHold, hv, hpc, TxnPc.commits]

theorem TxnInv.step (h : TxnInv s) {a : Act ω κ α} (hs : Scheduler.step s a = some (s', e)) : TxnInv s' := by
  cases step_move hs with
  | createTxn => exact h.createTxn
  | noMemory => exact h.skipTxnId
  | createObject => exact ⟨h.held, h.tasks, h.single, h.cached, h.nodup⟩
  | submit hk hu => exact h.submit hk hu
  | notFound => exact h
  | request hk hc => exact h.request hk hc _
  | object hu hs => exact h.objectMove hu (objectStep_move hs)
  | txn hv hs => exact h.txnMove hv (txnStep_move hs)

end RaleighSL.Core.Scheduler
