import RaleighSL.Library.Places
import RaleighSL.Library.Run
import RaleighSL.Core.Scheduler.Transactions

/-!
# References to transactions and objects

The caches count who uses a transaction or an object (`tools/cache/cache.c`). A new transaction has the
reference of its creator and the one of the cache; taking it out of the cache gives back one of them and
the task that commits it the other one. An object task has a reference to its transaction from the lookup
on, and one to its object from its first run on. Two of the paths give nothing back: a lookup of a
transaction that is being closed, and a task that has to begin again before its object is open, which
gets the object another time.
-/
namespace RaleighSL.Core.Scheduler
open RaleighSL.Library RaleighSL.Zcl.RwcSem

variable {ω κ α : Type*}

/-- The references of the entries, those to an object without the one of the cache, and how many of them
nobody will give back. -/
structure Refs (ω : Type*) where
  txns : TxnId → Nat
  objects : ω → Nat
  lostTxns : TxnId → Nat
  lostObjects : ω → Nat

namespace Refs

def init : Refs ω := ⟨fun _ => 0, fun _ => 0, fun _ => 0, fun _ => 0⟩

/-- `raleighsl_transaction_create`: the entry has a reference, and its insertion is another one. -/
def create (r : Refs ω) (t : TxnId) : Refs ω := { r with txns := Function.update r.txns t 2 }

/-- `z_cache_lookup`, of an entry that has not been freed. -/
def takeTxn (r : Refs ω) (t : TxnId) : Option (Refs ω) :=
  if r.txns t = 0 then none else some { r with txns := Function.update r.txns t (r.txns t + 1) }

/-- `z_cache_release`, with its assertion. -/
def dropTxn (r : Refs ω) (t : TxnId) : Option (Refs ω) :=
  if r.txns t = 0 then none else some { r with txns := Function.update r.txns t (r.txns t - 1) }

/-- `z_cache_release` of a transaction is left out. -/
def loseTxn (r : Refs ω) (t : TxnId) : Refs ω := { r with lostTxns := Function.update r.lostTxns t (r.lostTxns t + 1) }

variable [DecidableEq ω]

/-- `raleighsl_obj_cache_get`. -/
def takeObject (r : Refs ω) (o : ω) : Refs ω := { r with objects := Function.update r.objects o (r.objects o + 1) }

/-- `raleighsl_obj_cache_release`. -/
def dropObject (r : Refs ω) (o : ω) : Option (Refs ω) :=
  if r.objects o = 0 then none else some { r with objects := Function.update r.objects o (r.objects o - 1) }

def loseObject (r : Refs ω) (o : ω) : Refs ω :=
  { r with lostObjects := Function.update r.lostObjects o (r.lostObjects o + 1) }

end Refs

def countObject [DecidableEq ω] (s : State ω κ α) (r : Refs ω) (u : ObjectTask ω) : Option (Refs ω) :=
  match u.pc with
  | .opening => some (if ((s.txns u.txn).rwc.acquire .read).isSome then r else r.loseTxn u.txn)
  | .start .schedOpen => some (r.takeObject u.object)
  | .check .schedOpen => some (if (s.objects u.object).pendingTxnId ≠ 0 then r.loseObject u.object else r)
  | .waiting .schedOpen => some (r.loseObject u.object)
  | .releasing _ _ (some _) => r.dropObject u.object
  | .finishing => if u.txn = 0 then some r else r.dropTxn u.txn
  | _ => some r

def countTxn (r : Refs ω) (v : TxnTask ω) : Option (Refs ω) :=
  match v.pc with
  | .notify _ => r.dropTxn v.txn
  | _ => some r

def countRefs [DecidableEq ω] (s : State ω κ α) (r : Refs ω) : Act ω κ α → Option (Refs ω)
  | .createTxn alloc => some (if alloc then r.create (s.nextTxnId + 1) else r)
  | .createObject _ => some r
  | .submit _ _ _ t => if t ≠ 0 ∧ (s.txns t).cached then r.takeTxn t else some r
  | .request _ t _ => if (s.txns t).cached then r.dropTxn t else some r
  | .run k _ =>
    match s.tasks k with
    | none => some r
    | some (.object u) => countObject s r u
    | some (.txn v) => countTxn r v

variable [DecidableEq ω] [DecidableEq κ]

def countedStep (s : State ω κ α × Refs ω) (a : Act ω κ α) : Option ((State ω κ α × Refs ω) × Event ω κ α) :=
  (step s.1 a).bind fun x => (countRefs s.1 s.2 a).map fun r => ((x.1, r), x.2)

/-! ### Who has a reference -/

def ObjectPc.hasObject : ObjectPc → Bool
  | .opening | .allocating | .start .schedOpen | .finishing => false
  | _ => true

/-- A task that has opened its object does not open it again. -/
def ObjectPc.Good : ObjectPc → Prop
  | .switching _ next => next ≠ .schedOpen
  | .releasing _ next none => next ≠ .schedOpen
  | _ => True

def usesTxn (t : TxnId) : Option (Task ω) → Nat
  | some (.object u) => if u.txn = t ∧ t ≠ 0 then 1 else 0
  | some (.txn v) => if v.txn = t then 1 else 0
  | none => 0

def usesObject (o : ω) : Option (Task ω) → Nat
  | some (.object u) => if u.object = o ∧ u.pc.hasObject then 1 else 0
  | _ => 0

/-- The references of a transaction in the cache: the one of its creator and the one of the cache. -/
def Txn.kept (x : Txn ω α) : Nat := if x.cached then 2 else 0

def GoodTask : Option (Task ω) → Prop
  | some (.object u) => u.pc.Good
  | _ => True

structure Counted [Fintype κ] (s : State ω κ α) (r : Refs ω) : Prop where
  txn : TxnInv s
  good : ∀ k, GoodTask (s.tasks k)
  txns : ∀ t, r.txns t = (s.txns t).kept + tally (usesTxn t) s.tasks + r.lostTxns t
  objects : ∀ o, r.objects o = tally (usesObject o) s.tasks + r.lostObjects o
  unseen : ∀ t, s.nextTxnId < t → r.lostTxns t = 0

variable {s s' : State ω κ α} {r r' : Refs ω} {k : κ} {u : ObjectTask ω} {v : TxnTask ω} {input : Input α} {e : Event ω κ α}
variable {t : TxnId} {o : ω} {task task' : Option (Task ω)} {a : Act ω κ α}

structure Settles (task : Option (Task ω)) (r : Refs ω) (task' : Option (Task ω)) (r' : Refs ω) : Prop where
  good : GoodTask task'
  txns : ∀ t, r'.txns t + usesTxn t task + r.lostTxns t = r.txns t + usesTxn t task' + r'.lostTxns t
  objects : ∀ o, r'.objects o + usesObject o task + r.lostObjects o = r.objects o + usesObject o task' + r'.lostObjects o
  lost : ∀ t, r'.lostTxns t ≠ r.lostTxns t → 0 < usesTxn t task

omit [DecidableEq ω] [DecidableEq κ] in
theorem Refs.takeTxn_eq (h : 0 < r.txns t) :
    r.takeTxn t = some { r with txns := Function.update r.txns t (r.txns t + 1) } := if_neg (Nat.ne_of_gt h)

omit [DecidableEq ω] [DecidableEq κ] in
theorem Refs.dropTxn_eq (h : 0 < r.txns t) :
    r.dropTxn t = some { r with txns := Function.update r.txns t (r.txns t - 1) } := if_neg (Nat.ne_of_gt h)

section

omit [DecidableEq κ]

theorem Refs.dropObject_eq (h : 0 < r.objects o) :
    r.dropObject o = some { r with objects := Function.update r.objects o (r.objects o - 1) } := if_neg (Nat.ne_of_gt h)

theorem usesObject_at (pc : ObjectPc) : usesObject o (u.at pc) = if u.object = o ∧ pc.hasObject then 1 else 0 := rfl

theorem usesObject_eq_zero (h : u.pc.hasObject = false) : usesObject o (some (.object u)) = 0 := by
  simp [usesObject, h]

theorem usesObject_other (h : u.object ≠ o) : usesObject o (some (.object u)) = 0 := by
  simp [usesObject, h]

theorem usesObject_self (h : u.pc.hasObject = true) : usesObject u.object (some (.object u)) = 1 := by
  simp [usesObject, h]

/-- A task goes on without a change of what it has. -/
theorem settles_at {pc : ObjectPc} (hgood : pc.Good) (hsame : pc.hasObject = u.pc.hasObject) :
    Settles (some (.object u)) r (u.at pc) r where
  good := hgood
  txns _ := rfl
  objects o := by
    rw [usesObject_at, hsame]
    rfl
  lost _ hne := absurd rfl hne

theorem settles_takeObject {pc : ObjectPc} (hgood : pc.Good) (hbefore : u.pc.hasObject = false) (hafter : pc.hasObject = true) :
    Settles (some (.object u)) r (u.at pc) (r.takeObject u.object) where
  good := hgood
  txns _ := rfl
  objects o := by
    rw [usesObject_eq_zero hbefore, usesObject_at, Refs.takeObject]
    dsimp only
    by_cases ho : u.object = o
    · rw [ho, Function.update_self, if_pos ⟨rfl, hafter⟩]
    · rw [Function.update_of_ne (Ne.symm ho), if_neg fun h => ho h.1]
  lost _ hne := absurd rfl hne

theorem settles_loseObject {pc : ObjectPc} (hgood : pc.Good) (hbefore : u.pc.hasObject = true) (hafter : pc.hasObject = false) :
    Settles (some (.object u)) r (u.at pc) (r.loseObject u.object) where
  good := hgood
  txns _ := rfl
  objects o := by
    have hnone : usesObject o (u.at pc) = 0 := usesObject_eq_zero hafter
    rw [hnone, Refs.loseObject]
    dsimp only
    by_cases ho : u.object = o
    · subst ho
      rw [usesObject_self hbefore, Function.update_self]
      omega
    · rw [usesObject_other ho, Function.update_of_ne (Ne.symm ho)]
  lost _ hne := absurd rfl hne

theorem settles_dropObject {pc : ObjectPc} (hgood : pc.Good) (hbefore : u.pc.hasObject = true) (hafter : pc.hasObject = false)
    (hpos : 0 < r.objects u.object) :
    Settles (some (.object u)) r (u.at pc) { r with objects := Function.update r.objects u.object (r.objects u.object - 1) } where
  good := hgood
  txns _ := rfl
  objects o := by
    have hnone : usesObject o (u.at pc) = 0 := usesObject_eq_zero hafter
    rw [hnone]
    dsimp only
    by_cases ho : u.object = o
    · subst ho
      rw [usesObject_self hbefore, Function.update_self]
      omega
    · rw [usesObject_other ho, Function.update_of_ne (Ne.symm ho)]
  lost _ hne := absurd rfl hne

omit [DecidableEq ω] in
theorem usesTxn_object (hu : u.txn ≠ 0) : usesTxn t (some (.object u)) = if u.txn = t then 1 else 0 := by
  by_cases ht : u.txn = t
  · subst ht
    simp [usesTxn, hu]
  · simp [usesTxn, ht]

/-- A task whose transaction is closed goes, with the reference of its lookup. -/
theorem settles_loseTxn (hbefore : u.pc.hasObject = false) (hu : u.txn ≠ 0) :
    Settles (some (.object u)) r none (r.loseTxn u.txn) where
  good := trivial
  txns t := by
    rw [usesTxn_object hu, usesTxn, Refs.loseTxn]
    dsimp only
    by_cases ht : u.txn = t
    · rw [if_pos ht, ht, Function.update_self]
      omega
    · rw [if_neg ht, Function.update_of_ne (Ne.symm ht)]
  objects o := by
    rw [usesObject_eq_zero hbefore]
    rfl
  lost t hne := by
    have ht : u.txn = t := by
      by_contra ht
      exact hne (Function.update_of_ne (Ne.symm ht) _ _)
    rw [usesTxn_object hu, if_pos ht]
    exact Nat.one_pos

theorem settles_leave (hbefore : u.pc.hasObject = false) (hpos : u.txn ≠ 0 → 0 < r.txns u.txn) :
    ∃ r', (if u.txn = 0 then some r else r.dropTxn u.txn) = some r' ∧ Settles (some (.object u)) r none r' := by
  by_cases hu : u.txn = 0
  · refine ⟨r, if_pos hu, trivial, fun t => ?_, fun o => ?_, fun _ hne => absurd rfl hne⟩
    · have hnone : usesTxn t (some (.object u)) = 0 := if_neg fun h => h.2 (h.1 ▸ hu)
      rw [hnone]
      rfl
    · rw [usesObject_eq_zero hbefore]
      rfl
  · have hrefs := hpos hu
    refine ⟨_, (if_neg hu).trans (Refs.dropTxn_eq hrefs), trivial, fun t => ?_, fun o => ?_, fun _ hne => absurd rfl hne⟩
    · rw [usesTxn_object hu, usesTxn]
      dsimp only
      by_cases ht : u.txn = t
      · subst ht
        rw [if_pos rfl, Function.update_self]
        omega
      · rw [if_neg ht, Function.update_of_ne (Ne.symm ht)]
    · rw [usesObject_eq_zero hbefore]
      rfl

end

theorem ObjectBranch.settles (h : ObjectBranch s k u input s' e) (hgood : u.pc.Good) (hopening : u.pc = .opening → u.txn ≠ 0)
    (htxn : u.txn ≠ 0 → 0 < r.txns u.txn) (hobject : u.pc.hasObject = true → 0 < r.objects u.object) :
    ∃ r' task, countObject s r u = some r' ∧ Settles (some (.object u)) r task r' ∧ s'.tasks = Function.update s.tasks k task := by
  have hhas {pc : ObjectPc} {b : Bool} (hpc : u.pc = pc) (hb : pc.hasObject = b) : u.pc.hasObject = b := hpc ▸ hb
  cases h with
  | enter hpc ha =>
    rw [countObject, hpc, ha]
    refine ⟨_, _, rfl, ?_, rfl⟩
    exact settles_at trivial (hhas hpc rfl).symm
  | closed hpc ha =>
    rw [countObject, hpc, ha]
    exact ⟨_, none, rfl, settles_loseTxn (hhas hpc rfl) (hopening hpc), rfl⟩
  | allocate hpc =>
    rw [countObject, hpc]
    refine ⟨_, _, rfl, ?_, rfl⟩
    split_ifs
    · exact settles_at trivial (hhas hpc rfl).symm
    · exact settles_at trivial (hhas hpc rfl).symm
  | @start state hpc =>
    rw [countObject, hpc]
    cases state with
    | schedOpen =>
      refine ⟨_, _, rfl, ?_, rfl⟩
      exact settles_takeObject trivial (hhas hpc rfl) rfl
    | _ =>
      refine ⟨_, _, rfl, ?_, rfl⟩
      exact settles_at trivial (hhas hpc rfl).symm
  | @check state hpc =>
    rw [countObject, hpc]
    cases state with
    | schedOpen =>
      refine ⟨_, _, rfl, ?_, rfl⟩
      by_cases hpending : (s.objects u.object).pendingTxnId = 0
      · rw [if_neg (not_not.mpr hpending), if_neg fun h => h.2 hpending]
        exact settles_at trivial (hhas hpc rfl).symm
      · rw [if_pos hpending, if_pos ⟨by simp, hpending⟩]
        exact settles_loseObject trivial (hhas hpc rfl) rfl
    | _ =>
      refine ⟨_, _, rfl, ?_, rfl⟩
      split_ifs <;> exact settles_at trivial (hhas hpc rfl).symm
  | @woken state hpc =>
    rw [countObject, hpc]
    cases state with
    | schedOpen =>
      refine ⟨_, _, rfl, ?_, rfl⟩
      exact settles_loseObject trivial (hhas hpc rfl) rfl
    | _ =>
      refine ⟨_, _, rfl, ?_, rfl⟩
      exact settles_at trivial (hhas hpc rfl).symm
  | opened hpc =>
    rw [countObject, hpc]
    refine ⟨_, _, rfl, ?_, rfl⟩
    exact settles_at (by cases u.flags <;> simp [ObjectPc.Good, Flags.state]) (hhas hpc rfl).symm
  | read hpc =>
    rw [countObject, hpc]
    refine ⟨_, _, rfl, ?_, rfl⟩
    split_ifs
    · exact settles_at (by simp [ObjectPc.Good]) (hhas hpc rfl).symm
    · exact settles_at trivial (hhas hpc rfl).symm
  | wrote hpc =>
    rw [countObject, hpc]
    refine ⟨_, _, rfl, ?_, by rw [State.setTask_tasks, State.ite_setTxn_tasks]⟩
    exact settles_at trivial (hhas hpc rfl).symm
  | failed hpc =>
    rw [countObject, hpc]
    refine ⟨_, _, rfl, ?_, by rw [State.setTask_tasks, State.ite_setTxn_tasks]⟩
    exact settles_at trivial (hhas hpc rfl).symm
  | flag hpc =>
    rw [countObject, hpc]
    refine ⟨_, _, rfl, ?_, rfl⟩
    exact settles_at (by simp [ObjectPc.Good]) (hhas hpc rfl).symm
  | notSwitched hpc =>
    rw [hpc] at hgood
    rw [countObject, hpc]
    refine ⟨_, _, rfl, ?_, rfl⟩
    exact settles_at hgood (hhas hpc rfl).symm
  | @again current next hpc =>
    rw [hpc] at hgood
    rw [countObject, hpc]
    refine ⟨_, _, rfl, ?_, rfl⟩
    refine settles_at trivial ((hhas hpc rfl).trans ?_).symm
    cases next with
    | schedOpen => exact absurd rfl hgood
    | _ => rfl
  | done hpc =>
    have hpos := hobject (hhas hpc rfl)
    rw [countObject, hpc]
    refine ⟨_, _, Refs.dropObject_eq hpos, ?_, rfl⟩
    exact settles_dropObject trivial (hhas hpc rfl) rfl hpos
  | leave hpc =>
    obtain ⟨r', hr, hsettles⟩ := settles_leave (hhas hpc rfl) htxn
    rw [countObject, hpc]
    exact ⟨r', none, hr, hsettles, by rw [State.setTask_tasks, State.ite_setTxn_tasks]⟩
  | acquire hpc | refused hpc | notOpened hpc | commit hpc | switch hpc =>
    rw [countObject, hpc]
    refine ⟨_, _, rfl, ?_, rfl⟩
    exact settles_at trivial (hhas hpc rfl).symm

theorem ObjectMove.cached (hm : ObjectMove s k u input s') :
    (∀ t, (s'.txns t).cached = (s.txns t).cached) ∧ s'.nextTxnId = s.nextTxnId := by
  have hset (y : Txn ω α) (hy : y.cached = (s.txns u.txn).cached) (t : TxnId) :
      (Function.update s.txns u.txn y t).cached = (s.txns t).cached :=
    (Function.forall_update_iff s.txns (fun t y => y.cached = (s.txns t).cached)).mpr ⟨hy, fun _ _ => rfl⟩ t
  cases hm with
  | enter hpc ha => exact ⟨hset _ rfl, rfl⟩
  | wrote hpc hopening hholds hcommitting =>
    split_ifs
    · exact ⟨fun _ => rfl, rfl⟩
    · exact ⟨hset _ (Txn.afterWrite_cached _), rfl⟩
  | leave hpc =>
    split_ifs
    · exact ⟨fun _ => rfl, rfl⟩
    · exact ⟨hset _ rfl, rfl⟩
  | _ => exact ⟨fun _ => rfl, rfl⟩

theorem TxnMove.cached (hm : TxnMove s k v input s' e) :
    (∀ t, (s'.txns t).cached = (s.txns t).cached) ∧ s'.nextTxnId = s.nextTxnId := by
  have hset (y : Txn ω α) (hy : y.cached = (s.txns v.txn).cached) (t : TxnId) :
      (Function.update s.txns v.txn y t).cached = (s.txns t).cached :=
    (Function.forall_update_iff s.txns (fun t y => y.cached = (s.txns t).cached)).mpr ⟨hy, fun _ _ => rfl⟩ t
  cases hm with
  | flag hpc => exact ⟨hset _ rfl, rfl⟩
  | take hpc ha => exact ⟨hset _ rfl, rfl⟩
  | atom hpc ha => exact ⟨hset _ rfl, rfl⟩
  | complete hpc => exact ⟨hset _ rfl, rfl⟩
  | release hpc => exact ⟨hset _ rfl, rfl⟩
  | _ => exact ⟨fun _ => rfl, rfl⟩

omit [DecidableEq ω] in
theorem countTxn_of_ne (h : ∀ errno, v.pc ≠ .notify errno) : countTxn r v = some r := by
  rw [countTxn]
  split
  · next errno hpc => exact absurd hpc (h errno)
  · rfl

theorem TxnMove.settles (hm : TxnMove s k v input s' e) (hv : s.tasks k = some (.txn v)) (hpos : 0 < r.txns v.txn) :
    ∃ r' task, countTxn r v = some r' ∧ Settles (some (.txn v)) r task r' ∧ s'.tasks = Function.update s.tasks k task := by
  have hat (pc : TxnPc ω) : Settles (some (.txn v)) r (v.at pc) r :=
    ⟨trivial, fun _ => rfl, fun _ => rfl, fun _ hne => absurd rfl hne⟩
  have hstay : s.tasks = Function.update s.tasks k (v.at v.pc) := by
    rw [show v.at v.pc = s.tasks k from hv.symm, Function.update_eq_self]
  cases hm with
  | notify hpc =>
    rw [countTxn, hpc]
    refine ⟨_, none, Refs.dropTxn_eq hpos, ⟨trivial, fun t => ?_, fun _ => rfl, fun _ hne => absurd rfl hne⟩, rfl⟩
    rw [usesTxn, usesTxn]
    dsimp only
    by_cases ht : v.txn = t
    · subst ht
      rw [if_pos rfl, Function.update_self]
      omega
    · rw [if_neg ht, Function.update_of_ne (Ne.symm ht)]
  | retry hpc => exact ⟨r, _, countTxn_of_ne hpc, hat v.pc, hstay⟩
  | atom hpc => exact ⟨r, _, countTxn_of_ne (by simp [hpc]), hat v.pc, hstay⟩
  | flag hpc | take hpc | barrier hpc | raised hpc | raisePending hpc | raiseLock hpc | began hpc | lock hpc | written hpc
  | commit hpc | committed hpc | complete hpc | unlock hpc | unlocked hpc | releaseLock hpc | clearPending hpc
  | release hpc => exact ⟨r, _, countTxn_of_ne (by simp [hpc]), hat _, rfl⟩

omit [DecidableEq ω] [DecidableEq κ] in
/-- Nobody has a transaction that was not created yet. -/
theorem usesTxn_unseen (h : TxnInv s) (ht : s.nextTxnId < t) (j : κ) : usesTxn t (s.tasks j) = 0 := by
  have hok := h.tasks j
  cases htask : s.tasks j with
  | none => rfl
  | some task =>
    rw [htask] at hok
    cases task with
    | object u => exact if_neg fun hu => absurd hok.1 (by rw [hu.1]; exact Nat.not_le.mpr ht)
    | txn v => exact if_neg fun hv => absurd hok.2.1 (by rw [hv]; exact Nat.not_le.mpr ht)

variable [Fintype κ]

theorem Counted.update (h : Counted s r) (hinv : TxnInv s') (htasks : s'.tasks = Function.update s.tasks k task)
    (hsettles : Settles (s.tasks k) r task r') (hcached : ∀ t, (s'.txns t).cached = (s.txns t).cached)
    (hnext : s'.nextTxnId = s.nextTxnId) : Counted s' r' where
  txn := hinv
  good j := by
    rw [htasks]
    by_cases hj : j = k
    · rw [hj, Function.update_self]
      exact hsettles.good
    · rw [Function.update_of_ne hj]
      exact h.good j
  txns t := by
    have htally := tally_update (usesTxn t) s.tasks k task
    have hbefore := h.txns t
    have hchange := hsettles.txns t
    rw [htasks, Txn.kept, hcached]
    rw [Txn.kept] at hbefore
    omega
  objects o := by
    have htally := tally_update (usesObject o) s.tasks k task
    have hbefore := h.objects o
    have hchange := hsettles.objects o
    rw [htasks]
    omega
  unseen t ht := by
    rw [hnext] at ht
    by_contra hne
    have hlost : r'.lostTxns t ≠ r.lostTxns t := by
      rw [h.unseen t ht]
      exact hne
    have huses := hsettles.lost t hlost
    rw [usesTxn_unseen h.txn ht] at huses
    exact Nat.lt_irrefl 0 huses

omit [DecidableEq κ] in
theorem Counted.txn_pos (h : Counted s r) (huses : 0 < usesTxn t (s.tasks k)) : 0 < r.txns t := by
  have hle := le_tally (usesTxn t) s.tasks k
  rw [h.txns]
  omega

omit [DecidableEq κ] in
theorem Counted.object_pos (h : Counted s r) (huses : 0 < usesObject o (s.tasks k)) : 0 < r.objects o := by
  have hle := le_tally (usesObject o) s.tasks k
  rw [h.objects]
  omega

omit [DecidableEq κ] in
theorem Counted.createTxn (h : Counted s r) :
    Counted { s.setTxn (s.nextTxnId + 1) .fresh with nextTxnId := s.nextTxnId + 1 } (r.create (s.nextTxnId + 1)) where
  txn := h.txn.createTxn
  good := h.good
  txns t := by
    show Function.update r.txns (s.nextTxnId + 1) 2 t =
      (Function.update s.txns (s.nextTxnId + 1) Txn.fresh t).kept + tally (usesTxn t) s.tasks + r.lostTxns t
    by_cases ht : t = s.nextTxnId + 1
    · have hlt : s.nextTxnId < t := ht ▸ Nat.lt_succ_self _
      have hnone : tally (usesTxn t) s.tasks = 0 := tally_eq_zero.mpr (usesTxn_unseen h.txn hlt)
      rw [hnone, h.unseen t hlt, ht, Function.update_self, Function.update_self]
      rfl
    · rw [Function.update_of_ne ht, Function.update_of_ne ht]
      exact h.txns t
  objects := h.objects
  unseen t ht := h.unseen t (Nat.lt_of_succ_lt ht)

theorem Counted.request (h : Counted s r) (hk : s.tasks k = none) (hc : (s.txns t).cached = true) (commitType : CommitType) :
    ∃ r', r.dropTxn t = some r' ∧ Counted ((s.setTxn t { s.txns t with cached := false }).setTask k
      (some (.txn { txn := t, commitType := commitType, pc := .flag }))) r' := by
  have htwo : 2 ≤ r.txns t := by
    rw [h.txns, Txn.kept, if_pos hc]
    omega
  refine ⟨_, Refs.dropTxn_eq (by omega), h.txn.request hk hc commitType, fun j => ?_, fun t' => ?_, fun o => ?_, h.unseen⟩
  · show GoodTask (Function.update s.tasks k _ j)
    by_cases hj : j = k
    · rw [hj, Function.update_self]
      trivial
    · rw [Function.update_of_ne hj]
      exact h.good j
  · have htally := tally_update (usesTxn t') s.tasks k (some (.txn { txn := t, commitType := commitType, pc := .flag }))
    have hbefore := h.txns t'
    have hnone : usesTxn t' (none : Option (Task ω)) = 0 := rfl
    rw [hk, hnone, usesTxn] at htally
    dsimp only [State.setTask_tasks, State.setTask_txns, State.setTxn_tasks, State.setTxn_txns]
    by_cases ht : t = t'
    · subst ht
      rw [Txn.kept, if_pos hc] at hbefore
      rw [if_pos rfl] at htally
      rw [Function.update_self, Function.update_self, Txn.kept, if_neg Bool.false_ne_true]
      omega
    · rw [if_neg ht] at htally
      rw [Function.update_of_ne (Ne.symm ht), Function.update_of_ne (Ne.symm ht)]
      omega
  · have htally := tally_update (usesObject o) s.tasks k (some (.txn { txn := t, commitType := commitType, pc := .flag }))
    have hbefore := h.objects o
    have hnone : usesObject o (none : Option (Task ω)) = 0 := rfl
    have hnone' (v : TxnTask ω) : usesObject o (some (.txn v)) = 0 := rfl
    rw [hk, hnone, hnone'] at htally
    dsimp only [State.setTask_tasks, State.setTxn_tasks]
    omega

theorem Counted.submit (h : Counted s r) (hk : s.tasks k = none)
    (hu : u.pc = .allocating ∧ u.txn = 0 ∨ u.pc = .opening ∧ (s.txns u.txn).cached = true) :
    ∃ r', (if u.txn ≠ 0 ∧ (s.txns u.txn).cached then r.takeTxn u.txn else some r) = some r' ∧
      Counted (s.setTask k (some (.object u))) r' := by
  have hnone : u.pc.hasObject = false := by
    rcases hu with ⟨hpc, -⟩ | ⟨hpc, -⟩ <;> rw [hpc] <;> rfl
  have hgood : u.pc.Good := by
    rcases hu with ⟨hpc, -⟩ | ⟨hpc, -⟩ <;> rw [hpc] <;> trivial
  have hobject (o : ω) : usesObject o (some (.object u)) = 0 := usesObject_eq_zero hnone
  have hinv : TxnInv (s.setTask k (some (.object u))) := h.txn.submit hk hu
  by_cases h0 : u.txn = 0
  · refine ⟨r, if_neg fun h => h.1 h0, h.update hinv rfl ⟨hgood, fun t => ?_, fun o => ?_, fun _ hne => absurd rfl hne⟩
      (fun _ => rfl) rfl⟩
    · have hzero : usesTxn t (some (.object u)) = 0 := if_neg fun h => h.2 (h.1 ▸ h0)
      rw [hk, hzero]
      rfl
    · rw [hk, hobject]
      rfl
  · have hc : (s.txns u.txn).cached = true := by
      rcases hu with ⟨-, h0'⟩ | ⟨-, hc⟩
      · exact absurd h0' h0
      · exact hc
    have hpos : 0 < r.txns u.txn := by
      rw [h.txns, Txn.kept, if_pos hc]
      omega
    refine ⟨_, (if_pos ⟨h0, hc⟩).trans (Refs.takeTxn_eq hpos), h.update hinv rfl
      ⟨hgood, fun t => ?_, fun o => ?_, fun _ hne => absurd rfl hne⟩ (fun _ => rfl) rfl⟩
    · rw [hk, usesTxn_object h0]
      have hzero : usesTxn t (none : Option (Task ω)) = 0 := rfl
      rw [hzero]
      dsimp only
      by_cases ht : u.txn = t
      · subst ht
        rw [if_pos rfl, Function.update_self]
      · rw [if_neg ht, Function.update_of_ne (Ne.symm ht)]
    · rw [hk, hobject]
      rfl

theorem Counted.run (h : Counted s r) (hs : Scheduler.step s (.run k input) = some (s', e)) :
    ∃ r', countRefs s r (.run k input) = some r' ∧ Counted s' r' := by
  have hinv := h.txn.step hs
  have hok := h.txn.tasks k
  have hgood := h.good k
  rw [countRefs]
  cases htask : s.tasks k with
  | none =>
    rw [Scheduler.step, htask] at hs
    cases hs
  | some task =>
    rw [htask] at hok hgood
    cases task with
    | object u =>
      have hstep : objectStep s k u input = some (s', e) := by
        rw [Scheduler.step, htask] at hs
        exact hs
      have htxn (hne : u.txn ≠ 0) : 0 < r.txns u.txn := h.txn_pos (k := k) (by
        rw [htask, usesTxn_object hne, if_pos rfl]
        exact Nat.one_pos)
      have hobject (hhas : u.pc.hasObject = true) : 0 < r.objects u.object := h.object_pos (k := k) (by
        rw [htask, usesObject_self hhas]
        exact Nat.one_pos)
      obtain ⟨r', task, hr, hsettles, htasks⟩ := (objectStep_branch hstep).settles hgood hok.2 htxn hobject
      obtain ⟨hcached, hnext⟩ := (objectStep_move hstep).cached
      exact ⟨r', hr, h.update hinv htasks (htask ▸ hsettles) hcached hnext⟩
    | txn v =>
      have hstep : txnStep s k v input = some (s', e) := by
        rw [Scheduler.step, htask] at hs
        exact hs
      have hpos : 0 < r.txns v.txn := h.txn_pos (k := k) (by
        rw [htask, usesTxn, if_pos rfl]
        exact Nat.one_pos)
      obtain ⟨r', task, hr, hsettles, htasks⟩ := (txnStep_move hstep).settles htask hpos
      obtain ⟨hcached, hnext⟩ := (txnStep_move hstep).cached
      exact ⟨r', hr, h.update hinv htasks (htask ▸ hsettles) hcached hnext⟩

/-- Every step of the system finds the references it gives back, and keeps account of them. -/
theorem Counted.step (h : Counted s r) (hs : Scheduler.step s a = some (s', e)) :
    ∃ r', countedStep (s, r) a = some ((s', r'), e) ∧ Counted s' r' := by
  have hinv := h.txn.step hs
  obtain ⟨r', hr, hcounted⟩ : ∃ r', countRefs s r a = some r' ∧ Counted s' r' := by
    cases a with
    | createTxn alloc =>
      obtain ⟨rfl, -⟩ := Prod.mk.inj (Option.some.inj hs)
      cases alloc with
      | true => exact ⟨_, rfl, h.createTxn⟩
      | false => exact ⟨r, rfl, hinv, h.good, h.txns, h.objects, fun t ht => h.unseen t (Nat.lt_of_succ_lt ht)⟩
    | createObject o =>
      obtain ⟨rfl, -⟩ := Prod.mk.inj (Option.some.inj hs)
      exact ⟨r, rfl, hinv, h.good, h.txns, h.objects, h.unseen⟩
    | submit k o flags t =>
      simp only [Scheduler.step, ite_not] at hs
      split_ifs at hs with hk h0 hc
      · obtain ⟨rfl, -⟩ := Prod.mk.inj (Option.some.inj hs)
        exact h.submit (u := { object := o, flags := flags, txn := t, pc := .allocating }) hk (.inl ⟨rfl, h0⟩)
      · obtain ⟨rfl, -⟩ := Prod.mk.inj (Option.some.inj hs)
        exact h.submit (u := { object := o, flags := flags, txn := t, pc := .opening }) hk (.inr ⟨rfl, hc⟩)
      · obtain ⟨rfl, -⟩ := Prod.mk.inj (Option.some.inj hs)
        exact ⟨r, if_neg fun h => hc h.2, h⟩
    | request k t commitType =>
      simp only [Scheduler.step, ite_not] at hs
      split_ifs at hs with hk hc
      · obtain ⟨rfl, -⟩ := Prod.mk.inj (Option.some.inj hs)
        obtain ⟨r', hr, hcounted⟩ := h.request hk hc commitType
        exact ⟨r', (if_pos hc).trans hr, hcounted⟩
      · obtain ⟨rfl, -⟩ := Prod.mk.inj (Option.some.inj hs)
        exact ⟨r, if_neg hc, h⟩
    | run k input => exact h.run hs
  refine ⟨r', ?_, hcounted⟩
  rw [countedStep, hs, Option.bind_some, hr]
  rfl

omit [DecidableEq κ] in
theorem counted_init : Counted (State.init : State ω κ α) Refs.init where
  txn := init_txnInv
  good _ := trivial
  txns t := by
    have hnone : tally (usesTxn t) (State.init : State ω κ α).tasks = 0 := tally_eq_zero.mpr fun _ => rfl
    rw [hnone]
    rfl
  objects o := by
    have hnone : tally (usesObject o) (State.init : State ω κ α).tasks = 0 := tally_eq_zero.mpr fun _ => rfl
    rw [hnone]
    rfl
  unseen _ _ := rfl

/-- In every run of the system no release finds its entry without a reference, and no lookup one that was freed. The
references of a transaction are two while it is in the cache, one for each of its tasks and those of refused lookups;
it is freed when its commit and all tasks of it are over, if no lookup was refused, and never before. An object has,
beside the one of the cache, one for each task that has got it and those of the tasks that had to begin again. -/
theorem run_references {acts : List (Act ω κ α)} {es : List (Event ω κ α)} (he : exec step State.init acts = some (s, es)) :
    ∃ r, exec countedStep (State.init, Refs.init) acts = some ((s, r), es) ∧
      (∀ t, r.txns t = (s.txns t).kept + tally (usesTxn t) s.tasks + r.lostTxns t) ∧
      (∀ o, r.objects o = tally (usesObject o) s.tasks + r.lostObjects o) ∧
      ∀ t, r.txns t = 0 ↔ (s.txns t).cached = false ∧ (∀ k, usesTxn t (s.tasks k) = 0) ∧ r.lostTxns t = 0 := by
  obtain ⟨⟨s₁, r⟩, hexec, rfl, hcounted⟩ := exec_follows (A := countedStep)
    (R := fun (s : State ω κ α) (x : State ω κ α × Refs ω) => x.1 = s ∧ Counted s x.2) (C := fun _ _ => True)
    (fun s x i s' e hR _ hs => by
      obtain ⟨rfl, hcounted⟩ := hR
      obtain ⟨r', hstep, hcounted'⟩ := hcounted.step hs
      exact ⟨(s', r'), hstep, rfl, hcounted'⟩)
    (a := (State.init, Refs.init)) ⟨rfl, counted_init⟩ (meets_of_forall (fun _ _ => trivial) _ _) he
  refine ⟨r, hexec, hcounted.txns, hcounted.objects, fun t => ?_⟩
  rw [hcounted.txns, Nat.add_eq_zero_iff, Nat.add_eq_zero_iff, tally_eq_zero, and_assoc]
  refine and_congr_left fun _ => ?_
  rw [Txn.kept]
  cases (s₁.txns t).cached <;> simp

/-- A task has looked up its transaction, and finds it closed. -/
def refusedLookup : List (Act Nat (Fin 3) Nat) :=
  List.flatten [[.createObject 0, .createTxn true, .submit 0 0 .write 2], runs 0 5, [.run 0 { atoms := some [7] }], runs 0 5,
    [.submit 1 0 .read 2, .request 2 2 .apply], runs 2 1, runs 1 1, runs 2 18]

theorem run_references_refused : ∃ s es r, exec step State.init refusedLookup = some (s, es) ∧
    exec countedStep (State.init, Refs.init) refusedLookup = some ((s, r), es) ∧
    (∀ t, r.txns t = (s.txns t).kept + tally (usesTxn t) s.tasks + r.lostTxns t) ∧
    (∀ o, r.objects o = tally (usesObject o) s.tasks + r.lostObjects o) ∧
    ∀ t, r.txns t = 0 ↔ (s.txns t).cached = false ∧ (∀ k, usesTxn t (s.tasks k) = 0) ∧ r.lostTxns t = 0 := by
  have hsome : (exec step State.init refusedLookup).isSome := by decide +kernel
  obtain ⟨⟨s, es⟩, he⟩ := Option.isSome_iff_exists.mp hsome
  obtain ⟨r, hr⟩ := run_references he
  exact ⟨s, es, r, he, hr⟩

example : (exec countedStep (State.init, Refs.init) refusedLookup).map (fun x => (x.1.2.txns 2, x.1.2.lostTxns 2, x.2.getLast?)) =
    some (1, 1, some (.txnNotified 2 2 .none)) := by
  decide +kernel

end RaleighSL.Core.Scheduler
