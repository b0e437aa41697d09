import RaleighSL.Core.Scheduler.Semaphores
import Mathlib.Data.Fintype.Basic

/-!
# Transactions exclude the tasks of their objects

A transaction task holds the lock of all its objects while it applies or reverts
its atoms and commits the objects. The semaphore of an object keeps account of its
holders as long as nobody reads when a write is released, or when the write that
opened the object becomes a read. Then no other task runs on an object of a
transaction that is being applied.
-/
namespace RaleighSL.Core.Scheduler
open RaleighSL.Library RaleighSL.Zcl.RwcSem

variable {ω κ α : Type*} [DecidableEq ω]

/-- The task is about to release a write, or to turn one into a read. -/
def ObjectPc.endsWrite (x : Sem) : ObjectPc → Bool
  | .releasing current _ _ => current.op = .write
  | .switching _ .schedRead => !x.commit && !x.lock
  | _ => false

/-- Nobody reads the object when a write on it is released, or when a write turns into a read. -/
def ReadersGone (s : State ω κ α) : Act ω κ α → Prop
  | .run k _ =>
    match s.tasks k with
    | some (.object u) =>
      u.pc.endsWrite (s.objects u.object).rwc = true → ∀ j, objectHold s u.object j ≠ some .read
    | _ => True
  | _ => True

instance [Fintype κ] (s : State ω κ α) : (a : Act ω κ α) → Decidable (ReadersGone s a)
  | .run k input =>
    match h : s.tasks k with
    | some (.object u) => decidable_of_iff
        (u.pc.endsWrite (s.objects u.object).rwc = true → ∀ j, objectHold s u.object j ≠ some .read)
        (by simp only [ReadersGone, h])
    | some (.txn _) => .isTrue (by simp only [ReadersGone, h])
    | none => .isTrue (by simp only [ReadersGone, h])
  | .createTxn _ => .isTrue trivial
  | .createObject _ => .isTrue trivial
  | .submit _ _ _ _ => .isTrue trivial
  | .request _ _ _ => .isTrue trivial

structure ExclusionInv (s : State ω κ α) : Prop where
  sem : SemInv s
  held : ∀ o, Held (s.objects o).rwc (objectHold s o)

variable {s s' : State ω κ α} {k k' : κ} {u : ObjectTask ω} {v : TxnTask ω} {input : Input α} {e : Event ω κ α}
variable {o : ω} {pc : TxnPc ω} {objects : List ω} {a : Act ω κ α}

theorem init_exclusionInv : ExclusionInv (State.init : State ω κ α) where
  sem := init_semInv
  held _ := held_free

/-- Nobody reads when the task ends a write. -/
theorem readers_gone (hheld : Held (s.objects u.object).rwc (objectHold s u.object))
    (hgone : ReadersGone s (.run k input)) (hu : s.tasks k = some (.object u))
    (hends : u.pc.endsWrite (s.objects u.object).rwc = true) : (s.objects u.object).rwc.readers = 0 := by
  simp only [ReadersGone, hu] at hgone
  exact hheld.readers_eq_zero.mpr (hgone hends)

variable [DecidableEq κ]

theorem SemMove.held {x : Sem} {hold : Option Op} {waits : Bool} (hm : SemMove s k o x hold waits)
    (hheld : Held (s.objects o).rwc (objectHold s o)) (hgone : ReadersGone s (.run k input)) :
    Held x (Function.update (objectHold s o) k hold) := by
  cases hm with
  | acquire hhold hwaits ha => exact hheld.acquire hhold ha
  | @flag u hu hpc =>
    have hsame : some .write = objectHold s u.object k := by
      rw [objectHold_object hu, hpc]
      rfl
    rw [hsame, Function.update_eq_self]
    exact hheld.setCommit
  | @switchRead u current x hu hpc hop hs =>
    have hwrite : objectHold s u.object k = some .write := by
      rw [objectHold_object hu, hpc, ← hop]
      rfl
    have hflags : (s.objects u.object).rwc.commit = false ∧ (s.objects u.object).rwc.lock = false := by
      simp only [Sem.switch, Option.ite_none_left_eq_some, not_or, Bool.not_eq_true] at hs
      exact hs.1
    have hreaders := readers_gone hheld hgone hu (by simp [hpc, ObjectPc.endsWrite, hflags])
    exact hheld.switch_read hwrite hreaders hs
  | @switchCommit u current x hu hpc hop hs =>
    have hwrite : objectHold s u.object k = some .write := by
      rw [objectHold_object hu, hpc, ← hop]
      rfl
    exact hheld.switch_commit hwrite hs
  | @drop u current next result waits hu hpc hwaits =>
    have hop : objectHold s u.object k = some current.op := by
      rw [objectHold_object hu, hpc]
      rfl
    apply hheld.drop hop
    intro hwrite
    exact readers_gone hheld hgone hu (by simp [hpc, ObjectPc.endsWrite, hwrite])
  | @raise v o todo hv hpc =>
    have hsame : none = objectHold s o k := by simp [objectHold_txn hv, hpc, TxnPc.locked]
    rw [hsame, Function.update_eq_self]
    exact hheld.setLock
  | unlock hhold hwaits => exact hheld.drop hhold (by simp)

theorem ExclusionInv.step (h : ExclusionInv s) (hgone : ReadersGone s a) (hs : Scheduler.step s a = some (s', e)) :
    ExclusionInv s' where
  sem := h.sem.step hs
  held o := by
    cases h.sem.semStep (o := o) hs with
    | same hx hhold hwaits =>
      rw [hx, hhold]
      exact h.held o
    | move ha hhold hwaits hm =>
      subst ha
      rw [hhold]
      exact hm.held (h.held o) hgone

/-! ### Runs -/

/-- From the first atom to the release of the locks. -/
def TxnPc.applying : TxnPc ω → Bool
  | .write _ => true
  | .commit _ _ _ => true
  | .complete _ _ => true
  | .unlock _ => true
  | _ => false

/-- The task is in a function of the object: an open, a read, a write or a commit of an object task, or the
atoms and the object commit of a transaction task. -/
def Executes (s : State ω κ α) (o : ω) (k : κ) : Prop :=
  (∃ u state, s.tasks k = some (.object u) ∧ u.object = o ∧ u.pc = .running state) ∨
  ∃ v, s.tasks k = some (.txn v) ∧ v.pc.applying = true ∧ o ∈ (s.txns v.txn).objects

theorem TxnPc.locked_applying (h : pc.applying = true) : pc.locked objects = objects := by
  cases pc <;> simp [TxnPc.applying] at h <;> rfl

omit [DecidableEq κ] in
theorem Executes.holds (h : Executes s o k) : objectHold s o k ≠ none := by
  obtain ⟨u, state, hu, ho, hpc⟩ | ⟨v, hv, hpc, ho⟩ := h
  · simp [objectHold, holdOf, hu, ho, hpc, ObjectPc.holds]
  · simp [objectHold, holdOf, hv, TxnPc.locked_applying hpc, ho]

omit [DecidableEq κ] in
theorem ExclusionInv.exclusive (h : ExclusionInv s) (hv : s.tasks k = some (.txn v)) (hpc : v.pc.applying = true)
    (ho : o ∈ (s.txns v.txn).objects) (hne : k' ≠ k) : ¬ Executes s o k' := by
  intro hexec
  have hlock : objectHold s o k = some .lock := by simp [objectHold, holdOf, hv, TxnPc.locked_applying hpc, ho]
  have hreaders := (h.held o).readers_eq_zero.mp ((h.held o).lock k hlock).2 k'
  have hexcl : Exclusive (objectHold s o k') := ⟨hexec.holds, hreaders⟩
  exact hne ((h.held o).single k k' (by rw [hlock]; exact exclusive_lock) hexcl)

/-- In every state of a run in which nobody reads an object when a write on it is released or becomes a
read: between the first atom of a transaction and the release of its locks no other task is in a function
of an object of the transaction. -/
theorem run_applies_alone {acts : List (Act ω κ α)} {events : List (Event ω κ α)}
    (hm : Meets step ReadersGone State.init acts) (he : exec step State.init acts = some (s, events))
    (hv : s.tasks k = some (.txn v)) (hpc : v.pc.applying = true) (ho : o ∈ (s.txns v.txn).objects) (hne : k' ≠ k) :
    ¬ Executes s o k' := by
  have hinv : ExclusionInv s := exec_invariant (fun _ _ _ _ h hok hs => h.step hok hs) init_exclusionInv hm he
  exact hinv.exclusive hv hpc ho hne

instance threeTasks : NeZero 3 := ⟨by decide⟩

/-- A reader that left before the transaction took its object. -/
def readerGone : List (Act Nat (Fin 3) Nat) :=
  List.flatten [[.createObject 0, .createTxn true, .submit 0 0 .write 2], runs 0 5, [.run 0 { atoms := some [7] }],
    runs 0 5, [.submit 1 0 .read 0], runs 1 6, [.request 2 2 .apply], runs 2 9]

theorem run_applies_alone_reader_gone : ∃ s events, exec step State.init readerGone = some (s, events) ∧
    s.tasks 2 = some (.txn { txn := 2, commitType := .apply, pc := .write .apply }) ∧ ¬ Executes s 0 1 := by
  have hfacts : (exec step State.init readerGone).map (fun r => (r.1.tasks 2, (r.1.txns 2).objects)) =
      some (some (.txn { txn := 2, commitType := .apply, pc := .write .apply }), [0]) := by
    decide +kernel
  rw [Option.map_eq_some_iff] at hfacts
  obtain ⟨⟨s, events⟩, he, hfacts⟩ := hfacts
  obtain ⟨hv, hobjects⟩ := Prod.mk.inj hfacts
  refine ⟨s, events, he, hv, ?_⟩
  apply run_applies_alone _ he hv rfl
  · simp only at hobjects
    simp [hobjects]
  · decide
  · decide +kernel

/-- A write that fails while a reader is at work clears the reader from the semaphore, and the transaction
gets the lock of the object. -/
def forgottenReader : List (Act Nat (Fin 4) Nat) :=
  List.flatten [[.createObject 0, .createTxn true, .submit 0 0 .write 2], runs 0 5, [.run 0 { atoms := some [7] }],
    runs 0 5, [.submit 1 0 .read 0], runs 1 4, [.submit 3 0 .write 0], runs 3 4, [.run 3 { errno := .dataKeyExists }],
    runs 3 2, [.request 2 2 .apply], runs 2 9]

theorem forgotten_reader_meets_apply : ∃ s events, exec step State.init forgottenReader = some (s, events) ∧
    s.tasks 2 = some (.txn { txn := 2, commitType := .apply, pc := .write .apply }) ∧
    .applied 2 2 0 7 ∈ events ∧ 0 ∈ (s.txns 2).objects ∧ Executes s 0 1 := by
  have hfacts : (exec step State.init forgottenReader).map (fun r =>
      (r.1.tasks 2, r.1.tasks 1, (r.1.txns 2).objects, decide (.applied 2 2 0 7 ∈ r.2))) =
      some (some (.txn { txn := 2, commitType := .apply, pc := .write .apply }),
        some (.object { object := 0, flags := .read, txn := 0, pc := .running .schedRead }), [0], true) := by
    decide +kernel
  rw [Option.map_eq_some_iff] at hfacts
  obtain ⟨⟨s, events⟩, he, hfacts⟩ := hfacts
  simp only [Prod.mk.injEq, decide_eq_true_eq] at hfacts
  obtain ⟨hv, hu, hobjects, happlied⟩ := hfacts
  refine ⟨s, events, he, hv, happlied, ?_, Or.inl ⟨_, .schedRead, hu, rfl, rfl⟩⟩
  simp [hobjects]

end RaleighSL.Core.Scheduler
