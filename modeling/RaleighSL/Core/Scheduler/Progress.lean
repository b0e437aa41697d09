import RaleighSL.Core.Scheduler.Commits

/-!
# Commits and locks do not block each other

The commit and the lock of an object are granted on a word that holds nothing but
their own flag. A write sets the commit flag when its function is over, the barrier
of a transaction sets the lock flag, and a word with both flags and no holder lets
neither of them in. This does not happen in a run in which a flag is set beside the
other one only while somebody holds the commit.
-/
namespace RaleighSL.Core.Scheduler
open RaleighSL.Library RaleighSL.Zcl.RwcSem

variable {ω κ α : Type*} [DecidableEq ω]

/-- A commit and a lock are waited for, nobody holds the semaphore, and neither of them can have it. -/
structure Blocked (s : State ω κ α) (o : ω) : Prop where
  free : ∀ k, objectHold s o k = none
  commit : ∃ k, objectWaits s o k = true
  lock : ∃ k v todo, s.tasks k = some (.txn v) ∧ v.pc = .lock (o :: todo)
  noCommit : (s.objects o).rwc.acquire .commit = none
  noLock : (s.objects o).rwc.acquire .lock = none

/-- The commit flag is set on an object without lock flag, and the lock flag on an object without commit
flag or with somebody who holds the commit. -/
def FlagsApart (s : State ω κ α) : Act ω κ α → Prop
  | .run k _ =>
    match s.tasks k with
    | some (.object u) => u.pc = .flagging → (s.objects u.object).rwc.lock = false
    | some (.txn { pc := .raiseLock o _, .. }) =>
      (s.objects o).rwc.commit = true → ∃ j, objectHold s o j = some .commit
    | _ => True
  | _ => True

instance [Fintype κ] (s : State ω κ α) : (a : Act ω κ α) → Decidable (FlagsApart s a)
  | .run k input =>
    match h : s.tasks k with
    | some (.object u) => decidable_of_iff (u.pc = .flagging → (s.objects u.object).rwc.lock = false)
        (by simp only [FlagsApart, h])
    | some (.txn { txn := t, commitType := c, pc := pc }) =>
      match hpc : pc with
      | .raiseLock o todo => decidable_of_iff
          ((s.objects o).rwc.commit = true → ∃ j, objectHold s o j = some .commit) (by simp only [FlagsApart, h])
      | .flag | .acquire | .barrier | .raisePending _ | .lock _ | .write _ | .commit _ _ _ | .complete _ _
      | .unlock _ | .releaseLock _ _ | .clearPending _ _ _ | .release _ | .notify _ =>
        .isTrue (by simp only [FlagsApart, h])
    | none => .isTrue (by simp only [FlagsApart, h])
  | .createTxn _ => .isTrue trivial
  | .createObject _ => .isTrue trivial
  | .submit _ _ _ _ => .isTrue trivial
  | .request _ _ _ => .isTrue trivial

structure Flagged (x : Sem) (hold : κ → Option Op) (waits : κ → Bool) : Prop where
  flag : ∀ k, waits k = true → x.commit = true
  single : ∀ k k', waits k = true → waits k' = true ∨ Exclusive (hold k') → k' = k
  both : x.commit = true → x.lock = true → ∃ k, hold k = some .commit
  lock : ∀ k, hold k = some .lock → x.commit = false

structure ProgressInv (s : State ω κ α) : Prop where
  exclusion : ExclusionInv s
  flagged : ∀ o, Flagged (s.objects o).rwc (objectHold s o) (objectWaits s o)

variable {s s' : State ω κ α} {k : κ} {u : ObjectTask ω} {v : TxnTask ω} {input : Input α} {e : Event ω κ α}
variable {o : ω} {a : Act ω κ α} {x x' : Sem} {hold : κ → Option Op} {waits : κ → Bool} {h' : Option Op} {w : Bool}

theorem flagged_free : Flagged Sem.free (fun _ : κ => none) (fun _ => false) where
  flag := by simp
  single := by simp
  both := by simp [Sem.free]
  lock := by simp

theorem Flagged.owed (h : Flagged x hold waits) : Owed x hold waits := ⟨h.flag, h.single, h.lock⟩

variable [DecidableEq κ]

/-- A task that gives back something else leaves the holder of the commit alone. -/
theorem Flagged.both_drop (h : Flagged x hold waits) (hheld : Held x hold) {op : Op} (hhold : hold k = some op)
    (hc : (x.drop op).commit = true) (hl : (x.drop op).lock = true) :
    ∃ j, Function.update hold k none j = some .commit := by
  have hother (hop : op ≠ .commit) (hc' : x.commit = true) (hl' : x.lock = true) :
      ∃ j, Function.update hold k none j = some .commit := by
    obtain ⟨j, hj⟩ := h.both hc' hl'
    have hjk : j ≠ k := by
      rintro rfl
      rw [hhold] at hj
      exact hop (Option.some.inj hj)
    exact ⟨j, by rw [Function.update_of_ne hjk]; exact hj⟩
  cases op with
  | read =>
    have hpos : x.readers ≠ 0 := Nat.pos_iff_ne_zero.mp (hheld.release_read hhold).1
    have hdrop : x.drop .read = { x with readers := x.readers - 1 } := by simp [Sem.drop, Sem.release, hpos]
    rw [hdrop] at hc hl
    exact hother (by decide) hc hl
  | write => exact hother (by decide) hc hl
  | commit => exact absurd hc (by simp [Sem.drop, Sem.release, Sem.free])
  | lock => exact absurd hc (by simp [Sem.drop, Sem.release, Sem.free])

/-- Both flags are set only beside somebody who holds the commit. -/
theorem SemMove.both {h' : Option Op} {w : Bool} (hm : SemMove s k o x h' w)
    (h : Flagged (s.objects o).rwc (objectHold s o) (objectWaits s o)) (hheld : Held (s.objects o).rwc (objectHold s o))
    (hapart : FlagsApart s (.run k input)) (hc : x.commit = true) (hl : x.lock = true) :
    ∃ j, Function.update (objectHold s o) k h' j = some .commit := by
  cases hm with
  | @acquire o op x hhold hwaits ha =>
    cases op with
    | commit => exact ⟨k, Function.update_self ..⟩
    | read =>
      simp only [Sem.acquire, Option.ite_none_left_eq_some, Option.some.injEq, not_or, Bool.not_eq_true] at ha
      obtain ⟨⟨hnone, -⟩, rfl⟩ := ha
      exact absurd hc (by simp [hnone])
    | write =>
      simp only [Sem.acquire, Option.ite_none_left_eq_some, Option.some.injEq, not_or, Bool.not_eq_true] at ha
      obtain ⟨⟨-, hnone, -⟩, rfl⟩ := ha
      exact absurd hc (by simp [hnone])
    | lock =>
      simp only [Sem.acquire, Option.ite_none_right_eq_some, Option.some.injEq] at ha
      obtain ⟨hx, rfl⟩ := ha
      exact absurd hc (by simp [hx, Sem.free])
  | @flag u hu hpc =>
    simp only [FlagsApart, hu] at hapart
    rw [show (s.objects u.object).rwc.setCommit.lock = (s.objects u.object).rwc.lock from rfl, hapart hpc] at hl
    exact absurd hl (by decide)
  | @switchRead u current x hu hpc hop hs =>
    simp only [Sem.switch, Option.ite_none_left_eq_some, Option.some.injEq] at hs
    obtain ⟨-, rfl⟩ := hs
    exact absurd hc (by simp [Sem.free])
  | @switchCommit u current x hu hpc hop hs => exact ⟨k, Function.update_self ..⟩
  | @drop u current next result w hu hpc hwaits =>
    have hhold : objectHold s u.object k = some current.op := by
      rw [objectHold_object hu, hpc]
      rfl
    exact h.both_drop hheld hhold hc hl
  | @raise v o todo hv hpc =>
    have hhold : none = objectHold s o k := by simp [objectHold_txn hv, hpc, TxnPc.locked]
    rw [hhold, Function.update_eq_self]
    obtain ⟨t, commitType, pc⟩ := v
    obtain rfl : pc = .raiseLock o todo := hpc
    simp only [FlagsApart, hv] at hapart
    exact hapart hc
  | unlock hhold hwaits => exact h.both_drop hheld hhold hc hl

theorem SemMove.flagged {h' : Option Op} {w : Bool} (hm : SemMove s k o x h' w)
    (h : Flagged (s.objects o).rwc (objectHold s o) (objectWaits s o)) (hheld : Held (s.objects o).rwc (objectHold s o))
    (hapart : FlagsApart s (.run k input)) :
    Flagged x (Function.update (objectHold s o) k h') (Function.update (objectWaits s o) k w) := by
  have howed := hm.owed h.owed hheld
  exact ⟨howed.flag, howed.single, hm.both h hheld hapart, howed.lock⟩

omit [DecidableEq κ] in
theorem init_progressInv : ProgressInv (State.init : State ω κ α) where
  exclusion := init_exclusionInv
  flagged _ := flagged_free

theorem ProgressInv.step (h : ProgressInv s) (hok : ReadersGone s a ∧ FlagsApart s a)
    (hs : Scheduler.step s a = some (s', e)) : ProgressInv s' where
  exclusion := h.exclusion.step hok.1 hs
  flagged o := by
    cases h.exclusion.sem.semStep (o := o) hs with
    | same hx hhold hwaits =>
      rw [hx, hhold, hwaits]
      exact h.flagged o
    | move ha hhold hwaits hm =>
      subst ha
      rw [hhold, hwaits]
      exact hm.flagged (h.flagged o) (h.exclusion.held o) hok.2

omit [DecidableEq κ] in
theorem ProgressInv.not_blocked (h : ProgressInv s) : ¬ Blocked s o := by
  intro hb
  have hheld := h.exclusion.held o
  obtain ⟨k, hk⟩ := hb.commit
  have hcommit : (s.objects o).rwc.commit = true := (h.flagged o).flag k hk
  have hreaders : (s.objects o).rwc.readers = 0 := hheld.readers_eq_zero.mpr (fun j => by simp [hb.free j])
  have hwrite : (s.objects o).rwc.write = false := by
    rw [← Bool.not_eq_true, hheld.write]
    simp [hb.free]
  cases hlock : (s.objects o).rwc.lock with
  | false =>
    have hword : (s.objects o).rwc = { Sem.free with commit := true } := Sem.ext hreaders hwrite hcommit hlock
    have hno := hb.noCommit
    simp [Sem.acquire, hword] at hno
  | true =>
    obtain ⟨j, hj⟩ := (h.flagged o).both hcommit hlock
    rw [hb.free j] at hj
    exact absurd hj (by simp)

/-- In every state of a run in which nobody reads an object when a write on it is released or becomes a
read, and in which the flags are set apart from each other: no object blocks its commit and its lock. -/
theorem run_never_blocked {acts : List (Act ω κ α)} {events : List (Event ω κ α)}
    (hm : Meets step (fun s a => ReadersGone s a ∧ FlagsApart s a) State.init acts)
    (he : exec step State.init acts = some (s, events)) (o : ω) : ¬ Blocked s o := by
  have hinv : ProgressInv s := exec_invariant (fun _ _ _ _ h hok hs => h.step hok hs) init_progressInv hm he
  exact hinv.not_blocked

/-- The barrier is raised while another task holds the commit of the object. -/
def raisedBesideCommit : List (Act Nat (Fin 3) Nat) :=
  List.flatten [[.createObject 0, .createTxn true, .submit 0 0 .write 2], runs 0 5, [.run 0 { atoms := some [7] }],
    runs 0 5, [.submit 1 0 .write 0], runs 1 7, [.request 2 2 .apply], runs 2 6]

theorem run_never_blocked_beside_commit : ∃ s events, exec step State.init raisedBesideCommit = some (s, events) ∧
    (s.objects 0).rwc = { readers := 0, write := true, commit := true, lock := true } ∧ ¬ Blocked s 0 := by
  have hfacts : (exec step State.init raisedBesideCommit).map (fun r => (r.1.objects 0).rwc) =
      some { readers := 0, write := true, commit := true, lock := true } := by
    decide +kernel
  rw [Option.map_eq_some_iff] at hfacts
  obtain ⟨⟨s, events⟩, he, hword⟩ := hfacts
  exact ⟨s, events, he, hword, run_never_blocked (by decide +kernel) he 0⟩

/-- The barrier is raised between a write and its commit flag. -/
def raisedBesideWrite : List (Act Nat (Fin 3) Nat) :=
  List.flatten [[.createObject 0, .createTxn true, .submit 0 0 .write 2], runs 0 5, [.run 0 { atoms := some [7] }],
    runs 0 5, [.submit 1 0 .write 0], runs 1 4, [.request 2 2 .apply], runs 2 6, runs 1 7]

theorem barrier_beside_write_blocks : ∃ s events, exec step State.init raisedBesideWrite = some (s, events) ∧
    Blocked s 0 := by
  have hfacts : (exec step State.init raisedBesideWrite).map (fun r =>
      (decide (∀ k, objectHold r.1 0 k = none), objectWaits r.1 0 1, r.1.tasks 2, (r.1.objects 0).rwc)) =
      some (true, true, some (.txn { txn := 2, commitType := .apply, pc := .lock [0] }),
        { readers := 0, write := false, commit := true, lock := true }) := by
    decide +kernel
  rw [Option.map_eq_some_iff] at hfacts
  obtain ⟨⟨s, events⟩, he, hfacts⟩ := hfacts
  simp only [Prod.mk.injEq, decide_eq_true_eq] at hfacts
  obtain ⟨hfree, hwaits, hlock, hword⟩ := hfacts
  refine ⟨s, events, he, hfree, ⟨1, hwaits⟩, ⟨2, _, [], hlock, rfl⟩, ?_, ?_⟩
  · rw [hword]
    rfl
  · rw [hword]
    rfl

end RaleighSL.Core.Scheduler
