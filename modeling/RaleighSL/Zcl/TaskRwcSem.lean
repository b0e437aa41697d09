import RaleighSL.Zcl.RwcSem
import RaleighSL.Library.Run
import Mathlib.Data.Fintype.Basic

/-!
# Wait queues of the semaphore

`core/global/task.c` adds four wait queues to the semaphore word. A task whose try
fails puts itself in the queue of its operation in a second step, under a lock of
its own. A release changes the word first and then, with the word it has left
behind, takes out of the queues whatever that word lets run. The transactions also
take and give back reads on the word alone, past the queues.

A task is stranded if it sits in a queue while the word lets its operation through
and nobody holds the semaphore or is about to look at the queues. No run strands a
task if its steps keep to the condition below; without it two short runs do.
-/
namespace RaleighSL.Zcl.TaskRwcSem
open RaleighSL.Library RaleighSL.Zcl.RwcSem

inductive Phase where
  | idle
  | refused (op : Op)
  | waiting (op : Op)
  | holds (op : Op)
  | draining (state : Word) (isComplete : Bool)
  deriving DecidableEq

structure State (ι : Type*) where
  word : Word
  queue : Op → List ι
  phase : ι → Phase

/-- The atomic steps of `z_task_rwcsem_acquire` (`acquire`, then `enqueue` if the try fails) and of
`z_task_rwcsem_release` (`release`, then `drain`), and the calls that go to the word alone. -/
inductive Act (ι : Type*) where
  | acquire (k : ι) (op : Op)
  | enqueue (k : ι)
  | release (k : ι) (isComplete : Bool)
  | drain (k : ι)
  | tryAcquireRead (k : ι)
  | releaseRead (k : ι)
  | setCommit (k : ι)
  | setLock (k : ι)
  | switch (k : ι) (next : Op)

/-- `z_rwcsem_is_readable`, `is_writable`, `is_committable` and `is_lockable`. -/
def Runnable : Op → Word → Prop
  | .read, state => state &&& rwMask = state
  | .write, state => state &&& readersMask = state
  | .commit, state => state &&& commitFlag = state
  | .lock, state => state &&& lockFlag = state

instance : (op : Op) → (state : Word) → Decidable (Runnable op state)
  | .read, state => inferInstanceAs (Decidable (state &&& rwMask = state))
  | .write, state => inferInstanceAs (Decidable (state &&& readersMask = state))
  | .commit, state => inferInstanceAs (Decidable (state &&& commitFlag = state))
  | .lock, state => inferInstanceAs (Decidable (state &&& lockFlag = state))

variable {ι : Type*}

/-- The tasks `__task_rwcsem_runnables` takes out of one queue. -/
def runnables (queue : Op → List ι) (state : Word) (op : Op) : List ι :=
  if Runnable op state then queue op else []

def wake (queue : Op → List ι) (state : Word) : List ι :=
  runnables queue state .read ++ runnables queue state .write ++ runnables queue state .commit ++
    runnables queue state .lock

variable [DecidableEq ι]

def State.init : State ι := { word := 0#32, queue := fun _ => [], phase := fun _ => .idle }

/-- One atomic step and the tasks it gives to the dispatcher. A call whose round cannot take place spins
and has no result, and neither has a call of a task that is not in a position to make it. -/
def step (s : State ι) : Act ι → Option (State ι × List ι)
  | .acquire k op =>
    if s.phase k ≠ .idle then none
    else
      match tryAcquire op s.word with
      | .ret _ => some ({ s with phase := Function.update s.phase k (.refused op) }, [])
      | .swap expval newval =>
        if s.word = expval then
          some ({ s with word := newval, phase := Function.update s.phase k (.holds op) }, [])
        else none
  | .enqueue k =>
    match s.phase k with
    | .refused op =>
      some ({ s with queue := Function.update s.queue op (s.queue op ++ [k]),
                     phase := Function.update s.phase k (.waiting op) }, [])
    | _ => none
  | .release k isComplete =>
    match s.phase k with
    | .holds op =>
      ((release op s.word).cas s.word).map
        (fun w => ({ s with word := w, phase := Function.update s.phase k (.draining w isComplete) }, []))
    | _ => none
  | .drain k =>
    match s.phase k with
    | .draining state isComplete =>
      some ({ s with queue := fun op => if Runnable op state then [] else s.queue op,
                     phase := fun j => if j = k ∨ j ∈ wake s.queue state then .idle else s.phase j },
        if isComplete then wake s.queue state else k :: wake s.queue state)
    | _ => none
  | .tryAcquireRead k =>
    if s.phase k ≠ .idle then none
    else
      match tryAcquire .read s.word with
      | .ret _ => some (s, [])
      | .swap expval newval =>
        if s.word = expval then
          some ({ s with word := newval, phase := Function.update s.phase k (.holds .read) }, [])
        else none
  | .releaseRead k =>
    if s.phase k = .holds .read then
      ((release .read s.word).cas s.word).map
        (fun w => ({ s with word := w, phase := Function.update s.phase k .idle }, []))
    else none
  | .setCommit _ => ((setCommitFlag s.word).cas s.word).map (fun w => ({ s with word := w }, []))
  | .setLock _ => ((setLockFlag s.word).cas s.word).map (fun w => ({ s with word := w }, []))
  | .switch k next =>
    match s.phase k with
    | .holds op =>
      match trySwitch op next s.word with
      | .ret v => some (if v = 0#32 then s else { s with phase := Function.update s.phase k (.holds next) }, [])
      | .swap expval newval =>
        if s.word = expval then
          some ({ s with word := newval, phase := Function.update s.phase k (.holds next) }, [])
        else none
    | _ => none

/-- A try of the operation would succeed on this word. -/
def Allows (w : Word) (op : Op) : Prop := ((tryAcquire op w).cas w).isSome

instance (w : Word) (op : Op) : Decidable (Allows w op) := inferInstanceAs (Decidable (_ = true))

/-- The task holds the semaphore or is about to drain its queues. -/
def Phase.Active : Phase → Prop
  | .holds _ => True
  | .draining _ _ => True
  | _ => False

/-- The task holds the semaphore, or the word it drains with wakes the operation. -/
def Phase.Covers (op : Op) : Phase → Prop
  | .holds _ => True
  | .draining state _ => Runnable op state
  | _ => False

instance : (p : Phase) → Decidable p.Active
  | .idle => .isFalse id
  | .refused _ => .isFalse id
  | .waiting _ => .isFalse id
  | .holds _ => .isTrue trivial
  | .draining _ _ => .isTrue trivial

instance (op : Op) : (p : Phase) → Decidable (p.Covers op)
  | .idle => .isFalse id
  | .refused _ => .isFalse id
  | .waiting _ => .isFalse id
  | .holds _ => .isTrue trivial
  | .draining state _ => inferInstanceAs (Decidable (Runnable op state))

/-- A task sits in a queue, its operation would go through and nobody will come to wake it. -/
def Stranded (s : State ι) : Prop :=
  (∃ op, ∃ k ∈ s.queue op, Allows s.word op) ∧ ∀ j, ¬ (s.phase j).Active

/-- No step leaves behind a queued task that could run and that no other task will look after: a task
whose try failed does not reach its queue after the word has come to allow its operation, a read given
back on the word alone is not the last thing in the way of a queued task, and a flag is not the only
thing a queued task still waits for. -/
def WakeOk (s : State ι) : Act ι → Prop
  | .enqueue k => ∀ op, s.phase k = .refused op → Allows s.word op → ∃ j, (s.phase j).Covers op
  | .releaseRead k => ∀ op, s.queue op ≠ [] → Allows (s.word - 1#32) op → ∃ j, j ≠ k ∧ (s.phase j).Covers op
  | .setCommit _ => s.word = 0#32 → s.queue .commit ≠ [] → ∃ j, (s.phase j).Covers .commit
  | .setLock _ => s.word = 0#32 → s.queue .lock ≠ [] → ∃ j, (s.phase j).Covers .lock
  | _ => True

instance : Fintype Op where
  elems := {.read, .write, .commit, .lock}
  complete op := by cases op <;> decide

instance [Fintype ι] (s : State ι) : (a : Act ι) → Decidable (WakeOk s a)
  | .acquire _ _ => .isTrue trivial
  | .enqueue k =>
    inferInstanceAs (Decidable (∀ op, s.phase k = .refused op → Allows s.word op → ∃ j, (s.phase j).Covers op))
  | .release _ _ => .isTrue trivial
  | .drain _ => .isTrue trivial
  | .tryAcquireRead _ => .isTrue trivial
  | .releaseRead k =>
    inferInstanceAs (Decidable (∀ op, s.queue op ≠ [] → Allows (s.word - 1#32) op →
      ∃ j, j ≠ k ∧ (s.phase j).Covers op))
  | .setCommit _ =>
    inferInstanceAs (Decidable (s.word = 0#32 → s.queue .commit ≠ [] → ∃ j, (s.phase j).Covers .commit))
  | .setLock _ =>
    inferInstanceAs (Decidable (s.word = 0#32 → s.queue .lock ≠ [] → ∃ j, (s.phase j).Covers .lock))
  | .switch _ _ => .isTrue trivial

theorem Allows.runnable {w : Word} {op : Op} (h : Allows w op) : Runnable op w := by
  cases op with
  | read =>
    simp only [Allows, tryAcquire, RwcSem.tryAcquireRead] at h
    split_ifs at h with hc
    · simp [Round.cas] at h
    · simp only [Round.cas] at h
      split_ifs at h with he
      · exact he.symm
      · simp at h
  | write =>
    simp only [Allows, tryAcquire, tryAcquireWrite] at h
    split_ifs at h with hc
    · simp [Round.cas] at h
    · simp only [Round.cas] at h
      split_ifs at h with he
      · exact he.symm
      · simp at h
  | commit =>
    simp only [Allows, tryAcquire, tryAcquireCommit] at h
    split_ifs at h with hc
    · simp [Round.cas] at h
    · obtain rfl := not_not.mp hc
      show commitFlag &&& commitFlag = commitFlag
      exact BitVec.and_self
  | lock =>
    simp only [Allows, tryAcquire, tryAcquireLock] at h
    split_ifs at h with hc
    · simp [Round.cas] at h
    · obtain rfl := not_not.mp hc
      show lockFlag &&& lockFlag = lockFlag
      exact BitVec.and_self

theorem mask_ne_of_flag {w f m : Word} (hm : m &&& f = 0#32) (hf : f ≠ 0#32) : (w ||| f) &&& m ≠ w ||| f := by
  intro h
  have hflag : (w ||| f) &&& f = f := by
    ext j hj
    simp only [BitVec.getElem_and, BitVec.getElem_or]
    cases f[j] <;> simp
  rw [← h, BitVec.and_assoc, hm, BitVec.and_zero] at hflag
  exact hf hflag.symm

theorem eq_of_or_twoPow {w : Word} {i : Nat}
    (h : (w ||| BitVec.twoPow 32 i) &&& BitVec.twoPow 32 i = w ||| BitVec.twoPow 32 i) :
    w = 0#32 ∨ w = BitVec.twoPow 32 i := by
  have hand : w &&& BitVec.twoPow 32 i = w := by
    ext j hj
    have hj' := congrArg (fun v : Word => v[j]) h
    simp only [BitVec.getElem_and, BitVec.getElem_or] at hj' ⊢
    cases hw : w[j] <;> simp_all
  rw [BitVec.and_twoPow] at hand
  split_ifs at hand
  · exact Or.inr hand.symm
  · exact Or.inl hand.symm

/-- Setting a flag makes way at most for the operation of that flag, and only if no other field is set. -/
theorem Allows.of_setCommit {w : Word} {op : Op} (h : Allows (w ||| commitFlag) op) :
    op = .commit ∧ (w = 0#32 ∨ w = commitFlag) := by
  have hrun := h.runnable
  cases op with
  | read => exact absurd hrun (mask_ne_of_flag (by decide) (by decide))
  | write => exact absurd hrun (mask_ne_of_flag (by decide) (by decide))
  | commit => exact ⟨rfl, eq_of_or_twoPow (i := 30) hrun⟩
  | lock => exact absurd hrun (mask_ne_of_flag (by decide) (by decide))

theorem Allows.of_setLock {w : Word} {op : Op} (h : Allows (w ||| lockFlag) op) :
    op = .lock ∧ (w = 0#32 ∨ w = lockFlag) := by
  have hrun := h.runnable
  cases op with
  | read => exact absurd hrun (mask_ne_of_flag (by decide) (by decide))
  | write => exact absurd hrun (mask_ne_of_flag (by decide) (by decide))
  | commit => exact absurd hrun (mask_ne_of_flag (by decide) (by decide))
  | lock => exact ⟨rfl, eq_of_or_twoPow (i := 31) hrun⟩

/-! ### Runs -/

/-- The tasks in the queues wait there, and for each of them that could run somebody will come. -/
structure Inv (s : State ι) : Prop where
  waits : ∀ op, ∀ k ∈ s.queue op, s.phase k = .waiting op
  covered : ∀ op, s.queue op ≠ [] → Allows s.word op → ∃ j, (s.phase j).Covers op

omit [DecidableEq ι] in
theorem init_inv : Inv (State.init : State ι) where
  waits _ _ hk := absurd hk List.not_mem_nil
  covered _ h := absurd rfl h

variable {s s' : State ι} {a : Act ι} {k : ι} {out : List ι}

theorem Inv.waits_update (h : Inv s) (hk : ∀ op, s.phase k ≠ .waiting op) (p : Phase) (op : Op) (j : ι)
    (hj : j ∈ s.queue op) : Function.update s.phase k p j = .waiting op := by
  have hne : j ≠ k := by
    rintro rfl
    exact hk op (h.waits op j hj)
  rw [Function.update_of_ne hne]
  exact h.waits op j hj

theorem covers_update {op : Op} {p : Phase} (hk : ¬ (s.phase k).Covers op) (h : ∃ j, (s.phase j).Covers op) :
    ∃ j, (Function.update s.phase k p j).Covers op := by
  obtain ⟨j, hj⟩ := h
  have hne : j ≠ k := by
    rintro rfl
    exact hk hj
  refine ⟨j, ?_⟩
  rw [Function.update_of_ne hne]
  exact hj

/-- A task that comes to hold the semaphore covers every queue. -/
theorem Inv.hold (h : Inv s) (hk : ∀ op, s.phase k ≠ .waiting op) (w : Word) (op : Op) :
    Inv { s with word := w, phase := Function.update s.phase k (.holds op) } where
  waits := h.waits_update hk _
  covered op' _ _ := by
    refine ⟨k, ?_⟩
    simp only [Function.update_self]
    trivial

theorem Inv.refuse (h : Inv s) (hk : s.phase k = .idle) (op : Op) :
    Inv { s with phase := Function.update s.phase k (.refused op) } where
  waits := h.waits_update (by simp [hk]) _
  covered op' hq ha := covers_update (by rw [hk]; exact id) (h.covered op' hq ha)

theorem Inv.enqueue (h : Inv s) {op : Op} (hk : s.phase k = .refused op)
    (hok : Allows s.word op → ∃ j, (s.phase j).Covers op) :
    Inv { s with queue := Function.update s.queue op (s.queue op ++ [k]),
                 phase := Function.update s.phase k (.waiting op) } where
  waits op' j hj := by
    simp only at hj ⊢
    by_cases hop : op' = op
    · subst hop
      rw [Function.update_self, List.mem_append, List.mem_singleton] at hj
      rcases hj with hj | rfl
      · exact h.waits_update (by simp [hk]) _ _ j hj
      · exact Function.update_self ..
    · rw [Function.update_of_ne hop] at hj
      exact h.waits_update (by simp [hk]) _ _ j hj
  covered op' hq ha := by
    apply covers_update (by rw [hk]; exact id)
    by_cases hop : op' = op
    · subst hop
      exact hok ha
    · simp only [Function.update_of_ne hop] at hq
      exact h.covered op' hq ha

theorem Inv.release (h : Inv s) {op : Op} (hk : s.phase k = .holds op) (w : Word) (isComplete : Bool) :
    Inv { s with word := w, phase := Function.update s.phase k (.draining w isComplete) } where
  waits := h.waits_update (by simp [hk]) _
  covered op' _ ha := by
    refine ⟨k, ?_⟩
    simp only [Function.update_self]
    exact Allows.runnable ha

omit [DecidableEq ι] in
theorem mem_wake {queue : Op → List ι} {state : Word} {j : ι} :
    j ∈ wake queue state ↔ ∃ op, Runnable op state ∧ j ∈ queue op := by
  simp only [wake, runnables, List.mem_append, List.mem_ite_nil_right]
  constructor
  · rintro (((h | h) | h) | h)
    · exact ⟨_, h⟩
    · exact ⟨_, h⟩
    · exact ⟨_, h⟩
    · exact ⟨_, h⟩
  · rintro ⟨op, h⟩
    cases op <;> simp [h]

omit [DecidableEq ι] in
/-- Only waiting tasks are woken. -/
theorem Inv.of_mem_wake (h : Inv s) {state : Word} {j : ι} (hj : j ∈ wake s.queue state) :
    ∃ op, Runnable op state ∧ s.phase j = .waiting op := by
  obtain ⟨op, hrun, hmem⟩ := mem_wake.mp hj
  exact ⟨op, hrun, h.waits op j hmem⟩

theorem Inv.drain (h : Inv s) {state : Word} {isComplete : Bool} (hk : s.phase k = .draining state isComplete) :
    Inv { s with queue := fun op => if Runnable op state then [] else s.queue op,
                 phase := fun j => if j = k ∨ j ∈ wake s.queue state then .idle else s.phase j } where
  waits op j hj := by
    simp only [List.mem_ite_nil_left] at hj ⊢
    obtain ⟨hrun, hj⟩ := hj
    have hwait := h.waits op j hj
    rw [if_neg ?_]
    · exact hwait
    · rintro (rfl | hwake)
      · rw [hk] at hwait
        exact absurd hwait (by simp)
      · obtain ⟨op', hrun', hwait'⟩ := h.of_mem_wake hwake
        rw [hwait] at hwait'
        exact hrun (Phase.waiting.inj hwait' ▸ hrun')
  covered op hq ha := by
    simp only [ne_eq, ite_eq_left_iff, not_forall] at hq
    obtain ⟨hrun, hq⟩ := hq
    obtain ⟨j, hj⟩ := h.covered op hq ha
    refine ⟨j, ?_⟩
    simp only
    rw [if_neg ?_]
    · exact hj
    · rintro (rfl | hwake)
      · rw [hk] at hj
        exact hrun hj
      · obtain ⟨op', -, hwait⟩ := h.of_mem_wake hwake
        rw [hwait] at hj
        exact hj

theorem Inv.releaseRead (h : Inv s) (hk : s.phase k = .holds .read) {w : Word}
    (hok : ∀ op, s.queue op ≠ [] → Allows w op → ∃ j, j ≠ k ∧ (s.phase j).Covers op) :
    Inv { s with word := w, phase := Function.update s.phase k .idle } where
  waits := h.waits_update (by simp [hk]) _
  covered op hq ha := by
    obtain ⟨j, hne, hj⟩ := hok op hq ha
    refine ⟨j, ?_⟩
    simp only [Function.update_of_ne hne]
    exact hj

omit [DecidableEq ι] in
/-- A flag covers nothing, so what it makes way for must have had its way already or be covered. -/
theorem Inv.setFlag (h : Inv s) {w : Word} (op₀ : Op)
    (hflag : ∀ op, Allows w op → op = op₀ ∧ (s.word = 0#32 ∨ s.word = w))
    (hok : s.word = 0#32 → s.queue op₀ ≠ [] → ∃ j, (s.phase j).Covers op₀) : Inv { s with word := w } where
  waits := h.waits
  covered op hq ha := by
    obtain ⟨rfl, h0 | hw⟩ := hflag op ha
    · exact hok h0 hq
    · refine h.covered op hq ?_
      rw [hw]
      exact ha

theorem Inv.step (h : Inv s) (hok : WakeOk s a) (hs : TaskRwcSem.step s a = some (s', out)) : Inv s' := by
  cases a with
  | acquire k op =>
    simp only [TaskRwcSem.step, ite_not] at hs
    split_ifs at hs with hk
    split at hs
    · obtain ⟨rfl, -⟩ := Prod.mk.inj (Option.some.inj hs)
      exact h.refuse hk op
    · split_ifs at hs with he
      obtain ⟨rfl, -⟩ := Prod.mk.inj (Option.some.inj hs)
      exact h.hold (by simp [hk]) _ op
  | enqueue k =>
    cases hk : s.phase k with
    | refused op =>
      simp only [TaskRwcSem.step, hk] at hs
      obtain ⟨rfl, -⟩ := Prod.mk.inj (Option.some.inj hs)
      exact h.enqueue hk (hok op hk)
    | _ => simp [TaskRwcSem.step, hk] at hs
  | release k isComplete =>
    cases hk : s.phase k with
    | holds op =>
      simp only [TaskRwcSem.step, hk, Option.map_eq_some_iff] at hs
      obtain ⟨w, -, hs⟩ := hs
      obtain ⟨rfl, -⟩ := Prod.mk.inj hs
      exact h.release hk w isComplete
    | _ => simp [TaskRwcSem.step, hk] at hs
  | drain k =>
    cases hk : s.phase k with
    | draining state isComplete =>
      simp only [TaskRwcSem.step, hk] at hs
      obtain ⟨rfl, -⟩ := Prod.mk.inj (Option.some.inj hs)
      exact h.drain hk
    | _ => simp [TaskRwcSem.step, hk] at hs
  | tryAcquireRead k =>
    simp only [TaskRwcSem.step, ite_not] at hs
    split_ifs at hs with hk
    split at hs
    · obtain ⟨rfl, -⟩ := Prod.mk.inj (Option.some.inj hs)
      exact h
    · split_ifs at hs with he
      obtain ⟨rfl, -⟩ := Prod.mk.inj (Option.some.inj hs)
      exact h.hold (by simp [hk]) _ .read
  | releaseRead k =>
    simp only [TaskRwcSem.step] at hs
    split_ifs at hs with hk
    rw [Option.map_eq_some_iff] at hs
    obtain ⟨w, hw, hs⟩ := hs
    obtain ⟨rfl, -⟩ := Prod.mk.inj hs
    simp only [RwcSem.release, RwcSem.releaseRead, Round.cas, if_true, Option.some.injEq] at hw
    subst hw
    exact h.releaseRead hk hok
  | setCommit k =>
    simp only [TaskRwcSem.step, setCommitFlag, Round.cas, if_true, Option.map_some] at hs
    obtain ⟨rfl, -⟩ := Prod.mk.inj (Option.some.inj hs)
    refine h.setFlag .commit ?_ hok
    intro op ha
    obtain ⟨rfl, h0 | hc⟩ := ha.of_setCommit
    · exact ⟨rfl, Or.inl h0⟩
    · refine ⟨rfl, Or.inr ?_⟩
      rw [hc, BitVec.or_self]
  | setLock k =>
    simp only [TaskRwcSem.step, setLockFlag, Round.cas, if_true, Option.map_some] at hs
    obtain ⟨rfl, -⟩ := Prod.mk.inj (Option.some.inj hs)
    refine h.setFlag .lock ?_ hok
    intro op ha
    obtain ⟨rfl, h0 | hc⟩ := ha.of_setLock
    · exact ⟨rfl, Or.inl h0⟩
    · refine ⟨rfl, Or.inr ?_⟩
      rw [hc, BitVec.or_self]
  | switch k next =>
    cases hk : s.phase k with
    | holds op =>
      simp only [TaskRwcSem.step, hk] at hs
      split at hs
      · obtain ⟨rfl, -⟩ := Prod.mk.inj (Option.some.inj hs)
        split_ifs
        · exact h
        · exact h.hold (by simp [hk]) s.word next
      · split_ifs at hs
        obtain ⟨rfl, -⟩ := Prod.mk.inj (Option.some.inj hs)
        exact h.hold (by simp [hk]) _ next
    | _ => simp [TaskRwcSem.step, hk] at hs

omit [DecidableEq ι] in
theorem Inv.not_stranded (h : Inv s) : ¬ Stranded s := by
  rintro ⟨⟨op, k, hk, ha⟩, hidle⟩
  obtain ⟨j, hj⟩ := h.covered op (List.ne_nil_of_mem hk) ha
  apply hidle j
  cases hp : s.phase j with
  | holds op' => trivial
  | draining state isComplete => trivial
  | _ =>
    rw [hp] at hj
    exact hj

/-- In a run whose steps keep to the condition no task is ever left in a queue with the way open and
nobody about to wake it. -/
theorem run_never_strands {acts : List (Act ι)} {outs : List (List ι)}
    (hm : Meets TaskRwcSem.step WakeOk State.init acts) (he : exec TaskRwcSem.step State.init acts = some (s, outs)) :
    ¬ Stranded s := by
  have hinv : Inv s := exec_invariant (fun _ _ _ _ h hok hs => h.step hok hs) init_inv hm he
  exact hinv.not_stranded

/-- A reader that queues up while a write commits is handed to the dispatcher when the commit is done. -/
theorem run_never_strands_reader : ∃ s, exec TaskRwcSem.step State.init [.acquire (0 : Fin 2) .write, .setCommit 0,
      .switch 0 .commit, .acquire 1 .read, .enqueue 1, .release 0 true, .drain 0] =
        some (s, [[], [], [], [], [], [], [1]]) ∧ ¬ Stranded s := by
  have hm : Meets TaskRwcSem.step WakeOk State.init [.acquire (0 : Fin 2) .write, .setCommit 0, .switch 0 .commit,
      .acquire 1 .read, .enqueue 1, .release 0 true, .drain 0] := by
    decide
  exact ⟨_, rfl, run_never_strands hm rfl⟩

/-- Two ways to strand a task: a reader that reaches its queue after the commit that kept it out has
drained the queues, and a commit that waits for a read which is given back past the queues. -/
theorem late_reader_and_waiting_commit_stranded :
    (∃ s, exec TaskRwcSem.step State.init [.acquire (0 : Fin 2) .write, .setCommit 0, .switch 0 .commit,
      .acquire 1 .read, .release 0 true, .drain 0, .enqueue 1] = some (s, [[], [], [], [], [], [], []]) ∧ Stranded s) ∧
    (∃ s, exec TaskRwcSem.step State.init [.tryAcquireRead (0 : Fin 2), .setCommit 1, .acquire 1 .commit,
      .enqueue 1, .releaseRead 0] = some (s, [[], [], [], [], []]) ∧ Stranded s) := by
  refine ⟨⟨_, rfl, ⟨.read, 1, ?_, ?_⟩, ?_⟩, ⟨_, rfl, ⟨.commit, 1, ?_, ?_⟩, ?_⟩⟩
  · decide
  · decide
  · decide
  · decide
  · decide
  · decide

end RaleighSL.Zcl.TaskRwcSem
