import RaleighSL.Zcl.Dispatcher.Conservation

/-!
# The worker threads

The threads of `core/global/global.c` take tasks from the dispatcher, sleep on a condition when there are
none, and leave when the context is closed; the thread that closes it waits for them. What happens under
the mutex is one step, a wait on a condition gives the mutex back, and a thread may wake up for no
reason. A signal wakes up one of the threads that sleep. The number of idle threads is an `int`, it is
counted up only, and the next one is not defined. After the context is freed nothing may be submitted.
-/
namespace RaleighSL.Zcl.Workers

open Library
open Dispatcher (Op Board Rep Allowed Fresh Few)

/-- Where a worker thread is in `__cpu_ctx_loop` and `__cpu_ctx_wait_task`. -/
inductive Place (τ : Type*) where
  | test
  | fetch
  | asleep
  | awake
  | exec (task : τ)
  | leave
  | gone

/-- Where a thread is in `z_global_context_close`. -/
inductive Closer where
  | out
  | asleep
  | awake
  /-- At the condition of the loop over the threads. -/
  | next
  | join (i : Nat)
  | done
  deriving DecidableEq

namespace Place

variable {τ : Type*}

def isAsleep : Place τ → Bool
  | asleep => true
  | _ => false

def isGone : Place τ → Bool
  | gone => true
  | _ => false

def hasLeft : Place τ → Bool
  | leave | gone => true
  | _ => false

theorem isAsleep_iff {place : Place τ} : place.isAsleep = true ↔ place = asleep := by
  cases place <;> simp [isAsleep]

theorem isGone_iff {place : Place τ} : place.isGone = true ↔ place = gone := by
  cases place <;> simp [isGone]

def woken : Place τ → Place τ
  | asleep => awake
  | place => place

end Place

def Closer.woken : Closer → Closer
  | asleep => awake
  | closer => closer

structure State (n : Nat) (τ ω : Type*) where
  tasks : Dispatcher.State τ ω
  isClosed : Bool
  waitingThreads : Int
  ncpus : Nat
  place : Fin n → Place τ
  closer : Closer

inductive Act (n : Nat) (τ ω : Type*) where
  | run (t : Fin n)
  | wakeUp (t : Fin n)
  /-- A call of the dispatcher, with the thread that a signal wakes up. -/
  | post (op : Op τ ω) (who : Fin n)
  | stop
  | close
  | closer
  | closerWakesUp
  deriving DecidableEq

variable {n : Nat} {τ ω : Type*}

/-- `z_global_context_open`. -/
def State.init (n : Nat) : State n τ ω :=
  { tasks := .init, isClosed := false, waitingThreads := 0, ncpus := n, place := fun _ => .test, closer := .out }

namespace State

def goto (s : State n τ ω) (t : Fin n) (place : Place τ) : State n τ ω := { s with place := Function.update s.place t place }

def count (s : State n τ ω) : Option (State n τ ω) :=
  if s.waitingThreads + 1 < 2 ^ 31 then
    some { s with waitingThreads := s.waitingThreads + 1
                  closer := if s.waitingThreads + 1 = s.ncpus then s.closer.woken else s.closer }
  else none

end State

/-- `z_wait_cond_signal`, which wakes up the given thread if it sleeps. -/
def signal (place : Fin n → Place τ) (who : Fin n) : Fin n → Place τ :=
  match (who :: List.finRange n).find? (fun t => (place t).isAsleep) with
  | some t => Function.update place t .awake
  | none => place

def wakes (place : Fin n → Place τ) (who : Fin n) : Op τ ω → Fin n → Place τ
  | .add _ => signal place who
  | .addPending tasks =>
    let ntasks := tasks.countP Option.isSome
    if 0 < ntasks then
      if ntasks > 1 then fun t => (place t).woken else signal place who
    else place
  | _ => place

section

variable [DecidableEq τ] [DecidableEq ω]

/-- The next step of a worker thread, with the task it begins to execute. -/
def advance (s : State n τ ω) (t : Fin n) : Option (State n τ ω × Option τ) :=
  match s.place t with
  | .test => some (s.goto t (if s.isClosed then .leave else .fetch), none)
  | .fetch =>
    if s.isClosed then some (s.goto t .test, none)
    else
      (Dispatcher.step s.tasks .fetch).bind fun r =>
        match r.2 with
        | some task => some ({ s with tasks := r.1 }.goto t (.exec task), some task)
        | none => ({ s with tasks := r.1 }.goto t .asleep).count.map (·, none)
  | .awake =>
    (Dispatcher.step s.tasks .fetch).map fun r =>
      match r.2 with
      | some task => ({ s with tasks := r.1 }.goto t (.exec task), some task)
      | none => ({ s with tasks := r.1 }.goto t .test, none)
  | .exec _ => some (s.goto t .test, none)
  | .leave => (s.goto t .gone).count.map (·, none)
  | .asleep | .gone => some (s, none)

def advanceCloser (s : State n τ ω) : State n τ ω :=
  match s.closer with
  | .awake => { s with closer := .next }
  | .next => if s.ncpus = 0 then { s with closer := .done } else { s with ncpus := s.ncpus - 1, closer := .join (s.ncpus - 1) }
  | .join i => if ∀ t : Fin n, t.val = i → (s.place t).isGone then { s with closer := .next } else s
  | .out | .asleep | .done => s

def step (s : State n τ ω) : Act n τ ω → Option (State n τ ω × Option τ)
  | .run t => advance s t
  | .wakeUp t => some (if (s.place t).isAsleep then s.goto t .awake else s, none)
  | .post op who =>
    match s.closer with
    | .done => none
    | _ => (Dispatcher.step s.tasks op).map fun r => ({ s with tasks := r.1, place := wakes s.place who op }, none)
  | .stop => some ({ s with isClosed := true }, none)
  | .close =>
    match s.closer with
    | .out =>
      some ({ s with isClosed := true
                     place := fun t => (s.place t).woken
                     closer := if s.waitingThreads < s.ncpus then .asleep else .next }, none)
    | _ => none
  | .closer => some (advanceCloser s, none)
  | .closerWakesUp => some ({ s with closer := s.closer.woken }, none)

/-- A call that the dispatcher has a result for, on a context that is there and is closed once, and a number of idle
threads that fits. -/
def Fits (s : State n τ ω) : Act n τ ω → Prop
  | .run _ => Few s.tasks .fetch ∧ s.waitingThreads + 1 < 2 ^ 31
  | .post op _ => (op ≠ .fetch ∧ (Allowed s.tasks op ∧ Fresh s.tasks op) ∧ Few s.tasks op) ∧ s.closer ≠ .done
  | .close => s.closer = .out
  | _ => True

instance (s : State n τ ω) : (act : Act n τ ω) → Decidable (Fits s act)
  | .run _ => inferInstanceAs (Decidable (_ ∧ _))
  | .post _ _ => inferInstanceAs (Decidable (_ ∧ _))
  | .close => inferInstanceAs (Decidable (_ = _))
  | .wakeUp _ | .stop | .closer | .closerWakesUp => .isTrue trivial

end

end RaleighSL.Zcl.Workers
