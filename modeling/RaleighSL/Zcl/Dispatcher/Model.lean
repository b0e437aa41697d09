import RaleighSL.Library.Run
import RaleighSL.Zcl.Avl.Model
import Mathlib.Data.List.Basic
import Mathlib.Data.List.ReduceOption
import Mathlib.Data.Nat.Basic

/-!
# The dispatcher

`core/global/global.c` gives tasks to the worker threads: new ones from a work queue, tasks
that are continued from a tree in the order of their submission. A task that has to wait is
in a wait queue of a semaphore meanwhile (`core/global/task.c`). The two child pointers of a
task are the links of the tree, or, in a queue, the next task and, at the head, the last one.

The tree is the one of `tree-avl.c`. It is kept in the child pointers, so a function of the
tree has a result only while these are still the ones of the tree, and afterwards they are
those of the new tree. What the threads hold is part of the state: the tasks they run and the
lists they have drained from wait queues.
-/
namespace RaleighSL.Zcl.Dispatcher

open Library Avl

variable {τ ω : Type*}

structure Links (τ : Type*) where
  child0 : τ → Option τ
  child1 : τ → Option τ

def root : Avl.Tree τ → Option τ
  | .nil => none
  | .node _ k _ _ => some k

def Holds (m : Links τ) : Avl.Tree τ → Prop
  | .nil => True
  | .node l k _ r => m.child0 k = root l ∧ m.child1 k = root r ∧ Holds m l ∧ Holds m r

instance Holds.decidable [DecidableEq τ] (m : Links τ) : (t : Avl.Tree τ) → Decidable (Holds m t)
  | .nil => .isTrue trivial
  | .node l _ _ r =>
    have := Holds.decidable m l
    have := Holds.decidable m r
    inferInstanceAs (Decidable (_ ∧ _ ∧ _ ∧ _))

structure State (τ ω : Type*) where
  links : Links τ
  itime : τ → Nat
  reqId : Nat
  queue : Option τ
  pending : Avl.Tree τ
  waits : ω → Option τ
  /-- The tasks that were given to `z_task_free` by the tree. -/
  freed : List τ
  /-- The tasks that were submitted and have not finished. -/
  live : List τ
  running : List τ
  /-- The first tasks of the lists that were drained and not yet handed over. -/
  drained : List τ

/-- `z_global_context_open`. -/
def State.init : State τ ω where
  links := ⟨fun _ => none, fun _ => none⟩
  itime _ := 0
  reqId := 0
  queue := none
  pending := .nil
  waits _ := none
  freed := []
  live := []
  running := []
  drained := []

variable [DecidableEq τ]

def Links.set (m : Links τ) (k : τ) (c0 c1 : Option τ) : Links τ :=
  ⟨Function.update m.child0 k c0, Function.update m.child1 k c1⟩

/-- The child pointers of a node that has left a tree. -/
def Links.clear (m : Links τ) (o : Option τ) : Links τ := o.elim m (fun k => m.set k none none)

def store (m : Links τ) : Avl.Tree τ → Links τ
  | .nil => m
  | .node l k _ r => store (store (m.set k (root l) (root r)) l) r

/-! ### Queues and the tree -/

/-- `z_task_queue_push`. -/
def queuePush (m : Links τ) (head : Option τ) (k : τ) : Option (Links τ × Option τ) :=
  match head with
  | none => some (m.set k none (some k), some k)
  | some a =>
    (m.child1 a).map (fun tail =>
      (Links.set ⟨Function.update m.child0 tail (some k), Function.update m.child1 a (some k)⟩ k none none, some a))

/-- `z_task_queue_pop` with the new head and the result. -/
def queuePop (m : Links τ) (head : Option τ) : Links τ × Option τ × Option τ :=
  match head with
  | none => (m, none, none)
  | some a =>
    let m' : Links τ :=
      match m.child0 a with
      | none => m
      | some next => ⟨m.child0, Function.update m.child1 next (m.child1 a)⟩
    (m'.set a none none, m.child0 a, some a)

/-- `z_tree_node_attach` on the tree of pending tasks. -/
def treeAttach (s : State τ ω) (k : τ) : Option (State τ ω) :=
  if Holds s.links s.pending then
    (attach s.itime s.pending k).map (fun r =>
      { s with pending := r.1, links := store s.links r.1, freed := s.freed ++ r.2.2.toList })
  else none

def treePush : Nat → State τ ω → Option τ → Option (State τ ω)
  | _, s, none => some s
  | 0, _, some _ => none
  | n + 1, s, some k => (treeAttach s k).bind (fun s' => treePush n s' (s.links.child0 k))

/-- `z_task_tree_pop`. -/
def treePop (s : State τ ω) : Option (State τ ω × Option τ) :=
  match s.pending with
  | .nil => some (s, none)
  | .node l k b r =>
    if Holds s.links (.node l k b r) then
      (detachMin (.node l k b r)).map (fun found =>
        ({ s with pending := found.1, links := (store s.links found.1).clear found.2 }, found.2))
    else none

/-! ### The calls of the threads -/

/-- `z_global_add_task`. The counter has 64 bits. -/
def addTask (s : State τ ω) (k : τ) : Option (State τ ω) :=
  (queuePush s.links s.queue k).map (fun r =>
    { s with
      itime := Function.update s.itime k s.reqId
      reqId := (s.reqId + 1) % 2 ^ 64
      links := r.1
      queue := r.2
      live := k :: s.live })

/-- `__cpu_ctx_fetch_task`. -/
def fetchTask (s : State τ ω) : Option (State τ ω × Option τ) :=
  (treePop s).map (fun r =>
    match r.2 with
    | some k => ({ r.1 with running := k :: r.1.running }, some k)
    | none =>
      let p := queuePop r.1.links r.1.queue
      ({ r.1 with links := p.1, queue := p.2.1, running := p.2.2.toList ++ r.1.running }, p.2.2))

/-- A thread gives away the task or the list that begins with it. -/
def State.giveAway (s : State τ ω) : Option τ → State τ ω
  | none => s
  | some k => { s with running := s.running.erase k, drained := s.drained.filter (fun a => a ≠ k) }

/-- One argument of `z_global_add_pending_ntasks`. A list has at most as many tasks as there are. -/
def pushList (s : State τ ω) (first : Option τ) : Option (State τ ω) :=
  (treePush s.live.length s first).map (fun s' => s'.giveAway first)

/-- `z_global_add_pending_ntasks`. -/
def addPending (s : State τ ω) (tasks : List (Option τ)) : Option (State τ ω) :=
  if 0 < tasks.countP Option.isSome then tasks.foldlM pushList s else some s

inductive Op (τ ω : Type*) where
  | add (k : τ)
  | fetch
  | wait (w : ω) (k : τ)
  | drain (w : ω)
  | addPending (tasks : List (Option τ))
  | finish (k : τ)
  deriving DecidableEq, Repr

variable [DecidableEq ω]

def step (s : State τ ω) : Op τ ω → Option (State τ ω × Option τ)
  | .add k => (addTask s k).map (fun s' => (s', none))
  | .fetch => fetchTask s
  | .wait w k =>
    (queuePush s.links (s.waits w) k).map (fun r =>
      ({ s with links := r.1, waits := Function.update s.waits w r.2, running := s.running.erase k }, none))
  | .drain w =>
    some ({ s with waits := Function.update s.waits w none, drained := (s.waits w).toList ++ s.drained }, s.waits w)
  | .addPending tasks => (addPending s tasks).map (fun s' => (s', none))
  | .finish k => some ({ s with live := s.live.erase k, running := s.running.erase k }, none)

/-- What the callers do: a task is submitted once, and only tasks that a thread has are handed on. -/
def Allowed (s : State τ ω) : Op τ ω → Prop
  | .add k => k ∉ s.live
  | .fetch => True
  | .wait _ k => k ∈ s.running
  | .drain _ => True
  | .addPending tasks => tasks.reduceOption.Nodup ∧ ∀ k ∈ tasks.reduceOption, k ∈ s.running ∨ k ∈ s.drained
  | .finish k => k ∈ s.running

/-- No task that has not finished has the number the next one gets. -/
def Fresh (s : State τ ω) : Op τ ω → Prop
  | .add _ => ∀ k ∈ s.live, s.itime k ≠ s.reqId
  | _ => True

instance (s : State τ ω) : (op : Op τ ω) → Decidable (Allowed s op)
  | .add _ => inferInstanceAs (Decidable (_ ∉ _))
  | .fetch => .isTrue trivial
  | .wait _ _ => inferInstanceAs (Decidable (_ ∈ _))
  | .drain _ => .isTrue trivial
  | .addPending _ => inferInstanceAs (Decidable (_ ∧ _))
  | .finish _ => inferInstanceAs (Decidable (_ ∈ _))

instance (s : State τ ω) : (op : Op τ ω) → Decidable (Fresh s op)
  | .add _ => inferInstanceAs (Decidable (∀ k ∈ s.live, _))
  | .fetch => .isTrue trivial
  | .wait _ _ => .isTrue trivial
  | .drain _ => .isTrue trivial
  | .addPending _ => .isTrue trivial
  | .finish _ => .isTrue trivial

end RaleighSL.Zcl.Dispatcher
