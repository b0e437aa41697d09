import RaleighSL.Zcl.Dispatcher.Places

/-!
# No task is lost

Over every run of calls the dispatcher gives the threads the tasks the board gives them, and
every task that was submitted and has not finished stays in one place. This rests on the
numbers of the tasks: the tree frees a task that has the number of another one.
-/
namespace RaleighSL.Zcl.Dispatcher

open Library Avl
open scoped List

variable {τ ω : Type*} [DecidableEq τ] {s s' : State τ ω} {b : Board τ ω} {k : τ} {first : Option τ} {n : Nat}
  {tasks : List (Option τ)} {op : Op τ ω} {out : Option τ}

theorem treePush_held (hs : treePush n s first = some s') :
    s'.running = s.running ∧ s'.drained = s.drained ∧ s'.live = s.live := by
  induction n generalizing s first with
  | zero =>
    cases first with
    | none =>
      obtain rfl := Option.some.inj hs
      exact ⟨rfl, rfl, rfl⟩
    | some k => simp [treePush] at hs
  | succ n ih =>
    cases first with
    | none =>
      obtain rfl := Option.some.inj hs
      exact ⟨rfl, rfl, rfl⟩
    | some k =>
      rw [treePush, Option.bind_eq_some_iff] at hs
      obtain ⟨s₁, h₁, hs⟩ := hs
      obtain ⟨hrunning, hdrained, hlive⟩ := ih hs
      rw [treeAttach] at h₁
      split_ifs at h₁
      obtain ⟨r, -, rfl⟩ := Option.map_eq_some_iff.mp h₁
      exact ⟨hrunning, hdrained, hlive⟩

/-- The tasks of the arguments are in the hands of threads. -/
def Held (s : State τ ω) (tasks : List (Option τ)) : Prop :=
  tasks.reduceOption.Nodup ∧ ∀ k ∈ tasks.reduceOption, k ∈ s.running ∨ k ∈ s.drained

omit [DecidableEq τ] in
theorem Held.has_first (h : Held s (first :: tasks)) : ∀ k, first = some k → k ∈ s.running ∨ k ∈ s.drained := by
  rintro k rfl
  exact h.2 k (by simp [List.reduceOption_cons_of_some])

/-- The other arguments are still in the hands of threads when one has been given away. -/
theorem Held.rest (h : Held s (first :: tasks)) (hs : pushList s first = some s') : Held s' tasks := by
  rw [pushList, Option.map_eq_some_iff] at hs
  obtain ⟨s₁, hpush, rfl⟩ := hs
  obtain ⟨hrunning, hdrained, -⟩ := treePush_held hpush
  obtain ⟨hnodup, hheld⟩ := h
  cases first with
  | none =>
    rw [List.reduceOption_cons_of_none] at hnodup hheld
    refine ⟨hnodup, fun a ha => ?_⟩
    show a ∈ s₁.running ∨ a ∈ s₁.drained
    rw [hrunning, hdrained]
    exact hheld a ha
  | some k =>
    rw [List.reduceOption_cons_of_some] at hnodup hheld
    obtain ⟨hk, hnodup⟩ := List.nodup_cons.mp hnodup
    refine ⟨hnodup, fun a ha => ?_⟩
    have hak : a ≠ k := by
      rintro rfl
      exact hk ha
    show a ∈ s₁.running.erase k ∨ a ∈ s₁.drained.filter (fun c => c ≠ k)
    rw [hrunning, hdrained, List.mem_erase_of_ne hak, List.mem_filter, decide_eq_true_iff, and_iff_left hak]
    exact hheld a (List.mem_cons_of_mem k ha)

variable [DecidableEq ω]

theorem Rep.pushAll (h : Rep s b) (hheld : Held s tasks) (hs : tasks.foldlM Dispatcher.pushList s = some s') :
    Rep s' (tasks.foldl Board.handOver b) := by
  induction tasks generalizing s b with
  | nil =>
    obtain rfl := Option.some.inj hs
    exact h
  | cons first tasks ih =>
    rw [List.foldlM_cons, Option.bind_eq_bind, Option.bind_eq_some_iff] at hs
    obtain ⟨s₁, h₁, hs⟩ := hs
    exact ih (h.pushList hheld.has_first h₁) (hheld.rest h₁) hs

omit [DecidableEq ω] in
/-- The tasks of the tree and those of a list are not more than there are. -/
theorem Rep.pushList_isSome (h : Rep s b) (hheld : ∀ k, first = some k → k ∈ s.running ∨ k ∈ s.drained)
    (hlen : s.live.length < minSize 32) : (Dispatcher.pushList s first).isSome := by
  rw [Dispatcher.pushList, Option.isSome_map]
  cases first with
  | none =>
    rw [treePush]
    rfl
  | some k =>
    obtain ⟨p, l, rest, hp, hperm, hchain⟩ : ∃ p l rest, p ≠ .pending ∧ b.tasks p ~ l ++ rest ∧
        Chain s.links.child0 (some k) l := by
      obtain hk | hk := hheld k rfl
      · obtain ⟨hrunning, hnext⟩ := h.stored .running
        have hkb : k ∈ b.tasks .running := hrunning ▸ hk
        exact ⟨.running, [k], _, by simp, List.perm_cons_erase hkb, rfl, hnext k hkb⟩
      · exact ⟨.drained k, _, [], by simp, by rw [List.append_nil], (h.stored (.drained k)).2 hk⟩
    have hready := h.ready hp hperm hchain
    obtain ⟨htended, hlist⟩ := h.stored .pending
    have hmem (a : τ) (ha : a ∈ l) : a ∈ b.tasks p := hperm.mem_iff.mpr (List.mem_append_left rest ha)
    have hle : (s.pending.toList ++ l).length ≤ s.live.length := by
      refine List.Nodup.length_le_of_subset ?_ ?_
      · rw [List.nodup_append]
        refine ⟨nodup_of_sorted htended.sorted, hready.nodup, ?_⟩
        rintro a hpending c hl rfl
        exact hready.disjoint a hl hpending
      · intro a ha
        obtain ha | ha := List.mem_append.mp ha
        · exact h.live_of_mem (hlist ▸ ha)
        · exact h.live_of_mem (hmem a ha)
    rw [List.length_append] at hle
    exact htended.push_isSome hready (by omega) (by omega)

theorem Rep.pushAll_isSome (h : Rep s b) (hheld : Held s tasks) (hlen : s.live.length < minSize 32) :
    (tasks.foldlM Dispatcher.pushList s).isSome := by
  induction tasks generalizing s b with
  | nil => rfl
  | cons first tasks ih =>
    obtain ⟨s₁, h₁⟩ := Option.isSome_iff_exists.mp (h.pushList_isSome hheld.has_first hlen)
    rw [List.foldlM_cons, h₁]
    have hlive : s₁.live = s.live := by
      rw [Dispatcher.pushList, Option.map_eq_some_iff] at h₁
      obtain ⟨s₂, h₂, rfl⟩ := h₁
      rw [← (treePush_held h₂).2.2]
      cases first <;> rfl
    exact ih (h.pushList hheld.has_first h₁) (hheld.rest h₁) (by rwa [hlive])

omit [DecidableEq ω] in
/-- When all arguments are null nothing is done, and there is nothing to do. -/
theorem addPending_eq (s : State τ ω) (tasks : List (Option τ)) : addPending s tasks = tasks.foldlM pushList s := by
  rw [addPending]
  split_ifs with hcount
  · rfl
  · have hnone : ∀ o ∈ tasks, o = none := by
      intro o ho
      have hzero := List.countP_eq_zero.mp (Nat.eq_zero_of_not_pos hcount) o ho
      simpa using hzero
    induction tasks with
    | nil => rfl
    | cons o tasks ih =>
      obtain rfl := hnone o List.mem_cons_self
      have hfirst : pushList s none = some s := by
        rw [pushList, treePush]
        rfl
      rw [List.foldlM_cons, hfirst]
      exact ih (by simpa using hcount) (fun o ho => hnone o (List.mem_cons_of_mem _ ho))

theorem Rep.step (h : Rep s b) (hok : Allowed s op ∧ Fresh s op) (hs : Dispatcher.step s op = some (s', out)) :
    out = (boardStep b op).2 ∧ Rep s' (boardStep b op).1 := by
  have hsame {s₁ : State τ ω} {out₁ : Option τ} (h₁ : Dispatcher.step s op = some (s₁, out₁)) : s₁ = s' ∧ out₁ = out :=
    Prod.mk.inj (Option.some.inj (h₁.symm.trans hs))
  cases op with
  | add k =>
    obtain ⟨s₁, h₁, hrep⟩ := h.add hok.1 hok.2
    obtain ⟨rfl, rfl⟩ := hsame h₁
    exact ⟨rfl, hrep⟩
  | fetch => exact h.fetch hs
  | wait w k =>
    obtain ⟨s₁, h₁, hrep⟩ := h.wait hok.1
    obtain ⟨rfl, rfl⟩ := hsame h₁
    exact ⟨rfl, hrep⟩
  | drain w =>
    obtain ⟨s₁, h₁, hrep⟩ := h.drain
    obtain ⟨rfl, rfl⟩ := hsame h₁
    exact ⟨rfl, hrep⟩
  | addPending tasks =>
    rw [Dispatcher.step, addPending_eq, Option.map_eq_some_iff] at hs
    obtain ⟨s₁, h₁, hs⟩ := hs
    obtain ⟨rfl, rfl⟩ := Prod.mk.inj hs
    exact ⟨rfl, h.pushAll hok.1 h₁⟩
  | finish k =>
    obtain ⟨s₁, h₁, hrep⟩ := h.finish hok.1
    obtain ⟨rfl, rfl⟩ := hsame h₁
    exact ⟨rfl, hrep⟩

/-- Fewer tasks than the smallest balanced tree of height 32 has nodes. -/
def Few (s : State τ ω) (_ : Op τ ω) : Prop := s.live.length < minSize 32

instance (s : State τ ω) (op : Op τ ω) : Decidable (Few s op) := inferInstanceAs (Decidable (_ < _))

theorem Rep.step_isSome (h : Rep s b) (hok : Allowed s op ∧ Fresh s op) (hfew : Few s op) :
    (Dispatcher.step s op).isSome := by
  cases op with
  | add k =>
    obtain ⟨s₁, h₁, -⟩ := h.add hok.1 hok.2
    rw [h₁]
    rfl
  | fetch => exact h.fetch_isSome hfew
  | wait w k =>
    obtain ⟨s₁, h₁, -⟩ := h.wait (w := w) hok.1
    rw [h₁]
    rfl
  | drain w => rfl
  | addPending tasks =>
    rw [Dispatcher.step, addPending_eq, Option.isSome_map]
    exact h.pushAll_isSome hok.1 hfew
  | finish k => rfl

omit [DecidableEq τ] [DecidableEq ω] in
theorem rep_init : Rep (State.init : State τ ω) Board.init where
  stored p := by
    cases p with
    | queue => exact ⟨rfl, by simp [State.init]⟩
    | pending => exact ⟨⟨trivial, List.Pairwise.nil, trivial⟩, rfl⟩
    | wait w => exact ⟨rfl, by simp [State.init]⟩
    | drained first => exact ⟨by simp [State.init, Board.init], by simp [State.init]⟩
    | running => exact ⟨rfl, by simp [Board.init]⟩
  placed := placed_nil (fun _ => rfl)
  itime := rfl
  reqId := rfl
  times := by simp [State.init]
  freed := rfl

/-- What holds of the dispatcher and the board after a run. -/
structure Conserved (s : State τ ω) (b : Board τ ω) : Prop where
  stored : ∀ p, Stored s p (b.tasks p)
  place : ∀ k, k ∈ s.live ↔ ∃! p, k ∈ b.tasks p
  once : ∀ p, (b.tasks p).Nodup
  ordered : (b.tasks .pending).Pairwise (fun j k => s.itime j < s.itime k)
  freed : s.freed = []

omit [DecidableEq τ] [DecidableEq ω] in
theorem Rep.conserved (h : Rep s b) : Conserved s b where
  stored := h.stored
  place k := ⟨h.placed.existsUnique, fun ⟨_, hp, _⟩ => h.live_of_mem hp⟩
  once := h.placed.nodup
  ordered := by
    obtain ⟨htended, hlist⟩ := h.stored .pending
    rw [← hlist]
    exact htended.sorted
  freed := h.freed

/-- In every run of calls that hand on only what a thread has, while no unfinished task has the number of the next
one, the threads get the tasks of the board: the pending ones first and by their times, then the queued ones as they
were submitted. Every unfinished task is in one place, and none has been freed by the tree. With fewer unfinished
tasks than the smallest balanced tree of height 32 has nodes, every call has a result. -/
theorem run_conserves_tasks (ops : List (Op τ ω))
    (hm : Meets step (fun s op => Allowed s op ∧ Fresh s op) State.init ops) :
    (∀ s outs, exec step State.init ops = some (s, outs) →
      outs = (specExec boardStep Board.init ops).2 ∧ Conserved s (specExec boardStep Board.init ops).1) ∧
    (Meets step Few State.init ops → ∃ s outs, exec step State.init ops = some (s, outs)) := by
  refine ⟨?_, ?_⟩
  · intro s outs he
    obtain ⟨houts, hrep⟩ := exec_agrees (R := Rep) (A := boardStep)
      (fun s b op s' out h hok hs => h.step hok hs) rep_init hm he
    exact ⟨houts, hrep.conserved⟩
  · intro hfew
    obtain ⟨s, he, -⟩ := exec_simulates (R := Rep) (A := boardStep) (C := fun s op => (Allowed s op ∧ Fresh s op) ∧ Few s op)
      (fun s b op h hok => by
        obtain ⟨⟨s', out⟩, hs⟩ := Option.isSome_iff_exists.mp (h.step_isSome hok.1 hok.2)
        obtain ⟨rfl, hrep⟩ := h.step hok.1 hs
        exact ⟨s', hs, hrep⟩) rep_init (hm.and hfew)
    exact ⟨s, _, he⟩

/-- Two tasks wait for a semaphore that a third one releases, and go on before a task that was submitted later. -/
def waitingRun : List (Op Nat Unit) :=
  [.add 0, .add 1, .add 2, .add 3, .fetch, .fetch, .wait () 1, .wait () 0, .fetch, .drain (),
    .addPending [some 2, none, some 1], .fetch, .fetch, .finish 0, .fetch, .fetch, .fetch]

theorem run_conserves_tasks_waiting : ∃ s outs, exec step (State.init : State Nat Unit) waitingRun = some (s, outs) ∧
    outs = (specExec boardStep Board.init waitingRun).2 ∧ Conserved s (specExec boardStep Board.init waitingRun).1 := by
  have hm : Meets step (fun s op => Allowed s op ∧ Fresh s op) (State.init : State Nat Unit) waitingRun := by
    decide +kernel
  have hfew : Meets step Few (State.init : State Nat Unit) waitingRun := by decide +kernel
  obtain ⟨s, outs, he⟩ := (run_conserves_tasks waitingRun hm).2 hfew
  exact ⟨s, outs, he, (run_conserves_tasks waitingRun hm).1 s outs he⟩

example : (specExec boardStep (Board.init : Board Nat Unit) waitingRun).2.reduceOption = [0, 1, 2, 1, 0, 1, 2, 3] := by
  decide +kernel

/-! ### The counter begins again -/

/-- The first task is run while others have come and gone. -/
def longRunning (reqId time : Nat) : State Nat Unit :=
  { State.init with
    itime := fun k => if k = 1 then time else 0
    reqId := reqId
    live := [0]
    running := [0] }

def passing : List (Op Nat Unit) := [.add 1, .fetch, .finish 1]

theorem links_cleared (k : Nat) (c : Option Nat) :
    Function.update (Function.update (fun _ : Nat => none) k c) k none = fun _ => none := by
  rw [Function.update_idem, Function.update_eq_self_iff]

theorem passing_run (n i : Nat) :
    exec step (longRunning n i) passing = some (longRunning ((n + 1) % 2 ^ 64) n, [none, some 1, none]) := by
  have htime : Function.update (longRunning n i).itime 1 n = (longRunning ((n + 1) % 2 ^ 64) n).itime := by
    funext k
    simp only [longRunning, Function.update_apply]
    split_ifs <;> rfl
  have hrun : exec step (longRunning n i) passing =
      some ({ longRunning ((n + 1) % 2 ^ 64) n with
          links := ⟨Function.update (Function.update (fun _ => none) 1 none) 1 none,
            Function.update (Function.update (fun _ => none) 1 (some 1)) 1 none⟩
          itime := Function.update (longRunning n i).itime 1 n }, [none, some 1, none]) := rfl
  rw [hrun, links_cleared, links_cleared, htime]
  rfl

theorem passing_meets (n i : Nat) : Meets step Allowed (longRunning n i) passing := by
  refine ⟨(by decide : 1 ∉ [0]), ?_⟩
  intro s out hs
  obtain ⟨rfl, -⟩ := Prod.mk.inj (Option.some.inj hs)
  refine ⟨trivial, ?_⟩
  intro s out hs
  obtain ⟨rfl, -⟩ := Prod.mk.inj (Option.some.inj hs)
  exact ⟨List.mem_cons_self, fun _ _ _ => trivial⟩

/-- After a number of such tasks. -/
theorem passing_runs (m n i : Nat) (hn : n < 2 ^ 64) :
    ∃ j outs, exec step (longRunning n i) (List.replicate m passing).flatten = some (longRunning ((n + m) % 2 ^ 64) j, outs) ∧
      Meets step Allowed (longRunning n i) (List.replicate m passing).flatten := by
  induction m generalizing n i with
  | zero => exact ⟨i, [], by rw [Nat.add_zero, Nat.mod_eq_of_lt hn]; rfl, trivial⟩
  | succ m ih =>
    obtain ⟨j, outs, he, hm⟩ := ih ((n + 1) % 2 ^ 64) n (Nat.mod_lt _ (by decide))
    refine ⟨j, [none, some 1, none] ++ outs, ?_, ?_⟩
    · rw [List.replicate_succ, List.flatten_cons, exec_append, passing_run, Option.bind_some, he, Nat.mod_add_mod,
        Nat.add_assoc n 1 m, Nat.add_comm 1 m]
      rfl
    · rw [List.replicate_succ, List.flatten_cons]
      exact (passing_meets n i).append (passing_run n i) hm

/-- A task that gets the number of the first one, and both are continued. -/
def colliding : List (Op Nat Unit) := [.add 2, .fetch, .addPending [some 0], .addPending [some 2]]

theorem colliding_run (j : Nat) :
    ∃ s outs, exec step (longRunning 0 j) colliding = some (s, outs) ∧ 0 ∈ s.live ∧ 0 ∈ s.freed := by
  have hrun : (exec step (longRunning 0 j) colliding).map (fun r => (r.1.live, r.1.freed)) = some ([2, 0], [0]) := rfl
  obtain ⟨⟨s, outs⟩, he, hs⟩ := Option.map_eq_some_iff.mp hrun
  obtain ⟨hlive, hfreed⟩ := Prod.mk.inj hs
  refine ⟨s, outs, he, ?_, ?_⟩
  · rw [show s.live = [2, 0] from hlive]
    decide
  · rw [show s.freed = [0] from hfreed]
    decide

theorem colliding_meets (j : Nat) : Meets step Allowed (longRunning 0 j) colliding := by
  refine ⟨(by decide : 2 ∉ [0]), ?_⟩
  intro s out hs
  obtain ⟨rfl, -⟩ := Prod.mk.inj (Option.some.inj hs)
  refine ⟨trivial, ?_⟩
  intro s out hs
  obtain ⟨rfl, -⟩ := Prod.mk.inj (Option.some.inj hs)
  refine ⟨(by decide : [0].Nodup ∧ ∀ k ∈ [0], k ∈ [2, 0] ∨ k ∈ []), ?_⟩
  intro s out hs
  obtain ⟨rfl, -⟩ := Prod.mk.inj (Option.some.inj hs)
  exact ⟨(by decide : [2].Nodup ∧ ∀ k ∈ [2], k ∈ [2] ∨ k ∈ []), fun _ _ _ => trivial⟩

/-- The run up to the task that gets the number of the first one. -/
def wrappedRun : List (Op Nat Unit) := [.add 0, .fetch] ++ ((List.replicate (2 ^ 64 - 1) passing).flatten ++ colliding)

/-- After 2^64 submissions the counter begins again. A task that is still unfinished is freed by the tree when the
task with its number is pending too. -/
theorem live_task_freed_after_wrap : Meets step Allowed (State.init : State Nat Unit) wrappedRun ∧
    ∃ s outs, exec step (State.init : State Nat Unit) wrappedRun = some (s, outs) ∧ 0 ∈ s.live ∧ 0 ∈ s.freed := by
  obtain ⟨j, outs, he, hm⟩ := passing_runs (2 ^ 64 - 1) 1 0 (by decide)
  rw [show (1 + (2 ^ 64 - 1)) % 2 ^ 64 = 0 by decide] at he
  obtain ⟨s, outs', hend, hlive, hfreed⟩ := colliding_run j
  have hstart : exec step (State.init : State Nat Unit) [.add 0, .fetch] = some (longRunning 1 0, [none, some 0]) := by
    have htime : Function.update (fun _ : Nat => 0) 0 0 = (longRunning 1 0).itime := by
      funext k
      simp only [longRunning, Function.update_apply, ite_self]
    have hrun : exec step (State.init : State Nat Unit) [.add 0, .fetch] =
        some ({ longRunning 1 0 with
            links := ⟨Function.update (Function.update (fun _ => none) 0 none) 0 none,
              Function.update (Function.update (fun _ => none) 0 (some 0)) 0 none⟩
            itime := Function.update (fun _ => 0) 0 0 }, [none, some 0]) := rfl
    rw [hrun, links_cleared, links_cleared, htime]
    rfl
  refine ⟨?_, s, [none, some 0] ++ (outs ++ outs'), ?_, hlive, hfreed⟩
  · exact (by decide +kernel : Meets step Allowed (State.init : State Nat Unit) [.add 0, .fetch]).append hstart
      (hm.append he (colliding_meets j))
  · rw [wrappedRun, exec_append, hstart, Option.bind_some, exec_append, he, Option.bind_some, hend]
    rfl

end RaleighSL.Zcl.Dispatcher
