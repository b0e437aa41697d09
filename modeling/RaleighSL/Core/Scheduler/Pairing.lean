import RaleighSL.Core.Scheduler.Commits

/-!
# Writes are paired with their commits

The steps of a run are read task by task: a task that was submitted opens its object,
reads it or writes and commits it, and is notified. A write that succeeded is notified
with the result of its commit, a write that failed with its own error. From the write
to the commit no other write function runs on the object, and nobody reads during the
commit.
-/
namespace RaleighSL.Core.Scheduler
open RaleighSL.Zcl.RwcSem RaleighSL.Library

variable {ω κ α : Type*}

def Event.shown : Event ω κ α → List (Event ω κ α)
  | .silent => []
  | e => [e]

def Event.isNotified : Event ω κ α → Bool
  | .notified _ _ => true
  | _ => false

/-- What has happened to the last task that was submitted under a key: whether a step of it found no memory,
and what it showed. -/
structure Life (ω κ α : Type*) where
  submitted : Bool
  refused : Bool
  log : List (Event ω κ α)

def Life.none : Life ω κ α := ⟨false, false, []⟩

section

variable [DecidableEq κ]

def Life.add (k : κ) (l : Life ω κ α) : Act ω κ α × Event ω κ α → Life ω κ α
  | (.submit k' _ _ _, e) => if k' = k then ⟨true, false, e.shown⟩ else l
  | (.request k' _ _, _) => if k' = k then .none else l
  | (.run k' input, e) => if k' = k ∧ l.submitted then ⟨true, l.refused || !input.alloc, l.log ++ e.shown⟩ else l
  | _ => l

def life (k : κ) (trace : List (Act ω κ α × Event ω κ α)) : Life ω κ α := trace.foldl (Life.add k) .none

theorem life_append (k : κ) (trace : List (Act ω κ α × Event ω κ α)) (p : Act ω κ α × Event ω κ α) :
    life k (trace ++ [p]) = (life k trace).add k p := by
  rw [life, life, List.foldl_append]
  rfl

end

def Opens (k : κ) (o : ω) (log : List (Event ω κ α)) : Prop := log = [] ∨ log = [.opened k o .none]

/-- What a task has shown before the function of a state. -/
def Begun (k : κ) (o : ω) (flags : Flags) (log : List (Event ω κ α)) : SchedState → Prop
  | .schedOpen => log = []
  | .schedRead => flags = .read ∧ ∃ opens n, Opens k o opens ∧ log = opens ++ List.replicate n (.read k o .schedYield)
  | .schedWrite => flags = .write ∧ Opens k o log
  | .schedCommit => flags = .write ∧ ∃ opens, Opens k o opens ∧ log = opens ++ [.wrote k o .none]

/-- What a task has shown before it is notified with a result. -/
inductive Served (k : κ) (o : ω) : Flags → List (Event ω κ α) → Errno → Prop where
  | notOpened {flags : Flags} {errno : Errno} (he : errno ≠ .none) : Served k o flags [.opened k o errno] errno
  | read {opens : List (Event ω κ α)} {n : Nat} {errno : Errno} (hopens : Opens k o opens) (he : errno ≠ .schedYield) :
    Served k o .read (opens ++ List.replicate n (.read k o .schedYield) ++ [.read k o errno]) errno
  | failed {opens : List (Event ω κ α)} {errno : Errno} (hopens : Opens k o opens) (he : errno ≠ .none) :
    Served k o .write (opens ++ [.wrote k o errno]) errno
  | committed {opens : List (Event ω κ α)} {errno : Errno} (hopens : Opens k o opens) :
    Served k o .write (opens ++ [.wrote k o .none, .committed k o errno]) errno

inductive Ended (k : κ) : List (Event ω κ α) → Prop where
  | notBegun (errno : Errno) : Ended k [.notified k errno]
  | served {o : ω} {flags : Flags} {log : List (Event ω κ α)} {errno : Errno} (h : Served k o flags log errno) :
    Ended k (log ++ [.notified k errno])

def Told (k : κ) (u : ObjectTask ω) (log : List (Event ω κ α)) : Prop :=
  match u.pc with
  | .opening => log = []
  | .allocating => log = []
  | .start state => Begun k u.object u.flags log state
  | .check state => Begun k u.object u.flags log state
  | .acquire state => Begun k u.object u.flags log state
  | .waiting state => Begun k u.object u.flags log state
  | .running state => Begun k u.object u.flags log state
  | .flagging => Begun k u.object u.flags log .schedCommit
  | .switching _ next => Begun k u.object u.flags log next
  | .releasing _ next none => Begun k u.object u.flags log next
  | .releasing _ _ (some errno) => Served k u.object u.flags log errno
  | .finishing => log = [] ∨ Ended k log

/-- The life of a key agrees with the task that runs under it, if there is one. -/
def LifeOk (k : κ) (l : Life ω κ α) : Option (Task ω) → Prop
  | some (.object u) => l.submitted = true ∧ Told k u l.log ∧ (u.pc = .finishing → l.log = [] → l.refused = true)
  | some (.txn _) => l = .none
  | none => l = .none ∨ l.submitted = true ∧ (Ended k l.log ∨ l.log = [] ∧ l.refused = true)

variable {s s' : State ω κ α} {k k' : κ} {u : ObjectTask ω} {v : TxnTask ω} {input : Input α} {e : Event ω κ α}
variable {o : ω} {a : Act ω κ α} {flags : Flags} {log : List (Event ω κ α)} {errno : Errno}

theorem Opens.begun (h : Opens k o log) (flags : Flags) : Begun k o flags log flags.state := by
  cases flags with
  | read => exact ⟨rfl, log, 0, h, by simp⟩
  | write => exact ⟨rfl, h⟩

theorem Begun.yield (h : Begun k o flags log .schedRead) : Begun k o flags (log ++ [.read k o .schedYield]) .schedRead := by
  obtain ⟨rfl, opens, n, hopens, rfl⟩ := h
  refine ⟨rfl, opens, n + 1, hopens, ?_⟩
  rw [List.replicate_succ', List.append_assoc]

theorem Begun.read (h : Begun k o flags log .schedRead) (he : errno ≠ .schedYield) :
    Served k o flags (log ++ [.read k o errno]) errno := by
  obtain ⟨rfl, opens, n, hopens, rfl⟩ := h
  exact .read hopens he

theorem Begun.wrote (h : Begun k o flags log .schedWrite) : Begun k o flags (log ++ [.wrote k o .none]) .schedCommit := by
  obtain ⟨rfl, hopens⟩ := h
  exact ⟨rfl, log, hopens, rfl⟩

theorem Begun.failed (h : Begun k o flags log .schedWrite) (he : errno ≠ .none) :
    Served k o flags (log ++ [.wrote k o errno]) errno := by
  obtain ⟨rfl, hopens⟩ := h
  exact .failed hopens he

theorem Begun.commit (h : Begun k o flags log .schedCommit) (errno : Errno) :
    Served k o flags (log ++ [.committed k o errno]) errno := by
  obtain ⟨rfl, opens, hopens, rfl⟩ := h
  have hserved : Served k o .write (opens ++ [.wrote k o .none, .committed k o errno]) errno := .committed hopens
  rwa [show [.wrote k o .none, .committed k o errno] = [Event.wrote k o .none] ++ [.committed k o errno] from rfl,
    ← List.append_assoc] at hserved

variable [DecidableEq ω] [DecidableEq κ]

theorem ObjectBranch.told (h : ObjectBranch s k u input s' e) (ht : Told k u log) :
    ∃ task, s'.tasks = Function.update s.tasks k task ∧
      ((∃ pc, task = u.at pc ∧ Told k { u with pc := pc } (log ++ e.shown) ∧
        (pc = .finishing → log ++ e.shown = [] → input.alloc = false)) ∨
      (task = none ∧ (u.pc = .finishing ∧ e = .silent ∨ Ended k (log ++ e.shown)))) := by
  have hpass {pc : ObjectPc} (htold : Told k { u with pc := pc } log) (hpc : pc ≠ .finishing) :
      ∃ pc', u.at pc = u.at pc' ∧ Told k { u with pc := pc' } (log ++ Event.shown (.silent : Event ω κ α)) ∧
        (pc' = .finishing → log ++ Event.shown (.silent : Event ω κ α) = [] → input.alloc = false) := by
    refine ⟨pc, rfl, ?_, fun hfin => absurd hfin hpc⟩
    rwa [Event.shown, List.append_nil]
  have hshow {pc : ObjectPc} {e : Event ω κ α} (hshown : e.shown = [e]) (htold : Told k { u with pc := pc } (log ++ [e])) :
      ∃ pc', u.at pc = u.at pc' ∧ Told k { u with pc := pc' } (log ++ e.shown) ∧
        (pc' = .finishing → log ++ e.shown = [] → input.alloc = false) := by
    refine ⟨pc, rfl, by rwa [hshown], ?_⟩
    rw [hshown]
    intro _ hnil
    exact absurd hnil (by simp)
  cases h with
  | closed hpc =>
    simp only [Told, hpc] at ht
    subst ht
    exact ⟨_, rfl, Or.inr ⟨rfl, Or.inr (.notBegun _)⟩⟩
  | allocate hpc =>
    simp only [Told, hpc] at ht
    subst ht
    refine ⟨_, rfl, Or.inl ?_⟩
    cases halloc : input.alloc with
    | false => exact ⟨.finishing, rfl, Or.inl rfl, fun _ _ => rfl⟩
    | true => exact ⟨.start .schedOpen, rfl, rfl, by simp⟩
  | @start state hpc =>
    simp only [Told, hpc] at ht
    refine ⟨_, rfl, Or.inl (hpass ?_ (by simp))⟩
    by_cases hopen : state = .schedOpen ∧ (s.objects u.object).isOpen = true
    · rw [if_pos hopen]
      obtain ⟨rfl, -⟩ := hopen
      obtain rfl : log = [] := ht
      exact Opens.begun (Or.inl rfl) u.flags
    · rw [if_neg hopen]
      exact ht
  | check hpc =>
    simp only [Told, hpc] at ht
    refine ⟨_, rfl, Or.inl ?_⟩
    split_ifs
    · exact hpass ht (by simp)
    · exact hpass ht (by simp)
  | opened hpc =>
    simp only [Told, hpc] at ht
    obtain rfl : log = [] := ht
    exact ⟨_, rfl, Or.inl (hshow rfl (Opens.begun (Or.inr rfl) u.flags))⟩
  | notOpened hpc herr =>
    simp only [Told, hpc] at ht
    obtain rfl : log = [] := ht
    exact ⟨_, rfl, Or.inl (hshow rfl (.notOpened herr))⟩
  | read hpc =>
    simp only [Told, hpc] at ht
    refine ⟨_, rfl, Or.inl (hshow rfl ?_)⟩
    by_cases hyield : input.errno = .schedYield
    · rw [if_pos hyield, hyield]
      exact Begun.yield ht
    · rw [if_neg hyield]
      exact Begun.read ht hyield
  | wrote hpc =>
    simp only [Told, hpc] at ht
    exact ⟨u.at .flagging, by rw [State.setTask_tasks, State.ite_setTxn_tasks], Or.inl (hshow rfl (Begun.wrote ht))⟩
  | failed hpc herr =>
    simp only [Told, hpc] at ht
    exact ⟨u.at (.releasing .schedWrite .schedWrite (some input.errno)),
      by rw [State.setTask_tasks, State.ite_setTxn_tasks], Or.inl (hshow rfl (Begun.failed ht herr))⟩
  | commit hpc =>
    simp only [Told, hpc] at ht
    exact ⟨_, rfl, Or.inl (hshow rfl (Begun.commit ht _))⟩
  | done hpc =>
    simp only [Told, hpc] at ht
    exact ⟨_, rfl, Or.inl (hshow rfl (Or.inr (.served ht)))⟩
  | leave hpc => exact ⟨none, by rw [State.setTask_tasks, State.ite_setTxn_tasks], Or.inr ⟨rfl, Or.inl ⟨hpc, rfl⟩⟩⟩
  | enter hpc | acquire hpc | refused hpc | woken hpc | flag hpc | switch hpc | notSwitched hpc | again hpc =>
    simp only [Told, hpc] at ht
    exact ⟨_, rfl, Or.inl (hpass ht (by simp))⟩

/-! ### Runs -/

omit [DecidableEq ω] in
theorem LifeOk.others {trace : List (Act ω κ α × Event ω κ α)} {task : Option (Task ω)}
    (h : ∀ j, LifeOk j (life j trace) (s.tasks j)) (htasks : s'.tasks = Function.update s.tasks k task)
    (hlife : ∀ j, j ≠ k → (life j trace).add j (a, e) = life j trace)
    (hk : LifeOk k ((life k trace).add k (a, e)) task) (j : κ) : LifeOk j (life j (trace ++ [(a, e)])) (s'.tasks j) := by
  rw [life_append, htasks]
  by_cases hj : j = k
  · subst hj
    rw [Function.update_self]
    exact hk
  · rw [Function.update_of_ne hj, hlife j hj]
    exact h j

theorem LifeOk.object {l : Life ω κ α} (h : LifeOk k l (some (.object u))) (hs : objectStep s k u input = some (s', e)) :
    ∃ task, s'.tasks = Function.update s.tasks k task ∧ LifeOk k (l.add k (.run k input, e)) task := by
  obtain ⟨hsub, htold, hfin⟩ := h
  obtain ⟨task, htasks, hcases⟩ := (objectStep_branch hs).told htold
  refine ⟨task, htasks, ?_⟩
  rw [Life.add, if_pos ⟨rfl, hsub⟩]
  rcases hcases with ⟨pc, rfl, htold', hfin'⟩ | ⟨rfl, ⟨hpc, rfl⟩ | hended⟩
  · refine ⟨rfl, htold', ?_⟩
    intro hpc hnil
    simp [hfin' hpc hnil]
  · refine Or.inr ⟨rfl, ?_⟩
    have hlog : l.log ++ Event.shown (.silent : Event ω κ α) = l.log := List.append_nil _
    rw [hlog]
    simp only [Told, hpc] at htold
    refine htold.symm.imp id ?_
    intro hnil
    exact ⟨hnil, by simp [hfin hpc hnil]⟩
  · exact Or.inr ⟨rfl, Or.inl hended⟩

theorem LifeOk.step {trace : List (Act ω κ α × Event ω κ α)} (h : ∀ j, LifeOk j (life j trace) (s.tasks j))
    (hs : Scheduler.step s a = some (s', e)) (j : κ) : LifeOk j (life j (trace ++ [(a, e)])) (s'.tasks j) := by
  have htasks {k : κ} {task : Option (Task ω)} (hk : s.tasks k = task) : s.tasks = Function.update s.tasks k task := by
    rw [← hk, Function.update_eq_self]
  cases a with
  | createTxn alloc =>
    rw [life_append]
    cases step_move hs with
    | createTxn => exact h j
    | noMemory => exact h j
    | notFound => exact h j
  | createObject o =>
    rw [life_append]
    cases step_move hs with
    | createObject => exact h j
    | notFound => exact h j
  | submit k o flags t =>
    have hlife (j : κ) (hj : j ≠ k) : (life j trace).add j (.submit k o flags t, e) = life j trace :=
      if_neg (fun heq => hj heq.symm)
    have hself : (life k trace).add k (.submit k o flags t, e) = ⟨true, false, e.shown⟩ := if_pos rfl
    simp only [Scheduler.step, ite_not] at hs
    split_ifs at hs with hk h0 hc
    · obtain ⟨rfl, rfl⟩ := Prod.mk.inj (Option.some.inj hs)
      exact .others h rfl hlife (hself ▸ ⟨rfl, rfl, by simp⟩) j
    · obtain ⟨rfl, rfl⟩ := Prod.mk.inj (Option.some.inj hs)
      exact .others h rfl hlife (hself ▸ ⟨rfl, rfl, by simp⟩) j
    · obtain ⟨rfl, rfl⟩ := Prod.mk.inj (Option.some.inj hs)
      refine .others h (htasks hk) hlife ?_ j
      rw [hself]
      exact Or.inr ⟨rfl, Or.inl (.notBegun _)⟩
  | request k t commitType =>
    have hlife (j : κ) (hj : j ≠ k) : (life j trace).add j (.request k t commitType, e) = life j trace :=
      if_neg (fun heq => hj heq.symm)
    have hself : (life k trace).add k (.request k t commitType, e) = .none := if_pos rfl
    simp only [Scheduler.step, ite_not] at hs
    split_ifs at hs with hk hc
    · obtain ⟨rfl, rfl⟩ := Prod.mk.inj (Option.some.inj hs)
      refine .others h rfl hlife ?_ j
      exact hself
    · obtain ⟨rfl, rfl⟩ := Prod.mk.inj (Option.some.inj hs)
      refine .others h (htasks hk) hlife ?_ j
      rw [hself]
      exact Or.inl rfl
  | run k input =>
    have hlife (j : κ) (hj : j ≠ k) : (life j trace).add j (.run k input, e) = life j trace :=
      if_neg (fun heq => hj heq.1.symm)
    have hk := h k
    simp only [Scheduler.step] at hs
    split at hs
    · exact absurd hs (by simp)
    · next u hu =>
      rw [hu] at hk
      obtain ⟨task, htasks, hok⟩ := hk.object hs
      exact .others h htasks hlife hok j
    · next v hv =>
      rw [hv] at hk
      obtain ⟨task, htasks, hnot⟩ := (txnStep_move hs).tasks hv
      have hnone : (life k trace).add k (.run k input, e) = .none := by
        rw [show life k trace = .none from hk]
        exact if_neg (by simp [Life.none])
      refine .others h htasks hlife ?_ j
      rw [hnone]
      cases task with
      | none => exact Or.inl rfl
      | some task =>
        cases task with
        | object u => exact absurd rfl (hnot u)
        | txn v => rfl

/-- The task is in the open, read, write or commit function of the object. -/
def Runs (s : State ω κ α) (o : ω) (state : SchedState) (k : κ) : Prop :=
  ∃ u, s.tasks k = some (.object u) ∧ u.object = o ∧ u.pc = .running state

/-- A task is notified once, after the commit of a write that succeeded, and with the error of a write that
failed, which has no commit. -/
structure Notifies (k : κ) (log : List (Event ω κ α)) : Prop where
  once : log.countP Event.isNotified ≤ 1
  committed : ∀ o errno, .wrote k o .none ∈ log → .notified k errno ∈ log →
    ∃ before, log = before ++ [.wrote k o .none, .committed k o errno, .notified k errno]
  failed : ∀ o errno, .wrote k o errno ∈ log → errno ≠ .none →
    (∀ o' errno', .committed k o' errno' ∉ log) ∧ ∀ errno', .notified k errno' ∈ log → errno' = errno

section

omit [DecidableEq ω] [DecidableEq κ]

theorem Opens.mem (h : Opens k o log) (he : e ∈ log) : e = .opened k o .none := by
  obtain rfl | rfl := h
  · exact absurd he (by simp)
  · exact List.mem_singleton.mp he

/-- Before the commit a task has shown nothing but opens, reads that yielded and a write that succeeded. -/
theorem Begun.mem {state : SchedState} (h : Begun k o flags log state) (he : e ∈ log) :
    e = .opened k o .none ∨ e = .read k o .schedYield ∨ e = .wrote k o .none := by
  cases state with
  | schedOpen =>
    obtain rfl : log = [] := h
    exact absurd he (by simp)
  | schedRead =>
    obtain ⟨-, opens, n, hopens, rfl⟩ := h
    rcases List.mem_append.mp he with he | he
    · exact Or.inl (hopens.mem he)
    · exact Or.inr (Or.inl (List.mem_replicate.mp he).2)
  | schedWrite => exact Or.inl (h.2.mem he)
  | schedCommit =>
    obtain ⟨-, opens, hopens, rfl⟩ := h
    rcases List.mem_append.mp he with he | he
    · exact Or.inl (hopens.mem he)
    · exact Or.inr (Or.inr (List.mem_singleton.mp he))

theorem Begun.quiet {state : SchedState} (h : Begun k o flags log state) : ∀ e ∈ log, e.isNotified = false := by
  intro e he
  obtain rfl | rfl | rfl := h.mem he
  · rfl
  · rfl
  · rfl

/-- What a task has shown before it is notified: the function that decided its result comes last. -/
theorem Served.shape (h : Served k o flags log errno) :
    ∃ before state, Begun k o flags before state ∧
      ((log = before ++ [.opened k o errno] ∧ state = .schedOpen ∧ errno ≠ .none) ∨
        (log = before ++ [.read k o errno] ∧ state = .schedRead) ∨
        (log = before ++ [.wrote k o errno] ∧ state = .schedWrite ∧ errno ≠ .none) ∨
        (log = before ++ [.committed k o errno] ∧ state = .schedCommit)) := by
  cases h with
  | notOpened he => exact ⟨[], .schedOpen, rfl, Or.inl ⟨rfl, rfl, he⟩⟩
  | read hopens he => exact ⟨_, .schedRead, ⟨rfl, _, _, hopens, rfl⟩, Or.inr (Or.inl ⟨rfl, rfl⟩)⟩
  | failed hopens he => exact ⟨_, .schedWrite, ⟨rfl, hopens⟩, Or.inr (Or.inr (Or.inl ⟨rfl, rfl, he⟩))⟩
  | @committed opens errno hopens =>
    refine ⟨opens ++ [.wrote k o .none], .schedCommit, ⟨rfl, opens, hopens, rfl⟩, Or.inr (Or.inr (Or.inr ⟨?_, rfl⟩))⟩
    rw [List.append_assoc]
    rfl

theorem Served.quiet (h : Served k o flags log errno) : ∀ e ∈ log, e.isNotified = false := by
  obtain ⟨before, state, hbegun, hlast⟩ := h.shape
  have hlog {last : Event ω κ α} (hn : last.isNotified = false) : ∀ e ∈ before ++ [last], e.isNotified = false := by
    intro e he
    rcases List.mem_append.mp he with he | he
    · exact hbegun.quiet e he
    · rw [List.mem_singleton.mp he, hn]
  obtain ⟨rfl, -⟩ | ⟨rfl, -⟩ | ⟨rfl, -⟩ | ⟨rfl, -⟩ := hlast
  · exact hlog rfl
  · exact hlog rfl
  · exact hlog rfl
  · exact hlog rfl

/-- A write that succeeded is followed by its commit. -/
theorem Served.wrote_none {o' : ω} (h : Served k o flags log errno) (hw : .wrote k o' .none ∈ log) :
    ∃ before, log = before ++ [.wrote k o' .none, .committed k o' errno] := by
  cases h with
  | notOpened he => exact absurd hw (by simp)
  | read hopens he =>
    rcases List.mem_append.mp hw with hw | hw
    · rcases List.mem_append.mp hw with hw | hw
      · exact absurd (hopens.mem hw) (by simp)
      · exact absurd (List.mem_replicate.mp hw).2 (by simp)
    · exact absurd (List.mem_singleton.mp hw) (by simp)
  | failed hopens he =>
    rcases List.mem_append.mp hw with hw | hw
    · exact absurd (hopens.mem hw) (by simp)
    · obtain ⟨-, -, heq⟩ := Event.wrote.inj (List.mem_singleton.mp hw)
      exact absurd heq.symm he
  | @committed opens errno hopens =>
    rcases List.mem_append.mp hw with hw | hw
    · exact absurd (hopens.mem hw) (by simp)
    · have hobject : o' = o := by
        rcases List.mem_cons.mp hw with hw | hw
        · exact (Event.wrote.inj hw).2.1
        · exact absurd (List.mem_singleton.mp hw) (by simp)
      rw [hobject]
      exact ⟨opens, rfl⟩

/-- A write that failed is the last word before the notification. -/
theorem Served.wrote_error {o' : ω} {errno' : Errno} (h : Served k o flags log errno) (hw : .wrote k o' errno' ∈ log)
    (he : errno' ≠ .none) : errno = errno' ∧ ∀ o' errno', .committed k o' errno' ∉ log := by
  obtain ⟨before, state, hbegun, hlast⟩ := h.shape
  have hbefore : .wrote k o' errno' ∉ before := by
    intro hmem
    rcases hbegun.mem hmem with heq | heq | heq
    · exact absurd heq (by simp)
    · exact absurd heq (by simp)
    · exact he (Event.wrote.inj heq).2.2
  have hend {last : Event ω κ α} (hlog : log = before ++ [last]) : .wrote k o' errno' = last := by
    rw [hlog] at hw
    exact List.mem_singleton.mp ((List.mem_append.mp hw).resolve_left hbefore)
  obtain ⟨hlog, -⟩ | ⟨hlog, -⟩ | ⟨hlog, -⟩ | ⟨hlog, -⟩ := hlast
  · exact absurd (hend hlog) (by simp)
  · exact absurd (hend hlog) (by simp)
  · obtain ⟨-, -, heq⟩ := Event.wrote.inj (hend hlog)
    refine ⟨heq.symm, ?_⟩
    intro o'' errno'' hmem
    rw [hlog] at hmem
    rcases List.mem_append.mp hmem with hmem | hmem
    · exact absurd (hbegun.mem hmem) (by simp)
    · exact absurd (List.mem_singleton.mp hmem) (by simp)
  · exact absurd (hend hlog) (by simp)

theorem countP_quiet (h : ∀ e ∈ log, e.isNotified = false) : log.countP Event.isNotified = 0 :=
  List.countP_eq_zero.mpr (fun e he => by simp [h e he])

theorem not_notified (h : ∀ e ∈ log, e.isNotified = false) : .notified k errno ∉ log :=
  fun hmem => absurd (h _ hmem) (by simp [Event.isNotified])

theorem Begun.notifies {state : SchedState} (h : Begun k o flags log state) : Notifies k log where
  once := by simp [countP_quiet h.quiet]
  committed _ _ _ hn := absurd hn (not_notified h.quiet)
  failed o' errno' hw he := by
    rcases h.mem hw with heq | heq | heq
    · exact absurd heq (by simp)
    · exact absurd heq (by simp)
    · exact absurd (Event.wrote.inj heq).2.2 he

theorem Served.notifies (h : Served k o flags log errno) : Notifies k log where
  once := by simp [countP_quiet h.quiet]
  committed _ _ _ hn := absurd hn (not_notified h.quiet)
  failed o' errno' hw he := ⟨(h.wrote_error hw he).2, fun _ hn => absurd hn (not_notified h.quiet)⟩

theorem Ended.countP (h : Ended k log) : log.countP Event.isNotified = 1 := by
  cases h with
  | notBegun errno => rfl
  | served hserved => simp [List.countP_append, countP_quiet hserved.quiet, Event.isNotified]

theorem Ended.notifies (h : Ended k log) : Notifies k log := by
  refine ⟨h.countP.le, ?_, ?_⟩
  · intro o errno hw hn
    cases h with
    | notBegun errno => exact absurd hw (by simp)
    | @served o' flags log errno' hserved =>
      have hlast : errno = errno' := by
        have hmem := (List.mem_append.mp hn).resolve_left (not_notified hserved.quiet)
        exact (Event.notified.inj (List.mem_singleton.mp hmem)).2
      have hwrote : .wrote k o .none ∈ log := by
        refine (List.mem_append.mp hw).resolve_right ?_
        simp
      obtain ⟨before, rfl⟩ := hserved.wrote_none hwrote
      refine ⟨before, ?_⟩
      rw [hlast, List.append_assoc]
      rfl
  · intro o errno hw he
    cases h with
    | notBegun errno => exact absurd hw (by simp)
    | @served o' flags log errno' hserved =>
      have hwrote : .wrote k o errno ∈ log := by
        refine (List.mem_append.mp hw).resolve_right ?_
        simp
      obtain ⟨rfl, hnone⟩ := hserved.wrote_error hwrote he
      refine ⟨?_, ?_⟩
      · intro o'' errno'' hmem
        exact hnone o'' errno'' ((List.mem_append.mp hmem).resolve_right (by simp))
      · intro errno'' hn
        have hmem := (List.mem_append.mp hn).resolve_left (not_notified hserved.quiet)
        exact (Event.notified.inj (List.mem_singleton.mp hmem)).2

theorem notifies_nil (k : κ) : Notifies k ([] : List (Event ω κ α)) := ⟨by simp, by simp, by simp⟩

theorem Told.notifies (h : Told k u log) : Notifies k log := by
  rw [Told] at h
  split at h
  case h_1 => exact h ▸ notifies_nil k
  case h_2 => exact h ▸ notifies_nil k
  case h_11 => exact h.notifies
  case h_12 =>
    rcases h with rfl | h
    · exact notifies_nil k
    · exact h.notifies
  all_goals exact Begun.notifies h

theorem LifeOk.notifies {l : Life ω κ α} {task : Option (Task ω)} (h : LifeOk k l task) : Notifies k l.log := by
  cases task with
  | none =>
    obtain rfl | ⟨-, hended | ⟨hnil, -⟩⟩ := h
    · exact notifies_nil k
    · exact hended.notifies
    · exact hnil ▸ notifies_nil k
  | some task =>
    cases task with
    | object u => exact h.2.1.notifies
    | txn v =>
      obtain rfl : l = .none := h
      exact notifies_nil k

theorem Begun.getLast {state : SchedState} {o' : ω} (h : Begun k o flags log state)
    (hlast : log.getLast? = some (.wrote k o' .none)) : state = .schedCommit ∧ o = o' := by
  have hmem : .wrote k o' .none ∈ log := List.mem_of_getLast? hlast
  have hobject : o = o' := by
    rcases h.mem hmem with heq | heq | heq
    · exact absurd heq (by simp)
    · exact absurd heq (by simp)
    · exact (Event.wrote.inj heq).2.1.symm
  refine ⟨?_, hobject⟩
  cases state with
  | schedCommit => rfl
  | schedOpen =>
    obtain rfl : log = [] := h
    exact absurd hmem (by simp)
  | schedRead =>
    obtain ⟨-, opens, n, hopens, rfl⟩ := h
    rcases List.mem_append.mp hmem with hmem | hmem
    · exact absurd (hopens.mem hmem) (by simp)
    · exact absurd (List.mem_replicate.mp hmem).2 (by simp)
  | schedWrite => exact absurd (h.2.mem hmem) (by simp)

theorem Served.getLast {o' : ω} (h : Served k o flags log errno) : log.getLast? ≠ some (.wrote k o' .none) := by
  obtain ⟨before, state, -, ⟨rfl, -⟩ | ⟨rfl, -⟩ | ⟨rfl, -, he⟩ | ⟨rfl, -⟩⟩ := h.shape
  · simp
  · simp
  · rw [List.getLast?_concat]
    intro heq
    exact he (Event.wrote.inj (Option.some.inj heq)).2.2
  · simp

theorem Ended.getLast {o' : ω} (h : Ended k log) : log.getLast? ≠ some (.wrote k o' .none) := by
  cases h with
  | notBegun errno => simp
  | served hserved => simp

/-- From the write function to the commit the task is at a place where it owes a commit. -/
theorem LifeOk.owes {l : Life ω κ α} {task : Option (Task ω)} (h : LifeOk k l task)
    (hlast : l.log.getLast? = some (.wrote k o .none)) :
    ∃ u, task = some (.object u) ∧ u.object = o ∧ (u.pc = .flagging ∨ u.pc.committing = true) := by
  cases task with
  | none =>
    obtain rfl | ⟨-, hended | ⟨hnil, -⟩⟩ := h
    · exact absurd hlast (by simp [Life.none])
    · exact absurd hlast hended.getLast
    · exact absurd hlast (by simp [hnil])
  | some task =>
    cases task with
    | txn v =>
      obtain rfl : l = .none := h
      exact absurd hlast (by simp [Life.none])
    | object u =>
      refine ⟨u, rfl, ?_⟩
      obtain ⟨-, htold, -⟩ := h
      cases hpc : u.pc with
      | opening =>
        simp only [Told, hpc] at htold
        exact absurd hlast (by simp [htold])
      | allocating =>
        simp only [Told, hpc] at htold
        exact absurd hlast (by simp [htold])
      | flagging =>
        simp only [Told, hpc] at htold
        exact ⟨(htold.getLast hlast).2, Or.inl rfl⟩
      | finishing =>
        simp only [Told, hpc] at htold
        rcases htold with hnil | hended
        · exact absurd hlast (by simp [hnil])
        · exact absurd hlast hended.getLast
      | switching current next =>
        simp only [Told, hpc] at htold
        obtain ⟨rfl, ho⟩ := htold.getLast hlast
        exact ⟨ho, Or.inr rfl⟩
      | releasing current next result =>
        simp only [Told, hpc] at htold
        cases result with
        | none =>
          obtain ⟨rfl, ho⟩ := htold.getLast hlast
          exact ⟨ho, Or.inr rfl⟩
        | some errno => exact absurd hlast htold.getLast
      | _ state =>
        simp only [Told, hpc] at htold
        obtain ⟨rfl, ho⟩ := htold.getLast hlast
        exact ⟨ho, Or.inr rfl⟩

end

omit [DecidableEq κ] in
theorem CommitInv.writes_alone (h : CommitInv s) (hu : s.tasks k = some (.object u))
    (howes : u.pc = .flagging ∨ u.pc.committing = true) (hne : k' ≠ k) : ¬ Runs s u.object .schedWrite k' := by
  rintro ⟨u', hu', ho, hpc⟩
  have hexcl : Exclusive (objectHold s u.object k') := by
    rw [← ho, objectHold_object hu', hpc]
    exact exclusive_write
  rcases howes with hflag | hwaits
  · have hself : Exclusive (objectHold s u.object k) := by
      rw [objectHold_object hu, hflag]
      exact exclusive_write
    exact hne ((h.exclusion.held u.object).single k k' hself hexcl)
  · have hself : objectWaits s u.object k = true := by rw [objectWaits_object hu, hwaits]
    exact hne ((h.owed u.object).single k k' hself (Or.inr hexcl))

omit [DecidableEq κ] in
theorem CommitInv.commits_alone (h : CommitInv s) (hk : Runs s o .schedCommit k) : ¬ Runs s o .schedRead k' := by
  obtain ⟨u, hu, rfl, hpc⟩ := hk
  rintro ⟨u', hu', ho, hpc'⟩
  have hcommit : objectHold s u.object k = some .commit := by
    rw [objectHold_object hu, hpc]
    rfl
  have hread : objectHold s u.object k' = some .read := by
    rw [← ho, objectHold_object hu', hpc']
    rfl
  have hheld := h.exclusion.held u.object
  exact hheld.readers_eq_zero.mp (hheld.commit k hcommit).2 k' hread

/-- In every state of a run in which nobody reads an object when a write on it is released or becomes a
read: no other write function runs between the write function of a task that succeeded and its commit, and no
read function runs during a commit. Every task is notified as it was served, at most once, and once when it
is gone. -/
theorem run_pairs_commits {acts : List (Act ω κ α)} {events : List (Event ω κ α)}
    (hm : Meets step ReadersGone State.init acts) (he : exec step State.init acts = some (s, events)) (k : κ) :
    (∀ o k', (life k (acts.zip events)).log.getLast? = some (.wrote k o .none) → k' ≠ k → ¬ Runs s o .schedWrite k') ∧
    (∀ o k', Runs s o .schedCommit k → ¬ Runs s o .schedRead k') ∧
    Notifies k (life k (acts.zip events)).log ∧
    (s.tasks k = none → (life k (acts.zip events)).submitted = true → (life k (acts.zip events)).refused = false →
      (life k (acts.zip events)).log.countP Event.isNotified = 1) := by
  have hinv : CommitInv s := exec_invariant (fun _ _ _ _ h hok hs => h.step hok hs) init_commitInv hm he
  have hinit (k : κ) : LifeOk k (life k ([] : List (Act ω κ α × Event ω κ α))) ((State.init : State ω κ α).tasks k) :=
    Or.inl rfl
  have hlife : ∀ k, LifeOk k (life k ([] ++ acts.zip events)) (s.tasks k) :=
    exec_trace (I := fun s trace => ∀ k, LifeOk k (life k trace) (s.tasks k))
      (fun _ _ _ _ _ h _ hs => LifeOk.step h hs) hinit hm he
  rw [List.nil_append] at hlife
  refine ⟨?_, fun o k' hk => hinv.commits_alone hk, (hlife k).notifies, ?_⟩
  · intro o k' hlast hne
    obtain ⟨u, hu, rfl, howes⟩ := (hlife k).owes hlast
    exact hinv.writes_alone hu howes hne
  · intro hgone hsub hmemory
    have hk := hlife k
    rw [hgone] at hk
    obtain hnone | ⟨-, hended | ⟨-, hrefused⟩⟩ := hk
    · rw [hnone] at hsub
      exact absurd hsub (by simp [Life.none])
    · exact hended.countP
    · rw [hrefused] at hmemory
      exact absurd hmemory (by decide)

/-- A write and its commit, while a second write waits. -/
def writeBesideWrite : List (Act Nat (Fin 3) Nat) :=
  List.flatten [[.createObject 0, .submit 0 0 .write 0, .submit 1 0 .write 0], runs 0 5, runs 1 5, runs 0 4]

theorem run_pairs_commits_two_writes : ∃ s events, exec step State.init writeBesideWrite = some (s, events) ∧
    (life 0 (writeBesideWrite.zip events)).log =
      [.wrote 0 0 .none, .committed 0 0 .none, .notified 0 .none] ∧
    Notifies 0 (life 0 (writeBesideWrite.zip events)).log := by
  have hfacts : (exec step State.init writeBesideWrite).map (fun r => (life 0 (writeBesideWrite.zip r.2)).log) =
      some [.wrote 0 0 .none, .committed 0 0 .none, .notified 0 .none] := by
    decide +kernel
  obtain ⟨⟨s, events⟩, he, hlog⟩ := Option.map_eq_some_iff.mp hfacts
  exact ⟨s, events, he, hlog, (run_pairs_commits (by decide +kernel) he 0).2.2.1⟩

/-- A write that succeeds while a reader is at work: its release clears the reader from the semaphore. -/
def readDuringCommit : List (Act Nat (Fin 2) Nat) :=
  List.flatten [[.createObject 0, .submit 0 0 .read 0], runs 0 4, [.submit 1 0 .write 0], runs 1 11]

theorem read_meets_commit : ∃ s events, exec step State.init readDuringCommit = some (s, events) ∧
    Runs s 0 .schedCommit 1 ∧ Runs s 0 .schedRead 0 := by
  have hfacts : (exec step State.init readDuringCommit).map (fun r => (r.1.tasks 0, r.1.tasks 1)) =
      some (some (.object { object := 0, flags := .read, txn := 0, pc := .running .schedRead }),
        some (.object { object := 0, flags := .write, txn := 0, pc := .running .schedCommit })) := by
    decide +kernel
  obtain ⟨⟨s, events⟩, he, htasks⟩ := Option.map_eq_some_iff.mp hfacts
  obtain ⟨hread, hcommit⟩ := Prod.mk.inj htasks
  exact ⟨s, events, he, ⟨_, hcommit, rfl, rfl⟩, ⟨_, hread, rfl, rfl⟩⟩

end RaleighSL.Core.Scheduler
