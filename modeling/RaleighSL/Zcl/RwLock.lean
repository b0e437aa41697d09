import RaleighSL.Zcl.RwcSem
import RaleighSL.Library.Run
import RaleighSL.Library.Places

/-!
# The read-write lock

`z_rwlock_t` is one 32-bit word: the number of readers in the low 31 bits and a write
flag above them. A writer puts its flag beside the readers that are there and then
waits for them to leave. Its unlock is a plain store of zero.

Every thread goes through its calls one access to the word at a time: the load of a
compare-and-swap loop, each swap, each load of the wait for the readers and the store.
-/
namespace RaleighSL.Zcl.RwLock
open RaleighSL.Library RaleighSL.Zcl.RwcSem

def numReadersMask : Word := 0x7fffffff#32
def writeFlag : Word := 0x80000000#32

def readLock (curval : Word) : Round := .swap (curval &&& numReadersMask) ((curval &&& numReadersMask) + 1#32)

def readUnlock (curval : Word) : Round := .swap curval (curval - 1#32)

def writeLock (curval : Word) : Round := .swap (curval &&& numReadersMask) (writeFlag ||| (curval &&& numReadersMask))

def tryReadLock (curval : Word) : Round :=
  if curval &&& writeFlag ≠ 0#32 then .ret 0#32
  else .swap (curval &&& numReadersMask) ((curval &&& numReadersMask) + 1#32)

def tryWriteLock (curval : Word) : Round :=
  if curval &&& writeFlag ≠ 0#32 then .ret 0#32
  else .swap (curval &&& numReadersMask) (writeFlag ||| (curval &&& numReadersMask))

/-- The calls that are a compare-and-swap loop. -/
inductive Call where
  | readLock
  | readUnlock
  | writeLock
  | tryReadLock
  | tryWriteLock
  deriving DecidableEq, Repr

def Call.round : Call → Word → Round
  | .readLock => RwLock.readLock
  | .readUnlock => RwLock.readUnlock
  | .writeLock => RwLock.writeLock
  | .tryReadLock => RwLock.tryReadLock
  | .tryWriteLock => RwLock.tryWriteLock

inductive Pc where
  | idle
  | load (call : Call)
  | swap (call : Call) (curval : Word)
  /-- The writer waits for the readers that were there. -/
  | wait
  | reading
  | writing
  deriving DecidableEq

def Call.done : Call → Pc
  | .readLock => .reading
  | .readUnlock => .idle
  | .writeLock => .wait
  | .tryReadLock => .reading
  | .tryWriteLock => .wait

def Pc.reads : Pc → Bool
  | .load call => call = .readUnlock
  | .swap call _ => call = .readUnlock
  | .reading => true
  | .idle => false
  | .wait => false
  | .writing => false

def Pc.writes : Pc → Bool
  | .wait => true
  | .writing => true
  | .idle => false
  | .load _ => false
  | .swap _ _ => false
  | .reading => false

structure State (ι : Type*) where
  word : Word
  pc : ι → Pc

variable {ι : Type*}

def State.init : State ι := { word := 0#32, pc := fun _ => .idle }

inductive Act (ι : Type*) where
  /-- The thread enters a call. -/
  | call (i : ι) (call : Call)
  /-- The next access of the thread to the word. -/
  | run (i : ι)
  /-- `z_rwlock_write_unlock`. -/
  | writeUnlock (i : ι)

variable [DecidableEq ι]

def State.goto (s : State ι) (i : ι) (p : Pc) : State ι := { s with pc := Function.update s.pc i p }

/-- A thread unlocks what it holds and locks only when it holds nothing. -/
def step (s : State ι) : Act ι → Option (State ι × Unit)
  | .call i call =>
    if s.pc i = (if call = .readUnlock then .reading else .idle) then some (s.goto i (.load call), ()) else none
  | .run i =>
    match s.pc i with
    | .load call => some (s.goto i (.swap call s.word), ())
    | .swap call curval =>
      match call.round curval with
      | .ret _ => some (s.goto i .idle, ())
      | .swap expval newval =>
        if s.word = expval then some ({ s with word := newval }.goto i call.done, ())
        else some (s.goto i (.swap call s.word), ())
    | .wait => some (if s.word &&& numReadersMask = 0#32 then s.goto i .writing else s, ())
    | _ => none
  | .writeUnlock i => if s.pc i = .writing then some ({ s with word := 0#32 }.goto i .idle, ()) else none

/-! ### What an access does -/

theorem toNat_and_mask (w : Word) : (w &&& numReadersMask).toNat = w.toNat % 2 ^ 31 := by
  rw [BitVec.toNat_and, show numReadersMask.toNat = 2 ^ 31 - 1 from rfl, Nat.and_two_pow_sub_one_eq_mod]

theorem toNat_flag_or (w : Word) (h : w.toNat < 2 ^ 31) : (writeFlag ||| w).toNat = 2 ^ 31 + w.toNat := by
  rw [BitVec.toNat_or, show writeFlag.toNat = 2 ^ 31 * 1 from rfl, ← Nat.two_pow_add_eq_or_of_lt h,
    Nat.mul_one]

/-- The ways a step can change the word and the thread that takes it. -/
inductive Move (s : State ι) : State ι → Prop where
  | stay : Move s s
  | quiet (i : ι) (p : Pc) (hr : p.reads = (s.pc i).reads) (hw : p.writes = (s.pc i).writes) (hp : p ≠ .writing) :
    Move s (s.goto i p)
  | enter (i : ι) (w : Word) (hfree : (s.pc i).reads = false ∧ (s.pc i).writes = false) (hlt : s.word.toNat < 2 ^ 31)
    (hw : w.toNat = s.word.toNat + 1) : Move s ({ s with word := w }.goto i .reading)
  | leave (i : ι) (w : Word) (hreads : (s.pc i).reads = true) (hw : w = s.word - 1#32) :
    Move s ({ s with word := w }.goto i .idle)
  | flag (i : ι) (w : Word) (hfree : (s.pc i).reads = false ∧ (s.pc i).writes = false) (hlt : s.word.toNat < 2 ^ 31)
    (hw : w.toNat = 2 ^ 31 + s.word.toNat) : Move s ({ s with word := w }.goto i .wait)
  | drained (i : ι) (hi : s.pc i = .wait) (h0 : s.word.toNat % 2 ^ 31 = 0) : Move s (s.goto i .writing)
  | unlock (i : ι) (hi : s.pc i = .writing) : Move s ({ s with word := 0#32 }.goto i .idle)

variable {s s' : State ι} {i j : ι} {a : Act ι} {u : Unit}

/-- A swap that meets the word it expects. -/
theorem swap_move {call : Call} {curval expval newval : Word} (hi : s.pc i = .swap call curval)
    (hround : call.round curval = .swap expval newval) (hword : s.word = expval) :
    Move s ({ s with word := newval }.goto i call.done) := by
  have hmask : s.word = curval &&& numReadersMask → s.word.toNat < 2 ^ 31 := by
    intro h
    rw [h, toNat_and_mask]
    exact Nat.mod_lt _ (by decide)
  have hadd (h : s.word = curval &&& numReadersMask) : (s.word + 1#32).toNat = s.word.toNat + 1 := by
    have hlt := hmask h
    rw [BitVec.toNat_add, show (1#32).toNat = 1 from rfl]
    omega
  cases call with
  | readLock =>
    obtain ⟨rfl, rfl⟩ := Round.swap.inj hround
    refine .enter i _ (by simp [hi, Pc.reads, Pc.writes]) (hmask hword) ?_
    rw [← hword, hadd hword]
  | readUnlock =>
    obtain ⟨rfl, rfl⟩ := Round.swap.inj hround
    exact .leave i _ (by simp [hi, Pc.reads]) (by rw [hword])
  | writeLock =>
    obtain ⟨rfl, rfl⟩ := Round.swap.inj hround
    refine .flag i _ (by simp [hi, Pc.reads, Pc.writes]) (hmask hword) ?_
    rw [← hword, toNat_flag_or _ (hmask hword)]
  | tryReadLock =>
    simp only [Call.round, RwLock.tryReadLock] at hround
    split_ifs at hround
    obtain ⟨rfl, rfl⟩ := Round.swap.inj hround
    refine .enter i _ (by simp [hi, Pc.reads, Pc.writes]) (hmask hword) ?_
    rw [← hword, hadd hword]
  | tryWriteLock =>
    simp only [Call.round, RwLock.tryWriteLock] at hround
    split_ifs at hround
    obtain ⟨rfl, rfl⟩ := Round.swap.inj hround
    refine .flag i _ (by simp [hi, Pc.reads, Pc.writes]) (hmask hword) ?_
    rw [← hword, toNat_flag_or _ (hmask hword)]

/-- Only the calls that try return without a swap. -/
theorem ret_not_readUnlock {call : Call} {curval result : Word} (h : call.round curval = .ret result) :
    call ≠ .readUnlock := by
  rintro rfl
  simp [Call.round, RwLock.readUnlock] at h

theorem step_move (h : step s a = some (s', u)) : Move s s' := by
  cases a with
  | call i call =>
    rw [step] at h
    split_ifs at h with hc hpc hpc
    · obtain ⟨rfl, -⟩ := Prod.mk.inj (Option.some.inj h)
      exact .quiet i _ (by rw [hpc, hc]; rfl) (by rw [hpc]; rfl) (by simp)
    · obtain ⟨rfl, -⟩ := Prod.mk.inj (Option.some.inj h)
      exact .quiet i _ (by rw [hpc]; simp [Pc.reads, hc]) (by rw [hpc]; rfl) (by simp)
  | run i =>
    rw [step] at h
    cases hpc : s.pc i with
    | load call =>
      simp only [hpc, Option.some.injEq, Prod.mk.injEq, and_true] at h
      exact h ▸ .quiet i _ (by simp [hpc, Pc.reads]) (by simp [hpc, Pc.writes]) (by simp)
    | swap call curval =>
      cases hround : call.round curval with
      | ret result =>
        simp only [hpc, hround, Option.some.injEq, Prod.mk.injEq, and_true] at h
        have hne := ret_not_readUnlock hround
        exact h ▸ .quiet i _ (by simp [hpc, Pc.reads, hne]) (by simp [hpc, Pc.writes]) (by simp)
      | swap expval newval =>
        simp only [hpc, hround] at h
        split_ifs at h with hword
        · obtain ⟨rfl, -⟩ := Prod.mk.inj (Option.some.inj h)
          exact swap_move hpc hround hword
        · obtain ⟨rfl, -⟩ := Prod.mk.inj (Option.some.inj h)
          exact .quiet i _ (by simp [hpc, Pc.reads]) (by simp [hpc, Pc.writes]) (by simp)
    | wait =>
      simp only [hpc, Option.some.injEq, Prod.mk.injEq, and_true] at h
      split_ifs at h with h0
      · have hmod : s.word.toNat % 2 ^ 31 = 0 := by
          rw [← toNat_and_mask, h0]
          rfl
        exact h ▸ .drained i hpc hmod
      · exact h ▸ .stay
    | idle => simp [hpc] at h
    | reading => simp [hpc] at h
    | writing => simp [hpc] at h
  | writeUnlock i =>
    rw [step] at h
    split_ifs at h with hpc
    obtain ⟨rfl, -⟩ := Prod.mk.inj (Option.some.inj h)
    exact .unlock i hpc

/-! ### The word counts -/

variable [Fintype ι]

def State.readers (s : State ι) : Nat := tally (fun p => p.reads.toNat) s.pc

def State.writers (s : State ι) : Nat := tally (fun p => p.writes.toNat) s.pc

structure Inv (s : State ι) : Prop where
  word : s.word.toNat = s.readers + 2 ^ 31 * s.writers
  single : s.writers ≤ 1
  alone : ∀ i, s.pc i = .writing → s.readers = 0

omit [DecidableEq ι] in
theorem init_inv : Inv (State.init : State ι) where
  word := by simp [State.init, State.readers, State.writers, tally, Pc.reads, Pc.writes]
  single := by simp [State.init, State.writers, tally, Pc.writes]
  alone i hi := by simp [State.init] at hi

theorem readers_goto {b : Bool} (h : (s.pc i).reads = b) (p : Pc) :
    (s.goto i p).readers + b.toNat = s.readers + p.reads.toNat := by
  rw [← h]
  exact tally_update (fun p => p.reads.toNat) s.pc i p

theorem writers_goto {b : Bool} (h : (s.pc i).writes = b) (p : Pc) :
    (s.goto i p).writers + b.toNat = s.writers + p.writes.toNat := by
  rw [← h]
  exact tally_update (fun p => p.writes.toNat) s.pc i p

omit [DecidableEq ι] in
theorem readers_pos (h : (s.pc i).reads = true) : 0 < s.readers := by
  have hle := le_tally (fun p => p.reads.toNat) s.pc i
  rw [h] at hle
  exact hle

omit [DecidableEq ι] in
theorem writers_pos (h : (s.pc i).writes = true) : 0 < s.writers := by
  have hle := le_tally (fun p => p.writes.toNat) s.pc i
  rw [h] at hle
  exact hle

omit [DecidableEq ι] in
/-- No thread is counted twice, so the readers never reach the flag. -/
theorem readers_lt (hcard : Fintype.card ι < 2 ^ 31) (s : State ι) : s.readers < 2 ^ 31 := by
  have hle : s.readers + s.writers ≤ Fintype.card ι := by
    refine tally_add_le ?_
    intro p
    cases p with
    | load call => cases call <;> decide
    | swap call curval => cases call <;> simp [Pc.reads, Pc.writes]
    | idle => decide
    | wait => decide
    | reading => decide
    | writing => decide
  omega

omit [Fintype ι] in
theorem goto_writing {p : Pc} (h : (s.goto i p).pc j = .writing) (hp : p ≠ .writing) : s.pc j = .writing := by
  by_cases hj : j = i
  · subst hj
    simp [State.goto, hp] at h
  · simpa [State.goto, hj] using h

theorem Inv.move (hcard : Fintype.card ι < 2 ^ 31) (h : Inv s) (hm : Move s s') : Inv s' := by
  have hword := h.word
  have hlt := readers_lt hcard s
  have hsingle := h.single
  cases hm with
  | stay => exact h
  | quiet i p hr hw hp =>
    have hreaders := readers_goto hr.symm p
    have hwriters := writers_goto hw.symm p
    refine ⟨?_, by omega, ?_⟩
    · change s.word.toNat = _
      rw [hword]
      omega
    · intro j hj
      have halone := h.alone j (goto_writing hj hp)
      omega
  | enter i w hfree hsmall hw =>
    have hreaders := readers_goto hfree.1 .reading
    have hwriters := writers_goto hfree.2 .reading
    simp only [Pc.reads, Pc.writes, Bool.toNat_false, Bool.toNat_true, Nat.add_zero] at hreaders hwriters
    have hzero : s.writers = 0 := by omega
    refine ⟨?_, ?_, ?_⟩
    · change w.toNat = (s.goto i .reading).readers + 2 ^ 31 * (s.goto i .reading).writers
      omega
    · change (s.goto i .reading).writers ≤ 1
      omega
    · intro j hj
      have hpos := writers_pos (s := s) (i := j) (by rw [goto_writing hj (by simp)]; rfl)
      omega
  | leave i w hreads hw =>
    have hnot : (s.pc i).writes = false := by
      cases hpc : s.pc i <;> simp [hpc, Pc.reads, Pc.writes] at hreads ⊢
    have hreaders := readers_goto hreads .idle
    have hwriters := writers_goto hnot .idle
    have hpos := readers_pos hreads
    simp only [Pc.reads, Pc.writes, Bool.toNat_false, Bool.toNat_true, Nat.add_zero] at hreaders hwriters
    have hsub : w.toNat = s.word.toNat - 1 := by
      rw [hw, BitVec.toNat_sub_of_le]
      · rfl
      · rw [BitVec.le_def, show (1#32).toNat = 1 from rfl]
        omega
    refine ⟨?_, ?_, ?_⟩
    · change w.toNat = (s.goto i .idle).readers + 2 ^ 31 * (s.goto i .idle).writers
      omega
    · change (s.goto i .idle).writers ≤ 1
      omega
    · intro j hj
      have halone := h.alone j (goto_writing hj (by simp))
      omega
  | flag i w hfree hsmall hw =>
    have hreaders := readers_goto hfree.1 .wait
    have hwriters := writers_goto hfree.2 .wait
    simp only [Pc.reads, Pc.writes, Bool.toNat_false, Bool.toNat_true, Nat.add_zero] at hreaders hwriters
    have hzero : s.writers = 0 := by omega
    refine ⟨?_, ?_, ?_⟩
    · change w.toNat = (s.goto i .wait).readers + 2 ^ 31 * (s.goto i .wait).writers
      omega
    · change (s.goto i .wait).writers ≤ 1
      omega
    · intro j hj
      have hpos := writers_pos (s := s) (i := j) (by rw [goto_writing hj (by simp)]; rfl)
      omega
  | drained i hi h0 =>
    have hreaders := readers_goto (congrArg Pc.reads hi) .writing
    have hwriters := writers_goto (congrArg Pc.writes hi) .writing
    simp only [Pc.reads, Pc.writes, Bool.toNat_false, Bool.toNat_true, Nat.add_zero] at hreaders hwriters
    refine ⟨?_, by omega, ?_⟩
    · change s.word.toNat = _
      rw [hword]
      omega
    · intro j _
      omega
  | unlock i hi =>
    have hreaders := readers_goto (congrArg Pc.reads hi) .idle
    have hwriters := writers_goto (congrArg Pc.writes hi) .idle
    simp only [Pc.reads, Pc.writes, Bool.toNat_false, Bool.toNat_true, Nat.add_zero] at hreaders hwriters
    have halone := h.alone i hi
    refine ⟨?_, ?_, ?_⟩
    · change 0 = (s.goto i .idle).readers + 2 ^ 31 * (s.goto i .idle).writers
      omega
    · change (s.goto i .idle).writers ≤ 1
      omega
    · intro j _
      change (s.goto i .idle).readers = 0
      omega

/-- Whatever the threads do and in whatever order, a writer is alone, the word counts the readers, so that it
never underflows, and it is zero when nobody has the lock or waits for it with its flag set. -/
theorem run_excludes (hcard : Fintype.card ι < 2 ^ 31) {acts : List (Act ι)} {outs : List Unit}
    (he : exec step State.init acts = some (s, outs)) :
    (∀ i j, s.pc i = .writing → i ≠ j → (s.pc j).reads = false ∧ s.pc j ≠ .writing) ∧
    (s.word &&& numReadersMask).toNat = s.readers ∧
    (∀ i, (s.pc i).reads = true → s.word &&& numReadersMask ≠ 0#32) ∧
    ((∀ i, (s.pc i).reads = false ∧ (s.pc i).writes = false) → s.word = 0#32) := by
  have hinv : Inv s := exec_invariant (C := fun _ _ => True) (fun _ _ _ _ h _ hs => h.move hcard (step_move hs)) init_inv
    (meets_of_forall (fun _ _ => trivial) _ _) he
  have hword := hinv.word
  have hlt := readers_lt hcard s
  have hcount : (s.word &&& numReadersMask).toNat = s.readers := by
    rw [toNat_and_mask, hword]
    omega
  refine ⟨?_, hcount, ?_, ?_⟩
  · intro i j hi hij
    have hzero := hinv.alone i hi
    refine ⟨?_, ?_⟩
    · by_contra hj
      have hpos := readers_pos (Bool.eq_true_of_not_eq_false hj)
      omega
    · intro hj
      have htwo := add_le_tally (fun p => p.writes.toNat) s.pc hij
      rw [hi, hj] at htwo
      exact absurd (hinv.single.trans' htwo) (by decide)
  · intro i hi h0
    have hpos := readers_pos hi
    rw [← hcount, h0] at hpos
    exact absurd hpos (by decide)
  · intro hnone
    have hreaders : s.readers = 0 := tally_eq_zero.mpr (fun i => by simp [(hnone i).1])
    have hwriters : s.writers = 0 := tally_eq_zero.mpr (fun i => by simp [(hnone i).2])
    rw [hreaders, hwriters] at hword
    exact BitVec.eq_of_toNat_eq hword

/-- A writer comes between a reader's lock and its unlock and enters once the reader has left. -/
theorem run_excludes_drain : ∃ s : State (Fin 2),
    exec step State.init [.call 0 .readLock, .run 0, .run 0, .call 1 .writeLock, .run 1, .run 1, .run 1,
      .call 0 .readUnlock, .run 0, .run 0, .run 1] = some (s, List.replicate 11 ()) ∧
    s.pc 1 = .writing ∧ (s.pc 0).reads = false := by
  obtain ⟨⟨s, outs⟩, he⟩ := Option.isSome_iff_exists.mp (show (exec step (State.init : State (Fin 2))
    [.call 0 .readLock, .run 0, .run 0, .call 1 .writeLock, .run 1, .run 1, .run 1, .call 0 .readUnlock, .run 0, .run 0,
      .run 1]).isSome by decide)
  have hs : s.pc 1 = .writing ∧ outs = List.replicate 11 () := by
    have hpc : (exec step (State.init : State (Fin 2)) [.call 0 .readLock, .run 0, .run 0, .call 1 .writeLock, .run 1,
      .run 1, .run 1, .call 0 .readUnlock, .run 0, .run 0, .run 1]).map (fun r => (r.1.pc 1, r.2)) =
        some (.writing, List.replicate 11 ()) := by decide
    rw [he] at hpc
    exact Prod.mk.inj (Option.some.inj hpc)
  refine ⟨s, by rw [he, hs.2], hs.1, ?_⟩
  exact ((run_excludes (by decide) he).1 1 0 hs.1 (by decide)).1

end RaleighSL.Zcl.RwLock
