import Mathlib.Data.BitVec
import Mathlib.Tactic.Common

/-!
# The read-write-commit semaphore

`threading/locking.c` keeps the whole semaphore in one 32-bit word: the number of
readers in the low 29 bits and a write, a commit and a lock flag above them. Every
operation is a compare-and-swap loop. A round of the loop, given the word it has
loaded, returns or names the word it expects and the word it would put there.

Below the words stand the fields they are made of. On words whose reader field
does not overflow the operations act field by field.
-/
namespace RaleighSL.Zcl.RwcSem

abbrev Word := BitVec 32

def writeFlag : Word := 0x20000000#32
def commitFlag : Word := 0x40000000#32
def lockFlag : Word := 0x80000000#32
def readersMask : Word := 0x1fffffff#32
def rwMask : Word := 0x3fffffff#32
def cwMask : Word := 0x60000000#32
def lcMask : Word := 0xC0000000#32

inductive Op where
  | read
  | write
  | commit
  | lock
  deriving DecidableEq, Repr

/-- The body of a `z_atomic_cas_loop`. -/
inductive Round where
  | ret (result : Word)
  | swap (expval newval : Word)
  deriving DecidableEq

/-- The new word, if the compare-and-swap of the round succeeds on this one. -/
def Round.cas (w : Word) : Round → Option Word
  | .ret _ => none
  | .swap expval newval => if w = expval then some newval else none

def tryAcquireRead (curval : Word) : Round :=
  if curval &&& commitFlag ≠ 0#32 then .ret 0#32
  else .swap (curval &&& rwMask) ((curval &&& rwMask) + 1#32)

def releaseRead (curval : Word) : Round := .swap curval (curval - 1#32)

def tryAcquireWrite (curval : Word) : Round :=
  if curval &&& cwMask ≠ 0#32 then .ret 0#32
  else .swap (curval &&& readersMask) ((curval &&& readersMask) ||| writeFlag)

def releaseWrite (curval : Word) : Round := .swap curval (curval &&& lcMask)

def setCommitFlag (curval : Word) : Round := .swap curval (curval ||| commitFlag)

def tryAcquireCommit (curval : Word) : Round :=
  if curval ≠ commitFlag then .ret 0#32 else .swap commitFlag (commitFlag ||| writeFlag)

def releaseCommit (curval : Word) : Round := .swap curval (curval &&& lockFlag)

def setLockFlag (curval : Word) : Round := .swap curval (curval ||| lockFlag)

def tryAcquireLock (curval : Word) : Round :=
  if curval ≠ lockFlag then .ret 0#32 else .swap lockFlag (lockFlag ||| writeFlag)

def tryReleaseLock (curval : Word) : Round := .swap curval 0#32

/-- `z_rwcsem_try_switch`. From write to commit the word stays as it is. -/
def trySwitch (current next : Op) (curval : Word) : Round :=
  match current, next with
  | .write, .read =>
    if curval &&& commitFlag ≠ 0#32 then .ret 0#32
    else .swap (curval &&& rwMask) (((curval &&& rwMask) &&& lcMask) + 1#32)
  | .write, .commit => .ret (if curval = commitFlag ||| writeFlag then 1#32 else 0#32)
  | _, _ => .ret 0#32

def tryAcquire : Op → Word → Round
  | .read => tryAcquireRead
  | .write => tryAcquireWrite
  | .commit => tryAcquireCommit
  | .lock => tryAcquireLock

def release : Op → Word → Round
  | .read => releaseRead
  | .write => releaseWrite
  | .commit => releaseCommit
  | .lock => tryReleaseLock

theorem and_and_mask (w : Word) {m m' : Word} (h : m &&& m' = m) : (w &&& m) &&& m' = w &&& m := by
  rw [BitVec.and_assoc, h]

theorem and_and_disjoint (w : Word) {m m' : Word} (h : m &&& m' = 0#32) : (w &&& m) &&& m' = 0#32 := by
  rw [BitVec.and_assoc, h, BitVec.and_zero]

/-- A round computed from a word that was loaded earlier takes place only as the round of the word it
meets, so that load and swap count as one step. -/
theorem tryAcquire_stale {op : Op} {curval expval newval : Word} (h : tryAcquire op curval = .swap expval newval) :
    tryAcquire op expval = .swap expval newval := by
  cases op with
  | read =>
    simp only [tryAcquire, tryAcquireRead] at h ⊢
    split_ifs at h
    obtain ⟨rfl, rfl⟩ := Round.swap.inj h
    rw [and_and_disjoint _ (by decide), and_and_mask _ (by decide), if_neg (by simp)]
  | write =>
    simp only [tryAcquire, tryAcquireWrite] at h ⊢
    split_ifs at h
    obtain ⟨rfl, rfl⟩ := Round.swap.inj h
    rw [and_and_disjoint _ (by decide), and_and_mask _ (by decide), if_neg (by simp)]
  | commit =>
    simp only [tryAcquire, tryAcquireCommit] at h ⊢
    split_ifs at h
    obtain ⟨rfl, rfl⟩ := Round.swap.inj h
    rw [if_neg (by simp)]
  | lock =>
    simp only [tryAcquire, tryAcquireLock] at h ⊢
    split_ifs at h
    obtain ⟨rfl, rfl⟩ := Round.swap.inj h
    rw [if_neg (by simp)]

theorem trySwitch_stale {current next : Op} {curval expval newval : Word}
    (h : trySwitch current next curval = .swap expval newval) : trySwitch current next expval = .swap expval newval := by
  cases current <;> cases next <;> simp only [trySwitch, reduceCtorEq] at h ⊢
  split_ifs at h
  obtain ⟨rfl, rfl⟩ := Round.swap.inj h
  rw [and_and_disjoint _ (by decide), and_and_mask _ (by decide), if_neg (by simp)]

/-! ### Fields -/

@[ext] structure Sem where
  readers : Nat
  write : Bool
  commit : Bool
  lock : Bool
  deriving DecidableEq, Repr

def pack (lock commit write : Bool) (readers : BitVec 29) : Word :=
  BitVec.ofBool lock ++ (BitVec.ofBool commit ++ (BitVec.ofBool write ++ readers))

namespace Sem

def free : Sem := { readers := 0, write := false, commit := false, lock := false }

def word (x : Sem) : Word := pack x.lock x.commit x.write (BitVec.ofNat 29 x.readers)

/-- The acquires on the fields. Without a result the caller gets zero back or spins. -/
def acquire (x : Sem) : Op → Option Sem
  | .read => if x.commit ∨ x.lock then none else some { x with readers := x.readers + 1 }
  | .write => if x.write ∨ x.commit ∨ x.lock then none else some { x with write := true }
  | .commit => if x = { free with commit := true } then some { x with write := true } else none
  | .lock => if x = { free with lock := true } then some { x with write := true } else none

/-- The releases on the fields. A reader that is not counted has no result here, the word would
wrap around. The release of a write forgets all readers. -/
def release (x : Sem) : Op → Option Sem
  | .read => if x.readers = 0 then none else some { x with readers := x.readers - 1 }
  | .write => some { x with readers := 0, write := false }
  | .commit => some { free with lock := x.lock }
  | .lock => some free

def setCommit (x : Sem) : Sem := { x with commit := true }

def setLock (x : Sem) : Sem := { x with lock := true }

/-- A successful switch. From write to read all other readers are forgotten. -/
def switch (x : Sem) : Op → Op → Option Sem
  | .write, .read => if x.commit ∨ x.lock then none else some { free with readers := 1 }
  | .write, .commit => if x = { free with write := true, commit := true } then some x else none
  | _, _ => none

/-- A failed round of the read or the write that does not return but spins on the lock flag. -/
def spins (x : Sem) : Op → Bool
  | .read => !x.commit && x.lock
  | .write => !x.write && !x.commit && x.lock
  | _ => false

def ofWord (w : Word) : Sem where
  readers := (w.extractLsb' 0 29).toNat
  write := w.getLsbD 29
  commit := w.getLsbD 30
  lock := w.getLsbD 31

/-- The releases on the fields, where a reader that is not counted borrows from the flags. -/
def drop (x : Sem) (op : Op) : Sem := (x.release op).getD (ofWord (x.word - 1#32))

end Sem

theorem pack_and (l c w l' c' w' : Bool) (n n' : BitVec 29) :
    pack l c w n &&& pack l' c' w' n' = pack (l && l') (c && c') (w && w') (n &&& n') := by
  simp only [pack]
  rw [BitVec.and_append, BitVec.and_append, BitVec.and_append]
  cases l <;> cases l' <;> cases c <;> cases c' <;> cases w <;> cases w' <;> rfl

theorem pack_or (l c w l' c' w' : Bool) (n n' : BitVec 29) :
    pack l c w n ||| pack l' c' w' n' = pack (l || l') (c || c') (w || w') (n ||| n') := by
  simp only [pack]
  rw [BitVec.or_append, BitVec.or_append, BitVec.or_append]
  cases l <;> cases l' <;> cases c <;> cases c' <;> cases w <;> cases w' <;> rfl

theorem toNat_append_eq {m n : Nat} (x : BitVec m) (y : BitVec n) :
    (x ++ y).toNat = x.toNat * 2 ^ n + y.toNat := by
  rw [BitVec.toNat_append, ← Nat.shiftLeft_add_eq_or_of_lt y.isLt, Nat.shiftLeft_eq]

theorem toNat_pack (l c w : Bool) (n : BitVec 29) :
    (pack l c w n).toNat = n.toNat + 2 ^ 29 * w.toNat + 2 ^ 30 * c.toNat + 2 ^ 31 * l.toNat := by
  simp only [pack, toNat_append_eq, BitVec.toNat_ofBool]
  omega

namespace Sem

variable {x y : Sem}

theorem toNat_word (hx : x.readers < 2 ^ 29) :
    x.word.toNat = x.readers + 2 ^ 29 * x.write.toNat + 2 ^ 30 * x.commit.toNat + 2 ^ 31 * x.lock.toNat := by
  rw [word, toNat_pack, BitVec.toNat_ofNat, Nat.mod_eq_of_lt hx]

theorem word_and (x : Sem) (l c w : Bool) : x.word &&& pack l c w 0#29 =
    word { readers := 0, write := x.write && w, commit := x.commit && c, lock := x.lock && l } := by
  rw [word, pack_and, BitVec.and_zero]
  rfl

theorem word_and_readers (x : Sem) (l c w : Bool) : x.word &&& pack l c w (BitVec.allOnes 29) =
    word { readers := x.readers, write := x.write && w, commit := x.commit && c, lock := x.lock && l } := by
  rw [word, pack_and, BitVec.and_allOnes]
  rfl

theorem word_or (x : Sem) (l c w : Bool) : x.word ||| pack l c w 0#29 =
    word { readers := x.readers, write := x.write || w, commit := x.commit || c, lock := x.lock || l } := by
  rw [word, pack_or, BitVec.or_zero]
  rfl

theorem toNat_bool_inj {a b : Bool} (h : a.toNat = b.toNat) : a = b := by
  cases a <;> cases b <;> simp_all

theorem word_inj (hx : x.readers < 2 ^ 29) (hy : y.readers < 2 ^ 29) : x.word = y.word ↔ x = y := by
  constructor
  · intro h
    have hnat := congrArg BitVec.toNat h
    rw [toNat_word hx, toNat_word hy] at hnat
    have hw := Bool.toNat_le x.write
    have hc := Bool.toNat_le x.commit
    have hl := Bool.toNat_le x.lock
    have hw' := Bool.toNat_le y.write
    have hc' := Bool.toNat_le y.commit
    have hl' := Bool.toNat_le y.lock
    apply Sem.ext
    · omega
    · exact toNat_bool_inj (by omega)
    · exact toNat_bool_inj (by omega)
    · exact toNat_bool_inj (by omega)
  · rintro rfl
    rfl

theorem word_add_one (hx : x.readers + 1 < 2 ^ 29) : x.word + 1#32 = word { x with readers := x.readers + 1 } := by
  apply BitVec.eq_of_toNat_eq
  rw [BitVec.toNat_add, toNat_word (by omega), toNat_word hx]
  have hw := Bool.toNat_le x.write
  have hc := Bool.toNat_le x.commit
  have hl := Bool.toNat_le x.lock
  show (_ + 1) % 2 ^ 32 = _
  rw [Nat.mod_eq_of_lt (by omega)]
  simp only
  omega

theorem word_sub_one (hx : x.readers < 2 ^ 29) (h0 : 0 < x.readers) :
    x.word - 1#32 = word { x with readers := x.readers - 1 } := by
  have hadd := word_add_one (x := { x with readers := x.readers - 1 }) (by simp only; omega)
  simp only [Nat.sub_add_cancel h0] at hadd
  rw [show ({ readers := x.readers, write := x.write, commit := x.commit, lock := x.lock } : Sem) = x from rfl] at hadd
  rw [← hadd, BitVec.add_sub_cancel]

/-! ### The operations on the fields -/

theorem rwMask_eq : rwMask = pack false false true (BitVec.allOnes 29) := by decide

theorem readersMask_eq : readersMask = pack false false false (BitVec.allOnes 29) := by decide

theorem cwMask_eq : cwMask = pack false true true 0#29 := by decide

theorem lcMask_eq : lcMask = pack true true false 0#29 := by decide

theorem writeFlag_eq : writeFlag = pack false false true 0#29 := by decide

theorem commitFlag_eq : commitFlag = pack false true false 0#29 := by decide

theorem lockFlag_eq : lockFlag = pack true false false 0#29 := by decide

theorem word_eq_zero (hx : x.readers < 2 ^ 29) : x.word = 0#32 ↔ x = free := by
  rw [show 0#32 = free.word from rfl]
  exact word_inj hx (by decide)

theorem and_commitFlag (x : Sem) : x.word &&& commitFlag = 0#32 ↔ x.commit = false := by
  rw [commitFlag_eq, word_and, word_eq_zero (by simp)]
  simp [free]

theorem and_cwMask (x : Sem) : x.word &&& cwMask = 0#32 ↔ x.write = false ∧ x.commit = false := by
  rw [cwMask_eq, word_and, word_eq_zero (by simp)]
  simp [free]

theorem and_rwMask (x : Sem) : x.word &&& rwMask = word { x with commit := false, lock := false } := by
  rw [rwMask_eq, word_and_readers]
  simp

theorem and_readersMask (x : Sem) : x.word &&& readersMask = word { free with readers := x.readers } := by
  rw [readersMask_eq, word_and_readers]
  simp [free]

theorem and_rwMask_eq (hx : x.readers < 2 ^ 29) : x.word = x.word &&& rwMask ↔ x.commit = false ∧ x.lock = false := by
  rw [and_rwMask, word_inj hx (by exact hx), Sem.ext_iff]
  simp

theorem and_readersMask_eq (hx : x.readers < 2 ^ 29) :
    x.word = x.word &&& readersMask ↔ x.write = false ∧ x.commit = false ∧ x.lock = false := by
  rw [and_readersMask, word_inj hx (by exact hx), Sem.ext_iff]
  simp [free]

theorem cas_acquire (hx : x.readers + 1 < 2 ^ 29) (op : Op) :
    (tryAcquire op x.word).cas x.word = (x.acquire op).map word := by
  have hx' : x.readers < 2 ^ 29 := by omega
  cases op with
  | read =>
    rw [tryAcquire, tryAcquireRead, acquire]
    by_cases hc : x.commit = false
    · by_cases hl : x.lock = false
      · have hsame := (and_rwMask_eq hx').mpr ⟨hc, hl⟩
        rw [if_neg (by simpa [and_commitFlag] using hc), if_neg (by simp [hc, hl]), ← hsame, word_add_one hx]
        simp [Round.cas]
      · have hne : x.word ≠ x.word &&& rwMask := fun h => hl ((and_rwMask_eq hx').mp h).2
        rw [if_neg (by simpa [and_commitFlag] using hc), if_pos (by simpa using Or.inr hl)]
        simp [Round.cas, hne]
    · rw [if_pos (by simpa [and_commitFlag] using hc), if_pos (by simpa using Or.inl hc)]
      rfl
  | write =>
    rw [tryAcquire, tryAcquireWrite, acquire]
    by_cases hwc : x.write = false ∧ x.commit = false
    · by_cases hl : x.lock = false
      · have hsame := (and_readersMask_eq hx').mpr ⟨hwc.1, hwc.2, hl⟩
        rw [if_neg (by simpa [and_cwMask] using hwc), if_neg (by simp [hwc.1, hwc.2, hl]), ← hsame, writeFlag_eq, word_or]
        simp [Round.cas]
      · have hne : x.word ≠ x.word &&& readersMask := fun h => hl ((and_readersMask_eq hx').mp h).2.2
        rw [if_neg (by simpa [and_cwMask] using hwc), if_pos (by simp_all)]
        simp [Round.cas, hne]
    · rw [if_pos (by simpa [and_cwMask] using hwc), if_pos (by grind)]
      rfl
  | commit =>
    have hflag : commitFlag = word { free with commit := true } := commitFlag_eq
    rw [tryAcquire, tryAcquireCommit, acquire, hflag]
    by_cases hx₁ : x = { free with commit := true }
    · rw [if_pos hx₁, hx₁, writeFlag_eq, word_or]
      simp [Round.cas]
    · have hne : x.word ≠ word { free with commit := true } := fun h => hx₁ ((word_inj hx' (by decide)).mp h)
      rw [if_neg hx₁, if_pos hne]
      rfl
  | lock =>
    have hflag : lockFlag = word { free with lock := true } := lockFlag_eq
    rw [tryAcquire, tryAcquireLock, acquire, hflag]
    by_cases hx₁ : x = { free with lock := true }
    · rw [if_pos hx₁, hx₁, writeFlag_eq, word_or]
      simp [Round.cas]
    · have hne : x.word ≠ word { free with lock := true } := fun h => hx₁ ((word_inj hx' (by decide)).mp h)
      rw [if_neg hx₁, if_pos hne]
      rfl

theorem cas_release (hx : x.readers < 2 ^ 29) {op : Op} (hread : op = .read → 0 < x.readers) :
    (RwcSem.release op x.word).cas x.word = (x.release op).map word := by
  cases op with
  | read =>
    have h0 := hread rfl
    rw [RwcSem.release, releaseRead, word_sub_one hx h0, Sem.release, if_neg (Nat.pos_iff_ne_zero.mp h0)]
    simp [Round.cas]
  | write =>
    rw [RwcSem.release, releaseWrite, lcMask_eq, word_and, Sem.release]
    simp [Round.cas]
  | commit =>
    rw [RwcSem.release, releaseCommit, lockFlag_eq, word_and, Sem.release]
    simp [Round.cas, free]
  | lock =>
    rw [RwcSem.release, tryReleaseLock, Sem.release]
    simp [Round.cas]
    rfl

theorem word_ofWord (w : Word) : (ofWord w).word = w := by
  apply BitVec.eq_of_getLsbD_eq
  intro i hi
  simp only [word, pack, ofWord, BitVec.ofNat_toNat, BitVec.setWidth_eq, BitVec.getLsbD_append, BitVec.getLsbD_extractLsb',
    BitVec.getLsbD_ofBool, Nat.zero_add]
  by_cases h₀ : i < 29
  · simp [h₀, show i < 30 by omega, show i < 31 by omega]
  · obtain rfl | rfl | rfl : i = 29 ∨ i = 30 ∨ i = 31 := by omega
    · simp
    · simp
    · simp

/-- A release takes place on every word, whether the reader is counted or not. -/
theorem cas_drop (hx : x.readers < 2 ^ 29) (op : Op) :
    (RwcSem.release op x.word).cas x.word = some (x.drop op).word := by
  by_cases h : op = .read ∧ x.readers = 0
  · obtain ⟨rfl, h0⟩ := h
    rw [drop, Sem.release, if_pos h0, Option.getD_none, word_ofWord]
    simp [RwcSem.release, releaseRead, Round.cas]
  · have hread : op = .read → 0 < x.readers := fun hop => Nat.pos_of_ne_zero (fun h0 => h ⟨hop, h0⟩)
    rw [cas_release hx hread, drop]
    cases op with
    | read => simp [Sem.release, Nat.pos_iff_ne_zero.mp (hread rfl)]
    | write => rfl
    | commit => rfl
    | lock => rfl

/-- Where an acquire has no result, the round returns zero unless it spins. -/
theorem tryAcquire_fail (hx : x.readers < 2 ^ 29) {op : Op} (h : x.acquire op = none) :
    tryAcquire op x.word = .ret 0#32 ↔ x.spins op = false := by
  cases op with
  | read =>
    simp only [acquire, ite_eq_left_iff, reduceCtorEq, imp_false, not_not] at h
    have hc := and_commitFlag x
    cases hx₁ : x.commit <;> simp_all [tryAcquire, tryAcquireRead, spins]
  | write =>
    simp only [acquire, ite_eq_left_iff, reduceCtorEq, imp_false, not_not] at h
    have hc := and_cwMask x
    cases hx₁ : x.commit <;> cases hx₂ : x.write <;> simp_all [tryAcquire, tryAcquireWrite, spins]
  | commit =>
    simp only [acquire, ite_eq_right_iff, reduceCtorEq, imp_false] at h
    have hne : x.word ≠ commitFlag := by
      rw [commitFlag_eq]
      exact fun hw => h ((word_inj (y := { free with commit := true }) hx (by decide)).mp hw)
    simp [tryAcquire, tryAcquireCommit, hne, spins]
  | lock =>
    simp only [acquire, ite_eq_right_iff, reduceCtorEq, imp_false] at h
    have hne : x.word ≠ lockFlag := by
      rw [lockFlag_eq]
      exact fun hw => h ((word_inj (y := { free with lock := true }) hx (by decide)).mp hw)
    simp [tryAcquire, tryAcquireLock, hne, spins]

theorem cas_setCommit (x : Sem) : (setCommitFlag x.word).cas x.word = some x.setCommit.word := by
  rw [setCommitFlag, commitFlag_eq, word_or]
  simp [Round.cas, setCommit]

theorem cas_setLock (x : Sem) : (setLockFlag x.word).cas x.word = some x.setLock.word := by
  rw [setLockFlag, lockFlag_eq, word_or]
  simp [Round.cas, setLock]

theorem cas_switch_read (hx : x.readers < 2 ^ 29) :
    (trySwitch .write .read x.word).cas x.word = (x.switch .write .read).map word := by
  rw [trySwitch, switch]
  by_cases hc : x.commit = false
  · by_cases hl : x.lock = false
    · have hsame := (and_rwMask_eq hx).mpr ⟨hc, hl⟩
      rw [if_neg (by simpa [and_commitFlag] using hc), if_neg (by simp [hc, hl]), ← hsame, lcMask_eq, word_and,
        word_add_one (by simp)]
      simp [Round.cas, hc, hl, free]
    · have hne : x.word ≠ x.word &&& rwMask := fun h => hl ((and_rwMask_eq hx).mp h).2
      rw [if_neg (by simpa [and_commitFlag] using hc), if_pos (by simpa using Or.inr hl)]
      simp [Round.cas, hne]
  · rw [if_pos (by simpa [and_commitFlag] using hc), if_pos (by simpa using Or.inl hc)]
    rfl

theorem switch_commit (hx : x.readers < 2 ^ 29) :
    trySwitch .write .commit x.word = .ret (if (x.switch .write .commit).isSome then 1#32 else 0#32) := by
  have hflag : commitFlag ||| writeFlag = word { free with write := true, commit := true } := by decide
  rw [trySwitch, switch, hflag]
  by_cases hx₁ : x = { free with write := true, commit := true }
  · simp [hx₁]
  · have hne : x.word ≠ word { free with write := true, commit := true } := fun h => hx₁ ((word_inj hx (by decide)).mp h)
    simp [hx₁, hne]

end Sem

end RaleighSL.Zcl.RwcSem
