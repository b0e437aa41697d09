import RaleighSL.Zcl.RwcHolders
import Mathlib.Data.Fintype.Card
import Mathlib.Data.Set.Finite.Basic

/-!
# Tasks on the semaphore word

Fewer than `2 ^ 29` tasks call the operations of the semaphore in any order, each
releasing or switching only what it holds. One step is one call whose round takes
place. The word keeps account of the holders in every state of a run exactly if
no step of it releases a write, or turns one into a read, while a task reads.
-/
namespace RaleighSL.Zcl.RwcSem
open RaleighSL.Library

structure State (ι : Type*) where
  word : Word
  hold : ι → Option Op

inductive Act (ι : Type*) where
  | acquire (k : ι) (op : Op)
  | release (k : ι)
  | setCommit (k : ι)
  | setLock (k : ι)
  | switch (k : ι) (next : Op)

variable {ι : Type*} [DecidableEq ι]

def State.init : State ι := { word := 0#32, hold := fun _ => none }

/-- A call and the value it returns. A call whose round cannot take place spins and has no result,
and neither has a call of a task that is not in a position to make it. -/
def step (s : State ι) : Act ι → Option (State ι × Word)
  | .acquire k op =>
    if s.hold k ≠ none then none
    else
      match tryAcquire op s.word with
      | .ret v => some (s, v)
      | .swap expval newval =>
        if s.word = expval then some ({ word := newval, hold := Function.update s.hold k (some op) }, 1#32) else none
  | .release k =>
    match s.hold k with
    | none => none
    | some op => ((release op s.word).cas s.word).map (fun w => ({ word := w, hold := Function.update s.hold k none }, w))
  | .setCommit _ => ((setCommitFlag s.word).cas s.word).map (fun w => ({ s with word := w }, 0#32))
  | .setLock _ => ((setLockFlag s.word).cas s.word).map (fun w => ({ s with word := w }, 0#32))
  | .switch k next =>
    match s.hold k with
    | none => none
    | some op =>
      match trySwitch op next s.word with
      | .ret v => some (if v = 0#32 then s else { s with hold := Function.update s.hold k (some next) }, v)
      | .swap expval newval =>
        if s.word = expval then some ({ word := newval, hold := Function.update s.hold k (some next) }, newval) else none

def readersOf (w : Word) : Nat := (w &&& readersMask).toNat

def flagsOf (w : Word) : Word := w &&& ~~~readersMask

/-- No task reads when a write is released, or when it becomes a read. -/
def ReadersGone (s : State ι) : Act ι → Prop
  | .release k => s.hold k = some .write → ∀ j, s.hold j ≠ some .read
  | .switch k .read => s.hold k = some .write → s.word = s.word &&& rwMask → ∀ j, s.hold j ≠ some .read
  | _ => True

variable [Fintype ι]

instance (s : State ι) : (a : Act ι) → Decidable (ReadersGone s a)
  | .release k => inferInstanceAs (Decidable (s.hold k = some .write → ∀ j, s.hold j ≠ some .read))
  | .switch k .read =>
    inferInstanceAs (Decidable (s.hold k = some .write → s.word = s.word &&& rwMask → ∀ j, s.hold j ≠ some .read))
  | .switch _ .write => .isTrue trivial
  | .switch _ .commit => .isTrue trivial
  | .switch _ .lock => .isTrue trivial
  | .acquire _ _ => .isTrue trivial
  | .setCommit _ => .isTrue trivial
  | .setLock _ => .isTrue trivial

variable {s s' : State ι} {a : Act ι} {v : Word} {k : ι}

/-- The word keeps account of what the tasks hold. -/
structure Accounts (s : State ι) : Prop where
  readers : readersOf s.word = (Finset.univ.filter (fun k => s.hold k = some .read)).card
  write : s.word &&& writeFlag ≠ 0#32 ↔ ∃! k, Exclusive (s.hold k)
  alone : ∀ k, s.hold k = some .commit ∨ s.hold k = some .lock → ∀ j, j ≠ k → s.hold j = none
  acquire : ∀ k s', step s (.acquire k .read) = some (s', 1#32) →
    readersOf s'.word = readersOf s.word + 1 ∧ flagsOf s'.word = flagsOf s.word
  release : ∀ k s' v, s.hold k = some .read → step s (.release k) = some (s', v) →
    readersOf s'.word + 1 = readersOf s.word ∧ flagsOf s'.word = flagsOf s.word

/-- The word is made of fields that tell what the tasks hold. -/
def Tells (s : State ι) (x : Sem) : Prop := s.word = x.word ∧ Held x s.hold

omit [DecidableEq ι] [Fintype ι] in
theorem init_tells : Tells (State.init : State ι) Sem.free := ⟨rfl, held_free⟩

omit [DecidableEq ι] in
theorem Held.readers_le_card {x : Sem} {hold : ι → Option Op} (h : Held x hold) : x.readers ≤ Fintype.card ι := by
  have hle := Set.encard_le_encard (Set.subset_univ {k | hold k = some .read})
  rw [h.readers, Set.encard_univ, ENat.card_eq_coe_fintype_card] at hle
  exact_mod_cast hle

omit [DecidableEq ι] in
theorem Held.readers_lt_card {x : Sem} {hold : ι → Option Op} (h : Held x hold) (hk : hold k ≠ some .read) :
    x.readers < Fintype.card ι := by
  have hle := Set.encard_le_encard (Set.subset_univ (insert k {j | hold j = some .read}))
  rw [Set.encard_insert_of_notMem (by simpa using hk), h.readers, Set.encard_univ, ENat.card_eq_coe_fintype_card] at hle
  have hnat : x.readers + 1 ≤ Fintype.card ι := by exact_mod_cast hle
  omega

section Bounded

variable {x x' : Sem} (hcard : Fintype.card ι < 2 ^ 29)

omit [DecidableEq ι] [Fintype ι] in
theorem tryAcquire_ret {op : Op} {w r : Word} (h : tryAcquire op w = .ret r) : r = 0#32 := by
  cases op with
  | read =>
    rw [tryAcquire, tryAcquireRead] at h
    split_ifs at h
    exact (Round.ret.inj h).symm
  | write =>
    rw [tryAcquire, tryAcquireWrite] at h
    split_ifs at h
    exact (Round.ret.inj h).symm
  | commit =>
    rw [tryAcquire, tryAcquireCommit] at h
    split_ifs at h
    exact (Round.ret.inj h).symm
  | lock =>
    rw [tryAcquire, tryAcquireLock] at h
    split_ifs at h
    exact (Round.ret.inj h).symm

include hcard in
/-- An acquire fails, or it takes place on the fields. -/
theorem Tells.acquire_cases (h : Tells s x) {op : Op} (hs : step s (.acquire k op) = some (s', v)) :
    (s' = s ∧ v = 0#32) ∨ (s.hold k = none ∧ x.readers + 1 < 2 ^ 29 ∧ ∃ x', x.acquire op = some x' ∧
      s' = { word := x'.word, hold := Function.update s.hold k (some op) }) := by
  obtain ⟨hword, hheld⟩ := h
  simp only [step] at hs
  split_ifs at hs with hk
  rw [not_not] at hk
  have hroom : x.readers + 1 < 2 ^ 29 := by
    have hlt := hheld.readers_lt_card (k := k) (by simp [hk])
    omega
  have hcas := Sem.cas_acquire hroom op
  rw [hword] at hs
  cases hround : tryAcquire op x.word with
  | ret r =>
    simp only [hround] at hs
    obtain ⟨rfl, rfl⟩ := Prod.mk.inj (Option.some.inj hs)
    exact Or.inl ⟨rfl, tryAcquire_ret hround⟩
  | swap expval newval =>
    simp only [hround, Round.cas] at hs hcas
    split_ifs at hs hcas with he
    obtain ⟨x', hx', hw'⟩ := Option.map_eq_some_iff.mp hcas.symm
    rw [← hw'] at hs
    exact Or.inr ⟨hk, hroom, x', hx', (Prod.mk.inj (Option.some.inj hs)).1.symm⟩

include hcard in
/-- A release takes place on the fields. -/
theorem Tells.release_cases (h : Tells s x) (hs : step s (.release k) = some (s', v)) :
    ∃ op x', s.hold k = some op ∧ x.release op = some x' ∧
      s' = { word := x'.word, hold := Function.update s.hold k none } := by
  obtain ⟨hword, hheld⟩ := h
  simp only [step] at hs
  cases hk : s.hold k with
  | none => simp [hk] at hs
  | some op =>
    simp only [hk] at hs
    have hpos : op = .read → 0 < x.readers := by
      rintro rfl
      exact (hheld.release_read hk).1
    rw [hword, Sem.cas_release (hheld.readers_le_card.trans_lt hcard) hpos, Option.map_map, Option.map_eq_some_iff] at hs
    obtain ⟨x', hx', heq⟩ := hs
    exact ⟨op, x', rfl, hx', (Prod.mk.inj heq).1.symm⟩

include hcard in
/-- What a step does to the fields and to the holders. -/
theorem Tells.step_cases (h : Tells s x) (hs : step s a = some (s', v)) :
    s' = s ∨
      (∃ k op x', a = .acquire k op ∧ s.hold k = none ∧ x.acquire op = some x' ∧
        s' = { word := x'.word, hold := Function.update s.hold k (some op) }) ∨
      (∃ k op x', a = .release k ∧ s.hold k = some op ∧ x.release op = some x' ∧
        s' = { word := x'.word, hold := Function.update s.hold k none }) ∨
      (∃ k, (a = .setCommit k ∧ s' = { word := x.setCommit.word, hold := s.hold }) ∨
        (a = .setLock k ∧ s' = { word := x.setLock.word, hold := s.hold })) ∨
      ∃ k next x', a = .switch k next ∧ s.hold k = some .write ∧ x.switch .write next = some x' ∧
        s' = { word := x'.word, hold := Function.update s.hold k (some next) } := by
  have htells := h
  obtain ⟨hword, hheld⟩ := h
  have hlt : x.readers < 2 ^ 29 := hheld.readers_le_card.trans_lt hcard
  cases a with
  | acquire k op =>
    rcases htells.acquire_cases hcard hs with ⟨rfl, -⟩ | ⟨hk, -, x', hx', rfl⟩
    · exact Or.inl rfl
    · exact Or.inr (Or.inl ⟨k, op, x', rfl, hk, hx', rfl⟩)
  | release k =>
    obtain ⟨op, x', hk, hx', rfl⟩ := htells.release_cases hcard hs
    exact Or.inr (Or.inr (Or.inl ⟨k, op, x', rfl, hk, hx', rfl⟩))
  | setCommit k =>
    simp only [step, hword, Sem.cas_setCommit, Option.map_some] at hs
    exact Or.inr (Or.inr (Or.inr (Or.inl ⟨k, Or.inl ⟨rfl, (Prod.mk.inj (Option.some.inj hs)).1.symm⟩⟩)))
  | setLock k =>
    simp only [step, hword, Sem.cas_setLock, Option.map_some] at hs
    exact Or.inr (Or.inr (Or.inr (Or.inl ⟨k, Or.inr ⟨rfl, (Prod.mk.inj (Option.some.inj hs)).1.symm⟩⟩)))
  | switch k next =>
    simp only [step] at hs
    cases hk : s.hold k with
    | none => simp [hk] at hs
    | some op =>
      simp only [hk] at hs
      by_cases hread : op = .write ∧ next = .read
      · obtain ⟨rfl, rfl⟩ := hread
        have hcas := Sem.cas_switch_read hlt
        rw [hword] at hs
        cases hround : trySwitch .write .read x.word with
        | ret r =>
          have hzero : r = 0#32 := by
            rw [trySwitch] at hround
            split_ifs at hround
            exact (Round.ret.inj hround).symm
          simp only [hround, hzero, if_true] at hs
          exact Or.inl (Prod.mk.inj (Option.some.inj hs)).1.symm
        | swap expval newval =>
          simp only [hround, Round.cas] at hs hcas
          split_ifs at hs hcas with he
          obtain ⟨x', hx', hw'⟩ := Option.map_eq_some_iff.mp hcas.symm
          rw [← hw'] at hs
          exact Or.inr (Or.inr (Or.inr (Or.inr ⟨k, .read, x', rfl, hk, hx', (Prod.mk.inj (Option.some.inj hs)).1.symm⟩)))
      by_cases hcommit : op = .write ∧ next = .commit
      · obtain ⟨rfl, rfl⟩ := hcommit
        rw [hword, Sem.switch_commit hlt] at hs
        cases hx' : x.switch .write .commit with
        | none =>
          simp only [hx', Option.isSome_none, Bool.false_eq_true, if_false, if_true] at hs
          exact Or.inl (Prod.mk.inj (Option.some.inj hs)).1.symm
        | some x' =>
          simp only [hx', Option.isSome_some, if_true] at hs
          have hsame : x' = x := by
            simp only [Sem.switch, Option.ite_none_right_eq_some, Option.some.injEq] at hx'
            exact hx'.2.symm
          refine Or.inr (Or.inr (Or.inr (Or.inr ⟨k, .commit, x', rfl, hk, hx', ?_⟩)))
          rw [hsame]
          exact ((Prod.mk.inj (Option.some.inj hs)).1.symm.trans (if_neg (by decide)))
      · have hret : trySwitch op next s.word = .ret 0#32 := by
          cases op <;> cases next <;> simp_all [trySwitch]
        simp only [hret, if_true] at hs
        exact Or.inl (Prod.mk.inj (Option.some.inj hs)).1.symm

include hcard in
theorem Tells.step (h : Tells s x) (hgone : ReadersGone s a) (hs : RwcSem.step s a = some (s', v)) :
    ∃ x', Tells s' x' := by
  have hheld := h.2
  rcases h.step_cases hcard hs with rfl | ⟨k, op, x', rfl, hk, hx', rfl⟩ | ⟨k, op, x', rfl, hk, hx', rfl⟩ |
    ⟨k, ⟨rfl, rfl⟩ | ⟨rfl, rfl⟩⟩ | ⟨k, next, x', rfl, hk, hx', rfl⟩
  · exact ⟨x, h⟩
  · exact ⟨x', rfl, hheld.acquire hk hx'⟩
  · refine ⟨x', rfl, hheld.release hk ?_ hx'⟩
    rintro rfl
    exact hheld.readers_eq_zero.mpr (hgone hk)
  · exact ⟨x.setCommit, rfl, hheld.setCommit⟩
  · exact ⟨x.setLock, rfl, hheld.setLock⟩
  · cases next with
    | read =>
      refine ⟨x', rfl, hheld.switch_read hk ?_ hx'⟩
      apply hheld.readers_eq_zero.mpr
      apply hgone hk
      rw [h.1, Sem.and_rwMask_eq (hheld.readers_le_card.trans_lt hcard)]
      simp only [Sem.switch, Option.ite_none_left_eq_some, not_or, Bool.not_eq_true] at hx'
      exact hx'.1
    | commit => exact ⟨x', rfl, hheld.switch_commit hk hx'⟩
    | write => simp [Sem.switch] at hx'
    | lock => simp [Sem.switch] at hx'

omit [Fintype ι] in
theorem flagsOf_word (x : Sem) : flagsOf x.word = Sem.word { x with readers := 0 } := by
  rw [flagsOf, show ~~~readersMask = pack true true true 0#29 by decide, Sem.word_and]
  simp

theorem readersOf_word (hx : x.readers < 2 ^ 29) : readersOf x.word = x.readers := by
  rw [readersOf, Sem.and_readersMask, Sem.toNat_word (by exact hx)]
  simp [Sem.free]

theorem and_writeFlag (x : Sem) : x.word &&& writeFlag ≠ 0#32 ↔ x.write = true := by
  rw [Sem.writeFlag_eq, Sem.word_and, ne_eq, Sem.word_eq_zero (by simp)]
  simp [Sem.free]

include hcard in
theorem Tells.accounts (h : Tells s x) : Accounts s := by
  obtain ⟨hword, hheld⟩ := h
  have hlt : x.readers < 2 ^ 29 := hheld.readers_le_card.trans_lt hcard
  have hcount : x.readers = (Finset.univ.filter (fun k => s.hold k = some .read)).card := by
    have hset := hheld.readers
    rw [← Finset.coe_filter_univ, Set.encard_coe_eq_coe_finsetCard] at hset
    exact_mod_cast hset.symm
  have halone (k j : ι) (hk : Exclusive (s.hold k)) (h0 : x.readers = 0) (hj : j ≠ k) : s.hold j = none := by
    by_contra hne
    exact hj (hheld.single k j hk ⟨hne, hheld.readers_eq_zero.mp h0 j⟩)
  refine ⟨?_, ?_, ?_, ?_, ?_⟩
  · rw [hword, readersOf_word hlt, hcount]
  · rw [hword, and_writeFlag, hheld.write]
    constructor
    · rintro ⟨k, hk⟩
      exact ⟨k, hk, fun j hj => hheld.single k j hk hj⟩
    · rintro ⟨k, hk, -⟩
      exact ⟨k, hk⟩
  · intro k hk j hj
    rcases hk with hk | hk
    · exact halone k j (by simp [hk]) (hheld.commit k hk).2 hj
    · exact halone k j (by simp [hk]) (hheld.lock k hk).2 hj
  · intro k s' hs
    rcases Tells.acquire_cases hcard ⟨hword, hheld⟩ hs with ⟨-, hc⟩ | ⟨-, hroom, x', hx', rfl⟩
    · exact absurd hc (by decide)
    · simp only [Sem.acquire, Option.ite_none_left_eq_some, Option.some.injEq] at hx'
      obtain ⟨-, rfl⟩ := hx'
      rw [hword, readersOf_word (by exact hroom), readersOf_word hlt, flagsOf_word, flagsOf_word]
      exact ⟨rfl, rfl⟩
  · intro k s' v hk hs
    obtain ⟨op, x', hop, hx', rfl⟩ := Tells.release_cases hcard ⟨hword, hheld⟩ hs
    obtain rfl : op = .read := Option.some.inj (hop.symm.trans hk)
    simp only [Sem.release, Option.ite_none_left_eq_some, Option.some.injEq] at hx'
    obtain ⟨hpos, rfl⟩ := hx'
    rw [hword, readersOf_word (by simp only; omega), readersOf_word hlt, flagsOf_word, flagsOf_word]
    refine ⟨?_, rfl⟩
    simp only
    omega

include hcard in
/-- A step that releases a write, or turns one into a read, under a reader loses count of it. -/
theorem Tells.gone (h : Tells s x) (hs : RwcSem.step s a = some (s', v)) (ha : Accounts s') : ReadersGone s a := by
  have hlt : x.readers < 2 ^ 29 := h.2.readers_le_card.trans_lt hcard
  cases a with
  | release k =>
    intro hk j hj
    obtain ⟨op, x', hop, hx', rfl⟩ := h.release_cases hcard hs
    obtain rfl : op = .write := Option.some.inj (hop.symm.trans hk)
    obtain rfl := Option.some.inj hx'
    have hne : j ≠ k := by
      rintro rfl
      simp [hk] at hj
    have hcount := ha.readers
    rw [readersOf_word (by simp)] at hcount
    have hmem := Finset.card_eq_zero.mp hcount.symm
    rw [Finset.filter_eq_empty_iff] at hmem
    exact hmem (Finset.mem_univ j) (by simp [hne, hj])
  | switch k next =>
    cases next with
    | read =>
      intro hk hrw j hj
      have hne : j ≠ k := by
        rintro rfl
        simp [hk] at hj
      rw [h.1, Sem.and_rwMask_eq hlt] at hrw
      have hx' : x.switch .write .read = some { Sem.free with readers := 1 } := by
        simp [Sem.switch, hrw.1, hrw.2]
      have hs' : s'.word = Sem.word { Sem.free with readers := 1 } ∧ s'.hold = Function.update s.hold k (some .read) := by
        have hcas := Sem.cas_switch_read hlt
        rw [hx', ← h.1] at hcas
        simp only [RwcSem.step, hk] at hs
        cases hround : trySwitch .write .read s.word with
        | ret r => simp [hround, Round.cas] at hcas
        | swap expval newval =>
          simp only [hround, Round.cas, Option.map_some] at hs hcas
          split_ifs at hs hcas with he
          obtain ⟨rfl, -⟩ := Prod.mk.inj (Option.some.inj hs)
          exact ⟨Option.some.inj hcas, rfl⟩
      have hcount := ha.readers
      rw [hs'.1, readersOf_word (by decide), hs'.2] at hcount
      obtain ⟨i, hi⟩ := Finset.card_eq_one.mp hcount.symm
      have hk' : k ∈ ({i} : Finset ι) := by
        rw [← hi]
        simp
      have hj' : j ∈ ({i} : Finset ι) := by
        rw [← hi]
        simp [hne, hj]
      rw [Finset.mem_singleton] at hk' hj'
      exact hne (hj'.trans hk'.symm)
    | _ => trivial
  | _ => trivial

/-- In every state of the run the word keeps account of the holders. -/
def AccountsAlong (s : State ι) (acts : List (Act ι)) : Prop :=
  ∀ pre post s₁ vs, acts = pre ++ post → exec RwcSem.step s pre = some (s₁, vs) → Accounts s₁

include hcard in
theorem Tells.along_iff (h : Tells s x) {acts : List (Act ι)} {vs : List Word}
    (he : exec RwcSem.step s acts = some (s', vs)) :
    AccountsAlong s acts ↔ Meets RwcSem.step ReadersGone s acts := by
  induction acts generalizing s x vs with
  | nil =>
    refine ⟨fun _ => trivial, ?_⟩
    intro _ pre post s₁ vs₁ hacts hpre
    obtain ⟨rfl, -⟩ := List.nil_eq_append_iff.mp hacts
    obtain ⟨rfl, -⟩ := Prod.mk.inj (Option.some.inj hpre)
    exact h.accounts hcard
  | cons a acts ih =>
    rw [exec_cons, Option.bind_eq_some_iff] at he
    obtain ⟨⟨s₂, v⟩, hs, he⟩ := he
    rw [Option.map_eq_some_iff] at he
    obtain ⟨⟨s₃, vs₃⟩, he, heq⟩ := he
    obtain ⟨rfl, -⟩ := Prod.mk.inj heq
    constructor
    · intro halong
      have hgone : ReadersGone s a :=
        h.gone hcard hs (halong [a] acts s₂ [v] rfl (by rw [exec_cons, hs]; rfl))
      obtain ⟨x₂, h₂⟩ := h.step hcard hgone hs
      refine ⟨hgone, ?_⟩
      intro s₂' v' hs'
      rw [hs] at hs'
      obtain ⟨rfl, -⟩ := Prod.mk.inj (Option.some.inj hs')
      apply (ih h₂ he).mp
      intro pre post s₁ vs₁ hacts hpre
      exact halong (a :: pre) post s₁ (v :: vs₁) (by rw [hacts]; rfl) (by rw [exec_cons, hs, Option.bind_some, hpre]; rfl)
    · intro hmeets pre post s₁ vs₁ hacts hpre
      cases pre with
      | nil =>
        obtain ⟨rfl, -⟩ := Prod.mk.inj (Option.some.inj hpre)
        exact h.accounts hcard
      | cons b pre =>
        obtain ⟨rfl, htail⟩ := List.cons.inj hacts
        rw [exec_cons, hs, Option.bind_some, Option.map_eq_some_iff] at hpre
        obtain ⟨⟨s₄, vs₄⟩, hpre, heq⟩ := hpre
        obtain ⟨rfl, -⟩ := Prod.mk.inj heq
        obtain ⟨x₂, h₂⟩ := h.step hcard hmeets.1 hs
        exact (ih h₂ he).mpr (hmeets.2 s₂ v hs) pre post s₄ vs₄ htail hpre

end Bounded

/-- In a run of fewer than `2 ^ 29` tasks the word keeps account of the holders in every state reached
if and only if no step releases a write, or turns it into a read, while another task reads. -/
theorem run_accounts_iff (hcard : Fintype.card ι < 2 ^ 29) {acts : List (Act ι)} {vs : List Word}
    (he : exec step State.init acts = some (s, vs)) :
    AccountsAlong State.init acts ↔ Meets step ReadersGone State.init acts :=
  init_tells.along_iff hcard he

/-- A reader that leaves before the writer it met commits. -/
theorem run_accounts_iff_commit : ∃ s vs,
    exec step State.init [.acquire (0 : Fin 2) .read, .acquire 1 .write, .release 0, .setCommit 1, .switch 1 .commit] =
      some (s, vs) ∧ s.hold 1 = some .commit ∧ Accounts s := by
  obtain ⟨⟨s, vs⟩, he⟩ := Option.isSome_iff_exists.mp (show (exec step State.init [.acquire (0 : Fin 2) .read,
    .acquire 1 .write, .release 0, .setCommit 1, .switch 1 .commit]).isSome by decide)
  have halong := (run_accounts_iff (by decide) he).mpr (by decide)
  have hhold : (exec step State.init [.acquire (0 : Fin 2) .read, .acquire 1 .write, .release 0, .setCommit 1,
      .switch 1 .commit]).map (fun p => p.1.hold 1) = some (some .commit) := by decide
  rw [he] at hhold
  exact ⟨s, vs, he, Option.some.inj hhold, halong _ [] s vs (List.append_nil _).symm he⟩

/-- A write that is released under a reader clears the reader field, and the reader's own release
then wraps around into the flags. -/
theorem write_release_forgets_reader : ∃ s vs s',
    exec step State.init [.acquire (0 : Fin 2) .write, .acquire 1 .read, .release 0] = some (s, vs) ∧
      s.hold 1 = some .read ∧ readersOf s.word = 0 ∧ ¬ Accounts s ∧
      step s (.release 1) = some (s', 0xffffffff#32) := by
  refine ⟨_, _, _, rfl, rfl, rfl, ?_, rfl⟩
  intro hc
  exact absurd hc.readers (by decide)

end RaleighSL.Zcl.RwcSem
