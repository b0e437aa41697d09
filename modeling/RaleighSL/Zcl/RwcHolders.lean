import RaleighSL.Zcl.RwcSem
import RaleighSL.Library.Run
import Mathlib.Data.Set.Card

/-!
# Who holds the semaphore

The tasks of the semaphore and what each of them holds are set beside the fields
of the word. The fields count the holders as long as nobody reads when a write is
released or becomes a read.
-/
namespace RaleighSL.Zcl.RwcSem
open RaleighSL.Library

variable {ι : Type*} {hold : ι → Option Op} {x x' : Sem} {k k' : ι} {op : Op}

def Exclusive (o : Option Op) : Prop := o ≠ none ∧ o ≠ some .read

instance (o : Option Op) : Decidable (Exclusive o) := inferInstanceAs (Decidable (_ ∧ _))

@[simp] theorem not_exclusive_none : ¬ Exclusive none := by decide

@[simp] theorem not_exclusive_read : ¬ Exclusive (some .read) := by decide

@[simp] theorem exclusive_write : Exclusive (some .write) := by decide

@[simp] theorem exclusive_commit : Exclusive (some .commit) := by decide

@[simp] theorem exclusive_lock : Exclusive (some .lock) := by decide

/-- The fields tell what the tasks hold. -/
structure Held (x : Sem) (hold : ι → Option Op) : Prop where
  readers : {k | hold k = some .read}.encard = x.readers
  write : x.write = true ↔ ∃ k, Exclusive (hold k)
  single : ∀ k k', Exclusive (hold k) → Exclusive (hold k') → k' = k
  commit : ∀ k, hold k = some .commit → x.commit = true ∧ x.readers = 0
  lock : ∀ k, hold k = some .lock → x.lock = true ∧ x.readers = 0

theorem held_free : Held Sem.free (fun _ : ι => none) where
  readers := by simp [Sem.free]
  write := by simp [Sem.free]
  single := by simp
  commit := by simp
  lock := by simp

theorem Held.readers_eq_zero (h : Held x hold) : x.readers = 0 ↔ ∀ k, hold k ≠ some .read := by
  have hcard := h.readers
  constructor
  · intro h0 k hk
    rw [h0, Nat.cast_zero, Set.encard_eq_zero, Set.eq_empty_iff_forall_notMem] at hcard
    exact hcard k hk
  · intro hnone
    have hempty : {k | hold k = some .read} = (∅ : Set ι) := Set.eq_empty_iff_forall_notMem.mpr hnone
    rw [hempty, Set.encard_empty] at hcard
    exact_mod_cast hcard.symm

variable [DecidableEq ι]

theorem reads_update {o : Option Op} (hk : hold k ≠ some .read) (ho : o ≠ some .read) :
    {j | Function.update hold k o j = some .read} = {j | hold j = some .read} := by
  ext j
  by_cases hj : j = k
  · subst hj
    simp [hk, ho]
  · simp [Function.update_of_ne hj]

theorem exclusive_update {o : Option Op} : Exclusive (Function.update hold k o k') ↔
    (k' = k ∧ Exclusive o) ∨ (k' ≠ k ∧ Exclusive (hold k')) := by
  by_cases hj : k' = k
  · subst hj
    simp
  · simp [hj]

theorem Held.acquire_read (h : Held x hold) (hk : hold k = none) (hc : x.commit = false) (hl : x.lock = false) :
    Held { x with readers := x.readers + 1 } (Function.update hold k (some .read)) where
  readers := by
    have hset : {j | Function.update hold k (some .read) j = some .read} = insert k {j | hold j = some .read} := by
      ext j
      by_cases hj : j = k
      · simp [hj]
      · simp [hj]
    rw [hset, Set.encard_insert_of_notMem (by simp [hk]), h.readers]
    push_cast
    rfl
  write := by
    rw [h.write]
    simp only [exclusive_update, not_exclusive_read, and_false, false_or]
    constructor
    · rintro ⟨j, hj⟩
      refine ⟨j, ?_, hj⟩
      rintro rfl
      simp [hk] at hj
    · rintro ⟨j, -, hj⟩
      exact ⟨j, hj⟩
  single j j' := by
    simp only [exclusive_update, not_exclusive_read, and_false, false_or]
    exact fun hj hj' => h.single j j' hj.2 hj'.2
  commit j hj := by
    by_cases hjk : j = k
    · simp [hjk] at hj
    · rw [Function.update_of_ne hjk] at hj
      rw [(h.commit j hj).1] at hc
      exact absurd hc (by decide)
  lock j hj := by
    by_cases hjk : j = k
    · simp [hjk] at hj
    · rw [Function.update_of_ne hjk] at hj
      rw [(h.lock j hj).1] at hl
      exact absurd hl (by decide)

theorem Held.enter (h : Held x hold) (hw : x.write = false) (hk : hold k ≠ some .read) (hop : op ≠ .read)
    (hcommit : op = .commit → x.commit = true ∧ x.readers = 0) (hlock : op = .lock → x.lock = true ∧ x.readers = 0) :
    Held { x with write := true } (Function.update hold k (some op)) := by
  have hnone (j : ι) : ¬ Exclusive (hold j) := by
    intro hj
    rw [h.write.mpr ⟨j, hj⟩] at hw
    exact absurd hw (by decide)
  have hself (j : ι) (hj : Exclusive (Function.update hold k (some op) j)) : j = k := by
    rw [exclusive_update] at hj
    exact hj.elim And.left (fun hc => absurd hc.2 (hnone j))
  have hop' : Exclusive (some op) := ⟨by simp, by simpa using hop⟩
  refine ⟨?_, ?_, ?_, ?_, ?_⟩
  · rw [reads_update hk (by simpa using hop)]
    exact h.readers
  · simp only [true_iff]
    exact ⟨k, by rw [Function.update_self]; exact hop'⟩
  · intro j j' hj hj'
    rw [hself j hj, hself j' hj']
  · intro j hj
    have hjk := hself j (by rw [hj]; exact exclusive_commit)
    subst hjk
    rw [Function.update_self] at hj
    exact hcommit (Option.some.inj hj)
  · intro j hj
    have hjk := hself j (by rw [hj]; exact exclusive_lock)
    subst hjk
    rw [Function.update_self] at hj
    exact hlock (Option.some.inj hj)

theorem Held.acquire (h : Held x hold) (hk : hold k = none) (ha : x.acquire op = some x') :
    Held x' (Function.update hold k (some op)) := by
  have hread : hold k ≠ some .read := by simp [hk]
  cases op with
  | read =>
    simp only [Sem.acquire, Option.ite_none_left_eq_some, Option.some.injEq, not_or, Bool.not_eq_true] at ha
    obtain ⟨⟨hc, hl⟩, rfl⟩ := ha
    exact h.acquire_read hk hc hl
  | write =>
    simp only [Sem.acquire, Option.ite_none_left_eq_some, Option.some.injEq, not_or, Bool.not_eq_true] at ha
    obtain ⟨⟨hw, -, -⟩, rfl⟩ := ha
    exact h.enter hw hread (by decide) (by simp) (by simp)
  | commit =>
    simp only [Sem.acquire, Option.ite_none_right_eq_some, Option.some.injEq] at ha
    obtain ⟨rfl, rfl⟩ := ha
    exact h.enter rfl hread (by decide) (by simp [Sem.free]) (by simp)
  | lock =>
    simp only [Sem.acquire, Option.ite_none_right_eq_some, Option.some.injEq] at ha
    obtain ⟨rfl, rfl⟩ := ha
    exact h.enter rfl hread (by decide) (by simp) (by simp [Sem.free])

theorem Held.release_read (h : Held x hold) (hk : hold k = some .read) :
    0 < x.readers ∧ Held { x with readers := x.readers - 1 } (Function.update hold k none) := by
  have hpos : 0 < x.readers := by
    rw [Nat.pos_iff_ne_zero]
    exact fun h0 => (h.readers_eq_zero.mp h0) k hk
  have hset : {j | Function.update hold k none j = some .read} = {j | hold j = some .read} \ {k} := by
    ext j
    by_cases hj : j = k
    · simp [hj]
    · simp [hj]
  have hexcl (j : ι) : Exclusive (Function.update hold k none j) ↔ Exclusive (hold j) := by
    rw [exclusive_update]
    constructor
    · rintro (⟨-, hc⟩ | ⟨-, hj⟩)
      · exact absurd hc not_exclusive_none
      · exact hj
    · intro hj
      refine Or.inr ⟨?_, hj⟩
      rintro rfl
      simp [hk] at hj
  refine ⟨hpos, ?_, ?_, ?_, ?_, ?_⟩
  · have hadd := Set.encard_sdiff_singleton_add_one (s := {j | hold j = some .read}) (a := k) hk
    rw [h.readers] at hadd
    rw [hset]
    have hcast : (x.readers : ℕ∞) = ((x.readers - 1 : ℕ) : ℕ∞) + 1 := by
      rw [← Nat.cast_succ, Nat.succ_eq_add_one, Nat.sub_add_cancel hpos]
    rw [hcast] at hadd
    exact ENat.add_left_injective_of_ne_top ENat.one_ne_top hadd
  · simp only [hexcl]
    exact h.write
  · simp only [hexcl]
    exact h.single
  · intro j hj
    have hj' : hold j = some .commit := by
      by_cases hjk : j = k
      · simp [hjk] at hj
      · rwa [Function.update_of_ne hjk] at hj
    exact absurd (h.commit j hj').2 (Nat.pos_iff_ne_zero.mp hpos)
  · intro j hj
    have hj' : hold j = some .lock := by
      by_cases hjk : j = k
      · simp [hjk] at hj
      · rwa [Function.update_of_ne hjk] at hj
    exact absurd (h.lock j hj').2 (Nat.pos_iff_ne_zero.mp hpos)

/-- The only exclusive holder leaves, or becomes a reader, while nobody else reads. -/
theorem Held.leave (h : Held x hold) (hk : Exclusive (hold k)) (h0 : x.readers = 0) (hw : x'.write = false)
    {o : Option Op} (ho : ¬ Exclusive o) (hr : x'.readers = if o = some .read then 1 else 0) :
    Held x' (Function.update hold k o) := by
  have hnone (j : ι) : ¬ Exclusive (Function.update hold k o j) := by
    rw [exclusive_update]
    rintro (⟨-, hc⟩ | ⟨hne, hj⟩)
    · exact ho hc
    · exact hne (h.single k j hk hj)
  have hreads : {j | hold j = some .read} = ∅ := Set.eq_empty_iff_forall_notMem.mpr (h.readers_eq_zero.mp h0)
  refine ⟨?_, ?_, ?_, ?_, ?_⟩
  · rw [hr]
    split_ifs with hread
    · have hset : {j | Function.update hold k o j = some .read} = {k} := by
        ext j
        by_cases hj : j = k
        · simp [hj, hread]
        · simp [hj, h.readers_eq_zero.mp h0 j]
      rw [hset, Set.encard_singleton]
      rfl
    · rw [reads_update hk.2 hread, hreads, Set.encard_empty]
      rfl
  · rw [hw]
    simp [hnone]
  · intro j j' hj
    exact absurd hj (hnone j)
  · intro j hj
    exact absurd (by rw [hj]; exact exclusive_commit) (hnone j)
  · intro j hj
    exact absurd (by rw [hj]; exact exclusive_lock) (hnone j)

theorem Held.release (h : Held x hold) (hk : hold k = some op) (hgone : op = .write → x.readers = 0)
    (hr : x.release op = some x') : Held x' (Function.update hold k none) := by
  cases op with
  | read =>
    obtain ⟨hpos, hheld⟩ := h.release_read hk
    simp only [Sem.release, Option.ite_none_left_eq_some, Option.some.injEq] at hr
    obtain ⟨-, rfl⟩ := hr
    exact hheld
  | write =>
    obtain rfl := Option.some.inj hr
    exact h.leave (by simp [hk]) (hgone rfl) rfl not_exclusive_none rfl
  | commit =>
    obtain rfl := Option.some.inj hr
    exact h.leave (by simp [hk]) (h.commit k hk).2 rfl not_exclusive_none rfl
  | lock =>
    obtain rfl := Option.some.inj hr
    exact h.leave (by simp [hk]) (h.lock k hk).2 rfl not_exclusive_none rfl

theorem Held.drop (h : Held x hold) (hk : hold k = some op) (hgone : op = .write → x.readers = 0) :
    Held (x.drop op) (Function.update hold k none) := by
  have hsome : x.release op = some (x.drop op) := by
    cases op with
    | read =>
      have hne : x.readers ≠ 0 := Nat.pos_iff_ne_zero.mp (h.release_read hk).1
      simp [Sem.drop, Sem.release, hne]
    | write => rfl
    | commit => rfl
    | lock => rfl
  exact h.release hk hgone hsome

omit [DecidableEq ι] in
theorem Held.setCommit (h : Held x hold) : Held x.setCommit hold where
  readers := h.readers
  write := h.write
  single := h.single
  commit j hj := ⟨rfl, (h.commit j hj).2⟩
  lock := h.lock

omit [DecidableEq ι] in
theorem Held.setLock (h : Held x hold) : Held x.setLock hold where
  readers := h.readers
  write := h.write
  single := h.single
  commit := h.commit
  lock j hj := ⟨rfl, (h.lock j hj).2⟩

theorem Held.switch_read (h : Held x hold) (hk : hold k = some .write) (h0 : x.readers = 0)
    (hs : x.switch .write .read = some x') : Held x' (Function.update hold k (some .read)) := by
  simp only [Sem.switch, Option.ite_none_left_eq_some, Option.some.injEq] at hs
  obtain ⟨-, rfl⟩ := hs
  exact h.leave (by simp [hk]) h0 rfl not_exclusive_read rfl

theorem Held.switch_commit (h : Held x hold) (hk : hold k = some .write)
    (hs : x.switch .write .commit = some x') : Held x' (Function.update hold k (some .commit)) := by
  simp only [Sem.switch, Option.ite_none_right_eq_some, Option.some.injEq] at hs
  obtain ⟨rfl, rfl⟩ := hs
  have hleft : Held { Sem.free with commit := true } (Function.update hold k none) :=
    h.leave (by simp [hk]) rfl rfl not_exclusive_none rfl
  have hback : Held { Sem.free with write := true, commit := true }
      (Function.update (Function.update hold k none) k (some .commit)) :=
    hleft.enter rfl (by simp) (by decide) (by simp [Sem.free]) (by simp)
  rwa [Function.update_idem] at hback

end RaleighSL.Zcl.RwcSem
