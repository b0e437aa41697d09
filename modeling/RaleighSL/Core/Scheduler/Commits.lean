import RaleighSL.Core.Scheduler.Exclusion

/-!
# Commits that are under way

A task whose write function succeeded sets the commit flag of the object and owes it a
commit. As long as readers are not forgotten the flag stays until that commit is over,
and until then nobody else writes, commits or locks the object.
-/
namespace RaleighSL.Core.Scheduler
open RaleighSL.Zcl.RwcSem RaleighSL.Library

variable {ω κ α : Type*} [DecidableEq ω]

/-- The commit flag of the semaphore belongs to the one task whose commit is under way. -/
structure Owed (x : Sem) (hold : κ → Option Op) (waits : κ → Bool) : Prop where
  flag : ∀ k, waits k = true → x.commit = true
  single : ∀ k k', waits k = true → waits k' = true ∨ Exclusive (hold k') → k' = k
  lock : ∀ k, hold k = some .lock → x.commit = false

structure CommitInv (s : State ω κ α) : Prop where
  exclusion : ExclusionInv s
  owed : ∀ o, Owed (s.objects o).rwc (objectHold s o) (objectWaits s o)

variable {s s' : State ω κ α} {k : κ} {u : ObjectTask ω} {input : Input α} {e : Event ω κ α}
variable {o : ω} {a : Act ω κ α} {x x' : Sem} {hold : κ → Option Op} {waits : κ → Bool} {h' : Option Op} {w : Bool}

theorem owed_free : Owed Sem.free (fun _ : κ => none) (fun _ => false) where
  flag := by simp
  single := by simp
  lock := by simp

/-- Beside a commit that is under way and beside an exclusive holder there is no other one. -/
theorem Owed.alone (h : Owed x hold waits) (hheld : Held x hold) (hk : waits k = true ∨ Exclusive (hold k)) {j : κ}
    (hj : j ≠ k) : waits j = false ∧ ¬ Exclusive (hold j) := by
  constructor
  · rw [← Bool.not_eq_true]
    intro hwaits
    exact hj (h.single j k hwaits hk).symm
  · intro hexcl
    obtain hwaits | hexcl' := hk
    · exact hj (h.single k j hwaits (Or.inr hexcl))
    · exact hj (hheld.single k j hexcl' hexcl)

variable [DecidableEq κ]

/-- What has to be checked of a move of one task. -/
theorem Owed.update (h : Owed x hold waits)
    (halone : w = true ∨ Exclusive h' → ∀ j, j ≠ k → waits j = false ∧ ¬ Exclusive (hold j))
    (hself : w = true → x'.commit = true) (hothers : ∀ j, j ≠ k → waits j = true → x'.commit = true)
    (hlock : ∀ j, Function.update hold k h' j = some .lock → x'.commit = false) :
    Owed x' (Function.update hold k h') (Function.update waits k w) where
  flag j hj := by
    by_cases hjk : j = k
    · rw [hjk, Function.update_self] at hj
      exact hself hj
    · rw [Function.update_of_ne hjk] at hj
      exact hothers j hjk hj
  single j j' hj hj' := by
    by_cases hjk : j = k
    · rw [hjk, Function.update_self] at hj
      by_contra hne
      have hjk' : j' ≠ k := fun h => hne (h.trans hjk.symm)
      rw [Function.update_of_ne hjk', Function.update_of_ne hjk'] at hj'
      obtain ⟨hwaits, hexcl⟩ := halone (Or.inl hj) j' hjk'
      rw [hwaits] at hj'
      exact hj'.elim (by decide) hexcl
    · rw [Function.update_of_ne hjk] at hj
      by_cases hjk' : j' = k
      · rw [hjk', Function.update_self, Function.update_self] at hj'
        rw [(halone hj' j hjk).1] at hj
        exact absurd hj (by decide)
      · rw [Function.update_of_ne hjk', Function.update_of_ne hjk'] at hj'
        exact h.single j j' hj hj'
  lock := hlock

theorem Owed.clear (h : Owed x hold waits) (hc : x'.commit = false) (hothers : ∀ j, j ≠ k → waits j = false)
    (hexcl : Exclusive h' → ∀ j, j ≠ k → ¬ Exclusive (hold j)) :
    Owed x' (Function.update hold k h') (Function.update waits k false) := by
  refine h.update ?_ (by simp) ?_ (fun _ _ => hc)
  · rintro (hw | hexcl') j hj
    · exact absurd hw (by decide)
    · exact ⟨hothers j hj, hexcl hexcl' j hj⟩
  · intro j hj hwaits
    rw [hothers j hj] at hwaits
    exact absurd hwaits (by decide)

theorem Owed.keep (h : Owed x hold waits) (hheld : Held x hold) (hc : x'.commit = x.commit) (hw : w = true → waits k = true)
    (hexcl : Exclusive h' → waits k = true ∨ Exclusive (hold k)) (hlock : h' ≠ some .lock) :
    Owed x' (Function.update hold k h') (Function.update waits k w) := by
  refine h.update ?_ ?_ ?_ ?_
  · intro hk j hj
    exact h.alone hheld (hk.elim (fun hw' => Or.inl (hw hw')) hexcl) hj
  · intro hw'
    rw [hc]
    exact h.flag k (hw hw')
  · intro j _ hj
    rw [hc]
    exact h.flag j hj
  · intro j hj
    by_cases hjk : j = k
    · rw [hjk, Function.update_self] at hj
      exact absurd hj hlock
    · rw [Function.update_of_ne hjk] at hj
      rw [hc]
      exact h.lock j hj

theorem Owed.acquire (h : Owed x hold waits) (hheld : Held x hold) {op : Op}
    (hwaits : waits k = decide (op = .commit)) (ha : x.acquire op = some x') :
    Owed x' (Function.update hold k (some op)) (Function.update waits k (op = .commit)) := by
  have hnobody (hc : x.commit = false) (j : κ) (_ : j ≠ k) : waits j = false := by
    rw [← Bool.not_eq_true]
    intro hj
    rw [h.flag j hj] at hc
    exact absurd hc (by decide)
  have hfree (hw : x.write = false) (j : κ) (_ : j ≠ k) : ¬ Exclusive (hold j) := by
    intro hj
    rw [hheld.write.mpr ⟨j, hj⟩] at hw
    exact absurd hw (by decide)
  cases op with
  | read =>
    simp only [Sem.acquire, Option.ite_none_left_eq_some, Option.some.injEq, not_or, Bool.not_eq_true] at ha
    obtain ⟨⟨hc, -⟩, rfl⟩ := ha
    exact h.clear hc (hnobody hc) (fun hexcl => absurd hexcl not_exclusive_read)
  | write =>
    simp only [Sem.acquire, Option.ite_none_left_eq_some, Option.some.injEq, not_or, Bool.not_eq_true] at ha
    obtain ⟨⟨hw, hc, -⟩, rfl⟩ := ha
    exact h.clear hc (hnobody hc) (fun _ => hfree hw)
  | commit =>
    simp only [Sem.acquire, Option.ite_none_right_eq_some, Option.some.injEq] at ha
    obtain ⟨rfl, rfl⟩ := ha
    exact h.keep hheld rfl (fun _ => hwaits) (fun _ => Or.inl hwaits) (by decide)
  | lock =>
    simp only [Sem.acquire, Option.ite_none_right_eq_some, Option.some.injEq] at ha
    obtain ⟨rfl, rfl⟩ := ha
    exact h.clear rfl (hnobody rfl) (fun _ => hfree rfl)

theorem Owed.drop (h : Owed x hold waits) (hheld : Held x hold) {op : Op} (hhold : hold k = some op)
    (hw : w = true → waits k = true ∧ op ≠ .commit) :
    Owed (x.drop op) (Function.update hold k none) (Function.update waits k w) := by
  cases op with
  | read =>
    have hpos : x.readers ≠ 0 := Nat.pos_iff_ne_zero.mp (hheld.release_read hhold).1
    have hdrop : x.drop .read = { x with readers := x.readers - 1 } := by simp [Sem.drop, Sem.release, hpos]
    rw [hdrop]
    exact h.keep hheld rfl (fun hw' => (hw hw').1) (by simp) (by simp)
  | write => exact h.keep hheld rfl (fun hw' => (hw hw').1) (by simp) (by simp)
  | commit =>
    have hover : w = false := by
      rw [← Bool.not_eq_true]
      exact fun hw' => (hw hw').2 rfl
    rw [hover]
    exact h.clear rfl (fun j hj => (h.alone hheld (Or.inr (by simp [hhold])) hj).1) (by simp)
  | lock =>
    have hover : w = false := by
      rw [← Bool.not_eq_true]
      intro hw'
      have hflag := h.flag k (hw hw').1
      rw [h.lock k hhold] at hflag
      exact absurd hflag (by decide)
    rw [hover]
    exact h.clear rfl (fun j hj => (h.alone hheld (Or.inr (by simp [hhold])) hj).1) (by simp)

theorem Owed.setCommit (h : Owed x hold waits) (hheld : Held x hold) (hhold : hold k = some .write) :
    Owed x.setCommit (Function.update hold k (some .write)) (Function.update waits k true) := by
  have halone (j : κ) (hj : j ≠ k) := h.alone hheld (Or.inr (by simp [hhold])) hj
  refine h.update (fun _ => halone) (fun _ => rfl) (fun _ _ _ => rfl) ?_
  intro j hj
  by_cases hjk : j = k
  · simp [hjk] at hj
  · rw [Function.update_of_ne hjk] at hj
    exact absurd (by rw [hj]; exact exclusive_lock) (halone j hjk).2

theorem SemMove.owed {h' : Option Op} {w : Bool} (hm : SemMove s k o x h' w)
    (h : Owed (s.objects o).rwc (objectHold s o) (objectWaits s o)) (hheld : Held (s.objects o).rwc (objectHold s o)) :
    Owed x (Function.update (objectHold s o) k h') (Function.update (objectWaits s o) k w) := by
  cases hm with
  | acquire hhold hwaits ha => exact h.acquire hheld hwaits ha
  | @flag u hu hpc =>
    apply h.setCommit hheld
    rw [objectHold_object hu, hpc]
    rfl
  | @switchRead u current x hu hpc hop hs =>
    have hwrite : objectHold s u.object k = some .write := by
      rw [objectHold_object hu, hpc, ← hop]
      rfl
    simp only [Sem.switch, Option.ite_none_left_eq_some, Option.some.injEq] at hs
    obtain ⟨-, rfl⟩ := hs
    exact h.clear rfl (fun j hj => (h.alone hheld (Or.inr (by simp [hwrite])) hj).1) (by simp)
  | @switchCommit u current x hu hpc hop hs =>
    have hwaits : objectWaits s u.object k = true := by
      rw [objectWaits_object hu, hpc]
      rfl
    simp only [Sem.switch, Option.ite_none_right_eq_some, Option.some.injEq] at hs
    obtain ⟨-, rfl⟩ := hs
    exact h.keep hheld rfl (fun _ => hwaits) (fun _ => Or.inl hwaits) (by decide)
  | @drop u current next result w hu hpc hwaits =>
    apply h.drop hheld
    · rw [objectHold_object hu, hpc]
      rfl
    · rw [objectWaits_object hu]
      exact hwaits
  | @raise v o todo hv hpc =>
    have hhold : none = objectHold s o k := by simp [objectHold_txn hv, hpc, TxnPc.locked]
    have hwaits : false = objectWaits s o k := (objectWaits_txn hv).symm
    rw [hhold, hwaits, Function.update_eq_self, Function.update_eq_self]
    exact ⟨h.flag, h.single, h.lock⟩
  | unlock hhold hwaits => exact h.drop hheld hhold (by simp)

omit [DecidableEq κ] in
theorem init_commitInv : CommitInv (State.init : State ω κ α) where
  exclusion := init_exclusionInv
  owed _ := owed_free

theorem CommitInv.step (h : CommitInv s) (hgone : ReadersGone s a) (hs : Scheduler.step s a = some (s', e)) :
    CommitInv s' where
  exclusion := h.exclusion.step hgone hs
  owed o := by
    cases h.exclusion.sem.semStep (o := o) hs with
    | same hx hhold hwaits =>
      rw [hx, hhold, hwaits]
      exact h.owed o
    | move ha hhold hwaits hm =>
      rw [hhold, hwaits]
      exact hm.owed (h.owed o) (h.exclusion.held o)

end RaleighSL.Core.Scheduler
