import Mathlib.Algebra.BigOperators.Group.Finset.Basic
import Mathlib.Algebra.Order.BigOperators.Group.Finset

/-!
# Places of threads

The members of a family are each at a place. A weight of the places is summed up over the members,
and of some places only one may be taken: a lock is taken by going to such a place while nobody is
at one, and it is released by leaving.
-/
namespace RaleighSL.Library

/-! ### Tallies -/

section

variable {ι α : Type*} [Fintype ι]

def tally (g : α → Nat) (f : ι → α) : Nat := ∑ i, g (f i)

theorem tally_update [DecidableEq ι] (g : α → Nat) (f : ι → α) (i : ι) (a : α) :
    tally g (Function.update f i a) + g (f i) = tally g f + g a := by
  have hrest : ∑ j ∈ Finset.univ.erase i, g (Function.update f i a j) = ∑ j ∈ Finset.univ.erase i, g (f j) := by
    refine Finset.sum_congr rfl ?_
    intro j hj
    rw [Function.update_of_ne (Finset.ne_of_mem_erase hj)]
  rw [tally, tally, ← Finset.add_sum_erase _ _ (Finset.mem_univ i), ← Finset.add_sum_erase _ _ (Finset.mem_univ i), hrest,
    Function.update_self]
  omega

theorem le_tally (g : α → Nat) (f : ι → α) (i : ι) : g (f i) ≤ tally g f :=
  Finset.single_le_sum (f := fun i => g (f i)) (fun _ _ => Nat.zero_le _) (Finset.mem_univ i)

theorem add_le_tally [DecidableEq ι] (g : α → Nat) (f : ι → α) {i j : ι} (h : i ≠ j) :
    g (f i) + g (f j) ≤ tally g f := by
  rw [tally, ← Finset.add_sum_erase _ _ (Finset.mem_univ i)]
  refine Nat.add_le_add_left ?_ _
  exact Finset.single_le_sum (f := fun i => g (f i)) (fun _ _ => Nat.zero_le _)
    (Finset.mem_erase.mpr ⟨h.symm, Finset.mem_univ j⟩)

theorem tally_eq_zero {g : α → Nat} {f : ι → α} : tally g f = 0 ↔ ∀ i, g (f i) = 0 := by
  simp [tally, Finset.sum_eq_zero_iff]

theorem tally_add_le {g g' : α → Nat} {f : ι → α} (h : ∀ a, g a + g' a ≤ 1) :
    tally g f + tally g' f ≤ Fintype.card ι := by
  rw [tally, tally, ← Finset.sum_add_distrib]
  calc ∑ i, (g (f i) + g' (f i)) ≤ ∑ _i : ι, 1 := Finset.sum_le_sum (fun i _ => h (f i))
    _ = Fintype.card ι := by simp

end

/-! ### Locks -/

section

variable {ι π : Type*} [DecidableEq ι] {inside : π → Prop} {at_ : ι → π} {t : ι} {p : π} {held : Bool}

def Alone (inside : π → Prop) (at_ : ι → π) : Prop := ∀ t u, inside (at_ t) → inside (at_ u) → t = u

/-- Nobody is inside of a lock that is not held, and at most one thread otherwise. -/
structure Guarded (held : Bool) (inside : π → Prop) (at_ : ι → π) : Prop where
  free : held = false → ∀ t, ¬ inside (at_ t)
  alone : Alone inside at_

/-- A thread may go to any place outside, from inside to another one inside, or inside when nobody is. -/
theorem Alone.update (h : Alone inside at_) (hgo : inside p → inside (at_ t) ∨ ∀ u, ¬ inside (at_ u)) :
    Alone inside (Function.update at_ t p) := by
  have halone (u : ι) (hu : u ≠ t) (hp : inside p) : ¬ inside (at_ u) := by
    intro hin
    rcases hgo hp with hsame | hnone
    · exact hu (h u t hin hsame)
    · exact hnone u hin
  intro u v hu hv
  by_cases hut : u = t <;> by_cases hvt : v = t
  · rw [hut, hvt]
  · subst hut
    rw [Function.update_self] at hu
    rw [Function.update_of_ne hvt] at hv
    exact (halone v hvt hu hv).elim
  · subst hvt
    rw [Function.update_self] at hv
    rw [Function.update_of_ne hut] at hu
    exact (halone u hut hv hu).elim
  · rw [Function.update_of_ne hut] at hu
    rw [Function.update_of_ne hvt] at hv
    exact h u v hu hv

/-- A thread that stays outside or inside. -/
theorem Guarded.stay (h : Guarded held inside at_) (hsame : inside p → inside (at_ t)) :
    Guarded held inside (Function.update at_ t p) where
  free hheld u hu := by
    by_cases hut : u = t
    · subst hut
      rw [Function.update_self] at hu
      exact h.free hheld u (hsame hu)
    · rw [Function.update_of_ne hut] at hu
      exact h.free hheld u hu
  alone := h.alone.update fun hp => .inl (hsame hp)

omit [DecidableEq ι] in
/-- The threads go to other places, each from inside to inside or from outside to outside. -/
theorem Guarded.congr {at' : ι → π} (h : Guarded held inside at_) (hsame : ∀ u, inside (at' u) ↔ inside (at_ u)) :
    Guarded held inside at' where
  free hheld u hu := h.free hheld u ((hsame u).mp hu)
  alone u v hu hv := h.alone u v ((hsame u).mp hu) ((hsame v).mp hv)

theorem Guarded.take (h : Guarded false inside at_) : Guarded true inside (Function.update at_ t p) where
  free hheld := (Bool.noConfusion hheld)
  alone := h.alone.update fun _ => .inr (h.free rfl)

theorem Guarded.leave (h : Guarded held inside at_) (hin : inside (at_ t)) (hout : ¬ inside p) :
    Guarded false inside (Function.update at_ t p) where
  free _ u hu := by
    by_cases hut : u = t
    · subst hut
      rw [Function.update_self] at hu
      exact hout hu
    · rw [Function.update_of_ne hut] at hu
      exact hut (h.alone u t hu hin)
  alone := h.alone.update fun hp => (hout hp).elim

end

end RaleighSL.Library
