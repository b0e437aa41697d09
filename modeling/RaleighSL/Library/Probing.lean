import Mathlib.Logic.Function.Basic
import Mathlib.Tactic.Common

/-!
# Tables with open addressing

The slots of a table hold elements, and the key of an element says in which slots it may be. No
two elements have the same key, so the table is a finite map. A slot may be filled, emptied or
filled anew if it is empty or has the only element with the key.
-/
namespace RaleighSL.Library

variable {δ κ ι : Type*} {key : δ → κ} {slots : κ → ι → Prop} {table : ι → Option δ} {m : κ → Option δ}

/-- The elements of a map are in the slots of a table. -/
structure Probed (key : δ → κ) (slots : κ → ι → Prop) (table : ι → Option δ) (m : κ → Option δ) : Prop where
  placed : ∀ i d, table i = some d → slots (key d) i
  unique : ∀ i j d e, table i = some d → table j = some e → key d = key e → i = j
  elements : ∀ k d, m k = some d ↔ key d = k ∧ ∃ i, table i = some d

theorem probed_empty : Probed key slots (fun _ => none) (fun _ => none) where
  placed _ _ h := by simp at h
  unique _ _ _ _ h := by simp at h
  elements k d := by simp

theorem Probed.absent_iff (h : Probed key slots table m) (k : κ) : m k = none ↔ ∀ i d, table i = some d → key d ≠ k := by
  rw [Option.eq_none_iff_forall_ne_some]
  constructor
  · rintro hnone i d hi rfl
    exact hnone d ((h.elements (key d) d).mpr ⟨rfl, i, hi⟩)
  · intro hnone d hd
    obtain ⟨hk, i, hi⟩ := (h.elements k d).mp hd
    exact hnone i d hi hk

/-- What a slot holds for a key is what the map has for it. -/
theorem Probed.present (h : Probed key slots table m) {i : ι} {d : δ} (hi : table i = some d) : m (key d) = some d :=
  (h.elements (key d) d).mpr ⟨rfl, i, hi⟩

variable [DecidableEq κ] [DecidableEq ι]

theorem Probed.set (h : Probed key slots table m) {k : κ} {i : ι} {o : Option δ} (hold : ∀ d, table i = some d → key d = k)
    (honly : ∀ j d, table j = some d → key d = k → j = i) (hnew : ∀ d, o = some d → key d = k ∧ slots k i) :
    Probed key slots (Function.update table i o) (Function.update m k o) where
  placed j d hj := by
    by_cases hji : j = i
    · subst hji
      rw [Function.update_self] at hj
      obtain ⟨hk, hslot⟩ := hnew d hj
      rwa [hk]
    · rw [Function.update_of_ne hji] at hj
      exact h.placed j d hj
  unique j j' d e hj hj' hde := by
    by_cases hji : j = i
    · by_cases hji' : j' = i
      · rw [hji, hji']
      · subst hji
        rw [Function.update_self] at hj
        rw [Function.update_of_ne hji'] at hj'
        exact (honly j' e hj' (hde ▸ (hnew d hj).1)).symm
    · rw [Function.update_of_ne hji] at hj
      by_cases hji' : j' = i
      · subst hji'
        rw [Function.update_self] at hj'
        exact honly j d hj (hde ▸ (hnew e hj').1)
      · rw [Function.update_of_ne hji'] at hj'
        exact h.unique j j' d e hj hj' hde
  elements k' d := by
    by_cases hk : k' = k
    · subst hk
      rw [Function.update_self]
      constructor
      · intro ho
        exact ⟨(hnew d ho).1, i, by rw [Function.update_self, ho]⟩
      · rintro ⟨hd, j, hj⟩
        by_cases hji : j = i
        · rwa [hji, Function.update_self] at hj
        · rw [Function.update_of_ne hji] at hj
          exact absurd (honly j d hj hd) hji
    · rw [Function.update_of_ne hk, h.elements]
      constructor
      · rintro ⟨rfl, j, hj⟩
        have hji : j ≠ i := by
          rintro rfl
          exact hk (hold d hj)
        exact ⟨rfl, j, by rwa [Function.update_of_ne hji]⟩
      · rintro ⟨rfl, j, hj⟩
        have hji : j ≠ i := by
          rintro rfl
          rw [Function.update_self] at hj
          exact hk (hnew d hj).1
        exact ⟨rfl, j, by rwa [Function.update_of_ne hji] at hj⟩

end RaleighSL.Library
