import Mathlib.Data.List.Nodup
import Mathlib.Data.List.Perm.Basic
import Mathlib.Logic.Function.Basic
import Mathlib.Tactic.Common

/-!
# Items in places

Every item is in the list of exactly one place, and once there. Items are brought in,
taken out, and moved from one place to another.
-/
namespace RaleighSL.Library

variable {π τ : Type*}

/-- The items of the places, and that an item is in one place only. -/
structure Placed (items : List τ) (held : π → List τ) : Prop where
  items_nodup : items.Nodup
  nodup : ∀ p, (held p).Nodup
  unique : ∀ {k p q}, k ∈ held p → k ∈ held q → p = q
  mem : ∀ k, k ∈ items ↔ ∃ p, k ∈ held p

variable {items : List τ} {held held' : π → List τ} {p q : π} {k : τ}

theorem Placed.existsUnique (h : Placed items held) (hk : k ∈ items) : ∃! p, k ∈ held p := by
  obtain ⟨p, hp⟩ := (h.mem k).mp hk
  exact ⟨p, hp, fun q hq => h.unique hq hp⟩

theorem Placed.perm {items' : List τ} (h : Placed items held) (hperm : items.Perm items') : Placed items' held where
  items_nodup := hperm.nodup_iff.mp h.items_nodup
  nodup := h.nodup
  unique := h.unique
  mem k := by rw [← hperm.mem_iff, h.mem]

theorem Placed.reorder (h : Placed items held) (hperm : ∀ p, (held' p).Perm (held p)) : Placed items held' where
  items_nodup := h.items_nodup
  nodup p := (hperm p).nodup_iff.mpr (h.nodup p)
  unique hp hq := h.unique ((hperm _).mem_iff.mp hp) ((hperm _).mem_iff.mp hq)
  mem k := by simp only [(hperm _).mem_iff, h.mem]

theorem placed_nil (hempty : ∀ p, held p = []) : Placed [] held where
  items_nodup := List.nodup_nil
  nodup p := by simp [hempty p]
  unique {k p q} hp := by simp [hempty p] at hp
  mem k := by simp [hempty]

theorem Placed.move {moved rest : List τ} (h : Placed items held) (hpq : p ≠ q) (hp : (held p).Perm (moved ++ rest))
    (hp' : (held' p).Perm rest) (hq' : (held' q).Perm (moved ++ held q)) (hsame : ∀ r, r ≠ p → r ≠ q → held' r = held r) :
    Placed items held' := by
  have hmoved (k : τ) : k ∈ held p ↔ k ∈ moved ∨ k ∈ rest := by rw [hp.mem_iff, List.mem_append]
  have hnodup : (moved ++ rest).Nodup := hp.nodup_iff.mp (h.nodup p)
  have hsplit (k : τ) (r : π) : k ∈ held' r ↔ k ∈ moved ∧ r = q ∨ k ∉ moved ∧ k ∈ held r := by
    by_cases hrp : r = p
    · subst hrp
      rw [hp'.mem_iff, hmoved k]
      have hdisj : k ∈ moved → k ∉ rest := fun hm hr => (List.nodup_append.mp hnodup).2.2 k hm k hr rfl
      simp only [hpq, and_false, false_or]
      tauto
    · by_cases hrq : r = q
      · subst hrq
        rw [hq'.mem_iff, List.mem_append]
        simp only [and_true]
        tauto
      · rw [hsame r hrp hrq]
        simp only [hrq, and_false, false_or]
        refine ⟨fun hk => ⟨fun hm => ?_, hk⟩, fun hk => hk.2⟩
        exact hrp (h.unique hk ((hmoved k).mpr (Or.inl hm)))
  refine ⟨h.items_nodup, ?_, ?_, ?_⟩
  · intro r
    by_cases hrp : r = p
    · subst hrp
      exact hp'.nodup_iff.mpr (List.nodup_append.mp hnodup).2.1
    · by_cases hrq : r = q
      · subst hrq
        rw [hq'.nodup_iff, List.nodup_append]
        refine ⟨(List.nodup_append.mp hnodup).1, h.nodup r, ?_⟩
        rintro a ha b hb rfl
        exact hpq (h.unique ((hmoved a).mpr (Or.inl ha)) hb)
      · rw [hsame r hrp hrq]
        exact h.nodup r
  · intro k r r' hr hr'
    rw [hsplit] at hr hr'
    obtain ⟨hm, rfl⟩ | ⟨hm, hr⟩ := hr
    · obtain ⟨-, rfl⟩ | ⟨hm', -⟩ := hr'
      · rfl
      · exact absurd hm hm'
    · obtain ⟨hm', -⟩ | ⟨-, hr'⟩ := hr'
      · exact absurd hm' hm
      · exact h.unique hr hr'
  · intro k
    rw [h.mem]
    constructor
    · rintro ⟨r, hr⟩
      by_cases hm : k ∈ moved
      · exact ⟨q, (hsplit k q).mpr (Or.inl ⟨hm, rfl⟩)⟩
      · exact ⟨r, (hsplit k r).mpr (Or.inr ⟨hm, hr⟩)⟩
    · rintro ⟨r, hr⟩
      obtain ⟨hm, -⟩ | ⟨-, hr⟩ := (hsplit k r).mp hr
      · exact ⟨p, (hmoved k).mpr (Or.inl hm)⟩
      · exact ⟨r, hr⟩

theorem Placed.put (h : Placed items held) (hk : k ∉ items) (hp' : (held' p).Perm (k :: held p))
    (hsame : ∀ r, r ≠ p → held' r = held r) : Placed (k :: items) held' := by
  have hnew (r : π) : k ∉ held r := fun hr => hk ((h.mem k).mpr ⟨r, hr⟩)
  have hsplit (j : τ) (r : π) : j ∈ held' r ↔ j = k ∧ r = p ∨ j ∈ held r := by
    by_cases hr : r = p
    · subst hr
      rw [hp'.mem_iff, List.mem_cons]
      tauto
    · rw [hsame r hr]
      tauto
  refine ⟨List.nodup_cons.mpr ⟨hk, h.items_nodup⟩, ?_, ?_, ?_⟩
  · intro r
    by_cases hr : r = p
    · subst hr
      rw [hp'.nodup_iff, List.nodup_cons]
      exact ⟨hnew r, h.nodup r⟩
    · rw [hsame r hr]
      exact h.nodup r
  · intro j r r' hr hr'
    rw [hsplit] at hr hr'
    obtain ⟨rfl, rfl⟩ | hr := hr
    · obtain ⟨-, rfl⟩ | hr' := hr'
      · rfl
      · exact absurd hr' (hnew r')
    · obtain ⟨rfl, -⟩ | hr' := hr'
      · exact absurd hr (hnew r)
      · exact h.unique hr hr'
  · intro j
    rw [List.mem_cons, h.mem]
    constructor
    · rintro (rfl | ⟨r, hr⟩)
      · exact ⟨p, (hsplit j p).mpr (Or.inl ⟨rfl, rfl⟩)⟩
      · exact ⟨r, (hsplit j r).mpr (Or.inr hr)⟩
    · rintro ⟨r, hr⟩
      obtain ⟨rfl, -⟩ | hr := (hsplit j r).mp hr
      · exact Or.inl rfl
      · exact Or.inr ⟨r, hr⟩

theorem Placed.take [DecidableEq τ] (h : Placed items held) (hk : k ∈ held p) (hp' : held' p = (held p).erase k)
    (hsame : ∀ r, r ≠ p → held' r = held r) : Placed (items.erase k) held' := by
  have hsplit (j : τ) (r : π) : j ∈ held' r ↔ j ≠ k ∧ j ∈ held r := by
    by_cases hr : r = p
    · subst hr
      rw [hp', (h.nodup r).mem_erase_iff]
    · rw [hsame r hr]
      refine ⟨fun hj => ⟨?_, hj⟩, fun hj => hj.2⟩
      rintro rfl
      exact hr (h.unique hj hk)
  refine ⟨h.items_nodup.erase k, ?_, ?_, ?_⟩
  · intro r
    by_cases hr : r = p
    · subst hr
      rw [hp']
      exact (h.nodup r).erase k
    · rw [hsame r hr]
      exact h.nodup r
  · intro j r r' hr hr'
    exact h.unique ((hsplit j r).mp hr).2 ((hsplit j r').mp hr').2
  · intro j
    rw [h.items_nodup.mem_erase_iff, h.mem]
    simp only [hsplit]
    tauto

end RaleighSL.Library
