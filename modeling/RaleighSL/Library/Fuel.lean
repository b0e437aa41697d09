import Mathlib.Order.Basic

/-!
# Functions with fuel

A recursive function that is given a bound on its depth has a result when it has the same one
for every bound from some number on. It has none when it has none for every bound from some
number on.
-/
namespace RaleighSL.Library

variable {α β : Type*}

def Yields (f : Nat → Option α) (a : α) : Prop := ∃ N, ∀ n, N ≤ n → f n = some a

theorem Yields.of_forall {f : Nat → Option α} {a : α} (h : ∀ n, f n = some a) : Yields f a := ⟨0, fun n _ => h n⟩

theorem Yields.step {f g : Nat → Option α} {a : α} (hfg : ∀ n, f (n + 1) = g n) (h : Yields g a) : Yields f a := by
  obtain ⟨N, hN⟩ := h
  refine ⟨N + 1, fun n hn => ?_⟩
  cases n with
  | zero => exact absurd hn (Nat.not_succ_le_zero N)
  | succ n => rw [hfg, hN n (Nat.le_of_succ_le_succ hn)]

theorem Yields.bind {f : Nat → Option α} {g : Nat → α → Option β} {a : α} {b : β} (hf : Yields f a)
    (hg : Yields (fun n => g n a) b) : Yields (fun n => (f n).bind (g n)) b := by
  obtain ⟨N, hN⟩ := hf
  obtain ⟨M, hM⟩ := hg
  refine ⟨N + M, fun n hn => ?_⟩
  show (f n).bind (g n) = some b
  rw [hN n (by omega), Option.bind_some]
  exact hM n (by omega)

theorem Yields.map {f : Nat → Option α} {g : α → β} {a : α} (hf : Yields f a) :
    Yields (fun n => (f n).map g) (g a) := by
  obtain ⟨N, hN⟩ := hf
  refine ⟨N, fun n hn => ?_⟩
  show (f n).map g = some (g a)
  rw [hN n hn, Option.map_some]

theorem Yields.unique {f : Nat → Option α} {a b : α} (ha : Yields f a) (hb : Yields f b) : a = b := by
  obtain ⟨N, hN⟩ := ha
  obtain ⟨M, hM⟩ := hb
  have h := hN (N + M) (by omega)
  rw [hM (N + M) (by omega)] at h
  exact (Option.some.inj h).symm

/-! ### Functions that come to have a property -/

/-- What the function gives has a property for every bound from some number on. -/
def Settles (f : Nat → α) (P : α → Prop) : Prop := ∃ N, ∀ n, N ≤ n → P (f n)

theorem Settles.of_forall {f : Nat → α} {P : α → Prop} (h : ∀ n, P (f n)) : Settles f P := ⟨0, fun n _ => h n⟩

theorem Settles.step {f g : Nat → α} {P : α → Prop} (hfg : ∀ n, f (n + 1) = g n) (h : Settles g P) : Settles f P := by
  obtain ⟨N, hN⟩ := h
  refine ⟨N + 1, fun n hn => ?_⟩
  cases n with
  | zero => exact absurd hn (Nat.not_succ_le_zero N)
  | succ n =>
    rw [hfg]
    exact hN n (Nat.le_of_succ_le_succ hn)

/-! ### Functions that may have no result -/

def Stalls (f : Nat → Option α) : Prop := ∃ N, ∀ n, N ≤ n → f n = none

theorem Stalls.step {f g : Nat → Option α} (hfg : ∀ n, f (n + 1) = g n) (h : Stalls g) : Stalls f := by
  obtain ⟨N, hN⟩ := h
  refine ⟨N + 1, fun n hn => ?_⟩
  cases n with
  | zero => exact absurd hn (Nat.not_succ_le_zero N)
  | succ n => rw [hfg, hN n (Nat.le_of_succ_le_succ hn)]

theorem Stalls.bind {f : Nat → Option α} (h : Stalls f) (g : Nat → α → Option β) :
    Stalls (fun n => (f n).bind (g n)) := by
  obtain ⟨N, hN⟩ := h
  refine ⟨N, fun n hn => ?_⟩
  show (f n).bind (g n) = none
  rw [hN n hn, Option.bind_none]

theorem Yields.bind_stalls {f : Nat → Option α} {g : Nat → α → Option β} {a : α} (hf : Yields f a)
    (hg : Stalls (fun n => g n a)) : Stalls (fun n => (f n).bind (g n)) := by
  obtain ⟨N, hN⟩ := hf
  obtain ⟨M, hM⟩ := hg
  refine ⟨N + M, fun n hn => ?_⟩
  show (f n).bind (g n) = none
  rw [hN n (by omega), Option.bind_some]
  exact hM n (by omega)

theorem Yields.not_stalls {f : Nat → Option α} {a : α} (h : Yields f a) : ¬ Stalls f := by
  rintro ⟨M, hM⟩
  obtain ⟨N, hN⟩ := h
  have hsome := hN (N + M) (by omega)
  rw [hM (N + M) (by omega)] at hsome
  cases hsome

/-- The function has a result under a condition, and none without it. -/
structure YieldsIf (p : Prop) (f : Nat → Option α) (a : α) : Prop where
  yields : p → Yields f a
  stalls : ¬ p → Stalls f

variable {p q : Prop} {f : Nat → Option α} {a : α}

theorem Yields.yieldsIf (h : Yields f a) : YieldsIf True f a := ⟨fun _ => h, fun hn => absurd trivial hn⟩

theorem YieldsIf.congr (h : YieldsIf p f a) (hpq : p ↔ q) : YieldsIf q f a :=
  ⟨fun hq => h.yields (hpq.mpr hq), fun hq => h.stalls (fun hp => hq (hpq.mp hp))⟩

theorem YieldsIf.step {g : Nat → Option α} (hfg : ∀ n, f (n + 1) = g n) (h : YieldsIf p g a) : YieldsIf p f a :=
  ⟨fun hp => (h.yields hp).step hfg, fun hp => (h.stalls hp).step hfg⟩

theorem YieldsIf.bind {g : Nat → α → Option β} {b : β} (hf : YieldsIf p f a)
    (hg : p → YieldsIf q (fun n => g n a) b) : YieldsIf (p ∧ q) (fun n => (f n).bind (g n)) b where
  yields := by
    rintro ⟨hp, hq⟩
    exact (hf.yields hp).bind ((hg hp).yields hq)
  stalls := by
    intro hpq
    by_cases hp : p
    · exact (hf.yields hp).bind_stalls ((hg hp).stalls (fun hq => hpq ⟨hp, hq⟩))
    · exact (hf.stalls hp).bind g

theorem YieldsIf.map (h : YieldsIf p f a) (g : α → β) : YieldsIf p (fun n => (f n).map g) (g a) where
  yields hp := (h.yields hp).map
  stalls hp := by
    obtain ⟨N, hN⟩ := h.stalls hp
    exact ⟨N, fun n hn => by simp only [hN n hn, Option.map_none]⟩

theorem YieldsIf.yields_iff (h : YieldsIf p f a) {b : α} : Yields f b ↔ p ∧ b = a := by
  constructor
  · intro hb
    by_cases hp : p
    · exact ⟨hp, hb.unique (h.yields hp)⟩
    · exact absurd (h.stalls hp) hb.not_stalls
  · rintro ⟨hp, rfl⟩
    exact h.yields hp

end RaleighSL.Library
