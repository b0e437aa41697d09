import Mathlib.Data.List.Basic

/-!
# Characters and texts

A condition on the characters of a text is decided on these characters, and not on all there are. The letters
are the ones without accents. The longest prefix with a property is one that no longer prefix with it extends.
-/
namespace RaleighSL.Library

variable {p : Char → Prop} [DecidablePred p]

instance (priority := high) decidableForallMem (text : List Char) : Decidable (∀ c ∈ text, p c) :=
  List.decidableBAll p text

instance (priority := high) decidableExistsMem (text : List Char) : Decidable (∃ c ∈ text, p c) :=
  List.decidableBEx p text

instance (priority := high) decidableForallMemOption (first : Option Char) : Decidable (∀ c ∈ first, p c) :=
  Option.decidableForallMem first

instance (priority := high) decidableExistsMemOption (first : Option Char) : Decidable (∃ c ∈ first, p c) :=
  Option.decidableExistsMem first

instance (priority := high) decidableMemTexts (text : List Char) (texts : List (List Char)) : Decidable (text ∈ texts) :=
  List.instDecidableMemOfLawfulBEq text texts

/-! ### Letters -/

variable {c : Char}

theorem isUpper_iff : c.isUpper = true ↔ 'A'.val ≤ c.val ∧ c.val ≤ 'Z'.val := decide_eq_true_iff

theorem isLower_iff : c.isLower = true ↔ 'a'.val ≤ c.val ∧ c.val ≤ 'z'.val := by
  change (decide ('a'.val ≤ c.val) && decide (c.val ≤ 'z'.val)) = true ↔ _
  rw [Bool.and_eq_true, decide_eq_true_iff, decide_eq_true_iff]

theorem isAlpha_iff : c.isAlpha = true ↔ c.isUpper = true ∨ c.isLower = true := Iff.of_eq (Bool.or_eq_true _ _)

theorem toUpper_of_not_lower (h : ¬ ('a'.val ≤ c.val ∧ c.val ≤ 'z'.val)) : c.toUpper = c := dif_neg h

theorem toUpper_val (h : 'a'.val ≤ c.val ∧ c.val ≤ 'z'.val) : c.toUpper.val = c.val + ('A'.val - 'a'.val) := by
  delta Char.toUpper
  rw [dif_pos h]

/-! ### Prefixes -/

variable {α : Type*}

structure Longest (P : List α → Prop) (w cs : List α) : Prop where
  isPrefix : w <+: cs
  property : P w
  longest : ∀ v, v <+: cs → P v → v.length ≤ w.length

theorem Longest.unique {P : List α → Prop} {v w cs : List α} (hv : Longest P v cs) (hw : Longest P w cs) : v = w := by
  have hlen : v.length = w.length :=
    Nat.le_antisymm (hw.longest v hv.isPrefix hv.property) (hv.longest w hw.isPrefix hw.property)
  exact (List.prefix_of_prefix_length_le hv.isPrefix hw.isPrefix (Nat.le_of_eq hlen)).eq_of_length hlen

/-- Two lists that begin with letters of a test and go on with one that is none: a prefix ends in the letters, or it
has all of them. -/
theorem prefix_split (p : α → Prop) {u v w x : List α} (hu : ∀ c ∈ u, p c) (hv : ∀ c ∈ v.head?, ¬ p c)
    (hw : ∀ c ∈ w, p c) (hx : ∀ c ∈ x.head?, ¬ p c) (h : u ++ v <+: w ++ x) :
    (v = [] ∧ u.length ≤ w.length) ∨ (u = w ∧ v <+: x) := by
  induction u generalizing w with
  | nil =>
    cases v with
    | nil => exact .inl ⟨rfl, Nat.zero_le _⟩
    | cons c v =>
      cases w with
      | nil => exact .inr ⟨rfl, h⟩
      | cons d w =>
        have hcd : c = d := (List.cons_prefix_cons.mp h).1
        exact absurd (hcd ▸ hw d List.mem_cons_self) (hv c rfl)
  | cons a u ih =>
    cases w with
    | nil =>
      obtain ⟨t, ht⟩ := h
      have hhead : a ∈ x.head? := by
        rw [List.nil_append] at ht
        rw [← ht]
        rfl
      exact absurd (hu a List.mem_cons_self) (hx a hhead)
    | cons b w =>
      obtain ⟨rfl, hrest⟩ := List.cons_prefix_cons.mp h
      have hu' : ∀ c ∈ u, p c := fun c hc => hu c (List.mem_cons_of_mem a hc)
      have hw' : ∀ c ∈ w, p c := fun c hc => hw c (List.mem_cons_of_mem a hc)
      rcases ih hu' hw' hrest with ⟨rfl, hle⟩ | ⟨rfl, hpre⟩
      · exact .inl ⟨rfl, Nat.succ_le_succ hle⟩
      · exact .inr ⟨rfl, hpre⟩

end RaleighSL.Library
