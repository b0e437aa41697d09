import Mathlib.Data.List.Nodup
import Mathlib.Logic.Function.Basic
import Mathlib.Tactic.Common

/-!
# Chains of links

The nodes that are reached from a first one by following a link that every node has.
-/
namespace RaleighSL.Library

variable {τ : Type*} {next next' : τ → Option τ} {first : Option τ} {l : List τ}

def Chain (next : τ → Option τ) : Option τ → List τ → Prop
  | first, [] => first = none
  | first, a :: l => first = some a ∧ Chain next (next a) l

theorem Chain.head? (h : Chain next first l) : first = l.head? := by
  cases l with
  | nil => exact h
  | cons a l => exact h.1

theorem Chain.congr (h : Chain next first l) (hsame : ∀ a ∈ l, next' a = next a) : Chain next' first l := by
  induction l generalizing first with
  | nil => exact h
  | cons a l ih =>
    obtain ⟨hfirst, hrest⟩ := h
    refine ⟨hfirst, ?_⟩
    rw [hsame a List.mem_cons_self]
    exact ih hrest (fun b hb => hsame b (List.mem_cons_of_mem a hb))

theorem Chain.unique {m : List τ} (h : Chain next first l) (h' : Chain next first m) : l = m := by
  induction l generalizing first m with
  | nil =>
    cases m with
    | nil => rfl
    | cons b m => exact absurd (h.symm.trans h'.1) (Option.some_ne_none b).symm
  | cons a l ih =>
    cases m with
    | nil => exact absurd (h'.symm.trans h.1) (Option.some_ne_none a).symm
    | cons b m =>
      obtain rfl : a = b := Option.some.inj (h.1.symm.trans h'.1)
      rw [ih h.2 h'.2]

theorem Chain.suffix {m : List τ} (h : Chain next first (l ++ m)) : Chain next m.head? m := by
  induction l generalizing first with
  | nil => exact h.head? ▸ h
  | cons a l ih => exact ih h.2

/-- Another continuation behind a node, if the links up to it stay. -/
theorem Chain.relink {q : τ} {m m' : List τ} (h : Chain next first (l ++ q :: m)) (hsame : ∀ a ∈ l, next' a = next a)
    (hm : Chain next' (next' q) m') : Chain next' first (l ++ q :: m') := by
  induction l generalizing first with
  | nil => exact ⟨h.1, hm⟩
  | cons a l ih =>
    refine ⟨h.1, ?_⟩
    rw [hsame a List.mem_cons_self]
    exact ih h.2 (fun b hb => hsame b (List.mem_cons_of_mem a hb))

variable [DecidableEq τ]

theorem Chain.update (h : Chain next first l) {a : τ} (ha : a ∉ l) (b : Option τ) :
    Chain (Function.update next a b) first l := by
  apply h.congr
  intro c hc
  rw [Function.update_of_ne]
  rintro rfl
  exact ha hc

theorem Chain.unlink {q b : τ} {m : List τ} (h : Chain next first (l ++ q :: b :: m)) (hnodup : (l ++ q :: b :: m).Nodup) :
    Chain (Function.update next q (next b)) first (l ++ q :: m) := by
  obtain ⟨-, hrest, hapart⟩ := List.nodup_append.mp hnodup
  obtain ⟨hq, -⟩ := List.nodup_cons.mp hrest
  apply h.relink
  · intro a ha
    apply Function.update_of_ne
    rintro rfl
    exact hapart a ha a List.mem_cons_self rfl
  · rw [Function.update_self]
    exact Chain.update h.suffix.2.2 (fun hmem => hq (List.mem_cons_of_mem b hmem)) (next b)

theorem Chain.snoc (h : Chain next first l) (hl : l.Nodup) {a tail : τ} (ha : a ∉ l) (htail : l.getLast? = some tail) :
    Chain (Function.update (Function.update next tail (some a)) a none) first (l ++ [a]) := by
  induction l generalizing first with
  | nil => simp at htail
  | cons b l ih =>
    obtain ⟨hfirst, hrest⟩ := h
    obtain ⟨hb, hl⟩ := List.nodup_cons.mp hl
    have hab : b ≠ a := fun heq => ha (heq ▸ List.mem_cons_self)
    refine ⟨hfirst, ?_⟩
    rw [Function.update_of_ne hab]
    cases l with
    | nil =>
      obtain rfl : b = tail := by simpa using htail
      rw [Function.update_self]
      exact ⟨rfl, Function.update_self ..⟩
    | cons c l =>
      have hlast : (c :: l).getLast? = some tail := by rwa [List.getLast?_cons_cons] at htail
      have hbt : b ≠ tail := by
        rintro rfl
        exact hb (List.mem_of_getLast? hlast)
      rw [Function.update_of_ne hbt]
      exact ih hrest hl (fun hmem => ha (List.mem_cons_of_mem b hmem)) hlast

end RaleighSL.Library
