import Mathlib.Data.List.Perm.Basic
import Mathlib.Data.List.Range
import Mathlib.Logic.Function.Basic
import Mathlib.Tactic.Common

/-!
# Buckets

Items are kept in numbered lists, each item in the list an index function gives. The
contents of the lists are compared up to their order.
-/
namespace RaleighSL.Library

open scoped List

variable {α : Type*} {n : Nat} {b : Nat → List α} {index : α → Nat} {a : α}

def contents (n : Nat) (b : Nat → List α) : List α := (List.range n).flatMap b

/-- Every item is where the index function says. -/
def Bucketed (index : α → Nat) (b : Nat → List α) : Prop := ∀ i, ∀ a ∈ b i, index a = i

theorem contents_succ (n : Nat) (b : Nat → List α) : contents (n + 1) b = contents n b ++ b n := by
  rw [contents, List.range_succ, List.flatMap_append, List.flatMap_singleton]
  rfl

theorem contents_congr {b' : Nat → List α} (h : ∀ i < n, b' i = b i) : contents n b' = contents n b := by
  induction n with
  | zero => rfl
  | succ n ih =>
    rw [contents_succ, contents_succ, ih (fun i hi => h i (Nat.lt_succ_of_lt hi)), h n (Nat.lt_succ_self n)]

/-- One list is replaced, and items come or go as they do in it. -/
theorem contents_update {i : Nat} (hi : i < n) {x y l : List α} (hl : x ++ l ~ y ++ b i) :
    x ++ contents n (Function.update b i l) ~ y ++ contents n b := by
  induction n with
  | zero => exact absurd hi (Nat.not_lt_zero i)
  | succ n ih =>
    rw [contents_succ, contents_succ]
    obtain hi | rfl := Nat.lt_succ_iff_lt_or_eq.mp hi
    · rw [Function.update_of_ne hi.ne', ← List.append_assoc, ← List.append_assoc]
      exact (ih hi).append_right (b n)
    · have hrest : contents i (Function.update b i l) = contents i b :=
        contents_congr (fun j hj => Function.update_of_ne hj.ne _ _)
      rw [Function.update_self, hrest]
      calc
        x ++ (contents i b ++ l) ~ contents i b ++ (x ++ l) := List.perm_append_comm_assoc x (contents i b) l
        _ ~ contents i b ++ (y ++ b i) := hl.append_left _
        _ ~ y ++ (contents i b ++ b i) := List.perm_append_comm_assoc (contents i b) y (b i)

theorem mem_contents (h : Bucketed index b) (hindex : index a < n) : a ∈ contents n b ↔ a ∈ b (index a) := by
  rw [contents, List.mem_flatMap]
  constructor
  · rintro ⟨i, -, ha⟩
    rwa [h i a ha]
  · intro ha
    exact ⟨index a, List.mem_range.mpr hindex, ha⟩

theorem Bucketed.update (h : Bucketed index b) {i : Nat} {l : List α} (hl : ∀ a ∈ l, index a = i) :
    Bucketed index (Function.update b i l) := by
  intro j a ha
  by_cases hj : j = i
  · subst hj
    rw [Function.update_self] at ha
    exact hl a ha
  · rw [Function.update_of_ne hj] at ha
    exact h j a ha

def rehash (index : α → Nat) (l : List α) : Nat → List α :=
  l.foldl (fun b a => Function.update b (index a) (a :: b (index a))) (fun _ => [])

def push (index : α → Nat) (b : Nat → List α) (a : α) : Nat → List α :=
  Function.update b (index a) (a :: b (index a))

theorem foldl_push (index : α → Nat) (l : List α) : l.foldl (push index) (fun _ => []) = rehash index l := rfl

theorem mem_push {c : α} {i : Nat} (h : c ∈ push index b a i) : c = a ∨ c ∈ b i := by
  rw [push] at h
  by_cases hi : i = index a
  · subst hi
    rwa [Function.update_self, List.mem_cons] at h
  · rw [Function.update_of_ne hi] at h
    exact Or.inr h

theorem mem_foldl_push {l : List α} {c : α} {i : Nat} (h : c ∈ l.foldl (push index) b i) : c ∈ l ∨ c ∈ b i := by
  induction l generalizing b with
  | nil => exact Or.inr h
  | cons a l ih =>
    rcases ih h with hl | hpush
    · exact Or.inl (List.mem_cons_of_mem a hl)
    · obtain rfl | hb := mem_push hpush
      · exact Or.inl List.mem_cons_self
      · exact Or.inr hb

theorem foldl_push_append (l base : List α) : l.foldl (push index) (fun i => b i ++ base) =
    fun i => l.foldl (push index) b i ++ base := by
  induction l generalizing b with
  | nil => rfl
  | cons a l ih =>
    have hpush : push index (fun i => b i ++ base) a = fun i => push index b a i ++ base := by
      funext i
      by_cases hi : i = index a
      · subst hi
        simp [push]
      · simp [push, Function.update_of_ne hi]
    rw [List.foldl_cons, hpush, ih, List.foldl_cons]

theorem rehash_append (index : α → Nat) (l : List α) (a : α) :
    rehash index (l ++ [a]) = Function.update (rehash index l) (index a) (a :: rehash index l (index a)) := by
  rw [rehash, List.foldl_append]
  rfl

theorem bucketed_rehash (index : α → Nat) (l : List α) : Bucketed index (rehash index l) := by
  induction l using List.reverseRecOn with
  | nil =>
    intro i a ha
    exact absurd ha List.not_mem_nil
  | append_singleton l a ih =>
    rw [rehash_append]
    apply ih.update
    intro c hc
    obtain rfl | hc := List.mem_cons.mp hc
    · rfl
    · exact ih _ c hc

theorem contents_rehash {l : List α} (hindex : ∀ a ∈ l, index a < n) : contents n (rehash index l) ~ l := by
  induction l using List.reverseRecOn with
  | nil =>
    have hnil : contents n (rehash index ([] : List α)) = [] := by
      rw [contents, List.flatMap_eq_nil_iff]
      intro i _
      rfl
    rw [hnil]
  | append_singleton l a ih =>
    rw [rehash_append]
    have hl := ih (fun c hc => hindex c (List.mem_append_left _ hc))
    have ha : index a < n := hindex a (by simp)
    have hstep := contents_update (b := rehash index l) ha (x := []) (y := [a]) (List.Perm.refl (a :: rehash index l (index a)))
    exact hstep.trans ((List.Perm.cons a hl).trans (List.perm_append_singleton a l).symm)

end RaleighSL.Library
