import Mathlib.Data.List.Basic
import Mathlib.Data.Nat.Basic

/-!
# Circular storage

A list is stored in a buffer from a position on, one element after the other modulo
the length of the buffer. Positions are not reduced, so that a position tells how
often the storage has wrapped around.
-/
namespace RaleighSL.Library

variable {α : Type*} {buf l l' d : List α} {a n : Nat}

/-- The buffer holds the list from position `a` on. -/
def Holds (buf : List α) (a : Nat) (l : List α) : Prop :=
  ∀ i (hi : i < l.length), buf[(a + i) % buf.length]? = some l[i]

def store (buf : List α) (off : Nat) (d : List α) : List α := buf.take off ++ d ++ buf.drop (off + d.length)

theorem holds_nil (buf : List α) (a : Nat) : Holds buf a [] := by
  intro i hi
  simp at hi

theorem holds_append : Holds buf a (l ++ l') ↔ Holds buf a l ∧ Holds buf (a + l.length) l' := by
  constructor
  · intro h
    refine ⟨?_, ?_⟩
    · intro i hi
      rw [h i (by rw [List.length_append]; omega), List.getElem_append_left hi]
    · intro i hi
      have hlong := h (l.length + i) (by rw [List.length_append]; omega)
      rw [List.getElem_append_right (by omega)] at hlong
      simpa [Nat.add_assoc] using hlong
  · rintro ⟨h, h'⟩ i hi
    rw [List.length_append] at hi
    by_cases hlt : i < l.length
    · rw [List.getElem_append_left hlt, h i hlt]
    · have hrest := h' (i - l.length) (by omega)
      rw [List.getElem_append_right (by omega), ← hrest]
      congr 2
      omega

theorem Holds.take (h : Holds buf a l) (n : Nat) : Holds buf a (l.take n) := by
  rw [← List.take_append_drop n l, holds_append] at h
  exact h.1

/-- A piece that does not reach the end of the buffer is read in one go. -/
theorem Holds.load (h : Holds buf a l) (hend : a % buf.length + l.length ≤ buf.length) :
    (buf.drop (a % buf.length)).take l.length = l := by
  refine List.ext_getElem? ?_
  intro i
  by_cases hi : i < l.length
  · have hmod : (a + i) % buf.length = a % buf.length + i := by
      rw [Nat.add_mod, Nat.mod_eq_of_lt (a := i) (by omega), Nat.mod_eq_of_lt (by omega)]
    rw [List.getElem?_take_of_lt hi, List.getElem?_drop, ← hmod, h i hi, List.getElem?_eq_getElem hi]
  · rw [List.getElem?_eq_none (by simp; omega), List.getElem?_eq_none (by omega)]

theorem mod_wrap (hpos : 0 < buf.length) : (a + (buf.length - a % buf.length)) % buf.length = 0 := by
  have hlt := Nat.mod_lt a hpos
  have hdiv := Nat.div_add_mod a buf.length
  have hsum : a + (buf.length - a % buf.length) = buf.length * (a / buf.length + 1) := by
    rw [Nat.mul_add, Nat.mul_one]
    omega
  rw [hsum, Nat.mul_mod_right]

theorem Holds.load_wrap (h : Holds buf a l) (hpos : 0 < buf.length) (hend : buf.length ≤ a % buf.length + l.length)
    (hlen : l.length ≤ buf.length) :
    (buf.drop (a % buf.length)).take (buf.length - a % buf.length) ++ buf.take (l.length - (buf.length - a % buf.length)) = l := by
  have hlt := Nat.mod_lt a hpos
  rw [← List.take_append_drop (buf.length - a % buf.length) l, holds_append] at h
  have hfirst : (l.take (buf.length - a % buf.length)).length = buf.length - a % buf.length := by
    rw [List.length_take]
    omega
  have h₁ := h.1.load (by rw [hfirst]; omega)
  have h₂ := h.2.load (by rw [hfirst, mod_wrap hpos, List.length_drop]; omega)
  rw [hfirst] at h₁ h₂
  rw [mod_wrap hpos, List.length_drop, List.drop_zero] at h₂
  rw [h₁, h₂, List.take_append_drop]

@[simp] theorem store_nil (buf : List α) (off : Nat) : store buf off [] = buf := by simp [store]

theorem length_store {off : Nat} (h : off + d.length ≤ buf.length) : (store buf off d).length = buf.length := by
  simp only [store, List.length_append, List.length_take, List.length_drop]
  omega

theorem getElem?_store_of_mem {off i : Nat} (h : off + d.length ≤ buf.length) (hi : i < d.length) :
    (store buf off d)[off + i]? = some d[i] := by
  have htake : (buf.take off).length = off := by
    rw [List.length_take]
    omega
  rw [store, List.append_assoc, List.getElem?_append_right (by omega), htake, Nat.add_sub_cancel_left,
    List.getElem?_append_left hi, List.getElem?_eq_getElem hi]

theorem getElem?_store_of_notMem {off i : Nat} (h : off + d.length ≤ buf.length) (hi : i < off ∨ off + d.length ≤ i) :
    (store buf off d)[i]? = buf[i]? := by
  have htake : (buf.take off).length = off := by
    rw [List.length_take]
    omega
  rcases hi with hi | hi
  · rw [store, List.append_assoc, List.getElem?_append_left (by omega), List.getElem?_take_of_lt hi]
  · rw [store, List.append_assoc, List.getElem?_append_right (by omega), htake, List.getElem?_append_right (by omega),
      List.getElem?_drop]
    congr 1
    omega

theorem mod_ne_of_lt {N i j : Nat} (h : i < j) (hlt : j < i + N) : j % N ≠ i % N := by
  intro heq
  have hzero : (j - i) % N = 0 := Nat.sub_mod_eq_zero_of_mod_eq heq
  rw [Nat.mod_eq_of_lt (by omega)] at hzero
  omega

theorem Holds.store (h : Holds buf a l) (hroom : l.length + d.length ≤ buf.length)
    (hend : (a + l.length) % buf.length + d.length ≤ buf.length) :
    Holds (store buf ((a + l.length) % buf.length) d) a (l ++ d) := by
  have hlen := length_store hend
  have hmod (i : Nat) (hi : i < d.length) : (a + l.length + i) % buf.length = (a + l.length) % buf.length + i := by
    rw [Nat.add_mod, Nat.mod_eq_of_lt (a := i) (by omega), Nat.mod_eq_of_lt (by omega)]
  rw [holds_append]
  refine ⟨?_, ?_⟩
  · intro i hi
    have hout : (a + i) % buf.length < (a + l.length) % buf.length ∨
        (a + l.length) % buf.length + d.length ≤ (a + i) % buf.length := by
      by_contra hin
      have hoff : (a + i) % buf.length - (a + l.length) % buf.length < d.length := by omega
      refine mod_ne_of_lt (N := buf.length) (i := a + i)
        (j := a + l.length + ((a + i) % buf.length - (a + l.length) % buf.length)) (by omega) (by omega) ?_
      rw [hmod _ hoff]
      omega
    rw [hlen, getElem?_store_of_notMem hend hout, h i hi]
  · intro i hi
    rw [hlen, hmod i hi, getElem?_store_of_mem hend hi]

/-- Elements stored up to the end of the buffer and from its start on extend the list. -/
theorem Holds.store_wrap (h : Holds buf a l) (hpos : 0 < buf.length) (hroom : l.length + d.length ≤ buf.length) :
    Holds (Library.store (Library.store buf ((a + l.length) % buf.length)
        (d.take (buf.length - (a + l.length) % buf.length))) 0 (d.drop (buf.length - (a + l.length) % buf.length))) a (l ++ d) := by
  have hlt := Nat.mod_lt (a + l.length) hpos
  have hlen : (d.take (buf.length - (a + l.length) % buf.length)).length ≤ buf.length - (a + l.length) % buf.length :=
    List.length_take_le _ _
  have hfirst := h.store (d := d.take (buf.length - (a + l.length) % buf.length))
    (by rw [List.length_take]; omega) (by omega)
  have hsize : (Library.store buf ((a + l.length) % buf.length)
      (d.take (buf.length - (a + l.length) % buf.length))).length = buf.length := length_store (by omega)
  by_cases hshort : d.length ≤ buf.length - (a + l.length) % buf.length
  · rw [List.take_of_length_le hshort] at hfirst ⊢
    rw [List.drop_of_length_le hshort, store_nil]
    exact hfirst
  · have htake : (d.take (buf.length - (a + l.length) % buf.length)).length = buf.length - (a + l.length) % buf.length := by
      rw [List.length_take]
      omega
    have hzero : (a + (l ++ d.take (buf.length - (a + l.length) % buf.length)).length) % buf.length = 0 := by
      rw [List.length_append, htake, ← Nat.add_assoc, mod_wrap hpos]
    have hsecond := hfirst.store (d := d.drop (buf.length - (a + l.length) % buf.length))
      (by rw [hsize, List.length_append, htake, List.length_drop]; omega)
      (by rw [hsize, hzero, List.length_drop]; omega)
    rw [hsize, hzero, List.append_assoc, List.take_append_drop] at hsecond
    exact hsecond

theorem add_mod_cases {N u : Nat} (x : Nat) (h : u < N) :
    (x % N + u < N ∧ (x + u) % N = x % N + u) ∨ (N ≤ x % N + u ∧ (x + u) % N = x % N + u - N) := by
  have hlt := Nat.mod_lt x (show 0 < N by omega)
  have hmod : (x + u) % N = (x % N + u) % N := by rw [Nat.mod_add_mod]
  rcases Nat.lt_or_ge (x % N + u) N with hcase | hcase
  · exact Or.inl ⟨hcase, by rw [hmod, Nat.mod_eq_of_lt hcase]⟩
  · refine Or.inr ⟨hcase, ?_⟩
    rw [hmod, Nat.mod_eq_sub_mod hcase, Nat.mod_eq_of_lt (by omega)]

end RaleighSL.Library
