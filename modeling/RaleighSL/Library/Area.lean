import Mathlib.Data.List.Basic

/-!
# Areas

An area is a list of cells. A range of it is read, written or copied to another place; there is no
result when the range is not within the area. A range without cells is within any area.
-/
namespace RaleighSL.Library

variable {α : Type*} {area area' cells : List α} {pos n : Nat}

def readAt (area : List α) (pos n : Nat) : Option (List α) :=
  if n = 0 then some []
  else if pos + n ≤ area.length then some ((area.drop pos).take n) else none

def writeAt (area : List α) (pos : Nat) (cells : List α) : Option (List α) :=
  if cells.length = 0 then some area
  else if pos + cells.length ≤ area.length then some (area.take pos ++ cells ++ area.drop (pos + cells.length)) else none

/-- A range is copied to another place, as if through a copy of it. -/
def moveAt (area : List α) (dst pos n : Nat) : Option (List α) := (readAt area pos n).bind (writeAt area dst)

theorem length_of_readAt (h : readAt area pos n = some cells) : cells.length = n := by
  rw [readAt] at h
  split_ifs at h with hzero hle
  · obtain rfl := Option.some.inj h
    exact hzero.symm
  · obtain rfl := Option.some.inj h
    rw [List.length_take, List.length_drop]
    omega

theorem length_of_writeAt (h : writeAt area pos cells = some area') : area'.length = area.length := by
  rw [writeAt] at h
  split_ifs at h with hzero hle
  · rw [← Option.some.inj h]
  · obtain rfl := Option.some.inj h
    simp only [List.length_append, List.length_take, List.length_drop]
    omega

theorem length_of_moveAt {dst : Nat} (h : moveAt area dst pos n = some area') : area'.length = area.length := by
  obtain ⟨cells, -, hwrite⟩ := Option.bind_eq_some_iff.mp h
  exact length_of_writeAt hwrite

theorem le_of_writeAt (h : writeAt area pos cells = some area') (hne : cells ≠ []) : pos + cells.length ≤ area.length := by
  rw [writeAt, if_neg (by rwa [List.length_eq_zero_iff])] at h
  split_ifs at h with hle
  exact hle

theorem readAt_append (a b c : List α) : readAt (a ++ (b ++ c)) a.length b.length = some b := by
  rw [readAt]
  split_ifs with hzero hle
  · rw [List.length_eq_zero_iff.mp hzero]
  · rw [List.drop_left, List.take_left]
  · rw [List.length_append, List.length_append] at hle
    omega

theorem writeAt_append {b : List α} (a c : List α) (h : cells.length = b.length) :
    writeAt (a ++ (b ++ c)) a.length cells = some (a ++ (cells ++ c)) := by
  rw [writeAt]
  split_ifs with hzero hle
  · rw [List.length_eq_zero_iff.mp hzero, List.length_eq_zero_iff.mp (h.symm.trans hzero)]
  · rw [List.take_left, List.append_assoc, ← List.drop_drop, List.drop_left, h, List.drop_left]
  · rw [List.length_append, List.length_append] at hle
    omega

theorem writeAt_behind (a : List α) {rest : List α} (h : cells.length ≤ rest.length) :
    writeAt (a ++ rest) a.length cells = some (a ++ (cells ++ rest.drop cells.length)) := by
  have hwrite := writeAt_append a (rest.drop cells.length) (List.length_take_of_le h).symm
  rwa [List.take_append_drop] at hwrite

theorem writeAt_front (h : cells.length ≤ area.length) : writeAt area 0 cells = some (cells ++ area.drop cells.length) :=
  writeAt_behind [] h

theorem writeAt_within (h : pos + cells.length ≤ area.length) :
    ∃ a c, writeAt area pos cells = some (a ++ (cells ++ c)) ∧ a = area.take pos ∧ a.length = pos := by
  have hlen : (area.take pos).length = pos := List.length_take_of_le (by omega)
  have hwrite := writeAt_behind (area.take pos) (show cells.length ≤ (area.drop pos).length by rw [List.length_drop]; omega)
  rw [hlen, List.take_append_drop] at hwrite
  exact ⟨area.take pos, _, hwrite, rfl, hlen⟩

/-! ### Spans with gaps

Spans of a range of positions, each given by its start and its length, that follow each other. What
lies between two of them, in front of the first one and behind the last one is a gap. -/

def Gap (gap : Nat → Prop) (first last : Nat) : Prop := ∀ i, first ≤ i → i < last → gap i

/-- The spans follow each other from the position `i` on, and the range ends at `limit`. -/
def Tiles (gap : Nat → Prop) : Nat → List (Nat × Nat) → Nat → Prop
  | i, [], limit => i ≤ limit ∧ Gap gap i limit
  | i, s :: ss, limit => i ≤ s.1 ∧ Gap gap i s.1 ∧ 0 < s.2 ∧ Tiles gap (s.1 + s.2) ss limit

variable {gap : Nat → Prop} {i limit : Nat} {ss : List (Nat × Nat)}

theorem Tiles.le (h : Tiles gap i ss limit) : i ≤ limit := by
  induction ss generalizing i with
  | nil => exact h.1
  | cons s ss ih =>
    obtain ⟨hi, -, -, hrest⟩ := h
    have hle := ih hrest
    omega

theorem Tiles.start_le (h : Tiles gap i ss limit) : ∀ s ∈ ss, i ≤ s.1 := by
  induction ss generalizing i with
  | nil => exact fun s hs => absurd hs List.not_mem_nil
  | cons t ss ih =>
    obtain ⟨hi, -, -, hrest⟩ := h
    intro s hs
    rcases List.mem_cons.mp hs with rfl | hs
    · exact hi
    · have hle := ih hrest s hs
      omega

theorem Tiles.nonempty (h : Tiles gap i ss limit) : ∀ s ∈ ss, 0 < s.2 := by
  induction ss generalizing i with
  | nil => exact fun s hs => absurd hs List.not_mem_nil
  | cons t ss ih =>
    obtain ⟨-, -, hpos, hrest⟩ := h
    intro s hs
    rcases List.mem_cons.mp hs with rfl | hs
    · exact hpos
    · exact ih hrest s hs

/-- The spans are disjoint and stand in the order of their positions. -/
theorem Tiles.ordered (h : Tiles gap i ss limit) : ss.Pairwise (fun s t => s.1 + s.2 ≤ t.1) := by
  induction ss generalizing i with
  | nil => exact List.Pairwise.nil
  | cons s ss ih =>
    obtain ⟨-, -, -, hrest⟩ := h
    exact List.Pairwise.cons hrest.start_le (ih hrest)

theorem Tiles.inside (h : Tiles gap i ss limit) : ∀ s ∈ ss, s.1 + s.2 ≤ limit := by
  induction ss generalizing i with
  | nil => exact fun s hs => absurd hs List.not_mem_nil
  | cons t ss ih =>
    obtain ⟨-, -, -, hrest⟩ := h
    intro s hs
    rcases List.mem_cons.mp hs with rfl | hs
    · exact hrest.le
    · exact ih hrest s hs

/-- A position of the range is in one of the spans, or it is a gap. -/
theorem Tiles.covers (h : Tiles gap i ss limit) {j : Nat} (hi : i ≤ j) (hj : j < limit) (hgap : ¬ gap j) :
    ∃ s ∈ ss, s.1 ≤ j ∧ j < s.1 + s.2 := by
  induction ss generalizing i with
  | nil => exact absurd (h.2 j hi hj) hgap
  | cons t ss ih =>
    obtain ⟨-, hfront, -, hrest⟩ := h
    by_cases hstart : j < t.1
    · exact absurd (hfront j hi hstart) hgap
    · by_cases hstop : j < t.1 + t.2
      · exact ⟨t, List.mem_cons_self, by omega, hstop⟩
      · obtain ⟨s, hs, hin⟩ := ih hrest (by omega)
        exact ⟨s, List.mem_cons_of_mem t hs, hin⟩

end RaleighSL.Library
