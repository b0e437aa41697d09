import RaleighSL.Zcl.Slice.Front

/-!
# Slices as byte strings

A byte string with the calls of a slice is the abstract machine. A call follows it exactly when it
is fine in the state it starts from, and a run of calls exactly when all of its calls are.
-/
namespace RaleighSL.Zcl.Slice

open Library

/-- What a call means for a byte string. A copy ends the string when the buffer has room behind it. -/
def specStep (str : Bytes) : Op → Bytes × Result
  | .append data => (str ++ data, .status 0)
  | .prepend data => (data ++ str, .status 0)
  | .add slice => (str ++ slice.content, .status 0)
  | .ltrim size => (str.drop size, .status 0)
  | .length => (str, .size str.length)
  | .isEmpty => (str, .flag (decide (str = [])))
  | .equals data => (str, .flag (decide (data = str)))
  | .startsWith data => (str, .flag (decide (data <+: str)))
  | .copy size => (str, .copied (str.take size ++ if str.length < size then [0] else []) (min size str.length))

def Denotes (s : State) (str : Bytes) : Prop := s.Sound ∧ s.content = str

/-- A call does what it means: an argument fits a block, a prepend finds its place in front, nothing is added to or from a
slice with bytes, what only sees the run is not asked for more, and a copy has room for the byte that ends it. -/
def Fine (s : State) : Op → Prop
  | .append data => data.length < 2 ^ 32
  | .prepend data => data.length < 2 ^ 32 ∧ CanPrepend s data
  | .add slice => s.content = [] ∧ slice.content = []
  | .ltrim _ => True
  | .length => s.Tight ∧ s.content.length < 2 ^ 64
  | .isEmpty => s.head.block₀.size = 0 → s.content = []
  | .equals data => s.Tight ∨ (data ≠ s.content ∧ data ≠ s.run)
  | .startsWith data => data <+: s.content → data.length ≤ s.head.block₀.size
  | .copy size => s.content.length < size

variable {s : State} {str : Bytes}

theorem denotes_empty : Denotes empty [] := ⟨sound_empty, rfl⟩

/-- A call that changes the slice follows the string. -/
theorem follows_of_changed {op : Op} {s' : State} {r : Result} (hs : step s op = some (s', r))
    (hr : (specStep str op).2 = r) (hfine : Fine s op ↔ Denotes s' (specStep str op).1) :
    Fine s op ↔ ∃ s', step s op = some (s', (specStep str op).2) ∧ Denotes s' (specStep str op).1 := by
  rw [hfine, hs, hr]
  constructor
  · intro hd
    exact ⟨s', rfl, hd⟩
  · rintro ⟨t, ht, hd⟩
    obtain ⟨rfl, -⟩ := Prod.mk.inj (Option.some.inj ht)
    exact hd

theorem Denotes.follows (h : Denotes s str) {op : Op} {r : Result} (hs : step s op = some (s, r))
    (hstr : (specStep str op).1 = str) (hfine : Fine s op ↔ r = (specStep str op).2) :
    Fine s op ↔ ∃ s', step s op = some (s', (specStep str op).2) ∧ Denotes s' (specStep str op).1 := by
  rw [hfine, hs, hstr]
  constructor
  · rintro rfl
    exact ⟨s, rfl, h⟩
  · rintro ⟨t, ht, -⟩
    exact (Prod.mk.inj (Option.some.inj ht)).2

/-- A call follows the string exactly when it is fine. -/
theorem Denotes.fine_iff (h : Denotes s str) (op : Op) :
    Fine s op ↔ ∃ s', step s op = some (s', (specStep str op).2) ∧ Denotes s' (specStep str op).1 := by
  obtain ⟨hsound, rfl⟩ := h
  have h : Denotes s s.content := ⟨hsound, rfl⟩
  cases op with
  | append data =>
    refine follows_of_changed rfl rfl ?_
    rw [Denotes, and_iff_right (hsound.append (Nat.le_refl _)), content_append]
    show _ ↔ _ = s.content ++ data
    rw [List.append_cancel_left_eq, take_mod_eq_iff, Fine]
  | prepend data =>
    refine follows_of_changed rfl rfl ?_
    rw [Fine, ← hsound.prepend_iff]
    rfl
  | add slice =>
    by_cases hnil : s.content = []
    · have hadd : step s (.add slice) = some (s, .status 0) := by
        rw [step, hsound.add_nil hnil, Option.map_some]
      refine follows_of_changed hadd rfl ?_
      rw [Denotes, and_iff_right hsound, Fine, and_iff_right hnil, specStep, hnil, List.nil_append]
      exact eq_comm
    · refine iff_of_false (fun hfine => hnil hfine.1) ?_
      rintro ⟨s', hs, -⟩
      rw [step, add, hsound.add_endless hnil] at hs
      simp at hs
  | ltrim size =>
    refine follows_of_changed rfl rfl ?_
    exact iff_of_true trivial (hsound.ltrim size)
  | length =>
    refine h.follows rfl rfl ?_
    rw [Fine, ← hsound.length_eq_iff]
    exact (Result.size.injEq _ _).symm ▸ Iff.rfl
  | isEmpty =>
    refine h.follows rfl rfl ?_
    rw [Fine, ← hsound.isEmpty_iff]
    exact (Result.flag.injEq _ _).symm ▸ Iff.rfl
  | equals data =>
    refine h.follows rfl rfl ?_
    rw [Fine, ← hsound.equals_iff]
    exact (Result.flag.injEq _ _).symm ▸ Iff.rfl
  | startsWith data =>
    refine h.follows rfl rfl ?_
    rw [specStep, Result.flag.injEq, Bool.eq_iff_iff, hsound.startsWith_eq_true, decide_eq_true_iff, Fine]
    tauto
  | copy size =>
    refine h.follows rfl rfl ?_
    rw [copy, copyFrom_eq hsound, specStep, Result.copied.injEq, Fine]
    show _ ↔ s.content.take size ++ [0] = _ ∧ (s.content.take size).length = _
    rw [List.append_cancel_left_eq, List.length_take, and_iff_left rfl]
    by_cases hlt : s.content.length < size
    · simp [hlt]
    · simp [hlt]

/-- A run of calls on a new slice follows the string, with every result and with the bytes of the blocks after every call,
exactly when each of its calls is fine. -/
theorem slice_tracks_iff (ops : List Op) : Tracks step specStep Denotes empty [] ops ↔ Meets step Fine empty ops := by
  refine tracks_iff_meets (R := Denotes) (fun _ _ h => h) ?_ ?_ denotes_empty
  · intro s str op h hfine
    exact (h.fine_iff op).mp hfine
  · intro s str op s' h hfine hs hd
    exact hfine ((h.fine_iff op).mpr ⟨s', hs, hd⟩)

/-- Bytes that are prepended to the only block of a slice come behind it. -/
theorem prepend_misplaced : ¬ ∀ ops, Tracks step specStep Denotes empty [] ops := by
  intro h
  obtain ⟨s, hs, -, hcontent⟩ := h [.append [1], .prepend [2]] _ (List.prefix_refl _)
  have hrun : exec step empty [.append [1], .prepend [2]] = some
      ({ head := ⟨⟨1, [1]⟩, ⟨1, [2]⟩, Block.zero⟩, rest := [] }, [.status 0, .status 0]) := by
    decide
  rw [hrun] at hs
  obtain ⟨rfl, -⟩ := Prod.mk.inj (Option.some.inj hs)
  revert hcontent
  decide

end RaleighSL.Zcl.Slice
