import RaleighSL.Zcl.Map

/-!
# The comparison of byte slices

`z_byte_slice_compare` compares the bytes and then the sizes. The difference of the sizes is a
32-bit number that is returned as an `int`: from `2 ^ 31` on it has the other sign, and a slice
comes in front of a shorter one that it begins with.
-/
namespace RaleighSL.Zcl

def memcmp (a b : Bytes) : Int := if a < b then -1 else if a = b then 0 else 1

/-- `z_byte_slice_compare`. -/
def sliceCompare (a b : Bytes) : Int :=
  if a.length ≠ b.length then
    let cmp := memcmp (a.take (min a.length b.length)) (b.take (min a.length b.length))
    if cmp ≠ 0 then cmp else ((a.length : Int) - b.length).bmod (2 ^ 32)
  else memcmp a b

/-- A slice begins the other one and is so much shorter that the comparison takes it for the greater one. -/
def MuchShorter (a b : Bytes) : Prop := a <+: b ∧ 2 ^ 31 < b.length - a.length

instance (a b : Bytes) : Decidable (MuchShorter a b) := inferInstanceAs (Decidable (_ ∧ _))

/-- The comparison of two slices is the one of their bytes: neither of them is too short a beginning of the other. -/
def Comparable (a b : Bytes) : Prop := ¬ MuchShorter a b ∧ ¬ (b <+: a ∧ 2 ^ 31 ≤ a.length - b.length)

instance (a b : Bytes) : Decidable (Comparable a b) := inferInstanceAs (Decidable (_ ∧ _))

variable {a b : Bytes}

theorem lt_of_proper (h : a <+: b) (hne : a ≠ b) : a < b := by
  obtain ⟨t, rfl⟩ := h
  induction a with
  | nil =>
    cases t with
    | nil => exact absurd rfl hne
    | cons x t => exact List.nil_lt_cons x t
  | cons x a ih =>
    rw [List.cons_append, List.cons_lt_cons_iff]
    exact Or.inr ⟨rfl, ih fun hc => hne (congrArg (x :: ·) hc)⟩

theorem take_lt_take_iff {m : Nat} (h : a.take m ≠ b.take m) : a.take m < b.take m ↔ a < b := by
  induction m generalizing a b with
  | zero => simp at h
  | succ m ih =>
    cases a with
    | nil => cases b <;> simp
    | cons x a =>
      cases b with
      | nil => simp
      | cons y b =>
        rw [List.take_succ_cons, List.take_succ_cons, List.cons_lt_cons_iff, List.cons_lt_cons_iff]
        by_cases hxy : x = y
        · subst hxy
          rw [ih (fun hc => h (by rw [List.take_succ_cons, List.take_succ_cons, hc]))]
        · simp [hxy]

theorem memcmp_neg (a b : Bytes) : memcmp a b < 0 ↔ a < b := by
  rw [memcmp]
  split_ifs with hlt heq
  · exact iff_of_true (by decide) hlt
  · exact iff_of_false (by decide) hlt
  · exact iff_of_false (by decide) hlt

theorem memcmp_eq_zero (a b : Bytes) : memcmp a b = 0 ↔ a = b := by
  rw [memcmp]
  split_ifs with hlt heq
  · exact iff_of_false (by decide) hlt.ne
  · exact iff_of_true rfl heq
  · exact iff_of_false (by decide) heq

/-- Two slices that agree as far as the shorter one goes are compared by their sizes. -/
theorem sliceCompare_of_take (h : a.take (min a.length b.length) = b.take (min a.length b.length)) :
    sliceCompare a b = ((a.length : Int) - b.length).bmod (2 ^ 32) := by
  rw [sliceCompare]
  split_ifs with hlen
  · dsimp only
    rw [if_neg (not_not.mpr ((memcmp_eq_zero _ _).mpr h))]
  · have hsame := not_not.mp hlen
    rw [hsame, min_self, List.take_length, ← hsame, List.take_length] at h
    rw [(memcmp_eq_zero a b).mpr h, h, Int.sub_self]
    rfl

theorem sliceCompare_of_begins (h : a <+: b) : sliceCompare a b = ((a.length : Int) - b.length).bmod (2 ^ 32) := by
  apply sliceCompare_of_take
  rw [min_eq_left h.length_le, List.take_length]
  exact List.prefix_iff_eq_take.mp h

theorem sliceCompare_of_extends (h : b <+: a) : sliceCompare a b = ((a.length : Int) - b.length).bmod (2 ^ 32) := by
  apply sliceCompare_of_take
  rw [min_eq_right h.length_le, List.take_length]
  exact (List.prefix_iff_eq_take.mp h).symm

/-- Two slices that part from each other are compared by their bytes. -/
theorem sliceCompare_of_parted (h : ¬ a <+: b) (h' : ¬ b <+: a) :
    (sliceCompare a b < 0 ↔ a < b) ∧ sliceCompare a b ≠ 0 := by
  have hne : a ≠ b := by
    rintro rfl
    exact h (List.prefix_refl a)
  have htake : a.take (min a.length b.length) ≠ b.take (min a.length b.length) := by
    intro hc
    rcases le_total a.length b.length with hle | hle
    · rw [min_eq_left hle, List.take_length] at hc
      exact h (List.prefix_iff_eq_take.mpr hc)
    · rw [min_eq_right hle, List.take_length] at hc
      exact h' (List.prefix_iff_eq_take.mpr hc.symm)
  have hcmp : memcmp (a.take (min a.length b.length)) (b.take (min a.length b.length)) ≠ 0 :=
    fun hc => htake ((memcmp_eq_zero _ _).mp hc)
  rw [sliceCompare]
  split_ifs with hlen
  · dsimp only
    rw [if_pos hcmp, memcmp_neg, take_lt_take_iff htake]
    exact ⟨Iff.rfl, hcmp⟩
  · exact ⟨memcmp_neg a b, fun hc => hne ((memcmp_eq_zero a b).mp hc)⟩

theorem sliceCompare_eq_zero (ha : a.length < 2 ^ 32) (hb : b.length < 2 ^ 32) : sliceCompare a b = 0 ↔ a = b := by
  by_cases h : a <+: b
  · rw [sliceCompare_of_begins h, Int.bmod]
    constructor
    · intro hc
      apply h.eq_of_length
      have hle := h.length_le
      omega
    · rintro rfl
      rw [Int.sub_self]
      rfl
  · by_cases h' : b <+: a
    · rw [sliceCompare_of_extends h', Int.bmod]
      constructor
      · intro hc
        refine (h'.eq_of_length ?_).symm
        have hle := h'.length_le
        omega
      · rintro rfl
        exact absurd (List.prefix_refl a) h
    · refine iff_of_false (sliceCompare_of_parted h h').2 ?_
      rintro rfl
      exact h (List.prefix_refl a)

/-- What the comparison takes for smaller. -/
theorem sliceCompare_neg (ha : a.length < 2 ^ 32) (hb : b.length < 2 ^ 32) :
    sliceCompare a b < 0 ↔ a < b ∧ ¬ MuchShorter a b ∨ b <+: a ∧ 2 ^ 31 ≤ a.length - b.length := by
  by_cases h : a <+: b
  · have hle := h.length_le
    have hnot : ¬ (b <+: a ∧ 2 ^ 31 ≤ a.length - b.length) := by
      rintro ⟨-, hc⟩
      omega
    rw [or_iff_left hnot, sliceCompare_of_begins h, MuchShorter, and_iff_right h, Int.bmod]
    by_cases heq : a = b
    · subst heq
      refine iff_of_false ?_ (fun hc => lt_irrefl _ hc.1)
      rw [Int.sub_self]
      decide
    · have hlt := lt_of_proper h heq
      have hlen : a.length ≠ b.length := fun hc => heq (h.eq_of_length hc)
      rw [and_iff_right hlt]
      omega
  · have hshort : ¬ MuchShorter a b := fun hc => h hc.1
    rw [and_iff_left hshort]
    by_cases h' : b <+: a
    · have hle := h'.length_le
      have hlt : b < a := lt_of_proper h' (by rintro rfl; exact h (List.prefix_refl _))
      rw [or_iff_right hlt.not_gt, and_iff_right h', sliceCompare_of_extends h', Int.bmod]
      omega
    · rw [or_iff_left (fun hc => h' hc.1)]
      exact (sliceCompare_of_parted h h').1

theorem Comparable.neg_iff (h : Comparable a b) (ha : a.length < 2 ^ 32) (hb : b.length < 2 ^ 32) :
    sliceCompare a b < 0 ↔ a < b := by
  rw [sliceCompare_neg ha hb, and_iff_left h.1, or_iff_left h.2]

/-- A comparison that is the one of the bytes is that of comparable slices. -/
theorem comparable_of_neg_iff (ha : a.length < 2 ^ 32) (hb : b.length < 2 ^ 32) (h : sliceCompare a b < 0 ↔ a < b) :
    Comparable a b := by
  rw [sliceCompare_neg ha hb] at h
  constructor
  · intro hshort
    have hlt : a < b := lt_of_proper hshort.1 (fun heq => by
      have hlength := hshort.2
      rw [heq, Nat.sub_self] at hlength
      omega)
    obtain ⟨-, hnot⟩ | ⟨-, hlength⟩ := h.mpr hlt
    · exact hnot hshort
    · have hle := hshort.1.length_le
      omega
  · intro hlong
    have hne : b ≠ a := fun heq => by
      have hlength := hlong.2
      rw [heq, Nat.sub_self] at hlength
      omega
    exact (lt_of_proper hlong.1 hne).not_gt (h.mp (.inr hlong))

/-! ### Keys -/

/-- The comparison is a total order on some slices, and it is the lexicographic order of their bytes. -/
structure Orders (slices : Set Bytes) : Prop where
  lex : ∀ a ∈ slices, ∀ b ∈ slices, sliceCompare a b < 0 ↔ a < b
  equal : ∀ a ∈ slices, ∀ b ∈ slices, sliceCompare a b = 0 ↔ a = b
  antisymm : ∀ a ∈ slices, ∀ b ∈ slices, 0 < sliceCompare a b ↔ sliceCompare b a < 0
  trans : ∀ a ∈ slices, ∀ b ∈ slices, ∀ c ∈ slices,
    sliceCompare a b < 0 → sliceCompare b c < 0 → sliceCompare a c < 0

/-- Where the comparison is the lexicographic order, it is a total order. -/
theorem orders_of_lex {slices : Set Bytes} (hsize : ∀ a ∈ slices, a.length < 2 ^ 32)
    (hlex : ∀ a ∈ slices, ∀ b ∈ slices, sliceCompare a b < 0 ↔ a < b) : Orders slices where
  lex := hlex
  equal a ha b hb := sliceCompare_eq_zero (hsize a ha) (hsize b hb)
  antisymm a ha b hb := by
    have hneg := hlex a ha b hb
    have hzero := sliceCompare_eq_zero (hsize a ha) (hsize b hb)
    rw [hlex b hb a ha]
    constructor
    · intro hpos
      apply lt_of_not_ge
      intro hle
      obtain hlt | heq := hle.lt_or_eq
      · exact absurd (hneg.mpr hlt) (by omega)
      · exact absurd (hzero.mpr heq) (by omega)
    · intro hlt
      have hnot : ¬ sliceCompare a b < 0 := fun h => hlt.not_gt (hneg.mp h)
      have hne : sliceCompare a b ≠ 0 := fun h => hlt.ne' (hzero.mp h)
      omega
  trans a ha b hb c hc hab hbc :=
    (hlex a ha c hc).mpr (((hlex a ha b hb).mp hab).trans ((hlex b hb c hc).mp hbc))

/-- The comparison orders some slices if and only if none of them begins another one that is longer by `2 ^ 31` or
more. -/
theorem orders_iff (slices : Set Bytes) (hsize : ∀ a ∈ slices, a.length < 2 ^ 32) :
    Orders slices ↔ ∀ a ∈ slices, ∀ b ∈ slices, a <+: b → b.length - a.length < 2 ^ 31 := by
  constructor
  · intro h a ha b hb hbegins
    have hcomparable := comparable_of_neg_iff (hsize b hb) (hsize a ha) (h.lex b hb a ha)
    exact Nat.lt_of_not_le (fun hle => hcomparable.2 ⟨hbegins, hle⟩)
  · intro h
    refine orders_of_lex hsize (fun a ha b hb => Comparable.neg_iff ⟨fun hshort => ?_, fun hlong => ?_⟩
      (hsize a ha) (hsize b hb))
    · exact absurd (h a ha b hb hshort.1) (Nat.not_lt.mpr (Nat.le_of_lt hshort.2))
    · exact absurd (h b hb a ha hlong.1) (Nat.not_lt.mpr hlong.2)

theorem orders_words : Orders { [97], [97, 98], [97, 98, 0], [255] } := by
  have hshort : ∀ a ∈ ({ [97], [97, 98], [97, 98, 0], [255] } : Set Bytes), a.length ≤ 3 := by
    rintro a (rfl | rfl | rfl | rfl) <;> decide
  refine (orders_iff _ (fun a ha => (hshort a ha).trans_lt (by decide))).mpr (fun a ha b hb _ => ?_)
  exact (Nat.sub_le _ _).trans_lt ((hshort b hb).trans_lt (by decide))

/-- The empty slice and one of `2 ^ 31` bytes are each smaller than the other. -/
theorem each_smaller : sliceCompare [] (List.replicate (2 ^ 31) 0) < 0 ∧ sliceCompare (List.replicate (2 ^ 31) 0) [] < 0 := by
  have hbegins : [] <+: List.replicate (2 ^ 31) (0 : Byte) := List.nil_prefix
  rw [sliceCompare_of_begins hbegins, sliceCompare_of_extends hbegins, List.length_replicate, List.length_nil]
  decide

end RaleighSL.Zcl
