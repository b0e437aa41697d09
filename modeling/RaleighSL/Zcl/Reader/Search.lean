import RaleighSL.Zcl.Reader.Tokenize

/-!
# Search over chunks

`z_v_reader_search` looks for a string in the chunks of a reader one after the other. A match that a
chunk leaves unfinished goes on in the following one; when it does not, only the missing part of the
string is looked for from there on. The offset of a match leaves out the bytes at which matches of
the same chunk began and failed.
-/
namespace RaleighSL.Zcl

/-- The loop of `z_memsearch_u8`, which takes a byte in each step. -/
def memsearchLoop (first : Byte) (tail : Bytes) : Nat → Bytes → Nat → Option Extent
  | 0, _, _ => none
  | fuel + 1, src, offset =>
    match src.findIdx? (· == first) with
    | none => none
    | some p =>
      let offset := offset + p
      let src := src.drop (p + 1)
      let length := min src.length tail.length
      if src.take length = tail.take length then some { offset := offset, length := length + 1 }
      else if 0 < src.length then memsearchLoop first tail fuel src offset
      else none

/-- `z_memsearch_u8` for a needle with bytes: the extent that is found. -/
def memsearch (src needle : Bytes) : Option Extent :=
  match needle with
  | [] => none
  | first :: tail => memsearchLoop first tail src.length src 0

/-- The part of `__memsearch_step` that finds the first chunk. -/
def memsearchFirst (src needle : Bytes) (extent : Extent) : Bool × Extent :=
  let extent : Extent :=
    match memsearch src needle with
    | none => { offset := extent.offset + src.length, length := 0 }
    | some found => { found with offset := found.offset + extent.offset }
  (extent.length ≠ needle.length, extent)

/-- `__memsearch_step`: whether the search goes on, and the extent. The needle keeps its place in the next chunk when
the chunk does not go on with it. -/
def memsearchStep (src needle : Bytes) (extent : Extent) : Bool × Extent :=
  if 0 < extent.length then
    let rest := needle.drop extent.length
    let length := min src.length rest.length
    if src.take length = rest.take length then
      (rest.length ≠ length, { extent with length := extent.length + length })
    else memsearchFirst src rest { extent with length := 0 }
  else memsearchFirst src needle extent

namespace ReaderMethods

def searchLoop {σ : Type} (vtable : ReaderMethods σ) (needle : Bytes) :
    Nat → Extent → σ → Option (Nat × Extent × σ)
  | 0, _, _ => none
  | fuel + 1, extent, self => do
    let (buffer, self) ← vtable.next self
    if buffer.length = 0 then some (1, extent, self)
    else
      let r := memsearchStep buffer needle extent
      if r.1 then vtable.searchLoop needle fuel r.2 self
      else
        let n := sizeSub buffer.length (sizeSub r.2.offset extent.offset + r.2.length)
        some (0, r.2, vtable.backup n self)

def search {σ : Type} (vtable : ReaderMethods σ) (needle : Bytes) (fuel : Nat) (self : σ) :
    Option (Nat × Extent × σ) := vtable.searchLoop needle fuel Extent.reset self

end ReaderMethods

/-! ### Places where strings agree -/

/-- Two strings are the same as far as both of them go. -/
def Agree (s t : Bytes) : Prop := s <+: t ∨ t <+: s

instance (s t : Bytes) : Decidable (Agree s t) := inferInstanceAs (Decidable (_ ∨ _))

def firstShare (needle : Bytes) : Bytes → Option Nat
  | [] => none
  | b :: part => if Agree needle (b :: part) then some 0 else (firstShare needle part).map (· + 1)

/-- The string is at a place, and at no place before. -/
def FirstAt (needle str : Bytes) (f : Nat) : Prop := needle <+: str.drop f ∧ ∀ i < f, ¬ needle <+: str.drop i

variable {needle part str : Bytes} {first : Byte} {tail : Bytes} {p : Nat}

theorem agree_iff_take (s t : Bytes) :
    Agree s t ↔ t.take (min t.length s.length) = s.take (min t.length s.length) := by
  rw [Agree, List.prefix_iff_eq_take, List.prefix_iff_eq_take]
  rcases Nat.le_total t.length s.length with hle | hle
  · rw [Nat.min_eq_left hle, List.take_of_length_le (Nat.le_refl t.length)]
    refine or_iff_right_of_imp (fun h => ?_)
    rw [List.take_of_length_le hle] at h
    rw [h, List.take_length]
  · rw [Nat.min_eq_right hle, List.take_of_length_le (Nat.le_refl s.length), eq_comm]
    refine or_iff_left_of_imp (fun h => ?_)
    rw [List.take_of_length_le hle] at h
    rw [h, List.take_length]

theorem agree_cons (a b : Byte) (s t : Bytes) : Agree (a :: s) (b :: t) ↔ a = b ∧ Agree s t := by
  rw [Agree, Agree, List.cons_prefix_cons, List.cons_prefix_cons, eq_comm (a := b), and_or_left]

theorem firstShare_eq_some (h : firstShare needle part = some p) :
    p < part.length ∧ Agree needle (part.drop p) ∧ ∀ i < p, ¬ Agree needle (part.drop i) := by
  induction part generalizing p with
  | nil => cases h
  | cons b part ih =>
    rw [firstShare] at h
    by_cases hshare : Agree needle (b :: part)
    · rw [if_pos hshare] at h
      obtain rfl := Option.some.inj h
      exact ⟨Nat.succ_pos _, hshare, fun i hi => absurd hi (Nat.not_lt_zero i)⟩
    · rw [if_neg hshare, Option.map_eq_some_iff] at h
      obtain ⟨q, hq, rfl⟩ := h
      obtain ⟨hlt, hagree, hbefore⟩ := ih hq
      refine ⟨Nat.succ_lt_succ hlt, hagree, fun i hi => ?_⟩
      cases i with
      | zero => exact hshare
      | succ i => exact hbefore i (Nat.lt_of_succ_lt_succ hi)

theorem firstShare_eq_none (h : firstShare needle part = none) : ∀ i < part.length, ¬ Agree needle (part.drop i) := by
  induction part with
  | nil => exact fun i hi => absurd hi (Nat.not_lt_zero i)
  | cons b part ih =>
    rw [firstShare] at h
    by_cases hshare : Agree needle (b :: part)
    · rw [if_pos hshare] at h
      cases h
    · rw [if_neg hshare, Option.map_eq_none_iff] at h
      intro i hi
      cases i with
      | zero => exact hshare
      | succ i => exact ih h i (Nat.lt_of_succ_lt_succ hi)

/-- The loop finds the first place where the strings agree. The places at which it failed do not count for the offset. -/
theorem memsearchLoop_eq {fuel : Nat} (hfuel : part.length ≤ fuel) (offset : Nat) :
    memsearchLoop first tail fuel part offset = (firstShare (first :: tail) part).map (fun p =>
      { offset := offset + ((part.take p).filter (· ≠ first)).length
        length := min (part.length - p) (tail.length + 1) }) := by
  induction part generalizing fuel offset with
  | nil => cases fuel <;> rfl
  | cons b part ih =>
    cases fuel with
    | zero => exact absurd hfuel (Nat.not_succ_le_zero _)
    | succ fuel =>
      have hle : part.length ≤ fuel := Nat.le_of_succ_le_succ hfuel
      rw [firstShare]
      by_cases hb : b = first
      · subst hb
        rw [memsearchLoop, List.findIdx?_cons, beq_self_eq_true, if_pos rfl]
        simp only [Nat.add_zero, Nat.zero_add, List.drop_succ_cons, List.drop_zero]
        by_cases hshare : Agree tail part
        · rw [if_pos ((agree_iff_take _ _).mp hshare), if_pos ((agree_cons ..).mpr ⟨rfl, hshare⟩), Option.map_some]
          simp only [List.take_zero, List.filter_nil, List.length_nil, Nat.add_zero, Nat.sub_zero, List.length_cons,
            Nat.add_min_add_right]
        · rw [if_neg (fun h => hshare ((agree_iff_take _ _).mpr h)), if_neg (fun h => hshare ((agree_cons ..).mp h).2), Option.map_map]
          have hnext := ih hle offset
          cases part with
          | nil => rfl
          | cons c part =>
            rw [if_pos (show 0 < (c :: part).length from Nat.succ_pos _), hnext]
            congr 1
            funext p
            simp
      · have hskip : memsearchLoop first tail (fuel + 1) (b :: part) offset =
            memsearchLoop first tail (fuel + 1) part (offset + 1) := by
          have hbeq : (b == first) = false := beq_false_of_ne hb
          rw [memsearchLoop, memsearchLoop, List.findIdx?_cons, hbeq]
          cases part.findIdx? (· == first) with
          | none => rfl
          | some p =>
            have hoffset : offset + (p + 1) = offset + 1 + p := by omega
            simp only [Option.map_some, List.drop_succ_cons, hoffset, Bool.false_eq_true, if_false]
        rw [hskip, ih (Nat.le_succ_of_le hle), if_neg (fun h => hb ((agree_cons ..).mp h).1.symm), Option.map_map]
        congr 1
        funext p
        simp only [Function.comp_apply, List.take_succ_cons, List.length_cons, Nat.add_sub_add_right]
        rw [List.filter_cons_of_pos (by simpa using hb), List.length_cons, Nat.add_assoc offset 1, Nat.add_comm 1]

/-! ### One chunk -/

/-- The offset of a match at a place of a part: the bytes before it at which no match began. -/
def offsetOf (needle part : Bytes) (p : Nat) : Nat := ((part.take p).filter (fun b => needle.head? ≠ some b)).length

theorem offsetOf_le (needle part : Bytes) (p : Nat) : offsetOf needle part p ≤ p :=
  Nat.le_trans (List.length_filter_le ..) (List.length_take_le ..)

theorem offsetOf_eq_iff {needle part : Bytes} {p : Nat} (hp : p ≤ part.length) :
    offsetOf needle part p = p ↔ ∀ b ∈ part.take p, needle.head? ≠ some b := by
  have hlen : (part.take p).length = p := List.length_take_of_le hp
  rw [offsetOf]
  conv_lhs => rhs; rw [← hlen]
  rw [List.length_filter_eq_length_iff]
  simp

theorem memsearch_eq (hneedle : needle ≠ []) : memsearch part needle = (firstShare needle part).map (fun p =>
    { offset := offsetOf needle part p, length := min (part.length - p) needle.length }) := by
  cases needle with
  | nil => exact absurd rfl hneedle
  | cons first tail =>
    rw [memsearch, memsearchLoop_eq (Nat.le_refl _)]
    congr 1
    funext p
    simp [offsetOf, eq_comm]

/-- The string is at a place of a part, or the part ends there with a beginning of it. -/
def MatchesAt (needle part : Bytes) (p : Nat) : Prop :=
  needle <+: part.drop p ∨ (part.drop p ≠ [] ∧ part.drop p <+: needle)

/-- A place at which the string matches, with none before it. -/
def LeastMatch (needle part : Bytes) (p : Nat) : Prop := MatchesAt needle part p ∧ ∀ i < p, ¬ MatchesAt needle part i

theorem matchesAt_iff (hneedle : needle ≠ []) : MatchesAt needle part p ↔ p < part.length ∧ Agree needle (part.drop p) := by
  have hdrop : part.drop p ≠ [] ↔ p < part.length := by rw [Ne, List.drop_eq_nil_iff, Nat.not_le]
  rw [MatchesAt, Agree]
  constructor
  · rintro (h | ⟨hne, h⟩)
    · refine ⟨hdrop.mp fun hnil => hneedle ?_, .inl h⟩
      rw [hnil] at h
      exact List.prefix_nil.mp h
    · exact ⟨hdrop.mp hne, .inr h⟩
  · rintro ⟨hp, h | h⟩
    · exact .inl h
    · exact .inr ⟨hdrop.mpr hp, h⟩

theorem leastMatch_iff (hneedle : needle ≠ []) : LeastMatch needle part p ↔ firstShare needle part = some p := by
  constructor
  · rintro ⟨hat, hbefore⟩
    obtain ⟨hp, hagree⟩ := (matchesAt_iff hneedle).mp hat
    cases hshare : firstShare needle part with
    | none => exact absurd hagree (firstShare_eq_none hshare p hp)
    | some q =>
      obtain ⟨hq, hagree', hbefore'⟩ := firstShare_eq_some hshare
      rcases Nat.lt_trichotomy p q with hlt | rfl | hlt
      · exact absurd hagree (hbefore' p hlt)
      · rfl
      · exact absurd ((matchesAt_iff hneedle).mpr ⟨hq, hagree'⟩) (hbefore q hlt)
  · intro hshare
    obtain ⟨hp, hagree, hbefore⟩ := firstShare_eq_some hshare
    exact ⟨(matchesAt_iff hneedle).mpr ⟨hp, hagree⟩, fun i hi hat => hbefore i hi ((matchesAt_iff hneedle).mp hat).2⟩

/-- The search of a part reports the first match, with its place and its length, and nothing when there is none. -/
def Reports (needle part : Bytes) (found : Option Extent) : Prop :=
  (found = none ↔ ∀ p, ¬ MatchesAt needle part p) ∧
    ∀ extent, found = some extent → LeastMatch needle part extent.offset ∧
      extent.length = min (part.length - extent.offset) needle.length

/-- The report is right if and only if the first byte of the string is nowhere in front of the first match. -/
theorem memsearch_reports_iff (needle part : Bytes) (hneedle : needle ≠ []) :
    Reports needle part (memsearch part needle) ↔
      ∀ p, LeastMatch needle part p → ∀ b ∈ part.take p, needle.head? ≠ some b := by
  rw [memsearch_eq hneedle]
  cases hshare : firstShare needle part with
  | none =>
    have hnone : ∀ p, ¬ MatchesAt needle part p := by
      intro p hat
      obtain ⟨hp, hagree⟩ := (matchesAt_iff hneedle).mp hat
      exact firstShare_eq_none hshare p hp hagree
    refine iff_of_true ⟨⟨fun _ => hnone, fun _ => rfl⟩, fun extent h => absurd h (by simp)⟩ ?_
    exact fun p hleast => absurd hleast.1 (hnone p)
  | some p =>
    have hleast : LeastMatch needle part p := (leastMatch_iff hneedle).mpr hshare
    have hp := (firstShare_eq_some hshare).1
    rw [Option.map_some]
    constructor
    · rintro ⟨-, hright⟩ q hq
      have heq : p = q := by
        rw [leastMatch_iff hneedle, hshare] at hq
        exact Option.some.inj hq
      subst heq
      have hoffset := (leastMatch_iff hneedle).mp (hright _ rfl).1
      rw [hshare] at hoffset
      exact (offsetOf_eq_iff hp.le).mp (Option.some.inj hoffset).symm
    · intro hfirst
      have hoffset : offsetOf needle part p = p := (offsetOf_eq_iff hp.le).mpr (hfirst p hleast)
      refine ⟨⟨fun h => absurd h (Option.some_ne_none _), fun h => absurd hleast.1 (h p)⟩, ?_⟩
      intro extent h
      obtain rfl := Option.some.inj h
      rw [hoffset]
      exact ⟨hleast, rfl⟩

theorem memsearch_reports_behind_byte : Reports [1, 2] [3, 1, 2] (memsearch [3, 1, 2] [1, 2]) := by
  refine (memsearch_reports_iff [1, 2] [3, 1, 2] (by decide)).mpr fun p hp => ?_
  obtain rfl : 1 = p := Option.some.inj ((leastMatch_iff (by decide)).mp hp)
  intro b hb
  obtain rfl : b = 3 := List.mem_singleton.mp hb
  decide

/-- The place is wrong behind a byte where a match began and failed. -/
theorem memsearch_after_failure : ¬ Reports [1, 2] [1, 1, 2] (memsearch [1, 1, 2] [1, 2]) := by
  rintro ⟨-, hright⟩
  have hfound : memsearch [1, 1, 2] [1, 2] = some { offset := 0, length := 2 } := by rfl
  have hleast := (hright _ hfound).1.1
  rw [matchesAt_iff (by decide)] at hleast
  exact absurd hleast.2 (by decide)

theorem memsearchFirst_eq (hneedle : needle ≠ []) (extent : Extent) : memsearchFirst part needle extent =
    match firstShare needle part with
    | none => (true, { offset := extent.offset + part.length, length := 0 })
    | some p => (min (part.length - p) needle.length ≠ needle.length,
        { offset := extent.offset + offsetOf needle part p, length := min (part.length - p) needle.length }) := by
  have hpos : 0 < needle.length := List.length_pos_iff.mpr hneedle
  rw [memsearchFirst, memsearch_eq hneedle]
  cases firstShare needle part with
  | none => simp [Nat.ne_of_lt hpos]
  | some p => simp [Nat.add_comm]

/-- A step looks for what is missing of the needle. At the start of the part it goes on with what was matched. -/
theorem memsearchStep_eq {offset k : Nat} (hpart : part ≠ []) (hk : k < needle.length) :
    memsearchStep part needle { offset := offset, length := k } =
      match firstShare (needle.drop k) part with
      | none => (true, { offset := offset + part.length, length := 0 })
      | some p => (min (part.length - p) (needle.length - k) ≠ needle.length - k,
          { offset := offset + offsetOf (needle.drop k) part p
            length := (if p = 0 then k else 0) + min (part.length - p) (needle.length - k) }) := by
  have hlen : (needle.drop k).length = needle.length - k := List.length_drop
  have hrest : needle.drop k ≠ [] := by
    rw [Ne, List.drop_eq_nil_iff]
    omega
  rw [memsearchStep]
  by_cases hzero : k = 0
  · subst hzero
    rw [if_neg (Nat.lt_irrefl 0), memsearchFirst_eq (by simpa using hrest), List.drop_zero]
    cases firstShare needle part with
    | none => rfl
    | some p => simp
  · rw [if_pos (Nat.pos_of_ne_zero hzero)]
    simp only
    by_cases hagree : Agree (needle.drop k) part
    · have hshare : firstShare (needle.drop k) part = some 0 := by
        cases part with
        | nil => exact absurd rfl hpart
        | cons b part => rw [firstShare, if_pos hagree]
      rw [if_pos ((agree_iff_take _ _).mp hagree), hshare, hlen]
      simp [offsetOf, ne_comm]
    · rw [if_neg (fun h => hagree ((agree_iff_take _ _).mpr h)), memsearchFirst_eq hrest]
      cases hshare : firstShare (needle.drop k) part with
      | none => rfl
      | some p =>
        have hp : p ≠ 0 := by
          rintro rfl
          have h := (firstShare_eq_some hshare).2.1
          rw [List.drop_zero] at h
          exact hagree h
        simp [hp]

/-! ### Occurrences -/

theorem Agree.prefix_iff {s t : Bytes} (h : Agree s t) : s <+: t ↔ s.length ≤ t.length := by
  refine ⟨List.IsPrefix.length_le, fun hle => ?_⟩
  rcases h with h | h
  · exact h
  · exact (h.eq_of_length_le hle).symm ▸ List.prefix_refl _

theorem infix_iff_exists : needle <:+: str ↔ ∃ i, needle <+: str.drop i := by
  constructor
  · rintro ⟨s, t, rfl⟩
    refine ⟨s.length, t, ?_⟩
    rw [List.append_assoc, List.drop_left]
  · rintro ⟨i, h⟩
    exact h.isInfix.trans (List.drop_suffix i str).isInfix

theorem exists_firstAt (h : needle <:+: str) : ∃ f, FirstAt needle str f := by
  have hex := infix_iff_exists.mp h
  exact ⟨Nat.find hex, Nat.find_spec hex, fun i hi => Nat.find_min hex hi⟩

theorem FirstAt.unique {f g : Nat} (hf : FirstAt needle str f) (hg : FirstAt needle str g) : f = g := by
  rcases Nat.lt_trichotomy f g with hlt | heq | hlt
  · exact absurd hf.1 (hg.2 f hlt)
  · exact heq
  · exact absurd hg.1 (hf.2 g hlt)

/-- A string that begins in a part agrees with the part from there on. -/
theorem agree_of_begins {i : Nat} (hi : i ≤ part.length) (h : needle <+: (part ++ str).drop i) :
    Agree needle (part.drop i) := by
  rw [List.drop_append_of_le_length hi] at h
  exact List.prefix_or_prefix_of_prefix h (List.prefix_append _ _)

/-- A string that agrees with a part nowhere comes behind it. -/
theorem prefix_drop_append_iff (h : ∀ i < part.length, ¬ Agree needle (part.drop i)) {i : Nat} :
    needle <+: (part ++ str).drop i ↔ ∃ j, i = part.length + j ∧ needle <+: str.drop j := by
  constructor
  · intro hbegins
    have hge : part.length ≤ i := by
      by_contra hlt
      exact h i (Nat.lt_of_not_le hlt) (agree_of_begins (Nat.le_of_not_le hlt) hbegins)
    refine ⟨i - part.length, (Nat.add_sub_cancel' hge).symm, ?_⟩
    rwa [List.drop_append, List.drop_of_length_le hge, List.nil_append] at hbegins
  · rintro ⟨j, rfl, hbegins⟩
    rwa [List.drop_append, List.drop_of_length_le (Nat.le_add_right _ _), List.nil_append, Nat.add_sub_cancel_left]

theorem firstAt_append_iff (h : ∀ i < part.length, ¬ Agree needle (part.drop i)) {f : Nat} :
    FirstAt needle (part ++ str) f ↔ ∃ g, f = part.length + g ∧ FirstAt needle str g := by
  constructor
  · rintro ⟨hat, hbefore⟩
    obtain ⟨g, rfl, hg⟩ := (prefix_drop_append_iff h).mp hat
    refine ⟨g, rfl, hg, fun i hi hbegins => hbefore (part.length + i) (by omega) ?_⟩
    exact (prefix_drop_append_iff h).mpr ⟨i, rfl, hbegins⟩
  · rintro ⟨g, rfl, hg, hbefore⟩
    refine ⟨(prefix_drop_append_iff h).mpr ⟨g, rfl, hg⟩, fun i hi hbegins => ?_⟩
    obtain ⟨j, rfl, hj⟩ := (prefix_drop_append_iff h).mp hbegins
    exact hbefore j (by omega) hj

theorem infix_append_iff (h : ∀ i < part.length, ¬ Agree needle (part.drop i)) :
    needle <:+: part ++ str ↔ needle <:+: str := by
  rw [infix_iff_exists, infix_iff_exists]
  constructor
  · rintro ⟨i, hi⟩
    obtain ⟨j, -, hj⟩ := (prefix_drop_append_iff h).mp hi
    exact ⟨j, hj⟩
  · rintro ⟨j, hj⟩
    exact ⟨part.length + j, (prefix_drop_append_iff h).mpr ⟨j, rfl, hj⟩⟩

/-- A string that is in a part from the first place where they agree on is there for the first time. -/
theorem firstAt_of_share (h : firstShare needle part = some p) (hbegins : needle <+: part.drop p) (str : Bytes) :
    FirstAt needle (part ++ str) p := by
  obtain ⟨hp, -, hbefore⟩ := firstShare_eq_some h
  refine ⟨?_, fun i hi hfound => hbefore i hi (agree_of_begins (by omega) hfound)⟩
  rw [List.drop_append_of_le_length (Nat.le_of_lt hp)]
  exact hbegins.trans (List.prefix_append _ _)

/-! ### Many chunks -/

/-- A search that has matched `k` bytes of the needle ends in one of the parts: what is missing of the needle is found. A
match that goes on from the start of a part keeps its bytes, another one counts from the start of what is missing. -/
def Misleads (needle : Bytes) : Nat → List Bytes → Prop
  | _, [] => False
  | k, part :: parts =>
    match firstShare (needle.drop k) part with
    | none => Misleads needle 0 parts
    | some p => needle.drop k <+: part.drop p ∨ Misleads needle ((if p = 0 then k else 0) + (part.length - p)) parts

/-- The first part that shares bytes with the needle has all of it, and the first byte of the needle nowhere before. If
the part ends with a beginning of the needle, the needle does not occur, and the search does not end. -/
def Searchable (needle : Bytes) : List Bytes → Prop
  | [] => True
  | part :: parts =>
    match firstShare needle part with
    | none => Searchable needle parts
    | some p =>
      if needle <+: part.drop p then ∀ b ∈ part.take p, needle.head? ≠ some b
      else ¬ needle <:+: (part :: parts).flatten ∧ ¬ Misleads needle (part.length - p) parts

namespace IovecReader

variable {iov : List Bytes} {reader : IovecReader} {pos base : Nat}

/-- A search of the rest of a string from a base on: the needle is found where it occurs first, and the reader goes on
behind it, or it is not found. -/
def Finds (iov : List Bytes) (needle : Bytes) (pos base : Nat) (str : Bytes)
    (result : Option (Nat × Extent × IovecReader)) : Prop :=
  (∀ f, FirstAt needle str f → ∃ reader',
    result = some (0, { offset := base + f, length := needle.length }, reader') ∧
      At iov reader' (pos + (base + f) + needle.length)) ∧
  (¬ needle <:+: str → ∃ extent reader', result = some (1, extent, reader'))

theorem At.unique {pos' : Nat} (h : At iov reader pos) (h' : At iov reader pos') : pos = pos' :=
  h.pos_eq.symm.trans h'.pos_eq

/-- The reader takes back all bytes of a part but some, also more than the part has. -/
theorem At.backup_part {n m pos' : Nat} (h : At iov reader (pos + n)) (hn : n ≤ reader.offset)
    (hfits : reader.offset + m < 2 ^ 64 + n) (h' : At iov (reader.backup (sizeSub n m)) pos') : pos' = pos + m := by
  by_cases hm : m ≤ n
  · rw [sizeSub_of_le hm] at h'
    have hback := (h.back (show n - m ≤ reader.offset by omega)).unique h'
    omega
  · have hback : reader.backup (sizeSub n m) =
        { reader with offset := reader.offset + m - n, avail := reader.avail + sizeSub n m } := by
      rw [backup, sizeSub, sizeSub, if_neg hm, if_neg (by omega)]
      congr 1
      omega
    have hpos := h.pos_eq
    have hpos' := h'.pos_eq
    rw [hback] at hpos'
    simp only at hpos'
    omega

/-- A step of the loop: nothing is shared, what is missing is found, or the match stays unfinished. -/
theorem searchLoop_step {fuel offset k : Nat} {reader' : IovecReader} (hnext : reader.next iov = some (part, reader'))
    (hpart : part ≠ []) (hk : k < needle.length) :
    (methods iov).searchLoop needle (fuel + 1) { offset := offset, length := k } reader =
      match firstShare (needle.drop k) part with
      | none => (methods iov).searchLoop needle fuel { offset := offset + part.length, length := 0 } reader'
      | some p =>
        let matched := if p = 0 then k else 0
        let count := offsetOf (needle.drop k) part p
        if needle.drop k <+: part.drop p then
          some (0, { offset := offset + count, length := matched + (needle.length - k) },
            reader'.backup (sizeSub part.length (count + (matched + (needle.length - k)))))
        else (methods iov).searchLoop needle fuel
          { offset := offset + count, length := matched + (part.length - p) } reader' := by
  have hmethod : (methods iov).next reader = some (part, reader') := hnext
  have hlen : part.length ≠ 0 := fun h => hpart (List.length_eq_zero_iff.mp h)
  simp only [ReaderMethods.searchLoop, hmethod, Option.bind_eq_bind, Option.bind_some, if_neg hlen,
    memsearchStep_eq hpart hk]
  cases hshare : firstShare (needle.drop k) part with
  | none => rfl
  | some p =>
    have hagree := (firstShare_eq_some hshare).2.1
    have hfull : needle.drop k <+: part.drop p ↔ needle.length - k ≤ part.length - p := by
      rw [hagree.prefix_iff, List.length_drop, List.length_drop]
    have hgo : min (part.length - p) (needle.length - k) ≠ needle.length - k ↔ ¬ needle.drop k <+: part.drop p := by
      rw [hfull]
      omega
    simp only [decide_eq_true_iff, hgo]
    by_cases hbegins : needle.drop k <+: part.drop p
    · rw [if_neg (not_not.mpr hbegins), if_pos hbegins, Nat.min_eq_right (hfull.mp hbegins),
        sizeSub_of_le (Nat.le_add_right _ _), Nat.add_sub_cancel_left]
      rfl
    · have hlt := mt hfull.mpr hbegins
      rw [if_pos hbegins, if_neg hbegins, Nat.min_eq_left (by omega)]

theorem searchLoop_end {fuel : Nat} {extent : Extent} (hnext : reader.next iov = some ([], reader)) :
    (methods iov).searchLoop needle (fuel + 1) extent reader = some (1, extent, reader) := by
  have hmethod : (methods iov).next reader = some ([], reader) := hnext
  simp only [ReaderMethods.searchLoop, hmethod]
  rfl

/-- Behind an unfinished match the search ends when the parts mislead it, and then not with an occurrence. -/
theorem At.searchLoop_unfinished (hchunks : ∀ chunk ∈ iov, chunk ≠ [])
    (hfits : iov.flatten.length + needle.length < 2 ^ 64) {fuel offset k : Nat} (h : At iov reader (pos + base))
    (hoffset : offset < base) (hk : k < needle.length) (hfuel : (iov.flatten.drop (pos + base)).length < fuel) :
    (¬ Misleads needle k (reader.parts iov) → ∃ extent reader',
      (methods iov).searchLoop needle fuel { offset := offset, length := k } reader = some (1, extent, reader')) ∧
    (Misleads needle k (reader.parts iov) → ∃ extent reader',
      (methods iov).searchLoop needle fuel { offset := offset, length := k } reader = some (0, extent, reader') ∧
        ∀ f, extent = { offset := f, length := needle.length } → ¬ At iov reader' (pos + f + needle.length)) := by
  induction fuel generalizing reader base offset k with
  | zero => exact absurd hfuel (Nat.not_lt_zero _)
  | succ fuel ih =>
    rcases h.next_parts hchunks with ⟨hnil, hnext⟩ | ⟨part, parts, reader', hparts, hpart, hnext, hparts', hat, hback⟩
    · rw [hnil, searchLoop_end hnext]
      exact ⟨fun _ => ⟨_, _, rfl⟩, fun h => h.elim⟩
    · have hpos : 0 < part.length := List.length_pos_iff.mpr hpart
      have hrest : (iov.flatten.drop (pos + (base + part.length))).length < fuel := by
        have hall := h.rest_length
        have hleft := hat.rest_length
        have havail := h.avail_eq
        have havail' := hat.avail_eq
        rw [← Nat.add_assoc]
        omega
      have hat' : At iov reader' (pos + (base + part.length)) := by rwa [← Nat.add_assoc]
      rw [searchLoop_step hnext hpart hk, hparts, Misleads]
      cases hshare : firstShare (needle.drop k) part with
      | none =>
        dsimp only
        rw [← hparts']
        exact ih hat' (by omega) (by omega) hrest
      | some p =>
        obtain ⟨hp, hagree, -⟩ := firstShare_eq_some hshare
        have hcount := offsetOf_le (needle.drop k) part p
        have hmatched : (if p = 0 then k else 0) ≤ k := by split_ifs <;> omega
        dsimp only
        by_cases hbegins : needle.drop k <+: part.drop p
        · simp only [if_pos hbegins]
          refine ⟨fun hnot => absurd (Or.inl hbegins) hnot, fun _ => ⟨_, _, rfl, fun f heq hat'' => ?_⟩⟩
          obtain ⟨rfl, hlength⟩ := Extent.mk.inj heq
          have hplace := hat.pos_eq
          have havail := hat.avail_eq
          rw [hlength] at hat''
          have hbehind := hat.backup_part hback (by omega) hat''
          omega
        · simp only [if_neg hbegins]
          rw [or_iff_right hbegins, ← hparts']
          have hlen := mt hagree.prefix_iff.mpr hbegins
          rw [List.length_drop, List.length_drop] at hlen
          exact ih hat' (by omega) (by omega) hrest

/-- Where nothing was left unfinished, the search finds the needle exactly when the parts are searchable. -/
theorem At.searchLoop_iff (hchunks : ∀ chunk ∈ iov, chunk ≠ []) (hneedle : needle ≠ [])
    (hfits : iov.flatten.length + needle.length < 2 ^ 64) {fuel : Nat} (h : At iov reader (pos + base))
    (hfuel : (iov.flatten.drop (pos + base)).length < fuel) :
    Finds iov needle pos base (reader.parts iov).flatten
        ((methods iov).searchLoop needle fuel { offset := base, length := 0 } reader) ↔
      Searchable needle (reader.parts iov) := by
  have hpos : 0 < needle.length := List.length_pos_iff.mpr hneedle
  induction fuel generalizing reader base with
  | zero => exact absurd hfuel (Nat.not_lt_zero _)
  | succ fuel ih =>
    rcases h.next_parts hchunks with ⟨hnil, hnext⟩ | ⟨part, parts, reader', hparts, hpart, hnext, hparts', hat, hback⟩
    · rw [hnil, searchLoop_end hnext]
      refine iff_of_true ⟨fun f hf => ?_, fun _ => ⟨_, _, rfl⟩⟩ trivial
      have hlen := hf.1.length_le
      rw [List.flatten_nil, List.drop_nil] at hlen
      exact absurd hpos (Nat.not_lt.mpr hlen)
    · have hrest : (iov.flatten.drop (pos + (base + part.length))).length < fuel := by
        have hall := h.rest_length
        have hleft := hat.rest_length
        have havail := h.avail_eq
        have havail' := hat.avail_eq
        have hlen : 0 < part.length := List.length_pos_iff.mpr hpart
        rw [← Nat.add_assoc]
        omega
      have hat' : At iov reader' (pos + (base + part.length)) := by rwa [← Nat.add_assoc]
      rw [searchLoop_step hnext hpart hpos, hparts, Searchable, List.drop_zero]
      cases hshare : firstShare needle part with
      | none =>
        have hnone := firstShare_eq_none hshare
        dsimp only
        have hrec := ih hat' hrest
        rw [hparts'] at hrec
        refine Iff.trans ?_ hrec
        rw [List.flatten_cons, Finds, Finds, infix_append_iff hnone]
        refine and_congr_left (fun _ => ?_)
        constructor
        · intro hall f hf
          obtain ⟨r, hr, hr'⟩ := hall _ ((firstAt_append_iff hnone).mpr ⟨f, rfl, hf⟩)
          rw [← Nat.add_assoc base] at hr hr'
          exact ⟨r, hr, hr'⟩
        · intro hall f hf
          obtain ⟨g, rfl, hg⟩ := (firstAt_append_iff hnone).mp hf
          rw [← Nat.add_assoc base]
          exact hall g hg
      | some p =>
        obtain ⟨hp, hagree, -⟩ := firstShare_eq_some hshare
        have hcount := offsetOf_le needle part p
        simp only [ite_self, Nat.zero_add, Nat.sub_zero]
        by_cases hbegins : needle <+: part.drop p
        · have hfirst : FirstAt needle (part :: parts).flatten p := firstAt_of_share hshare hbegins _
          have hlen := hagree.prefix_iff.mp hbegins
          rw [List.length_drop] at hlen
          rw [if_pos hbegins, if_pos hbegins, ← offsetOf_eq_iff (Nat.le_of_lt hp)]
          constructor
          · rintro ⟨hfound, -⟩
            obtain ⟨r, hr, -⟩ := hfound p hfirst
            have heq := congrArg (fun q : Nat × Extent × IovecReader => q.2.1.offset) (Option.some.inj hr)
            exact Nat.add_left_cancel heq
          · intro hsame
            refine ⟨fun f hf => ?_, fun hnot => absurd (infix_iff_exists.mpr ⟨p, hfirst.1⟩) hnot⟩
            obtain rfl := hf.unique hfirst
            refine ⟨_, by rw [hsame], ?_⟩
            rw [sizeSub_of_le (by omega)]
            have hplace : pos + base + part.length - (part.length - (f + needle.length)) =
                pos + (base + f) + needle.length := by omega
            exact hplace ▸ hat.back (by omega)
        · have hlen := mt hagree.prefix_iff.mpr hbegins
          rw [List.length_drop] at hlen
          obtain ⟨hends, hmisled⟩ := hat'.searchLoop_unfinished hchunks hfits
            (show base + offsetOf needle part p < base + part.length by omega)
            (show part.length - p < needle.length by omega) hrest
          rw [hparts'] at hends hmisled
          rw [if_neg hbegins, if_neg hbegins]
          constructor
          · rintro ⟨hfound, hnot⟩
            have habsent : ¬ needle <:+: (part :: parts).flatten := by
              intro hin
              obtain ⟨f, hf⟩ := exists_firstAt hin
              obtain ⟨r, hr, hr'⟩ := hfound f hf
              by_cases hm : Misleads needle (part.length - p) parts
              · obtain ⟨extent, r₂, heq, hwrong⟩ := hmisled hm
                rw [hr] at heq
                obtain ⟨-, heq⟩ := Prod.mk.inj (Option.some.inj heq)
                obtain ⟨rfl, rfl⟩ := Prod.mk.inj heq
                exact hwrong _ rfl hr'
              · obtain ⟨extent, r₂, heq⟩ := hends hm
                rw [hr] at heq
                exact absurd (Prod.mk.inj (Option.some.inj heq)).1 (by decide)
            refine ⟨habsent, fun hm => ?_⟩
            obtain ⟨extent, r, heq, -⟩ := hmisled hm
            obtain ⟨extent', r', heq'⟩ := hnot habsent
            rw [heq] at heq'
            exact absurd (Prod.mk.inj (Option.some.inj heq')).1 (by decide)
          · rintro ⟨habsent, hm⟩
            refine ⟨fun f hf => absurd (infix_iff_exists.mpr ⟨f, hf.1⟩) habsent, fun _ => hends hm⟩

/-- Over every split of a string into chunks with bytes, the search returns 0 exactly where the needle occurs first, with
the reader behind it, and 1 where it does not occur, if and only if the remaining parts are searchable. -/
theorem search_reports_first_iff (iov : List Bytes) (hchunks : ∀ chunk ∈ iov, chunk ≠ []) (needle : Bytes) (hneedle : needle ≠ [])
    (hfits : iov.flatten.length + needle.length < 2 ^ 64) (reader : IovecReader) (pos : Nat) (h : At iov reader pos)
    (fuel : Nat) (hfuel : (iov.flatten.drop pos).length < fuel) :
    Finds iov needle pos 0 (iov.flatten.drop pos) ((methods iov).search needle fuel reader) ↔
      Searchable needle (reader.parts iov) := by
  rw [← h.parts_flatten]
  exact At.searchLoop_iff hchunks hneedle hfits (h : At iov reader (pos + 0)) hfuel

/-- `ab` in the chunks `xy` and `zabc`. -/
theorem search_finds_in_second_chunk : Finds [[120, 121], [122, 97, 98, 99]] [97, 98] 0 0 [120, 121, 122, 97, 98, 99]
    ((methods [[120, 121], [122, 97, 98, 99]]).search [97, 98] 7 (opened [[120, 121], [122, 97, 98, 99]])) := by
  refine (search_reports_first_iff [[120, 121], [122, 97, 98, 99]] (by decide) [97, 98] (by decide) (by decide)
    (opened [[120, 121], [122, 97, 98, 99]]) 0 (At.opened _) 7 (by decide)).mpr ?_
  have hparts : (opened [[120, 121], [122, 97, 98, 99]]).parts [[120, 121], [122, 97, 98, 99]] =
      [[120, 121], [122, 97, 98, 99]] := by decide
  have hfirst : firstShare [97, 98] [120, 121] = none := by decide
  have hsecond : firstShare [97, 98] [122, 97, 98, 99] = some 1 := by decide
  rw [hparts, Searchable, hfirst]
  dsimp only
  rw [Searchable, hsecond]
  dsimp only
  rw [if_pos (by decide)]
  simp

/-- `ab` is found at 0 in `aab`, and one byte of it at 1 in the chunks `a` and `ab`. -/
theorem search_misses :
    ¬ Finds [[97, 97, 98]] [97, 98] 0 0 [97, 97, 98]
        ((methods [[97, 97, 98]]).search [97, 98] 4 (opened [[97, 97, 98]])) ∧
      ¬ Finds [[97], [97, 98]] [97, 98] 0 0 [97, 97, 98]
        ((methods [[97], [97, 98]]).search [97, 98] 4 (opened [[97], [97, 98]])) := by
  have hfirst : FirstAt [97, 98] [97, 97, 98] 1 := ⟨by decide, by decide⟩
  have hone : (methods [[97, 97, 98]]).search [97, 98] 4 (opened [[97, 97, 98]]) =
      some (0, ⟨0, 2⟩, ⟨0, 2, 1⟩) := by decide
  have htwo : (methods [[97], [97, 98]]).search [97, 98] 4 (opened [[97], [97, 98]]) =
      some (0, ⟨1, 1⟩, ⟨1, 2, 0⟩) := by decide
  rw [hone, htwo]
  refine ⟨fun h => ?_, fun h => ?_⟩
  · obtain ⟨r, hr, -⟩ := h.1 1 hfirst
    cases hr
  · obtain ⟨r, hr, -⟩ := h.1 1 hfirst
    cases hr

end IovecReader

end RaleighSL.Zcl
