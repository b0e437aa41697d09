import Mathlib.Data.List.Sort
import Mathlib.Tactic.Common

/-!
# Finite maps kept in key order

A finite map over a linear order, as the list of its bindings in strictly
increasing key order. The order is part of the type, so two maps with the same
lookups are equal. Besides lookup, insertion and removal there is the search for
the last binding at or below a key, which falls back to the first binding.
-/
namespace RaleighSL.Library

structure SortedMap (κ α : Type*) [LinearOrder κ] where
  entries : List (κ × α)
  sorted : entries.Pairwise (fun p q => p.1 < q.1)

namespace SortedMap

variable {κ α : Type*} [LinearOrder κ]

def empty : SortedMap κ α := { entries := [], sorted := List.Pairwise.nil }

def lookup (m : SortedMap κ α) (k : κ) : Option α := (m.entries.find? (fun p => p.1 = k)).map Prod.snd

/-- Add a binding to an ordered list, replacing the one that has its key. -/
def insertList (k : κ) (a : α) : List (κ × α) → List (κ × α)
  | [] => [(k, a)]
  | p :: l =>
    if k < p.1 then (k, a) :: p :: l
    else if k = p.1 then (k, a) :: l
    else p :: insertList k a l

theorem mem_insertList {k : κ} {a : α} {l : List (κ × α)} {q : κ × α} (h : q ∈ insertList k a l) :
    q = (k, a) ∨ q ∈ l := by
  induction l with
  | nil => simpa [insertList] using h
  | cons p l ih =>
    rw [insertList] at h
    split_ifs at h
    · simpa using h
    · exact (List.mem_cons.mp h).imp_right (List.mem_cons_of_mem p)
    · rcases List.mem_cons.mp h with rfl | h
      · simp
      · exact (ih h).imp_right (List.mem_cons_of_mem p)

theorem sorted_insertList (k : κ) (a : α) {l : List (κ × α)} (h : l.Pairwise (fun p q => p.1 < q.1)) :
    (insertList k a l).Pairwise (fun p q => p.1 < q.1) := by
  induction l with
  | nil => simp [insertList]
  | cons p l ih =>
    rw [List.pairwise_cons] at h
    rw [insertList]
    split_ifs with hlt heq
    · rw [List.pairwise_cons]
      refine ⟨?_, List.pairwise_cons.mpr h⟩
      intro q hq
      rcases List.mem_cons.mp hq with rfl | hq
      · exact hlt
      · exact hlt.trans (h.1 q hq)
    · subst heq
      exact List.pairwise_cons.mpr h
    · rw [List.pairwise_cons]
      refine ⟨?_, ih h.2⟩
      intro q hq
      rcases mem_insertList hq with rfl | hq
      · exact lt_of_le_of_ne (not_lt.mp hlt) (Ne.symm heq)
      · exact h.1 q hq

theorem insertList_between {k : κ} {l l' : List (κ × α)} (hl : ∀ p ∈ l, p.1 < k) (hr : ∀ p ∈ l', k < p.1) (a : α) :
    insertList k a (l ++ l') = l ++ (k, a) :: l' := by
  induction l with
  | nil =>
    cases l' with
    | nil => rfl
    | cons p l' => rw [List.nil_append, insertList, if_pos (hr p List.mem_cons_self), List.nil_append]
  | cons p l ih =>
    have hlt := hl p List.mem_cons_self
    rw [List.cons_append, insertList, if_neg (not_lt.mpr hlt.le), if_neg (ne_of_gt hlt),
      ih (fun q hq => hl q (List.mem_cons_of_mem p hq)), List.cons_append]

theorem insertList_replace {k : κ} {l : List (κ × α)} (hl : ∀ p ∈ l, p.1 < k) (a b : α) (l' : List (κ × α)) :
    insertList k a (l ++ (k, b) :: l') = l ++ (k, a) :: l' := by
  induction l with
  | nil => rw [List.nil_append, insertList, if_neg (lt_irrefl k), if_pos rfl, List.nil_append]
  | cons p l ih =>
    have hlt := hl p List.mem_cons_self
    rw [List.cons_append, insertList, if_neg (not_lt.mpr hlt.le), if_neg (ne_of_gt hlt),
      ih (fun q hq => hl q (List.mem_cons_of_mem p hq)), List.cons_append]

def insert (m : SortedMap κ α) (k : κ) (a : α) : SortedMap κ α :=
  { entries := insertList k a m.entries, sorted := sorted_insertList k a m.sorted }

def erase (m : SortedMap κ α) (k : κ) : SortedMap κ α :=
  { entries := m.entries.filter (fun p => p.1 ≠ k), sorted := m.sorted.filter _ }

def filter (m : SortedMap κ α) (f : κ × α → Bool) : SortedMap κ α :=
  { entries := m.entries.filter f, sorted := m.sorted.filter _ }

/-- The last binding at or below a key, or else the first binding of all. -/
def floor (m : SortedMap κ α) (k : κ) : Option (κ × α) :=
  match (m.entries.filter (fun p => p.1 ≤ k)).getLast? with
  | some p => some p
  | none => m.entries.head?

/-- The bindings of the first map, and those of the second for the other keys. -/
def union (m n : SortedMap κ α) : SortedMap κ α := m.entries.foldl (fun r p => r.insert p.1 p.2) n

theorem ext_entries {m n : SortedMap κ α} (h : m.entries = n.entries) : m = n := by
  cases m
  cases n
  simp_all

theorem nodup_keys (m : SortedMap κ α) : (m.entries.map Prod.fst).Nodup := by
  rw [List.Nodup, List.pairwise_map]
  exact m.sorted.imp (fun h => h.ne)

@[simp] theorem lookup_empty (k : κ) : (empty : SortedMap κ α).lookup k = none := rfl

theorem find?_eq_some_of_mem {l : List (κ × α)} (h : l.Pairwise (fun p q => p.1 < q.1)) {k : κ} {a : α}
    (hm : (k, a) ∈ l) : l.find? (fun p => p.1 = k) = some (k, a) := by
  induction l with
  | nil => simp at hm
  | cons p l ih =>
    rw [List.pairwise_cons] at h
    rcases List.mem_cons.mp hm with rfl | hm
    · simp
    · have hne : p.1 ≠ k := (h.1 _ hm).ne
      rw [List.find?_cons_of_neg (by simpa using hne)]
      exact ih h.2 hm

theorem mem_entries {m : SortedMap κ α} {k : κ} {a : α} : (k, a) ∈ m.entries ↔ m.lookup k = some a := by
  constructor
  · intro h
    simp [lookup, find?_eq_some_of_mem m.sorted h]
  · intro h
    rw [lookup, Option.map_eq_some_iff] at h
    obtain ⟨⟨k', a'⟩, hf, rfl⟩ := h
    have hk := List.find?_some hf
    simp only [decide_eq_true_eq] at hk
    exact hk ▸ List.mem_of_find?_eq_some hf

theorem lookup_eq_none {m : SortedMap κ α} {k : κ} : m.lookup k = none ↔ ∀ a, (k, a) ∉ m.entries := by
  rw [Option.eq_none_iff_forall_not_mem]
  simp [mem_entries]

/-- Two maps with the same bindings are the same map. -/
theorem ext_lookup {m n : SortedMap κ α} (h : ∀ k, m.lookup k = n.lookup k) : m = n := by
  apply ext_entries
  have hperm : m.entries.Perm n.entries := by
    refine (List.perm_ext_iff_of_nodup ?_ ?_).mpr ?_
    · exact m.sorted.imp (fun h hc => h.ne (congrArg Prod.fst hc))
    · exact n.sorted.imp (fun h hc => h.ne (congrArg Prod.fst hc))
    · rintro ⟨k, a⟩
      rw [mem_entries, mem_entries, h k]
  exact hperm.eq_of_pairwise (fun p q _ _ h₁ h₂ => absurd h₁ h₂.asymm) m.sorted n.sorted

theorem lookup_insertList {l : List (κ × α)} (h : l.Pairwise (fun p q => p.1 < q.1)) (k : κ) (a : α) (k' : κ) :
    (insertList k a l).find? (fun p => p.1 = k') =
      if k' = k then some (k, a) else l.find? (fun p => p.1 = k') := by
  induction l with
  | nil =>
    by_cases hk : k' = k
    · simp [insertList, hk]
    · simp [insertList, hk, Ne.symm hk]
  | cons p l ih =>
    rw [List.pairwise_cons] at h
    by_cases hk : k' = k
    · subst hk
      rw [if_pos rfl, insertList]
      split_ifs with hlt heq
      · simp
      · simp
      · rw [List.find?_cons_of_neg (by simpa using Ne.symm heq), ih h.2, if_pos rfl]
    · rw [if_neg hk, insertList]
      have hne : k ≠ k' := Ne.symm hk
      split_ifs with hlt heq
      · rw [List.find?_cons_of_neg (by simpa using hne)]
      · rw [List.find?_cons_of_neg (by simpa using hne), List.find?_cons_of_neg (by simpa [← heq] using hne)]
      · rw [List.find?_cons, List.find?_cons, ih h.2, if_neg hk]

theorem lookup_insert (m : SortedMap κ α) (k : κ) (a : α) (k' : κ) :
    (m.insert k a).lookup k' = if k' = k then some a else m.lookup k' := by
  simp only [lookup, insert, lookup_insertList m.sorted]
  split_ifs <;> rfl

@[simp] theorem lookup_insert_self (m : SortedMap κ α) (k : κ) (a : α) : (m.insert k a).lookup k = some a := by
  simp [lookup_insert]

theorem lookup_insert_of_ne (m : SortedMap κ α) {k k' : κ} (a : α) (h : k' ≠ k) :
    (m.insert k a).lookup k' = m.lookup k' := by
  simp [lookup_insert, h]

theorem lookup_filter (m : SortedMap κ α) (f : κ × α → Bool) (k : κ) :
    (m.filter f).lookup k = (m.lookup k).filter (fun a => f (k, a)) := by
  ext a
  rw [← mem_entries]
  simp [filter, mem_entries, Option.filter_eq_some_iff]

theorem lookup_erase (m : SortedMap κ α) (k k' : κ) :
    (m.erase k).lookup k' = if k' = k then none else m.lookup k' := by
  have h := m.lookup_filter (fun p => p.1 ≠ k) k'
  change (m.erase k).lookup k' = _ at h
  rw [h]
  by_cases hk : k' = k
  · cases m.lookup k' <;> simp [hk]
  · cases m.lookup k' <;> simp [hk]

@[simp] theorem lookup_erase_self (m : SortedMap κ α) (k : κ) : (m.erase k).lookup k = none := by
  simp [lookup_erase]

theorem lookup_erase_of_ne (m : SortedMap κ α) {k k' : κ} (h : k' ≠ k) :
    (m.erase k).lookup k' = m.lookup k' := by
  simp [lookup_erase, h]

theorem erase_eq_self {m : SortedMap κ α} {k : κ} (h : m.lookup k = none) : m.erase k = m := by
  apply ext_lookup
  intro k'
  by_cases hk : k' = k
  · rw [hk, lookup_erase_self, h]
  · exact lookup_erase_of_ne m hk

theorem foldl_insert_lookup (l : List (κ × α)) (h : l.Pairwise (fun p q => p.1 < q.1)) (n : SortedMap κ α)
    (k : κ) : (l.foldl (fun r p => r.insert p.1 p.2) n).lookup k =
      ((l.find? (fun p => p.1 = k)).map Prod.snd).or (n.lookup k) := by
  induction l generalizing n with
  | nil => simp
  | cons p l ih =>
    rw [List.pairwise_cons] at h
    rw [List.foldl_cons, ih h.2, lookup_insert, List.find?_cons]
    by_cases hk : k = p.1
    · have hnone : l.find? (fun q => q.1 = k) = none := by
        rw [List.find?_eq_none]
        intro q hq
        simpa [hk] using (h.1 q hq).ne'
      simp [hk ▸ hnone, hk]
    · simp [hk, Ne.symm hk]

theorem lookup_union (m n : SortedMap κ α) (k : κ) : (m.union n).lookup k = (m.lookup k).or (n.lookup k) :=
  foldl_insert_lookup m.entries m.sorted n k

theorem length_insertList_le (k : κ) (a : α) (l : List (κ × α)) : (insertList k a l).length ≤ l.length + 1 := by
  induction l with
  | nil => simp [insertList]
  | cons p l ih =>
    rw [insertList]
    split_ifs
    · simp
    · simp
    · simpa using ih

theorem length_union_le (m n : SortedMap κ α) :
    (m.union n).entries.length ≤ m.entries.length + n.entries.length := by
  have h (l : List (κ × α)) (r : SortedMap κ α) :
      (l.foldl (fun r p => r.insert p.1 p.2) r).entries.length ≤ l.length + r.entries.length := by
    induction l generalizing r with
    | nil => simp
    | cons p l ih =>
      have hi := length_insertList_le p.1 p.2 r.entries
      calc _ ≤ l.length + (r.insert p.1 p.2).entries.length := ih _
        _ ≤ l.length + (r.entries.length + 1) := Nat.add_le_add_left hi _
        _ = (p :: l).length + r.entries.length := by simp; omega
  exact h m.entries n

/-! ### The binding that covers a key -/

theorem floor_eq_none {m : SortedMap κ α} {k : κ} : m.floor k = none ↔ m.entries = [] := by
  rw [floor]
  cases h : (m.entries.filter (fun p => p.1 ≤ k)).getLast? with
  | none => simp
  | some p =>
    have hm := List.mem_of_mem_filter (List.mem_of_getLast? h)
    simp only [reduceCtorEq, false_iff]
    exact List.ne_nil_of_mem hm

theorem floor_mem {m : SortedMap κ α} {k : κ} {p : κ × α} (h : m.floor k = some p) : p ∈ m.entries := by
  rw [floor] at h
  split at h
  · rename_i q hq
    exact Option.some.inj h ▸ List.mem_of_mem_filter (List.mem_of_getLast? hq)
  · exact List.mem_of_head? h

/-- A binding covers a key if it is the last one at or below the key, or the first one while all lie
above the key. -/
def Covers (m : SortedMap κ α) (f k : κ) : Prop :=
  (f ≤ k ∧ ∀ q ∈ m.entries, q.1 ≤ k → q.1 ≤ f) ∨ ∀ q ∈ m.entries, k < q.1 ∧ f ≤ q.1

theorem floor_covers {m : SortedMap κ α} {k : κ} {p : κ × α} (h : m.floor k = some p) : m.Covers p.1 k := by
  rw [floor] at h
  split at h
  · rename_i q hq
    obtain rfl := Option.some.inj h
    obtain ⟨l, hl⟩ := List.getLast?_eq_some_iff.mp hq
    have hsort := m.sorted.filter (fun p => p.1 ≤ k)
    left
    constructor
    · have hm := List.mem_of_getLast? hq
      simpa using (List.mem_filter.mp hm).2
    · intro r hr hrk
      have hrm : r ∈ m.entries.filter (fun p => p.1 ≤ k) := List.mem_filter.mpr ⟨hr, by simpa using hrk⟩
      rw [hl] at hrm hsort
      rcases List.mem_append.mp hrm with hrm | hrm
      · rw [List.pairwise_append] at hsort
        exact (hsort.2.2 r hrm q (by simp)).le
      · rw [List.mem_singleton.mp hrm]
  · rename_i hnone
    right
    rw [List.getLast?_eq_none_iff, List.filter_eq_nil_iff] at hnone
    intro q hq
    refine ⟨by simpa using hnone q hq, ?_⟩
    obtain ⟨l, hl⟩ := List.head?_eq_some_iff.mp h
    have hsort := m.sorted
    rw [hl] at hq hsort
    rcases List.mem_cons.mp hq with rfl | hq
    · exact le_rfl
    · exact ((List.pairwise_cons.mp hsort).1 q hq).le

theorem Covers.unique {m : SortedMap κ α} {f f' k : κ} (hf : ∃ a, (f, a) ∈ m.entries)
    (hf' : ∃ a, (f', a) ∈ m.entries) (h : m.Covers f k) (h' : m.Covers f' k) : f = f' := by
  obtain ⟨a, ha⟩ := hf
  obtain ⟨a', ha'⟩ := hf'
  rcases h with ⟨hk, hl⟩ | hr <;> rcases h' with ⟨hk', hl'⟩ | hr'
  · exact le_antisymm (hl' _ ha hk) (hl _ ha' hk')
  · exact absurd hk (not_le.mpr (hr' _ ha).1)
  · exact absurd hk' (not_le.mpr (hr _ ha').1)
  · exact le_antisymm (hr _ ha').2 (hr' _ ha).2

theorem floor_eq_some_iff {m : SortedMap κ α} {k f : κ} {a : α} :
    m.floor k = some (f, a) ↔ (f, a) ∈ m.entries ∧ m.Covers f k := by
  constructor
  · intro h
    exact ⟨floor_mem h, floor_covers h⟩
  · rintro ⟨hm, hc⟩
    cases h : m.floor k with
    | none =>
      rw [floor_eq_none.mp h] at hm
      simp at hm
    | some p =>
      obtain ⟨f', a'⟩ := p
      have hm' := floor_mem h
      obtain rfl := Covers.unique ⟨a, hm⟩ ⟨a', hm'⟩ hc (floor_covers h)
      rw [mem_entries] at hm hm'
      rw [Option.some.inj (hm.symm.trans hm')]

theorem floor_self {m : SortedMap κ α} {f : κ} {a : α} (h : (f, a) ∈ m.entries) : m.floor f = some (f, a) :=
  floor_eq_some_iff.mpr ⟨h, Or.inl ⟨le_rfl, fun _ _ hq => hq⟩⟩

/-- The keys covered by an earlier binding lie below those covered by a later one. -/
theorem lt_of_floor_lt {m : SortedMap κ α} {k k' : κ} {p p' : κ × α} (h : m.floor k = some p)
    (h' : m.floor k' = some p') (hlt : p.1 < p'.1) : k < k' := by
  by_contra hk
  rcases floor_covers h' with ⟨hle, -⟩ | hr
  · have hpk : p'.1 ≤ k := hle.trans (not_lt.mp hk)
    rcases floor_covers h with ⟨-, hl⟩ | hr
    · exact absurd (hl p' (floor_mem h') hpk) (not_le.mpr hlt)
    · exact absurd (hr p' (floor_mem h')).1 (not_lt.mpr hpk)
  · exact absurd (hr p (floor_mem h)).2 (not_le.mpr hlt)

theorem floor_fst_congr {β : Type*} {m : SortedMap κ α} {n : SortedMap κ β}
    (h : ∀ f, m.lookup f ≠ none ↔ n.lookup f ≠ none) (k : κ) :
    (m.floor k).map Prod.fst = (n.floor k).map Prod.fst := by
  have hmem (f : κ) : (∃ a, (f, a) ∈ m.entries) ↔ ∃ b, (f, b) ∈ n.entries := by
    simp only [mem_entries, ← Option.ne_none_iff_exists', h f]
  have hcov {f : κ} (hc : m.Covers f k) : n.Covers f k := by
    rcases hc with ⟨hle, hl⟩ | hr
    · left
      refine ⟨hle, ?_⟩
      rintro ⟨g, b⟩ hg hgk
      obtain ⟨a, ha⟩ := (hmem g).mpr ⟨b, hg⟩
      exact hl (g, a) ha hgk
    · right
      rintro ⟨g, b⟩ hg
      obtain ⟨a, ha⟩ := (hmem g).mpr ⟨b, hg⟩
      exact hr (g, a) ha
  cases hm : m.floor k with
  | none =>
    have hnil : n.entries = [] := by
      rw [List.eq_nil_iff_forall_not_mem]
      rintro ⟨g, b⟩ hg
      obtain ⟨a, ha⟩ := (hmem g).mpr ⟨b, hg⟩
      rw [floor_eq_none.mp hm] at ha
      exact absurd ha (by simp)
    rw [floor_eq_none.mpr hnil]
    rfl
  | some p =>
    obtain ⟨f, a⟩ := p
    obtain ⟨hin, hc⟩ := floor_eq_some_iff.mp hm
    obtain ⟨b, hb⟩ := (hmem f).mp ⟨a, hin⟩
    rw [floor_eq_some_iff.mpr ⟨hb, hcov hc⟩]
    rfl

theorem floor_eq_some_of_fst {m : SortedMap κ α} {k f : κ} {a : α} (h : (m.floor k).map Prod.fst = some f)
    (ha : m.lookup f = some a) : m.floor k = some (f, a) := by
  rw [Option.map_eq_some_iff] at h
  obtain ⟨⟨g, b⟩, hg, rfl⟩ := h
  have hb := mem_entries.mp (floor_mem hg)
  rw [ha] at hb
  rw [hg, Option.some.inj hb]

theorem floor_insert_of_mem {m : SortedMap κ α} {f : κ} (hf : m.lookup f ≠ none) (b : α) {k g : κ} {a : α}
    (h : m.floor k = some (g, a)) : (m.insert f b).floor k = some (g, if g = f then b else a) := by
  apply floor_eq_some_of_fst
  · rw [floor_fst_congr (n := m), h, Option.map_some]
    intro g
    by_cases hg : g = f
    · simp [hg, hf]
    · simp [lookup_insert_of_ne m b hg]
  · rw [lookup_insert, mem_entries.mp (floor_mem h)]
    split_ifs <;> rfl

theorem insert_insert (m : SortedMap κ α) (k : κ) (a b : α) : (m.insert k a).insert k b = m.insert k b := by
  apply ext_lookup
  intro k'
  by_cases hk : k' = k
  · rw [hk, lookup_insert_self, lookup_insert_self]
  · rw [lookup_insert_of_ne _ _ hk, lookup_insert_of_ne _ _ hk, lookup_insert_of_ne _ _ hk]

theorem list_ext {l l' : List (κ × α)} (h : l.Pairwise (fun p q => p.1 < q.1)) (h' : l'.Pairwise (fun p q => p.1 < q.1))
    (heq : ∀ k a, (k, a) ∈ l ↔ (k, a) ∈ l') : l = l' := by
  have hm : (⟨l, h⟩ : SortedMap κ α) = ⟨l', h'⟩ := by
    apply ext_lookup
    intro k
    ext a
    rw [← mem_entries, ← mem_entries]
    exact heq k a
  exact congrArg entries hm

/-- A property that no later element has once it is lost selects a beginning of the list. -/
theorem takeWhile_eq_filter {P : α → Bool} {l : List α} (h : l.Pairwise (fun a b => P b = true → P a = true)) :
    l.takeWhile P = l.filter P := by
  induction l with
  | nil => rfl
  | cons a l ih =>
    rw [List.pairwise_cons] at h
    by_cases ha : P a = true
    · rw [List.takeWhile_cons_of_pos ha, List.filter_cons_of_pos ha, ih h.2]
    · rw [List.takeWhile_cons_of_neg ha, List.filter_cons_of_neg ha, eq_comm, List.filter_eq_nil_iff]
      exact fun b hb => mt (h.1 b hb) ha

theorem dropWhile_eq_filter {P : α → Bool} {l : List α} (h : l.Pairwise (fun a b => P b = true → P a = true)) :
    l.dropWhile P = l.filter (fun a => !P a) := by
  induction l with
  | nil => rfl
  | cons a l ih =>
    rw [List.pairwise_cons] at h
    by_cases ha : P a = true
    · rw [List.dropWhile_cons_of_pos ha, List.filter_cons_of_neg (by simp [ha]), ih h.2]
    · rw [List.dropWhile_cons_of_neg ha, eq_comm, List.filter_eq_self]
      intro b hb
      rcases List.mem_cons.mp hb with rfl | hb
      · simpa using ha
      · simpa using mt (h.1 b hb) ha

theorem le_mono {l : List (κ × α)} (h : l.Pairwise (fun p q => p.1 < q.1)) (k : κ) :
    l.Pairwise (fun p q => decide (q.1 ≤ k) = true → decide (p.1 ≤ k) = true) :=
  h.imp (fun hlt hq => decide_eq_true (hlt.le.trans (of_decide_eq_true hq)))

/-- An ordered list around a key: the bindings up to it, of which the last one may be the key's, and
those above it. -/
theorem drop_le {l : List (κ × α)} (h : l.Pairwise (fun p q => p.1 < q.1)) (k : κ) :
    (l.filter (fun p => decide (p.1 ≤ k)) = [] ∧
        l.drop ((l.takeWhile (fun p => decide (p.1 ≤ k))).length - 1) = l ∧ ∀ p ∈ l, k < p.1) ∨
      ∃ pre p post, l = pre ++ p :: post ∧ l.filter (fun p => decide (p.1 ≤ k)) = pre ++ [p] ∧
        l.drop ((l.takeWhile (fun p => decide (p.1 ≤ k))).length - 1) = p :: post ∧
        p.1 ≤ k ∧ (∀ q ∈ pre, q.1 < p.1) ∧ ∀ q ∈ post, k < q.1 := by
  have htake := takeWhile_eq_filter (le_mono h k)
  have hdrop := dropWhile_eq_filter (le_mono h k)
  have hsplit := List.takeWhile_append_dropWhile (p := fun p : κ × α => decide (p.1 ≤ k)) (l := l)
  rw [htake, hdrop] at hsplit
  rw [htake]
  rcases List.eq_nil_or_concat (l.filter (fun p : κ × α => decide (p.1 ≤ k))) with hnil | ⟨pre, p, hpre⟩
  · left
    refine ⟨hnil, by rw [hnil]; rfl, ?_⟩
    simpa [List.filter_eq_nil_iff] using hnil
  · right
    rw [List.concat_eq_append] at hpre
    rw [hpre, List.append_assoc] at hsplit
    have hle : p ∈ l.filter (fun p => decide (p.1 ≤ k)) := by simp [hpre]
    refine ⟨pre, p, l.filter (fun p => !decide (p.1 ≤ k)), hsplit.symm, hpre, ?_, by simpa using (List.mem_filter.mp hle).2,
      ?_, ?_⟩
    · rw [hpre]
      conv_lhs => rw [← hsplit]
      simp
    · intro q hq
      rw [← hsplit, List.pairwise_append] at h
      exact h.2.2 q hq p (by simp)
    · simp

theorem drop_floor {m : SortedMap κ α} (hne : m.entries ≠ []) (k : κ) :
    ∃ pre p post, m.entries = pre ++ p :: post ∧ m.floor k = some p ∧
      m.entries.drop ((m.entries.takeWhile (fun p => decide (p.1 ≤ k))).length - 1) = p :: post := by
  rcases drop_le m.sorted k with ⟨hnil, hdrop, -⟩ | ⟨pre, p, post, hl, hpre, hdrop, -⟩
  · rw [hdrop, floor, hnil]
    cases hm : m.entries with
    | nil => exact absurd hm hne
    | cons p post => exact ⟨[], p, post, rfl, rfl, rfl⟩
  · refine ⟨pre, p, post, hl, ?_, hdrop⟩
    rw [floor, hpre]
    simp

end SortedMap

end RaleighSL.Library
