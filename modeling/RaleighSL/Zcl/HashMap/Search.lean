import RaleighSL.Zcl.HashMap.Model
import Mathlib.Data.List.Count

/-!
# The searches of the hash map

A search goes over the slots of the probe to the one with the key. It has no result if the hash of
the key is that of the empty slots and it meets an empty slot; a search for a place skips the first
one.
-/
namespace RaleighSL.Zcl.HashMap

variable {δ κ : Type*}

/-! ### The probe -/

theorem probeFrom_lt {mask shift : UInt64} {n : Nat} (hmask : mask.toNat < n) (count : Nat) (i p : UInt64) :
    ∀ j ∈ probeFrom mask shift count i p, j < n := by
  induction count generalizing i p with
  | zero => simp [probeFrom]
  | succ count ih =>
    intro j hj
    rw [probeFrom] at hj
    rcases List.mem_cons.mp hj with rfl | hj
    · rw [UInt64.toNat_and]
      exact Nat.lt_of_le_of_lt Nat.and_le_right hmask
    · exact ih _ _ j hj

theorem probe_lt {capacity : UInt32} (hpos : capacity ≠ 0) (hash : UInt64) :
    ∀ i ∈ probe capacity hash, i < capacity.toNat := by
  have hcap : 0 < capacity.toNat := by
    rcases Nat.eq_zero_or_pos capacity.toNat with h | h
    · exact absurd (UInt32.toNat_inj.mp h) hpos
    · exact h
  have hmask : (capacity - 1).toUInt64.toNat < capacity.toNat := by
    have hle : (1 : UInt32) ≤ capacity := by
      rw [UInt32.le_iff_toNat_le]
      exact hcap
    rw [UInt32.toNat_toUInt64, UInt32.toNat_sub_of_le _ _ hle]
    exact Nat.sub_lt hcap (by decide)
  intro i hi
  rcases List.mem_cons.mp hi with rfl | hi
  · rw [UInt64.toNat_and]
    exact Nat.lt_of_le_of_lt Nat.and_le_right hmask
  · exact probeFrom_lt hmask _ _ _ i hi

/-! ### The slots -/

def State.table (s : State δ) (i : Nat) : Option δ := (s.buckets[i]?).bind OhtNode.data

def State.stored (s : State δ) : List δ := s.buckets.filterMap OhtNode.data

/-- Every entry is stored with its hash, and an empty slot has the hash zero. -/
structure Inv (key : δ → κ) (hash : κ → UInt64) (s : State δ) : Prop where
  length : s.buckets.length = s.capacity.toNat
  hashed : ∀ (i : Nat) (node : OhtNode δ) (d : δ), s.buckets[i]? = some node → node.data = some d → node.hash = hash (key d)
  blank : ∀ (i : Nat) (node : OhtNode δ), s.buckets[i]? = some node → node.data = none → node.hash = 0

variable [DecidableEq κ] (key : δ → κ)

def State.holds (s : State δ) (k : κ) (i : Nat) : Bool := (s.table i).any (fun d => key d = k)

def State.isEmpty (s : State δ) (i : Nat) : Bool := (s.table i).isNone

/-- The number of empty slots that are met in front of the entry of a key. -/
def State.blanks (s : State δ) (k : κ) (slots : List Nat) : Nat :=
  (slots.takeWhile (fun i => !s.holds key k i)).countP s.isEmpty

variable {key} {hash : κ → UInt64} {s : State δ} {k : κ} {i : Nat} {slots : List Nat} {node : OhtNode δ}

theorem table_eq (h : s.buckets[i]? = some node) : s.table i = node.data := by rw [State.table, h, Option.bind_some]

theorem blanks_of_holds (h : s.holds key k i = true) : s.blanks key k (i :: slots) = 0 := by
  rw [State.blanks, List.takeWhile_cons_of_neg (by simp [h]), List.countP_nil]

theorem blanks_of_not_holds (h : s.holds key k i = false) :
    s.blanks key k (i :: slots) = s.blanks key k slots + if s.isEmpty i then 1 else 0 := by
  rw [State.blanks, List.takeWhile_cons_of_pos (by simp [h]), List.countP_cons, State.blanks]

theorem Inv.isMatch_none (h : Inv key hash s) (hi : s.buckets[i]? = some node) (hnone : node.data = none) :
    node.isMatch key (hash k) k = if hash k = 0 then none else some false := by
  rw [OhtNode.isMatch, h.blank i node hi hnone, hnone, Option.map_none]
  simp only [eq_comm]

theorem Inv.isMatch_some (h : Inv key hash s) (hi : s.buckets[i]? = some node) {d : δ} (hd : node.data = some d) :
    node.isMatch key (hash k) k = some (decide (key d = k)) := by
  rw [OhtNode.isMatch, h.hashed i node d hi hd, hd, Option.map_some]
  split_ifs with hh
  · rfl
  · have hk : key d ≠ k := fun hk => hh (congrArg hash hk)
    rw [decide_eq_false hk]

theorem Inv.lookupIn (h : Inv key hash s) (hslots : ∀ i ∈ slots, i < s.buckets.length) :
    s.lookupIn key (hash k) k slots =
      if hash k = 0 ∧ 0 < s.blanks key k slots then none else some (slots.find? (s.holds key k)) := by
  induction slots with
  | nil => simp [State.lookupIn, State.blanks]
  | cons i slots ih =>
    obtain ⟨hi, hslots⟩ := List.forall_mem_cons.mp hslots
    have hnode := List.getElem?_eq_getElem hi
    specialize ih hslots
    rw [State.lookupIn, hnode, Option.bind_some]
    generalize s.buckets[i] = node at hnode
    have htable := table_eq hnode
    cases hdata : node.data with
    | none =>
      rw [hdata] at htable
      have hholds : s.holds key k i = false := by rw [State.holds, htable]; rfl
      have hempty : s.isEmpty i = true := by rw [State.isEmpty, htable]; rfl
      rw [h.isMatch_none hnode hdata, blanks_of_not_holds hholds, hempty, if_pos rfl, List.find?_cons_of_neg (by simp [hholds])]
      by_cases hh : hash k = 0
      · simp [hh]
      · simp only [hh, if_false, Option.bind_some, false_and] at ih ⊢
        exact ih
    | some d =>
      rw [hdata] at htable
      have hempty : s.isEmpty i = false := by rw [State.isEmpty, htable]; rfl
      rw [h.isMatch_some hnode hdata, Option.bind_some]
      by_cases hk : key d = k
      · have hholds : s.holds key k i = true := by rw [State.holds, htable]; simpa using hk
        rw [blanks_of_holds hholds, List.find?_cons_of_pos hholds]
        simp [hk]
      · have hholds : s.holds key k i = false := by rw [State.holds, htable]; simpa using hk
        rw [blanks_of_not_holds hholds, hempty, List.find?_cons_of_neg (by simp [hholds])]
        simpa [hk] using ih

/-- The place for a key: its own, or the first empty one. -/
def State.place (s : State δ) (key : δ → κ) (k : κ) (ientry : Option Nat) (slots : List Nat) : Option Nat × Bool :=
  match slots.find? (s.holds key k) with
  | some i => (some i, true)
  | none => (ientry.or (slots.find? s.isEmpty), false)

theorem Inv.placeIn (h : Inv key hash s) (ientry : Option Nat) (hslots : ∀ i ∈ slots, i < s.buckets.length) :
    s.placeIn key (hash k) k ientry slots =
      if hash k = 0 ∧ 1 < s.blanks key k slots + (if ientry.isSome then 1 else 0) then none
      else some (s.place key k ientry slots) := by
  induction slots generalizing ientry with
  | nil =>
    have hle : ¬ 1 < (if ientry.isSome then 1 else 0) := by split_ifs <;> omega
    simp [State.placeIn, State.place, State.blanks, hle]
  | cons i slots ih =>
    obtain ⟨hi, hslots⟩ := List.forall_mem_cons.mp hslots
    have hnode := List.getElem?_eq_getElem hi
    rw [State.placeIn, hnode, Option.bind_some]
    generalize s.buckets[i] = node at hnode
    have htable := table_eq hnode
    cases hdata : node.data with
    | none =>
      rw [hdata] at htable
      have hholds : s.holds key k i = false := by rw [State.holds, htable]; rfl
      have hempty : s.isEmpty i = true := by rw [State.isEmpty, htable]; rfl
      rw [blanks_of_not_holds hholds, hempty, if_pos rfl]
      cases ientry with
      | none =>
        rw [if_pos ⟨rfl, rfl⟩, ih (some i) hslots]
        simp [State.place, hholds, hempty]
      | some f =>
        rw [if_neg (by simp), h.isMatch_none hnode hdata]
        by_cases hh : hash k = 0
        · simp [hh]
        · simp [hh, ih (some f) hslots, State.place, hholds]
    | some d =>
      rw [hdata] at htable
      have hempty : s.isEmpty i = false := by rw [State.isEmpty, htable]; rfl
      rw [if_neg (by simp), h.isMatch_some hnode hdata, Option.bind_some]
      by_cases hk : key d = k
      · have hholds : s.holds key k i = true := by rw [State.holds, htable]; simpa using hk
        have hle : ¬ 1 < (if ientry.isSome then 1 else 0) := by split_ifs <;> omega
        rw [blanks_of_holds hholds]
        simp [hk, State.place, hholds, hle]
      · have hholds : s.holds key k i = false := by rw [State.holds, htable]; simpa using hk
        rw [blanks_of_not_holds hholds, hempty]
        simp [hk, ih ientry hslots, State.place, hholds, hempty]

end RaleighSL.Zcl.HashMap
