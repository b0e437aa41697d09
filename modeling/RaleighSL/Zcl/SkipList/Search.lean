import RaleighSL.Library.Links
import RaleighSL.Zcl.SkipList.Model

/-!
# The searches

On every level the nodes are linked that are higher than the level, in one order. A search for a
key stops on each level behind the last node below the key; that node is on the level below as
well, so the search can go on from it.
-/
namespace RaleighSL.Zcl.SkipList

open Library

variable {δ κ : Type*}

/-- A node of the list with its number of levels. -/
structure Entry (δ : Type*) where
  id : Nat
  data : δ
  height : Nat
  deriving DecidableEq, Repr

def onLevel (level : Nat) (l : List (Entry δ)) : List (Entry δ) := l.filter (fun e => level < e.height)

/-- The place behind which a list of entries ends on a level. -/
def front (level : Nat) (l : List (Entry δ)) : Place := endOf .node .head ((onLevel level l).map Entry.id)

/-- The entries are the nodes of the list, in order. -/
structure Holds (s : State δ) (l : List (Entry δ)) : Prop where
  head : s.head.length = maxHeight
  stored : ∀ e ∈ l, ∃ next, s.nodes e.id = some ⟨e.data, next⟩ ∧ next.length = e.height
  nodup : (l.map Entry.id).Nodup
  fresh : ∀ e ∈ l, e.id < s.count
  heights : ∀ e ∈ l, 1 ≤ e.height ∧ e.height ≤ maxHeight
  links : ∀ level < maxHeight, Linked .node (s.link level) .head ((onLevel level l).map Entry.id)

variable {s : State δ} {l a b : List (Entry δ)} {level : Nat} {p : Place}

theorem onLevel_append : onLevel level (a ++ b) = onLevel level a ++ onLevel level b := List.filter_append ..

theorem mem_of_onLevel {e : Entry δ} (h : e ∈ onLevel level l) : e ∈ l := List.mem_of_mem_filter h

theorem Holds.onLevel_zero (h : Holds s (a ++ b)) : onLevel 0 b = b := by
  rw [onLevel, List.filter_eq_self]
  intro e he
  exact decide_eq_true (h.heights e (List.mem_append_right a he)).1

/-- The last entry of a level is on the level below. -/
theorem front_succ (level : Nat) (a : List (Entry δ)) : ∃ c x, onLevel level a = c ++ x ∧
    front (level + 1) a = endOf .node .head (c.map Entry.id) := by
  rcases List.eq_nil_or_concat (onLevel (level + 1) a) with hnil | ⟨u, e, hu⟩
  · refine ⟨[], onLevel level a, rfl, ?_⟩
    rw [front, hnil]
  · rw [List.concat_eq_append] at hu
    have he : e ∈ onLevel (level + 1) a := by simp [hu]
    obtain ⟨hea, hlevel⟩ := List.mem_filter.mp he
    have hlevel' : level < e.height := by
      have := of_decide_eq_true hlevel
      omega
    have hmem : e ∈ onLevel level a := List.mem_filter.mpr ⟨hea, decide_eq_true hlevel'⟩
    obtain ⟨c, x, hcx⟩ := List.append_of_mem hmem
    refine ⟨c ++ [e], x, by rw [hcx, List.append_assoc, List.singleton_append], ?_⟩
    rw [front, hu, List.map_append, List.map_append, List.map_singleton, endOf_concat, endOf_concat]

theorem Holds.length_le (h : Holds s l) : l.length ≤ s.count := by
  have hsub : l.map Entry.id ⊆ List.range s.count := by
    intro n hn
    obtain ⟨e, he, rfl⟩ := List.mem_map.mp hn
    exact List.mem_range.mpr (h.fresh e he)
  have hle := h.nodup.length_le_of_subset hsub
  rwa [List.length_map, List.length_range] at hle

/-! ### A walk -/

/-- A walk stops behind the entries that let it go on. -/
theorem walk_spec {goes : δ → Bool} {x y : List (Entry δ)} {fuel : Nat}
    (hlinked : Linked .node (s.link level) p ((x ++ y).map Entry.id))
    (hstored : ∀ e ∈ x ++ y, ∃ next, s.nodes e.id = some ⟨e.data, next⟩) (hx : ∀ e ∈ x, goes e.data)
    (hy : ∀ e ∈ y.head?, ¬ goes e.data) (hfuel : x.length < fuel) :
    s.walk goes level fuel p = some (endOf .node p (x.map Entry.id), y.head?.map (fun e => (e.id, e.data))) := by
  induction x generalizing p fuel with
  | nil =>
    obtain ⟨fuel, rfl⟩ := Nat.exists_eq_succ_of_ne_zero (Nat.ne_of_gt hfuel)
    rw [List.nil_append] at hlinked hstored
    rw [State.walk, hlinked.link_eq, Option.bind_some]
    cases y with
    | nil => rfl
    | cons e y =>
      obtain ⟨next, hnode⟩ := hstored e List.mem_cons_self
      show (s.nodes e.id).bind _ = _
      rw [hnode, Option.bind_some, if_neg (hy e rfl)]
      rfl
  | cons e x ih =>
    obtain ⟨fuel, rfl⟩ := Nat.exists_eq_succ_of_ne_zero (Nat.ne_zero_of_lt hfuel)
    obtain ⟨hlink, hlinked⟩ := hlinked
    obtain ⟨next, hnode⟩ := hstored e List.mem_cons_self
    rw [State.walk, hlink, Option.bind_some]
    show (s.nodes e.id).bind _ = _
    rw [hnode, Option.bind_some, if_pos (hx e List.mem_cons_self)]
    exact ih hlinked (fun c hc => hstored c (List.mem_cons_of_mem e hc)) (fun c hc => hx c (List.mem_cons_of_mem e hc))
      (Nat.lt_of_succ_lt_succ hfuel)

variable [LinearOrder κ] {key : δ → κ} {k : κ}

/-- The entries in front of a key and those from it on. -/
structure Cut (key : δ → κ) (k : κ) (a b : List (Entry δ)) : Prop where
  below : ∀ e ∈ a, key e.data < k
  above : ∀ e ∈ b, k ≤ key e.data

def Sorted (key : δ → κ) (l : List (Entry δ)) : Prop := l.Pairwise (fun c e => key c.data < key e.data)

theorem exists_cut (h : Sorted key l) (k : κ) : ∃ a b, l = a ++ b ∧ Cut key k a b := by
  induction l with
  | nil => exact ⟨[], [], rfl, by simp, by simp⟩
  | cons e l ih =>
    obtain ⟨he, hl⟩ := List.pairwise_cons.mp h
    by_cases hek : key e.data < k
    · obtain ⟨a, b, rfl, hcut⟩ := ih hl
      refine ⟨e :: a, b, rfl, ?_, hcut.above⟩
      intro c hc
      rcases List.mem_cons.mp hc with rfl | hc
      · exact hek
      · exact hcut.below c hc
    · refine ⟨[], e :: l, rfl, by simp, ?_⟩
      intro c hc
      rcases List.mem_cons.mp hc with rfl | hc
      · exact not_lt.mp hek
      · exact le_trans (not_lt.mp hek) (le_of_lt (he c hc))

/-- The entry of a key is the first one that is not in front of it. -/
theorem Cut.eq_head {e c : Entry δ} (hcut : Cut key k a (e :: b)) (hsort : Sorted key (a ++ e :: b)) (hc : c ∈ e :: b)
    (hk : key c.data = k) : c = e := by
  rcases List.mem_cons.mp hc with rfl | hc
  · rfl
  · have hlt := (List.pairwise_cons.mp (List.pairwise_append.mp hsort).2.1).1 c hc
    have hle := hcut.above e List.mem_cons_self
    rw [hk] at hlt
    exact absurd hlt (not_lt.mpr hle)

theorem Holds.walk (h : Holds s (a ++ b)) {goes : δ → Bool} (ha : ∀ e ∈ a, goes e.data) (hb : ∀ e ∈ b, ¬ goes e.data)
    {c x : List (Entry δ)} (hlevel : level < maxHeight) (hcx : onLevel level a = c ++ x)
    (hp : p = endOf .node .head (c.map Entry.id)) : s.walk goes level (s.count + 1) p =
      some (front level a, (onLevel level b).head?.map (fun e => (e.id, e.data))) := by
  have hlinked := h.links level hlevel
  rw [onLevel_append, hcx, List.append_assoc, List.map_append] at hlinked
  have hfront : front level a = endOf .node p (x.map Entry.id) := by rw [front, hcx, List.map_append, endOf_append, hp]
  have hxa (e : Entry δ) (he : e ∈ x) : e ∈ a := by
    have hmem : e ∈ onLevel level a := by
      rw [hcx]
      exact List.mem_append_right c he
    exact mem_of_onLevel hmem
  rw [hfront]
  apply walk_spec
  · rw [hp]
    exact hlinked.suffix
  · intro e he
    have hmem : e ∈ a ++ b := by
      rcases List.mem_append.mp he with he | he
      · exact List.mem_append_left b (hxa e he)
      · exact List.mem_append_right a (mem_of_onLevel he)
    obtain ⟨next, hnode, -⟩ := h.stored e hmem
    exact ⟨next, hnode⟩
  · intro e he
    exact ha e (hxa e he)
  · intro e he
    exact hb e (mem_of_onLevel (List.mem_of_mem_head? he))
  · have hle := h.length_le
    have hlen : (c ++ x).length ≤ a.length := by
      rw [← hcx]
      exact List.length_filter_le _ a
    rw [List.length_append] at hle hlen
    omega

/-! ### The path in front of a key -/

/-- The place that the search returns, and whether it is the node of the key. -/
def pathEnd (key : δ → κ) (k : κ) (a : List (Entry δ)) : List (Entry δ) → Place × Bool
  | [] => (front 0 a, false)
  | e :: _ => (.node e.id, key e.data = k)

theorem Holds.findPathFrom (h : Holds s (a ++ b)) (hcut : Cut key k a b) {c x : List (Entry δ)} (hlevel : level < maxHeight)
    (hcx : onLevel level a = c ++ x) (hp : p = endOf .node .head (c.map Entry.id)) (prev : Nat → Option Place) :
    s.findPathFrom key k (level + 1) p prev =
      some (fun i => if i ≤ level then some (front i a) else prev i, pathEnd key k a b) := by
  have hgoes : ∀ e ∈ a, decide (key e.data < k) = true := fun e he => decide_eq_true (hcut.below e he)
  have hstops : ∀ e ∈ b, ¬ decide (key e.data < k) = true := by
    intro e he
    rw [decide_eq_true_eq]
    exact not_lt.mpr (hcut.above e he)
  induction level generalizing p prev c x with
  | zero =>
    have hprev : Function.update prev 0 (some (front 0 a)) = fun i => if i ≤ 0 then some (front i a) else prev i := by
      funext i
      cases i with
      | zero => rfl
      | succ i => rw [Function.update_of_ne (Nat.succ_ne_zero i), if_neg (by omega)]
    rw [State.findPathFrom, h.walk hgoes hstops hlevel hcx hp, h.onLevel_zero, Option.bind_some]
    cases b with
    | nil => exact congrArg (fun prev => some (prev, front 0 a, false)) hprev
    | cons e b => exact congrArg (fun prev => some (prev, Place.node e.id, decide (key e.data = k))) hprev
  | succ level ih =>
    obtain ⟨c', x', hcx', hfront⟩ := front_succ level a
    have hrest := ih (Nat.lt_of_succ_lt hlevel) hcx' hfront (Function.update prev (level + 1) (some (front (level + 1) a)))
    have hprev : (fun i => if i ≤ level then some (front i a) else
        Function.update prev (level + 1) (some (front (level + 1) a)) i) =
          fun i => if i ≤ level + 1 then some (front i a) else prev i := by
      funext i
      rcases Nat.lt_trichotomy i (level + 1) with hi | rfl | hi
      · rw [if_pos (by omega), if_pos (by omega)]
      · rw [if_neg (by omega), Function.update_self, if_pos (Nat.le_refl _)]
      · rw [if_neg (by omega), Function.update_of_ne (by omega), if_neg (by omega)]
    rw [State.findPathFrom, h.walk hgoes hstops hlevel hcx hp, Option.bind_some]
    exact hrest.trans (by rw [hprev])

/-- `__skip_find_path` fills the array with the last places in front of the key. -/
theorem Holds.findPath (h : Holds s (a ++ b)) (hcut : Cut key k a b) (hpos : 1 ≤ s.levels) (hle : s.levels ≤ maxHeight) :
    s.findPath key k = some (fun i => if i < s.levels then some (front i a) else none, pathEnd key k a b) := by
  obtain ⟨level, hlevels⟩ : ∃ level, s.levels = level + 1 := ⟨s.levels - 1, by omega⟩
  have hpath := h.findPathFrom hcut (by omega) (List.nil_append (onLevel level a)).symm rfl (fun _ => none)
  rw [State.findPath, hlevels]
  simp only [Nat.lt_succ_iff]
  exact hpath

/-! ### Lookup -/

theorem Holds.lookupFrom (h : Holds s (a ++ b)) (hsort : Sorted key (a ++ b)) (hcut : Cut key k a b)
    {c x : List (Entry δ)} (hlevel : level < maxHeight) (hcx : onLevel level a = c ++ x)
    (hp : p = endOf .node .head (c.map Entry.id)) : s.lookupFrom key true false k (level + 1) p =
      some (if (pathEnd key k a b).2 then (some (pathEnd key k a b).1, true) else (none, false)) := by
  have hgoes : ∀ e ∈ a, decide (key e.data < k ∨ (key e.data = k ∧ ¬ true = true)) = true :=
    fun e he => decide_eq_true (Or.inl (hcut.below e he))
  have hstops : ∀ e ∈ b, ¬ decide (key e.data < k ∨ (key e.data = k ∧ ¬ true = true)) = true := by
    intro e he
    have hle := hcut.above e he
    simp [hle]
  induction level generalizing p c x with
  | zero =>
    rw [State.lookupFrom, h.walk hgoes hstops hlevel hcx hp, h.onLevel_zero, Option.bind_some]
    cases b with
    | nil => rfl
    | cons e b =>
      by_cases hk : key e.data = k
      · simp [pathEnd, hk]
      · simp [pathEnd, hk, State.lookupFrom]
  | succ level ih =>
    obtain ⟨c', x', hcx', hfront⟩ := front_succ level a
    have hrest := ih (Nat.lt_of_succ_lt hlevel) hcx' hfront
    rw [State.lookupFrom, h.walk hgoes hstops hlevel hcx hp, Option.bind_some]
    cases hhead : (onLevel (level + 1) b).head? with
    | none => exact hrest
    | some e =>
      have he : e ∈ b := mem_of_onLevel (List.mem_of_mem_head? hhead)
      by_cases hk : key e.data = k
      · cases b with
        | nil => exact absurd he List.not_mem_nil
        | cons e' b =>
          obtain rfl := hcut.eq_head hsort he hk
          simp [pathEnd, hk]
      · simpa [hk] using hrest

/-- `__skip_node_lookup` with `ITEM_CMP_EQ` finds the node of the key. -/
theorem Holds.lookup (h : Holds s (a ++ b)) (hsort : Sorted key (a ++ b)) (hcut : Cut key k a b) (hpos : 1 ≤ s.levels)
    (hle : s.levels ≤ maxHeight) : s.lookup key true false k =
      some (if (pathEnd key k a b).2 then (some (pathEnd key k a b).1, true) else (none, false)) := by
  obtain ⟨level, hlevels⟩ : ∃ level, s.levels = level + 1 := ⟨s.levels - 1, by omega⟩
  rw [State.lookup, hlevels]
  exact h.lookupFrom hsort hcut (by omega) (List.nil_append (onLevel level a)).symm rfl

end RaleighSL.Zcl.SkipList
