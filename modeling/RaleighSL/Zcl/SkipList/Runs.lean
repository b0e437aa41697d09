import RaleighSL.Zcl.SkipList.Calls
import Mathlib.Data.Nat.Basic

/-!
# Runs of the skip list

A skip list is a map from keys to the data that was put last. Whatever levels the new nodes get,
the levels of the list are ordered, each one is a part of the level below, and the data that is
replaced or removed is freed once.
-/
namespace RaleighSL.Zcl.SkipList

open Library

variable {δ κ : Type*} [LinearOrder κ] {key : δ → κ} {k : κ} {s s' : State δ} {l a b : List (Entry δ)} {d : δ}

/-- What was put last for each key and not removed since, and what was replaced or removed. -/
structure Spec (δ κ : Type*) where
  element : κ → Option δ
  gone : List δ

omit [LinearOrder κ] in
def Spec.empty : Spec δ κ := { element := fun _ => none, gone := [] }

def specStep (key : δ → κ) (m : Spec δ κ) : Op δ κ → Spec δ κ × Result δ
  | .put d _ =>
    ({ element := Function.update m.element (key d) (some d), gone := m.gone ++ (m.element (key d)).toList }, .status 0)
  | .remove k =>
    ({ element := Function.update m.element k none, gone := m.gone ++ (m.element k).toList },
      .status (if (m.element k).isSome then 0 else 1))
  | .get k => (m, .data (m.element k))

/-- The list holds the elements of a map. -/
structure Models (key : δ → κ) (s : State δ) (l : List (Entry δ)) (m : Spec δ κ) : Prop extends Inv key s l where
  elements : ∀ k d, m.element k = some d ↔ key d = k ∧ ∃ e ∈ l, e.data = d
  gone : s.freed = if s.frees then m.gone else []

/-! ### Steps -/

/-- A key is not there, or it has one entry. -/
theorem exists_place (h : Sorted key l) (k : κ) :
    (∃ a b, l = a ++ b ∧ Cut key k a b ∧ (pathEnd key k a b).2 = false) ∨
      ∃ a e b, l = a ++ e :: b ∧ Cut key k a (e :: b) ∧ key e.data = k := by
  obtain ⟨a, b, rfl, hcut⟩ := exists_cut h k
  cases b with
  | nil => exact Or.inl ⟨a, [], rfl, hcut, rfl⟩
  | cons e b =>
    by_cases hk : key e.data = k
    · exact Or.inr ⟨a, e, b, rfl, hcut, hk⟩
    · exact Or.inl ⟨a, e :: b, rfl, hcut, decide_eq_false hk⟩

theorem Cut.other (hcut : Cut key k a b) (hb : ∀ e ∈ b, k < key e.data) : ∀ e ∈ a ++ b, key e.data ≠ k := by
  intro e he
  rcases List.mem_append.mp he with he | he
  · exact ne_of_lt (hcut.below e he)
  · exact ne_of_gt (hb e he)

theorem Cut.other_cons {e : Entry δ} (hsort : Sorted key (a ++ e :: b)) (hcut : Cut key k a (e :: b)) (hk : key e.data = k) :
    ∀ c ∈ a ++ b, key c.data ≠ k := by
  intro c hc
  rcases List.mem_append.mp hc with hc | hc
  · exact ne_of_lt (hcut.below c hc)
  · rw [← hk]
    exact ne_of_gt ((List.pairwise_cons.mp (List.pairwise_append.mp hsort).2.1).1 c hc)

theorem Models.element_none {m : Spec δ κ} (h : Models key s l m) (hne : ∀ e ∈ l, key e.data ≠ k) : m.element k = none := by
  rw [Option.eq_none_iff_forall_ne_some]
  intro d hd
  obtain ⟨hk, e, he, rfl⟩ := (h.elements k d).mp hd
  exact hne e he hk

theorem elements_put {f : κ → Option δ} {e : Entry δ} (hne : ∀ c ∈ a ++ b, key c.data ≠ key e.data)
    (h : ∀ k, k ≠ key e.data → ∀ d, f k = some d ↔ key d = k ∧ ∃ c ∈ a ++ b, c.data = d) (k : κ) (d : δ) :
    Function.update f (key e.data) (some e.data) k = some d ↔ key d = k ∧ ∃ c ∈ a ++ e :: b, c.data = d := by
  have hmem (c : Entry δ) : c ∈ a ++ e :: b ↔ c = e ∨ c ∈ a ++ b := by
    simp only [List.mem_append, List.mem_cons]
    tauto
  by_cases hk : k = key e.data
  · subst hk
    rw [Function.update_self]
    constructor
    · rintro ⟨⟩
      exact ⟨rfl, e, (hmem e).mpr (Or.inl rfl), rfl⟩
    · rintro ⟨hd, c, hc, rfl⟩
      rcases (hmem c).mp hc with rfl | hc
      · rfl
      · exact absurd hd (hne c hc)
  · rw [Function.update_of_ne hk, h k hk]
    constructor
    · rintro ⟨hd, c, hc, rfl⟩
      exact ⟨hd, c, (hmem c).mpr (Or.inr hc), rfl⟩
    · rintro ⟨rfl, c, hc, rfl⟩
      rcases (hmem c).mp hc with rfl | hc
      · exact absurd rfl hk
      · exact ⟨rfl, c, hc, rfl⟩

theorem elements_remove {f : κ → Option δ} {e : Entry δ} (hne : ∀ c ∈ a ++ b, key c.data ≠ k) (hk : key e.data = k)
    (h : ∀ k d, f k = some d ↔ key d = k ∧ ∃ c ∈ a ++ e :: b, c.data = d) (k' : κ) (d : δ) :
    Function.update f k none k' = some d ↔ key d = k' ∧ ∃ c ∈ a ++ b, c.data = d := by
  have hmem (c : Entry δ) : c ∈ a ++ e :: b ↔ c = e ∨ c ∈ a ++ b := by
    simp only [List.mem_append, List.mem_cons]
    tauto
  by_cases hk' : k' = k
  · subst hk'
    rw [Function.update_self]
    refine iff_of_false (by simp) ?_
    rintro ⟨hd, c, hc, rfl⟩
    exact hne c hc hd
  · rw [Function.update_of_ne hk', h]
    constructor
    · rintro ⟨rfl, c, hc, rfl⟩
      rcases (hmem c).mp hc with rfl | hc
      · exact absurd hk hk'
      · exact ⟨rfl, c, hc, rfl⟩
    · rintro ⟨hd, c, hc, rfl⟩
      exact ⟨hd, c, (hmem c).mpr (Or.inr hc), rfl⟩

theorem Models.put {m : Spec δ κ} (h : Models key s l m) (d : δ) (level : Height) :
    ∃ s' l', put key s d level = some (s', 0) ∧ Models key s' l' (specStep key m (.put d level)).1 ∧ s'.frees = s.frees := by
  rcases exists_place h.sorted (key d) with ⟨a, b, rfl, hcut, hnew⟩ | ⟨a, e, b, rfl, hcut, hk⟩
  · have hne := hcut.other (hcut.strict h.sorted hnew)
    obtain ⟨s', hs', hinv, hfrees, hfreed⟩ := h.toInv.put_new hcut hnew level
    refine ⟨s', _, hs', ⟨hinv, elements_put (e := ⟨s.count, d, level⟩) hne (fun k _ d => h.elements k d), ?_⟩, hfrees⟩
    show s'.freed = if s'.frees then m.gone ++ (m.element (key d)).toList else []
    rw [h.element_none hne, Option.toList_none, List.append_nil, hfreed, hfrees]
    exact h.gone
  · have hne := hcut.other_cons h.sorted hk
    have hold : m.element (key d) = some e.data := (h.elements (key d) e.data).mpr ⟨hk, e, by simp, rfl⟩
    obtain ⟨s', hs', hinv, hfrees, hfreed⟩ := h.toInv.put_same hcut hk level
    refine ⟨s', _, hs', ⟨hinv, elements_put (e := { e with data := d }) hne ?_, ?_⟩, hfrees⟩
    · intro k hkd c
      have hupdate := elements_remove hne hk h.elements k c
      rwa [Function.update_of_ne hkd] at hupdate
    · show s'.freed = if s'.frees then m.gone ++ (m.element (key d)).toList else []
      rw [hold, hfreed, hfrees, h.gone]
      cases s.frees <;> rfl

theorem Models.remove {m : Spec δ κ} (h : Models key s l m) (k : κ) :
    ∃ s' l' n, remove key s k = some (s', n) ∧ Models key s' l' (specStep key m (.remove k)).1 ∧ s'.frees = s.frees ∧
      n = if (m.element k).isSome then 0 else 1 := by
  rcases exists_place h.sorted k with ⟨a, b, rfl, hcut, hnew⟩ | ⟨a, e, b, rfl, hcut, hk⟩
  · have hnone := h.element_none (hcut.other (hcut.strict h.sorted hnew))
    refine ⟨s, a ++ b, 1, h.toInv.remove_absent hcut hnew, ⟨h.toInv, ?_, ?_⟩, rfl, by rw [hnone]; rfl⟩
    · intro k' d
      show Function.update m.element k none k' = some d ↔ _
      rw [← hnone, Function.update_eq_self]
      exact h.elements k' d
    · show s.freed = if s.frees then m.gone ++ (m.element k).toList else []
      rw [hnone, Option.toList_none, List.append_nil]
      exact h.gone
  · have hold : m.element k = some e.data := (h.elements k e.data).mpr ⟨hk, e, by simp, rfl⟩
    obtain ⟨s', hs', hinv, hfrees, hfreed⟩ := h.toInv.remove_same hcut hk
    refine ⟨s', a ++ b, 0, hs', ⟨hinv, elements_remove (hcut.other_cons h.sorted hk) hk h.elements, ?_⟩, hfrees,
      by rw [hold]; rfl⟩
    show s'.freed = if s'.frees then m.gone ++ (m.element k).toList else []
    rw [hold, hfreed, hfrees, h.gone]
    cases s.frees <;> rfl

theorem Models.get {m : Spec δ κ} (h : Models key s l m) (k : κ) : get key s k = some (m.element k) := by
  rcases exists_place h.sorted k with ⟨a, b, rfl, hcut, hnew⟩ | ⟨a, e, b, rfl, hcut, hk⟩
  · rw [h.toInv.get_absent hcut hnew, h.element_none (hcut.other (hcut.strict h.sorted hnew))]
  · rw [h.toInv.get_same hcut hk, (h.elements k e.data).mpr ⟨hk, e, by simp, rfl⟩]

theorem Models.step {m : Spec δ κ} (h : Models key s l m) (op : Op δ κ) :
    ∃ s', step key s op = some (s', (specStep key m op).2) ∧ s'.frees = s.frees ∧ ∃ l', Models key s' l' (specStep key m op).1 := by
  cases op with
  | put d level =>
    obtain ⟨s', l', hs', hmodels, hfrees⟩ := h.put d level
    exact ⟨s', by rw [SkipList.step, hs']; rfl, hfrees, l', hmodels⟩
  | remove k =>
    obtain ⟨s', l', n, hs', hmodels, hfrees, rfl⟩ := h.remove k
    exact ⟨s', by rw [SkipList.step, hs']; rfl, hfrees, l', hmodels⟩
  | get k => exact ⟨s, by rw [SkipList.step, h.get]; rfl, rfl, l, h⟩

theorem models_alloc (frees : Bool) : Models key (alloc frees) [] (Spec.empty : Spec δ κ) :=
  ⟨inv_alloc frees, by simp [Spec.empty], by cases frees <;> rfl⟩

theorem run_models (key : δ → κ) (frees : Bool) (ops : List (Op δ κ)) :
    ∃ s l, exec (SkipList.step key) (alloc frees) ops = some (s, (specExec (specStep key) Spec.empty ops).2) ∧
      s.frees = frees ∧ Models key s l (specExec (specStep key) Spec.empty ops).1 := by
  obtain ⟨s, hs, hfrees, l, hmodels⟩ := exec_simulates
    (R := fun s m => s.frees = frees ∧ ∃ l, Models key s l m) (A := specStep key) (C := fun _ _ => True)
    (fun s m op hR _ => by
      obtain ⟨hfrees, l, hmodels⟩ := hR
      obtain ⟨s', hs', hfrees', hmodels'⟩ := hmodels.step op
      exact ⟨s', hs', hfrees'.trans hfrees, hmodels'⟩)
    ⟨rfl, [], models_alloc frees⟩ (meets_of_forall (fun _ _ => trivial) (alloc frees) ops)
  exact ⟨s, l, hs, hfrees, hmodels⟩

/-! ### The levels -/

/-- The levels of a skip list as chains of nodes. -/
structure Levels (key : δ → κ) (s : State δ) (chain : Nat → List Nat) : Prop where
  linked : ∀ level < maxHeight, Linked .node (s.link level) .head (chain level)
  sorted : ∀ level < maxHeight, (chain level).Pairwise
    (fun m n => ∃ x y, s.nodes m = some x ∧ s.nodes n = some y ∧ key x.data < key y.data)
  sub : ∀ level, level + 1 < maxHeight → (chain (level + 1)).Sublist (chain level)
  pos : 1 ≤ s.levels
  le : s.levels ≤ maxHeight
  above : ∀ level, s.levels ≤ level → chain level = []
  highest : s.levels = 1 ∨ chain (s.levels - 1) ≠ []

theorem Inv.levels (h : Inv key s l) : Levels key s (fun level => (onLevel level l).map Entry.id) where
  linked := h.links
  sorted level _ := by
    rw [List.pairwise_map]
    refine (h.sorted.sublist onLevel_sublist).imp_of_mem ?_
    intro c e hc he hlt
    obtain ⟨next, hx, -⟩ := h.stored c (mem_of_onLevel hc)
    obtain ⟨next', hy, -⟩ := h.stored e (mem_of_onLevel he)
    exact ⟨_, _, hx, hy, hlt⟩
  sub level _ := by
    apply List.Sublist.map
    apply List.monotone_filter_right
    intro e he
    have hlt := of_decide_eq_true he
    exact decide_eq_true (Nat.lt_of_succ_lt hlt)
  pos := h.pos
  le := h.le
  above level hlevel := by
    have hnil : onLevel level l = [] := by
      rw [onLevel, List.filter_eq_nil_iff]
      intro e he
      have hle := h.low e he
      simp only [decide_eq_true_eq]
      omega
    rw [hnil, List.map_nil]
  highest := by
    apply h.high.imp_right
    rintro ⟨e, he, hle⟩
    apply List.ne_nil_of_mem (a := e.id)
    apply List.mem_map_of_mem
    have hpos := h.pos
    exact List.mem_filter.mpr ⟨he, decide_eq_true (by omega)⟩

theorem Models.mem_iff {m : Spec δ κ} (h : Models key s l m) (k : κ) (d : δ) :
    m.element k = some d ↔
      key d = k ∧ ∃ n ∈ (onLevel 0 l).map Entry.id, (s.nodes n).map Node.data = some d := by
  have hall : onLevel 0 l = l := Holds.onLevel_zero (a := []) h.toHolds
  rw [h.elements, hall]
  refine and_congr_right' ?_
  constructor
  · rintro ⟨e, he, rfl⟩
    obtain ⟨next, hnode, -⟩ := h.stored e he
    exact ⟨e.id, List.mem_map_of_mem he, by rw [hnode]; rfl⟩
  · rintro ⟨n, hn, hd⟩
    obtain ⟨e, he, rfl⟩ := List.mem_map.mp hn
    obtain ⟨next, hnode, -⟩ := h.stored e he
    rw [hnode] at hd
    exact ⟨e, he, Option.some.inj hd⟩

/-- Every sequence of calls has the results that it has on a map, whatever levels the new nodes get. The chains of the
levels are strictly sorted and each is a part of the one below, the number of levels is that of the highest chain that is
not empty, and the lowest chain has the elements of the map. Its length is counted with 32 bits. What is replaced or
removed is freed, once and in this order, if there is a function for it. -/
theorem run_levels (key : δ → κ) (frees : Bool) (ops : List (Op δ κ)) :
    ∃ s chain, exec (SkipList.step key) (alloc frees) ops = some (s, (specExec (specStep key) Spec.empty ops).2) ∧
      Levels key s chain ∧ s.size = (chain 0).length % 2 ^ 32 ∧
      (∀ k d, (specExec (specStep key) Spec.empty ops).1.element k = some d ↔
        key d = k ∧ ∃ n ∈ chain 0, (s.nodes n).map Node.data = some d) ∧
      s.freed = if frees then (specExec (specStep key) Spec.empty ops).1.gone else [] := by
  obtain ⟨s, l, hs, rfl, hmodels⟩ := run_models key frees ops
  refine ⟨s, _, hs, hmodels.levels, ?_, hmodels.mem_iff, hmodels.gone⟩
  have hall : onLevel 0 l = l := Holds.onLevel_zero (a := []) hmodels.toHolds
  rw [hmodels.size, hall, List.length_map]

/-! ### The size -/

def putAll (n : Nat) : List (Op Nat Nat) := (List.range n).map (fun d => .put d ⟨1, by decide⟩)

theorem putAll_element (n k : Nat) :
    (specExec (specStep id) Spec.empty (putAll n)).1.element k = if k < n then some k else none := by
  induction n with
  | zero => rfl
  | succ n ih =>
    rw [putAll, List.range_succ, List.map_append, specExec_append]
    show Function.update (specExec (specStep id) Spec.empty (putAll n)).1.element n (some n) k = _
    by_cases hk : k = n
    · rw [hk, Function.update_self, if_pos (Nat.lt_succ_self n)]
    · rw [Function.update_of_ne hk, ih]
      split_ifs with h₁ h₂ h₂
      · rfl
      · omega
      · omega
      · rfl

/-- As many keys as were put are on the lowest level. -/
theorem putAll_length (n : Nat) : ∃ s l outs, exec (SkipList.step id) (alloc true) (putAll n) = some (s, outs) ∧
    Inv id s l ∧ l.length = n := by
  obtain ⟨s, l, hs, -, hmodels⟩ := run_models id true (putAll n)
  refine ⟨s, l, _, hs, hmodels.toInv, ?_⟩
  have hnodup : (l.map Entry.data).Nodup := List.pairwise_map.mpr (hmodels.sorted.imp (fun hlt => Nat.ne_of_lt hlt))
  have hperm : (l.map Entry.data).Perm (List.range n) := by
    refine (List.perm_ext_iff_of_nodup hnodup List.nodup_range).mpr (fun d => ?_)
    have helement := hmodels.elements d d
    rw [putAll_element] at helement
    rw [List.mem_map, List.mem_range]
    constructor
    · intro hd
      by_contra hlt
      have hsome := helement.mpr ⟨rfl, hd⟩
      rw [if_neg hlt] at hsome
      exact absurd hsome (by simp)
    · intro hlt
      exact (helement.mp (if_pos hlt)).2
  rw [← List.length_map, hperm.length_eq, List.length_range]

/-- A list of `2 ^ 32` elements has the size zero. -/
theorem size_wraps : ∃ s chain outs, exec (SkipList.step id) (alloc true) (putAll (2 ^ 32)) = some (s, outs) ∧
    Levels id s chain ∧ (chain 0).length = 2 ^ 32 ∧ s.size = 0 := by
  obtain ⟨s, l, outs, hs, hinv, hlen⟩ := putAll_length (2 ^ 32)
  have hall : onLevel 0 l = l := Holds.onLevel_zero (a := []) hinv.toHolds
  refine ⟨s, _, outs, hs, hinv.levels, ?_, ?_⟩
  · rw [hall, List.length_map, hlen]
  · rw [hinv.size, hlen, Nat.mod_self]

end RaleighSL.Zcl.SkipList
