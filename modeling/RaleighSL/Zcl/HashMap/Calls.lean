import RaleighSL.Library.Probing
import RaleighSL.Zcl.HashMap.Search

/-!
# The calls of the hash map

Every call keeps the array in order. The size exceeds the number of entries by as much as it did
before a call that does not resize the array; a resize adds the size there was, and a removal adds
one.
-/
namespace RaleighSL.Zcl.HashMap

open Library

variable {δ κ : Type*}

/-! ### Writing a slot -/

def State.write (s : State δ) (i : Nat) (node : OhtNode δ) : State δ := { s with buckets := s.buckets.set i node }

/-- What the size is above the number of entries. -/
def State.surplus (s : State δ) : UInt32 := s.size - UInt32.ofNat s.stored.length

variable {key : δ → κ} {hash : κ → UInt64} {s s' : State δ} {k : κ} {i : Nat} {node old : OhtNode δ} {d : δ}

theorem table_write (hi : i < s.buckets.length) : (s.write i node).table = Function.update s.table i node.data := by
  funext j
  by_cases hj : j = i
  · subst hj
    rw [Function.update_self, State.table, State.write, List.getElem?_set_self hi, Option.bind_some]
  · rw [Function.update_of_ne hj, State.table, State.write, List.getElem?_set_ne (Ne.symm hj)]
    rfl

theorem Inv.write (h : Inv key hash s) (hsome : ∀ d, node.data = some d → node.hash = hash (key d))
    (hnone : node.data = none → node.hash = 0) : Inv key hash (s.write i node) where
  length := by
    rw [State.write, List.length_set]
    exact h.length
  hashed j n d hj hd := by
    rw [State.write, List.getElem?_set] at hj
    split_ifs at hj
    · obtain rfl := Option.some.inj hj
      exact hsome d hd
    · exact h.hashed j n d hj hd
  blank j n hj hd := by
    rw [State.write, List.getElem?_set] at hj
    split_ifs at hj
    · obtain rfl := Option.some.inj hj
      exact hnone hd
    · exact h.blank j n hj hd

theorem mem_stored : d ∈ s.stored ↔ ∃ i, s.table i = some d := by
  rw [State.stored, List.mem_filterMap]
  constructor
  · rintro ⟨node, hmem, hd⟩
    obtain ⟨i, hi⟩ := List.mem_iff_getElem?.mp hmem
    exact ⟨i, by rw [table_eq hi, hd]⟩
  · rintro ⟨i, hi⟩
    obtain ⟨node, hnode, hd⟩ := Option.bind_eq_some_iff.mp hi
    exact ⟨node, List.mem_of_getElem? hnode, hd⟩

theorem length_stored : s.stored.length = s.buckets.countP (fun node => node.data.isSome) :=
  List.length_filterMap_eq_countP ..

theorem length_stored_write (node : OhtNode δ) (hi : s.buckets[i]? = some old) :
    (s.write i node).stored.length + (if old.data.isSome then 1 else 0) =
      s.stored.length + if node.data.isSome then 1 else 0 := by
  obtain ⟨hlt, hget⟩ := List.getElem?_eq_some_iff.mp hi
  rw [length_stored, length_stored, State.write, List.countP_set hlt, hget]
  have hle : (if old.data.isSome then 1 else 0) ≤ s.buckets.countP (fun node => node.data.isSome) := by
    split_ifs with hsome
    · exact List.countP_pos_iff.mpr ⟨old, List.mem_of_getElem? hi, hsome⟩
    · exact Nat.zero_le _
  omega

theorem surplus_eq {t : State δ} {n : Nat} (hlen : t.stored.length = s.stored.length + n)
    (hsize : t.size = s.size + UInt32.ofNat n) : t.surplus = s.surplus := by
  rw [State.surplus, State.surplus, hlen, hsize, UInt32.ofNat_add]
  grind

theorem surplus_write_zero (hi : s.table i = some d) : (s.write i OhtNode.zero).surplus = s.surplus + 1 := by
  obtain ⟨node, hnode, hdata⟩ := Option.bind_eq_some_iff.mp hi
  have hlen := length_stored_write OhtNode.zero hnode
  rw [hdata] at hlen
  have hlen' : (s.write i OhtNode.zero).stored.length + 1 = s.stored.length := hlen
  rw [State.surplus, State.surplus, ← hlen', UInt32.ofNat_add]
  show s.size - _ = _
  grind

variable [DecidableEq κ]

theorem holds_iff : s.holds key k i = true ↔ ∃ d, s.table i = some d ∧ key d = k := by
  simp [State.holds, Option.any_eq_true]

theorem isEmpty_iff : s.isEmpty i = true ↔ s.table i = none := by simp [State.isEmpty]

/-! ### Putting into the array -/

theorem place_true {slots : List Nat} (h : s.place key k none slots = (some i, true)) : i ∈ slots ∧ s.holds key k i = true := by
  cases hfind : slots.find? (s.holds key k) with
  | none => simp [State.place, hfind] at h
  | some j =>
    simp only [State.place, hfind, Prod.mk.injEq, Option.some.injEq, and_true] at h
    exact h ▸ ⟨List.mem_of_find?_eq_some hfind, List.find?_some hfind⟩

theorem place_false {slots : List Nat} (h : s.place key k none slots = (some i, false)) :
    i ∈ slots ∧ s.isEmpty i = true ∧ ∀ j ∈ slots, s.holds key k j = false := by
  cases hfind : slots.find? (s.holds key k) with
  | none =>
    simp only [State.place, hfind, Option.none_or, Prod.mk.injEq, and_true] at h
    exact ⟨List.mem_of_find?_eq_some h, List.find?_some h, by simpa using hfind⟩
  | some j => simp [State.place, hfind] at h

variable [DecidableEq δ]

/-- What `__open_hash_map_put` does at a place. -/
def State.putAt (s : State δ) (hash : UInt64) (d : δ) : Option Nat × Bool → State δ × List δ × Nat
  | (some i, true) => (s.write i ⟨hash, some d⟩, if s.table i = some d then [] else s.free (s.table i).toList, 0)
  | (some i, false) => ({ s.write i ⟨hash, some d⟩ with size := s.size + 1 }, [], 0)
  | (none, _) => (s, [], 1)

theorem Inv.openPut (h : Inv key hash s) (hcap : s.capacity ≠ 0) (d : δ) :
    openPut key s (hash (key d)) d =
      if hash (key d) = 0 ∧ 1 < s.blanks key (key d) (probe s.capacity (hash (key d))) then none
      else some (s.putAt (hash (key d)) d (s.place key (key d) none (probe s.capacity (hash (key d))))) := by
  have hslots : ∀ i ∈ probe s.capacity (hash (key d)), i < s.buckets.length := by
    rw [h.length]
    exact probe_lt hcap _
  rw [HashMap.openPut, h.placeIn none hslots]
  simp only [Option.isSome_none, Bool.false_eq_true, if_false, Nat.add_zero]
  split_ifs with hblank
  · rfl
  · rw [Option.bind_some]
    rcases hplace : s.place key (key d) none (probe s.capacity (hash (key d))) with ⟨_ | i, b⟩
    · rfl
    · cases b with
      | true =>
        obtain ⟨-, hholds⟩ := place_true hplace
        obtain ⟨e, he, hk⟩ := holds_iff.mp hholds
        obtain ⟨node, hnode, hdata⟩ := Option.bind_eq_some_iff.mp he
        have hhash : node.hash = hash (key d) := by rw [h.hashed i node e hnode hdata, hk]
        dsimp only
        rw [hnode, Option.map_some, State.putAt, he, State.write, hdata, hhash]
      | false =>
        obtain ⟨hi, -⟩ := place_false hplace
        exact if_pos (hslots i hi)

theorem Inv.putAt (h : Inv key hash s) (d : δ) {p : Option Nat × Bool} {slots : List Nat}
    (hslots : ∀ i ∈ slots, i < s.buckets.length) (hp : s.place key (key d) none slots = p) :
    Inv key hash (s.putAt (hash (key d)) d p).1 ∧ (s.putAt (hash (key d)) d p).1.surplus = s.surplus ∧
      (s.putAt (hash (key d)) d p).1.capacity = s.capacity ∧ (s.putAt (hash (key d)) d p).1.frees = s.frees := by
  obtain ⟨_ | i, b⟩ := p
  · exact ⟨h, rfl, rfl, rfl⟩
  · have hinv : Inv key hash (s.write i ⟨hash (key d), some d⟩) := by
      refine h.write ?_ (by simp)
      rintro e ⟨⟩
      rfl
    cases b with
    | true =>
      obtain ⟨e, he, -⟩ := holds_iff.mp (place_true hp).2
      obtain ⟨node, hnode, hdata⟩ := Option.bind_eq_some_iff.mp he
      have hlen := length_stored_write ⟨hash (key d), some d⟩ hnode
      rw [hdata] at hlen
      refine ⟨hinv, surplus_eq (n := 0) ?_ (UInt32.add_zero _).symm, rfl, rfl⟩
      exact Nat.add_right_cancel hlen
    | false =>
      obtain ⟨hi, hempty, -⟩ := place_false hp
      have hnode := List.getElem?_eq_getElem (hslots i hi)
      have hlen := length_stored_write ⟨hash (key d), some d⟩ hnode
      rw [← table_eq hnode, isEmpty_iff.mp hempty] at hlen
      refine ⟨⟨hinv.length, hinv.hashed, hinv.blank⟩, surplus_eq (n := 1) ?_ rfl, rfl, rfl⟩
      exact hlen

theorem Inv.openPut_zero (h : Inv key hash s) (hcap : s.capacity = 0) (hh : UInt64) (d : δ) :
    HashMap.openPut key s hh d = none := by
  have hnil : s.buckets = [] := List.length_eq_zero_iff.mp (by rw [h.length, hcap]; rfl)
  rw [HashMap.openPut, probe, State.placeIn, hnil, List.getElem?_nil]
  rfl

theorem Inv.of_openPut (h : Inv key hash s) {r : State δ × List δ × Nat}
    (hr : HashMap.openPut key s (hash (key d)) d = some r) :
    Inv key hash r.1 ∧ r.1.surplus = s.surplus ∧ r.1.capacity = s.capacity ∧ r.1.frees = s.frees := by
  by_cases hcap : s.capacity = 0
  · rw [h.openPut_zero hcap] at hr
    simp at hr
  · rw [h.openPut hcap] at hr
    split_ifs at hr
    obtain rfl := Option.some.inj hr
    refine h.putAt d ?_ rfl
    rw [h.length]
    exact probe_lt hcap _

/-! ### Resizing -/

/-- The entries of the old array, with their hashes. -/
theorem Inv.of_reinsert {nodes : List (OhtNode δ)} (hnodes : ∀ node ∈ nodes, ∀ d, node.data = some d → node.hash = hash (key d))
    (h : Inv key hash s) {r : State δ × List δ} (hr : reinsert key s nodes = some r) :
    Inv key hash r.1 ∧ r.1.surplus = s.surplus ∧ r.1.frees = s.frees := by
  induction nodes generalizing s r with
  | nil =>
    obtain rfl := Option.some.inj hr
    exact ⟨h, rfl, rfl⟩
  | cons node nodes ih =>
    obtain ⟨hnode, hnodes⟩ := List.forall_mem_cons.mp hnodes
    rw [reinsert] at hr
    cases hdata : node.data with
    | none =>
      rw [hdata] at hr
      exact ih hnodes h hr
    | some d =>
      rw [hdata] at hr
      dsimp only at hr
      rw [hnode d hdata, Option.bind_eq_some_iff] at hr
      obtain ⟨q, hq, hr⟩ := hr
      obtain ⟨r', hr', rfl⟩ := Option.map_eq_some_iff.mp hr
      obtain ⟨hinv, hsurplus, -, hfrees⟩ := h.of_openPut hq
      obtain ⟨hinv', hsurplus', hfrees'⟩ := ih hnodes hinv hr'
      exact ⟨hinv', hsurplus'.trans hsurplus, hfrees'.trans hfrees⟩

omit [DecidableEq κ] [DecidableEq δ] in
/-- A new array without entries. -/
theorem inv_replicate (key : δ → κ) (hash : κ → UInt64) (s : State δ) {n : UInt32}
    (hbuckets : s.buckets = List.replicate n.toNat OhtNode.zero) (hcap : s.capacity = n) :
    Inv key hash s ∧ s.stored = [] := by
  have hzero (i : Nat) (node : OhtNode δ) (hi : s.buckets[i]? = some node) : node = OhtNode.zero := by
    rw [hbuckets] at hi
    exact List.eq_of_mem_replicate (List.mem_of_getElem? hi)
  refine ⟨⟨by rw [hbuckets, hcap, List.length_replicate], ?_, ?_⟩, ?_⟩
  · intro i node d hi hd
    rw [hzero i node hi] at hd
    simp [OhtNode.zero] at hd
  · intro i node hi _
    rw [hzero i node hi]
    rfl
  · rw [State.stored, hbuckets, List.filterMap_eq_nil_iff]
    intro node hnode
    rw [List.eq_of_mem_replicate hnode]
    rfl

/-- After a resize the size exceeds the number of entries by what it was. -/
theorem Inv.of_resize (h : Inv key hash s) {capacity : UInt32} {r : State δ × List δ} (hr : resize key s capacity = some r) :
    Inv key hash r.1 ∧ r.1.surplus = s.size ∧ r.1.frees = s.frees := by
  obtain ⟨hinv, hnil⟩ := inv_replicate key hash
    { s with buckets := List.replicate capacity.toNat OhtNode.zero, capacity := capacity } rfl rfl
  have hnodes : ∀ node ∈ s.buckets.reverse, ∀ d, node.data = some d → node.hash = hash (key d) := by
    intro node hnode d hd
    obtain ⟨i, hi⟩ := List.mem_iff_getElem?.mp (List.mem_reverse.mp hnode)
    exact h.hashed i node d hi hd
  obtain ⟨hinv', hsurplus, hfrees⟩ := hinv.of_reinsert hnodes hr
  refine ⟨hinv', ?_, hfrees⟩
  rw [hsurplus, State.surplus, hnil]
  exact UInt32.sub_zero s.size

/-! ### Looking up and removing -/

omit [DecidableEq δ] in
theorem Inv.lookup (h : Inv key hash s) (hcap : s.capacity ≠ 0) (k : κ) : s.lookup key (hash k) k =
    if hash k = 0 ∧ 0 < s.blanks key k (probe s.capacity (hash k)) then none
    else some ((probe s.capacity (hash k)).find? (s.holds key k)) := by
  apply h.lookupIn
  rw [h.length]
  exact probe_lt hcap _

omit [DecidableEq δ] in
theorem Inv.lookup_zero (h : Inv key hash s) (hcap : s.capacity = 0) (k : κ) : s.lookup key (hash k) k = none := by
  have hnil : s.buckets = [] := List.length_eq_zero_iff.mp (by rw [h.length, hcap]; rfl)
  rw [State.lookup, probe, State.lookupIn, hnil, List.getElem?_nil]
  rfl

omit [DecidableEq δ] in
theorem Inv.lookup_some (h : Inv key hash s) {i : Nat} (hi : s.lookup key (hash k) k = some (some i)) :
    ∃ d, s.table i = some d ∧ key d = k := by
  by_cases hcap : s.capacity = 0
  · rw [h.lookup_zero hcap] at hi
    simp at hi
  · rw [h.lookup hcap] at hi
    split_ifs at hi
    exact holds_iff.mp (List.find?_some (Option.some.inj hi))

omit [DecidableEq δ] in
/-- A removal empties the slot of the entry, and does not count. -/
theorem Inv.of_openPop (h : Inv key hash s) {r : State δ × Option δ} (hr : openPop key s (hash k) k = some r) :
    Inv key hash r.1 ∧ r.1.surplus = s.surplus + 1 ∧ r.1.frees = s.frees := by
  rw [openPop, Option.bind_eq_some_iff] at hr
  obtain ⟨slot, hslot, hr⟩ := hr
  obtain ⟨i, rfl, hr⟩ := Option.bind_eq_some_iff.mp hr
  obtain ⟨node, -, rfl⟩ := Option.map_eq_some_iff.mp hr
  obtain ⟨d, hd, -⟩ := h.lookup_some hslot
  exact ⟨h.write (by simp [OhtNode.zero]) (fun _ => rfl), surplus_write_zero hd, rfl⟩

/-! ### All calls -/

theorem Inv.of_put (h : Inv key hash s) {r : State δ × List δ × Nat} (hr : put key hash s d = some r) :
    Inv key hash r.1 ∧ r.1.frees = s.frees := by
  rw [put, Option.bind_eq_some_iff] at hr
  obtain ⟨q, hq, hr⟩ := hr
  obtain ⟨hinv, -, -, hfrees⟩ := h.of_openPut hq
  split_ifs at hr with hfull
  · obtain ⟨p, hp, hr⟩ := Option.bind_eq_some_iff.mp hr
    obtain ⟨o, ho, rfl⟩ := Option.map_eq_some_iff.mp hr
    obtain ⟨hinv', -, hfrees'⟩ := hinv.of_resize hp
    obtain ⟨hinv'', -, -, hfrees''⟩ := hinv'.of_openPut ho
    exact ⟨hinv'', hfrees''.trans (hfrees'.trans hfrees)⟩
  · obtain rfl := Option.some.inj hr
    exact ⟨hinv, hfrees⟩

theorem Inv.step (h : Inv key hash s) {op : Op δ κ} {r : State δ × Result δ × List δ} (hr : step key hash s op = some r) :
    Inv key hash r.1 ∧ r.1.frees = s.frees := by
  cases op with
  | put d =>
    obtain ⟨q, hq, rfl⟩ := Option.map_eq_some_iff.mp hr
    exact h.of_put hq
  | get k =>
    obtain ⟨q, -, rfl⟩ := Option.map_eq_some_iff.mp hr
    exact ⟨h, rfl⟩
  | pop k =>
    obtain ⟨q, hq, rfl⟩ := Option.map_eq_some_iff.mp hr
    obtain ⟨hinv, -, hfrees⟩ := h.of_openPop hq
    exact ⟨hinv, hfrees⟩
  | remove k =>
    obtain ⟨q, hq, rfl⟩ := Option.map_eq_some_iff.mp hr
    obtain ⟨o, ho, rfl⟩ := Option.map_eq_some_iff.mp hq
    obtain ⟨hinv, -, hfrees⟩ := h.of_openPop ho
    cases o.2 <;> exact ⟨hinv, hfrees⟩

end RaleighSL.Zcl.HashMap
