import RaleighSL.Zcl.HashMap.Calls

/-!
# Runs of the hash map

A put that finds a place and a get do what they do on a finite map. A removal leaves the size as it
is, a resize counts the entries again, and a key whose hash is that of the empty slots may be
compared with one of them.
-/
namespace RaleighSL.Zcl.HashMap

open Library

variable {δ κ : Type*}

/-! ### The table -/

/-- The entries are those of a finite map, no key is stored twice, and the size is the number of entries. -/
structure Stores (key : δ → κ) (s : State δ) (m : κ → Option δ) : Prop where
  nodup : (s.stored.map key).Nodup
  size : s.size.toNat = s.stored.length
  elements : ∀ k d, m k = some d ↔ key d = k ∧ d ∈ s.stored

variable (key : δ → κ) (hash : κ → UInt64)

def State.slots (s : State δ) (k : κ) : List Nat := probe s.capacity (hash k)

/-- The array is in order and holds the elements of the map in the slots of their keys. -/
structure Models (frees : Bool) (s : State δ) (m : κ → Option δ) : Prop extends Inv key hash s where
  probed : Probed key (fun k i => i ∈ s.slots hash k) s.table m
  balanced : s.surplus = 0
  frees : s.frees = frees

variable {key} {hash} {frees : Bool} {s s' : State δ} {m : κ → Option δ} {k : κ} {d : δ} {i : Nat}

theorem length_stored_le (s : State δ) : s.stored.length ≤ s.buckets.length := List.length_filterMap_le ..

theorem Inv.size_eq (h : Inv key hash s) (hsurplus : s.surplus = 0) : s.size.toNat = s.stored.length := by
  have hlt : s.stored.length < 2 ^ 32 := by
    have hle := length_stored_le s
    have hcap := s.capacity.toNat_lt
    rw [h.length] at hle
    omega
  have hsize : s.size = UInt32.ofNat s.stored.length := by
    rw [State.surplus] at hsurplus
    grind
  rw [hsize, UInt32.toNat_ofNat_of_lt' hlt]

theorem Stores.balanced (h : Stores key s m) : s.surplus = 0 := by
  rw [State.surplus, ← h.size, UInt32.ofNat_toNat]
  exact UInt32.sub_self s.size

theorem Models.stores (h : Models key hash frees s m) : Stores key s m where
  nodup := by
    rw [List.nodup_iff_pairwise_ne, List.pairwise_map, State.stored, List.pairwise_filterMap, List.pairwise_iff_getElem]
    intro i j hi hj hij d hd e he hkey
    have hid := (table_eq (List.getElem?_eq_getElem hi)).trans hd
    have hje := (table_eq (List.getElem?_eq_getElem hj)).trans he
    exact absurd (h.probed.unique i j d e hid hje hkey) (Nat.ne_of_lt hij)
  size := h.toInv.size_eq h.balanced
  elements k d := by rw [h.probed.elements, mem_stored]

theorem models_alloc (frees : Bool) (capacity : UInt32) :
    Models key hash frees (alloc δ frees capacity 0) (fun _ => none) := by
  obtain ⟨hinv, hnil⟩ := inv_replicate key hash (alloc δ frees capacity 0) rfl rfl
  have htable : (alloc δ frees capacity 0).table = fun _ => none := by
    funext i
    rw [Option.eq_none_iff_forall_ne_some]
    intro d hd
    have hmem := mem_stored.mpr ⟨i, hd⟩
    rw [hnil] at hmem
    exact absurd hmem List.not_mem_nil
  refine ⟨hinv, ?_, ?_, rfl⟩
  · rw [htable]
    exact probed_empty
  · rw [State.surplus, hnil]
    show (0 : UInt32) - UInt32.ofNat 0 = 0
    decide

variable [DecidableEq κ]

theorem Models.absent (h : Models key hash frees s m) (hnone : ∀ i ∈ s.slots hash k, s.holds key k i = false) : m k = none := by
  rw [h.probed.absent_iff]
  rintro i d hi rfl
  have hholds : s.holds key (key d) i = true := holds_iff.mpr ⟨d, hi, rfl⟩
  rw [hnone i (h.probed.placed i d hi)] at hholds
  exact absurd hholds (by simp)

theorem Models.get (h : Models key hash frees s m) (hcap : s.capacity ≠ 0)
    (hclear : hash k = 0 → s.blanks key k (s.slots hash k) = 0) : get key hash s k = some (m k) := by
  have hlookup : s.lookup key (hash k) k = some ((s.slots hash k).find? (s.holds key k)) := by
    rw [h.lookup hcap, if_neg]
    · rfl
    · rintro ⟨hzero, hpos⟩
      exact absurd (hclear hzero) (Nat.ne_of_gt hpos)
  rw [HashMap.get, hlookup, Option.bind_some]
  cases hfind : (s.slots hash k).find? (s.holds key k) with
  | none =>
    rw [h.absent (by simpa using hfind)]
  | some i =>
    obtain ⟨d, hd, rfl⟩ := holds_iff.mp (List.find?_some hfind)
    obtain ⟨node, hnode, hdata⟩ := Option.bind_eq_some_iff.mp hd
    dsimp only
    rw [hnode, Option.map_some, hdata, h.probed.present hd]

/-- There is a place if a slot is empty or has the key. -/
theorem place_isSome_iff : (s.place key k none (s.slots hash k)).1.isSome = true ↔
    ∃ i ∈ s.slots hash k, s.isEmpty i = true ∨ s.holds key k i = true := by
  cases hfind : (s.slots hash k).find? (s.holds key k) with
  | some i =>
    refine iff_of_true (by simp [State.place, hfind]) ?_
    exact ⟨i, List.mem_of_find?_eq_some hfind, Or.inr (List.find?_some hfind)⟩
  | none =>
    have hnone : ∀ i ∈ s.slots hash k, ¬ s.holds key k i = true := by simpa using hfind
    simp only [State.place, hfind, Option.none_or, List.find?_isSome]
    constructor
    · rintro ⟨i, hi, hempty⟩
      exact ⟨i, hi, Or.inl hempty⟩
    · rintro ⟨i, hi, hempty | hholds⟩
      · exact ⟨i, hi, hempty⟩
      · exact absurd hholds (hnone i hi)

/-- The first slot of a key without a place has an entry. -/
theorem Models.size_ne_zero (h : Models key hash frees s m)
    (hfull : ¬ ∃ i ∈ s.slots hash k, s.isEmpty i = true ∨ s.holds key k i = true) : s.size ≠ 0 := by
  intro hzero
  have hlen := h.toInv.size_eq h.balanced
  rw [hzero] at hlen
  have hnil : s.stored = [] := List.length_eq_zero_iff.mp hlen.symm
  apply hfull
  refine ⟨_, List.mem_cons_self, Or.inl (isEmpty_iff.mpr ?_)⟩
  rw [Option.eq_none_iff_forall_ne_some]
  intro d hd
  have hmem := mem_stored.mpr ⟨_, hd⟩
  rw [hnil] at hmem
  exact absurd hmem List.not_mem_nil

theorem Models.pop_bad (h : Models key hash frees s m) {r : State δ × Option δ} (hr : openPop key s (hash k) k = some r) :
    r.1.surplus ≠ 0 := by
  rw [(h.toInv.of_openPop hr).2.1, h.balanced]
  decide

/-! ### The calls that keep the table right -/

variable (key) (hash) in
/-- The calls that keep the table right: a put that finds a place in the array, and a get, if they do not compare the key
with an empty slot. -/
def Fine (s : State δ) : Op δ κ → Prop
  | .put d => s.capacity ≠ 0 ∧ (hash (key d) = 0 → s.blanks key (key d) (s.slots hash (key d)) ≤ 1) ∧
      ∃ i ∈ s.slots hash (key d), s.isEmpty i = true ∨ s.holds key (key d) i = true
  | .get k => s.capacity ≠ 0 ∧ (hash k = 0 → s.blanks key k (s.slots hash k) = 0)
  | .pop _ => False
  | .remove _ => False

instance decidableFine (s : State δ) (op : Op δ κ) : Decidable (Fine key hash s op) := by
  cases op <;> (unfold Fine; infer_instance)

theorem Models.get_bad (h : Models key hash frees s m) (hbad : ¬ Fine key hash s (.get k : Op δ κ)) :
    HashMap.get key hash s k = none := by
  rw [HashMap.get]
  by_cases hcap : s.capacity = 0
  · rw [h.lookup_zero hcap]
    rfl
  · have hblank : hash k = 0 ∧ 0 < s.blanks key k (s.slots hash k) := by
      by_contra hne
      refine hbad ⟨hcap, fun hzero => ?_⟩
      by_contra hpos
      exact hne ⟨hzero, Nat.pos_of_ne_zero hpos⟩
    have hnone : s.lookup key (hash k) k = none := by
      rw [h.lookup hcap]
      exact if_pos hblank
    rw [hnone]
    rfl

/-! ### The finite map -/

variable [DecidableEq δ]

/-- What each call does to a finite map, what it returns and what it frees. -/
def specStep (key : δ → κ) (frees : Bool) (m : κ → Option δ) : Op δ κ → (κ → Option δ) × Result δ × List δ
  | .put d => (Function.update m (key d) (some d), .status 0,
      if m (key d) = some d then [] else if frees then (m (key d)).toList else [])
  | .get k => (m, .data (m k), [])
  | .pop k => (Function.update m k none, .data (m k), [])
  | .remove k => (Function.update m k none, .status (if (m k).isSome then 0 else 1), if frees then (m k).toList else [])

/-! ### A put with a place -/

/-- A put into the array when there is a place. -/
theorem Models.putAt (h : Models key hash frees s m) (hcap : s.capacity ≠ 0) {b : Bool}
    (hplace : s.place key (key d) none (s.slots hash (key d)) = (some i, b)) :
    ∃ s', s.putAt (hash (key d)) d (some i, b) = (s', (specStep key frees m (.put d)).2.2, 0) ∧
      Models key hash frees s' (Function.update m (key d) (some d)) := by
  have hslots : ∀ i ∈ s.slots hash (key d), i < s.buckets.length := by
    rw [h.length]
    exact probe_lt hcap _
  obtain ⟨hinv, hsurplus, hcapacity, hfrees⟩ := h.toInv.putAt d hslots hplace
  cases b with
  | true =>
    obtain ⟨hi, hholds⟩ := place_true hplace
    obtain ⟨e, he, hk⟩ := holds_iff.mp hholds
    have hold : m (key d) = some e := hk ▸ h.probed.present he
    refine ⟨_, ?_, ⟨hinv, ?_, hsurplus.trans h.balanced, hfrees.trans h.frees⟩⟩
    · rw [State.putAt, he, specStep, hold, State.free, h.frees]
    · show Probed key (fun k i => i ∈ s.slots hash k) (s.write i ⟨hash (key d), some d⟩).table _
      rw [table_write (hslots i hi)]
      apply h.probed.set
      · intro c hc
        obtain rfl := Option.some.inj (he.symm.trans hc)
        exact hk
      · intro j c hc hck
        exact h.probed.unique j i c e hc he (hck.trans hk.symm)
      · rintro c ⟨⟩
        exact ⟨rfl, hi⟩
  | false =>
    obtain ⟨hi, hempty, hnone⟩ := place_false hplace
    have hold : m (key d) = none := h.absent hnone
    rw [isEmpty_iff] at hempty
    refine ⟨_, ?_, ⟨hinv, ?_, hsurplus.trans h.balanced, hfrees.trans h.frees⟩⟩
    · rw [State.putAt, specStep, hold]
      simp
    · show Probed key (fun k i => i ∈ s.slots hash k) (s.write i ⟨hash (key d), some d⟩).table _
      rw [table_write (hslots i hi)]
      apply h.probed.set
      · intro c hc
        rw [hempty] at hc
        simp at hc
      · intro j c hc hck
        exact absurd hck ((h.probed.absent_iff (key d)).mp hold j c hc)
      · rintro c ⟨⟩
        exact ⟨rfl, hi⟩

theorem Models.put (h : Models key hash frees s m) (hfine : Fine key hash s (.put d)) :
    ∃ s', put key hash s d = some (s', (specStep key frees m (.put d)).2.2, 0) ∧
      Models key hash frees s' (Function.update m (key d) (some d)) := by
  obtain ⟨hcap, hclear, hroom⟩ := hfine
  rcases hplace : s.place key (key d) none (s.slots hash (key d)) with ⟨_ | i, b⟩
  · have hsome := place_isSome_iff.mpr hroom
    rw [hplace] at hsome
    simp at hsome
  · obtain ⟨s', hs', hmodels⟩ := h.putAt hcap hplace
    refine ⟨s', ?_, hmodels⟩
    have hopen : openPut key s (hash (key d)) d = some (s', (specStep key frees m (.put d)).2.2, 0) := by
      rw [← hs', ← hplace, h.openPut hcap, if_neg]
      · rfl
      · rintro ⟨hzero, hlt⟩
        exact absurd (hclear hzero) (Nat.not_le.mpr hlt)
    rw [HashMap.put, hopen]
    rfl

theorem Models.step (h : Models key hash frees s m) (op : Op δ κ) (hfine : Fine key hash s op) :
    ∃ s', step key hash s op = some (s', (specStep key frees m op).2) ∧
      Models key hash frees s' (specStep key frees m op).1 := by
  cases op with
  | put d =>
    obtain ⟨s', hs', hmodels⟩ := h.put hfine
    exact ⟨s', by rw [HashMap.step, hs']; rfl, hmodels⟩
  | get k => exact ⟨s, by rw [HashMap.step, h.get hfine.1 hfine.2]; rfl, h⟩
  | pop k => exact hfine.elim
  | remove k => exact hfine.elim

/-! ### A put without a place -/

/-- A put that resizes the array leaves a size that is too large. -/
theorem Inv.put_full (h : Inv key hash s) (hcap : s.capacity ≠ 0) {r : State δ × List δ × Nat}
    (hfull : (s.place key (key d) none (s.slots hash (key d))).1 = none) (hr : put key hash s d = some r) :
    r.1.surplus = s.size := by
  rw [HashMap.put, h.openPut hcap] at hr
  split_ifs at hr
  · simp at hr
  · rw [Option.bind_some] at hr
    rcases hplace : s.place key (key d) none (s.slots hash (key d)) with ⟨_ | i, b⟩
    · change s.place key (key d) none (probe s.capacity (hash (key d))) = _ at hplace
      rw [hplace] at hr
      obtain ⟨q, hq, hr⟩ := Option.bind_eq_some_iff.mp hr
      obtain ⟨p, hp, rfl⟩ := Option.map_eq_some_iff.mp hr
      obtain ⟨hinv, hsurplus, -⟩ := h.of_resize hq
      exact (hinv.of_openPut hp).2.1.trans hsurplus
    · rw [hplace] at hfull
      simp at hfull

theorem Models.put_bad (h : Models key hash frees s m) (hbad : ¬ Fine key hash s (.put d)) {r : State δ × List δ × Nat}
    (hr : HashMap.put key hash s d = some r) : r.1.surplus ≠ 0 := by
  have hcap : s.capacity ≠ 0 := by
    intro hcap
    rw [HashMap.put, h.openPut_zero hcap] at hr
    simp at hr
  have hclear : hash (key d) = 0 → s.blanks key (key d) (s.slots hash (key d)) ≤ 1 := by
    intro hzero
    by_contra hlt
    rw [HashMap.put, h.openPut hcap, if_pos ⟨hzero, Nat.not_le.mp hlt⟩] at hr
    simp at hr
  have hfull : ¬ ∃ i ∈ s.slots hash (key d), s.isEmpty i = true ∨ s.holds key (key d) i = true :=
    fun hroom => hbad ⟨hcap, hclear, hroom⟩
  have hplace : (s.place key (key d) none (s.slots hash (key d))).1 = none := by
    rw [← place_isSome_iff] at hfull
    simpa using hfull
  rw [h.toInv.put_full hcap hplace hr]
  exact h.size_ne_zero hfull

theorem Models.step_bad (h : Models key hash frees s m) {op : Op δ κ} (hbad : ¬ Fine key hash s op)
    {r : State δ × Result δ × List δ} (hr : HashMap.step key hash s op = some r) : r.1.surplus ≠ 0 := by
  cases op with
  | put d =>
    obtain ⟨q, hq, rfl⟩ := Option.map_eq_some_iff.mp hr
    exact h.put_bad hbad hq
  | get k =>
    rw [HashMap.step, h.get_bad hbad] at hr
    simp at hr
  | pop k =>
    obtain ⟨q, hq, rfl⟩ := Option.map_eq_some_iff.mp hr
    exact h.pop_bad hq
  | remove k =>
    obtain ⟨q, hq, rfl⟩ := Option.map_eq_some_iff.mp hr
    obtain ⟨o, ho, rfl⟩ := Option.map_eq_some_iff.mp hq
    have hsurplus := h.pop_bad ho
    cases o.2 <;> exact hsurplus

/-! ### Runs -/

/-- A hash map behaves as a finite map through a run exactly when its size was zero in the memory that it was made in, it
has a slot, nothing is removed, no put resizes the array, and no key whose hash is zero is compared with an empty slot. -/
theorem tracks_iff (key : δ → κ) (hash : κ → UInt64) (frees : Bool) (capacity size : UInt32) (ops : List (Op δ κ)) :
    Tracks (HashMap.step key hash) (specStep key frees) (Stores key) (alloc δ frees capacity size) (fun _ => none) ops ↔
      size = 0 ∧ Meets (HashMap.step key hash) (Fine key hash) (alloc δ frees capacity size) ops := by
  by_cases hsize : size = 0
  · subst hsize
    rw [and_iff_right rfl]
    refine tracks_iff_meets (R := Models key hash frees) (fun s m h => h.stores) (fun s m op h hfine => h.step op hfine)
      ?_ (models_alloc frees capacity)
    intro s m op s' h hbad hs hstores
    exact h.step_bad hbad hs hstores.balanced
  · refine iff_of_false ?_ (fun h => hsize h.1)
    intro h
    obtain ⟨s, hs, hstores⟩ := h [] (List.nil_prefix)
    obtain ⟨rfl, -⟩ := Prod.mk.inj (Option.some.inj hs)
    have hlen := hstores.size
    rw [(inv_replicate key hash (alloc δ frees capacity size) rfl rfl).2] at hlen
    exact hsize (UInt32.toNat_inj.mp hlen)

/-- After the only entry was removed the size is one, and the removal of a key that is not there has no result. -/
theorem removal_keeps_size :
    ¬ Tracks (HashMap.step id UInt64.ofNat) (specStep id true) (Stores id) (alloc Nat true 16 0) (fun _ => none)
      [.put 5, .remove 5] ∧
    exec (HashMap.step id UInt64.ofNat) (alloc Nat true 16 0) [.put 5, .remove 7] = none := by
  refine ⟨?_, by decide +kernel⟩
  intro h
  obtain ⟨s, hs, hstores⟩ := h _ (List.prefix_refl _)
  have hfacts : (exec (HashMap.step id UInt64.ofNat) (alloc Nat true 16 0) [.put 5, .remove 5]).map
      (fun r => (r.1.size.toNat, r.1.stored)) = some (1, []) := by
    decide +kernel
  rw [hs, Option.map_some, Option.some.injEq, Prod.mk.injEq] at hfacts
  have hlen := hstores.size
  rw [hfacts.1, hfacts.2] at hlen
  exact absurd hlen (by simp)

end RaleighSL.Zcl.HashMap
