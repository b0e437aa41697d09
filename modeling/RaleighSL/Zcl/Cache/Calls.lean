import RaleighSL.Zcl.Cache.Reclaim

/-!
# The calls of the cache

Each call keeps the books. An entry must not be inserted while there is an older one for its
object, for the new entry would come into a list of the policy without being in the table,
and an entry must be held by someone when it is removed, for it is written to afterwards.
-/
namespace RaleighSL.Zcl.Cache

open Library
open scoped List

variable {ε κ : Type*} [DecidableEq ε] {hash : κ → Nat} {s s' : State ε κ} {e : ε} {q : Queue}

/-- The books between two calls, with the bound on the entries that are about to go. -/
structure Inv (hash : κ → Nat) (s : State ε κ) : Prop where
  good : Good hash s
  out : (s.lists .a1out).length ≤ s.kout

/-! ### References -/

theorem Core.acquire (h : Core hash none s) (he : e ∈ s.table.entries) (hroom : s.refs e + 1 < 2 ^ 32) :
    Core hash none { s with
      refs := Function.update s.refs e (inc (s.refs e))
      held := Function.update s.held e (s.held e + 1) } := by
  refine ⟨h.table, h.placed, h.keys, h.states, h.nodup, ?_, ?_, h.refused, h.usage, h.calls, h.history⟩
  · intro a
    show a ∈ s.inserted ↔ a ∈ s.table.entries ∨ 0 < Function.update s.held e (s.held e + 1) a + 0
    rw [h.mem a]
    by_cases hae : a = e
    · subst hae
      exact iff_of_true (Or.inl he) (Or.inl he)
    · rw [Function.update_of_ne hae, loose_none]
  · intro a ha
    have hrefs := h.refs a ha
    show Function.update s.refs e (inc (s.refs e)) a =
      Function.update s.held e (s.held e + 1) a + 0 + if a ∈ s.table.entries then 1 else 0
    by_cases hae : a = e
    · subst hae
      rw [Function.update_self, Function.update_self, inc_of_lt hroom, hrefs, loose_none, if_pos he]
    · rw [Function.update_of_ne hae, Function.update_of_ne hae, hrefs, loose_none]

theorem Core.give (h : Core hash none s) (hheld : 0 < s.held e) :
    Core hash (some e) { s with held := Function.update s.held e (s.held e - 1) } := by
  refine ⟨h.table, h.placed, h.keys, h.states, h.nodup, ?_, ?_, h.refused, h.usage, h.calls, h.history⟩
  · intro a
    show a ∈ s.inserted ↔ a ∈ s.table.entries ∨ 0 < Function.update s.held e (s.held e - 1) a + loose (some e) a
    rw [h.mem a, loose_none]
    by_cases hae : a = e
    · subst hae
      rw [Function.update_self, loose_self]
      exact iff_of_true (Or.inr hheld) (Or.inr (Nat.succ_pos _))
    · rw [Function.update_of_ne hae, loose_of_ne hae]
  · intro a ha
    have hrefs := h.refs a ha
    show s.refs a = Function.update s.held e (s.held e - 1) a + loose (some e) a + if a ∈ s.table.entries then 1 else 0
    by_cases hae : a = e
    · subst hae
      rw [Function.update_self, hrefs, loose_self, loose_none]
      omega
    · rw [Function.update_of_ne hae, loose_of_ne hae, hrefs, loose_none]

theorem Inv.release (h : Inv hash s) (hheld : 0 < s.held e) :
    ∃ s', Cache.release { s with held := Function.update s.held e (s.held e - 1) } e = some s' ∧ Inv hash s' := by
  obtain ⟨refs, usage, inserted, calls, hs, hcore, husage⟩ := (h.good.core.give hheld).release
  refine ⟨_, hs, ⟨⟨hcore, h.good.sizes, h.good.latest, h.good.home, ?_⟩, h.out⟩⟩
  have hfew := h.good.few
  change usage + _ = s.usage at husage
  show usage ≤ 2 ^ 31
  omega

/-! ### The lists of the policy -/

theorem Good.relink (h : Good hash s) (he : e ∈ s.lists q) : Good hash (s.relink q e) := by
  have hcore := h.core.relink he q
  rw [← h.core.states q e he, Function.update_eq_self] at hcore
  have hlists (r : Queue) : (s.relink q e).lists r ~ s.lists r := by
    rw [relink_lists]
    split_ifs with hr
    · rw [hr]
      exact (List.perm_cons_erase he).symm
    · rw [h.core.unlinked he hr]
  refine ⟨hcore, ?_, h.latest, ?_, h.few⟩
  · intro r hr
    rw [(hlists r).length_eq]
    exact h.sizes r hr
  · intro r a ha
    exact h.home r a ((hlists r).mem_iff.mp ha)

theorem Inv.update (h : Inv hash s) (he : e ∈ s.table.entries) : Inv hash (policyUpdate s e) := by
  obtain ⟨q, hq⟩ := (h.good.core.placed.mem e).mp he
  have hstate := h.good.core.states q e hq
  have hhome := h.good.home q e hq
  have hnot : s.state e ≠ .isEvicted := by simp [hstate]
  have hrelink (hout : q ≠ .a1out) : Inv hash (s.relink q e) := by
    refine ⟨h.good.relink hq, ?_⟩
    rw [relink_lists, if_neg (Ne.symm hout), h.good.core.unlinked hq (Ne.symm hout)]
    exact h.out
  rw [policyUpdate, if_neg hnot]
  cases hkind : s.kind with
  | lru =>
    rw [hkind] at hhome
    have hlru : q = .lru := by
      cases q <;> first | rfl | exact absurd hhome (by decide)
    subst hlru
    have hnew : s.state e ≠ .isNew := by simp [hstate]
    simp only [lruInsert, if_neg hnew]
    exact hrelink (by decide)
  | q2 =>
    rw [hkind] at hhome
    cases q with
    | lru => exact absurd hhome (by decide)
    | am =>
      simp only [q2Insert, hstate]
      exact hrelink (by decide)
    | a1in =>
      simp only [q2Insert, hstate]
      exact hrelink (by decide)
    | a1out =>
      simp only [q2Insert, hstate]
      obtain ⟨hgood, hfrom, -, -⟩ := h.good.transfer hq (by decide : Queue.a1out ≠ .am) hkind.symm
      refine ⟨hgood, ?_⟩
      rw [hfrom]
      exact (List.length_erase_le).trans h.out

/-- Other fields than those of the books. -/
theorem Inv.tally (h : Inv hash s) (hit miss : Nat) : Inv hash { s with hit := hit, miss := miss } :=
  ⟨⟨⟨h.good.core.table, h.good.core.placed, h.good.core.keys, h.good.core.states, h.good.core.nodup, h.good.core.mem,
    h.good.core.refs, h.good.core.refused, h.good.core.usage, h.good.core.calls, h.good.core.history⟩,
    h.good.sizes, h.good.latest, h.good.home, h.good.few⟩, h.out⟩

/-! ### Eviction -/

theorem Inv.policyReclaim (h : Inv hash s) {evict : Nat → ε → Bool} (hs : Cache.policyReclaim hash evict s = some s') :
    Inv hash s' := by
  cases hkind : s.kind with
  | lru =>
    simp only [Cache.policyReclaim, hkind] at hs
    obtain ⟨s₁, hs₁, hgood, -, hkout, hlists⟩ := lruReclaim_spec h.good evict
      (fun a ha => List.mem_reverse.mp ha) (List.nodup_reverse.mpr (h.good.core.placed.nodup .lru)) s.usage
    obtain rfl := Option.some.inj (hs₁.symm.trans hs)
    refine ⟨hgood, ?_⟩
    rw [hlists .a1out (by decide), hkout]
    exact h.out
  | q2 =>
    simp only [Cache.policyReclaim, hkind] at hs
    obtain ⟨hgood, -, hout⟩ := q2Reclaim_spec h.good hkind h.out hs
    exact ⟨hgood, hout⟩

theorem Inv.policyReclaim_isSome (h : Inv hash s) (evict : Nat → ε → Bool)
    (henough : s.kind = .q2 → s.lists .a1in = [] ∨ s.usage ≤ s.capacity + s.spare) :
    (Cache.policyReclaim hash evict s).isSome := by
  cases hkind : s.kind with
  | lru =>
    simp only [Cache.policyReclaim, hkind]
    obtain ⟨s₁, hs₁, -⟩ := lruReclaim_spec h.good evict
      (fun a ha => List.mem_reverse.mp ha) (List.nodup_reverse.mpr (h.good.core.placed.nodup .lru)) s.usage
    rw [hs₁]
    rfl
  | q2 =>
    simp only [Cache.policyReclaim, hkind]
    obtain hnil | henough := henough hkind
    · have hsize : s.sizes .a1in = 0 := by rw [h.good.sizes .a1in (by decide), hnil, List.length_nil]
      rw [q2Reclaim, if_neg (by omega)]
      rfl
    · exact q2Reclaim_isSome h.good hkind h.out (Nat.lt_succ_self _) henough

/-! ### Insertion -/

theorem Core.insert {t : Table ε} {k : κ} (h : Core hash none s) (hnew : e ∉ s.inserted)
    (htable : TableOk hash t (Function.update s.oid e k)) (hperm : t.entries ~ e :: s.table.entries)
    (hk : ∀ a ∈ s.table.entries, s.oid a ≠ k) (hroom : s.usage < 2 ^ 31) (q : Queue) :
    Core hash none { s with
      oid := Function.update s.oid e k
      refs := Function.update s.refs e 2
      state := Function.update s.state e (.isIn q)
      lists := Function.update s.lists q (e :: s.lists q)
      table := t
      held := Function.update s.held e 1
      inserted := e :: s.inserted
      history := s.history ++ [e]
      usage := inc s.usage } := by
  have hne (a : ε) (ha : a ∈ s.inserted) : a ≠ e := by
    rintro rfl
    exact hnew ha
  have hnotin : e ∉ s.table.entries := fun he => hnew (h.inserted_of_entry he)
  have hmem (a : ε) : a ∈ t.entries ↔ a = e ∨ a ∈ s.table.entries := by rw [hperm.mem_iff, List.mem_cons]
  have hold (a : ε) (ha : a ∈ s.table.entries) : Function.update s.oid e k a = s.oid a :=
    Function.update_of_ne (hne a (h.inserted_of_entry ha)) _ _
  refine ⟨htable, ?_, ?_, ?_, ?_, ?_, ?_, h.refused, ?_, h.calls, ?_⟩
  · refine Placed.perm (h.placed.put hnotin (p := q) ?_ ?_) hperm.symm
    · show Function.update s.lists q (e :: s.lists q) q ~ _
      rw [Function.update_self]
    · intro r hr
      exact Function.update_of_ne hr _ s.lists
  · intro a ha b hb heq
    change Function.update s.oid e k a = Function.update s.oid e k b at heq
    replace ha := (hmem a).mp ha
    replace hb := (hmem b).mp hb
    obtain rfl | ha := ha
    · obtain rfl | hb := hb
      · rfl
      · rw [Function.update_self, hold b hb] at heq
        exact absurd heq.symm (hk b hb)
    · obtain rfl | hb := hb
      · rw [Function.update_self, hold a ha] at heq
        exact absurd heq (hk a ha)
      · rw [hold a ha, hold b hb] at heq
        exact h.keys a ha b hb heq
  · intro r a ha
    change a ∈ Function.update s.lists q (e :: s.lists q) r at ha
    show Function.update s.state e (.isIn q) a = .isIn r
    have hlisted (ha : a ∈ s.lists r) : Function.update s.state e (.isIn q) a = .isIn r := by
      rw [Function.update_of_ne (hne a (h.inserted_of_entry (h.entry_of_list ha)))]
      exact h.states r a ha
    by_cases hr : r = q
    · subst hr
      rw [Function.update_self] at ha
      obtain rfl | ha := List.mem_cons.mp ha
      · rw [Function.update_self]
      · exact hlisted ha
    · rw [Function.update_of_ne hr] at ha
      exact hlisted ha
  · exact List.nodup_cons.mpr ⟨hnew, h.nodup⟩
  · intro a
    show a ∈ e :: s.inserted ↔ a ∈ t.entries ∨ 0 < Function.update s.held e 1 a + 0
    rw [List.mem_cons, hmem a, h.mem a, loose_none]
    by_cases hae : a = e
    · exact iff_of_true (Or.inl hae) (Or.inl (Or.inl hae))
    · rw [Function.update_of_ne hae, or_iff_right hae, or_iff_right hae]
  · intro a ha
    show Function.update s.refs e 2 a = Function.update s.held e 1 a + 0 + if a ∈ t.entries then 1 else 0
    obtain rfl | ha := List.mem_cons.mp ha
    · rw [Function.update_self, Function.update_self, if_pos ((hmem a).mpr (Or.inl rfl))]
    · have hae := hne a ha
      have hrefs := h.refs a ha
      have hiff : a ∈ t.entries ↔ a ∈ s.table.entries := by rw [hmem a, or_iff_right hae]
      rw [Function.update_of_ne hae, Function.update_of_ne hae, hrefs, loose_none]
      simp only [hiff]
  · show inc s.usage = (e :: s.inserted).length
    rw [inc_of_lt (by omega), h.usage, List.length_cons]
  · show s.history ++ [e] ~ s.calls.map FreeCall.entry ++ e :: s.inserted
    refine (List.perm_append_singleton e _).trans ?_
    refine (h.history.cons e).trans ?_
    exact List.perm_middle.symm

def Kind.entrance : Kind → Queue
  | .lru => .lru
  | .q2 => .a1in

/-- The counters of the lists after a new entry has come. -/
def State.counts (s : State ε κ) : Queue → Nat :=
  match s.kind with
  | .lru => s.sizes
  | .q2 => Function.update s.sizes .a1in (inc (s.sizes .a1in))

variable [DecidableEq κ]

/-- A new entry in the table and in a list, before entries are evicted. -/
def State.accept (s : State ε κ) (e : ε) (k : κ) (t : Table ε) : State ε κ :=
  { s with
    oid := Function.update s.oid e k
    refs := Function.update s.refs e 2
    state := Function.update s.state e (.isIn s.kind.entrance)
    lists := Function.update s.lists s.kind.entrance (e :: s.lists s.kind.entrance)
    sizes := s.counts
    table := t
    held := Function.update s.held e 1
    inserted := e :: s.inserted
    history := s.history ++ [e]
    latest := Function.update s.latest k (some e)
    miss := (s.miss + 1) % 2 ^ 64
    usage := inc s.usage }

theorem Inv.accept {t : Table ε} {k : κ} (h : Inv hash s) (hnew : e ∉ s.inserted)
    (htable : TableOk hash t (Function.update s.oid e k)) (hperm : t.entries ~ e :: s.table.entries)
    (hk : ∀ a ∈ s.table.entries, s.oid a ≠ k) (hroom : s.usage < 2 ^ 31) : Inv hash (s.accept e k t) := by
  have hcore := h.good.core.insert hnew htable hperm hk hroom s.kind.entrance
  have hcore' := hcore.recount s.counts (Function.update s.latest k (some e))
  have hne (a : ε) (ha : a ∈ s.table.entries) : a ≠ e := by
    rintro rfl
    exact hnew (h.good.core.inserted_of_entry ha)
  have hother (r : Queue) (hr : r ≠ s.kind.entrance) : (s.accept e k t).lists r = s.lists r :=
    Function.update_of_ne hr _ _
  have hthis : (s.accept e k t).lists s.kind.entrance = e :: s.lists s.kind.entrance := Function.update_self ..
  refine ⟨⟨⟨hcore'.table, hcore'.placed, hcore'.keys, hcore'.states, hcore'.nodup, hcore'.mem, hcore'.refs,
    hcore'.refused, hcore'.usage, hcore'.calls, hcore'.history⟩, ?_, ?_, ?_, ?_⟩, ?_⟩
  · intro r hr
    show s.counts r = _
    cases hkind : s.kind with
    | lru =>
      rw [hkind] at hother
      rw [State.counts, hother r hr]
      simp only [hkind]
      exact h.good.sizes r hr
    | q2 =>
      rw [hkind] at hother hthis
      rw [State.counts]
      simp only [hkind]
      by_cases hra : r = .a1in
      · subst hra
        have hle := h.good.length_le .a1in
        have hlist : (s.accept e k t).lists .a1in = e :: s.lists .a1in := hthis
        rw [Function.update_self, hlist, h.good.sizes .a1in (by decide), List.length_cons, inc_of_lt]
        omega
      · rw [Function.update_of_ne hra, hother r hra]
        exact h.good.sizes r hr
  · intro a ha
    show Function.update s.latest k (some e) (Function.update s.oid e k a) = some a
    obtain rfl | ha := List.mem_cons.mp (hperm.mem_iff.mp ha)
    · rw [Function.update_self, Function.update_self]
    · rw [Function.update_of_ne (hne a ha), Function.update_of_ne (hk a ha)]
      exact h.good.latest a ha
  · intro r a ha
    by_cases hr : r = s.kind.entrance
    · rw [hr]
      show s.kind.entrance.kind = s.kind
      cases s.kind <;> rfl
    · rw [hother r hr] at ha
      exact h.good.home r a ha
  · show inc s.usage ≤ 2 ^ 31
    rw [inc_of_lt (by omega)]
    omega
  · rw [hother .a1out (by cases s.kind <;> decide)]
    exact h.out

/-- A call without an older entry brings the new one in and evicts others. -/
theorem tryInsert_new {k : κ} {t : Table ε} (evict : Nat → ε → Bool) (s : State ε κ) (e : ε)
    (hfind : s.table.find hash (Function.update s.oid e k) k = none)
    (ht : s.table.insert hash (Function.update s.oid e k) e = some t) :
    tryInsert hash evict s e k = (Cache.policyReclaim hash evict (s.accept e k t)).map (fun s => (s, none)) := by
  have hinc : inc 1 = 2 := rfl
  rw [tryInsert]
  simp only [hfind, ht, Option.bind_some, Function.update_self, Function.update_idem, hinc]
  cases hkind : s.kind with
  | lru =>
    simp [policyUpdate, lruInsert, State.enter, State.accept, State.counts, Kind.entrance, hkind, Function.update_idem]
  | q2 =>
    simp [policyUpdate, q2Insert, State.enter, State.resize, State.accept, State.counts, Kind.entrance, hkind,
      Function.update_idem]

/-- The object of an entry that is not in the table does not matter. -/
theorem find_update {k k' : κ} (h : TableOk hash s.table s.oid) (he : e ∉ s.table.entries)
    (hfind : s.table.find hash s.oid k = none) : s.table.find hash (Function.update s.oid e k') k = none := by
  rw [Table.find, List.find?_eq_none] at hfind ⊢
  intro a ha
  have hslot : slot hash s.table.size (s.oid a) = slot hash s.table.size k := h.bucketed _ a ha
  have hae : a ≠ e := by
    rintro rfl
    apply he
    rw [h.mem_iff, hslot]
    exact ha
  rw [Function.update_of_ne hae]
  exact hfind a ha

theorem Inv.insert {k : κ} (h : Inv hash s) (hnew : e ∉ s.inserted) (hfind : s.table.find hash s.oid k = none)
    (hroom : s.usage < 2 ^ 31) :
    ∃ t, s.table.insert hash (Function.update s.oid e k) e = some t ∧ Inv hash (s.accept e k t) := by
  have hcore := h.good.core
  have he : e ∉ s.table.entries := fun he => hnew (hcore.inserted_of_entry he)
  have hok : TableOk hash s.table (Function.update s.oid e k) := by
    apply hcore.table.congr
    intro a ha
    rw [Function.update_of_ne]
    rintro rfl
    exact he ha
  have hlen : s.table.entries.length < 2 ^ 31 := by
    have hle := hcore.entries_le
    have husage := hcore.usage
    omega
  obtain ⟨t, ht, htable, hperm⟩ := hok.insert hlen e
  exact ⟨t, ht, h.accept hnew htable hperm (hcore.table.find_none hfind) hroom⟩

/-- A new entry comes into the table and a list, and then others are evicted. -/
theorem Inv.tryInsert_eq {k : κ} (h : Inv hash s) (hnew : e ∉ s.inserted) (hfind : s.table.find hash s.oid k = none)
    (hroom : s.usage < 2 ^ 31) (evict : Nat → ε → Bool) :
    ∃ t, tryInsert hash evict s e k = (Cache.policyReclaim hash evict (s.accept e k t)).map (fun s => (s, none)) ∧
      Inv hash (s.accept e k t) := by
  have he : e ∉ s.table.entries := fun he => hnew (h.good.core.inserted_of_entry he)
  obtain ⟨t, ht, hinv⟩ := h.insert hnew hfind hroom
  exact ⟨t, tryInsert_new evict s e (find_update h.good.core.table he hfind) ht, hinv⟩

theorem Inv.lookup {k : κ} (h : Inv hash s) (hroom : ∀ e ∈ s.table.find hash s.oid k, s.refs e + 1 < 2 ^ 32) :
    Inv hash (Cache.lookup hash s k).1 := by
  rw [Cache.lookup]
  cases hfind : s.table.find hash s.oid k with
  | none => exact h.tally s.hit _
  | some e =>
    have he := (h.good.core.table.find_some hfind).1
    have hcore := h.good.core.acquire he (hroom e hfind)
    have hinv : Inv hash { s with
        refs := Function.update s.refs e (inc (s.refs e))
        held := Function.update s.held e (s.held e + 1) } :=
      ⟨⟨hcore, h.good.sizes, h.good.latest, h.good.home, h.good.few⟩, h.out⟩
    exact (hinv.update he).tally _ _

omit [DecidableEq κ] in
/-- The list of an entry is the one that is counted when it is removed. -/
theorem Good.counted_eq (h : Good hash s) (he : e ∈ s.lists q) (s' : State ε κ) (hkind : s'.kind = s.kind)
    (hstate : s'.state = s.state) : counted s' e = if q = .lru then none else some q := by
  have hq := h.core.states q e he
  have hhome := h.home q e he
  rw [counted, hkind, hstate, hq, ← hhome]
  cases q <;> rfl

/-- The counters of the lists after an entry has gone from one. -/
def State.countsWithout (s : State ε κ) (q : Queue) : Queue → Nat :=
  if q = .lru then s.sizes else Function.update s.sizes q (dec (s.sizes q))

omit [DecidableEq κ] in
theorem Good.countsWithout_eq (h : Good hash s) (he : e ∈ s.lists q) :
    ∀ r, r ≠ .lru → s.countsWithout q r = ((s.lists r).erase e).length := by
  intro r hr
  rw [State.countsWithout]
  by_cases hrq : r = q
  · subst hrq
    rw [if_neg hr, Function.update_self, h.sizes r hr, ← List.length_erase_add_one he, dec_succ]
  · have hsame : s.countsWithout q r = s.sizes r := by
      rw [State.countsWithout]
      split_ifs
      · rfl
      · exact Function.update_of_ne hrq _ _
    rw [← State.countsWithout, hsame, h.core.unlinked he hrq]
    exact h.sizes r hr

omit [DecidableEq κ] in
/-- The state of an entry that is not in the table does not matter. -/
theorem Core.mark (h : Core hash none s) (he : e ∉ s.table.entries) (st : EntryState) :
    Core hash none { s with state := Function.update s.state e st } := by
  refine ⟨h.table, h.placed, h.keys, ?_, h.nodup, h.mem, h.refs, h.refused, h.usage, h.calls, h.history⟩
  intro r a ha
  have hae : a ≠ e := by
    rintro rfl
    exact he (h.entry_of_list ha)
  show Function.update s.state e st a = .isIn r
  rw [Function.update_of_ne hae]
  exact h.states r a ha

/-- An entry that has left the table and its list, before its reference is released. -/
def State.detach (hash : κ → Nat) (s : State ε κ) (q : Queue) (e : ε) (k : κ) : State ε κ :=
  { s with
    table := s.table.remove hash s.oid e
    latest := Function.update s.latest k none
    sizes := s.countsWithout q
    lists := fun r => (s.lists r).erase e }

theorem Good.policyRemove_eq (h : Good hash s) (he : e ∈ s.lists q) (k : κ) :
    policyRemove { s with table := s.table.remove hash s.oid e, latest := Function.update s.latest k none } e =
      Cache.release (s.detach hash q e k) e := by
  have hcounted : counted { s with
      table := s.table.remove hash s.oid e
      latest := Function.update s.latest k none } e = if q = .lru then none else some q := h.counted_eq he _ rfl rfl
  rw [policyRemove, hcounted, State.detach, State.countsWithout]
  by_cases hlru : q = .lru
  · rw [if_pos hlru, if_pos hlru]
    rfl
  · rw [if_neg hlru, if_neg hlru]
    rfl

theorem Inv.remove {k : κ} (h : Inv hash s) (hheld : ∀ e ∈ s.table.find hash s.oid k, 0 < s.held e) :
    ∃ s', Cache.remove hash s k = some (s', s.table.find hash s.oid k) ∧ Inv hash s' := by
  rw [Cache.remove]
  cases hfind : s.table.find hash s.oid k with
  | none => exact ⟨s, rfl, h⟩
  | some e =>
    have hcore := h.good.core
    obtain ⟨he, hk⟩ := hcore.table.find_some hfind
    have hpos := hheld e hfind
    obtain ⟨q, hq⟩ := (hcore.placed.mem e).mp he
    have hperm := (hcore.table.remove he).2
    have hgone : e ∉ (s.table.remove hash s.oid e).entries :=
      (List.nodup_cons.mp (hperm.nodup_iff.mpr hcore.placed.items_nodup)).1
    have hloose : Core hash (some e) (s.detach hash q e k) := (hcore.leave he).recount _ _
    obtain ⟨refs, usage, inserted, calls, hs, hcore', husage⟩ := hloose.release
    have hmem : e ∈ inserted := (hcore'.mem e).mpr (Or.inr hpos)
    refine ⟨_, ?_, ⟨⟨hcore'.mark hgone .isEvicted, h.good.countsWithout_eq hq, ?_, ?_, ?_⟩, ?_⟩⟩
    · simp only [h.good.policyRemove_eq hq k, hs, Option.bind_some]
      exact if_pos (Or.inl hmem)
    · intro a ha
      have hae : a ≠ e := by
        rintro rfl
        exact hgone ha
      have hold : a ∈ s.table.entries := hperm.mem_iff.mp (List.mem_cons_of_mem e ha)
      show Function.update s.latest k none (s.oid a) = some a
      rw [Function.update_of_ne]
      · exact h.good.latest a hold
      · intro heq
        exact hae (hcore.keys a hold e he (heq.trans hk.symm))
    · intro r a ha
      exact h.good.home r a (List.mem_of_mem_erase ha)
    · have hfew := h.good.few
      change usage + _ = s.usage at husage
      show usage ≤ 2 ^ 31
      omega
    · exact List.length_erase_le.trans h.out

/-! ### Steps -/

/-- The loop of 2Q ends: the first entry that came in is the only one left, or enough of the others are not held. -/
def Settled (s : State ε κ) : Op ε κ → Prop
  | .tryInsert e _ _ => s.kind = .q2 → s.usage + 1 ≤ s.capacity +
      (victims s.kin s.kout (e :: s.lists .a1in) (s.lists .a1out) (s.lists .am)).countP
        (fun a => Function.update s.held e 1 a = 0)
  | .reclaim capacity _ => s.kind = .q2 → s.lists .a1in = [] ∨ s.usage ≤ capacity + s.spare
  | _ => True

omit [DecidableEq κ] in
theorem Inv.capacity (h : Inv hash s) (capacity : Nat) : Inv hash { s with capacity := capacity } :=
  ⟨⟨⟨h.good.core.table, h.good.core.placed, h.good.core.keys, h.good.core.states, h.good.core.nodup, h.good.core.mem,
    h.good.core.refs, h.good.core.refused, h.good.core.usage, h.good.core.calls, h.good.core.history⟩,
    h.good.sizes, h.good.latest, h.good.home, h.good.few⟩, h.out⟩

theorem Inv.step {op : Op ε κ} {out : Option ε} (h : Inv hash s) (hok : Allowed s op ∧ Sound hash s op)
    (hs : Cache.step hash s op = some (s', out)) : Inv hash s' := by
  obtain ⟨hallowed, hsound⟩ := hok
  cases op with
  | tryInsert e k evict =>
    obtain ⟨t, heq, hinv⟩ := h.tryInsert_eq hallowed.1 hsound.1 hsound.2 evict
    rw [Cache.step, heq, Option.map_eq_some_iff] at hs
    obtain ⟨s₁, hs₁, hs⟩ := hs
    obtain ⟨rfl, -⟩ := Prod.mk.inj hs
    exact hinv.policyReclaim hs₁
  | lookup k =>
    obtain ⟨rfl, -⟩ := Prod.mk.inj (Option.some.inj hs)
    exact h.lookup hsound
  | remove k =>
    obtain ⟨s₁, hs₁, hinv⟩ := h.remove hsound
    obtain ⟨rfl, -⟩ := Prod.mk.inj (Option.some.inj (hs₁.symm.trans hs))
    exact hinv
  | release e =>
    obtain ⟨s₁, hs₁, hinv⟩ := h.release hallowed
    rw [Cache.step, hs₁] at hs
    obtain ⟨rfl, -⟩ := Prod.mk.inj (Option.some.inj hs)
    exact hinv
  | reclaim capacity evict =>
    rw [Cache.step, reclaim, Option.map_eq_some_iff] at hs
    obtain ⟨s₁, hs₁, hs⟩ := hs
    obtain ⟨rfl, -⟩ := Prod.mk.inj hs
    exact (h.capacity capacity).policyReclaim hs₁
  | drop e =>
    have hrefused : e ∈ s.refused := hallowed
    rw [h.good.core.refused] at hrefused
    exact absurd hrefused List.not_mem_nil

theorem Inv.step_isSome {op : Op ε κ} (h : Inv hash s) (hok : Allowed s op ∧ Sound hash s op) (hset : Settled s op) :
    (Cache.step hash s op).isSome := by
  obtain ⟨hallowed, hsound⟩ := hok
  cases op with
  | tryInsert e k evict =>
    obtain ⟨t, heq, hinv⟩ := h.tryInsert_eq hallowed.1 hsound.1 hsound.2 evict
    rw [Cache.step, heq, Option.isSome_map]
    apply hinv.policyReclaim_isSome
    intro hkind
    right
    have hroom := hsound.2
    have hset' := hset hkind
    have husage : (s.accept e k t).usage = s.usage + 1 := inc_of_lt (by omega)
    have hentrance : s.kind.entrance = .a1in := by rw [show s.kind = .q2 from hkind]; rfl
    have hlists : (s.accept e k t).lists = Function.update s.lists .a1in (e :: s.lists .a1in) := by
      rw [State.accept, hentrance]
    rw [husage, State.spare, hlists]
    exact hset'
  | lookup k => rfl
  | remove k =>
    obtain ⟨s₁, hs₁, -⟩ := h.remove hsound
    rw [Cache.step, hs₁]
    rfl
  | release e =>
    obtain ⟨s₁, hs₁, -⟩ := h.release hallowed
    rw [Cache.step, hs₁]
    rfl
  | reclaim capacity evict =>
    rw [Cache.step, reclaim, Option.isSome_map]
    exact (h.capacity capacity).policyReclaim_isSome evict hset
  | drop e => rfl

end RaleighSL.Zcl.Cache
