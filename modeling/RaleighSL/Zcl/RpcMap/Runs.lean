import RaleighSL.Zcl.RpcMap.Table

/-!
# Runs of the map of pending calls

The map gives back the call that was added under an identifier, through every run in which the
calls that are pending at once have different identifiers and are fewer than 2^28. With as many the
number of bytes to clear in the new table is zero, and the map finds what was in its memory.
-/
namespace RaleighSL.Zcl.RpcMap

open Library
open scoped List

variable {γ : Type*}

abbrev Calls (γ : Type*) := List (UInt64 × γ)

def Calls.get (m : Calls γ) (id : UInt64) : Option γ := (m.find? (fun c => c.1 = id)).map Prod.snd

/-- What each call of the map does to the pending calls, and what it returns. -/
def specStep (m : Calls γ) : Op γ → Calls γ × Option γ
  | .add call id _ => ((id, call) :: m, some call)
  | .get id => (m, m.get id)
  | .remove id => (m.filter (fun c => c.1 ≠ id), m.get id)

/-- The call that is added is not pending, and neither is its identifier. -/
def Legal (m : Calls γ) : Op γ → Prop
  | .add call id _ => (∀ c ∈ m, c.1 ≠ id) ∧ ∀ c ∈ m, c.2 ≠ call
  | _ => True

/-- After an addition there are fewer than 2^28 pending calls. -/
def Few (m : Calls γ) : Op γ → Prop
  | .add _ _ _ => m.length + 1 < 2 ^ 28
  | _ => True

/-- The counter has the number of the pending calls. -/
def Counts (s : State γ) (m : Calls γ) : Prop := s.used = m.length

instance [DecidableEq γ] (m : Calls γ) : (op : Op γ) → Decidable (Legal m op)
  | .add _ _ _ => inferInstanceAs (Decidable ((∀ c ∈ m, _) ∧ ∀ c ∈ m, _))
  | .get _ => .isTrue trivial
  | .remove _ => .isTrue trivial

instance (m : Calls γ) : (op : Op γ) → Decidable (Few m op)
  | .add _ _ _ => inferInstanceAs (Decidable (_ < _))
  | .get _ => .isTrue trivial
  | .remove _ => .isTrue trivial

/-- The table holds the pending calls. -/
structure Models (hash64 : UInt64 → UInt64) (s : State γ) (m : Calls γ) (lists : Nat → List γ) : Prop
    extends Inv hash64 s lists where
  pending : (contents s.size lists).map (fun p => (s.reqId p, p)) ~ m
  distinct : (m.map Prod.fst).Nodup

variable {hash64 : UInt64 → UInt64} {s : State γ} {m : Calls γ} {lists : Nat → List γ} {n : Nat} {oid : UInt64}

theorem Calls.get_eq_some (h : (m.map Prod.fst).Nodup) {p : γ} (hp : (oid, p) ∈ m) : m.get oid = some p := by
  induction m with
  | nil => cases hp
  | cons c m ih =>
    obtain ⟨hc, hm⟩ := List.nodup_cons.mp h
    rcases List.mem_cons.mp hp with rfl | hp
    · simp [Calls.get]
    · have hne : c.1 ≠ oid := by
        intro heq
        exact hc (List.mem_map.mpr ⟨(oid, p), hp, heq.symm⟩)
      rw [Calls.get, List.find?_cons_of_neg (by simpa using hne)]
      exact ih hm hp

theorem Calls.get_eq_none (h : ∀ c ∈ m, c.1 ≠ oid) : m.get oid = none := by
  rw [Calls.get, Option.map_eq_none_iff, List.find?_eq_none]
  simpa using h

theorem Models.counts (h : Models hash64 s m lists) : Counts s m := by
  rw [Counts, h.used, ← h.pending.length_eq, List.length_map]

theorem Models.mem_iff_pending (h : Models hash64 s m lists) {p : γ} :
    p ∈ contents s.size lists ↔ (s.reqId p, p) ∈ m := by
  rw [← h.pending.mem_iff]
  simp

variable [DecidableEq γ]

theorem Models.alloc (h : Models hash64 s m lists) {p : γ} {id : UInt64} {memory : Nat → Option γ}
    (hlegal : Legal m (.add p id memory)) :
    Inv hash64 (s.alloc p id) lists ∧ p ∉ contents s.size lists ∧
      (∀ a ∈ contents s.size lists, (s.alloc p id).reqId a = s.reqId a) ∧
      ∀ a ∈ contents s.size lists, (s.alloc p id).reqId a ≠ (s.alloc p id).reqId p := by
  obtain ⟨hid, hcall⟩ := hlegal
  have hp : p ∉ contents s.size lists := fun hmem => hcall _ (h.mem_iff_pending.mp hmem) rfl
  have hfields : ∀ a ∈ contents s.size lists, (s.alloc p id).reqId a = s.reqId a :=
    fun a ha => Function.update_of_ne (ne_of_mem_of_not_mem ha hp) _ _
  have hself : (s.alloc p id).reqId p = id := Function.update_self ..
  have hlinked : Linked hash64 (s.alloc p id) lists := h.toLinked.congr rfl rfl rfl
    (fun a ha => Function.update_of_ne (ne_of_mem_of_not_mem ha hp) _ _) hfields
  refine ⟨⟨hlinked, h.power, h.used, h.room⟩, hp, hfields, fun a ha => ?_⟩
  rw [hfields a ha, hself]
  exact hid _ (h.mem_iff_pending.mp ha)

theorem Models.add (h : Models hash64 s m lists) (hn : 2 ^ 28 ≤ n) {p : γ} {id : UInt64} {memory : Nat → Option γ}
    (hlegal : Legal m (.add p id memory)) (hfew : Few m (.add p id memory)) :
    ∃ s' lists', step hash64 n s (.add p id memory) = some (s', some p) ∧ Models hash64 s' ((id, p) :: m) lists' ∧
      s'.reqId = Function.update s.reqId p id ∧ ∀ a ∉ p :: contents s.size lists, s'.hash a = s.hash a := by
  obtain ⟨hinv, hp, hfields, hother⟩ := h.alloc hlegal
  have hself : (s.alloc p id).reqId p = id := Function.update_self ..
  have hroom : s.used + 1 < 2 ^ 28 := by
    rw [h.counts]
    exact hfew
  obtain ⟨s', lists', hs', hinv', hid', hperm, hhash⟩ := hinv.tryInsert hp hother hroom hn memory
  refine ⟨s', lists', ?_, ⟨hinv', ?_, ?_⟩, hid', ?_⟩
  · rw [step, hs']
    rfl
  · have hsame : (contents s.size lists).map (fun a => (s'.reqId a, a)) =
        (contents s.size lists).map (fun a => (s.reqId a, a)) := by
      refine List.map_congr_left (fun a ha => ?_)
      rw [hid', hfields a ha]
    calc
      (contents s'.size lists').map (fun a => (s'.reqId a, a)) ~
          (p :: contents s.size lists).map (fun a => (s'.reqId a, a)) := hperm.map _
      _ = (id, p) :: (contents s.size lists).map (fun a => (s.reqId a, a)) := by
        rw [List.map_cons, hsame, hid', hself]
      _ ~ (id, p) :: m := List.Perm.cons _ h.pending
  · rw [List.map_cons, List.nodup_cons]
    refine ⟨fun hmem => ?_, h.distinct⟩
    obtain ⟨c, hc, heq⟩ := List.mem_map.mp hmem
    exact hlegal.1 c hc heq
  · intro a ha
    rw [hhash a ha]
    exact Function.update_of_ne (ne_of_mem_of_not_mem List.mem_cons_self ha).symm _ _

omit [DecidableEq γ] in
theorem Models.find (h : Models hash64 s m lists) (oid : UInt64) (hn : s.used < n) :
    ((∀ c ∈ m, c.1 ≠ oid) ∧ m.get oid = none ∧ s.findEntry oid n (.bucket (slot hash64 s.mask oid)) = some none) ∨
      ∃ l q k, lists (slot hash64 s.mask oid) = l ++ q :: k ∧ s.reqId q = oid ∧ m.get oid = some q ∧
        s.findEntry oid n (.bucket (slot hash64 s.mask oid)) =
          some (some (behind (.bucket (slot hash64 s.mask oid)) l)) ∧
        s.read (behind (.bucket (slot hash64 s.mask oid)) l) = some q := by
  rcases h.findEntry oid hn with ⟨hnone, hfind⟩ | ⟨l, q, k, hlists, hq, hfind, hread⟩
  · left
    have hm : ∀ c ∈ m, c.1 ≠ oid := by
      intro c hc
      obtain ⟨a, ha, rfl⟩ := List.mem_map.mp (h.pending.mem_iff.mpr hc)
      exact hnone a ha
    exact ⟨hm, Calls.get_eq_none hm, hfind⟩
  · right
    have hmem : q ∈ contents s.size lists := h.mem_of_list (hlists ▸ List.mem_append_right l List.mem_cons_self)
    have hpending : (oid, q) ∈ m := hq ▸ h.mem_iff_pending.mp hmem
    exact ⟨l, q, k, hlists, hq, Calls.get_eq_some h.distinct hpending, hfind, hread⟩

theorem Models.get (h : Models hash64 s m lists) (hn : s.used < n) (oid : UInt64) :
    ∃ s' lists', step hash64 n s (.get oid) = some (s', m.get oid) ∧ Models hash64 s' m lists' := by
  rcases h.find oid hn with ⟨-, hget, hfind⟩ | ⟨l, q, k, hlists, hq, hget, hfind, hread⟩
  · refine ⟨s, lists, ?_, h⟩
    rw [step, State.lookup, hfind, hget]
    rfl
  · have hlinked : Linked hash64 { s with refs := Function.update s.refs q (inc (s.refs q)) } lists :=
      h.toLinked.congr rfl rfl rfl (fun _ _ => rfl) (fun _ _ => rfl)
    refine ⟨_, lists, ?_, ⟨hlinked, h.power, h.used, h.room⟩, h.pending, h.distinct⟩
    rw [step, State.lookup, hfind, hget, Option.map_some, Option.bind_some, hread]

theorem Models.remove (h : Models hash64 s m lists) (hn : s.used < n) (oid : UInt64) :
    ∃ s' lists', step hash64 n s (.remove oid) = some (s', m.get oid) ∧
      Models hash64 s' (m.filter (fun c => c.1 ≠ oid)) lists' := by
  rcases h.find oid hn with ⟨hm, hget, hfind⟩ | ⟨l, q, k, hlists, hq, hget, hfind, hread⟩
  · have hfilter : m.filter (fun c => c.1 ≠ oid) = m := List.filter_eq_self.mpr (by simpa using hm)
    refine ⟨s, lists, ?_, hfilter.symm ▸ h⟩
    rw [step, State.remove, hfind, hget]
    rfl
  · let i := slot hash64 s.mask oid
    have hi : i < s.size := h.slot_lt oid
    have hchain : Chain s.hash (s.buckets i) (l ++ q :: k) := hlists ▸ h.chains i hi
    have hnodup : (l ++ q :: k).Nodup := hlists ▸ h.nodup_list hi
    have hk : ∀ a ∈ k, a ∉ l :=
      fun a ha hmem => List.disjoint_of_nodup_append hnodup hmem (List.mem_cons_of_mem q ha)
    let s₁ := s.write (behind (.bucket i) l) (s.hash q)
    have hrest : Chain s₁.hash (s.hash q) k := hchain.suffix.2.congr (fun a ha => write_hash (hk a ha) i _)
    have hperm : q :: contents s.size (Function.update lists i (l ++ k)) ~ contents s.size lists := by
      refine contents_update hi (x := [q]) (y := []) ?_
      rw [List.nil_append, show lists i = l ++ q :: k from hlists]
      exact (@List.perm_middle _ q l k).symm
    have hlinked₁ : Linked hash64 s₁ (Function.update lists i (l ++ k)) := by
      refine h.toLinked.write hi hlists hrest (fun a ha => ?_) ?_
      · refine h.bucketed i a ?_
        rw [show lists i = l ++ q :: k from hlists]
        exact List.mem_append_right l (List.mem_cons_of_mem q ha)
      · exact (List.nodup_cons.mp (hperm.nodup_iff.mpr h.nodup)).2
    let s₂ : State γ := { s₁ with used := dec s.used }
    have hlinked₂ : Linked hash64 s₂ (Function.update lists i (l ++ k)) :=
      hlinked₁.congr rfl rfl rfl (fun _ _ => rfl) (fun _ _ => rfl)
    have hsize : s₂.size = s.size := write_size s (behind (.bucket i) l) (s.hash q)
    have hid : s₂.reqId = s.reqId := write_reqId s (behind (.bucket i) l) (s.hash q)
    have hcount : s.used = (contents s.size (Function.update lists i (l ++ k))).length + 1 :=
      h.used.trans (hperm.length_eq.symm.trans List.length_cons)
    have hused : s₂.used = (contents s.size (Function.update lists i (l ++ k))).length := by
      show dec s.used = _
      rw [dec]
      have hlt := h.used_lt
      omega
    have hroom := h.room
    refine ⟨s₂, _, ?_, ⟨⟨hlinked₂, ?_, ?_, ?_⟩, ?_, ?_⟩⟩
    · rw [step, State.remove, hfind, hget, Option.map_some]
      simp only [hread]
      rfl
    · rw [hsize]
      exact h.power
    · rw [hsize]
      exact hused
    · rw [hsize, hused]
      omega
    · rw [hsize, hid]
      have hpending : (oid, q) :: (contents s.size (Function.update lists i (l ++ k))).map (fun p => (s.reqId p, p)) ~ m := by
        rw [← hq]
        exact (hperm.map (fun p => (s.reqId p, p))).trans h.pending
      have hdistinct := (hpending.map Prod.fst).nodup_iff.mpr h.distinct
      rw [List.map_cons, List.nodup_cons] at hdistinct
      have hother : ∀ c ∈ (contents s.size (Function.update lists i (l ++ k))).map (fun p => (s.reqId p, p)), c.1 ≠ oid :=
        fun c hc heq => hdistinct.1 (List.mem_map.mpr ⟨c, hc, heq⟩)
      have hfilter := hpending.filter (fun c => c.1 ≠ oid)
      rw [List.filter_cons_of_neg (by simp), List.filter_eq_self.mpr (by simpa using hother)] at hfilter
      exact hfilter
    · exact h.distinct.sublist (List.filter_sublist.map Prod.fst)

/-- A call of the map that is legal follows the pending calls, if there are few. -/
theorem Models.step (h : Models hash64 s m lists) (hn : 2 ^ 28 ≤ n) (op : Op γ) (hlegal : Legal m op)
    (hfew : Few m op) : ∃ s', step hash64 n s op = some (s', (specStep m op).2) ∧
      ∃ lists', Models hash64 s' (specStep m op).1 lists' := by
  have hused : s.used < n := h.used_lt.trans_le hn
  cases op with
  | add p id memory =>
    obtain ⟨s', lists', hs', h', -⟩ := h.add hn hlegal hfew
    exact ⟨s', hs', lists', h'⟩
  | get id =>
    obtain ⟨s', lists', hs', h'⟩ := h.get hused id
    exact ⟨s', hs', lists', h'⟩
  | remove id =>
    obtain ⟨s', lists', hs', h'⟩ := h.remove hused id
    exact ⟨s', hs', lists', h'⟩

/-! ### Runs -/

theorem mapOpen_spec (hn : 32 ≤ n) (s : State γ) (memory : Nat → Option γ) :
    ∃ t, mapOpen hash64 s memory n = some t ∧ Models hash64 t [] (fun _ => []) ∧ t.reqId = s.reqId ∧ t.hash = s.hash := by
  have hsize : newSize 32 n 32 = some 32 := newSize_pow (k := 5) (j := 5) (by decide) (by decide) (by omega)
  have hnil : contents 32 (fun _ => ([] : List γ)) = [] := List.flatMap_eq_nil_iff.mpr (fun _ _ => rfl)
  refine ⟨{ s with used := 0, size := 32, mask := 31, buckets := cleared memory 32 }, ?_, ?_, rfl, rfl⟩
  · rw [mapOpen, State.resize, hsize, Option.bind_some]
    rfl
  · refine ⟨⟨⟨Nat.zero_lt_succ 31, rfl, ?_, ?_, ?_⟩, ⟨5, by decide, by decide, rfl⟩, ?_, Nat.zero_lt_succ 63⟩, ?_,
      List.nodup_nil⟩
    · exact fun i hi => cleared_eq_none (by decide) hi
    · exact fun i a ha => absurd ha List.not_mem_nil
    · rw [hnil]
      exact List.nodup_nil
    · rw [hnil]
      rfl
    · rw [hnil]
      rfl

/-- Through every run in which the calls that are pending at once have different identifiers and are fewer than 2^28, a
map gives back the call that is pending under an identifier, and counts the pending calls. -/
theorem map_tracks_pending (hash64 : UInt64 → UInt64) (s : State γ) (memory : Nat → Option γ) (ops : List (Op γ))
    (hlegal : Meets (fun m op => some (specStep m op)) Legal [] ops)
    (hfew : Meets (fun m op => some (specStep m op)) Few [] ops) :
    ∃ N, ∀ n, N ≤ n → ∃ t, mapOpen hash64 s memory n = some t ∧ Tracks (step hash64 n) specStep Counts t [] ops := by
  refine ⟨2 ^ 28, fun n hn => ?_⟩
  obtain ⟨t, ht, hmodels, -⟩ := mapOpen_spec (show 32 ≤ n by omega) s memory
  refine ⟨t, ht, tracks_of_meets (R := fun s m => ∃ lists, Models hash64 s m lists) ?_ ?_ ⟨_, hmodels⟩ (hlegal.and hfew)⟩
  · rintro s m ⟨lists, h⟩
    exact h.counts
  · rintro s m op ⟨lists, h⟩ ⟨hlegal, hfew⟩
    exact h.step hn op hlegal hfew

/-- The memory of a map before it is opened, with nothing but zeros in the calls. -/
def blankState : State Nat := ⟨fun _ => none, 0, 0, 0, fun _ => none, fun _ => 0, fun _ => 0⟩

/-- Calls under the first multiples of 256, which have one hash. -/
def crowd (k : Nat) : List (Op Nat) := (List.range k).map (fun i => .add i (UInt64.ofNat (256 * i)) (fun _ => none))

/-- The calls of one bucket are found through the resize of its table at 64 calls, and until they are removed. -/
theorem bucket_tracked_through_resize :
    ∃ N, ∀ n, N ≤ n → ∃ t, mapOpen hash64a blankState (fun _ => none) n = some t ∧
      Tracks (RpcMap.step hash64a n) specStep Counts t []
        (crowd 70 ++ [.get 0, .get (256 * 69), .remove (256 * 3), .get (256 * 3), .get (256 * 4)]) :=
  map_tracks_pending hash64a blankState (fun _ => none) _ (by decide +kernel) (by decide +kernel)

/-! ### Too many calls -/

/-- A table of 2^28 buckets is not cleared, so a call that was everywhere in its memory is found in it. -/
theorem Models.add_full (h : Models hash64 s m lists) (hn : 2 ^ 28 < n) {p g : γ} {id : UInt64}
    (hlegal : Legal m (.add p id (fun _ => some g))) (hfull : m.length + 1 = 2 ^ 28) (hg : s.hash g = none)
    (hgp : g ≠ p) (hgm : ∀ c ∈ m, c.2 ≠ g) (hid : id ≠ s.reqId g) (hidm : ∀ c ∈ m, c.1 ≠ s.reqId g)
    {s' : State γ} {r : Option γ} (hs : RpcMap.step hash64 n s (.add p id (fun _ => some g)) = some (s', r)) :
    ∃ t, RpcMap.step hash64 n s' (.get (s.reqId g)) = some (t, some g) := by
  obtain ⟨hinv, hp, hfields, hother⟩ := h.alloc hlegal
  have hcount : s.used = m.length := h.counts
  obtain ⟨t, lists', hlinked, hsize, hused, hreqId, hperm, hhash, hstep⟩ :=
    hinv.attach hp hother (show s.used < n by omega) (fun _ => some g)
  have hfields' : ∀ a ∉ p :: contents s.size lists, t.hash a = s.hash a := by
    intro a ha
    rw [hhash a ha]
    exact Function.update_of_ne (ne_of_mem_of_not_mem List.mem_cons_self ha).symm _ _
  have hgout : g ∉ p :: contents s.size lists := by
    intro hmem
    rcases List.mem_cons.mp hmem with hgp' | hmem
    · exact hgp hgp'
    · exact hgm _ (h.mem_iff_pending.mp hmem) rfl
  have hperm' : contents t.size lists' ~ p :: contents s.size lists := hsize ▸ hperm
  have hlen : (contents t.size lists').length = 2 ^ 28 := by
    rw [hperm'.length_eq, List.length_cons, ← h.used, hcount, hfull]
  have hdouble : t.used = 2 ^ 28 := by
    rw [hused]
    exact (congrArg (· + 1) hcount).trans hfull
  have hgrow : t.size * 2 % 2 ^ 32 ≤ t.used := by
    obtain ⟨k, -, hk, hpower⟩ := h.power
    have hbound : 2 ^ k ≤ 2 ^ 27 := Nat.pow_le_pow_right (by decide) (by omega)
    have hsame : t.size = s.size := hsize
    omega
  rw [RpcMap.step, hstep, if_pos hgrow, hdouble] at hs
  let index (a : γ) : Nat := slot hash64 (2 ^ 28 - 1) (t.reqId a)
  have hnew : newSize (2 ^ 28) n 32 = some (2 ^ 28) :=
    newSize_pow (show 28 < 32 by decide) (show 5 ≤ 28 by decide) (show 28 - 5 < n by omega)
  have hold : ∀ i ∈ List.range t.size, Chain t.hash (t.buckets i) (lists' i) :=
    fun i hi => hlinked.chains i (List.mem_range.mp hi)
  have hstale : ∀ i < 2 ^ 28, Chain t.hash (cleared (fun _ => some g) (2 ^ 28) i) ((fun _ => [g]) i) := by
    intro i _
    have hkept : cleared (fun _ => some g) (2 ^ 28) i = some g := if_neg (by rw [nodeBytes]; omega)
    rw [hkept]
    exact ⟨rfl, (hfields' g hgout).trans hg⟩
  have hdisjoint : ∀ a ∈ contents t.size lists', ∀ i, a ∉ (fun _ : Nat => [g]) i := by
    intro a ha _ hmem
    rw [List.mem_singleton.mp hmem] at ha
    exact hgout (hperm'.mem_iff.mp ha)
  obtain ⟨b, hash', hrelink, hchains, -⟩ :=
    relinkAll_spec index hold hstale hlinked.nodup hdisjoint (show (contents t.size lists').length < n by omega)
  have hbase : (contents t.size lists').foldl (push index) (fun _ => [g]) =
      fun i => rehash index (contents t.size lists') i ++ [g] := foldl_push_append (b := fun _ => []) (contents t.size lists') [g]
  rw [State.resize, hnew, Option.bind_some, hrelink] at hs
  obtain ⟨rfl, -⟩ := Prod.mk.inj (Option.some.inj hs)
  let s' : State γ := { t with size := 2 ^ 28, mask := 2 ^ 28 - 1, buckets := b, hash := hash' }
  let i := slot hash64 s'.mask (s.reqId g)
  have hi : i < 2 ^ 28 := slot_lt (by decide) _
  have hchain : Chain s'.hash (s'.read (.bucket i)) (rehash index (contents t.size lists') i ++ g :: []) := by
    have h : Chain hash' (b i) ((contents t.size lists').foldl (push index) (fun _ => [g]) i) := hchains i hi
    rwa [hbase] at h
  have hmem : ∀ a ∈ rehash index (contents t.size lists') i, a ∈ contents t.size lists' := by
    intro a ha
    rw [← foldl_push] at ha
    exact (mem_foldl_push ha).resolve_right List.not_mem_nil
  have hids : ∀ a ∈ rehash index (contents t.size lists') i, s'.reqId a ≠ s.reqId g := by
    intro a ha
    show t.reqId a ≠ _
    rw [hreqId]
    rcases List.mem_cons.mp (hperm'.mem_iff.mp (hmem a ha)) with rfl | hold
    · exact (congrArg (· ≠ s.reqId g) (Function.update_self a id s.reqId)).mpr hid
    · rw [hfields a hold]
      exact hidm _ (h.mem_iff_pending.mp hold)
  have hself : s'.reqId g = s.reqId g := by
    show t.reqId g = _
    rw [hreqId]
    exact Function.update_of_ne hgp _ _
  have hshort : (rehash index (contents t.size lists') i).length < n := by
    have hrehash : contents (2 ^ 28) (rehash index (contents t.size lists')) ~ contents t.size lists' :=
      contents_rehash (fun a _ => slot_lt (by decide) _)
    have hsum := hrehash.length_eq
    have hle := (sublist_contents hi (rehash index (contents t.size lists'))).length_le
    omega
  have hfind : s'.findEntry (s.reqId g) n (.bucket i) = some (some (behind (.bucket i) _)) :=
    findEntry_present hchain hids hself hshort
  have hread : s'.read (behind (.bucket i) (rehash index (contents t.size lists') i)) = some g := by
    rw [read_behind hchain]
    rfl
  refine ⟨{ s' with refs := Function.update s'.refs g (inc (s'.refs g)) }, ?_⟩
  show s'.lookup hash64 n (s.reqId g) = _
  rw [State.lookup, hfind, Option.map_some, Option.bind_some, hread]

/-- Additions of calls, when the memory of a new table holds the call 0 everywhere. -/
def additions (k : Nat) : List (Op Nat) :=
  (List.range k).map (fun i => .add (i + 1) (UInt64.ofNat (i + 1)) (fun _ => some 0))

def added (k : Nat) : Calls Nat := (specExec specStep [] (additions k)).1

theorem additions_succ (k : Nat) :
    additions (k + 1) = additions k ++ [.add (k + 1) (UInt64.ofNat (k + 1)) (fun _ => some 0)] := by
  rw [additions, List.range_succ, List.map_append]
  rfl

theorem added_succ (k : Nat) : added (k + 1) = (UInt64.ofNat (k + 1), k + 1) :: added k := by
  rw [added, additions_succ, specExec_append]
  rfl

theorem mem_added {k : Nat} {c : UInt64 × Nat} (hc : c ∈ added k) : ∃ i < k, c = (UInt64.ofNat (i + 1), i + 1) := by
  induction k with
  | zero => cases hc
  | succ k ih =>
    rw [added_succ] at hc
    rcases List.mem_cons.mp hc with rfl | hc
    · exact ⟨k, Nat.lt_succ_self k, rfl⟩
    · obtain ⟨i, hi, rfl⟩ := ih hc
      exact ⟨i, Nat.lt_succ_of_lt hi, rfl⟩

theorem length_added (k : Nat) : (added k).length = k := by
  induction k with
  | zero => rfl
  | succ k ih => rw [added_succ, List.length_cons, ih]

theorem ofNat_ne {i j : Nat} (hij : i ≠ j) (hi : i < 2 ^ 64) (hj : j < 2 ^ 64) : UInt64.ofNat i ≠ UInt64.ofNat j := by
  intro heq
  have h := congrArg UInt64.toNat heq
  rw [UInt64.toNat_ofNat_of_lt' hi, UInt64.toNat_ofNat_of_lt' hj] at h
  exact hij h

theorem legal_added {k : Nat} (hk : k ≤ 2 ^ 28) (memory : Nat → Option Nat) :
    Legal (added k) (.add (k + 1) (UInt64.ofNat (k + 1)) memory) := by
  refine ⟨fun c hc => ?_, fun c hc => ?_⟩
  · obtain ⟨i, hi, rfl⟩ := mem_added hc
    exact ofNat_ne (by omega) (by omega) (by omega)
  · obtain ⟨i, hi, rfl⟩ := mem_added hc
    show i + 1 ≠ k + 1
    omega

theorem legal_additions {k : Nat} (hk : k ≤ 2 ^ 28) : Meets (fun m op => some (specStep m op)) Legal [] (additions k) := by
  induction k with
  | zero => trivial
  | succ k ih =>
    rw [additions_succ]
    refine (ih (by omega)).append (exec_total specStep [] (additions k)) ⟨?_, fun _ _ _ => trivial⟩
    exact legal_added (by omega) _

/-- A map that was given fewer than 2^28 calls. -/
theorem exec_additions {t : State Nat} {lists : Nat → List Nat} (ht : Models hash64 t [] lists) (hid : t.reqId 0 = 0) (hhash : t.hash 0 = none)
    (hn : 2 ^ 28 ≤ n) {k : Nat} (hk : k < 2 ^ 28) :
    ∃ s lists', exec (RpcMap.step hash64 n) t (additions k) = some (s, (specExec specStep [] (additions k)).2) ∧
      Models hash64 s (added k) lists' ∧ s.reqId 0 = 0 ∧ s.hash 0 = none := by
  induction k with
  | zero => exact ⟨t, lists, rfl, ht, hid, hhash⟩
  | succ k ih =>
    obtain ⟨s, lists₁, hs, h, hid, hhash⟩ := ih (by omega)
    have hfew : Few (added k) (.add (k + 1) (UInt64.ofNat (k + 1)) (fun _ => some 0)) := by
      show (added k).length + 1 < 2 ^ 28
      rw [length_added]
      exact hk
    obtain ⟨s', lists₂, hs', h', hid', hhash'⟩ := h.add hn (legal_added (by omega) _) hfew
    have hzero : 0 ∉ (k + 1) :: contents s.size lists₁ := by
      intro hmem
      rcases List.mem_cons.mp hmem with hz | hmem
      · omega
      · obtain ⟨i, -, heq⟩ := mem_added (h.mem_iff_pending.mp hmem)
        exact absurd (congrArg Prod.snd heq) (by simp)
    refine ⟨s', lists₂, ?_, added_succ k ▸ h', ?_, ?_⟩
    · rw [additions_succ, exec_append, hs, Option.bind_some, exec_cons, hs', specExec_append]
      rfl
    · rw [hid', Function.update_of_ne (by omega), hid]
    · rw [hhash' 0 hzero, hhash]

/-- After the last of 2^28 additions a call that was never added is found. -/
theorem not_tracks_additions {t : State Nat} {lists : Nat → List Nat} (ht : Models hash64 t [] lists)
    (hid : t.reqId 0 = 0) (hhash : t.hash 0 = none) (hn : 2 ^ 28 < n) {k : Nat} (hk : k + 1 = 2 ^ 28) :
    ¬ Tracks (RpcMap.step hash64 n) specStep Counts t [] (additions (k + 1) ++ [.get 0]) := by
  intro htracks
  obtain ⟨s, lists', hs, h, hid, hhash⟩ := exec_additions ht hid hhash (Nat.le_of_lt hn) (show k < 2 ^ 28 by omega)
  obtain ⟨s₂, hexec, -⟩ := htracks _ (List.prefix_refl _)
  have hnone : (added (k + 1)).get 0 = none := by
    refine Calls.get_eq_none (fun c hc => ?_)
    obtain ⟨i, hi, rfl⟩ := mem_added hc
    exact ofNat_ne (j := 0) (by omega) (by omega) (by decide)
  have hspec : (specExec specStep (added k) [.add (k + 1) (UInt64.ofNat (k + 1)) (fun _ => some 0), .get 0]).2 =
      [some (k + 1), none] := by
    rw [added_succ] at hnone
    simp only [specExec, specStep, hnone]
  have hout : (specExec specStep [] (additions (k + 1) ++ [.get 0])).2 =
      (specExec specStep [] (additions k)).2 ++ [some (k + 1), none] := by
    rw [additions_succ, List.append_assoc, specExec_append, ← hspec]
    rfl
  rw [hout, additions_succ, List.append_assoc, exec_append, hs, Option.bind_some] at hexec
  obtain ⟨⟨s₃, outs⟩, hrest, heq⟩ := Option.map_eq_some_iff.mp hexec
  have houts : outs = [some (k + 1), none] := List.append_cancel_left (congrArg Prod.snd heq)
  rw [List.singleton_append, exec_cons] at hrest
  obtain ⟨⟨s₁, r⟩, hadd, hrest⟩ := Option.bind_eq_some_iff.mp hrest
  have hids : ∀ c ∈ added k, c.1 ≠ s.reqId 0 := by
    intro c hc
    obtain ⟨i, hi, rfl⟩ := mem_added hc
    rw [hid]
    exact ofNat_ne (j := 0) (by omega) (by omega) (by decide)
  have hcalls : ∀ c ∈ added k, c.2 ≠ 0 := by
    intro c hc
    obtain ⟨i, hi, rfl⟩ := mem_added hc
    exact Nat.succ_ne_zero i
  obtain ⟨u, hu⟩ := h.add_full hn (legal_added (by omega) _) (by rw [length_added]; exact hk) hhash
    (Nat.succ_ne_zero k).symm hcalls (by rw [hid]; exact ofNat_ne (j := 0) (by omega) (by omega) (by decide)) hids hadd
  rw [hid] at hu
  rw [houts, exec_cons, hu] at hrest
  simp at hrest

/-- With 2^28 pending calls the map returns a call that was never added. -/
theorem full_map_finds_memory :
    Meets (fun m op => some (specStep m op)) Legal [] (additions (2 ^ 28) ++ [.get 0]) ∧
      ¬ ∃ N, ∀ n, N ≤ n → ∃ t, mapOpen hash64a blankState (fun _ => none) n = some t ∧
        Tracks (RpcMap.step hash64a n) specStep Counts t [] (additions (2 ^ 28) ++ [.get 0]) := by
  obtain ⟨k, hk⟩ : ∃ k, k + 1 = 2 ^ 28 := ⟨2 ^ 28 - 1, by decide⟩
  rw [← hk]
  refine ⟨(legal_additions hk.le).append (exec_total specStep [] (additions (k + 1))) ⟨trivial, fun _ _ _ => trivial⟩, ?_⟩
  rintro ⟨N, hN⟩
  obtain ⟨n, hn, hfuel⟩ : ∃ n, N ≤ n ∧ 2 ^ 28 < n := ⟨max N (2 ^ 28 + 1), Nat.le_max_left .., by omega⟩
  obtain ⟨t, ht, htracks⟩ := hN n hn
  obtain ⟨t', ht', hmodels, hid, hhash⟩ := mapOpen_spec (show 32 ≤ n by omega) blankState (fun _ => none)
  obtain rfl := Option.some.inj (ht.symm.trans ht')
  exact not_tracks_additions hmodels (congrFun hid 0) (congrFun hhash 0) hfuel hk htracks

end RaleighSL.Zcl.RpcMap
