import RaleighSL.Objects.SSet.Isolation

/-!
# Scans

A scan returns the first entries, from its start key on, of the map that its
transaction sees, and scans that start from the last key of the one before them
enumerate that map once. It does not where the seek in one of the layers starts
too early: among the locks, which it compares wrongly, and in memory, where it
takes the last item not above the start key. Nor does it return once it has to
step over an entry of a block whose successor overruns the key buffer. A lookup
shows the owner of a lock the value below it where there is one, so a transaction
reads its own write only if there is none, or the same.
-/
namespace RaleighSL.Objects.SSet
open RaleighSL.Core RaleighSL.Library RaleighSL.Zcl

/-- The value of a key for a transaction: its own pending write over the committed value. -/
def visibleAt (s : State) (t : TxnId) (k : Bytes) : Option Bytes :=
  match writeOn s k with
  | none => valueAt s k
  | some w => if w.txnId = t then w.effect else valueAt s k

/-- The keys that a scan asks for. -/
def fromKey (key : Bytes) (includeKey : Bool) (k : Bytes) : Prop := if includeKey then key ≤ k else key < k

instance (key : Bytes) (includeKey : Bool) (k : Bytes) : Decidable (fromKey key includeKey k) :=
  inferInstanceAs (Decidable (if includeKey then key ≤ k else key < k))

/-- Each block from the start key on can be read to its end, or the scan finds `count` entries of the map `m` before
the block iterator faults. -/
def ScanReads (s : State) (t : TxnId) (m : SortedMap Bytes Bytes) (key : Bytes) (includeKey : Bool) (count : Nat) : Prop :=
  ∀ id ∈ scanStart s key, ∀ n ∈ s.nodes id, n.Readable ∨
    count ≤ ((m.entries.filter (fun p => inRange key includeKey p.1)).filter
      (fun p => n.Reaches (ownEntries s t n.txnLocks.entries) p.1)).length

instance (s : State) (t : TxnId) (m : SortedMap Bytes Bytes) (key : Bytes) (includeKey : Bool) (count : Nat) :
    Decidable (ScanReads s t m key includeKey count) :=
  inferInstanceAs (Decidable (∀ id ∈ scanStart s key, ∀ n ∈ s.nodes id, _ ∨ _))

/-- The seek among the locks of the transaction in the start node ends at the right one, and with `includeKey` the last
item in memory not above the start key has that key or is deleted. -/
def ScanSeeks (s : State) (t : TxnId) (key : Bytes) (includeKey : Bool) (seek : Nat) : Prop :=
  key ≠ [] → (∀ it ∈ txnIter s (nodeOf s key) t key includeKey seek,
      Starts key includeKey (ownEntries s t (nodeOf s key).txnLocks.entries) it.rest) ∧
    (includeKey = true → (nodeOf s key).SeekFit key)

instance (s : State) (t : TxnId) (key : Bytes) (includeKey : Bool) (seek : Nat) :
    Decidable (ScanSeeks s t key includeKey seek) := inferInstanceAs (Decidable (_ → _))

/-- A scan reads and seeks as it should, if it asks for anything, and from the empty key it leaves no entry with that
key out. -/
def ScanFit (s : State) (t : TxnId) (m : SortedMap Bytes Bytes) (key : Bytes) (includeKey : Bool) (count seek : Nat) :
    Prop :=
  ScanReads s t m key includeKey count ∧ (0 < count →
    ScanSeeks s t key includeKey seek ∧ (key = [] → includeKey = false → visibleAt s t [] = none))

instance (s : State) (t : TxnId) (m : SortedMap Bytes Bytes) (key : Bytes) (includeKey : Bool) (count seek : Nat) :
    Decidable (ScanFit s t m key includeKey count seek) := inferInstanceAs (Decidable (_ ∧ (_ → _)))

/-- Scans of at most `count` entries, each from the last key of the one before it, up to an empty one. -/
def scanPages (s : State) (t : TxnId) (count : Nat) (seek : Bytes → Nat) :
    Nat → Bytes → Bool → Option (List (Bytes × Bytes))
  | 0, _, _ => some []
  | fuel + 1, key, includeKey =>
    (scan s t key includeKey count (seek key)).bind (fun l =>
      match l.getLast? with
      | none => some []
      | some p => (scanPages s t count seek fuel p.1 false).map (l ++ ·))

variable {s : State} {L : Layers} {A : Store} {t : TxnId} {key : Bytes} {includeKey : Bool} {rs : List Request}
  {es : List Response} {m : SortedMap Bytes Bytes} {count seek : Nat}

theorem nil_le (k : Bytes) : [] ≤ k := not_lt.mp (List.not_lt_nil k)

theorem Refines.seen_visible (hA : Refines L A) (h : Embeds s L) (k : Bytes) :
    (A.seen t).lookup k = visibleAt s t k := by
  cases hl : L.pending.lookup k <;> simp [hA.seen_lookup, visibleAt, h.writeOn, h.valueIn_eq, hl]

theorem Embeds.startOk (h : Embeds s L) (hseek : ScanSeeks s t key includeKey seek) (hkey : key ≠ []) :
    ∀ p, L.nodes.floor key = some p → L.StartOk t p key includeKey seek := by
  intro p hp
  obtain ⟨hlock, hmem⟩ := hseek hkey
  obtain ⟨f, id, n, hr⟩ := h.route key
  rw [hr.layer] at hp
  obtain rfl := Option.some.inj hp
  have hf := SortedMap.floor_mem hr.root
  rw [hr.nodeOf] at hlock hmem
  refine ⟨?_, hmem⟩
  have hdrop := ownEntries_eq s t (n.txnLocks.entries.drop seek)
    (fun p hp => h.lock_live hr.node (List.mem_of_mem_drop hp))
  rw [txnIter, if_neg hkey, hdrop, List.map_drop, ← h.locksOf_eq hf hr.node, h.ownEntries_locksOf hf hr.node] at hlock
  exact hlock

theorem Embeds.readsOf (h : Embeds s L) (hread : ScanReads s t m key includeKey count) :
    ∀ p ∈ L.scanStart key, L.ReadsOf t p (m.entries.filter (fun p => inRange key includeKey p.1)) count := by
  obtain ⟨es, hes, hs, hL⟩ := h.scanStart_eq key
  intro p hp
  rw [hL] at hp
  obtain ⟨q, hq, rfl⟩ := List.mem_map.mp hp
  obtain ⟨n, hn, -⟩ := h.tidy.indexed.node q (hes q hq)
  have hbare : bareAt s q.2 = n.bare := by simp [bareAt, hn]
  rw [hbare, Layers.ReadsOf, Layers.reached, Layers.ownIn, ← h.ownEntries_locksOf (hes q hq) hn]
  exact hread q.2 (by rw [hs]; exact List.mem_map_of_mem hq) n hn

/-- A scan that reads and seeks as it should returns the first entries in its range of the map that the transaction
sees. -/
theorem Refines.scan_reads (hA : Refines L A) (h : Embeds s L) (hread : ScanReads s t (A.seen t) key includeKey count)
    (hseek : 0 < count → ScanSeeks s t key includeKey seek) : SSet.scan s t key includeKey count seek =
      some (((A.seen t).entries.filter (fun p => inRange key includeKey p.1)).take count) := by
  rw [h.scan, hA.scan h seek count (h.readsOf hread) (fun hpos => h.startOk (hseek hpos))]

theorem Refines.scan_fit (hA : Refines L A) (h : Embeds s L) (hfit : ScanFit s t (A.seen t) key includeKey count seek) :
    SSet.scan s t key includeKey count seek =
      some (((A.seen t).entries.filter (fun p => fromKey key includeKey p.1)).take count) := by
  rw [hA.scan_reads h hfit.1 (fun hpos => (hfit.2 hpos).1)]
  rcases Nat.eq_zero_or_pos count with rfl | hpos
  · simp
  congr 2
  apply List.filter_congr
  rintro ⟨k, v⟩ hp
  rw [SortedMap.mem_entries, hA.seen_visible h] at hp
  rw [decide_eq_decide, inRange, fromKey]
  by_cases hkey : key = []
  · subst hkey
    cases includeKey with
    | true => simpa using nil_le k
    | false =>
      have hk : k ≠ [] := by
        rintro rfl
        rw [(hfit.2 hpos).2 rfl rfl] at hp
        simp at hp
      simpa using lt_of_le_of_ne (nil_le k) hk.symm
  · cases includeKey <;> simp [hkey, le_iff_lt_or_eq, eq_comm]

/-! ### One scan after the other -/

theorem filter_above {l r : List (Bytes × Bytes)} {p : Bytes × Bytes} (h : (l ++ r).Pairwise (fun p q => p.1 < q.1))
    (hlast : l.getLast? = some p) : (l ++ r).filter (fun q => decide (p.1 < q.1)) = r := by
  rw [List.pairwise_append] at h
  obtain ⟨hl, -, hlr⟩ := h
  obtain ⟨l', rfl⟩ := List.getLast?_eq_some_iff.mp hlast
  have hnone : (l' ++ [p]).filter (fun q => decide (p.1 < q.1)) = [] := by
    rw [List.filter_eq_nil_iff]
    intro q hq
    rcases List.mem_append.mp hq with hq | hq
    · simpa using ((List.pairwise_append.mp hl).2.2 q hq p List.mem_cons_self).le
    · simp [List.mem_singleton.mp hq]
  have hall : r.filter (fun q => decide (p.1 < q.1)) = r :=
    List.filter_eq_self.mpr (fun q hq => by simpa using hlr p (by simp) q hq)
  rw [List.filter_append, hnone, hall, List.nil_append]

/-- The scans from a key on enumerate what lies behind it. -/
theorem scanPages_rest {seek : Bytes → Nat} (hcount : 0 < count)
    (hscan : ∀ p ∈ m.entries, scan s t p.1 false count (seek p.1) =
      some ((m.entries.filter (fun q => fromKey p.1 false q.1)).take count))
    {rest : List (Bytes × Bytes)} (hrest : rest <:+ m.entries)
    (hfirst : scan s t key includeKey count (seek key) = some (rest.take count)) {fuel : Nat} (hfuel : rest.length < fuel) :
    scanPages s t count seek fuel key includeKey = some rest := by
  induction fuel generalizing key includeKey rest with
  | zero => exact absurd hfuel (Nat.not_lt_zero _)
  | succ fuel ih =>
    rw [scanPages, hfirst, Option.bind_some]
    cases hlast : (rest.take count).getLast? with
    | none =>
      rw [List.getLast?_eq_none_iff, List.take_eq_nil_iff] at hlast
      rw [hlast.resolve_left hcount.ne']
    | some p =>
      obtain ⟨pre, hpre⟩ := hrest
      have hsplit : m.entries = (pre ++ rest.take count) ++ rest.drop count := by
        rw [List.append_assoc, List.take_append_drop, hpre]
      have hmem : p ∈ rest.take count := List.mem_of_getLast? hlast
      have hp : p ∈ m.entries := by
        rw [← hpre]
        exact List.mem_append_right _ (List.mem_of_mem_take hmem)
      have habove : m.entries.filter (fun q => fromKey p.1 false q.1) = rest.drop count := by
        have hsorted := m.sorted
        rw [hsplit] at hsorted ⊢
        refine filter_above hsorted ?_
        rw [List.getLast?_append, hlast, Option.some_or]
      have hnext := hscan p hp
      rw [habove] at hnext
      have hlen : 0 < rest.length := List.length_pos_of_mem (List.mem_of_mem_take hmem)
      have hpages := ih ⟨_, hsplit.symm⟩ hnext (by rw [List.length_drop]; omega)
      simp only [hpages, Option.map_some, List.take_append_drop]

/-- The map that the transaction sees, in key order, answers every scan whose seeks start right and that ends before
the fault of any block, and such scans from one last key to the next enumerate it once. -/
theorem scan_exact (hm : Meets serve LockOk create rs) (he : exec serve create rs = some (s, es)) (t : TxnId) :
    ∃ m : SortedMap Bytes Bytes, (∀ k, m.lookup k = visibleAt s t k) ∧
      (∀ key includeKey count seek, ScanFit s t m key includeKey count seek →
        scan s t key includeKey count seek = some ((m.entries.filter (fun p => fromKey key includeKey p.1)).take count)) ∧
      ∀ (count : Nat) (seek : Bytes → Nat), 0 < count → ScanFit s t m [] true count (seek []) →
        (∀ p ∈ m.entries, ScanFit s t m p.1 false count (seek p.1)) → ∀ fuel, m.entries.length < fuel →
          scanPages s t count seek fuel [] true = some m.entries := by
  obtain ⟨L, A, h, hA⟩ := run_embeds hm he
  refine ⟨A.seen t, hA.seen_visible h, fun key i count seek hfit => hA.scan_fit h hfit, ?_⟩
  intro count seek hcount hstart hrest fuel hfuel
  refine scanPages_rest hcount (fun p hp => hA.scan_fit h (hrest p hp)) (List.suffix_refl _) ?_ hfuel
  rw [hA.scan_fit h hstart, List.filter_eq_self.mpr]
  intro p hp
  simpa [fromKey] using nil_le p.1

theorem scan_exact_between : ∃ s es, ∃ m : SortedMap Bytes Bytes,
    exec serve create [.insert 0 false [1] [2], .insert 1 true [3] [4]] = some (s, es) ∧
      scan s 0 [2] false 5 0 = some ((m.entries.filter (fun p => fromKey [2] false p.1)).take 5) ∧
      scanPages s 0 1 (fun _ => 0) (m.entries.length + 1) [] true = some m.entries := by
  obtain ⟨⟨s, es⟩, he⟩ := Option.isSome_iff_exists.mp
    (show (exec serve create [.insert 0 false [1] [2], .insert 1 true [3] [4]]).isSome by decide +kernel)
  have hs : (exec serve create [.insert 0 false [1] [2], .insert 1 true [3] [4]]).map (fun (p : State × List Response) =>
      (decide (∀ k ∈ ([[], [1], [2]] : List Bytes), ∀ id ∈ scanStart p.1 k, ∀ n ∈ p.1.nodes id, n.Readable),
        decide (∀ k ∈ ([[], [1], [2]] : List Bytes), ScanSeeks p.1 0 k (decide (k = [])) 0),
        decide (scan p.1 0 [] true 5 0 = some [([1], [2])]))) = some (true, true, true) := by decide +kernel
  simp only [he, Option.map_some, Option.some.injEq, Prod.mk.injEq, decide_eq_true_eq] at hs
  obtain ⟨hread, hseek, hall⟩ := hs
  obtain ⟨m, -, hscan, hpages⟩ := scan_exact (by decide +kernel) he 0
  have hfit (k : Bytes) (hk : k ∈ [[], [1], [2]]) (count : Nat) : ScanFit s 0 m k (decide (k = [])) count 0 :=
    ⟨fun id hid n hn => Or.inl (hread k hk id hid n hn), fun _ => ⟨hseek k hk, fun he hf => by simp [he] at hf⟩⟩
  refine ⟨s, es, m, he, hscan [2] false 5 0 (hfit [2] (by decide) 5), ?_⟩
  refine hpages 1 (fun _ => 0) (by decide) (hfit [] (by decide) 1) ?_ _ (Nat.lt_succ_self _)
  have hfirst := hscan [] true 5 0 (hfit [] (by decide) 5)
  rw [hall, Option.some.injEq, List.filter_eq_self.mpr (fun p _ => by simpa [fromKey] using nil_le p.1)] at hfirst
  have hone : m.entries = [([1], [2])] := by
    rw [← List.take_append_drop 5 m.entries, ← hfirst]
    have hlen := congrArg List.length hfirst
    rw [List.length_take, List.length_singleton] at hlen
    rw [List.drop_eq_nil_of_le (by omega), List.append_nil]
  rw [hone]
  simpa using hfit [1] (by decide) 1

/-- With `includeKey`, a scan from a key that is not there returns the one before it. -/
theorem scan_starts_below : ∃ s es l, exec serve create [.insert 0 false [1] [2], .insert 0 false [3] [4]] = some (s, es) ∧
    scan s 0 [2] true 1 0 = some l ∧ ¬ ∀ p ∈ l, fromKey [2] true p.1 := by
  have hrun : (exec serve create [.insert 0 false [1] [2], .insert 0 false [3] [4]]).map (fun p =>
      scan p.1 0 [2] true 1 0) = some (some [([1], [2])]) := by decide +kernel
  rw [Option.map_eq_some_iff] at hrun
  obtain ⟨⟨s, es⟩, he, hs⟩ := hrun
  exact ⟨s, es, _, he, hs, by decide⟩

/-! ### The writes of the reader itself -/

/-- What a transaction last wrote to a key is shown to it by a lookup exactly if it is a value and no
other one lies below its lock, and by every scan that reads and seeks as it should. -/
theorem own_writes_read {x : Option Bytes} (hm : Meets serve LockOk create rs)
    (he : exec serve create rs = some (s, es)) (hw : LastWrote (rs.zip es) t k x) :
    (serve s (.get t k) = some (s, found x) ↔ x ≠ none ∧ ∀ v ∈ (nodeOf s k).below k, x = some v) ∧
      ∃ m : SortedMap Bytes Bytes, m.lookup k = x ∧ (∀ k', m.lookup k' = visibleAt s t k') ∧
        (∀ k', ¬ Owns s t k' → m.lookup k' = valueAt s k') ∧
        ∀ key includeKey count seek, ScanReads s t m key includeKey count →
          (0 < count → ScanSeeks s t key includeKey seek) →
            serve s (.scan t key includeKey count seek) =
              some (s, .entries ((m.entries.filter (fun p => inRange key includeKey p.1)).take count)) := by
  obtain ⟨L, h, hh⟩ := run_held hm he
  obtain ⟨A, hA⟩ := h.exists_store (fun k w hw => ⟨(hh.opened k w hw).1, hh.sound k w hw⟩)
  obtain ⟨w, hk, rfl, hx⟩ := hh.wrote t k x hw
  have hend : w.txnId ∉ s.ended := by
    rw [← h.ended]
    exact (hh.opened k w hk).2
  constructor
  · obtain ⟨f, id, n, hr⟩ := h.route k
    have hget : (serve s (.get w.txnId k)).map Prod.snd = some (.code .none (some ((n.below k).getD w.item.value))) := by
      rw [h.serve_get hend, hr.get_eq, hk]
      simp
    have hsame : serve s (.get w.txnId k) = some (s, found x) ↔
        found x = .code .none (some ((n.below k).getD w.item.value)) := by
      rw [serve, if_neg hend] at hget ⊢
      rw [Option.map_map, Option.map_eq_some_iff] at hget
      obtain ⟨c, hc, heq⟩ := hget
      rw [hc, Option.map_some, Option.some.injEq, Prod.mk.injEq, ← heq]
      simp [eq_comm]
    rw [hsame, hr.nodeOf, ← hx, Write.effect]
    by_cases hremove : w.type = .remove
    · simp [hremove, found]
    · simp only [hremove, if_false, found, Response.code.injEq, Option.some.injEq, true_and, ne_eq, reduceCtorEq,
        not_false_eq_true]
      cases n.below k <;> simp
  · refine ⟨A.seen w.txnId, ?_, ?_, ?_, fun key includeKey count seek hread hseek => ?_⟩
    · rw [hA.seen_lookup, hk]
      simpa using hx
    · exact hA.seen_visible h
    · intro k' ho
      rw [h.owns_iff] at ho
      rw [hA.seen_lookup, h.valueIn_eq]
      cases hk' : L.pending.lookup k' with
      | none => rfl
      | some w' =>
        have hw' : w'.txnId ≠ w.txnId := by simpa [hk'] using ho
        simp [hw']
    · rw [serve, if_neg hend, hA.scan_reads h hread hseek]
      rfl

theorem own_writes_read_insert : ∃ s es,
    exec serve create [.insert 0 false [1] [2], .insert 1 false [3] [4]] = some (s, es) ∧
      serve s (.get 1 [3]) = some (s, found (some [4])) := by
  have hrun : (exec serve create [.insert 0 false [1] [2], .insert 1 false [3] [4]]).map (fun p =>
      (p.2, (nodeOf p.1 [3]).below [3])) = some ([.code .none none, .code .none none], none) := by decide +kernel
  rw [Option.map_eq_some_iff] at hrun
  obtain ⟨⟨s, es⟩, he, hs⟩ := hrun
  simp only [Prod.mk.injEq] at hs
  obtain ⟨rfl, hbelow⟩ := hs
  have hw : LastWrote ([.insert 0 false [1] [2], .insert 1 false [3] [4]].zip
      [.code .none none, .code .none none]) 1 [3] (some [4]) :=
    ⟨by decide, [(.insert 0 false [1] [2], .code .none none)], .insert 1 false [3] [4], .code .none none, [],
      rfl, rfl, rfl, rfl, by simp⟩
  exact ⟨s, _, he, (own_writes_read (by decide +kernel) he hw).1.mpr (by simp [hbelow])⟩

/-- A transaction still finds the key that it has removed. -/
theorem removed_key_read : ∃ s es,
    exec serve create [.insert 0 false [1] [2], .remove 1 [1]] = some (s, es) ∧
      LastWrote ([.insert 0 false [1] [2], .remove 1 [1]].zip es) 1 [1] none ∧
      (serve s (.get 1 [1])).map Prod.snd = some (.code .none (some [2])) := by
  have hrun : (exec serve create [.insert 0 false [1] [2], .remove 1 [1]]).map (fun p =>
      (p.2, (serve p.1 (.get 1 [1])).map Prod.snd)) =
        some ([.code .none none, .code .none (some [2])], some (.code .none (some [2]))) := by decide +kernel
  rw [Option.map_eq_some_iff] at hrun
  obtain ⟨⟨s, es⟩, he, hs⟩ := hrun
  simp only [Prod.mk.injEq] at hs
  obtain ⟨rfl, hget⟩ := hs
  exact ⟨s, _, he, ⟨by decide, [(.insert 0 false [1] [2], .code .none none)], .remove 1 [1], .code .none (some [2]), [],
    rfl, rfl, rfl, rfl, by simp⟩, hget⟩

end RaleighSL.Objects.SSet
