import RaleighSL.Objects.SSet.Refinement

/-!
# Runs without transactions

Without transactions nothing is ever pending, so the store is one finite map. The
object answers as this map does as long as no search of a block is misled by a
prefix of its key, no remove uncovers an older value in a block, and every balance
can read the blocks it replaces and leaves a node.
-/
namespace RaleighSL.Objects.SSet
open RaleighSL.Core RaleighSL.Library RaleighSL.Zcl

/-- A request without a transaction, whose entry fits an empty block. -/
def Request.Plain : Request → Prop
  | .insert t _ k v => t = 0 ∧ Fits (k, v)
  | .update t k v => t = 0 ∧ Fits (k, v)
  | .remove t _ => t = 0
  | .get t _ => t = 0
  | .balance => True
  | _ => False

instance : (r : Request) → Decidable r.Plain
  | .insert t _ k v => inferInstanceAs (Decidable (t = 0 ∧ Fits (k, v)))
  | .update t k v => inferInstanceAs (Decidable (t = 0 ∧ Fits (k, v)))
  | .remove t _ => inferInstanceAs (Decidable (t = 0))
  | .get t _ => inferInstanceAs (Decidable (t = 0))
  | .balance => .isTrue trivial
  | .scan .. => .isFalse id
  | .apply _ => .isFalse id
  | .revert _ => .isFalse id

/-- The conditions on a request without a transaction. -/
def PlainOk (s : State) : Request → Prop
  | .insert _ allowUpdate k _ => allowUpdate = false → (nodeOf s k).SearchOk k
  | .update _ k _ => (nodeOf s k).SearchOk k
  | .remove _ k => (nodeOf s k).SearchOk k ∧ ((nodeOf s k).value k ≠ none → (nodeOf s k).RemoveOk k)
  | .get _ k => (nodeOf s k).SearchOk k
  | .balance => (∃ p ∈ s.root.entries, leavesNode s p.2 = true) ∧
      ∀ p ∈ s.root.entries, ∀ n ∈ s.nodes p.2, requiresBalance n → n.Readable
  | _ => True

instance (s : State) : (r : Request) → Decidable (PlainOk s r)
  | .insert _ u k _ => inferInstanceAs (Decidable (u = false → (nodeOf s k).SearchOk k))
  | .update _ k _ => inferInstanceAs (Decidable ((nodeOf s k).SearchOk k))
  | .remove _ k => inferInstanceAs (Decidable ((nodeOf s k).SearchOk k ∧
      ((nodeOf s k).value k ≠ none → (nodeOf s k).RemoveOk k)))
  | .get _ k => inferInstanceAs (Decidable ((nodeOf s k).SearchOk k))
  | .balance => inferInstanceAs (Decidable ((∃ p ∈ s.root.entries, leavesNode s p.2 = true) ∧
      ∀ p ∈ s.root.entries, ∀ n ∈ s.nodes p.2, requiresBalance n → n.Readable))
  | .scan .. => .isTrue trivial
  | .apply _ => .isTrue trivial
  | .revert _ => .isTrue trivial

/-- A store without transactions. -/
def Store.quiet (m : SortedMap Bytes Bytes) : Store := { map := m, pending := SortedMap.empty, ended := [] }

variable {s : State} {m : SortedMap Bytes Bytes} {r : Request} {t : TxnId} {k : Bytes}

@[simp] theorem Store.quiet_seen (m : SortedMap Bytes Bytes) (t : TxnId) : (Store.quiet m).seen t = m := rfl

theorem Store.quiet_not_closed : ¬ (Store.quiet m).Closed t k := by
  simp [Store.Closed, Store.quiet]

theorem Store.quiet_write (hr : r.target = some (0, k)) :
    (Store.quiet m).serve r = (Store.quiet (mapServe m r).1, (mapServe m r).2) := by
  have hend : (0 : TxnId) ∉ (Store.quiet m).ended := by simp [Store.quiet]
  rw [Store.serve_target hr]
  rcases mapServe_write hr m with ⟨x, v, hm⟩ | ⟨c, v, hc, hm⟩
  · rw [Store.writeBy_succeeds hend Store.quiet_not_closed hm, hm, lookup_put, if_pos rfl]
    rfl
  · rw [Store.writeBy_fails hend Store.quiet_not_closed (by rw [Store.quiet_seen, hm]) hc, hm]

/-- Without transactions a store is a finite map. -/
theorem Store.quiet_serve (hp : r.Plain) :
    (Store.quiet m).serve r = (Store.quiet (mapServe m r).1, (mapServe m r).2) := by
  cases r with
  | insert t u k v =>
    obtain ⟨rfl, -⟩ := hp
    exact Store.quiet_write rfl
  | update t k v =>
    obtain ⟨rfl, -⟩ := hp
    exact Store.quiet_write rfl
  | remove t k =>
    obtain rfl : t = 0 := hp
    exact Store.quiet_write rfl
  | get t k => simp [Store.serve, Store.readBy, Store.quiet, mapServe_get, Store.seen, SortedMap.empty]
  | balance => rfl
  | _ => exact absurd hp id

def AllFit (m : SortedMap Bytes Bytes) : Prop := ∀ k v, m.lookup k = some v → Fits (k, v)

theorem AllFit.put {x : Option Bytes} (hm : AllFit m) (hx : ∀ v, x = some v → Fits (k, v)) : AllFit (put m k x) := by
  intro k' v hv
  rw [lookup_put] at hv
  split_ifs at hv with hk
  · rw [hk]
    exact hx v hv
  · exact hm k' v hv

theorem AllFit.mapServe (hm : AllFit m) (hp : r.Plain) : AllFit (mapServe m r).1 := by
  cases r with
  | insert t u k v =>
    rw [SSet.mapServe]
    split_ifs
    · exact hm
    · exact hm.put (fun w hw => Option.some.inj hw ▸ hp.2)
  | update t k v =>
    rw [SSet.mapServe]
    cases m.lookup k with
    | none => exact hm
    | some old => exact hm.put (fun w hw => Option.some.inj hw ▸ hp.2)
  | remove t k =>
    rw [SSet.mapServe]
    cases m.lookup k with
    | none => exact hm
    | some old => exact hm.put (by simp)
  | get t k =>
    rw [mapServe_get]
    exact hm
  | balance => exact hm
  | _ => exact absurd hp id

/-! ### The conditions without transactions -/

theorem Shows.pendingAt (h : Shows s (Store.quiet m)) (k : Bytes) : SSet.pendingAt s k = none := by
  have hw := h.writeOn k
  rw [eq_comm, Store.quiet, SortedMap.lookup_empty, Option.map_eq_none_iff, SSet.writeOn, Option.map_eq_none_iff] at hw
  exact hw

theorem Shows.not_owns (h : Shows s (Store.quiet m)) : ¬ Owns s t k := by
  rw [Owns, h.pendingAt]
  simp

/-- Without pending writes no node has a lock. -/
theorem Shows.unlocked (h : Shows s (Store.quiet m)) {id : NodeId} {n : Node} (hn : s.nodes id = some n) :
    n.txnLocks.entries = [] := by
  have hp := h.pendingAt
  obtain ⟨L, hs, -⟩ := h
  rw [List.eq_nil_iff_forall_not_mem]
  rintro ⟨k, a⟩ hm
  have hl := SortedMap.mem_entries.mp hm
  obtain ⟨txn, ha, -, -, rfl, rfl⟩ := hs.tidy.indexed.lock id n k a hn hl
  have hpending := hp txn.key
  rw [pendingAt_eq (hs.tidy.indexed.txn a txn n ha hn) hn, hl, Option.bind_some, ha] at hpending
  exact absurd hpending (by simp)

theorem Shows.stepOk (h : Shows s (Store.quiet m)) (hm : AllFit m) (hp : r.Plain) (hok : PlainOk s r) : StepOk s r := by
  cases r with
  | insert t u k v =>
    exact ⟨fun _ _ => h.not_owns, fun _ => ⟨fun _ => hok, by simp [SSet.writeOn, h.pendingAt]⟩⟩
  | update t k v =>
    obtain ⟨rfl, -⟩ := hp
    exact ⟨fun _ => ⟨h.not_owns, by simp⟩, fun _ _ => hok⟩
  | remove t k => exact ⟨fun _ => h.not_owns, fun _ _ => ⟨hok.1, fun _ => hok.2⟩⟩
  | get t k =>
    refine ⟨trivial, fun _ => ?_⟩
    rw [SSet.writeOn, h.pendingAt]
    exact hok
  | balance =>
    refine ⟨⟨hok.1, fun p _ n hn _ => h.unlocked hn⟩, ?_⟩
    intro p hp' n hn hlarge
    have hread := hok.2 p hp' n hn hlarge
    refine ⟨hread, ?_⟩
    rintro l hl ⟨k, v⟩ hq
    apply hm
    rw [show m.lookup k = SSet.valueAt s k from (h.valueAt k).symm]
    obtain ⟨L, hs, -⟩ := h
    obtain ⟨l', hl', hval⟩ := nodeEntries_value hs.tidy.indexed hn hread
    obtain rfl : l = l' := Option.some.inj (Eq.trans (Eq.symm hl) hl')
    exact hs.tidy.indexed.valueAt_eq_some.mpr ⟨p.1, p.2, n, hp', hn, (hval k v).mp hq⟩
  | _ => exact absurd hp id

/-- Every run without transactions whose requests meet the conditions is answered, request by
request, as by one finite map, and leaves the values of that map. -/
theorem run_refines_map {rs : List Request} (hp : ∀ r ∈ rs, r.Plain) (hm : Meets serve PlainOk create rs) :
    ∃ s, exec serve create rs = some (s, (specExec mapServe SortedMap.empty rs).2) ∧
      ∀ k, valueAt s k = (specExec mapServe SortedMap.empty rs).1.lookup k := by
  obtain ⟨s, hexec, hshows, -⟩ := exec_simulates
    (R := fun s m => Shows s (Store.quiet m) ∧ AllFit m) (A := mapServe)
    (fun s m r hR hok => by
      obtain ⟨s', hserve, hs'⟩ := hR.1.serve (hR.1.stepOk hR.2 hok.1 hok.2)
      rw [Store.quiet_serve hok.1] at hserve hs'
      exact ⟨s', hserve, hs', hR.2.mapServe hok.1⟩)
    ⟨create_shows, by intro k v hv; simp at hv⟩ (hm.and_forall hp)
  exact ⟨s, hexec, fun k => hshows.valueAt k⟩

theorem run_refines_map_balanced : ∃ s,
    exec serve create [.insert 0 false [1] (List.replicate 4096 0), .balance, .remove 0 [1], .get 0 [1]] =
        some (s, (specExec mapServe SortedMap.empty
          [.insert 0 false [1] (List.replicate 4096 0), .balance, .remove 0 [1], .get 0 [1]]).2) ∧
      ∀ k, valueAt s k = (specExec mapServe SortedMap.empty
        [.insert 0 false [1] (List.replicate 4096 0), .balance, .remove 0 [1], .get 0 [1]]).1.lookup k :=
  run_refines_map (by decide +kernel) (by decide +kernel)

/-- A key that was written to a block, updated and removed is found again. -/
theorem removed_key_returns :
    (∀ r ∈ [.insert 0 false [1] (List.replicate 4096 0), .balance, .insert 0 true [1] [2], .remove 0 [1], .get 0 [1]],
        Request.Plain r) ∧
      ∃ s es, exec serve create
          [.insert 0 false [1] (List.replicate 4096 0), .balance, .insert 0 true [1] [2], .remove 0 [1], .get 0 [1]] =
          some (s, es) ∧
        es.getLast? ≠ some (.code .dataKeyNotFound none) ∧
        (specExec mapServe SortedMap.empty
          [.insert 0 false [1] (List.replicate 4096 0), .balance, .insert 0 true [1] [2], .remove 0 [1],
            .get 0 [1]]).2.getLast? = some (.code .dataKeyNotFound none) := by
  refine ⟨by decide +kernel, ?_⟩
  have hrun : (exec serve create
      [.insert 0 false [1] (List.replicate 4096 0), .balance, .insert 0 true [1] [2], .remove 0 [1], .get 0 [1]]).map
        (fun p => decide (p.2.getLast? = some (.code .dataKeyNotFound none))) = some false := by decide +kernel
  rw [Option.map_eq_some_iff] at hrun
  obtain ⟨⟨s, es⟩, he, hes⟩ := hrun
  exact ⟨s, es, he, of_decide_eq_false hes, by decide +kernel⟩

end RaleighSL.Objects.SSet
