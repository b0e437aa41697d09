import RaleighSL.Zcl.Cache.Calls

/-!
# Runs of the cache

Over every run in which a new entry finds no older one for its object and an entry that is
removed is held by someone, the lists, the table and the counters agree, and every entry is
freed once, when it has left the table and its last reference is gone.
-/
namespace RaleighSL.Zcl.Cache

open Library
open scoped List

variable {ε κ : Type*} [DecidableEq ε] [DecidableEq κ] {hash : κ → Nat} {s s₀ : State ε κ}

omit [DecidableEq κ] in
theorem inv_alloc {kind : Kind} {capacity : Nat} {oid : ε → κ} (h : alloc kind capacity oid = some s₀) : Inv hash s₀ := by
  rw [alloc, Option.map_eq_some_iff] at h
  obtain ⟨size, hsize, rfl⟩ := h
  have hpos : 0 < size := tableSize_spec (by decide) hsize
  have hempty : contents size (fun _ => ([] : List ε)) = [] := by
    rw [contents, List.flatMap_eq_nil_iff]
    intro i _
    rfl
  have hentries : Table.entries (⟨size, 0, fun _ => []⟩ : Table ε) = [] := hempty
  refine ⟨⟨⟨⟨hpos, ?_, ?_⟩, ?_, ?_, ?_, List.nodup_nil, ?_, ?_, rfl, rfl, ?_, ?_⟩, ?_, ?_, ?_, ?_⟩, ?_⟩
  · intro i a ha
    exact absurd ha List.not_mem_nil
  · rw [hentries]
    rfl
  · rw [hentries]
    exact placed_nil (fun _ => rfl)
  all_goals simp [hentries]

/-- The lists, the table and the counters agree. -/
structure Books (s : State ε κ) : Prop where
  lists : Placed s.table.entries s.lists
  sizes : ∀ q, q ≠ .lru → s.sizes q = (s.lists q).length
  states : ∀ q, ∀ e ∈ s.lists q, s.state e = .isIn q
  used : s.table.used = s.table.entries.length
  usage : s.usage = s.inserted.length

omit [DecidableEq κ] in
theorem Inv.books (h : Inv hash s) : Books s :=
  ⟨h.good.core.placed, h.good.sizes, h.good.core.states, h.good.core.table.used, h.good.core.usage⟩

instance (s : State ε κ) : (op : Op ε κ) → Decidable (Settled s op)
  | .tryInsert _ _ _ => inferInstanceAs (Decidable (_ → _))
  | .lookup _ => .isTrue trivial
  | .remove _ => .isTrue trivial
  | .release _ => .isTrue trivial
  | .reclaim _ _ => inferInstanceAs (Decidable (_ → _))
  | .drop _ => .isTrue trivial

theorem Inv.run_isSome (h : Inv hash s) {ops : List (Op ε κ)}
    (hm : Meets (Cache.step hash) (fun s op => Allowed s op ∧ Sound hash s op) s ops) (hset : Meets (Cache.step hash) Settled s ops) :
    ∃ s' outs, exec (Cache.step hash) s ops = some (s', outs) := by
  obtain ⟨s', outs, he, -⟩ := exec_history (I := fun s _ => Inv hash s) (h := [])
    (fun s _ op hinv hok => by
      obtain ⟨⟨s', out⟩, hs⟩ := Option.isSome_iff_exists.mp (hinv.step_isSome hok.1 hok.2)
      exact ⟨s', out, hs, hinv.step hok.1 hs⟩) h (hm.and hset)
  exact ⟨s', outs, he⟩

/-- A policy that lets every entry go. -/
def always : Nat → Nat → Bool := fun _ _ => true

/-- Entries come, are used again, evicted and removed in a cache for two of them. -/
def smallRun : List (Op Nat Nat) :=
  [.tryInsert 0 10 always, .release 0, .tryInsert 1 11 always, .lookup 10, .release 0, .release 1,
    .tryInsert 2 12 always, .release 2, .tryInsert 3 13 always, .lookup 13, .remove 13, .release 3, .release 3,
    .reclaim 1 always]

def smallCache : State Nat Nat := (alloc .q2 2 (fun _ => 0)).get rfl

theorem alloc_small : alloc .q2 2 (fun _ : Nat => 0) = some smallCache := rfl

/-- Two callers have found no entry for an object, and both insert one. The second gives its entry back. -/
def lateRun : List (Op Nat Nat) :=
  [.lookup 10, .lookup 10, .tryInsert 0 10 always, .tryInsert 1 10 always, .drop 1]

/-- When an entry is freed it is not reachable and nobody holds it. Every insertion is freed once or not yet, and not
as long as the entry is in the table or held. What is found is the entry that was inserted last and not removed. -/
structure Ledger (hash : κ → Nat) (s : State ε κ) : Prop where
  calls : ∀ c ∈ s.calls, c.linked = false ∧ c.holders = 0
  once : s.history ~ s.calls.map FreeCall.entry ++ s.inserted
  nodup : s.inserted.Nodup
  kept : ∀ e, e ∈ s.inserted ↔ e ∈ s.table.entries ∨ 0 < s.held e
  found : ∀ k e, (lookup hash s k).2 = some e → s.latest k = some e

theorem Inv.ledger (h : Inv hash s) : Ledger hash s where
  calls := h.good.core.calls
  once := h.good.core.history
  nodup := h.good.core.nodup
  kept := h.good.core.mem
  found k e hfound := by
    rw [Cache.lookup] at hfound
    cases hfind : s.table.find hash s.oid k with
    | none => simp [hfind] at hfound
    | some a =>
      simp only [hfind] at hfound
      obtain rfl := Option.some.inj hfound
      obtain ⟨he, rfl⟩ := h.good.core.table.find_some hfind
      exact h.good.latest a he

/-- Two callers insert an entry for one object, and the second releases the reference to its own. -/
def releasedRun : List (Op Nat Nat) := [.tryInsert 0 10 always, .tryInsert 1 10 always, .release 1]

end RaleighSL.Zcl.Cache
