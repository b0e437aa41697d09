import RaleighSL.Library.Run
import RaleighSL.Zcl.HashMap.Calls

/-!
# Clearing the hash map

A clear of the hash map goes over as many slots as there are entries, from the first one on. The
entries in the other slots stay.
-/
namespace RaleighSL.Zcl.HashMap

open Library

variable {δ κ : Type*}

/-- The loop of `__open_hash_map_clear` from a slot on, with what is freed. -/
def clearFrom : Nat → Nat → State δ → Option (State δ × List δ)
  | 0, _, s => some (s, [])
  | count + 1, i, s => (s.buckets[i]?).bind (fun node =>
      match node.data with
      | none => clearFrom count (i + 1) s
      | some d => (clearFrom count (i + 1) { s with buckets := s.buckets.set i OhtNode.zero }).map (fun r =>
          (r.1, s.free [d] ++ r.2)))

def clear (s : State δ) : Option (State δ × List δ) :=
  (clearFrom s.size.toNat 0 s).map (fun r => ({ r.1 with size := 0 }, r.2))

/-- All entries are in the slots that are cleared, and a new array can have as many slots. -/
structure Swept (s : State δ) : Prop where
  size_le : s.size.toNat ≤ s.buckets.length
  rest : ∀ i, s.size.toNat ≤ i → s.table i = none
  aligned : alignUp s.capacity 8 = s.capacity

variable {key : δ → κ} {hash : κ → UInt64} {s s' : State δ}

theorem Inv.of_clearFrom (h : Inv key hash s) {count i : Nat} {r : State δ × List δ} (hr : clearFrom count i s = some r) :
    Inv key hash r.1 := by
  induction count generalizing s i r with
  | zero =>
    obtain rfl := Option.some.inj hr
    exact h
  | succ count ih =>
    obtain ⟨node, -, hr⟩ := Option.bind_eq_some_iff.mp hr
    cases hd : node.data with
    | none =>
      rw [hd] at hr
      exact ih h hr
    | some d =>
      rw [hd] at hr
      obtain ⟨q, hq, rfl⟩ := Option.map_eq_some_iff.mp hr
      have hinv : Inv key hash (s.write i OhtNode.zero) := h.write (by simp [OhtNode.zero]) (fun _ => rfl)
      exact ih (r := q) hinv hq

theorem Inv.of_clear (h : Inv key hash s) {r : State δ × List δ} (hr : clear s = some r) : Inv key hash r.1 := by
  obtain ⟨q, hq, rfl⟩ := Option.map_eq_some_iff.mp hr
  have hinv := h.of_clearFrom hq
  exact ⟨hinv.length, hinv.hashed, hinv.blank⟩

/-- The slots of a part of the array are emptied, and their entries are freed. -/
theorem clearFrom_append {a b c : List (OhtNode δ)} (hbuckets : s.buckets = a ++ (b ++ c))
    (hblank : ∀ node ∈ b, node.data = none → node = OhtNode.zero) : ∃ freed, clearFrom b.length a.length s =
      some ({ s with buckets := a ++ (List.replicate b.length OhtNode.zero ++ c) }, freed) := by
  induction b generalizing s a with
  | nil =>
    refine ⟨[], ?_⟩
    rw [List.length_nil, clearFrom, List.replicate_zero, ← hbuckets]
  | cons node b ih =>
    have hnode : s.buckets[a.length]? = some node := by
      rw [hbuckets, List.getElem?_append_right (Nat.le_refl _), Nat.sub_self]
      rfl
    have hrest : ∀ node ∈ b, node.data = none → node = OhtNode.zero := fun n hn => hblank n (List.mem_cons_of_mem _ hn)
    have hlen : (a ++ [OhtNode.zero]).length = a.length + 1 := by rw [List.length_append, List.length_singleton]
    rw [List.length_cons, clearFrom, hnode, Option.bind_some, List.replicate_succ]
    cases hd : node.data with
    | none =>
      have hzero := hblank node List.mem_cons_self hd
      obtain ⟨freed, hfreed⟩ := ih (s := s) (a := a ++ [OhtNode.zero]) (by rw [hbuckets, hzero]; simp) hrest
      rw [hlen] at hfreed
      exact ⟨freed, by simpa using hfreed⟩
    | some d =>
      have hset : s.buckets.set a.length OhtNode.zero = a ++ [OhtNode.zero] ++ (b ++ c) := by
        rw [hbuckets, List.set_append_right _ _ (Nat.le_refl _), Nat.sub_self]
        simp
      obtain ⟨freed, hfreed⟩ := ih (s := { s with buckets := s.buckets.set a.length OhtNode.zero }) hset hrest
      rw [hlen] at hfreed
      refine ⟨s.free [d] ++ freed, ?_⟩
      show Option.map _ _ = _
      rw [hfreed]
      simp

/-- After a clear that reaches all entries the map is one that was just made. -/
theorem Inv.clear (h : Inv key hash s) (hswept : Swept s) :
    ∃ s' freed, clear s = some (s', freed) ∧ alloc δ s'.frees s'.capacity 0 = s' := by
  have hzero (i : Nat) (node : OhtNode δ) (hi : s.buckets[i]? = some node) (hd : node.data = none) : node = OhtNode.zero := by
    have hhash := h.blank i node hi hd
    cases node
    simp_all [OhtNode.zero]
  have hblank : ∀ node ∈ s.buckets.take s.size.toNat, node.data = none → node = OhtNode.zero := by
    intro node hnode hd
    obtain ⟨i, hi⟩ := List.mem_iff_getElem?.mp (List.mem_of_mem_take hnode)
    exact hzero i node hi hd
  have hrest : s.buckets.drop s.size.toNat = List.replicate (s.buckets.length - s.size.toNat) OhtNode.zero := by
    rw [List.eq_replicate_iff]
    refine ⟨List.length_drop, ?_⟩
    intro node hnode
    obtain ⟨i, hi⟩ := List.mem_iff_getElem?.mp hnode
    rw [List.getElem?_drop] at hi
    apply hzero _ node hi
    rw [← table_eq hi]
    exact hswept.rest _ (Nat.le_add_right _ _)
  have hlen : (s.buckets.take s.size.toNat).length = s.size.toNat := List.length_take_of_le hswept.size_le
  obtain ⟨freed, hfreed⟩ := clearFrom_append (s := s) (a := []) (List.take_append_drop _ _).symm hblank
  rw [hlen, hrest, List.nil_append, List.replicate_append_replicate, Nat.add_sub_cancel' hswept.size_le, h.length] at hfreed
  refine ⟨{ s with buckets := List.replicate s.capacity.toNat OhtNode.zero, size := 0 }, freed, ?_, ?_⟩
  · show (clearFrom s.size.toNat ([] : List (OhtNode δ)).length s).map _ = _
    rw [hfreed, Option.map_some]
  · rw [alloc, hswept.aligned]

variable [DecidableEq κ] [DecidableEq δ]

theorem Inv.callStep (h : Inv key hash s) {c : Call (Op δ κ)} {e : (Result δ × List δ) ⊕ List δ}
    (hs : callStep (HashMap.step key hash) HashMap.clear s c = some (s', e)) : Inv key hash s' := by
  cases c with
  | op op =>
    obtain ⟨r, hr, hs⟩ := Option.map_eq_some_iff.mp hs
    obtain ⟨rfl, -⟩ := Prod.mk.inj hs
    exact (h.step hr).1
  | clear =>
    obtain ⟨r, hr, hs⟩ := Option.map_eq_some_iff.mp hs
    obtain ⟨rfl, -⟩ := Prod.mk.inj hs
    exact h.of_clear hr

theorem inv_exec {frees : Bool} {capacity size : UInt32} {calls : List (Call (Op δ κ))}
    {outs : List ((Result δ × List δ) ⊕ List δ)}
    (hs : exec (callStep (step key hash) clear) (alloc δ frees capacity size) calls = some (s, outs)) : Inv key hash s := by
  apply exec_invariant (C := fun _ _ => True) (fun s c s' e h _ he => h.callStep he) ?_
    (meets_of_forall (fun _ _ => trivial) _ _) hs
  exact (inv_replicate key hash _ rfl rfl).1

end RaleighSL.Zcl.HashMap
