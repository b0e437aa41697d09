import RaleighSL.Zcl.BlockArray
import RaleighSL.Zcl.HashMap.Clear
import RaleighSL.Zcl.SkipList.Clear

/-!
# Cleared containers

The skip list, the array and the hash map can be cleared and used again. A clear of the skip list
leaves the links of its head, one of the array leaves the tail, and one of the hash map goes over
as many slots as there are entries.
-/
namespace RaleighSL.Zcl

open Library

universe u v

/-! ### The array -/

namespace BlockArray

variable {s s' : State} {chain : List Nat}

def clearCall (s : State) : Option (State × Unit) := (clear s).map (fun s => (s, ()))

def reopen (s : State) : Option State := openArray s.heap s.head.items s.typeSize

theorem Inv.callStep (h : Inv s chain) {c : Call Op} {e : Result ⊕ Unit}
    (hs : callStep BlockArray.step clearCall s c = some (s', e)) : ∃ chain', Inv s' chain' := by
  cases c with
  | op op =>
    obtain ⟨r, hr, hs⟩ := Option.map_eq_some_iff.mp hs
    obtain ⟨rfl, -⟩ := Prod.mk.inj hs
    exact h.step hr
  | clear =>
    obtain ⟨r, hr, hs⟩ := Option.map_eq_some_iff.mp hs
    obtain ⟨rfl, -⟩ := Prod.mk.inj hs
    obtain ⟨t, ht, rfl⟩ := Option.map_eq_some_iff.mp hr
    obtain ⟨blocks, hclear, hinv, -⟩ := h.clear
    obtain rfl := Option.some.inj (hclear.symm.trans ht)
    exact ⟨[], hinv⟩

theorem inv_exec {heap : Heap} {items : Items} {typeSize : Nat} {a : State} {calls : List (Call Op)}
    {outs : List (Result ⊕ Unit)} (hheap : ∀ n, heap.made ≤ n → heap.blocks n = none) (ha : openArray heap items typeSize = some a)
    (hs : exec (callStep BlockArray.step clearCall) a calls = some (s, outs)) : ∃ chain, Inv s chain := by
  apply exec_invariant (C := fun _ _ => True) (I := fun s => ∃ chain, Inv s chain) ?_ ⟨[], inv_open hheap items ha⟩
    (meets_of_forall (fun _ _ => trivial) _ _) hs
  rintro s c s' e ⟨chain, h⟩ - he
  exact h.callStep he

/-- An array is as new after a clear exactly when it has no other block than its own. -/
theorem Inv.asNew_iff (h : Inv s chain) : AsNew BlockArray.step clearCall reopen s ↔ s.tail = .head := by
  obtain ⟨blocks, hclear, hinv, hfreed⟩ := h.clear
  have hcall : clearCall s = some (s.emptied blocks, ()) := by rw [clearCall, hclear, Option.map_some]
  by_cases htail : s.tail = .head
  · exact iff_of_true (asNew_of_eq hcall (h.emptied_eq htail blocks)) htail
  · refine iff_of_false ?_ htail
    have hopen : ∃ f, reopen (s.emptied blocks) = some f ∧ f.perBlock = s.perBlock := by
      rw [reopen, openArray, if_neg hinv.typeSize, h.perBlock]
      exact ⟨_, rfl, rfl⟩
    obtain ⟨f, hf, hper⟩ := hopen
    obtain ⟨r, hr⟩ := pushBack_open hf (by rw [hper]; exact h.holds htail)
    have hnone : BlockArray.step (s.emptied blocks) .pushBack = none := by
      rw [BlockArray.step, h.pushBack_emptied htail hfreed, Option.map_none]
    have hsome : BlockArray.step f .pushBack = some (r.1, .data r.2) := by
      rw [BlockArray.step, hr, Option.map_some]
    exact not_asNew_of_none hcall hf hnone hsome

end BlockArray

/-! ### All containers -/

/-- After any calls and clears, a container is as new after one more clear when the list is empty, when the array has no
other block than its own, and when the entries of the map are in its first slots, as many as its size says; for the list
and the array only then. An element that was freed is not reached then, since an access to it has no result. -/
theorem cleared_asNew {δ : Type u} {κ ι : Type v} [LinearOrder κ] [DecidableEq ι] [DecidableEq δ] (key : δ → κ)
    (ident : δ → ι) (hash : ι → UInt64) (frees : Bool) (heap : BlockArray.Heap) (items : BlockArray.Items)
    (typeSize : Nat) (capacity size : UInt32) :
    (∀ (calls : List (Call (SkipList.Op δ κ))) (s : SkipList.State δ) (outs : List (SkipList.Result δ ⊕ Unit)),
      exec (callStep (SkipList.step key) SkipList.clear) (SkipList.alloc frees) calls = some (s, outs) →
      (AsNew (SkipList.step key) SkipList.clear (fun s => some (SkipList.alloc s.frees)) s ↔ s.link 0 .head = some none)) ∧
    (∀ (a s : BlockArray.State) (calls : List (Call BlockArray.Op)) (outs : List (BlockArray.Result ⊕ Unit)),
      (∀ n, heap.made ≤ n → heap.blocks n = none) → BlockArray.openArray heap items typeSize = some a →
      exec (callStep BlockArray.step BlockArray.clearCall) a calls = some (s, outs) →
      (AsNew BlockArray.step BlockArray.clearCall BlockArray.reopen s ↔ s.tail = .head)) ∧
    (∀ (calls : List (Call (HashMap.Op δ ι))) (s : HashMap.State δ)
      (outs : List ((HashMap.Result δ × List δ) ⊕ List δ)),
      exec (callStep (HashMap.step ident hash) HashMap.clear) (HashMap.alloc δ frees capacity size) calls = some (s, outs) →
      HashMap.Swept s →
      AsNew (HashMap.step ident hash) HashMap.clear (fun s => some (HashMap.alloc δ s.frees s.capacity 0)) s) := by
  refine ⟨?_, ?_, ?_⟩
  · intro calls s outs hs
    exact (SkipList.reached_exec hs).asNew_iff
  · intro a s calls outs hheap ha hs
    obtain ⟨chain, hinv⟩ := BlockArray.inv_exec hheap ha hs
    exact hinv.asNew_iff
  · intro calls s outs hs hswept
    obtain ⟨s', freed, hclear, hfresh⟩ := (HashMap.inv_exec hs).clear hswept
    exact asNew_of_eq hclear (congrArg some hfresh)

/-- Containers whose clear reaches everything: a list whose only element was removed, an array of seven items in its own
block, and a map whose only entry is in its first slot. -/
theorem cleared_asNew_cases :
    (∃ s outs, exec (callStep (SkipList.step id) SkipList.clear) (SkipList.alloc true)
        [.op (.put 5 ⟨2, by decide⟩), .op (.remove 5)] = some (s, outs) ∧
      AsNew (SkipList.step id) SkipList.clear (fun s => some (SkipList.alloc s.frees)) s) ∧
    (∃ a s outs, BlockArray.openArray ⟨fun _ => none, 0⟩ ⟨List.replicate 56 0, rfl⟩ 8 = some a ∧
      exec (callStep BlockArray.step BlockArray.clearCall) a (List.replicate 7 (.op .pushBack)) = some (s, outs) ∧
      AsNew BlockArray.step BlockArray.clearCall BlockArray.reopen s) ∧
    (∃ s outs, exec (callStep (HashMap.step id UInt64.ofNat) HashMap.clear) (HashMap.alloc Nat true 16 0)
        [.op (.put 16)] = some (s, outs) ∧
      AsNew (HashMap.step id UInt64.ofNat) HashMap.clear (fun s => some (HashMap.alloc Nat s.frees s.capacity 0)) s) := by
  refine ⟨?_, ?_, ?_⟩
  · have hrun : (exec (callStep (SkipList.step id) SkipList.clear) (SkipList.alloc true)
        [.op (.put 5 ⟨2, by decide⟩), .op (.remove 5)]).map (fun r => r.1.link 0 .head) = some (some none) := by
      decide +kernel
    obtain ⟨⟨s, outs⟩, hs, hlink⟩ := Option.map_eq_some_iff.mp hrun
    exact ⟨s, outs, hs, ((cleared_asNew (id : Nat → Nat) (id : Nat → Nat) UInt64.ofNat true ⟨fun _ => none, 0⟩
      ⟨List.replicate 56 0, rfl⟩ 8 16 0).1 _ s outs hs).mpr hlink⟩
  · have hrun : (exec (callStep BlockArray.step BlockArray.clearCall)
        { head := ⟨none, ⟨List.replicate 56 0, rfl⟩⟩, heap := ⟨fun _ => none, 0⟩, tail := .head, count := 0, typeSize := 8,
          perBlock := 7 }
        (List.replicate 7 (.op .pushBack))).map (fun r => r.1.tail) = some .head := by
      decide +kernel
    obtain ⟨⟨s, outs⟩, hs, htail⟩ := Option.map_eq_some_iff.mp hrun
    exact ⟨_, s, outs, rfl, hs, ((cleared_asNew (id : Nat → Nat) (id : Nat → Nat) UInt64.ofNat true ⟨fun _ => none, 0⟩
      ⟨List.replicate 56 0, rfl⟩ 8 16 0).2.1 _ s _ outs (fun _ _ => rfl) rfl hs).mpr htail⟩
  · have hrun : exec (callStep (HashMap.step id UInt64.ofNat) HashMap.clear) (HashMap.alloc Nat true 16 0) [.op (.put 16)] =
        some ({ buckets := ⟨16, some 16⟩ :: List.replicate 15 HashMap.OhtNode.zero, capacity := 16, size := 1, frees := true },
          [.inl (.status 0, [])]) := by
      decide +kernel
    refine ⟨_, _, hrun, (cleared_asNew (id : Nat → Nat) id UInt64.ofNat true ⟨fun _ => none, 0⟩
      ⟨List.replicate 56 0, rfl⟩ 8 16 0).2.2 _ _ _ hrun ⟨by decide, ?_, by decide⟩⟩
    intro i hi
    obtain ⟨i, rfl⟩ := Nat.exists_eq_succ_of_ne_zero (Nat.ne_of_gt hi)
    rw [Option.eq_none_iff_forall_ne_some]
    intro d hd
    obtain ⟨node, hnode, hdata⟩ := Option.bind_eq_some_iff.mp hd
    rw [List.getElem?_cons_succ] at hnode
    rw [List.eq_of_mem_replicate (List.mem_of_getElem? hnode)] at hdata
    simp [HashMap.OhtNode.zero] at hdata

/-- A list with an element, an array of two blocks and a map whose only entry is in its sixth slot are not as new after a
clear: the next search of the list and the next item of the array come to what was freed, and the map still has the
entry. -/
theorem cleared_dangles :
    (∃ s outs, exec (callStep (SkipList.step id) SkipList.clear) (SkipList.alloc true)
        [.op (.put 5 ⟨1, by decide⟩)] = some (s, outs) ∧
      ¬ AsNew (SkipList.step id) SkipList.clear (fun s => some (SkipList.alloc s.frees)) s) ∧
    (∃ a s outs, BlockArray.openArray ⟨fun _ => none, 0⟩ ⟨List.replicate 56 0, rfl⟩ 8 = some a ∧
      exec (callStep BlockArray.step BlockArray.clearCall) a (List.replicate 8 (.op .pushBack)) = some (s, outs) ∧
      ¬ AsNew BlockArray.step BlockArray.clearCall BlockArray.reopen s) ∧
    (∃ s outs, exec (callStep (HashMap.step id UInt64.ofNat) HashMap.clear) (HashMap.alloc Nat true 16 0)
        [.op (.put 5)] = some (s, outs) ∧
      ¬ AsNew (HashMap.step id UInt64.ofNat) HashMap.clear (fun s => some (HashMap.alloc Nat s.frees s.capacity 0)) s) := by
  refine ⟨?_, ?_, ?_⟩
  · have hrun : (exec (callStep (SkipList.step id) SkipList.clear) (SkipList.alloc true)
        [.op (.put 5 ⟨1, by decide⟩)]).map (fun r => r.1.link 0 .head) = some (some (some 0)) := by
      decide +kernel
    obtain ⟨⟨s, outs⟩, hs, hlink⟩ := Option.map_eq_some_iff.mp hrun
    refine ⟨s, outs, hs, fun hnew => ?_⟩
    have hnone := (SkipList.reached_exec hs).asNew_iff.mp hnew
    rw [hlink] at hnone
    simp at hnone
  · have hrun : (exec (callStep BlockArray.step BlockArray.clearCall)
        { head := ⟨none, ⟨List.replicate 56 0, rfl⟩⟩, heap := ⟨fun _ => none, 0⟩, tail := .head, count := 0, typeSize := 8,
          perBlock := 7 }
        (List.replicate 8 (.op .pushBack))).map (fun r => r.1.tail) = some (.block 0) := by
      decide +kernel
    obtain ⟨⟨s, outs⟩, hs, htail⟩ := Option.map_eq_some_iff.mp hrun
    refine ⟨_, s, outs, rfl, hs, fun hnew => ?_⟩
    obtain ⟨chain, hinv⟩ := BlockArray.inv_exec (fun _ _ => rfl)
      (show BlockArray.openArray ⟨fun _ => none, 0⟩ ⟨List.replicate 56 0, rfl⟩ 8 = some _ from rfl) hs
    have hhead := hinv.asNew_iff.mp hnew
    rw [htail] at hhead
    simp at hhead
  · have hrun : exec (callStep (HashMap.step id UInt64.ofNat) HashMap.clear) (HashMap.alloc Nat true 16 0) [.op (.put 5)] =
        some ({ HashMap.alloc Nat true 16 0 with
          buckets := (List.replicate 16 HashMap.OhtNode.zero).set 5 ⟨5, some 5⟩
          size := 1 }, [.inl (.status 0, [])]) := by
      decide +kernel
    have hclear : HashMap.clear { HashMap.alloc Nat true 16 0 with
          buckets := (List.replicate 16 HashMap.OhtNode.zero).set 5 ⟨5, some 5⟩
          size := 1 } =
        some ({ HashMap.alloc Nat true 16 0 with
          buckets := (List.replicate 16 HashMap.OhtNode.zero).set 5 ⟨5, some 5⟩ }, []) := by
      decide +kernel
    exact ⟨_, _, hrun, not_asNew [.op (.get 5)] hclear rfl (by decide +kernel)⟩

end RaleighSL.Zcl
