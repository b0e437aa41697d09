import RaleighSL.Library.Chain
import RaleighSL.Library.Run
import Mathlib.Data.List.Perm.Basic
import Mathlib.Order.Basic

/-!
# Free blocks

`core/memory/freelist.c` links free blocks by a node in their first bytes, which has the next block and the
size. A block is taken out by giving its link to the node in front of it. For the first block `pop_fit` and
`pop_best` take the block itself for that node, and `pop_best` does so for every larger block too: nothing
changes then, and the block that is handed out stays on the list.

Whoever has a block may write over its node. The loops end when the list does, which a block that is
handed out twice may prevent.
-/
namespace RaleighSL.Zcl
open Library

/-- `z_free_list_node_t`. -/
structure FreeListNode (β : Type*) where
  next : Option β
  size : Nat
  deriving DecidableEq, Repr

/-- `z_free_list_t`, with the first bytes of every block. -/
structure FreeList (β : Type*) where
  head : Option β
  node : β → FreeListNode β

namespace FreeList

variable {β : Type*} [DecidableEq β]

def write (self : FreeList β) (memory : β) (node : FreeListNode β) : FreeList β :=
  { self with node := Function.update self.node memory node }

def add (self : FreeList β) (memory : β) : FreeList β :=
  { self.write memory { self.node memory with next := self.head } with head := some memory }

def addSized (self : FreeList β) (memory : β) (size : Nat) : FreeList β :=
  { self.write memory { next := self.head, size := size } with head := some memory }

def pop (self : FreeList β) : FreeList β × Option β :=
  match self.head with
  | none => (self, none)
  | some node => ({ self with head := (self.node node).next }, some node)

def setNext (self : FreeList β) (memory : β) (next : Option β) : FreeList β :=
  self.write memory { self.node memory with next := next }

def popFitLoop (self : FreeList β) (required : Nat) : Nat → β → Option β → Option (FreeList β × Option (β × Nat))
  | _, _, none => some (self, none)
  | 0, _, some _ => none
  | fuel + 1, prev, some node =>
    if required ≤ (self.node node).size then
      some (self.setNext prev (self.node node).next, some (node, (self.node node).size))
    else self.popFitLoop required fuel node (self.node node).next

def popFit (self : FreeList β) (required fuel : Nat) : Option (FreeList β × Option (β × Nat)) :=
  match self.head with
  | none => some (self, none)
  | some head => self.popFitLoop required fuel head (some head)

/-- The loop of `z_free_list_pop_best`, with `best_prev` and `best`. -/
def popBestLoop (self : FreeList β) (required : Nat) :
    Nat → β → Option β → Option (β × β) → Option (FreeList β × Option (β × Nat))
  | _, _, none, none => some (self, none)
  | _, _, none, some (bestPrev, best) =>
    some (self.setNext bestPrev (self.node best).next, some (best, (self.node best).size))
  | 0, _, some _, _ => none
  | fuel + 1, prev, some node, best =>
    if (self.node node).size = required then
      some (self.setNext prev (self.node node).next, some (node, (self.node node).size))
    else self.popBestLoop required fuel node (self.node node).next
      (if required < (self.node node).size ∧ best = none then some (node, node) else best)

def popBest (self : FreeList β) (required fuel : Nat) : Option (FreeList β × Option (β × Nat)) :=
  match self.head with
  | none => some (self, none)
  | some head => self.popBestLoop required fuel head (some head) none

/-! ### Calls -/

/-- What is done with the list, and with the blocks that are not on it. -/
inductive Call (β : Type*) where
  | add (memory : β)
  | addSized (memory : β) (size : Nat)
  | pop
  | popFit (required : Nat)
  | popBest (required : Nat)
  | write (memory : β) (node : FreeListNode β)
  deriving Repr

/-- The block that is handed out, and its size where it is given. -/
abbrev Answer (β : Type*) := Option (β × Option Nat)

def serve (fuel : Nat) (self : FreeList β) : Call β → Option (FreeList β × Answer β)
  | .add memory => some (self.add memory, none)
  | .addSized memory size => some (self.addSized memory size, none)
  | .pop => some (self.pop.1, self.pop.2.map (fun memory => (memory, none)))
  | .popFit required => (self.popFit required fuel).map (fun r => (r.1, r.2.map (fun p => (p.1, some p.2))))
  | .popBest required => (self.popBest required fuel).map (fun r => (r.1, r.2.map (fun p => (p.1, some p.2))))
  | .write memory node => some (self.write memory node, none)

/-- The blocks that were added and not handed out since, with their sizes. -/
abbrev Ledger (β : Type*) := List (β × Nat)

def Ledger.after (held : Ledger β) (self : FreeList β) : Call β → Answer β → Ledger β
  | .add memory, _ => (memory, (self.node memory).size) :: held
  | .addSized memory size, _ => (memory, size) :: held
  | .write _ _, _ => held
  | _, none => held
  | _, some p => held.filter (fun q => q.1 ≠ p.1)

def watch (fuel : Nat) (s : FreeList β × Ledger β) (call : Call β) : Option ((FreeList β × Ledger β) × Answer β) :=
  (s.1.serve fuel call).map (fun r => ((r.1, s.2.after s.1 call r.2), r.2))

/-- A block is added, or written by others, while it is not held. -/
def Allowed (s : FreeList β × Ledger β) : Call β → Prop
  | .add memory => memory ∉ s.2.map Prod.fst
  | .addSized memory _ => memory ∉ s.2.map Prod.fst
  | .write memory _ => memory ∉ s.2.map Prod.fst
  | _ => True

instance (s : FreeList β × Ledger β) : DecidablePred (Allowed s)
  | .add memory => inferInstanceAs (Decidable (memory ∉ s.2.map Prod.fst))
  | .addSized memory _ => inferInstanceAs (Decidable (memory ∉ s.2.map Prod.fst))
  | .write memory _ => inferInstanceAs (Decidable (memory ∉ s.2.map Prod.fst))
  | .pop => .isTrue trivial
  | .popFit _ => .isTrue trivial
  | .popBest _ => .isTrue trivial

/-! ### What the calls promise -/

def entries (self : FreeList β) (l : List β) : Ledger β := l.map (fun memory => (memory, (self.node memory).size))

def Holds (self : FreeList β) (held : Ledger β) : Prop :=
  ∃ l, Chain (fun memory => (self.node memory).next) self.head l ∧ (self.entries l).Perm held

/-- A held block is handed out, one that is large enough, or the smallest one of these, unless there is none. -/
def Answers (held : Ledger β) : Call β → Answer β → Prop
  | .pop, none => held = []
  | .pop, some (memory, size) => memory ∈ held.map Prod.fst ∧ size = none
  | .popFit required, none => ∀ p ∈ held, p.2 < required
  | .popFit required, some (memory, size) => ∃ n, size = some n ∧ (memory, n) ∈ held ∧ required ≤ n
  | .popBest required, none => ∀ p ∈ held, p.2 < required
  | .popBest required, some (memory, size) =>
    ∃ n, size = some n ∧ (memory, n) ∈ held ∧ required ≤ n ∧ ∀ p ∈ held, required ≤ p.2 → n ≤ p.2
  | _, answer => answer = none

/-- The answer is right, and the list has the blocks of the ledger behind the call. -/
def Right (s : FreeList β × Ledger β) (call : Call β) (s' : FreeList β × Ledger β) (answer : Answer β) : Prop :=
  Answers s.2 call answer ∧ s'.1.Holds s'.2

/-- The block that is wanted is not the first one, and of larger blocks there is one of the wanted size. -/
def Clean (s : FreeList β × Ledger β) : Call β → Prop
  | .popFit required => ∀ head ∈ s.1.head, (s.1.node head).size < required
  | .popBest required => (∀ head ∈ s.1.head, (s.1.node head).size ≠ required) ∧
      ((∃ p ∈ s.2, required < p.2) → ∃ p ∈ s.2, p.2 = required)
  | _ => True

instance (s : FreeList β × Ledger β) : DecidablePred (Clean s)
  | .popFit required => inferInstanceAs (Decidable (∀ head ∈ s.1.head, (s.1.node head).size < required))
  | .popBest _ => inferInstanceAs (Decidable (_ ∧ _))
  | .add _ => .isTrue trivial
  | .addSized _ _ => .isTrue trivial
  | .write _ _ => .isTrue trivial
  | .pop => .isTrue trivial

/-! ### Memory -/

variable {self : FreeList β} {held : Ledger β} {l front back : List β} {a b : β} {required fuel : Nat}

@[simp] theorem setNext_self (self : FreeList β) (b : β) : self.setNext b (self.node b).next = self := by
  rw [setNext, write, Function.update_eq_self]

@[simp] theorem setNext_head (self : FreeList β) (b : β) (next : Option β) : (self.setNext b next).head = self.head := rfl

@[simp] theorem write_node_self (self : FreeList β) (b : β) (node : FreeListNode β) : (self.write b node).node b = node :=
  Function.update_self ..

theorem write_node_of_ne (self : FreeList β) (node : FreeListNode β) (h : a ≠ b) :
    (self.write b node).node a = self.node a := Function.update_of_ne h ..

theorem setNext_size (self : FreeList β) (b : β) (next : Option β) (c : β) :
    ((self.setNext b next).node c).size = (self.node c).size := by
  by_cases hc : c = b
  · rw [hc, setNext, write_node_self]
  · rw [setNext, write_node_of_ne self _ hc]

theorem next_write (self : FreeList β) (b : β) (node : FreeListNode β) :
    (fun c => ((self.write b node).node c).next) = Function.update (fun c => (self.node c).next) b node.next := by
  funext c
  by_cases hc : c = b
  · rw [hc, write_node_self, Function.update_self]
  · rw [write_node_of_ne self node hc, Function.update_of_ne hc]

theorem entries_write (self : FreeList β) (node : FreeListNode β) (hb : b ∉ l) :
    (self.write b node).entries l = self.entries l := by
  apply List.map_congr_left
  intro c hc
  have hne : c ≠ b := fun h => hb (h ▸ hc)
  rw [write_node_of_ne self node hne]

theorem entries_setNext (self : FreeList β) (b : β) (next : Option β) (l : List β) :
    (self.setNext b next).entries l = self.entries l := by
  apply List.map_congr_left
  intro c _
  rw [setNext_size]

omit [DecidableEq β] in
theorem map_fst_entries (self : FreeList β) (l : List β) : (self.entries l).map Prod.fst = l := by
  rw [entries, List.map_map]
  exact List.map_id l

omit [DecidableEq β] in
theorem mem_entries {p : β × Nat} : p ∈ self.entries l ↔ p.1 ∈ l ∧ p.2 = (self.node p.1).size := by
  rw [entries, List.mem_map]
  constructor
  · rintro ⟨c, hc, rfl⟩
    exact ⟨hc, rfl⟩
  · rintro ⟨hc, hsize⟩
    exact ⟨p.1, hc, Prod.ext rfl hsize.symm⟩

/-! ### The loops -/

/-- The loop for a block that fits stops at the first one. -/
theorem popFitLoop_spec (required : Nat) (prev : β) {first : Option β} (hchain : Chain (fun c => (self.node c).next) first l)
    (hfuel : l.length ≤ fuel) :
    self.popFitLoop required fuel prev first = some (self, none) ∧ (∀ c ∈ l, (self.node c).size < required) ∨
      ∃ front b back, l = front ++ b :: back ∧ (∀ c ∈ front, (self.node c).size < required) ∧
        required ≤ (self.node b).size ∧ self.popFitLoop required fuel prev first =
          some (self.setNext (front.getLast?.getD prev) (self.node b).next, some (b, (self.node b).size)) := by
  induction l generalizing fuel prev first with
  | nil =>
    obtain rfl : first = none := hchain
    exact .inl ⟨by cases fuel <;> rfl, fun c hc => absurd hc List.not_mem_nil⟩
  | cons a l ih =>
    obtain ⟨rfl, hrest⟩ := hchain
    cases fuel with
    | zero => exact absurd hfuel (Nat.not_succ_le_zero l.length)
    | succ fuel =>
      rw [popFitLoop]
      by_cases hfits : required ≤ (self.node a).size
      · exact .inr ⟨[], a, l, rfl, fun c hc => absurd hc List.not_mem_nil, hfits, if_pos hfits⟩
      · rw [if_neg hfits]
        have ha : (self.node a).size < required := Nat.lt_of_not_le hfits
        obtain ⟨hnone, hall⟩ | ⟨front, b, back, rfl, hall, hb, hloop⟩ :=
          ih a hrest (Nat.le_of_succ_le_succ hfuel)
        · exact .inl ⟨hnone, List.forall_mem_cons.mpr ⟨ha, hall⟩⟩
        · refine .inr ⟨a :: front, b, back, rfl, List.forall_mem_cons.mpr ⟨ha, hall⟩, hb, ?_⟩
          rw [hloop, List.getLast?_cons, Option.getD_some]

/-- The loop for the best block stops at the first one of the wanted size, or takes the first larger one. -/
theorem popBestLoop_spec (required : Nat) (prev : β) {first : Option β} (hchain : Chain (fun c => (self.node c).next) first l)
    (hfuel : l.length ≤ fuel) (best : Option β) :
    (∃ front b back, l = front ++ b :: back ∧ (∀ c ∈ front, (self.node c).size ≠ required) ∧
        (self.node b).size = required ∧ self.popBestLoop required fuel prev first (best.map (fun b => (b, b))) =
          some (self.setNext (front.getLast?.getD prev) (self.node b).next, some (b, (self.node b).size))) ∨
      (∀ c ∈ l, (self.node c).size ≠ required) ∧ self.popBestLoop required fuel prev first (best.map (fun b => (b, b))) =
        some (self, (best.or (l.find? (fun c => required < (self.node c).size))).map (fun b => (b, (self.node b).size))) := by
  induction l generalizing fuel prev first best with
  | nil =>
    obtain rfl : first = none := hchain
    refine .inr ⟨fun c hc => absurd hc List.not_mem_nil, ?_⟩
    cases best with
    | none => cases fuel <;> rfl
    | some b =>
      cases fuel
      all_goals
        rw [Option.map_some, popBestLoop, setNext_self]
        rfl
  | cons a l ih =>
    obtain ⟨rfl, hrest⟩ := hchain
    cases fuel with
    | zero => exact absurd hfuel (Nat.not_succ_le_zero l.length)
    | succ fuel =>
      rw [popBestLoop]
      by_cases hsame : (self.node a).size = required
      · exact .inl ⟨[], a, l, rfl, fun c hc => absurd hc List.not_mem_nil, hsame, if_pos hsame⟩
      · have hbest : (if required < (self.node a).size ∧ best.map (fun b => (b, b)) = none then some (a, a)
            else best.map (fun b => (b, b))) = ((best.or (if required < (self.node a).size then some a else none)).map
              (fun b => (b, b))) := by
          cases best with
          | none => by_cases hlarge : required < (self.node a).size <;> simp [hlarge]
          | some b => simp
        rw [if_neg hsame, hbest]
        obtain ⟨front, b, back, rfl, hall, hb, hloop⟩ | ⟨hall, hloop⟩ :=
          ih a hrest (Nat.le_of_succ_le_succ hfuel) (best.or (if required < (self.node a).size then some a else none))
        · refine .inl ⟨a :: front, b, back, rfl, List.forall_mem_cons.mpr ⟨hsame, hall⟩, hb, ?_⟩
          rw [hloop, List.getLast?_cons, Option.getD_some]
        · refine .inr ⟨List.forall_mem_cons.mpr ⟨hsame, hall⟩, ?_⟩
          rw [hloop, Option.or_assoc]
          by_cases hlarge : required < (self.node a).size <;> simp [hlarge]

/-! ### The ledger -/

omit [DecidableEq β] in
theorem mem_of_perm (hperm : (self.entries l).Perm held) (hb : b ∈ l) : (b, (self.node b).size) ∈ held :=
  hperm.subset (mem_entries.mpr ⟨hb, rfl⟩)

omit [DecidableEq β] in
theorem nodup_of_perm (hperm : (self.entries l).Perm held) (hnodup : (held.map Prod.fst).Nodup) : l.Nodup := by
  rw [← map_fst_entries self l]
  exact (hperm.map Prod.fst).nodup_iff.mpr hnodup

omit [DecidableEq β] in
theorem mem_iff_of_perm (hperm : (self.entries l).Perm held) : b ∈ l ↔ b ∈ held.map Prod.fst := by
  rw [← map_fst_entries self l]
  exact (hperm.map Prod.fst).mem_iff

omit [DecidableEq β] in
theorem length_of_perm (hperm : (self.entries l).Perm held) : l.length = held.length := by
  rw [← hperm.length_eq, entries, List.length_map]

omit [DecidableEq β] in
theorem size_of_mem (hperm : (self.entries l).Perm held) {p : β × Nat} (hp : p ∈ held) :
    p.1 ∈ l ∧ p.2 = (self.node p.1).size := mem_entries.mp (hperm.mem_iff.mpr hp)

theorem entries_remove (front : List β) (hperm : (self.entries (front ++ b :: back)).Perm held) (hnodup : (front ++ b :: back).Nodup) :
    (self.entries (front ++ back)).Perm (held.filter (fun q => q.1 ≠ b)) := by
  have hcons := (List.nodup_middle.mp hnodup)
  have hnot : b ∉ front ++ back := (List.nodup_cons.mp hcons).1
  have hkeep : (self.entries (front ++ back)).filter (fun q => q.1 ≠ b) = self.entries (front ++ back) := by
    rw [List.filter_eq_self]
    intro q hq
    exact decide_eq_true (fun heq => hnot (heq ▸ (mem_entries.mp hq).1))
  have hdrop : (self.entries (b :: (front ++ back))).filter (fun q => q.1 ≠ b) = self.entries (front ++ back) := by
    rw [entries, List.map_cons, List.filter_cons_of_neg (by simp)]
    exact hkeep
  have hmove : (self.entries (b :: (front ++ back))).Perm held :=
    ((List.perm_middle (a := b)).symm.map _).trans hperm
  exact hdrop ▸ hmove.filter _

theorem holds_tail (hchain : Chain (fun c => (self.node c).next) self.head (b :: l))
    (hperm : (self.entries (b :: l)).Perm held) (hnodup : (held.map Prod.fst).Nodup) :
    { self with head := (self.node b).next }.Holds (held.filter (fun q => q.1 ≠ b)) :=
  ⟨l, hchain.2, entries_remove [] hperm (nodup_of_perm hperm hnodup)⟩

theorem holds_unlink (hchain : Chain (fun c => (self.node c).next) self.head (a :: front ++ b :: back))
    (hperm : (self.entries (a :: front ++ b :: back)).Perm held) (hnodup : (held.map Prod.fst).Nodup) (q : β) :
    (self.setNext ((a :: front).getLast?.getD q) (self.node b).next).Holds (held.filter (fun p => p.1 ≠ b)) := by
  have hlist := nodup_of_perm hperm hnodup
  obtain ⟨init, last, hsplit⟩ : ∃ init last, a :: front = init ++ [last] :=
    ⟨_, _, (List.dropLast_append_getLast (List.cons_ne_nil a front)).symm⟩
  refine ⟨a :: front ++ back, ?_, ?_⟩
  · rw [hsplit, List.append_assoc, List.singleton_append] at hchain hlist ⊢
    rw [List.getLast?_append, List.getLast?_singleton, Option.some_or, Option.getD_some, setNext_head, setNext, next_write]
    exact hchain.unlink hlist
  · rw [entries_setNext]
    exact entries_remove (a :: front) hperm hlist

/-- The list does not lose a block when nothing changes. -/
theorem not_holds_of_stays (hchain : Chain (fun c => (self.node c).next) self.head l) (hb : b ∈ l) :
    ¬ self.Holds (held.filter (fun p => p.1 ≠ b)) := by
  rintro ⟨m, hchain', hperm⟩
  obtain rfl := hchain.unique hchain'
  have hmem := mem_of_perm hperm hb
  rw [List.mem_filter] at hmem
  exact absurd rfl (of_decide_eq_true hmem.2)

theorem holds_cons (hold : self.Holds held) (hb : b ∉ held.map Prod.fst) (size : Nat) :
    { self.write b { next := self.head, size := size } with head := some b }.Holds ((b, size) :: held) := by
  obtain ⟨l, hchain, hperm⟩ := hold
  have hl : b ∉ l := fun h => hb ((mem_iff_of_perm hperm).mp h)
  refine ⟨b :: l, ⟨rfl, ?_⟩, ?_⟩
  · change Chain (fun c => ((self.write b _).node c).next) ((self.write b _).node b).next l
    rw [next_write, write_node_self]
    exact Chain.update hchain hl _
  · change ((b, ((self.write b _).node b).size) :: (self.write b _).entries l).Perm _
    rw [entries_write self _ hl, write_node_self]
    exact hperm.cons _

theorem holds_write (hold : self.Holds held) (hb : b ∉ held.map Prod.fst) (node : FreeListNode β) :
    (self.write b node).Holds held := by
  obtain ⟨l, hchain, hperm⟩ := hold
  have hl : b ∉ l := fun h => hb ((mem_iff_of_perm hperm).mp h)
  refine ⟨l, ?_, ?_⟩
  · rw [next_write]
    exact Chain.update hchain hl _
  · rw [entries_write self _ hl]
    exact hperm

/-! ### The blocks that fit -/

theorem popFit_of_head {head : β} (h : self.head = some head) :
    self.popFit required fuel = self.popFitLoop required fuel head (some head) := by
  rw [popFit, h]

theorem popBest_of_head {head : β} (h : self.head = some head) :
    self.popBest required fuel = self.popBestLoop required fuel head (some head) none := by
  rw [popBest, h]

/-- A block that fits is taken off the list when it is not the first one. -/
theorem popFit_spec (hold : self.Holds held) (hnodup : (held.map Prod.fst).Nodup) (hfuel : held.length ≤ fuel)
    (hclean : ∀ head ∈ self.head, (self.node head).size < required) :
    self.popFit required fuel = some (self, none) ∧ (∀ p ∈ held, p.2 < required) ∨
      ∃ self' b, self.popFit required fuel = some (self', some (b, (self.node b).size)) ∧
        (b, (self.node b).size) ∈ held ∧ required ≤ (self.node b).size ∧ self'.Holds (held.filter (fun p => p.1 ≠ b)) := by
  obtain ⟨l, hchain, hperm⟩ := hold
  have hlength : l.length ≤ fuel := (length_of_perm hperm).trans_le hfuel
  cases l with
  | nil =>
    have hhead : self.head = none := hchain
    refine .inl ⟨by rw [popFit, hhead], fun p hp => absurd (size_of_mem hperm hp).1 List.not_mem_nil⟩
  | cons a l =>
    rw [popFit_of_head hchain.1]
    obtain ⟨hloop, hall⟩ | ⟨front, b, back, hsplit, hall, hb, hloop⟩ :=
      popFitLoop_spec required a (hchain.1 ▸ hchain) hlength
    · refine .inl ⟨hloop, fun p hp => ?_⟩
      obtain ⟨hmem, hsize⟩ := size_of_mem hperm hp
      exact hsize ▸ hall p.1 hmem
    · have hmem : b ∈ a :: l := hsplit ▸ List.mem_append_right front List.mem_cons_self
      refine .inr ⟨_, b, hloop, mem_of_perm hperm hmem, hb, ?_⟩
      cases front with
      | nil =>
        obtain ⟨rfl, -⟩ := List.cons.inj hsplit
        exact absurd hb (Nat.not_le.mpr (hclean a hchain.1))
      | cons c front =>
        rw [hsplit] at hchain hperm
        exact holds_unlink hchain hperm hnodup a

/-- The first block stays on the list. -/
theorem popFit_stays (hold : self.Holds held) (hfuel : held.length ≤ fuel) {head : β} (hhead : self.head = some head)
    (hfits : required ≤ (self.node head).size) :
    self.popFit required fuel = some (self, some (head, (self.node head).size)) := by
  obtain ⟨l, hchain, hperm⟩ := hold
  rw [hhead] at hchain
  rw [popFit_of_head hhead]
  cases l with
  | nil => cases hchain
  | cons a l =>
    have hlength : (a :: l).length ≤ fuel := (length_of_perm hperm).trans_le hfuel
    cases fuel with
    | zero => exact absurd hlength (Nat.not_succ_le_zero l.length)
    | succ fuel => rw [popFitLoop, if_pos hfits, setNext_self]

/-- A block of the wanted size is taken off the list when it is not the first one. -/
theorem popBest_spec (hold : self.Holds held) (hnodup : (held.map Prod.fst).Nodup) (hfuel : held.length ≤ fuel)
    (hclean : ∀ head ∈ self.head, (self.node head).size ≠ required)
    (hsome : (∃ p ∈ held, required < p.2) → ∃ p ∈ held, p.2 = required) :
    self.popBest required fuel = some (self, none) ∧ (∀ p ∈ held, p.2 < required) ∨
      ∃ self' b, self.popBest required fuel = some (self', some (b, (self.node b).size)) ∧
        (b, (self.node b).size) ∈ held ∧ (self.node b).size = required ∧ self'.Holds (held.filter (fun p => p.1 ≠ b)) := by
  obtain ⟨l, hchain, hperm⟩ := hold
  have hlength : l.length ≤ fuel := (length_of_perm hperm).trans_le hfuel
  cases l with
  | nil =>
    have hhead : self.head = none := hchain
    refine .inl ⟨by rw [popBest, hhead], fun p hp => absurd (size_of_mem hperm hp).1 List.not_mem_nil⟩
  | cons a l =>
    rw [popBest_of_head hchain.1]
    obtain ⟨front, b, back, hsplit, hall, hb, hloop⟩ | ⟨hall, hloop⟩ :=
      popBestLoop_spec required a (hchain.1 ▸ hchain) hlength none
    · have hmem : b ∈ a :: l := hsplit ▸ List.mem_append_right front List.mem_cons_self
      refine .inr ⟨_, b, hloop, mem_of_perm hperm hmem, hb, ?_⟩
      cases front with
      | nil =>
        obtain ⟨rfl, -⟩ := List.cons.inj hsplit
        exact absurd hb (hclean a hchain.1)
      | cons c front =>
        rw [hsplit] at hchain hperm
        exact holds_unlink hchain hperm hnodup a
    · have hsmall : ∀ p ∈ held, p.2 < required := by
        have hne : ∀ p ∈ held, p.2 ≠ required := fun p hp => by
          obtain ⟨hmem, hsize⟩ := size_of_mem hperm hp
          exact hsize ▸ hall p.1 hmem
        intro p hp
        have hle : ¬ required < p.2 := fun hlarge => by
          obtain ⟨q, hq, heq⟩ := hsome ⟨p, hp, hlarge⟩
          exact hne q hq heq
        have hsize := hne p hp
        omega
      have hnone : (a :: l).find? (fun c => required < (self.node c).size) = none := by
        rw [List.find?_eq_none]
        intro c hc
        have hlt : (self.node c).size < required := hsmall _ (mem_of_perm hperm hc)
        simpa using Nat.le_of_lt hlt
      rw [hnone] at hloop
      exact .inl ⟨hloop, hsmall⟩

/-- The first block and a larger block stay on the list. -/
theorem popBest_stays (hold : self.Holds held) (hfuel : held.length ≤ fuel)
    (hwrong : (∃ head, self.head = some head ∧ (self.node head).size = required) ∨
      (∃ p ∈ held, required < p.2) ∧ ∀ p ∈ held, p.2 ≠ required) :
    ∃ b, b ∈ held.map Prod.fst ∧ self.popBest required fuel = some (self, some (b, (self.node b).size)) := by
  obtain ⟨l, hchain, hperm⟩ := hold
  have hlength : l.length ≤ fuel := (length_of_perm hperm).trans_le hfuel
  cases l with
  | nil =>
    obtain ⟨head, hhead, -⟩ | ⟨⟨p, hp, -⟩, -⟩ := hwrong
    · exact absurd (hhead.symm.trans hchain) (Option.some_ne_none head)
    · exact absurd (size_of_mem hperm hp).1 List.not_mem_nil
  | cons a l =>
    rw [popBest_of_head hchain.1]
    obtain ⟨head, hhead, hsize⟩ | ⟨⟨p, hp, hlarge⟩, hne⟩ := hwrong
    · obtain rfl : a = head := Option.some.inj (hchain.1.symm.trans hhead)
      refine ⟨a, (mem_iff_of_perm hperm).mp List.mem_cons_self, ?_⟩
      cases fuel with
      | zero => exact absurd hlength (Nat.not_succ_le_zero l.length)
      | succ fuel => rw [popBestLoop, if_pos hsize, setNext_self]
    · obtain ⟨front, b, back, hsplit, -, hb, -⟩ | ⟨-, hloop⟩ :=
        popBestLoop_spec required a (hchain.1 ▸ hchain) hlength none
      · have hmem : b ∈ a :: l := hsplit ▸ List.mem_append_right front List.mem_cons_self
        exact absurd hb (hne _ (mem_of_perm hperm hmem))
      · obtain ⟨hmem, hsize⟩ := size_of_mem hperm hp
        have hfound : ((a :: l).find? (fun c => required < (self.node c).size)).isSome := by
          rw [List.find?_isSome]
          exact ⟨p.1, hmem, by simpa [← hsize] using hlarge⟩
        obtain ⟨b, hb⟩ := Option.isSome_iff_exists.mp hfound
        rw [hb] at hloop
        exact ⟨b, (mem_iff_of_perm hperm).mp (List.mem_of_find?_eq_some hb), hloop⟩

/-! ### Runs -/

variable {s s' : FreeList β × Ledger β} {call : Call β} {answer : Answer β} {n : Nat}

/-- The list has the blocks of the ledger, each of them once, and the fuel is enough for the calls that are left. -/
structure Kept (fuel n : Nat) (s : FreeList β × Ledger β) : Prop where
  holds : s.1.Holds s.2
  nodup : (s.2.map Prod.fst).Nodup
  fuel : s.2.length + n ≤ fuel

omit [DecidableEq β] in
theorem Kept.room (h : Kept fuel (n + 1) s) : s.2.length ≤ fuel := by
  have hfuel := h.fuel
  omega

/-- A call in which no block stays on the list is right. -/
theorem Kept.right (h : Kept fuel (n + 1) s) (hallowed : Allowed s call) (hclean : Clean s call) :
    ∃ s' answer, watch fuel s call = some (s', answer) ∧ Right s call s' answer := by
  obtain ⟨self, held⟩ := s
  have hroom := h.room
  cases call with
  | add memory => exact ⟨_, _, rfl, rfl, holds_cons h.holds hallowed _⟩
  | addSized memory size => exact ⟨_, _, rfl, rfl, holds_cons h.holds hallowed size⟩
  | write memory node => exact ⟨_, _, rfl, rfl, holds_write h.holds hallowed node⟩
  | pop =>
    obtain ⟨l, hchain, hperm⟩ := h.holds
    cases l with
    | nil =>
      have hpop : self.pop = (self, none) := by
        rw [pop, show self.head = none from hchain]
      exact ⟨(self, held), none, by rw [watch, serve, hpop]; rfl, List.nil_perm.mp hperm, h.holds⟩
    | cons a l =>
      have hpop : self.pop = ({ self with head := (self.node a).next }, some a) := by
        rw [pop, show self.head = some a from hchain.1]
      exact ⟨({ self with head := (self.node a).next }, held.filter (fun p => p.1 ≠ a)), some (a, none),
        by rw [watch, serve, hpop]; rfl, ⟨(mem_iff_of_perm hperm).mp List.mem_cons_self, rfl⟩,
        holds_tail hchain hperm h.nodup⟩
  | popFit required =>
    obtain ⟨hpop, hall⟩ | ⟨self', b, hpop, hmem, hsize, hrest⟩ := popFit_spec h.holds h.nodup hroom hclean
    · exact ⟨(self, held), none, by rw [watch, serve, hpop]; rfl, hall, h.holds⟩
    · exact ⟨(self', held.filter (fun p => p.1 ≠ b)), some (b, some (self.node b).size),
        by rw [watch, serve, hpop]; rfl, ⟨_, rfl, hmem, hsize⟩, hrest⟩
  | popBest required =>
    obtain ⟨hpop, hall⟩ | ⟨self', b, hpop, hmem, hsize, hrest⟩ := popBest_spec h.holds h.nodup hroom hclean.1 hclean.2
    · exact ⟨(self, held), none, by rw [watch, serve, hpop]; rfl, hall, h.holds⟩
    · exact ⟨(self', held.filter (fun p => p.1 ≠ b)), some (b, some (self.node b).size),
        by rw [watch, serve, hpop]; rfl, ⟨_, rfl, hmem, Nat.le_of_eq hsize.symm, fun p _ hle => Nat.le_trans (Nat.le_of_eq hsize) hle⟩, hrest⟩

/-- In the other calls a block is handed out and stays on the list. -/
theorem Kept.wrong (h : Kept fuel (n + 1) s) (hclean : ¬ Clean s call) (hwatch : watch fuel s call = some (s', answer)) :
    ¬ Right s call s' answer := by
  obtain ⟨self, held⟩ := s
  have hroom := h.room
  have hstays : ∀ b, b ∈ held.map Prod.fst → ¬ self.Holds (held.filter (fun p => p.1 ≠ b)) := fun b hb => by
    obtain ⟨l, hchain, hperm⟩ := h.holds
    exact not_holds_of_stays hchain ((mem_iff_of_perm hperm).mpr hb)
  rintro ⟨-, hholds⟩
  cases call with
  | popFit required =>
    simp only [Clean, Option.mem_def, not_forall, Nat.not_lt] at hclean
    obtain ⟨head, hhead, hfits⟩ := hclean
    rw [watch, serve, popFit_stays h.holds hroom hhead hfits] at hwatch
    cases hwatch
    obtain ⟨l, hchain, hperm⟩ := h.holds
    have hmem : head ∈ l := by
      rw [hhead] at hchain
      cases l with
      | nil => cases hchain
      | cons a l => exact Option.some.inj hchain.1 ▸ List.mem_cons_self
    exact hstays head ((mem_iff_of_perm hperm).mp hmem) hholds
  | popBest required =>
    have hwrong : (∃ head, self.head = some head ∧ (self.node head).size = required) ∨
        (∃ p ∈ held, required < p.2) ∧ ∀ p ∈ held, p.2 ≠ required := by
      rw [Clean, not_and_or] at hclean
      push Not at hclean
      exact hclean
    obtain ⟨b, hb, hpop⟩ := popBest_stays h.holds hroom hwrong
    rw [watch, serve, hpop] at hwatch
    cases hwatch
    exact hstays b hb hholds
  | _ => exact hclean trivial

theorem Kept.step (h : Kept fuel (n + 1) s) (hallowed : Allowed s call) (hwatch : watch fuel s call = some (s', answer))
    (hright : Right s call s' answer) : Kept fuel n s' := by
  obtain ⟨r, -, hr⟩ := Option.map_eq_some_iff.mp hwatch
  cases hr
  have hfuel := h.fuel
  have hnodup := h.nodup
  have hsame : ∀ held : Ledger β, held = s.2 → (held.map Prod.fst).Nodup ∧ held.length + n ≤ fuel := by
    rintro held rfl
    exact ⟨hnodup, by omega⟩
  have hadded : ∀ memory size, memory ∉ s.2.map Prod.fst →
      (((memory, size) :: s.2).map Prod.fst).Nodup ∧ ((memory, size) :: s.2).length + n ≤ fuel :=
    fun memory size hmemory => ⟨List.nodup_cons.mpr ⟨hmemory, hnodup⟩, by rw [List.length_cons]; omega⟩
  have hremoved : ∀ p : β × Option Nat, ((s.2.filter (fun q => q.1 ≠ p.1)).map Prod.fst).Nodup ∧
      (s.2.filter (fun q => q.1 ≠ p.1)).length + n ≤ fuel := fun p => by
    have hle := List.length_filter_le (fun q => decide (q.1 ≠ p.1)) s.2
    exact ⟨hnodup.sublist (List.filter_sublist.map Prod.fst), by omega⟩
  have hledger : ((s.2.after s.1 call r.2).map Prod.fst).Nodup ∧ (s.2.after s.1 call r.2).length + n ≤ fuel := by
    cases call with
    | add memory => exact hadded memory _ hallowed
    | addSized memory size => exact hadded memory size hallowed
    | write memory node => exact hsame _ rfl
    | pop => cases r.2 with
      | none => exact hsame _ rfl
      | some p => exact hremoved p
    | popFit required => cases r.2 with
      | none => exact hsame _ rfl
      | some p => exact hremoved p
    | popBest required => cases r.2 with
      | none => exact hsame _ rfl
      | some p => exact hremoved p
  exact ⟨hright.2, hledger.1, hledger.2⟩

def init (node : β → FreeListNode β) : FreeList β × Ledger β := ({ head := none, node := node }, [])

/-- All calls of a run from an empty list are right if and only if none of them wants the first block, or a larger block
than there is of the wanted size. -/
theorem calls_right_iff (node : β → FreeListNode β) (calls : List (Call β)) (fuel : Nat) (hfuel : calls.length ≤ fuel)
    (hallowed : Meets (watch fuel) Allowed (init node) calls) :
    Achieves (watch fuel) Right (init node) calls ↔ Meets (watch fuel) Clean (init node) calls := by
  have hinit : Kept fuel calls.length (init node) :=
    ⟨⟨[], rfl, List.Perm.refl []⟩, List.nodup_nil, by rw [init, List.length_nil, Nat.zero_add]; exact hfuel⟩
  exact achieves_iff_meets (fun _ _ _ h ha hc => h.right ha hc) (fun _ _ _ _ _ h _ hc hw => h.wrong hc hw)
    (fun _ _ _ _ _ h ha hw hr => h.step ha hw hr) hinit hallowed

theorem calls_right_small : Achieves (watch 6) Right (init (fun _ => { next := none, size := 0 }))
    [.addSized 1 8, .addSized 2 16, .addSized 3 4, .popFit 6, .popBest 8, .pop] :=
  (calls_right_iff _ _ 6 (by decide) (by decide)).mpr (by decide)

/-- The only block is handed out twice. -/
theorem first_block_stays : Meets (watch 3) Allowed (init (fun _ => { next := none, size := 0 }))
      [.addSized 1 8, .popFit 8, .popFit 8] ∧
    (exec (watch 3) (init (fun _ => { next := none, size := 0 })) [.addSized 1 8, .popFit 8, .popFit 8]).map Prod.snd =
      some [none, some (1, some 8), some (1, some 8)] := by decide

/-! ### Blocks that are handed out -/

def Call.added : Call β → Option β
  | .add memory => some memory
  | .addSized memory _ => some memory
  | _ => none

omit [DecidableEq β] in
theorem Answers.mem {size : Option Nat} (h : Answers held call (some (b, size))) : b ∈ held.map Prod.fst := by
  cases call with
  | pop => exact h.1
  | popFit required =>
    obtain ⟨n, -, hmem, -⟩ := h
    exact List.mem_map_of_mem hmem
  | popBest required =>
    obtain ⟨n, -, hmem, -⟩ := h
    exact List.mem_map_of_mem hmem
  | _ => cases h

theorem Ledger.not_mem_after (hb : b ∉ held.map Prod.fst) (hadded : call.added ≠ some b) :
    b ∉ (Ledger.after held self call answer).map Prod.fst := by
  have hcons : ∀ memory size, call.added = some memory → b ∉ ((memory, size) :: held).map Prod.fst := by
    intro memory size hcall hmem
    obtain rfl | hmem := List.mem_cons.mp hmem
    · exact hadded hcall
    · exact hb hmem
  have hfilter : ∀ p : β × Option Nat, b ∉ (held.filter (fun q => q.1 ≠ p.1)).map Prod.fst :=
    fun p hmem => hb ((List.filter_sublist.map Prod.fst).subset hmem)
  cases call with
  | add memory => exact hcons memory _ rfl
  | addSized memory size => exact hcons memory size rfl
  | write memory node => exact hb
  | _ => cases answer with
    | none => exact hb
    | some p => exact hfilter p

/-- In a right run no block that is not held is handed out before it is added. -/
theorem not_handed_out {calls : List (Call β)} {answers : List (Answer β)} (hright : Achieves (watch fuel) Right s calls)
    (hb : b ∉ s.2.map Prod.fst) (hadded : ∀ call ∈ calls, call.added ≠ some b)
    (hexec : exec (watch fuel) s calls = some (s', answers)) (size : Option Nat) : some (b, size) ∉ answers := by
  induction calls generalizing s answers with
  | nil =>
    cases hexec
    exact List.not_mem_nil
  | cons call calls ih =>
    obtain ⟨s₁, answer, hwatch, hcall, hrest⟩ := hright
    rw [exec_cons, hwatch, Option.bind_some, Option.map_eq_some_iff] at hexec
    obtain ⟨⟨s₂, rest⟩, hexec, heq⟩ := hexec
    cases heq
    obtain ⟨r, -, hr⟩ := Option.map_eq_some_iff.mp hwatch
    cases hr
    have hnot : b ∉ (s.2.after s.1 call r.2).map Prod.fst := Ledger.not_mem_after hb (hadded call List.mem_cons_self)
    intro hmem
    obtain heq | hmem := List.mem_cons.mp hmem
    · exact hb (Answers.mem (heq ▸ hcall.1))
    · exact ih hrest hnot (fun c hc => hadded c (List.mem_cons_of_mem call hc)) hexec hmem

end FreeList

end RaleighSL.Zcl
