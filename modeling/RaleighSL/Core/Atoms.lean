import RaleighSL.Core.Transaction
import RaleighSL.Library.Chain

/-!
# The links of the atoms

A transaction keeps a group for each object it wrote, with pointers to the first
and the last atom of a singly linked list. An atom is added behind the last one;
it is replaced, or removed, in the list of its object, where the search keeps the
atom before the one it looks at. The search starts with the head in both places,
and neither the pointer to the head nor the one to the last atom is updated.

On the atoms themselves the two operations are those of `AtomGroup`. A run of them
keeps the lists it should iff no first and no last atom is replaced or removed.
Allocation never fails.
-/
namespace RaleighSL.Core.Atoms
open RaleighSL.Library

abbrev Oid := Nat

structure ObjGroup where
  object : Oid
  atomsHead : Option Addr
  atomsTail : Option Addr
  deriving DecidableEq, Repr

structure Txn where
  objects : List ObjGroup
  next : Addr → Option Addr

namespace Txn

def alloc : Txn := { objects := [], next := fun _ => none }

def objectGroup (T : Txn) (object : Oid) : Option ObjGroup := T.objects.find? (fun g => g.object = object)

def objectGroupAdd (T : Txn) (object : Oid) : Txn × ObjGroup :=
  match T.objectGroup object with
  | some g => (T, g)
  | none =>
    let g : ObjGroup := { object := object, atomsHead := none, atomsTail := none }
    ({ T with objects := T.objects ++ [g] }, g)

def link (T : Txn) (a : Addr) (b : Option Addr) : Txn := { T with next := Function.update T.next a b }

def setGroup (T : Txn) (g : ObjGroup) : Txn :=
  { T with objects := T.objects.map (fun h => if h.object = g.object then g else h) }

/-- `raleighsl_transaction_add`. -/
def add (T : Txn) (object : Oid) (atom : Addr) : Txn :=
  let (T, g) := T.objectGroupAdd object
  let T := T.link atom none
  match g.atomsTail with
  | some z => (T.link z (some atom)).setGroup { g with atomsTail := some atom }
  | none => T.setGroup { g with atomsHead := some atom, atomsTail := some atom }

/-- The loop of `raleighsl_transaction_replace`, up to the given number of steps: the value of `prev`
when the atom is found, if it is. -/
def search (next : Addr → Option Addr) (atom : Addr) : Nat → Addr → Option Addr → Option (Option Addr)
  | 0, _, _ => none
  | _ + 1, _, none => some none
  | n + 1, prev, some p => if p = atom then some (some prev) else search next atom n p (next p)

/-- The links of the new atom and of the atom before the old one. -/
def splice (T : Txn) (prev atom : Addr) : Option Addr → Txn
  | none => T.link prev (T.next atom)
  | some b => (T.link b (T.next atom)).link prev (some b)

/-- `raleighsl_transaction_replace`, and `raleighsl_transaction_remove` without a new atom. Without a
group, and without the atom in it, the assertion at the end reads behind a null pointer or fails. -/
def replace (fuel : Nat) (T : Txn) (object : Oid) (atom : Addr) (newAtom : Option Addr) : Option Txn :=
  (T.objectGroup object).bind (fun g => g.atomsHead.bind (fun head =>
    (search T.next atom fuel head (some head)).bind (fun found => found.map (fun prev => T.splice prev atom newAtom))))

end Txn

inductive Op where
  | add (object : Oid) (atom : Addr)
  | replace (object : Oid) (atom : Addr) (newAtom : Option Addr)
  deriving DecidableEq, Repr

def Txn.step (fuel : Nat) (T : Txn) : Op → Option Txn
  | .add object atom => some (T.add object atom)
  | .replace object atom newAtom => T.replace fuel object atom newAtom

def Txn.run (fuel : Nat) (T : Txn) (ops : List Op) : Option Txn := ops.foldlM (Txn.step fuel) T

/-! ### The lists a transaction should have -/

abbrev Lists := Oid → List Addr

namespace Lists

def empty : Lists := fun _ => []

def step (A : Lists) : Op → Lists
  | .add object atom => Function.update A object (A object ++ [atom])
  | .replace object atom newAtom =>
    Function.update A object ((A object).flatMap (fun a => if a = atom then newAtom.toList else [a]))

def run (A : Lists) (ops : List Op) : Lists := ops.foldl step A

/-- An atom that comes in is in no list; the one that goes out is in the list of its object. -/
def Legal (A : Lists) : Op → Prop
  | .add _ atom => ∀ object, atom ∉ A object
  | .replace object atom newAtom => atom ∈ A object ∧ ∀ b ∈ newAtom, ∀ object, b ∉ A object

def LegalRun (A : Lists) : List Op → Prop
  | [] => True
  | op :: ops => A.Legal op ∧ (A.step op).LegalRun ops

/-- The atom that goes out is neither the first nor the last one of its list. -/
def Inner (A : Lists) : Op → Prop
  | .add _ _ => True
  | .replace object atom _ => (A object).head? ≠ some atom ∧ (A object).getLast? ≠ some atom

def InnerRun (A : Lists) : List Op → Prop
  | [] => True
  | op :: ops => A.Inner op ∧ (A.step op).InnerRun ops

structure Distinct (A : Lists) : Prop where
  nodup : ∀ object, (A object).Nodup
  apart : ∀ object object' a, a ∈ A object → a ∈ A object' → object = object'

end Lists

/-- The group of an object has the atoms of a list group, reached from its head. -/
def Txn.Holds (T : Txn) (object : Oid) (g : AtomGroup) : Prop :=
  match T.objectGroup object with
  | none => g = .empty
  | some h => Chain T.next h.atomsHead g.chain ∧ h.atomsTail = g.tail

/-- Each object has its list, and the pointer to the last atom of it. -/
def Txn.Shows (T : Txn) (A : Lists) : Prop :=
  ∀ object, T.Holds object { chain := A object, tail := (A object).getLast? }

namespace Txn

variable {T T' : Txn} {object object' : Oid} {g : ObjGroup} {atom : Addr}

theorem object_of_objectGroup (h : T.objectGroup object = some g) : g.object = object := by
  simpa using List.find?_some h

@[simp] theorem objectGroup_link (a : Addr) (b : Option Addr) :
    (T.link a b).objectGroup object = T.objectGroup object := rfl

theorem objectGroup_setGroup (T : Txn) (g : ObjGroup) (object : Oid) :
    (T.setGroup g).objectGroup object = (T.objectGroup object).map (fun h => if h.object = g.object then g else h) := by
  have hobject (h : ObjGroup) : (if h.object = g.object then g else h).object = h.object := by
    split_ifs with hh
    · exact hh.symm
    · rfl
  rw [objectGroup, setGroup, List.find?_map]
  simp only [Function.comp_def, hobject]
  rfl

theorem objectGroup_setGroup_self {g' : ObjGroup} (h : T.objectGroup object = some g) (ho : g'.object = object) :
    (T.setGroup g').objectGroup object = some g' := by
  rw [objectGroup_setGroup, h, Option.map_some, if_pos ((object_of_objectGroup h).trans ho.symm)]

theorem objectGroup_setGroup_ne {g' : ObjGroup} (ho : object ≠ g'.object) :
    (T.setGroup g').objectGroup object = T.objectGroup object := by
  rw [objectGroup_setGroup]
  cases hc : T.objectGroup object with
  | none => rfl
  | some g =>
    have hne : g.object ≠ g'.object := fun hg => ho ((object_of_objectGroup hc).symm.trans hg)
    rw [Option.map_some, if_neg hne]

theorem objectGroupAdd_spec (T : Txn) (object : Oid) :
    (T.objectGroupAdd object).1.next = T.next ∧
      (T.objectGroupAdd object).1.objectGroup object = some (T.objectGroupAdd object).2 ∧
      (T.objectGroupAdd object).2 = (T.objectGroup object).getD { object := object, atomsHead := none, atomsTail := none } ∧
      ∀ object', object' ≠ object → (T.objectGroupAdd object).1.objectGroup object' = T.objectGroup object' := by
  rw [objectGroupAdd]
  cases hg : T.objectGroup object with
  | some g => exact ⟨rfl, hg, rfl, fun _ _ => rfl⟩
  | none =>
    refine ⟨rfl, ?_, rfl, ?_⟩
    · simp only [objectGroup, List.find?_append] at hg ⊢
      simp [hg]
    · intro object' hne
      simp [objectGroup, List.find?_append, Ne.symm hne]

theorem holds_of_group {l : AtomGroup} (h : T.objectGroup object = some g) :
    T.Holds object l ↔ Chain T.next g.atomsHead l.chain ∧ g.atomsTail = l.tail := by
  rw [Holds, h]

theorem holds_of_no_group {l : AtomGroup} (h : T.objectGroup object = none) : T.Holds object l ↔ l = .empty := by
  rw [Holds, h]

theorem Holds.congr {l : AtomGroup} (h : T.Holds object l) (hg : T'.objectGroup object = T.objectGroup object)
    (hnext : ∀ a ∈ l.chain, T'.next a = T.next a) : T'.Holds object l := by
  cases hc : T.objectGroup object with
  | none => rwa [holds_of_no_group (hg.trans hc), ← holds_of_no_group hc]
  | some g =>
    rw [holds_of_group hc] at h
    rw [holds_of_group (hg.trans hc)]
    exact ⟨h.1.congr hnext, h.2⟩

theorem Holds.objectGroupAdd {l : AtomGroup} (h : T.Holds object l) :
    Chain T.next (T.objectGroupAdd object).2.atomsHead l.chain ∧ (T.objectGroupAdd object).2.atomsTail = l.tail := by
  obtain ⟨-, -, hg, -⟩ := T.objectGroupAdd_spec object
  rw [hg]
  cases hc : T.objectGroup object with
  | none =>
    rw [holds_of_no_group hc] at h
    subst h
    exact ⟨rfl, rfl⟩
  | some g => exact (holds_of_group hc).mp h

theorem chain_linkAfter {next : Addr → Option Addr} {first : Option Addr} {l : List Addr} (h : Chain next first l)
    (z : Addr) (hatom : atom ∉ l) :
    Chain (Function.update (Function.update next atom none) z (some atom)) first (AtomGroup.linkAfter z atom l) := by
  induction l generalizing first with
  | nil => exact h
  | cons p l ih =>
    rw [List.mem_cons, not_or] at hatom
    rw [AtomGroup.linkAfter]
    split_ifs with hp
    · subst hp
      refine ⟨h.1, Function.update_self .., ?_⟩
      rw [Function.update_of_ne hatom.1, Function.update_self]
      rfl
    · refine ⟨h.1, ?_⟩
      rw [Function.update_of_ne hp, Function.update_of_ne (Ne.symm hatom.1)]
      exact ih h.2 hatom.2

variable (atom) in
theorem add_of_empty (h : (T.objectGroupAdd object).2.atomsTail = none) :
    T.add object atom = ((T.objectGroupAdd object).1.link atom none).setGroup
      { object := (T.objectGroupAdd object).2.object, atomsHead := some atom, atomsTail := some atom } := by
  rw [Txn.add]
  dsimp only
  rw [h]

variable (atom) in
theorem add_of_tail {z : Addr} (h : (T.objectGroupAdd object).2.atomsTail = some z) :
    T.add object atom = (((T.objectGroupAdd object).1.link atom none).link z (some atom)).setGroup
      { object := (T.objectGroupAdd object).2.object, atomsHead := (T.objectGroupAdd object).2.atomsHead,
        atomsTail := some atom } := by
  rw [Txn.add]
  dsimp only
  rw [h]

theorem Holds.add {l : AtomGroup} (h : T.Holds object l) (hatom : atom ∉ l.chain) :
    ∃ l', l.add (fun _ => true) atom = some l' ∧ (T.add object atom).Holds object l' := by
  obtain ⟨hnext, hself, -, -⟩ := T.objectGroupAdd_spec object
  obtain ⟨hchain, htail⟩ := h.objectGroupAdd
  have hobject := object_of_objectGroup hself
  rw [← hnext] at hchain
  rw [AtomGroup.add]
  cases hz : l.tail with
  | none =>
    refine ⟨_, rfl, ?_⟩
    have hgroup := add_of_empty atom (htail.trans hz)
    rw [hgroup, holds_of_group (objectGroup_setGroup_self (by exact hself) (by exact hobject))]
    exact ⟨⟨rfl, Function.update_self ..⟩, rfl⟩
  | some z =>
    refine ⟨_, rfl, ?_⟩
    have hgroup := add_of_tail atom (htail.trans hz)
    rw [hgroup, holds_of_group (objectGroup_setGroup_self (by exact hself) (by exact hobject))]
    exact ⟨chain_linkAfter hchain z hatom, rfl⟩

theorem Holds.add_other {l m : AtomGroup} (h : T.Holds object l) (h' : T.Holds object' m) (hne : object' ≠ object)
    (hatom : atom ∉ m.chain) (htail : ∀ z, l.tail = some z → z ∉ m.chain) :
    (T.add object atom).Holds object' m := by
  obtain ⟨hnext, hself, -, hother⟩ := T.objectGroupAdd_spec object
  obtain ⟨-, hg⟩ := h.objectGroupAdd
  have hobject := object_of_objectGroup hself
  have hlink (a : Addr) (ha : a ∈ m.chain) (b : Option Addr) : Function.update T.next atom b a = T.next a := by
    rw [Function.update_of_ne]
    rintro rfl
    exact hatom ha
  cases hz : l.tail with
  | none =>
    rw [add_of_empty _ (hg.trans hz)]
    apply h'.congr
    · rw [objectGroup_setGroup_ne (by exact fun hc => hne (hc.trans hobject))]
      exact hother object' hne
    · intro a ha
      show Function.update (T.objectGroupAdd object).1.next atom none a = _
      rw [hnext, hlink a ha]
  | some z =>
    rw [add_of_tail _ (hg.trans hz)]
    apply h'.congr
    · rw [objectGroup_setGroup_ne (by exact fun hc => hne (hc.trans hobject))]
      exact hother object' hne
    · intro a ha
      show Function.update (Function.update (T.objectGroupAdd object).1.next atom none) z (some atom) a = _
      have haz : a ≠ z := by
        rintro rfl
        exact htail a hz ha
      rw [Function.update_of_ne haz, hnext, hlink a ha]

theorem search_eq {next : Addr → Option Addr} {first : Option Addr} {l m : List Addr} (h : Chain next first (l ++ atom :: m))
    (hatom : atom ∉ l) {fuel : Nat} (hfuel : l.length < fuel) (prev : Addr) :
    search next atom fuel prev first = some (some (l.getLast?.getD prev)) := by
  induction l generalizing first fuel prev with
  | nil =>
    obtain ⟨fuel, rfl⟩ := Nat.exists_eq_succ_of_ne_zero (Nat.ne_zero_of_lt hfuel)
    obtain rfl : first = some atom := h.1
    simp [search]
  | cons p l ih =>
    obtain ⟨fuel, rfl⟩ := Nat.exists_eq_succ_of_ne_zero (Nat.ne_zero_of_lt hfuel)
    obtain rfl : first = some p := h.1
    rw [List.mem_cons, not_or] at hatom
    rw [search, if_neg (Ne.symm hatom.1), ih h.2 hatom.2 (Nat.lt_of_succ_lt_succ hfuel) p]
    rw [List.getLast?_cons, Option.getD_some]

theorem splice_objects (prev : Addr) (newAtom : Option Addr) : (T.splice prev atom newAtom).objects = T.objects := by
  cases newAtom <;> rfl

theorem splice_next {prev : Addr} {newAtom : Option Addr} {a : Addr} (ha : a ≠ prev) (hnew : a ∉ newAtom) :
    (T.splice prev atom newAtom).next a = T.next a := by
  cases newAtom with
  | none => exact Function.update_of_ne ha ..
  | some b =>
    have hb : a ≠ b := by
      rintro rfl
      exact hnew rfl
    show Function.update (Function.update T.next b (T.next atom)) prev (some b) a = _
    rw [Function.update_of_ne ha, Function.update_of_ne hb]

theorem splice_chain {first : Option Addr} {prev : Addr} {newAtom : Option Addr} {f rest m : List Addr}
    (h : Chain T.next first (f ++ prev :: rest)) (hm : Chain T.next (T.next atom) m) (hf : prev ∉ f) (hprev : prev ∉ m)
    (hnew : ∀ b ∈ newAtom, b ∉ f ∧ b ≠ prev ∧ b ∉ m) :
    Chain (T.splice prev atom newAtom).next first (f ++ prev :: (newAtom.toList ++ m)) := by
  have hkeep {l : List Addr} (hl : prev ∉ l) (hb : ∀ b ∈ newAtom, b ∉ l) (a : Addr) (ha : a ∈ l) :
      (T.splice prev atom newAtom).next a = T.next a := by
    apply splice_next
    · rintro rfl
      exact hl ha
    · exact fun hc => hb a hc ha
  apply h.relink (hkeep hf (fun b hb => (hnew b hb).1))
  have hm' : Chain (T.splice prev atom newAtom).next (T.next atom) m :=
    hm.congr (hkeep hprev (fun b hb => (hnew b hb).2.2))
  cases newAtom with
  | none =>
    have hlink : (T.splice prev atom none).next prev = T.next atom := Function.update_self ..
    rwa [hlink]
  | some b =>
    have hlink : (T.splice prev atom (some b)).next prev = some b := Function.update_self ..
    have hb : (T.splice prev atom (some b)).next b = T.next atom := by
      show Function.update (Function.update T.next b (T.next atom)) prev (some b) b = _
      rw [Function.update_of_ne (hnew b rfl).2.1, Function.update_self]
    exact ⟨hlink, hb ▸ hm'⟩

theorem front_eq (f m : List Addr) (head : Addr) (hhead : (f ++ atom :: m).head? = some head) :
    ∃ f' rest, AtomGroup.front atom f = f' ++ [f.getLast?.getD head] ∧
      f ++ atom :: m = f' ++ f.getLast?.getD head :: rest := by
  rcases List.eq_nil_or_concat f with rfl | ⟨f', q, rfl⟩
  · obtain rfl : atom = head := by simpa using hhead
    exact ⟨[], m, rfl, rfl⟩
  · exact ⟨f', atom :: m, by simp [AtomGroup.front], by simp⟩

theorem replace_objects {newAtom : Option Addr} {fuel : Nat} (h : T.replace fuel object atom newAtom = some T') :
    T'.objects = T.objects := by
  simp only [Txn.replace, Option.bind_eq_some_iff, Option.map_eq_some_iff] at h
  obtain ⟨g, -, head, -, found, -, prev, -, rfl⟩ := h
  exact splice_objects ..

/-- A replacement does on the links what it does on the list, and changes the link of one atom of it. -/
theorem Holds.replace {l : AtomGroup} (h : T.Holds object l) (hnd : l.chain.Nodup) (hatom : atom ∈ l.chain)
    {newAtom : Option Addr} (hnew : ∀ b ∈ newAtom, b ∉ l.chain) {fuel : Nat} (hfuel : l.chain.length ≤ fuel) :
    ∃ l' T' prev, l.replace (fun _ => true) atom newAtom = some l' ∧ T.replace fuel object atom newAtom = some T' ∧
      T'.Holds object l' ∧ prev ∈ l.chain ∧ ∀ a, a ≠ prev → a ∉ newAtom → T'.next a = T.next a := by
  obtain ⟨f, m, hl⟩ := List.append_of_mem hatom
  rw [hl] at hnd hnew hfuel
  have hf : atom ∉ f := fun hc => (List.nodup_append.mp hnd).2.2 atom hc atom List.mem_cons_self rfl
  cases hg : T.objectGroup object with
  | none =>
    rw [holds_of_no_group hg] at h
    simp [h, AtomGroup.empty] at hatom
  | some g =>
    obtain ⟨hchain, htail⟩ := (holds_of_group hg).mp h
    rw [hl] at hchain
    obtain ⟨head, hhead⟩ : ∃ head, (f ++ atom :: m).head? = some head := by
      cases f with
      | nil => exact ⟨atom, rfl⟩
      | cons p f => exact ⟨p, rfl⟩
    have hgh : g.atomsHead = some head := hchain.head?.trans hhead
    have hsearch : search T.next atom fuel head (some head) = some (some (f.getLast?.getD head)) := by
      apply search_eq (hgh ▸ hchain) hf
      simp only [List.length_append, List.length_cons] at hfuel
      omega
    obtain ⟨f', rest, hfront, hsplit⟩ := front_eq f m head hhead
    generalize f.getLast?.getD head = prev at hsearch hfront hsplit
    have hm : Chain T.next (T.next atom) m := hchain.suffix.2
    have hprev : prev ∈ f ++ atom :: m := by simp [hsplit]
    have hprevm : prev ∉ m := by
      have hin : prev ∈ AtomGroup.front atom f := by simp [hfront]
      rw [AtomGroup.front] at hin
      split_ifs at hin with hnil
      · obtain rfl : prev = atom := by simpa using hin
        exact (List.nodup_cons.mp (List.nodup_append.mp hnd).2.1).1
      · exact fun hc => (List.nodup_append.mp hnd).2.2 prev hin prev (List.mem_cons_of_mem atom hc) rfl
    have hprevf : prev ∉ f' := by
      rw [hsplit] at hnd
      exact fun hc => (List.nodup_append.mp hnd).2.2 prev hc prev List.mem_cons_self rfl
    refine ⟨_, T.splice prev atom newAtom, prev, AtomGroup.replace_eq newAtom hl hf (fun _ _ => rfl), ?_, ?_, hl ▸ hprev,
      fun a => splice_next⟩
    · simp only [Txn.replace, hg, Option.bind_some, hgh, hsearch, Option.map_some]
    · have hgroup : (T.splice prev atom newAtom).objectGroup object = some g := by
        rw [objectGroup, splice_objects]
        exact hg
      rw [holds_of_group hgroup]
      refine ⟨?_, htail⟩
      show Chain _ _ (AtomGroup.front atom f ++ _)
      rw [hfront, List.append_assoc]
      apply splice_chain (hsplit ▸ hchain) hm hprevf hprevm
      intro b hb
      have hout := hnew b hb
      refine ⟨fun hc => hout (hsplit ▸ List.mem_append_left _ hc), fun hc => hout (hc ▸ hprev), fun hc => hout ?_⟩
      exact List.mem_append_right _ (List.mem_cons_of_mem atom hc)

end Txn

/-! ### Runs -/

variable {T T' : Txn} {A : Lists} {op : Op} {ops : List Op} {fuel : Nat}

namespace Lists

theorem substitute_eq {f m : List Addr} {atom : Addr} (newAtom : Option Addr) (hf : atom ∉ f) (hm : atom ∉ m) :
    (f ++ atom :: m).flatMap (fun a => if a = atom then newAtom.toList else [a]) = f ++ (newAtom.toList ++ m) := by
  have hkeep {l : List Addr} (hl : atom ∉ l) : l.flatMap (fun a => if a = atom then newAtom.toList else [a]) = l := by
    induction l with
    | nil => rfl
    | cons b l ih =>
      rw [List.mem_cons, not_or] at hl
      rw [List.flatMap_cons, if_neg (Ne.symm hl.1), ih hl.2]
      rfl
  rw [List.flatMap_append, List.flatMap_cons, if_pos rfl, hkeep hf, hkeep hm]

theorem Distinct.split (hd : A.Distinct) {object : Oid} {atom : Addr} (hatom : atom ∈ A object) :
    ∃ f m, A object = f ++ atom :: m ∧ atom ∉ f ∧
      ∀ newAtom, A.step (.replace object atom newAtom) object = f ++ (newAtom.toList ++ m) := by
  obtain ⟨f, m, hsplit⟩ := List.append_of_mem hatom
  have hnd := hd.nodup object
  rw [hsplit] at hnd
  have hf : atom ∉ f := fun hc => (List.nodup_append.mp hnd).2.2 atom hc atom List.mem_cons_self rfl
  have hm : atom ∉ m := (List.nodup_cons.mp (List.nodup_append.mp hnd).2.1).1
  refine ⟨f, m, hsplit, hf, fun newAtom => ?_⟩
  rw [step, Function.update_self, hsplit, substitute_eq newAtom hf hm]

theorem mem_step {object : Oid} {a : Addr} (h : a ∈ A.step op object) :
    a ∈ A object ∨ op = .add object a ∨ ∃ atom, op = .replace object atom (some a) := by
  cases op with
  | add o atom =>
    by_cases ho : object = o
    · subst ho
      rw [step, Function.update_self, List.mem_append, List.mem_singleton] at h
      rcases h with h | rfl
      · exact Or.inl h
      · exact Or.inr (Or.inl rfl)
    · rw [step, Function.update_of_ne ho] at h
      exact Or.inl h
  | replace o atom newAtom =>
    by_cases ho : object = o
    · subst ho
      rw [step, Function.update_self, List.mem_flatMap] at h
      obtain ⟨b, hb, h⟩ := h
      split_ifs at h with hba
      · rw [Option.mem_toList] at h
        obtain rfl : newAtom = some a := h
        exact Or.inr (Or.inr ⟨atom, rfl⟩)
      · obtain rfl : a = b := List.mem_singleton.mp h
        exact Or.inl hb
    · rw [step, Function.update_of_ne ho] at h
      exact Or.inl h

theorem Distinct.step (hd : A.Distinct) (hl : A.Legal op) : (A.step op).Distinct := by
  have hfresh {object : Oid} {a : Addr} (h : op = .add object a ∨ ∃ atom, op = .replace object atom (some a)) :
      ∀ object', a ∉ A object' := by
    rcases h with rfl | ⟨atom, rfl⟩
    · exact hl
    · exact hl.2 a rfl
  have hobject {object object' : Oid} {a : Addr} (h : op = .add object a ∨ ∃ atom, op = .replace object atom (some a))
      (h' : op = .add object' a ∨ ∃ atom, op = .replace object' atom (some a)) : object = object' := by
    rcases h with rfl | ⟨atom, rfl⟩ <;> simp_all
  constructor
  · intro object
    cases op with
    | add o atom =>
      by_cases ho : object = o
      · subst ho
        rw [Lists.step, Function.update_self]
        have hnot : atom ∉ A object := hl object
        rw [← List.concat_eq_append]
        exact (hd.nodup object).concat hnot
      · rw [Lists.step, Function.update_of_ne ho]
        exact hd.nodup object
    | replace o atom newAtom =>
      by_cases ho : object = o
      · subst ho
        obtain ⟨f, m, hsplit, hf, hstep⟩ := hd.split hl.1
        rw [hstep]
        have hnd := hd.nodup object
        rw [hsplit, List.nodup_append, List.nodup_cons] at hnd
        obtain ⟨hndf, ⟨-, hndm⟩, happart⟩ := hnd
        have hin (b : Addr) (hb : b ∈ newAtom) : b ∉ f ++ atom :: m := hsplit ▸ hl.2 b hb object
        simp only [List.mem_append, List.mem_cons, not_or] at hin
        have hnew : newAtom.toList.Nodup := by cases newAtom <;> simp
        rw [List.nodup_append, List.nodup_append]
        refine ⟨hndf, ⟨hnew, hndm, ?_⟩, ?_⟩
        · rintro b hb c hc rfl
          exact (hin b (Option.mem_toList.mp hb)).2.2 hc
        · rintro b hb c hc rfl
          rcases List.mem_append.mp hc with hc | hc
          · exact (hin b (Option.mem_toList.mp hc)).1 hb
          · exact happart b hb b (List.mem_cons_of_mem atom hc) rfl
      · rw [Lists.step, Function.update_of_ne ho]
        exact hd.nodup object
  · intro object object' a ha ha'
    rcases mem_step ha with h | h
    · rcases mem_step ha' with h' | h'
      · exact hd.apart object object' a h h'
      · exact absurd h (hfresh h' object)
    · rcases mem_step ha' with h' | h'
      · exact absurd h' (hfresh h object')
      · exact hobject h h'

theorem Distinct.length_step (hd : A.Distinct) (hl : A.Legal op) (object : Oid) :
    (A.step op object).length ≤ (A object).length + 1 := by
  cases op with
  | add o atom =>
    by_cases ho : object = o
    · subst ho
      simp [Lists.step]
    · simp [Lists.step, Function.update_of_ne ho]
  | replace o atom newAtom =>
    by_cases ho : object = o
    · subst ho
      obtain ⟨f, m, hsplit, -, hstep⟩ := hd.split hl.1
      rw [hstep, hsplit]
      cases newAtom with
      | none =>
        simp only [Option.toList_none, List.nil_append, List.length_append, List.length_cons]
        omega
      | some b => simp
    · simp [Lists.step, Function.update_of_ne ho]

theorem not_mem_step {object : Oid} {atom : Addr} {newAtom : Option Addr} (hl : A.Legal (.replace object atom newAtom)) :
    atom ∉ A.step (.replace object atom newAtom) object := by
  rw [step, Function.update_self, List.mem_flatMap]
  rintro ⟨b, hb, h⟩
  split_ifs at h with hba
  · exact hl.2 atom (Option.mem_toList.mp h) object hl.1
  · exact hba (List.mem_singleton.mp h).symm

end Lists

theorem Txn.Shows.step (h : T.Shows A) (hd : A.Distinct) (hl : A.Legal op) (hi : A.Inner op)
    (hfuel : ∀ object, (A object).length ≤ fuel) : ∃ T', T.step fuel op = some T' ∧ T'.Shows (A.step op) := by
  cases op with
  | add o atom =>
    refine ⟨_, rfl, fun object => ?_⟩
    by_cases ho : object = o
    · subst ho
      obtain ⟨l', hadd, hholds⟩ := (h object).add (hl object)
      rw [AtomGroup.add_eq (hd.nodup object) rfl (fun _ _ => rfl)] at hadd
      obtain rfl := Option.some.inj hadd
      rw [Lists.step, Function.update_self, List.getLast?_concat]
      exact hholds
    · rw [Lists.step, Function.update_of_ne ho]
      refine (h o).add_other (h object) ho (hl object) ?_
      intro z hz hmem
      exact ho (hd.apart object o z hmem (List.mem_of_getLast? hz))
  | replace o atom newAtom =>
    obtain ⟨f, m, hsplit, hf, hstep⟩ := hd.split hl.1
    obtain ⟨l', T', prev, hlist, hreplace, hholds, hprev, hother⟩ := (h o).replace (hd.nodup o) hl.1
      (fun b hb => hl.2 b hb o) (hfuel o)
    refine ⟨T', hreplace, fun object => ?_⟩
    by_cases ho : object = o
    · subst ho
      rw [AtomGroup.replace_eq newAtom hsplit hf (fun _ _ => rfl)] at hlist
      obtain rfl := Option.some.inj hlist
      have hfnil : f ≠ [] := by
        rintro rfl
        exact hi.1 (by simp [hsplit])
      have hlast (front : List Addr) : (front ++ m).getLast? = m.getLast? := by
        rcases List.eq_nil_or_concat m with rfl | ⟨m, z, rfl⟩
        · exact absurd (by simp [hsplit]) hi.2
        · simp [← List.append_assoc]
      have htail : (f ++ (newAtom.toList ++ m)).getLast? = (A object).getLast? := by
        have hold := hlast (f ++ [atom])
        rw [List.append_assoc, List.singleton_append, ← hsplit] at hold
        rw [← List.append_assoc, hlast, hold]
      rw [hstep, htail]
      rwa [AtomGroup.front, if_neg hfnil] at hholds
    · rw [Lists.step, Function.update_of_ne ho]
      apply (h object).congr
      · rw [Txn.objectGroup, Txn.replace_objects hreplace]
        rfl
      · intro a ha
        apply hother
        · rintro rfl
          exact ho (hd.apart object o a ha hprev)
        · exact fun hc => hl.2 a hc object ha

/-- An operation that keeps the lists is an addition, or on an inner atom. -/
theorem Txn.Shows.inner (h : T.Shows A) (hl : A.Legal op) (hs : T.step fuel op = some T') (h' : T'.Shows (A.step op)) :
    A.Inner op := by
  cases op with
  | add o atom => trivial
  | replace o atom newAtom =>
    have hnot := Lists.not_mem_step hl
    have hobjects : T'.objectGroup o = T.objectGroup o := by
      rw [Txn.objectGroup, Txn.replace_objects hs]
      rfl
    cases hg : T.objectGroup o with
    | none =>
      have hempty := (Txn.holds_of_no_group hg).mp (h o)
      have hnil : A o = [] := congrArg AtomGroup.chain hempty
      have hatom := hl.1
      simp [hnil] at hatom
    | some g =>
      obtain ⟨hchain, htail⟩ := (Txn.holds_of_group hg).mp (h o)
      obtain ⟨hchain', htail'⟩ := (Txn.holds_of_group (hobjects.trans hg)).mp (h' o)
      constructor
      · intro hfirst
        apply hnot
        apply List.mem_of_head?
        exact hchain'.head?.symm.trans (hchain.head?.trans hfirst)
      · intro hlast
        apply hnot
        apply List.mem_of_getLast?
        exact htail'.symm.trans (htail.trans hlast)

theorem Lists.empty_distinct : Lists.empty.Distinct where
  nodup _ := List.nodup_nil
  apart _ _ _ h := absurd h List.not_mem_nil

theorem Txn.alloc_shows : Txn.alloc.Shows Lists.empty := fun _ => rfl

theorem Txn.Shows.run_iff (h : T.Shows A) (hd : A.Distinct) (hl : A.LegalRun ops)
    (hfuel : ∀ object, (A object).length + ops.length ≤ fuel) :
    (∀ n, ∃ T', T.run fuel (ops.take n) = some T' ∧ T'.Shows (A.run (ops.take n))) ↔ A.InnerRun ops := by
  induction ops generalizing T A with
  | nil => exact iff_of_true (fun n => ⟨T, by simp [Txn.run], by simpa [Lists.run] using h⟩) trivial
  | cons op ops ih =>
    have hbound (object : Oid) : (A object).length ≤ fuel := Nat.le_trans (Nat.le_add_right _ _) (hfuel object)
    have hbound' (object : Oid) : (A.step op object).length + ops.length ≤ fuel := by
      have hstep := hd.length_step hl.1 object
      have hrun := hfuel object
      rw [List.length_cons] at hrun
      omega
    constructor
    · intro hall
      obtain ⟨T', hone, hs'⟩ := hall 1
      have hstep : T.step fuel op = some T' := by simpa [Txn.run] using hone
      have hs' : T'.Shows (A.step op) := by simpa [Lists.run] using hs'
      refine ⟨h.inner hl.1 hstep hs', (ih hs' (hd.step hl.1) hl.2 hbound').mp fun n => ?_⟩
      have hn := hall (n + 1)
      simpa [Txn.run, Lists.run, hstep] using hn
    · rintro ⟨hi, hrest⟩ n
      obtain ⟨T', hstep, hs'⟩ := h.step hd hl.1 hi hbound
      cases n with
      | zero => exact ⟨T, by simp [Txn.run], by simpa [Lists.run] using h⟩
      | succ n =>
        have hn := (ih hs' (hd.step hl.1) hl.2 hbound').mpr hrest n
        simpa [Txn.run, Lists.run, hstep] using hn

/-- From the first operation to the last the groups have the lists of their objects iff no first and no
last atom of a list is replaced or removed. -/
theorem run_shows_iff (hl : Lists.empty.LegalRun ops) (hfuel : ops.length ≤ fuel) :
    (∀ n, ∃ T, Txn.alloc.run fuel (ops.take n) = some T ∧ T.Shows (Lists.empty.run (ops.take n))) ↔
      Lists.empty.InnerRun ops :=
  Txn.alloc_shows.run_iff Lists.empty_distinct hl (fun _ => by simpa [Lists.empty] using hfuel)

/-- The middle one of three atoms is replaced, and its successor removed; another object has an atom. -/
theorem run_shows_iff_middle : ∃ T, Txn.alloc.run 6 [.add 1 10, .add 2 20, .add 1 11, .add 1 12,
      .replace 1 11 (some 13), .replace 1 13 none] = some T ∧
    T.Shows (Lists.empty.run [.add 1 10, .add 2 20, .add 1 11, .add 1 12, .replace 1 11 (some 13), .replace 1 13 none]) := by
  have hl : Lists.empty.LegalRun [.add 1 10, .add 2 20, .add 1 11, .add 1 12, .replace 1 11 (some 13),
      .replace 1 13 none] := by
    refine ⟨fun _ => List.not_mem_nil, ?_, ?_, ?_, ⟨by decide, ?_⟩, ⟨by decide, nofun⟩, trivial⟩
    · simp [Lists.Legal, Lists.step, Lists.empty, Function.update_apply]
    · intro object
      by_cases h1 : object = 1 <;> by_cases h2 : object = 2 <;> simp_all [Lists.step, Lists.empty, Function.update_apply]
    · intro object
      by_cases h1 : object = 1 <;> by_cases h2 : object = 2 <;> simp_all [Lists.step, Lists.empty, Function.update_apply]
    · rintro b hb object
      obtain rfl : 13 = b := Option.some.inj hb
      by_cases h1 : object = 1 <;> by_cases h2 : object = 2 <;> simp_all [Lists.step, Lists.empty, Function.update_apply]
  have hi : Lists.empty.InnerRun [.add 1 10, .add 2 20, .add 1 11, .add 1 12, .replace 1 11 (some 13),
      .replace 1 13 none] := by
    refine ⟨trivial, trivial, trivial, trivial, ⟨by decide, by decide⟩, ⟨by decide, by decide⟩, trivial⟩
  exact (run_shows_iff hl (by decide)).mpr hi 6

/-- The first atom cannot be removed, and an atom that is added after the last one was is lost. -/
theorem first_and_last_not_removed :
    (∃ T, Lists.empty.LegalRun [.add 1 10, .replace 1 10 none] ∧
      Txn.alloc.run 4 [.add 1 10, .replace 1 10 none] = some T ∧
        ¬ T.Shows (Lists.empty.run [.add 1 10, .replace 1 10 none])) ∧
      ∃ T, Lists.empty.LegalRun [.add 1 10, .add 1 11, .replace 1 11 none, .add 1 12] ∧
        Txn.alloc.run 4 [.add 1 10, .add 1 11, .replace 1 11 none, .add 1 12] = some T ∧
          ¬ T.Shows (Lists.empty.run [.add 1 10, .add 1 11, .replace 1 11 none, .add 1 12]) := by
  refine ⟨⟨_, ?_, rfl, fun h => ?_⟩, _, ?_, rfl, fun h => ?_⟩
  · exact ⟨fun _ => List.not_mem_nil, ⟨by decide, nofun⟩, trivial⟩
  · exact absurd (show some 10 = none from (h 1).1) (by decide)
  · refine ⟨fun _ => List.not_mem_nil, ?_, ⟨by decide, nofun⟩, ?_, trivial⟩
    · simp [Lists.Legal, Lists.step, Lists.empty, Function.update_apply]
    · intro object
      by_cases h1 : object = 1 <;> simp [Lists.step, Lists.empty, Function.update_apply, h1]
  · exact absurd (show none = some 12 from (h 1).1.2.1) (by decide)

end RaleighSL.Core.Atoms
