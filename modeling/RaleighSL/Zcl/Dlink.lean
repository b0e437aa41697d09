import RaleighSL.Library.Links
import RaleighSL.Library.Run
import Mathlib.Data.Fintype.Basic
import Mathlib.Data.List.Basic

/-!
# Doubly linked lists

`tools/list/dlink.h` and `tools/list/link.c`. A list is a ring of nodes through its head, and a node
that is initialized is the head of an empty list. The functions change the links around a node only;
a node that was never initialized has any links. Over a whole run the rings hold the lists that one
expects, as long as only nodes without a list are added, and only nodes of a list, or initialized
ones, are taken out or moved.
-/
namespace RaleighSL.Zcl
open Library

/-- The fields of all `z_dlink_node_t`. -/
structure Dlink (ν : Type*) where
  next : ν → ν
  prev : ν → ν

namespace Dlink

variable {ν : Type*} [DecidableEq ν]

def nodeAdd (self : Dlink ν) (inew iprev inext : ν) : Dlink ν where
  next := Function.update (Function.update self.next inew inext) iprev inew
  prev := Function.update (Function.update self.prev inext inew) inew iprev

def nodeDel (self : Dlink ν) (iprev inext : ν) : Dlink ν where
  next := Function.update self.next iprev inext
  prev := Function.update self.prev inext iprev

def init (self : Dlink ν) (node : ν) : Dlink ν where
  next := Function.update self.next node node
  prev := Function.update self.prev node node

def add (self : Dlink ν) (head inew : ν) : Dlink ν := self.nodeAdd inew head (self.next head)

def addTail (self : Dlink ν) (head inew : ν) : Dlink ν := self.nodeAdd inew (self.prev head) head

def delEntry (self : Dlink ν) (node : ν) : Dlink ν := self.nodeDel (self.prev node) (self.next node)

def del (self : Dlink ν) (node : ν) : Dlink ν := (self.delEntry node).init node

def move (self : Dlink ν) (head node : ν) : Dlink ν := (self.delEntry node).add head node

def moveTail (self : Dlink ν) (head node : ν) : Dlink ν := (self.delEntry node).addTail head node

def walk (next : ν → ν) (head : ν) : Nat → ν → Option (List ν)
  | 0, _ => none
  | fuel + 1, node => if node ≠ head then (walk next head fuel (next node)).map (node :: ·) else some []

def forEach (self : Dlink ν) (fuel : Nat) (head : ν) : Option (List ν) := walk self.next head fuel (self.next head)

/-- The loop of `z_dlink_del_for_each_entry`, which reads the link of the next node before a node is deleted. -/
def delLoop (head : ν) : Nat → Dlink ν → ν → ν → Option (List ν × Dlink ν)
  | 0, _, _, _ => none
  | fuel + 1, self, node, safeNext =>
    if node ≠ head then
      let self := self.del node
      (delLoop head fuel self safeNext (self.next safeNext)).map fun r => (node :: r.1, r.2)
    else some ([], self)

/-- `z_dlink_del_for_each_entry`. -/
def delForEach (self : Dlink ν) (fuel : Nat) (head : ν) : Option (List ν × Dlink ν) :=
  delLoop head fuel self (self.next head) (self.next (self.next head))

inductive Op (ν : Type*)
  | init (node : ν)
  | add (head node : ν)
  | addTail (head node : ν)
  | del (node : ν)
  | move (head node : ν)
  | moveTail (head node : ν)

def step (self : Dlink ν) : Op ν → Dlink ν
  | .init node => self.init node
  | .add head node => self.add head node
  | .addTail head node => self.addTail head node
  | .del node => self.del node
  | .move head node => self.move head node
  | .moveTail head node => self.moveTail head node

/-! ### Lists -/

abbrev Lists (ν : Type*) := ν → Option (List ν)

namespace Lists

def without (lists : Lists ν) (node : ν) : Lists ν :=
  Function.update (fun head => (lists head).map fun l => l.filter (· ≠ node)) node none

def setEmpty (lists : Lists ν) (node : ν) : Lists ν := Function.update lists node (some [])
def pushFront (lists : Lists ν) (head node : ν) : Lists ν := Function.update lists head ((lists head).map (node :: ·))
def pushBack (lists : Lists ν) (head node : ν) : Lists ν := Function.update lists head ((lists head).map (· ++ [node]))

def step (lists : Lists ν) : Op ν → Lists ν
  | .init node | .del node => (lists.without node).setEmpty node
  | .add head node | .move head node => (lists.without node).pushFront head node
  | .addTail head node | .moveTail head node => (lists.without node).pushBack head node

def Free (lists : Lists ν) (node : ν) : Prop := (∀ head, node ∉ (lists head).getD []) ∧ (lists node).getD [] = []

def Linked (lists : Lists ν) (node : ν) : Prop := (∃ head, node ∈ (lists head).getD []) ∨ lists node = some []

def Allowed (lists : Lists ν) : Op ν → Prop
  | .init node => lists.Free node
  | .add head node | .addTail head node => lists.Free node ∧ head ≠ node ∧ lists head ≠ none
  | .del node => lists.Linked node
  | .move head node | .moveTail head node => lists.Linked node ∧ head ≠ node ∧ lists head ≠ none

def Proper : Lists ν → List (Op ν) → Prop
  | _, [] => True
  | lists, op :: ops => lists.Allowed op ∧ Proper (lists.step op) ops

instance [Fintype ν] (lists : Lists ν) (node : ν) : Decidable (lists.Free node) := inferInstanceAs (Decidable (_ ∧ _))
instance [Fintype ν] (lists : Lists ν) (node : ν) : Decidable (lists.Linked node) := inferInstanceAs (Decidable (_ ∨ _))

instance [Fintype ν] (lists : Lists ν) : (op : Op ν) → Decidable (lists.Allowed op)
  | .init node => inferInstanceAs (Decidable (lists.Free node))
  | .add head node | .addTail head node => inferInstanceAs (Decidable (lists.Free node ∧ head ≠ node ∧ lists head ≠ none))
  | .del node => inferInstanceAs (Decidable (lists.Linked node))
  | .move head node | .moveTail head node => inferInstanceAs (Decidable (lists.Linked node ∧ head ≠ node ∧ lists head ≠ none))

instance decidableProper [Fintype ν] : (lists : Lists ν) → (ops : List (Op ν)) → Decidable (lists.Proper ops)
  | _, [] => .isTrue trivial
  | lists, op :: ops =>
    have := decidableProper (lists.step op) ops
    inferInstanceAs (Decidable (lists.Allowed op ∧ (lists.step op).Proper ops))

def Out (lists : Lists ν) (node : ν) : Prop := (∀ head l, lists head = some l → node ∉ l) ∧ lists node = none

end Lists

/-- The rings hold the lists, and no node is in two of them. -/
structure Inv (s : Dlink ν) (lists : Lists ν) : Prop where
  ring (h : ν) (l : List ν) : lists h = some l → Seg s.next s.prev h l h
  nodup (h : ν) (l : List ν) : lists h = some l → (h :: l).Nodup
  member (h : ν) (l : List ν) (x : ν) : lists h = some l → x ∈ l → lists x = none
  one (h h' : ν) (l l' : List ν) (x : ν) : lists h = some l → lists h' = some l' → x ∈ l → x ∈ l' → h = h'

variable {s s' : Dlink ν} {lists : Lists ν} {h h' x y : ν} {l l' : List ν}

omit [DecidableEq ν] in
theorem inv_none (s : Dlink ν) : Inv s fun _ => none where
  ring _ _ h := by cases h
  nodup _ _ h := by cases h
  member _ _ _ h := by cases h
  one _ _ _ _ _ h := by cases h

omit [DecidableEq ν] in
theorem Inv.apart (hinv : Inv s lists) (hl : lists h = some l) (hl' : lists h' = some l') (hy : y ∈ h :: l) (hy' : y ∈ h' :: l') :
    h = h' := by
  rcases List.mem_cons.mp hy with rfl | hy <;> rcases List.mem_cons.mp hy' with rfl | hy'
  · rfl
  · cases hl.symm.trans (hinv.member _ _ _ hl' hy')
  · cases hl'.symm.trans (hinv.member _ _ _ hl hy)
  · exact hinv.one _ _ _ _ _ hl hl' hy hy'

omit [DecidableEq ν] in
theorem not_out (hl : lists h = some l) (hy : y ∈ h :: l) : ¬ lists.Out y := by
  intro hout
  rcases List.mem_cons.mp hy with rfl | hy
  · cases hl.symm.trans hout.2
  · exact hout.1 h l hl hy

omit [DecidableEq ν] in
theorem nodup_concat (hnodup : (h :: l).Nodup) : (l ++ [h]).Nodup := by
  obtain ⟨hnot, hl⟩ := List.nodup_cons.mp hnodup
  exact List.nodup_append.mpr ⟨hl, List.nodup_singleton h, fun a ha b hb heq =>
    hnot (List.mem_singleton.mp hb ▸ heq ▸ ha)⟩

/-- One list changes, by nodes without any part in a list, and the links of the other lists stay. -/
theorem Inv.replace (hinv : Inv s lists) (hl : lists h = some l) (hring : Seg s'.next s'.prev h l' h) (hnodup : (h :: l').Nodup)
    (hmem : ∀ y ∈ l', y ∈ l ∨ lists.Out y)
    (hsame : ∀ y, y ∉ h :: l → ¬ lists.Out y → s'.next y = s.next y ∧ s'.prev y = s.prev y) :
    Inv s' (Function.update lists h (some l')) := by
  have hentry {g : ν} {m : List ν} (hm : Function.update lists h (some l') g = some m) :
      g = h ∧ m = l' ∨ g ≠ h ∧ lists g = some m := by
    by_cases hg : g = h
    · subst hg
      rw [Function.update_self] at hm
      exact .inl ⟨rfl, (Option.some.inj hm).symm⟩
    · rw [Function.update_of_ne hg] at hm
      exact .inr ⟨hg, hm⟩
  have hnone {y : ν} (hy : lists y = none) : Function.update lists h (some l') y = none := by
    rw [Function.update_of_ne, hy]
    rintro rfl
    cases hl.symm.trans hy
  exact {
    ring := fun g m hm => by
      rcases hentry hm with ⟨rfl, rfl⟩ | ⟨hg, hm⟩
      · exact hring
      · have hkept {y : ν} (hy : y ∈ g :: m) : s'.next y = s.next y ∧ s'.prev y = s.prev y :=
          hsame y (fun hyl => hg (hinv.apart hm hl hy hyl)) (not_out hm hy)
        refine (hinv.ring g m hm).congr (fun y hy => (hkept hy).1) fun y hy => (hkept ?_).2
        rw [List.mem_append, List.mem_singleton] at hy
        exact List.mem_cons.mpr hy.symm
    nodup := fun g m hm => by
      rcases hentry hm with ⟨rfl, rfl⟩ | ⟨-, hm⟩
      · exact hnodup
      · exact hinv.nodup g m hm
    member := fun g m y hm hy => by
      rcases hentry hm with ⟨rfl, rfl⟩ | ⟨-, hm⟩
      · rcases hmem y hy with hyl | hout
        · exact hnone (hinv.member _ _ _ hl hyl)
        · exact hnone hout.2
      · exact hnone (hinv.member _ _ _ hm hy)
    one := fun g g' m m' y hm hm' hy hy' => by
      rcases hentry hm with ⟨rfl, rfl⟩ | ⟨-, hg⟩ <;> rcases hentry hm' with ⟨rfl, rfl⟩ | ⟨-, hg'⟩
      · rfl
      · rcases hmem y hy with hyl | hout
        · exact hinv.one _ _ _ _ _ hl hg' hyl hy'
        · exact (not_out hg' (List.mem_cons_of_mem _ hy') hout).elim
      · rcases hmem y hy' with hyl | hout
        · exact hinv.one _ _ _ _ _ hg hl hy hyl
        · exact (not_out hg (List.mem_cons_of_mem _ hy) hout).elim
      · exact hinv.one _ _ _ _ _ hg hg' hy hy' }

theorem Inv.add (hinv : Inv s lists) (hl : lists h = some l) (hx : lists.Out x) : Inv (s.add h x) (lists.pushFront h x) := by
  have hxl : x ∉ h :: l := fun hmem => not_out hl hmem hx
  have hring := hinv.ring h l hl
  have hnodup := hinv.nodup h l hl
  rw [Lists.pushFront, hl, Option.map_some]
  refine hinv.replace hl (hring.insert_front hnodup (nodup_concat hnodup) hxl (ne_of_mem_of_not_mem List.mem_cons_self hxl).symm)
    ?_ (fun y hy => ?_) fun y hy hout => ?_
  · obtain ⟨hnot, hlist⟩ := List.nodup_cons.mp hnodup
    exact List.nodup_cons.mpr ⟨fun hmem => (List.mem_cons.mp hmem).elim (fun heq => hxl (heq ▸ List.mem_cons_self)) hnot,
      List.nodup_cons.mpr ⟨fun hmem => hxl (List.mem_cons_of_mem h hmem), hlist⟩⟩
  · exact (List.mem_cons.mp hy).elim (fun heq => .inr (heq ▸ hx)) .inl
  · have hyx : y ≠ x := fun heq => hout (heq ▸ hx)
    have hyn : y ≠ s.next h := fun heq => hy (List.mem_cons.mpr ((List.mem_append.mp (heq ▸ hring.next_mem)).symm.imp List.mem_singleton.mp id))
    exact ⟨(Function.update_of_ne (List.ne_of_not_mem_cons hy) _ _).trans (Function.update_of_ne hyx _ _),
      (Function.update_of_ne hyx _ _).trans (Function.update_of_ne hyn _ _)⟩

theorem Inv.addTail (hinv : Inv s lists) (hl : lists h = some l) (hx : lists.Out x) : Inv (s.addTail h x) (lists.pushBack h x) := by
  have hxl : x ∉ h :: l := fun hmem => not_out hl hmem hx
  have hring := hinv.ring h l hl
  have hnodup := hinv.nodup h l hl
  rw [Lists.pushBack, hl, Option.map_some]
  refine hinv.replace hl (hring.insert_back hnodup (nodup_concat hnodup) hxl (ne_of_mem_of_not_mem List.mem_cons_self hxl).symm)
    ?_ (fun y hy => ?_) fun y hy hout => ?_
  · rw [← List.cons_append]
    exact List.nodup_append.mpr ⟨hnodup, List.nodup_singleton x, fun a ha b hb heq => hxl (List.mem_singleton.mp hb ▸ heq ▸ ha)⟩
  · exact (List.mem_append.mp hy).elim .inl fun hlast => .inr (List.mem_singleton.mp hlast ▸ hx)
  · have hyx : y ≠ x := fun heq => hout (heq ▸ hx)
    have hyp : y ≠ s.prev h := fun heq => hy (heq ▸ hring.prev_mem)
    exact ⟨(Function.update_of_ne hyp _ _).trans (Function.update_of_ne hyx _ _),
      (Function.update_of_ne hyx _ _).trans (Function.update_of_ne (List.ne_of_not_mem_cons hy) _ _)⟩

omit [DecidableEq ν] in
/-- The head of an empty list is forgotten. -/
theorem Inv.forget [DecidableEq ν] (hinv : Inv s lists) (x : ν) : Inv s (Function.update lists x none) := by
  have hentry {g : ν} {m : List ν} (hm : Function.update lists x none g = some m) : lists g = some m := by
    by_cases hg : g = x
    · subst hg
      rw [Function.update_self] at hm
      cases hm
    · rwa [Function.update_of_ne hg] at hm
  exact {
    ring := fun g m hm => hinv.ring g m (hentry hm)
    nodup := fun g m hm => hinv.nodup g m (hentry hm)
    member := fun g m y hm hy => by
      rw [Function.update_apply, hinv.member g m y (hentry hm) hy, ite_self]
    one := fun g g' m m' y hm hm' => hinv.one g g' m m' y (hentry hm) (hentry hm') }

/-- A node without a list becomes the head of an empty one. -/
theorem Inv.init (hinv : Inv s lists) (hx : lists.Out x) : Inv (s.init x) (lists.setEmpty x) := by
  have hentry {g : ν} {m : List ν} (hm : Function.update lists x (some []) g = some m) : g = x ∧ m = [] ∨ g ≠ x ∧ lists g = some m := by
    by_cases hg : g = x
    · subst hg
      rw [Function.update_self] at hm
      exact .inl ⟨rfl, (Option.some.inj hm).symm⟩
    · rw [Function.update_of_ne hg] at hm
      exact .inr ⟨hg, hm⟩
  exact {
    ring := fun g m hm => by
      rcases hentry hm with ⟨rfl, rfl⟩ | ⟨-, hg⟩
      · exact ⟨Function.update_self .., Function.update_self ..⟩
      · have hne {y : ν} (hy : y ∈ g :: m) : y ≠ x := fun heq => not_out hg hy (heq ▸ hx)
        refine (hinv.ring g m hg).congr (fun y hy => Function.update_of_ne (hne hy) _ _) fun y hy =>
          Function.update_of_ne (hne ?_) _ _
        rw [List.mem_append, List.mem_singleton] at hy
        exact List.mem_cons.mpr hy.symm
    nodup := fun g m hm => by
      rcases hentry hm with ⟨rfl, rfl⟩ | ⟨-, hg⟩
      · exact List.nodup_singleton g
      · exact hinv.nodup g m hg
    member := fun g m y hm hy => by
      rcases hentry hm with ⟨rfl, rfl⟩ | ⟨-, hg⟩
      · cases hy
      · exact (Function.update_of_ne (fun heq : y = x => hx.1 g m hg (heq ▸ hy)) _ _).trans (hinv.member g m y hg hy)
    one := fun g g' m m' y hm hm' hy hy' => by
      rcases hentry hm with ⟨rfl, rfl⟩ | ⟨-, hg⟩
      · cases hy
      · rcases hentry hm' with ⟨rfl, rfl⟩ | ⟨-, hg'⟩
        · cases hy'
        · exact hinv.one g g' m m' y hg hg' hy hy' }

/-! ### Nodes taken out -/

theorem out_without (lists : Lists ν) (x : ν) : (lists.without x).Out x := by
  refine ⟨fun g m hm => ?_, Function.update_self ..⟩
  rw [Lists.without, Function.update_apply] at hm
  split_ifs at hm
  obtain ⟨m', -, rfl⟩ := Option.map_eq_some_iff.mp hm
  exact fun hx => absurd rfl (of_decide_eq_true (List.mem_filter.mp hx).2)

theorem filter_of_not_mem (hx : x ∉ l) : l.filter (· ≠ x) = l :=
  List.filter_eq_self.mpr fun _ hy => decide_eq_true (ne_of_mem_of_not_mem hy hx)

/-- A node that is in no list does not have to be taken out. -/
theorem without_eq (hx : ∀ h l, lists h = some l → x ∉ l) : lists.without x = Function.update lists x none := by
  funext g
  rw [Lists.without, Function.update_apply, Function.update_apply]
  split_ifs
  · rfl
  · cases hg : lists g with
    | none => rfl
    | some m =>
      exact congrArg some (filter_of_not_mem (hx g m hg))

theorem Inv.free (hinv : Inv s lists) (hx : lists.Free x) : Inv s (lists.without x) := by
  rw [without_eq fun h l hl hmem => hx.1 h (by rwa [hl])]
  exact hinv.forget x

theorem Inv.without_eq {m : List ν} (hinv : Inv s lists) (hl : lists h = some (l ++ x :: m)) :
    lists.without x = Function.update lists h (some (l ++ m)) := by
  have hx : x ∈ l ++ x :: m := List.mem_append_right l List.mem_cons_self
  have hnone := hinv.member h _ x hl hx
  obtain ⟨-, hxm, happart⟩ := List.nodup_append.mp (List.nodup_cons.mp (hinv.nodup h _ hl)).2
  have hxl : x ∉ l := fun hmem => happart x hmem x List.mem_cons_self rfl
  funext g
  rw [Lists.without, Function.update_apply, Function.update_apply]
  split_ifs with hgx hgh hgh
  · subst hgx hgh
    cases hl.symm.trans hnone
  · exact (hgx ▸ hnone).symm
  · rw [hgh, hl, Option.map_some, List.filter_append, List.filter_cons_of_neg (by simp), filter_of_not_mem hxl,
      filter_of_not_mem (List.nodup_cons.mp hxm).1]
  · cases hg : lists g with
    | none => rfl
    | some k => exact congrArg some (filter_of_not_mem fun hk => hgh (hinv.one g h k _ x hg hl hk hx))

theorem Inv.delEntry (hinv : Inv s lists) (hx : lists.Linked x) : Inv (s.delEntry x) (lists.without x) := by
  rcases hx with ⟨h, hx⟩ | hself
  · obtain ⟨k, hl⟩ : ∃ k, lists h = some k := Option.ne_none_iff_exists'.mp fun hnone => by
      rw [hnone] at hx
      cases hx
    rw [hl] at hx
    obtain ⟨l, m, rfl⟩ := List.append_of_mem (hx : x ∈ k)
    have hring := hinv.ring h _ hl
    have hnodup := hinv.nodup h _ hl
    obtain ⟨hbefore, hbehind⟩ := seg_append.mp hring
    rw [hinv.without_eq hl]
    refine hinv.replace hl (hring.remove hnodup (nodup_concat hnodup)) ?_ (fun y hy => ?_) fun y hy _ => ?_
    · exact hnodup.sublist ((List.sublist_append_right [x] m).append_left l |>.cons_cons h)
    · rcases List.mem_append.mp hy with hy | hy
      · exact .inl (List.mem_append_left _ hy)
      · exact .inl (List.mem_append_right _ (List.mem_cons_of_mem x hy))
    · refine ⟨Function.update_of_ne (fun heq => hy ?_) _ _, Function.update_of_ne (fun heq => hy ?_) _ _⟩
      · exact heq ▸ List.mem_append_left (x :: m) hbefore.prev_mem
      · have hmem := hbehind.next_mem
        rw [← heq, List.mem_append, List.mem_singleton] at hmem
        exact hmem.elim (fun hym => List.mem_cons_of_mem h (List.mem_append_right l (List.mem_cons_of_mem x hym)))
          fun hyh => hyh ▸ List.mem_cons_self
  · obtain ⟨hnext, hprev⟩ := hinv.ring x [] hself
    have hsame : s.delEntry x = s := by
      rw [Dlink.delEntry, nodeDel, hnext, hprev, Function.update_eq_self_iff.mpr hnext.symm,
        Function.update_eq_self_iff.mpr hprev.symm]
    rw [hsame]
    refine hinv.free ⟨fun h hx => ?_, by rw [hself]; rfl⟩
    cases hl : lists h with
    | none =>
      rw [hl] at hx
      cases hx
    | some l =>
      rw [hl] at hx
      cases hself.symm.trans (hinv.member h l x hl hx)

/-! ### Runs -/

theorem Inv.step (hinv : Inv s lists) {op : Op ν} (hop : lists.Allowed op) : Inv (s.step op) (lists.step op) := by
  have hhead {h x : ν} (hne : h ≠ x) (hh : lists h ≠ none) : ∃ l, lists.without x h = some l := by
    obtain ⟨l, hl⟩ := Option.ne_none_iff_exists'.mp hh
    exact ⟨l.filter (· ≠ x), by rw [Lists.without, Function.update_of_ne hne, hl, Option.map_some]⟩
  cases op with
  | init x => exact (hinv.free hop).init (out_without lists x)
  | del x => exact (hinv.delEntry hop).init (out_without lists x)
  | add h x =>
    obtain ⟨hfree, hne, hh⟩ := hop
    obtain ⟨l, hl⟩ := hhead hne hh
    exact (hinv.free hfree).add hl (out_without lists x)
  | addTail h x =>
    obtain ⟨hfree, hne, hh⟩ := hop
    obtain ⟨l, hl⟩ := hhead hne hh
    exact (hinv.free hfree).addTail hl (out_without lists x)
  | move h x =>
    obtain ⟨hlinked, hne, hh⟩ := hop
    obtain ⟨l, hl⟩ := hhead hne hh
    exact (hinv.delEntry hlinked).add hl (out_without lists x)
  | moveTail h x =>
    obtain ⟨hlinked, hne, hh⟩ := hop
    obtain ⟨l, hl⟩ := hhead hne hh
    exact (hinv.delEntry hlinked).addTail hl (out_without lists x)

theorem Inv.run (hinv : Inv s lists) {ops : List (Op ν)} (hops : lists.Proper ops) :
    Inv (ops.foldl Dlink.step s) (ops.foldl Lists.step lists) := by
  induction ops generalizing s lists with
  | nil => exact hinv
  | cons op ops ih => exact ih (hinv.step hops.1) hops.2

/-! ### Loops -/

omit [DecidableEq ν] in
theorem Seg.walk [DecidableEq ν] {next prev : ν → ν} (hring : Seg next prev x l h) (hnot : h ∉ l) :
    walk next h (l.length + 1) (next x) = some l := by
  induction l generalizing x with
  | nil => rw [Dlink.walk, if_neg (not_not.mpr hring.1)]
  | cons y l ih =>
    obtain ⟨⟨hforward, -⟩, hrest⟩ := hring
    have hne : y ≠ h := fun heq => hnot (heq ▸ List.mem_cons_self)
    rw [hforward, List.length_cons, Dlink.walk, if_pos hne, ih hrest fun hmem => hnot (List.mem_cons_of_mem y hmem), Option.map_some]

/-- The loop deletes the nodes of a list one after the other, each before it goes on to the next one. -/
theorem Inv.delForEach (hinv : Inv s lists) (hl : lists h = some l) :
    ∃ s' lists', s.delForEach (l.length + 1) h = some (l, s') ∧ Inv s' lists' ∧ lists' h = some [] := by
  induction l generalizing s lists with
  | nil =>
    refine ⟨s, lists, ?_, hinv, hl⟩
    rw [Dlink.delForEach, delLoop, if_neg (not_not.mpr (hinv.ring h [] hl).1)]
  | cons x m ih =>
    obtain ⟨⟨hnext, -⟩, hrest⟩ := hinv.ring h _ hl
    have hne : x ≠ h := fun heq => (List.nodup_cons.mp (hinv.nodup h _ hl)).1 (heq ▸ List.mem_cons_self)
    have hop : lists.Allowed (.del x) := .inl ⟨h, by rw [hl]; exact List.mem_cons_self⟩
    have hinv' : Inv (s.del x) (lists.step (.del x)) := hinv.step hop
    have hl' : lists.step (.del x) h = some m := by
      rw [Lists.step, Lists.setEmpty, hinv.without_eq (l := []) hl, Function.update_of_ne hne.symm, Function.update_self]
      rfl
    obtain ⟨s', lists', hloop, hdone⟩ := ih hinv' hl'
    have hsafe : s.next x = (s.del x).next h := by
      rw [hrest.next_eq, (hinv'.ring h m hl').next_eq]
    refine ⟨s', lists', ?_, hdone⟩
    rw [Dlink.delForEach, List.length_cons, delLoop, hnext, if_pos hne, hsafe]
    exact congrArg (Option.map fun r => (x :: r.1, r.2)) hloop

/-- After any run of allowed operations, from any links on, each ring has the list of its head, forward
and backward, and the deletion of all its nodes takes them in order and leaves the list empty. -/
theorem run_lists (s : Dlink ν) {ops : List (Op ν)} (hops : Lists.Proper (fun _ => none) ops) {h : ν} {l : List ν}
    (hl : ops.foldl Lists.step (fun _ => none) h = some l) :
    (ops.foldl Dlink.step s).forEach (l.length + 1) h = some l ∧
      walk (ops.foldl Dlink.step s).prev h (l.length + 1) ((ops.foldl Dlink.step s).prev h) = some l.reverse ∧
      ∃ s', (ops.foldl Dlink.step s).delForEach (l.length + 1) h = some (l, s') ∧ s'.forEach 1 h = some [] := by
  have hinv := (inv_none s).run hops
  have hring := hinv.ring h l hl
  have hnot := (List.nodup_cons.mp (hinv.nodup h l hl)).1
  refine ⟨Seg.walk hring hnot, ?_, ?_⟩
  · have hback := Seg.walk hring.reverse fun hmem => hnot (List.mem_reverse.mp hmem)
    rwa [List.length_reverse] at hback
  · obtain ⟨s', lists', hloop, hinv', hempty⟩ := hinv.delForEach hl
    exact ⟨s', hloop, Seg.walk (hinv'.ring h [] hempty) List.not_mem_nil⟩

/-- A list of three nodes, one of them moved to the front and another one deleted. -/
def threeNodeOps (h a b c : ν) : List (Op ν) := [.init h, .add h a, .addTail h b, .addTail h c, .move h c, .del a]

theorem run_lists_three_nodes : ((threeNodeOps (0 : Fin 4) 1 2 3).foldl Dlink.step ⟨fun _ => 2, fun _ => 1⟩).forEach 3 0 = some [3, 2] :=
  (run_lists ⟨fun _ => 2, fun _ => 1⟩ (by decide)
    (by decide : (threeNodeOps (0 : Fin 4) 1 2 3).foldl Lists.step (fun _ => none) 0 = some [3, 2])).1

end Dlink

end RaleighSL.Zcl
