import Mathlib.Data.List.Nodup
import Mathlib.Logic.Function.Basic
import Mathlib.Tactic.Common

/-!
# Linked places

Every node is a place, and there may be other places, such as the head of a list. A place may
have a field for the next node. Besides the nodes that are linked from a place on there are
two changes: a new node behind some of them, and a node that is left out.

Nodes can also be linked in both directions. A segment leads from one node over others to a last one,
and every link forward is answered by a link back. A ring is a segment from a node to itself.
-/
namespace RaleighSL.Library

section

variable {π ν : Type*} {place : ν → π} {link link' : π → Option (Option ν)} {p q : π} {n : ν} {l m : List ν}

/-- The nodes that are linked from a place on, in order. -/
def Linked (place : ν → π) (link : π → Option (Option ν)) : π → List ν → Prop
  | p, [] => link p = some none
  | p, n :: l => link p = some (some n) ∧ Linked place link (place n) l

/-- The place of the last node, or the one in front of the first. -/
def endOf (place : ν → π) : π → List ν → π
  | p, [] => p
  | _, n :: l => endOf place (place n) l

theorem endOf_append : endOf place p (l ++ m) = endOf place (endOf place p l) m := by
  induction l generalizing p with
  | nil => rfl
  | cons n l ih => exact ih

theorem endOf_concat : endOf place p (l ++ [n]) = place n := by
  rw [endOf_append]
  rfl

theorem endOf_mem : endOf place p l ∈ p :: l.map place := by
  induction l generalizing p with
  | nil => exact List.mem_cons_self
  | cons n l ih => exact List.mem_cons_of_mem p ih

theorem Linked.link_eq (h : Linked place link p l) : link p = some l.head? := by
  cases l with
  | nil => exact h
  | cons n l => exact h.1

theorem Linked.suffix (h : Linked place link p (l ++ m)) : Linked place link (endOf place p l) m := by
  induction l generalizing p with
  | nil => exact h
  | cons n l ih => exact ih h.2

/-- Another place with the same field, and nodes whose fields stay. -/
theorem Linked.of_link (h : Linked place link p l) (hq : link' q = link p)
    (hsame : ∀ n ∈ l, link' (place n) = link (place n)) : Linked place link' q l := by
  induction l generalizing p q with
  | nil => exact hq.trans h
  | cons n l ih =>
    exact ⟨hq.trans h.1, ih h.2 (hsame n List.mem_cons_self) (fun a ha => hsame a (List.mem_cons_of_mem n ha))⟩

/-- Other nodes behind a place, when the fields on the way to it stay. -/
theorem Linked.relink {m' : List ν} (h : Linked place link p (l ++ m)) (hnodup : (p :: l.map place).Nodup)
    (hsame : ∀ q ∈ p :: l.map place, q ≠ endOf place p l → link' q = link q)
    (hm : Linked place link' (endOf place p l) m') : Linked place link' p (l ++ m') := by
  induction l generalizing p with
  | nil => exact hm
  | cons n l ih =>
    rw [List.map_cons] at hnodup hsame
    obtain ⟨hp, hnodup⟩ := List.nodup_cons.mp hnodup
    have hne : p ≠ endOf place p (n :: l) := by
      intro heq
      apply hp
      rw [heq]
      exact endOf_mem
    exact ⟨(hsame p List.mem_cons_self hne).trans h.1,
      ih h.2 hnodup (fun q hq => hsame q (List.mem_cons_of_mem p hq)) hm⟩

theorem ne_endOf (hnodup : (p :: (l ++ m).map place).Nodup) (hn : n ∈ m) : place n ≠ endOf place p l := by
  intro heq
  rw [List.map_append, ← List.cons_append] at hnodup
  exact (List.nodup_append.mp hnodup).2.2 _ endOf_mem _ (List.mem_map_of_mem hn) heq.symm

theorem mem_places (hn : n ∈ m) : place n ∈ p :: (l ++ m).map place :=
  List.mem_cons_of_mem p (List.mem_map_of_mem (List.mem_append_right l hn))

theorem nodup_front (hnodup : (p :: (l ++ m).map place).Nodup) : (p :: l.map place).Nodup := by
  rw [List.map_append, ← List.cons_append] at hnodup
  exact (List.nodup_append.mp hnodup).1

theorem mem_front (hq : q ∈ p :: l.map place) : q ∈ p :: (l ++ m).map place := by
  rw [List.map_append, ← List.cons_append]
  exact List.mem_append_left _ hq

theorem Linked.insert (h : Linked place link p (l ++ m)) (hnodup : (p :: (l ++ m).map place).Nodup)
    (hlast : link' (endOf place p l) = some (some n)) (hnew : link' (place n) = link (endOf place p l))
    (hsame : ∀ q ∈ p :: (l ++ m).map place, q ≠ endOf place p l → link' q = link q) :
    Linked place link' p (l ++ n :: m) := by
  apply h.relink (nodup_front hnodup) (fun q hq => hsame q (mem_front hq))
  refine ⟨hlast, h.suffix.of_link hnew ?_⟩
  intro a ha
  exact hsame _ (mem_places ha) (ne_endOf hnodup ha)

theorem Linked.remove (h : Linked place link p (l ++ n :: m)) (hnodup : (p :: (l ++ m).map place).Nodup)
    (hlast : link' (endOf place p l) = link (place n))
    (hsame : ∀ q ∈ p :: (l ++ m).map place, q ≠ endOf place p l → link' q = link q) :
    Linked place link' p (l ++ m) := by
  apply h.relink (nodup_front hnodup) (fun q hq => hsame q (mem_front hq))
  refine h.suffix.2.of_link hlast ?_
  intro a ha
  exact hsame _ (mem_places ha) (ne_endOf hnodup ha)

end

/-! ### Links in both directions -/

section

variable {ν : Type*} [DecidableEq ν] {next prev next' prev' : ν → ν} {a b x y : ν} {l m : List ν}

/-- The nodes `l` are linked between `a` and `b`. -/
def Seg (next prev : ν → ν) : ν → List ν → ν → Prop
  | a, [], b => next a = b ∧ prev b = a
  | a, x :: l, b => (next a = x ∧ prev x = a) ∧ Seg next prev x l b

section
omit [DecidableEq ν]

theorem seg_append : Seg next prev a (l ++ x :: m) b ↔ Seg next prev a l x ∧ Seg next prev x m b := by
  induction l generalizing a with
  | nil => rfl
  | cons y l ih => rw [List.cons_append, Seg, Seg, ih, ← and_assoc]

theorem Seg.congr (h : Seg next prev a l b) (hnext : ∀ y ∈ a :: l, next' y = next y) (hprev : ∀ y ∈ l ++ [b], prev' y = prev y) :
    Seg next' prev' a l b := by
  induction l generalizing a with
  | nil => exact ⟨(hnext a List.mem_cons_self).trans h.1, (hprev b List.mem_cons_self).trans h.2⟩
  | cons x l ih =>
    obtain ⟨⟨hforward, hback⟩, hrest⟩ := h
    refine ⟨⟨(hnext a List.mem_cons_self).trans hforward, (hprev x List.mem_cons_self).trans hback⟩, ih hrest ?_ ?_⟩
    · exact fun y hy => hnext y (List.mem_cons_of_mem a hy)
    · exact fun y hy => hprev y (List.mem_cons_of_mem x hy)

theorem Seg.next_eq (h : Seg next prev a l b) : next a = l.head?.getD b := by
  cases l with
  | nil => exact h.1
  | cons x l => exact h.1.1

theorem Seg.next_mem (h : Seg next prev a l b) : next a ∈ l ++ [b] := by
  cases l with
  | nil => exact h.1 ▸ List.mem_cons_self
  | cons x l => exact h.1.1 ▸ List.mem_cons_self

theorem Seg.prev_mem (h : Seg next prev a l b) : prev b ∈ a :: l := by
  induction l generalizing a with
  | nil => exact h.2 ▸ List.mem_cons_self
  | cons x l ih => exact List.mem_cons_of_mem a (ih h.2)

theorem Seg.reverse (h : Seg next prev a l b) : Seg prev next b l.reverse a := by
  induction l generalizing a with
  | nil => exact ⟨h.2, h.1⟩
  | cons x l ih =>
    obtain ⟨⟨hforward, hback⟩, hrest⟩ := h
    rw [List.reverse_cons]
    exact seg_append.mpr ⟨ih hrest, hback, hforward⟩

end

theorem Seg.insert_front (h : Seg next prev a l b) (ha : (a :: l).Nodup) (hb : (l ++ [b]).Nodup) (hxa : x ∉ a :: l) (hxb : x ≠ b) :
    Seg (Function.update (Function.update next x (next a)) a x) (Function.update (Function.update prev (next a) x) x a) a (x :: l) b := by
  have hax : a ≠ x := fun heq => hxa (heq ▸ List.mem_cons_self)
  refine ⟨⟨Function.update_self .., Function.update_self ..⟩, ?_⟩
  cases l with
  | nil =>
    obtain rfl := h.1
    refine ⟨?_, ?_⟩
    · rw [Function.update_of_ne hax.symm, Function.update_self]
    · rw [Function.update_of_ne hxb.symm, Function.update_self]
  | cons y l =>
    obtain ⟨⟨rfl, hback⟩, hrest⟩ := h
    have hxy : x ≠ next a := fun heq => hxa (heq ▸ List.mem_cons_of_mem a List.mem_cons_self)
    refine ⟨⟨?_, ?_⟩, hrest.congr (fun z hz => ?_) fun z hz => ?_⟩
    · rw [Function.update_of_ne hax.symm, Function.update_self]
    · rw [Function.update_of_ne hxy.symm, Function.update_self]
    · rw [Function.update_of_ne (ne_of_mem_of_not_mem hz (List.nodup_cons.mp ha).1),
        Function.update_of_ne (ne_of_mem_of_not_mem (List.mem_cons_of_mem a hz) hxa)]
    · have hzx : z ≠ x := by
        rintro rfl
        rcases List.mem_append.mp hz with hl | hlast
        · exact hxa (List.mem_cons_of_mem a (List.mem_cons_of_mem _ hl))
        · exact hxb (List.mem_singleton.mp hlast)
      rw [Function.update_of_ne hzx, Function.update_of_ne (ne_of_mem_of_not_mem hz (List.nodup_cons.mp hb).1)]

theorem Seg.insert_back (h : Seg next prev a l b) (ha : (a :: l).Nodup) (hb : (l ++ [b]).Nodup) (hxa : x ∉ a :: l) (hxb : x ≠ b) :
    Seg (Function.update (Function.update next x b) (prev b) x) (Function.update (Function.update prev b x) x (prev b)) a (l ++ [x]) b := by
  have hxp : x ≠ prev b := fun heq => hxa (heq ▸ h.prev_mem)
  refine seg_append.mpr ⟨?_, ?_, ?_⟩
  · induction l generalizing a with
    | nil =>
      obtain rfl := h.2
      exact ⟨Function.update_self .., Function.update_self ..⟩
    | cons y l ih =>
      obtain ⟨⟨hforward, hback⟩, hrest⟩ := h
      have hnot := (List.nodup_cons.mp ha).1
      have hyb : y ≠ b := fun heq => (List.nodup_cons.mp hb).1 (heq ▸ List.mem_append_right l List.mem_cons_self)
      refine ⟨⟨?_, ?_⟩, ih hrest (List.nodup_cons.mp ha).2 (List.nodup_cons.mp hb).2 (fun hmem => hxa (List.mem_cons_of_mem a hmem))⟩
      · rw [Function.update_of_ne (ne_of_mem_of_not_mem hrest.prev_mem hnot).symm,
          Function.update_of_ne (ne_of_mem_of_not_mem List.mem_cons_self hxa), hforward]
      · rw [Function.update_of_ne (ne_of_mem_of_not_mem (List.mem_cons_of_mem a List.mem_cons_self) hxa), Function.update_of_ne hyb, hback]
  · rw [Function.update_of_ne hxp, Function.update_self]
  · rw [Function.update_of_ne hxb.symm, Function.update_self]

theorem Seg.remove (h : Seg next prev a (l ++ x :: m) b) (ha : (a :: (l ++ x :: m)).Nodup) (hb : (l ++ x :: m ++ [b]).Nodup) :
    Seg (Function.update next (prev x) (next x)) (Function.update prev (next x) (prev x)) a (l ++ m) b := by
  induction l generalizing a with
  | nil =>
    obtain ⟨⟨hforward, rfl⟩, hrest⟩ := h
    cases m with
    | nil =>
      obtain rfl := hrest.1
      exact ⟨Function.update_self .., Function.update_self ..⟩
    | cons y m =>
      obtain ⟨⟨rfl, -⟩, htail⟩ := hrest
      refine ⟨⟨Function.update_self .., Function.update_self ..⟩, htail.congr (fun z hz => ?_) fun z hz => ?_⟩
      · exact Function.update_of_ne (ne_of_mem_of_not_mem (List.mem_cons_of_mem x hz) (List.nodup_cons.mp ha).1) _ _
      · exact Function.update_of_ne (ne_of_mem_of_not_mem hz (List.nodup_cons.mp (List.nodup_cons.mp hb).2).1) _ _
  | cons y l ih =>
    obtain ⟨⟨hforward, hback⟩, hrest⟩ := h
    obtain ⟨hsegment, hbehind⟩ := seg_append.mp hrest
    refine ⟨⟨?_, ?_⟩, ih hrest (List.nodup_cons.mp ha).2 (List.nodup_cons.mp hb).2⟩
    · have hmem : prev x ∈ y :: l ++ x :: m := List.mem_append_left _ hsegment.prev_mem
      rw [Function.update_of_ne (ne_of_mem_of_not_mem hmem (List.nodup_cons.mp ha).1).symm, hforward]
    · have hmem : next x ∈ l ++ x :: m ++ [b] := by
        rw [List.append_assoc]
        exact List.mem_append_right l (List.mem_cons_of_mem x hbehind.next_mem)
      rw [Function.update_of_ne (ne_of_mem_of_not_mem hmem (List.nodup_cons.mp hb).1).symm, hback]

end

end RaleighSL.Library
