import Mathlib.Data.List.Basic

/-!
# Operator precedence

A chain is an operand with more operands behind it, each with the operator before it. A tree over
a chain is grouped by precedence when an operator of higher precedence binds tighter and
operators of equal precedence associate to the left. There is exactly one such tree for a chain.

Precedence climbing takes the operators of a least precedence on, and gives the right operand of
an operator what comes after it with a higher one. When the recursion takes the operators of
equal precedence as well, the tree is grouped unless there is such an operator after a higher one.
-/
namespace RaleighSL.Library

inductive OpTree (α β : Type*) where
  | leaf (a : α)
  | node (left : OpTree α β) (op : β) (right : OpTree α β)
  deriving DecidableEq, Repr

namespace OpTree

variable {α β : Type*}

def head : OpTree α β → α
  | leaf a => a
  | node l _ _ => l.head

def rest : OpTree α β → List (β × α)
  | leaf _ => []
  | node l b r => l.rest ++ (b, r.head) :: r.rest

def ops (t : OpTree α β) : List β := t.rest.map Prod.fst

@[simp] theorem ops_leaf (a : α) : (leaf a : OpTree α β).ops = [] := rfl

@[simp] theorem ops_node (l : OpTree α β) (b : β) (r : OpTree α β) : (node l b r).ops = l.ops ++ b :: r.ops := by
  simp [ops, rest]

variable (prec : β → Nat)

/-- Operators of higher precedence bind tighter, those of equal precedence associate to the left. -/
def Grouped : OpTree α β → Prop
  | leaf _ => True
  | node l b r => l.Grouped ∧ r.Grouped ∧ (∀ c ∈ l.ops, prec b ≤ prec c) ∧ ∀ c ∈ r.ops, prec b < prec c

def push : OpTree α β → β → α → OpTree α β
  | leaf x, b, a => node (leaf x) b (leaf a)
  | node l c r, b, a => if prec c < prec b then node l c (r.push b a) else node (node l c r) b (leaf a)

def group (a : α) (l : List (β × α)) : OpTree α β := l.foldl (fun t p => t.push prec p.1 p.2) (leaf a)

variable {prec}

theorem push_head (t : OpTree α β) (b : β) (a : α) : (t.push prec b a).head = t.head := by
  cases t with
  | leaf x => rfl
  | node l c r =>
    rw [push]
    split <;> rfl

theorem push_rest (t : OpTree α β) (b : β) (a : α) : (t.push prec b a).rest = t.rest ++ [(b, a)] := by
  induction t with
  | leaf x => rfl
  | node l c r _ ih =>
    rw [push]
    split
    · simp [rest, ih, push_head]
    · simp [rest, head]

theorem push_grouped {t : OpTree α β} (h : t.Grouped prec) (b : β) (a : α) : (t.push prec b a).Grouped prec := by
  induction t with
  | leaf x => simp [push, Grouped]
  | node l c r _ ih =>
    obtain ⟨hl, hr, hleft, hright⟩ := h
    rw [push]
    split
    next hlt =>
      refine ⟨hl, ih hr, hleft, ?_⟩
      intro d hd
      rw [ops, push_rest, List.map_append, List.mem_append] at hd
      obtain hd | hd := hd
      · exact hright d hd
      · obtain rfl := List.mem_singleton.mp hd
        exact hlt
    next hle =>
      refine ⟨⟨hl, hr, hleft, hright⟩, trivial, ?_, by simp⟩
      intro d hd
      rw [ops_node, List.mem_append, List.mem_cons] at hd
      obtain hd | rfl | hd := hd
      · exact Nat.le_trans (Nat.le_of_not_lt hle) (hleft d hd)
      · exact Nat.le_of_not_lt hle
      · exact Nat.le_trans (Nat.le_of_not_lt hle) (Nat.le_of_lt (hright d hd))

def map {γ : Type*} (f : α → γ) : OpTree α β → OpTree γ β
  | leaf a => leaf (f a)
  | node l b r => node (l.map f) b (r.map f)

theorem push_map {γ : Type*} (f : α → γ) (t : OpTree α β) (b : β) (a : α) :
    (t.push prec b a).map f = (t.map f).push prec b (f a) := by
  induction t with
  | leaf x => rfl
  | node l c r _ ih =>
    rw [push, map, push]
    split
    · rw [map, ih]
    · rfl

theorem group_map {γ : Type*} (f : α → γ) (a : α) (l : List (β × α)) :
    (group prec a l).map f = group prec (f a) (l.map (fun p => (p.1, f p.2))) := by
  have hfold : ∀ t : OpTree α β, (l.foldl (fun t p => t.push prec p.1 p.2) t).map f =
      (l.map (fun p => (p.1, f p.2))).foldl (fun t p => t.push prec p.1 p.2) (t.map f) := by
    induction l with
    | nil => exact fun t => rfl
    | cons p l ih =>
      intro t
      rw [List.foldl_cons, List.map_cons, List.foldl_cons, ih, push_map]
  exact hfold (leaf a)

theorem foldl_push (t : OpTree α β) (l : List (β × α)) :
    (l.foldl (fun t p => t.push prec p.1 p.2) t).head = t.head ∧
      (l.foldl (fun t p => t.push prec p.1 p.2) t).rest = t.rest ++ l ∧
      (t.Grouped prec → (l.foldl (fun t p => t.push prec p.1 p.2) t).Grouped prec) := by
  induction l generalizing t with
  | nil => simp
  | cons p l ih =>
    obtain ⟨hhead, hrest, hgrouped⟩ := ih (t.push prec p.1 p.2)
    refine ⟨hhead.trans (push_head ..), ?_, fun h => hgrouped (push_grouped h ..)⟩
    rw [List.foldl_cons, hrest, push_rest, List.append_assoc, List.singleton_append]

@[simp] theorem group_head (a : α) (l : List (β × α)) : (group prec a l).head = a := (foldl_push _ l).1

@[simp] theorem group_rest (a : α) (l : List (β × α)) : (group prec a l).rest = l := by
  rw [group, (foldl_push _ l).2.1, rest, List.nil_append]

theorem group_grouped (a : α) (l : List (β × α)) : (group prec a l).Grouped prec := (foldl_push _ l).2.2 trivial

theorem foldl_push_right (l : OpTree α β) (b : β) (t : OpTree α β) {is : List (β × α)}
    (h : ∀ p ∈ is, prec b < prec p.1) :
    is.foldl (fun t p => t.push prec p.1 p.2) (node l b t) =
      node l b (is.foldl (fun t p => t.push prec p.1 p.2) t) := by
  induction is generalizing t with
  | nil => rfl
  | cons p is ih =>
    rw [List.foldl_cons, List.foldl_cons, push, if_pos (h p List.mem_cons_self)]
    exact ih _ (fun q hq => h q (List.mem_cons_of_mem _ hq))

theorem push_of_le {t : OpTree α β} {b : β} (h : ∀ c ∈ t.ops, prec b ≤ prec c) (a : α) :
    t.push prec b a = node t b (leaf a) := by
  cases t with
  | leaf x => rfl
  | node l c r => rw [push, if_neg (Nat.not_lt.mpr (h c (by simp)))]

theorem Grouped.eq_group {t : OpTree α β} (h : t.Grouped prec) : group prec t.head t.rest = t := by
  induction t with
  | leaf a => rfl
  | node l b r ihl ihr =>
    obtain ⟨hl, hr, hleft, hright⟩ := h
    have hright' : ∀ p ∈ r.rest, prec b < prec p.1 := fun p hp => hright p.1 (List.mem_map_of_mem hp)
    rw [head, rest, group, List.foldl_append, List.foldl_cons]
    change r.rest.foldl _ ((group prec l.head l.rest).push prec b r.head) = _
    rw [ihl hl, push_of_le hleft, foldl_push_right _ _ _ hright']
    exact congrArg (node l b) (ihr hr)

theorem Grouped.unique {t t' : OpTree α β} (h : t.Grouped prec) (h' : t'.Grouped prec) (hhead : t.head = t'.head)
    (hrest : t.rest = t'.rest) : t = t' := by
  rw [← h.eq_group, ← h'.eq_group, hhead, hrest]

/-! ### Climbing -/

/-- Between two operators of equal precedence not all operators have a higher one, unless there is none between them. -/
def Clean (prec : β → Nat) (l : List β) : Prop :=
  ∀ xs b ys c zs, l = xs ++ b :: (ys ++ c :: zs) → prec b = prec c → (∀ y ∈ ys, prec b < prec y) → ys = []

theorem clean_of_length_le {l : List β} (h : l.length ≤ 2) : Clean prec l := by
  rintro xs b ys c zs rfl _ _
  simp only [List.length_append, List.length_cons] at h
  exact List.length_eq_zero_iff.mp (by omega)

/-- What climbing gives. The right operand of an operator has operators of its precedence on. If it has one, the first
is higher and the operator that follows is lower. -/
def Climbed (prec : β → Nat) : OpTree α β → Option β → Prop
  | leaf _, _ => True
  | node l b r, next =>
    l.Climbed prec (some b) ∧ r.Climbed prec next ∧ (∀ c ∈ l.ops, prec b ≤ prec c) ∧ (∀ c ∈ r.ops, prec b ≤ prec c) ∧
      (∀ c ∈ r.ops.head?, prec b < prec c) ∧ (r.ops ≠ [] → ∀ c ∈ next, prec c < prec b)

theorem Climbed.next_lt {t : OpTree α β} {next : Option β} (hc : t.Climbed prec next) (hg : t.Grouped prec)
    {xs ys : List β} {c : β} (hops : t.ops = xs ++ c :: ys) (hys : ∀ y ∈ ys, prec c < prec y) (hne : ys ≠ []) :
    ∀ n ∈ next, prec n < prec c := by
  induction t generalizing next xs ys with
  | leaf a => simp at hops
  | node l b r ihl ihr =>
    obtain ⟨-, hrc, hleft, -, -, hnext⟩ := hc
    obtain ⟨-, hrg, -, -⟩ := hg
    rw [ops_node, List.append_eq_append_iff] at hops
    obtain ⟨as, -, hops⟩ | ⟨cs, hl, hops⟩ := hops
    · cases as with
      | nil =>
        obtain ⟨rfl, rfl⟩ := List.cons.inj hops
        exact hnext hne
      | cons a as =>
        obtain ⟨-, hr⟩ := List.cons.inj hops
        exact ihr hrc hrg hr hys hne
    · cases cs with
      | nil =>
        obtain ⟨rfl, rfl⟩ := List.cons.inj hops
        exact hnext hne
      | cons a cs =>
        obtain ⟨rfl, rfl⟩ := List.cons.inj hops
        have hle : prec b ≤ prec c := hleft c (by rw [hl]; simp)
        have hlt : prec c < prec b := hys b (by simp)
        exact absurd hlt (Nat.not_lt.mpr hle)

theorem Clean.of_append {xs l ys : List β} (h : Clean prec (xs ++ l ++ ys)) : Clean prec l := by
  rintro as b bs c cs rfl heq hlt
  exact h (xs ++ as) b bs c (cs ++ ys) (by simp) heq hlt

theorem Climbed.grouped {t : OpTree α β} {next : Option β} (h : t.Climbed prec next) (hclean : Clean prec t.ops) :
    t.Grouped prec := by
  induction t generalizing next with
  | leaf a => trivial
  | node l b r ihl ihr =>
    obtain ⟨hl, hr, hleft, hright, hfirst, -⟩ := h
    rw [ops_node] at hclean
    have hcleanl : Clean prec l.ops := Clean.of_append (show Clean prec ([] ++ l.ops ++ b :: r.ops) from hclean)
    have hcleanr : Clean prec r.ops :=
      Clean.of_append (show Clean prec (l.ops ++ [b] ++ r.ops ++ []) by simpa using hclean)
    refine ⟨ihl hl hcleanl, ihr hr hcleanr, hleft, ?_⟩
    intro c hcr
    by_contra hge
    have hsome : (r.ops.find? (fun c => prec c ≤ prec b)).isSome := by
      rw [List.find?_isSome]
      exact ⟨c, hcr, by simpa using hge⟩
    obtain ⟨d, hd⟩ := Option.isSome_iff_exists.mp hsome
    obtain ⟨hle, ys, zs, hops, hys⟩ := List.find?_eq_some_iff_append.mp hd
    have hmem : d ∈ r.ops := by rw [hops]; simp
    have heq : prec b = prec d := Nat.le_antisymm (hright d hmem) (by simpa using hle)
    have hnil : ys = [] := hclean l.ops b ys d zs (by rw [hops]) heq (fun y hy => by simpa using hys y hy)
    subst hnil
    have hlt : prec b < prec d := hfirst d (by rw [hops]; rfl)
    omega

theorem Climbed.clean {t : OpTree α β} {next : Option β} (h : t.Climbed prec next) (hg : t.Grouped prec) :
    Clean prec t.ops := by
  induction t generalizing next with
  | leaf a =>
    intro xs b ys c zs hops
    simp at hops
  | node l b r ihl ihr =>
    obtain ⟨hlc, hrc, hleft, -, -, -⟩ := h
    obtain ⟨hlg, hrg, -, hright⟩ := hg
    intro xs c ys d zs hops heq hys
    have hself (hcb : c = b) (hr : r.ops = ys ++ d :: zs) : ys = [] := by
      have hlt : prec b < prec d := hright d (by rw [hr]; simp)
      rw [hcb] at heq
      omega
    rw [ops_node, List.append_eq_append_iff] at hops
    obtain ⟨as, -, hops⟩ | ⟨cs, hl, hops⟩ := hops
    · cases as with
      | nil =>
        obtain ⟨hbc, hr⟩ := List.cons.inj hops
        exact hself hbc.symm hr
      | cons a as =>
        obtain ⟨-, hr⟩ := List.cons.inj hops
        exact ihr hrc hrg as c ys d zs hr heq hys
    · cases cs with
      | nil =>
        obtain ⟨hcb, hr⟩ := List.cons.inj hops
        exact hself hcb hr.symm
      | cons a cs =>
        obtain ⟨rfl, htail⟩ := List.cons.inj hops
        have hle : prec b ≤ prec c := hleft c (by rw [hl]; simp)
        have hlast (hdb : d = b) (hcs : ys = cs) : ys = [] := by
          by_contra hne
          subst hcs
          have hlt := hlc.next_lt hlg hl hys hne b rfl
          rw [hdb] at heq
          omega
        change ys ++ d :: zs = cs ++ b :: r.ops at htail
        rw [List.append_eq_append_iff] at htail
        obtain ⟨es, hcs, htail⟩ | ⟨es, hysc, htail⟩ := htail
        · cases es with
          | nil =>
            obtain ⟨hdb, -⟩ := List.cons.inj htail
            exact hlast hdb (by simpa using hcs.symm)
          | cons e es =>
            obtain ⟨rfl, -⟩ := List.cons.inj htail
            exact ihl hlc hlg xs c ys d es (by rw [hl, hcs]) heq hys
        · cases es with
          | nil =>
            obtain ⟨hdb, -⟩ := List.cons.inj htail
            exact hlast hdb.symm (by simpa using hysc)
          | cons e es =>
            obtain ⟨rfl, -⟩ := List.cons.inj htail
            have hlt : prec c < prec b := hys b (by rw [hysc]; simp)
            omega

end OpTree

end RaleighSL.Library
