import RaleighSL.Zcl.Avl.Contents

/-!
# The extreme nodes

`__avl_detach_edge` takes the place of the root for a node and follows its children in
one direction. The root is the first child of that node. Its second child is the memory
behind the root, which is no part of the tree, so that no tree gives up its greatest
node. The least node is given up when the way to it, and its right child, fit in the stack.
-/
namespace RaleighSL.Zcl.Avl

variable {κ α : Type*}

/-- `p->child[edge]` for the place of the root. -/
def rootChild (t : Tree α) : Bool → Option (Tree α)
  | false => some t
  | true => none

/-- The loop of `__avl_detach_edge` from a node on: the last node with its ancestors. -/
def edgeLookup (edge : Bool) : Tree α → List (Frame α) → Option (List (Frame α) × Tree α × α × Int × Tree α)
  | .nil, _ => none
  | .node l p b r, stack =>
    match edge with
    | false =>
      match l with
      | .nil => some (stack, .nil, p, b, r)
      | .node _ _ _ _ => (push 1 ⟨p, b, false, r⟩ stack).bind (edgeLookup edge l)
    | true =>
      match r with
      | .nil => some (stack, l, p, b, .nil)
      | .node _ _ _ _ => (push 1 ⟨p, b, true, l⟩ stack).bind (edgeLookup edge r)

def detachEdge (edge : Bool) (t : Tree α) : Option (Tree α × α) :=
  (rootChild t edge).bind (fun first => (edgeLookup edge first []).bind (fun found =>
    match found with
    | (stack, l, p, b, r) => (doRemove stack l b r).map (fun t => (t, p))))

/-- The entries of the stack that the removal of the least node takes: the place of the root and the
ancestors, and the right child if there is one. -/
def stackNeed : Tree α → Nat
  | .nil => 0
  | .node .nil _ _ .nil => 1
  | .node .nil _ _ (.node _ _ _ _) => 2
  | .node (.node l v b r) _ _ _ => stackNeed (.node l v b r) + 1

/-- The extreme node is removed and returned, and everything else stays. -/
def GivesUp [LinearOrder κ] (key : α → κ) (edge : Bool) (t : Tree α) : Prop :=
  ∃ t' p, detachEdge edge t = some (t', p) ∧ t'.Balanced ∧ t'.Sorted key ∧
    match edge with
    | false => t.toList = p :: t'.toList ∧ ∀ a ∈ t'.toList, key p < key a
    | true => t.toList = t'.toList ++ [p] ∧ ∀ a ∈ t'.toList, key a < key p

variable {t t' : Tree α} {stack : List (Frame α)}

theorem edgeLookup_false (t : Tree α) (stack : List (Frame α)) :
    edgeLookup false t stack = (detachEdgeLookup t stack).map (fun f => (f.1, .nil, f.2.1, f.2.2.1, f.2.2.2)) := by
  induction t generalizing stack with
  | nil => rfl
  | node l p b r ih _ =>
    cases l with
    | nil => rfl
    | node l' v b' r' =>
      rw [edgeLookup, detachEdgeLookup, Option.map_bind]
      congr 1
      funext stack'
      exact ih stack'

/-- In the first direction the function is the one the calls of the tree use. -/
theorem detachEdge_false (t : Tree α) : detachMin t = (detachEdge false t).map (fun r => (r.1, some r.2)) := by
  rw [detachMin, detachEdge, rootChild, Option.bind_some, edgeLookup_false, Option.bind_map, Option.map_bind]
  congr 1
  funext found
  simp only [Function.comp_apply, Option.map_map, Function.comp_def]

theorem detachEdge_true (t : Tree α) : detachEdge true t = none := rfl

theorem stackNeed_pos (hne : t ≠ .nil) : 0 < stackNeed t := by
  cases t with
  | nil => exact absurd rfl hne
  | node l p b r =>
    cases l with
    | nil => cases r <;> exact Nat.succ_pos _
    | node _ _ _ _ => exact Nat.succ_pos _

/-- The way to the least node and the removal, from a place on. -/
theorem detach_isSome_iff (hb : (plugAll stack t).Balanced) (hne : t ≠ .nil) (hroom : stack.length + 1 ≤ maxHeight) :
    ((detachEdgeLookup t stack).bind (fun found => doRemove found.1 .nil found.2.2.1 found.2.2.2)).isSome ↔
      stack.length + stackNeed t ≤ maxHeight := by
  induction t generalizing stack with
  | nil => exact absurd rfl hne
  | node l p b r ih _ =>
    obtain ⟨hnode, hfits, -, -⟩ := place_spec hb rfl
    cases l with
    | nil =>
      rw [detachEdgeLookup, Option.bind_some]
      cases r with
      | nil =>
        obtain ⟨t', hun, -, -⟩ := unwind_spec (t := .nil) hfits trivial
        rw [doRemove, hun]
        exact iff_of_true rfl hroom
      | node c s br c' =>
        have hplace (hpath : Fits [] (c'.height + 1)) := fits_successor hnode hfits hpath
        obtain ⟨-, hr, hbal, -, hhigh⟩ := hnode
        rw [hbal] at hhigh
        simp only [Tree.height] at hhigh
        cases c with
        | node c₁ v b₁ c₂ =>
          simp only [Tree.height] at hhigh
          omega
        | nil =>
          rw [doRemove]
          by_cases hpush : 1 + stack.length < maxHeight
          · obtain ⟨t', hun, -, -⟩ := unwind_spec (hplace trivial (by simp [grow, Tree.height]) s) hr.2.1
            rw [push_isSome hpush, Option.bind_some]
            exact iff_of_true (Option.isSome_iff_exists.mpr ⟨t', hun⟩) (by simp only [stackNeed]; omega)
          · rw [push, if_neg hpush]
            exact iff_of_false (by simp) (by simp only [stackNeed]; omega)
    | node l' v b' r' =>
      rw [detachEdgeLookup, Option.bind_assoc]
      by_cases hpush : 1 + stack.length < maxHeight
      · rw [push_isSome hpush, Option.bind_some, ih hb (by simp) (by rw [List.length_cons]; omega), stackNeed,
          List.length_cons]
        omega
      · have hpos : 0 < stackNeed (.node l' v b' r') := stackNeed_pos (by simp)
        rw [push, if_neg hpush]
        exact iff_of_false (by simp) (by simp only [stackNeed]; omega)

variable [LinearOrder κ] {key : α → κ}

theorem GivesUp.of_detachMin {p : α} (hb : t.Balanced) (hs : t.Sorted key) (h : detachMin t = some (t', some p)) :
    GivesUp key false t := by
  have hmin := h
  rw [detachEdge_false, Option.map_eq_some_iff] at h
  obtain ⟨⟨t₁, p₁⟩, hedge, heq⟩ := h
  obtain ⟨rfl, hp⟩ := Prod.mk.inj heq
  obtain rfl := Option.some.inj hp
  obtain ⟨hb', q, right, hq, hlist, rfl⟩ := detachMin_spec hb hmin
  obtain rfl := Option.some.inj hq
  rw [Tree.Sorted, hlist] at hs
  have hsorted := List.pairwise_cons.mp hs
  exact ⟨t₁, p₁, hedge, hb', hsorted.2, hlist, hsorted.1⟩

/-- A tree gives up its least node iff the way to it and its right child fit in the stack. It never gives up its
greatest node. -/
theorem gives_up_iff (key : α → κ) (edge : Bool) (hb : t.Balanced) (hs : t.Sorted key) (hne : t ≠ .nil) :
    GivesUp key edge t ↔ edge = false ∧ stackNeed t ≤ maxHeight := by
  cases edge with
  | true =>
    refine iff_of_false ?_ (by simp)
    rintro ⟨t', p, h, -⟩
    exact absurd h (by simp [detachEdge_true])
  | false =>
    have hroot : (plugAll [] t).Balanced := hb
    have hiff := detach_isSome_iff hroot hne (Nat.succ_le_succ (Nat.zero_le 32))
    rw [List.length_nil, Nat.zero_add] at hiff
    rw [eq_self, true_and, ← hiff]
    constructor
    · rintro ⟨t', p, h, -⟩
      have hmin : detachMin t = some (t', some p) := by rw [detachEdge_false, h, Option.map_some]
      rw [detachMin, Option.bind_eq_some_iff] at hmin
      obtain ⟨found, hfound, hrem⟩ := hmin
      obtain ⟨t₁, hrem, -⟩ := Option.map_eq_some_iff.mp hrem
      rw [hfound, Option.bind_some, hrem]
      rfl
    · intro hsome
      obtain ⟨t', h⟩ := Option.isSome_iff_exists.mp hsome
      obtain ⟨found, hfound, hrem⟩ := Option.bind_eq_some_iff.mp h
      have hmin : detachMin t = some (t', some found.2.1) := by
        rw [detachMin, hfound, Option.bind_some, hrem]
        rfl
      exact GivesUp.of_detachMin hb hs hmin

def three : Tree Nat := .node (.node .nil 1 0 .nil) 2 0 (.node .nil 3 0 .nil)

theorem gives_up_iff_three : GivesUp id false three :=
  (gives_up_iff id false (by simp [three, Tree.Balanced, Tree.height]) (by simp [three, Tree.Sorted, Tree.toList])
    (by decide)).mpr ⟨rfl, by decide⟩

/-- The greatest of three nodes: the memory behind the root is read. -/
theorem greatest_not_given_up : three.Balanced ∧ three.Sorted id ∧ detachEdge true three = none ∧ ¬ GivesUp id true three := by
  refine ⟨by simp [three, Tree.Balanced, Tree.height], by simp [three, Tree.Sorted, Tree.toList], rfl, ?_⟩
  rintro ⟨t', p, h, -⟩
  exact Option.some_ne_none _ h.symm

end RaleighSL.Zcl.Avl
