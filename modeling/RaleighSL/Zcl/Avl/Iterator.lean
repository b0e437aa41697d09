import RaleighSL.Zcl.Avl.Contents

/-!
# The iterator of a tree

`tools/tree/tree.c` walks a tree with the stack of the ancestors of the node it is at.
A node is given by the subtree under it, the null pointer by the empty tree; as the keys
of a tree differ, two of its nodes are the same iff their subtrees are. Every position is
a place in the list of the nodes: a search finds the place, and a step goes to the next
node of the list in its direction.
-/
namespace RaleighSL.Zcl.Avl

variable {κ α : Type*}

structure Iter (α : Type*) where
  stack : List (Tree α)
  current : Tree α
  root : Tree α
  deriving DecidableEq, Repr

/-- `z_tree_iter_open`. -/
def iterOpen (root : Tree α) : Iter α := { stack := [], current := .nil, root := root }

/-- What a caller gets: the node the iterator is at. -/
def Iter.node? (it : Iter α) : Option α :=
  match it.current with
  | .nil => none
  | .node _ v _ _ => some v

def Tree.child (dir : Bool) : Tree α → Tree α
  | .nil => .nil
  | .node l _ _ r => if dir then r else l

/-- `iter->stack[iter->height++] = node`. -/
def pushNode (node : Tree α) (stack : List (Tree α)) : Option (List (Tree α)) :=
  if stack.length < maxHeight then some (node :: stack) else none

/-- The loop of `__tree_iter_lookup_child`, which is also the last one of `__tree_iter_traverse`. -/
def toEdge (dir : Bool) : Tree α → List (Tree α) → Option (List (Tree α) × Tree α)
  | .nil, stack => some (stack, .nil)
  | .node l v b r, stack =>
    match dir with
    | false =>
      match l with
      | .nil => some (stack, .node l v b r)
      | .node _ _ _ _ => (pushNode (.node l v b r) stack).bind (toEdge dir l)
    | true =>
      match r with
      | .nil => some (stack, .node l v b r)
      | .node _ _ _ _ => (pushNode (.node l v b r) stack).bind (toEdge dir r)

section

variable [DecidableEq α]

/-- Up from a node as long as it is the child in the direction: the last parent, if there is one. -/
def climb (dir : Bool) (node : Tree α) : List (Tree α) → List (Tree α) × Tree α
  | [] => ([], .nil)
  | parent :: stack => if node = parent.child dir then climb dir parent stack else (stack, parent)

/-- The loop of `__tree_iter_lookup_near`. -/
def near [LinearOrder κ] (key : α → κ) (k : κ) (ceilEntry : Bool) :
    Tree α → List (Tree α) → Option (List (Tree α) × Tree α)
  | .nil, stack => some (stack, .nil)
  | .node l v b r, stack =>
    if key v = k then some (stack, .node l v b r)
    else
      match ceilEntry with
      | true =>
        if k < key v then
          match l with
          | .nil => some (stack, .node l v b r)
          | .node _ _ _ _ => (pushNode (.node l v b r) stack).bind (near key k ceilEntry l)
        else
          match r with
          | .nil => some (climb ceilEntry (.node l v b r) stack)
          | .node _ _ _ _ => (pushNode (.node l v b r) stack).bind (near key k ceilEntry r)
      | false =>
        if key v < k then
          match r with
          | .nil => some (stack, .node l v b r)
          | .node _ _ _ _ => (pushNode (.node l v b r) stack).bind (near key k ceilEntry r)
        else
          match l with
          | .nil => some (climb ceilEntry (.node l v b r) stack)
          | .node _ _ _ _ => (pushNode (.node l v b r) stack).bind (near key k ceilEntry l)

namespace Iter

def moveTo (it : Iter α) (place : List (Tree α) × Tree α) : Iter α := { it with stack := place.1, current := place.2 }

/-- `__tree_iter_lookup_child`. -/
def lookupChild (it : Iter α) (dir : Bool) : Option (Iter α) := (toEdge dir it.root []).map it.moveTo

/-- `__tree_iter_lookup_near`. -/
def lookupNear [LinearOrder κ] (key : α → κ) (it : Iter α) (k : κ) (ceilEntry : Bool) : Option (Iter α) :=
  (near key k ceilEntry it.root []).map it.moveTo

/-- `__tree_iter_traverse`. -/
def traverse (it : Iter α) (dir : Bool) : Option (Iter α) :=
  match it.current with
  | .nil => some it
  | .node l v b r =>
    match Tree.child dir (.node l v b r) with
    | .nil => some (it.moveTo (climb dir (.node l v b r) it.stack))
    | .node l' v' b' r' =>
      (pushNode (.node l v b r) it.stack).bind (fun stack => (toEdge (!dir) (.node l' v' b' r') stack).map it.moveTo)

/-- `z_tree_iter_seek_le`. -/
def seekLe [LinearOrder κ] (key : α → κ) (it : Iter α) : Option κ → Option (Iter α)
  | none => it.lookupChild false
  | some k => (it.lookupNear key k false).bind (fun it => if it.current = .nil then it.lookupChild false else some it)

/-- `z_tree_iter_seek_ge`. -/
def seekGe [LinearOrder κ] (key : α → κ) (it : Iter α) : Option κ → Option (Iter α)
  | none => it.lookupChild false
  | some k => it.lookupNear key k true

/-- `z_tree_iter_begin`. -/
def first (it : Iter α) : Option (Iter α) := it.lookupChild false

/-- `z_tree_iter_end`. -/
def last (it : Iter α) : Option (Iter α) := it.lookupChild true

/-- `z_tree_iter_next`. -/
def next (it : Iter α) : Option (Iter α) := it.traverse true

/-- `z_tree_iter_prev`. -/
def prev (it : Iter α) : Option (Iter α) := it.traverse false

end Iter

end

/-! ### Places -/

/-- The stack has the ancestors of a subtree, with the nodes of the tree before and behind it. -/
inductive Within (root : Tree α) : List (Tree α) → Tree α → List α → List α → Prop
  | root : Within root [] root [] []
  | left {stack : List (Tree α)} {l r : Tree α} {v : α} {b : Int} {before behind : List α} :
      Within root stack (.node l v b r) before behind →
      Within root (.node l v b r :: stack) l before (v :: (r.toList ++ behind))
  | right {stack : List (Tree α)} {l r : Tree α} {v : α} {b : Int} {before behind : List α} :
      Within root stack (.node l v b r) before behind →
      Within root (.node l v b r :: stack) r (before ++ l.toList ++ [v]) behind

def Iter.At (it : Iter α) (before : List α) (x : α) (behind : List α) : Prop :=
  ∃ l b r before' behind', it.current = .node l x b r ∧ Within it.root it.stack (.node l x b r) before' behind' ∧
    before = before' ++ l.toList ∧ behind = r.toList ++ behind'

variable {root t : Tree α} {stack : List (Tree α)} {before behind : List α}

theorem Within.toList (h : Within root stack t before behind) : root.toList = before ++ t.toList ++ behind := by
  induction h with
  | root => simp
  | left _ ih => simp [ih, Tree.toList]
  | right _ ih => simp [ih, Tree.toList]

theorem Within.length_add_height (h : Within root stack t before behind) : stack.length + t.height ≤ root.height := by
  induction h with
  | root => simp
  | left _ ih =>
    simp only [Tree.height, List.length_cons] at ih ⊢
    omega
  | right _ ih =>
    simp only [Tree.height, List.length_cons] at ih ⊢
    omega

theorem Iter.At.toList {it : Iter α} {x : α} (h : it.At before x behind) : it.root.toList = before ++ x :: behind := by
  obtain ⟨l, b, r, before', behind', -, hw, rfl, rfl⟩ := h
  simp [hw.toList, Tree.toList]

/-- A node of a tree that is not too high finds room on the stack. -/
theorem Within.push {l r : Tree α} {v : α} {b : Int} (h : Within root stack (.node l v b r) before behind)
    (hroom : root.height ≤ maxHeight) : pushNode (.node l v b r) stack = some (.node l v b r :: stack) := by
  have hlen := h.length_add_height
  simp only [Tree.height] at hlen
  exact if_pos (by omega)

/-- The way to the first or the last node of a subtree. -/
theorem toEdge_spec (dir : Bool) (h : Within root stack t before behind) (hne : t ≠ .nil)
    (hroom : root.height ≤ maxHeight) :
    ∃ stack' l v b r before' behind', toEdge dir t stack = some (stack', .node l v b r) ∧
      Within root stack' (.node l v b r) before' behind' ∧
      match dir with
      | false => before' ++ l.toList = before ∧ v :: (r.toList ++ behind') = t.toList ++ behind
      | true => before' ++ l.toList ++ [v] = before ++ t.toList ∧ r.toList ++ behind' = behind := by
  induction t generalizing stack before behind with
  | nil => exact absurd rfl hne
  | node l v b r ihl ihr =>
    cases dir with
    | false =>
      cases l with
      | nil => exact ⟨stack, _, _, _, _, before, behind, rfl, h, by simp [Tree.toList]⟩
      | node l₁ v₁ b₁ r₁ =>
        obtain ⟨stack', l', v', b', r', before', behind', hedge, hw, hbefore, hbehind⟩ := ihl h.left (by simp)
        refine ⟨stack', l', v', b', r', before', behind', ?_, hw, hbefore, ?_⟩
        · rw [toEdge, h.push hroom, Option.bind_some, hedge]
        · rw [hbehind]
          simp [Tree.toList]
    | true =>
      cases r with
      | nil => exact ⟨stack, _, _, _, _, before, behind, rfl, h, by simp [Tree.toList]⟩
      | node l₁ v₁ b₁ r₁ =>
        obtain ⟨stack', l', v', b', r', before', behind', hedge, hw, hbefore, hbehind⟩ := ihr h.right (by simp)
        refine ⟨stack', l', v', b', r', before', behind', ?_, hw, ?_, hbehind⟩
        · rw [toEdge, h.push hroom, Option.bind_some, hedge]
        · rw [hbefore]
          simp [Tree.toList]

theorem exists_mem_toList (hne : t ≠ .nil) : ∃ a, a ∈ t.toList := by
  cases t with
  | nil => exact absurd rfl hne
  | node l v b r => exact ⟨v, by simp [Tree.toList]⟩

section

variable [LinearOrder κ] {key : α → κ}

theorem Within.sorted (h : Within root stack t before behind) (hs : root.Sorted key) : t.Sorted key := by
  rw [Tree.Sorted, h.toList, List.append_assoc] at hs
  exact (List.pairwise_append.mp (List.pairwise_append.mp hs).2.1).1

theorem Tree.Sorted.children_ne {l r : Tree α} {v : α} {b : Int} (hs : (Tree.node l v b r).Sorted key) (hne : l ≠ .nil) :
    l ≠ r := by
  rintro rfl
  obtain ⟨a, ha⟩ := exists_mem_toList hne
  exact lt_irrefl _ ((List.pairwise_append.mp hs).2.2 a ha a (List.mem_cons_of_mem v ha))

variable [DecidableEq α]

/-- The climb ends at the next node in the direction, if there is one. -/
theorem climb_spec (dir : Bool) (h : Within root stack t before behind) (hne : t ≠ .nil) (hs : root.Sorted key) :
    (climb dir t stack = ([], .nil) ∧ (if dir then behind else before) = []) ∨
      ∃ stack' l v b r before' behind', climb dir t stack = (stack', .node l v b r) ∧
        Within root stack' (.node l v b r) before' behind' ∧
        match dir with
        | true => before' ++ l.toList = before ++ t.toList ∧ v :: (r.toList ++ behind') = behind
        | false => before' ++ l.toList ++ [v] = before ∧ r.toList ++ behind' = t.toList ++ behind := by
  induction h with
  | root => exact Or.inl ⟨rfl, by cases dir <;> rfl⟩
  | @left stack l r v b before behind h ih =>
    cases dir with
    | true =>
      have hlr : l ≠ Tree.child true (.node l v b r) := (h.sorted hs).children_ne hne
      rw [climb, if_neg hlr]
      exact Or.inr ⟨stack, l, v, b, r, before, behind, rfl, h, rfl, rfl⟩
    | false =>
      have hself : l = Tree.child false (.node l v b r) := rfl
      rw [climb, if_pos hself]
      rcases ih (by simp) with hnone | ⟨stack', l', v', b', r', before', behind', hclimb, hw, hbefore, hbehind⟩
      · exact Or.inl hnone
      · refine Or.inr ⟨stack', l', v', b', r', before', behind', hclimb, hw, hbefore, ?_⟩
        rw [hbehind]
        simp [Tree.toList]
  | @right stack l r v b before behind h ih =>
    cases dir with
    | true =>
      have hself : r = Tree.child true (.node l v b r) := rfl
      rw [climb, if_pos hself]
      rcases ih (by simp) with hnone | ⟨stack', l', v', b', r', before', behind', hclimb, hw, hbefore, hbehind⟩
      · exact Or.inl hnone
      · refine Or.inr ⟨stack', l', v', b', r', before', behind', hclimb, hw, ?_, hbehind⟩
        rw [hbefore]
        simp [Tree.toList]
    | false =>
      have hlr : r ≠ Tree.child false (.node l v b r) := by
        intro hc
        exact (h.sorted hs).children_ne (fun hl => hne (hc.trans hl)) hc.symm
      rw [climb, if_neg hlr]
      refine Or.inr ⟨stack, l, v, b, r, before, behind, rfl, h, rfl, rfl⟩

/-! ### Steps -/

/-- A place in a list: the elements before it, the last one first, and those behind it. -/
abbrev Cursor (α : Type*) := Option (List α × α × List α)

def Cursor.step : Bool → Cursor α → Cursor α
  | true, some (before, x, y :: behind) => some (x :: before, y, behind)
  | false, some (y :: before, x, behind) => some (before, y, x :: behind)
  | _, _ => none

def Cursor.value (c : Cursor α) : Option α := c.map (fun p => p.2.1)

/-- The iterator is at the place, or at none. -/
def Iter.Shows (it : Iter α) : Cursor α → Prop
  | none => it.current = .nil
  | some (before, x, behind) => it.At before.reverse x behind

variable {it : Iter α}

omit [DecidableEq α] in
theorem Iter.Shows.node? {c : Cursor α} (h : it.Shows c) : it.node? = c.value := by
  cases c with
  | none =>
    have hcur : it.current = .nil := h
    rw [Iter.node?, hcur]
    rfl
  | some p =>
    obtain ⟨l, b, r, before', behind', hcur, -⟩ : it.At p.1.reverse p.2.1 p.2.2 := h
    rw [Iter.node?, hcur]
    rfl

omit [DecidableEq α] in
variable (it) in
/-- The iterator at a node found from another one. -/
theorem Iter.Shows.of_within {stack' : List (Tree α)} {l r : Tree α} {v : α} {b : Int} {before' behind' : List α}
    (h : Within it.root stack' (.node l v b r) before' behind') {left : List α} (hleft : before' ++ l.toList = left.reverse) :
    (it.moveTo (stack', .node l v b r)).Shows (some (left, v, r.toList ++ behind')) :=
  ⟨l, b, r, before', behind', rfl, h, hleft.symm, rfl⟩

theorem Iter.Shows.traverse {c : Cursor α} (h : it.Shows c) (hs : it.root.Sorted key) (hroom : it.root.height ≤ maxHeight)
    (dir : Bool) : ∃ it', it.traverse dir = some it' ∧ it'.root = it.root ∧ it'.Shows (c.step dir) := by
  cases c with
  | none =>
    have hcur : it.current = .nil := h
    refine ⟨it, ?_, rfl, ?_⟩
    · rw [Iter.traverse, hcur]
    · cases dir <;> exact hcur
  | some p =>
    obtain ⟨left, x, behind⟩ := p
    obtain ⟨l, b, r, before₀, behind₀, hcur, hw, hleft, rfl⟩ := h
    rw [Iter.traverse, hcur]
    dsimp only
    cases dir with
    | true =>
      cases r with
      | nil =>
        refine ⟨_, rfl, rfl, ?_⟩
        rcases climb_spec true hw (by simp) hs with ⟨hclimb, hnone⟩ | ⟨stack', l', v', b', r', before', behind', hclimb, hw',
          hbefore, hbehind⟩
        · rw [hclimb, show behind₀ = [] from hnone]
          rfl
        · rw [hclimb, ← hbehind]
          refine Iter.Shows.of_within it hw' ?_
          rw [hbefore, List.reverse_cons, hleft]
          simp [Tree.toList]
      | node l₁ v₁ b₁ r₁ =>
        obtain ⟨stack', l', v', b', r', before', behind', hedge, hw', hbefore, hbehind⟩ :=
          toEdge_spec false hw.right (by simp) hroom
        refine ⟨it.moveTo (stack', .node l' v' b' r'), ?_, rfl, ?_⟩
        · simp only [Tree.child, if_true]
          rw [hw.push hroom, Option.bind_some, Bool.not_true, hedge]
          rfl
        · rw [← hbehind]
          refine Iter.Shows.of_within it hw' ?_
          rw [hbefore, List.reverse_cons, hleft]
    | false =>
      cases l with
      | nil =>
        refine ⟨_, rfl, rfl, ?_⟩
        rcases climb_spec false hw (by simp) hs with ⟨hclimb, hnone⟩ | ⟨stack', l', v', b', r', before', behind', hclimb, hw',
          hbefore, hbehind⟩
        · obtain rfl : left = [] := by simpa [show before₀ = [] from hnone, Tree.toList] using hleft
          rw [hclimb]
          rfl
        · obtain rfl : left = v' :: (before' ++ l'.toList).reverse := by
            rw [← hbefore] at hleft
            simpa [Tree.toList] using congrArg List.reverse hleft
          rw [hclimb]
          have hshow := Iter.Shows.of_within it hw' (List.reverse_reverse _).symm
          rwa [hbehind] at hshow
      | node l₁ v₁ b₁ r₁ =>
        obtain ⟨stack', l', v', b', r', before', behind', hedge, hw', hbefore, hbehind⟩ :=
          toEdge_spec true hw.left (by simp) hroom
        obtain rfl : left = v' :: (before' ++ l'.toList).reverse := by
          rw [← hbefore] at hleft
          simpa using congrArg List.reverse hleft
        refine ⟨it.moveTo (stack', .node l' v' b' r'), ?_, rfl, ?_⟩
        · simp only [Tree.child, Bool.false_eq_true, if_false]
          rw [hw.push hroom, Option.bind_some, Bool.not_false, hedge]
          rfl
        · have hshow := Iter.Shows.of_within it hw' (List.reverse_reverse _).symm
          rwa [hbehind] at hshow

/-! ### Searches -/

/-- The node found by a search and its place: the greatest one not above the key or the least one not below it. -/
def Near (key : α → κ) (k : κ) (ceilEntry : Bool) (root : Tree α) (place : List (Tree α) × Tree α) : Prop :=
  (place.2 = .nil ∧ ∀ a ∈ root.toList, if ceilEntry then key a < k else k < key a) ∨
    ∃ l v b r before behind, place.2 = .node l v b r ∧ Within root place.1 (.node l v b r) before behind ∧
      if ceilEntry then k ≤ key v ∧ ∀ a ∈ before ++ l.toList, key a < k
      else key v ≤ k ∧ ∀ a ∈ r.toList ++ behind, k < key a

/-- The climb from a subtree that lies on the other side of the key. -/
theorem near_climb {k : κ} (ceilEntry : Bool) (h : Within root stack t before behind) (hne : t ≠ .nil)
    (hs : root.Sorted key) (hbefore : ∀ a ∈ before, key a < k) (hbehind : ∀ a ∈ behind, k < key a)
    (htree : ∀ a ∈ t.toList, if ceilEntry then key a < k else k < key a) :
    Near key k ceilEntry root (climb ceilEntry t stack) := by
  rcases climb_spec ceilEntry h hne hs with ⟨hclimb, hnone⟩ | ⟨stack', l', v', b', r', before', behind', hclimb, hw, hplace⟩
  · refine Or.inl ⟨by rw [hclimb], fun a ha => ?_⟩
    rw [h.toList, List.mem_append, List.mem_append] at ha
    cases ceilEntry with
    | true =>
      have hnil : behind = [] := hnone
      rcases ha with (ha | ha) | ha
      · exact hbefore a ha
      · exact htree a ha
      · simp [hnil] at ha
    | false =>
      have hnil : before = [] := hnone
      rcases ha with (ha | ha) | ha
      · simp [hnil] at ha
      · exact htree a ha
      · exact hbehind a ha
  · refine Or.inr ⟨l', v', b', r', before', behind', by rw [hclimb], by rw [hclimb]; exact hw, ?_⟩
    cases ceilEntry with
    | true =>
      obtain ⟨hleft, hright⟩ := hplace
      refine ⟨(hbehind v' (hright ▸ List.mem_cons_self)).le, fun a ha => ?_⟩
      rw [hleft] at ha
      exact (List.mem_append.mp ha).elim (hbefore a) (htree a)
    | false =>
      obtain ⟨hleft, hright⟩ := hplace
      refine ⟨(hbefore v' (hleft ▸ by simp)).le, fun a ha => ?_⟩
      rw [hright] at ha
      exact (List.mem_append.mp ha).elim (htree a) (hbehind a)

theorem near_spec (k : κ) (ceilEntry : Bool) (h : Within root stack t before behind) (hne : t ≠ .nil)
    (hs : root.Sorted key) (hroom : root.height ≤ maxHeight) (hbefore : ∀ a ∈ before, key a < k)
    (hbehind : ∀ a ∈ behind, k < key a) :
    ∃ place, near key k ceilEntry t stack = some place ∧ Near key k ceilEntry root place := by
  induction t generalizing stack before behind with
  | nil => exact absurd rfl hne
  | node l v b r ihl ihr =>
    have hsorted := List.pairwise_append.mp (h.sorted hs)
    have hl (a : α) (ha : a ∈ l.toList) : key a < key v := hsorted.2.2 a ha v List.mem_cons_self
    have hr (a : α) (ha : a ∈ r.toList) : key v < key a := (List.pairwise_cons.mp hsorted.2.1).1 a ha
    have hlow (hv : key v ≤ k) : ∀ a ∈ before ++ l.toList, key a < k := by
      intro a ha
      rcases List.mem_append.mp ha with ha | ha
      · exact hbefore a ha
      · exact (hl a ha).trans_le hv
    have hhigh (hv : k ≤ key v) : ∀ a ∈ r.toList ++ behind, k < key a := by
      intro a ha
      rcases List.mem_append.mp ha with ha | ha
      · exact hv.trans_lt (hr a ha)
      · exact hbehind a ha
    have hleft (hv : k < key v) (a : α) (ha : a ∈ v :: (r.toList ++ behind)) : k < key a := by
      rcases List.mem_cons.mp ha with rfl | ha
      · exact hv
      · exact hhigh hv.le a ha
    have hright (hv : key v < k) (a : α) (ha : a ∈ before ++ l.toList ++ [v]) : key a < k := by
      rcases List.mem_append.mp ha with ha | ha
      · exact hlow hv.le a ha
      · exact List.mem_singleton.mp ha ▸ hv
    by_cases heq : key v = k
    · refine ⟨(stack, .node l v b r), by unfold near; rw [if_pos heq], Or.inr ⟨l, v, b, r, before, behind, rfl, h, ?_⟩⟩
      cases ceilEntry with
      | true => exact ⟨heq.ge, hlow heq.le⟩
      | false => exact ⟨heq.le, hhigh heq.ge⟩
    cases ceilEntry with
    | true =>
      unfold near
      simp only [if_neg heq]
      by_cases hv : k < key v
      · rw [if_pos hv]
        cases l with
        | nil => exact ⟨_, rfl, Or.inr ⟨.nil, v, b, r, before, behind, rfl, h, hv.le, by simpa [Tree.toList] using hbefore⟩⟩
        | node l₁ v₁ b₁ r₁ =>
          dsimp only
          rw [h.push hroom, Option.bind_some]
          exact ihl h.left (by simp) hbefore (hleft hv)
      · have hv : key v < k := lt_of_le_of_ne (not_lt.mp hv) heq
        rw [if_neg hv.not_gt]
        cases r with
        | nil =>
          refine ⟨_, rfl, near_climb true h (by simp) hs hbefore hbehind fun a ha => ?_⟩
          refine hright hv a ?_
          rw [List.append_assoc]
          exact List.mem_append_right _ ha
        | node l₁ v₁ b₁ r₁ =>
          dsimp only
          rw [h.push hroom, Option.bind_some]
          exact ihr h.right (by simp) (hright hv) hbehind
    | false =>
      unfold near
      simp only [if_neg heq]
      by_cases hv : key v < k
      · rw [if_pos hv]
        cases r with
        | nil => exact ⟨_, rfl, Or.inr ⟨l, v, b, .nil, before, behind, rfl, h, hv.le, by simpa [Tree.toList] using hbehind⟩⟩
        | node l₁ v₁ b₁ r₁ =>
          dsimp only
          rw [h.push hroom, Option.bind_some]
          exact ihr h.right (by simp) (hright hv) hbehind
      · have hv : k < key v := lt_of_le_of_ne (not_lt.mp hv) (Ne.symm heq)
        rw [if_neg hv.not_gt]
        cases l with
        | nil =>
          refine ⟨_, rfl, near_climb false h (by simp) hs hbefore hbehind fun a ha => ?_⟩
          exact hleft hv a (List.mem_append_left behind ha)
        | node l₁ v₁ b₁ r₁ =>
          dsimp only
          rw [h.push hroom, Option.bind_some]
          exact ihl h.left (by simp) hbefore (hleft hv)

theorem lookupNear_spec (k : κ) (ceilEntry : Bool) (hs : it.root.Sorted key) (hroom : it.root.height ≤ maxHeight) :
    ∃ it' c, it.lookupNear key k ceilEntry = some it' ∧ it'.root = it.root ∧ it'.Shows c ∧
      match c with
      | none => ∀ a ∈ it.root.toList, if ceilEntry then key a < k else k < key a
      | some (left, x, right) =>
        if ceilEntry then k ≤ key x ∧ ∀ a ∈ left, key a < k else key x ≤ k ∧ ∀ a ∈ right, k < key a := by
  cases hroot : it.root with
  | nil =>
    refine ⟨it.moveTo ([], .nil), none, ?_, hroot, rfl, by simp [Tree.toList]⟩
    rw [Iter.lookupNear, hroot, near]
    rfl
  | node l v b r =>
    have hne : it.root ≠ .nil := by simp [hroot]
    obtain ⟨place, hnear, hplace⟩ := near_spec k ceilEntry .root hne hs hroom (by simp) (by simp)
    rw [← hroot]
    have hlookup : it.lookupNear key k ceilEntry = some (it.moveTo place) := by rw [Iter.lookupNear, hnear]; rfl
    rcases hplace with ⟨hnil, hall⟩ | ⟨l', v', b', r', before, behind, hcur, hw, hclose⟩
    · exact ⟨_, none, hlookup, rfl, hnil, hall⟩
    · refine ⟨_, some ((before ++ l'.toList).reverse, v', r'.toList ++ behind), hlookup, rfl, ?_, ?_⟩
      · have hshow := Iter.Shows.of_within it hw (List.reverse_reverse _).symm
        rwa [← hcur] at hshow
      · simpa only [List.mem_reverse] using hclose

omit [DecidableEq α] in
theorem lookupChild_spec (dir : Bool) (hroom : it.root.height ≤ maxHeight) :
    ∃ it' c, it.lookupChild dir = some it' ∧ it'.root = it.root ∧ it'.Shows c ∧
      match c with
      | none => it.root.toList = []
      | some (left, _, right) => if dir then right = [] else left = [] := by
  cases hroot : it.root with
  | nil =>
    refine ⟨it.moveTo ([], .nil), none, ?_, hroot, rfl, rfl⟩
    rw [Iter.lookupChild, hroot, toEdge]
    rfl
  | node l v b r =>
    rw [← hroot]
    obtain ⟨stack', l', v', b', r', before', behind', hedge, hw, hplace⟩ :=
      toEdge_spec dir (.root : Within it.root [] it.root [] []) (by simp [hroot]) hroom
    refine ⟨it.moveTo (stack', .node l' v' b' r'), some ((before' ++ l'.toList).reverse, v', r'.toList ++ behind'), ?_, rfl,
      Iter.Shows.of_within it hw (List.reverse_reverse _).symm, ?_⟩
    · rw [Iter.lookupChild, hedge]
      rfl
    · cases dir with
      | true => exact hplace.2
      | false => simp [hplace.1]

/-! ### Walks -/

inductive Start (κ : Type*) where
  | seekLe (k : Option κ)
  | seekGe (k : Option κ)
  | first
  | last
  deriving DecidableEq, Repr

def Start.run (key : α → κ) (it : Iter α) : Start κ → Option (Iter α)
  | .seekLe k => it.seekLe key k
  | .seekGe k => it.seekGe key k
  | .first => it.first
  | .last => it.last

/-- The node a search should find in a sorted list. -/
def Start.target (key : α → κ) (xs : List α) : Start κ → Option α
  | .seekLe (some k) => (xs.filter (fun a => key a ≤ k)).getLast?.or xs.head?
  | .seekGe (some k) => (xs.filter (fun a => k ≤ key a)).head?
  | .last => xs.getLast?
  | _ => xs.head?

def Iter.walk (it : Iter α) (dirs : List Bool) : Option (Iter α) := dirs.foldlM Iter.traverse it

def Iter.visit (dir : Bool) : Nat → Iter α → Option (List (Option α))
  | 0, _ => some []
  | n + 1, it => (it.traverse dir).bind (fun it => (visit dir n it).map (it.node? :: ·))

/-- The elements of the list in the direction, the next one first. -/
def Cursor.rest (dir : Bool) : Cursor α → List α
  | none => []
  | some (left, _, right) => if dir then right else left

omit [LinearOrder κ] [DecidableEq α] in
theorem Cursor.step_rest (dir : Bool) (c : Cursor α) :
    (c.step dir).value = (c.rest dir)[0]? ∧ (c.step dir).rest dir = (c.rest dir).tail := by
  cases c with
  | none => cases dir <;> exact ⟨rfl, rfl⟩
  | some p =>
    obtain ⟨left, x, right⟩ := p
    cases dir with
    | true => cases right <;> exact ⟨rfl, rfl⟩
    | false => cases left <;> exact ⟨rfl, rfl⟩

/-- Steps in one direction return the rest of the list, and then nothing. -/
theorem Iter.Shows.visit {c : Cursor α} (h : it.Shows c) (hs : it.root.Sorted key) (hroom : it.root.height ≤ maxHeight)
    (dir : Bool) (n : Nat) : Iter.visit dir n it = some ((List.range n).map (fun i => (c.rest dir)[i]?)) := by
  induction n generalizing it c with
  | zero => rfl
  | succ n ih =>
    obtain ⟨it', htrav, hroot, h'⟩ := h.traverse hs hroom dir
    obtain ⟨hvalue, hrest⟩ := c.step_rest dir
    rw [Iter.visit, htrav, Option.bind_some, ih h' (hroot ▸ hs) (hroot ▸ hroom), Option.map_some, h'.node?, hvalue, hrest,
      List.range_succ_eq_map, List.map_cons, List.map_map]
    simp [Function.comp_def, List.getElem?_tail]

theorem Iter.Shows.walk {c : Cursor α} (h : it.Shows c) (hs : it.root.Sorted key) (hroom : it.root.height ≤ maxHeight)
    (dirs : List Bool) : ∃ it' c', it.walk dirs = some it' ∧ it'.root = it.root ∧ it'.Shows c' := by
  induction dirs generalizing it c with
  | nil => exact ⟨it, c, rfl, rfl, h⟩
  | cons dir dirs ih =>
    obtain ⟨it₁, htrav, hroot, h₁⟩ := h.traverse hs hroom dir
    obtain ⟨it', c', hwalk, hroot', h'⟩ := ih h₁ (hroot ▸ hs) (hroot ▸ hroom)
    refine ⟨it', c', ?_, hroot'.trans hroot, h'⟩
    rw [Iter.walk, List.foldlM_cons, htrav]
    exact hwalk

omit [DecidableEq α] in
/-- The list around a place, by the keys. -/
theorem Iter.Shows.rest_eq {left right : List α} {x : α} (h : it.Shows (some (left, x, right))) (hs : it.root.Sorted key) :
    it.root.toList.filter (fun a => key x < key a) = right ∧ it.root.toList.filter (fun a => key a < key x) = left.reverse := by
  have hlist := Iter.At.toList h
  obtain ⟨hleft, hright⟩ := sorted_split hs hlist
  have hkeep {p : α → Bool} {l : List α} (hp : ∀ a ∈ l, p a) : l.filter p = l := List.filter_eq_self.mpr hp
  have hdrop {p : α → Bool} {l : List α} (hp : ∀ a ∈ l, p a = false) : l.filter p = [] := by
    rw [List.filter_eq_nil_iff]
    intro a ha
    rw [hp a ha]
    exact Bool.false_ne_true
  rw [hlist, List.filter_append, List.filter_append, List.filter_cons, List.filter_cons]
  refine ⟨?_, ?_⟩
  · rw [hdrop (fun a ha => by simpa using (hleft a ha).le), hkeep (fun a ha => by simpa using hright a ha)]
    simp
  · rw [hkeep (fun a ha => by simpa using hleft a ha), hdrop (fun a ha => by simpa using (hright a ha).le)]
    simp

omit [DecidableEq α] in
theorem lookupChild_value (dir : Bool) (hroom : it.root.height ≤ maxHeight) :
    ∃ it' c, it.lookupChild dir = some it' ∧ it'.root = it.root ∧ it'.Shows c ∧
      c.value = if dir then it.root.toList.getLast? else it.root.toList.head? := by
  obtain ⟨it', c, hlookup, hroot, h, hplace⟩ := lookupChild_spec dir hroom
  refine ⟨it', c, hlookup, hroot, h, ?_⟩
  cases c with
  | none =>
    have hnil : it.root.toList = [] := hplace
    cases dir <;> simp [hnil, Cursor.value]
  | some p =>
    obtain ⟨left, x, right⟩ := p
    have hlist : it.root.toList = left.reverse ++ x :: right := hroot ▸ Iter.At.toList h
    cases dir with
    | true =>
      obtain rfl : right = [] := hplace
      simp [hlist, Cursor.value]
    | false =>
      obtain rfl : left = [] := hplace
      simp [hlist, Cursor.value]

/-- A search by key ends at the node it should find, if there is one. -/
theorem lookupNear_value (k : κ) (ceilEntry : Bool) (hs : it.root.Sorted key) (hroom : it.root.height ≤ maxHeight) :
    ∃ it' c, it.lookupNear key k ceilEntry = some it' ∧ it'.root = it.root ∧ it'.Shows c ∧
      c.value = if ceilEntry then (it.root.toList.filter (fun a => k ≤ key a)).head?
        else (it.root.toList.filter (fun a => key a ≤ k)).getLast? := by
  obtain ⟨it', c, hlookup, hroot, h, hplace⟩ := lookupNear_spec k ceilEntry hs hroom
  refine ⟨it', c, hlookup, hroot, h, ?_⟩
  cases c with
  | none =>
    cases ceilEntry with
    | true =>
      have hnil : it.root.toList.filter (fun a => k ≤ key a) = [] := by
        rw [List.filter_eq_nil_iff]
        exact fun a ha => by simpa using hplace a ha
      simp [hnil, Cursor.value]
    | false =>
      have hnil : it.root.toList.filter (fun a => key a ≤ k) = [] := by
        rw [List.filter_eq_nil_iff]
        exact fun a ha => by simpa using hplace a ha
      simp [hnil, Cursor.value]
  | some p =>
    obtain ⟨left, x, right⟩ := p
    have hlist : it.root.toList = left.reverse ++ x :: right := hroot ▸ Iter.At.toList h
    cases ceilEntry with
    | true =>
      obtain ⟨hx, hleft⟩ := hplace
      have hdrop : left.reverse.filter (fun a => k ≤ key a) = [] := by
        rw [List.filter_eq_nil_iff]
        exact fun a ha => by simpa using hleft a (List.mem_reverse.mp ha)
      simp [hlist, hdrop, hx, Cursor.value]
    | false =>
      obtain ⟨hx, hright⟩ := hplace
      have hdrop : right.filter (fun a => key a ≤ k) = [] := by
        rw [List.filter_eq_nil_iff]
        exact fun a ha => by simpa using hright a ha
      simp [hlist, hdrop, hx, Cursor.value]

/-- Every search ends at the node it should find. -/
theorem Start.run_spec (start : Start κ) (hs : it.root.Sorted key) (hroom : it.root.height ≤ maxHeight) :
    ∃ it' c, start.run key it = some it' ∧ it'.root = it.root ∧ it'.Shows c ∧ c.value = start.target key it.root.toList := by
  cases start with
  | first => exact lookupChild_value false hroom
  | last => exact lookupChild_value true hroom
  | seekGe k =>
    cases k with
    | none => exact lookupChild_value false hroom
    | some k => exact lookupNear_value k true hs hroom
  | seekLe k =>
    cases k with
    | none => exact lookupChild_value false hroom
    | some k =>
      obtain ⟨it₁, c, hnear, hroot, h, hvalue⟩ := lookupNear_value k false hs hroom
      rw [if_neg Bool.false_ne_true] at hvalue
      cases c with
      | none =>
        have hnil : it₁.current = .nil := h
        have hroom₁ : it₁.root.height ≤ maxHeight := hroot ▸ hroom
        obtain ⟨it', c', hfirst, hroot', h', hvalue'⟩ := lookupChild_value false hroom₁
        refine ⟨it', c', ?_, hroot'.trans hroot, h', ?_⟩
        · rw [Start.run, Iter.seekLe, hnear, Option.bind_some, if_pos hnil, hfirst]
        · rw [hvalue', hroot, Start.target, ← hvalue]
          rfl
      | some p =>
        have hcur : it₁.current ≠ .nil := by
          obtain ⟨l, b, r, before', behind', hcur, -⟩ : it₁.At p.1.reverse p.2.1 p.2.2 := h
          simp [hcur]
        refine ⟨it₁, some p, ?_, hroot, h, ?_⟩
        · rw [Start.run, Iter.seekLe, hnear, Option.bind_some, if_neg hcur]
        · rw [Start.target, ← hvalue]
          rfl

/-- A search from any iterator of a tree ends at the node it should find. From there, after any steps, steps in one
direction visit the nodes with a greater or a smaller key, each once and in their order, and then return nothing. -/
theorem iterator_exact (key : α → κ) (it : Iter α) (hs : it.root.Sorted key) (hroom : it.root.height ≤ maxHeight)
    (start : Start κ) (dirs : List Bool) :
    ∃ it₁ it₂, start.run key it = some it₁ ∧ it₁.node? = start.target key it.root.toList ∧ it₁.walk dirs = some it₂ ∧
      ∀ n, match it₂.node? with
        | none => ∀ dir, it₂.visit dir n = some (List.replicate n none)
        | some x =>
          it₂.visit true n = some ((List.range n).map (fun i => (it.root.toList.filter (fun a => key x < key a))[i]?)) ∧
            it₂.visit false n =
              some ((List.range n).map (fun i => (it.root.toList.filter (fun a => key a < key x)).reverse[i]?)) := by
  obtain ⟨it₁, c₁, hrun, hroot₁, h₁, htarget⟩ := start.run_spec hs hroom
  obtain ⟨it₂, c₂, hwalk, hroot₂, h₂⟩ := h₁.walk (hroot₁ ▸ hs) (hroot₁ ▸ hroom) dirs
  have hroot := hroot₂.trans hroot₁
  refine ⟨it₁, it₂, hrun, h₁.node?.trans htarget, hwalk, fun n => ?_⟩
  have hvisit := h₂.visit (hroot ▸ hs) (hroot ▸ hroom)
  rw [h₂.node?]
  cases c₂ with
  | none =>
    intro dir
    rw [hvisit dir n]
    simp [Cursor.rest]
  | some p =>
    obtain ⟨left, x, right⟩ := p
    obtain ⟨hright, hleft⟩ := h₂.rest_eq (hroot ▸ hs)
    rw [hroot] at hright hleft
    refine ⟨?_, ?_⟩
    · rw [hvisit true n, hright]
      rfl
    · rw [hvisit false n, hleft, List.reverse_reverse]
      rfl

end

def four : Tree Nat := .node (.node .nil 1 0 .nil) 3 1 (.node (.node .nil 5 0 .nil) 7 (-1) .nil)

/-- From the greatest key not above 4, after a step forward and one back, to the end. -/
theorem iterator_exact_four : ∃ it₁ it₂, (Start.seekLe (some 4)).run id (iterOpen four) = some it₁ ∧
    it₁.walk [true, false] = some it₂ ∧ it₂.visit true 3 = some [some 5, some 7, none] := by
  obtain ⟨it₁, it₂, hrun, -, hwalk, hvisit⟩ := iterator_exact id (iterOpen four)
    (by simp [iterOpen, four, Tree.Sorted, Tree.toList]) (by decide) (.seekLe (some 4)) [true, false]
  refine ⟨it₁, it₂, hrun, hwalk, ?_⟩
  have hall : ((Start.seekLe (some 4)).run id (iterOpen four)).bind (fun it => (it.walk [true, false]).bind Iter.node?) =
      some 3 := by decide
  rw [hrun, Option.bind_some, hwalk, Option.bind_some] at hall
  have hforward := hvisit 3
  rw [hall] at hforward
  exact hforward.1.trans (by decide)

end RaleighSL.Zcl.Avl
