import Mathlib.Order.Defs.LinearOrder
import Mathlib.Tactic.Common
import Mathlib.Algebra.Order.Ring.Int

/-!
# The balanced tree

`tools/tree/tree-avl.c` keeps nodes in a tree ordered by a comparison of their keys.
Every node stores the difference of the heights of its subtrees. The functions go down
with a stack and repair the balance on their way back: an insertion from the last
ancestor that was out of balance down to the new node, a removal from the place of the
removed node, or of its successor, up.

A stack is modelled by the ancestors on it, the last one first, each with the direction
that was taken and the child on the other side. An access that does not fit in the stack
or follows a null pointer has no result.
-/
namespace RaleighSL.Zcl.Avl

/-- `Z_TREE_MAX_HEIGHT`. -/
def maxHeight : Nat := 32 + 1

inductive Tree (α : Type*) where
  | nil
  | node (left : Tree α) (value : α) (balance : Int) (right : Tree α)
  deriving DecidableEq, Repr

/-- A node of a stack without the child in the direction that was taken. -/
structure Frame (α : Type*) where
  value : α
  balance : Int
  dir : Bool
  other : Tree α
  deriving DecidableEq, Repr

variable {κ α : Type*}

def Frame.plug (f : Frame α) (t : Tree α) : Tree α :=
  match f.dir with
  | false => .node t f.value f.balance f.other
  | true => .node f.other f.value f.balance t

def plugAll : List (Frame α) → Tree α → Tree α
  | [], t => t
  | f :: fs, t => plugAll fs (f.plug t)

/-! ### Insertion -/

/-- What `__do_insert_lookup` finds: a node with the same key, or a place for the new node, with the ancestors
up to the one the balance changes from and the ancestors above it. -/
inductive Lookup (α : Type*) where
  | equal (path : List (Frame α)) (left : Tree α) (value : α) (balance : Int) (right : Tree α)
  | slot (above below : List (Frame α))

/-- A node with the balance of its subtree after it has grown. -/
def Frame.count (f : Frame α) : Frame α := { f with balance := if f.dir then f.balance + 1 else f.balance - 1 }

/-- The rotation at the end of `__do_insert`. -/
def rotate : Tree α → Option (Tree α)
  | .nil => none
  | .node l v b r =>
    if b = -2 then
      match l with
      | .nil => none
      | .node l' x bx c =>
        if bx = -1 then some (.node l' x 0 (.node c v 0 r))
        else
          match c with
          | .nil => none
          | .node c₀ w bw c₁ =>
            if bw = -1 then some (.node (.node l' x 0 c₀) w 0 (.node c₁ v 1 r))
            else if bw = 0 then some (.node (.node l' x 0 c₀) w 0 (.node c₁ v 0 r))
            else some (.node (.node l' x (-1) c₀) w 0 (.node c₁ v 0 r))
    else if b = 2 then
      match r with
      | .nil => none
      | .node c x bx r' =>
        if bx = 1 then some (.node (.node l v 0 c) x 0 r')
        else
          match c with
          | .nil => none
          | .node c₀ w bw c₁ =>
            if bw = 1 then some (.node (.node l v (-1) c₀) w 0 (.node c₁ x 0 r'))
            else if bw = 0 then some (.node (.node l v 0 c₀) w 0 (.node c₁ x 0 r'))
            else some (.node (.node l v 0 c₀) w 0 (.node c₁ x 1 r'))
    else some (.node l v b r)

def doInsert (above below : List (Frame α)) (x : α) : Option (Tree α) :=
  match below with
  | [] => some (.node .nil x 0 .nil)
  | f :: fs => (rotate (plugAll ((f :: fs).map Frame.count) (.node .nil x 0 .nil))).map (plugAll above)

/-! ### Removal -/

/-- The stack with another node, where `base` entries are below the nodes of the list. -/
def push (base : Nat) (f : Frame α) (stack : List (Frame α)) : Option (List (Frame α)) :=
  if base + stack.length < maxHeight then some (f :: stack) else none

/-- The loop of `__do_remove` that goes down to the successor, with the child that takes its place. -/
def successor (base : Nat) : Tree α → List (Frame α) → Option (List (Frame α) × α × Tree α)
  | .nil, _ => none
  | .node .nil s _ c, stack => some (stack, s, c)
  | .node (.node l v b r) s bs c, stack => (push base ⟨s, bs, false, c⟩ stack).bind (successor base (.node l v b r))

/-- The loop of `__do_remove` that goes up. The subtree in the direction of the last node has become lower by one. -/
def unwind : List (Frame α) → Tree α → Option (Tree α)
  | [], t => some t
  | ⟨y, b, false, other⟩ :: stack, t =>
    if b + 1 = 1 then some (plugAll stack (.node t y 1 other))
    else if b + 1 = 2 then
      match other with
      | .nil => none
      | .node c x bx r =>
        if bx = -1 then
          match c with
          | .nil => none
          | .node c₀ w bw c₁ =>
            if bw = 1 then unwind stack (.node (.node t y (-1) c₀) w 0 (.node c₁ x 0 r))
            else if bw = 0 then unwind stack (.node (.node t y 0 c₀) w 0 (.node c₁ x 0 r))
            else unwind stack (.node (.node t y 0 c₀) w 0 (.node c₁ x 1 r))
        else if bx = 0 then some (plugAll stack (.node (.node t y 1 c) x (-1) r))
        else unwind stack (.node (.node t y 0 c) x 0 r)
    else unwind stack (.node t y (b + 1) other)
  | ⟨y, b, true, other⟩ :: stack, t =>
    if b - 1 = -1 then some (plugAll stack (.node other y (-1) t))
    else if b - 1 = -2 then
      match other with
      | .nil => none
      | .node l x bx c =>
        if bx = 1 then
          match c with
          | .nil => none
          | .node c₀ w bw c₁ =>
            if bw = -1 then unwind stack (.node (.node l x 0 c₀) w 0 (.node c₁ y 1 t))
            else if bw = 0 then unwind stack (.node (.node l x 0 c₀) w 0 (.node c₁ y 0 t))
            else unwind stack (.node (.node l x (-1) c₀) w 0 (.node c₁ y 0 t))
        else if bx = 0 then some (plugAll stack (.node l x 1 (.node c y (-1) t)))
        else unwind stack (.node l x 0 (.node c y 0 t))
    else unwind stack (.node other y (b - 1) t)

/-- `__do_remove` of a node, given by its children and its balance. The first entry of the stack is the place of
the root. The entry behind the ancestors is kept for the successor until it is found. -/
def doRemove (stack : List (Frame α)) (left : Tree α) (balance : Int) : Tree α → Option (Tree α)
  | .nil => unwind stack left
  | .node .nil r _ c => (push 1 ⟨r, balance, true, left⟩ stack).bind (fun stack => unwind stack c)
  | .node (.node l v b c) r br c₁ =>
    (successor (stack.length + 2) (.node (.node l v b c) r br c₁) []).bind (fun found =>
      unwind (found.1 ++ ⟨found.2.1, balance, true, left⟩ :: stack) found.2.2)

/-! ### The functions of the plug -/

section

variable [LinearOrder κ] (key : α → κ)

/-- `__do_insert_lookup`. The stack of directions begins again at every ancestor that is out of balance. -/
def insertLookup (x : α) : Tree α → List (Frame α) → List (Frame α) → Option (Lookup α)
  | .nil, above, below => some (.slot above below)
  | .node l p b r, above, below =>
    if key p = key x then some (.equal (below ++ above) l p b r)
    else
      let above' := if b ≠ 0 then below ++ above else above
      let below' := if b ≠ 0 then [] else below
      if below'.length + 1 < maxHeight then
        if key p < key x then insertLookup x r above' (⟨p, b, true, l⟩ :: below')
        else insertLookup x l above' (⟨p, b, false, r⟩ :: below')
      else none

/-- `__avl_attach` with its result and the node that is freed. -/
def attach [DecidableEq α] (t : Tree α) (x : α) : Option (Tree α × Nat × Option α) :=
  (insertLookup key x t [] []).bind (fun found =>
    match found with
    | .equal path l p b r => some (plugAll path (.node l x b r), 1, if p ≠ x then some p else none)
    | .slot above below => (doInsert above below x).map (fun t => (t, 0, none)))

/-- The loop of `__avl_detach`: the node with the key and the stack of its ancestors. -/
def detachLookup (k : κ) : Tree α → List (Frame α) → Option (Option (List (Frame α) × Tree α × α × Int × Tree α))
  | .nil, _ => some none
  | .node l p b r, stack =>
    if key p = k then some (some (stack, l, p, b, r))
    else if key p < k then (push 1 ⟨p, b, true, l⟩ stack).bind (detachLookup k r)
    else (push 1 ⟨p, b, false, r⟩ stack).bind (detachLookup k l)

def detach (t : Tree α) (k : κ) : Option (Tree α × Option α) :=
  (detachLookup key k t []).bind (fun found =>
    match found with
    | none => some (t, none)
    | some (stack, l, p, b, r) => (doRemove stack l b r).map (fun t => (t, some p)))

end

/-- The loop of `__avl_detach_edge` to the least node. -/
def detachEdgeLookup : Tree α → List (Frame α) → Option (List (Frame α) × α × Int × Tree α)
  | .nil, _ => none
  | .node .nil p b r, stack => some (stack, p, b, r)
  | .node (.node l v b' r') p b r, stack => (push 1 ⟨p, b, false, r⟩ stack).bind (detachEdgeLookup (.node l v b' r'))

/-- `__avl_detach_edge` for the least node. On an empty tree the place of the root is taken for a node. -/
def detachMin (t : Tree α) : Option (Tree α × Option α) :=
  (detachEdgeLookup t []).bind (fun found => (doRemove found.1 .nil found.2.2.1 found.2.2.2).map (fun t => (t, some found.2.1)))

/-! ### Calls -/

inductive Op (κ α : Type*) where
  | attach (x : α)
  | detach (k : κ)
  | detachMin
  deriving DecidableEq, Repr

inductive Out (α : Type*) where
  | attached (result : Nat) (freed : Option α)
  | detached (value : Option α)
  deriving DecidableEq, Repr

def step [LinearOrder κ] [DecidableEq α] (key : α → κ) (t : Tree α) : Op κ α → Option (Tree α × Out α)
  | .attach x => (attach key t x).map (fun r => (r.1, .attached r.2.1 r.2.2))
  | .detach k => (detach key t k).map (fun r => (r.1, .detached r.2))
  | .detachMin => (detachMin t).map (fun r => (r.1, .detached r.2))

end RaleighSL.Zcl.Avl
