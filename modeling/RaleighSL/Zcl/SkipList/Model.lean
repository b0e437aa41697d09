import RaleighSL.Library.Run
import Mathlib.Order.Defs.LinearOrder
import Mathlib.Logic.Function.Basic
import Mathlib.Tactic.Common
import Mathlib.Algebra.Order.Ring.Int

/-!
# The skip list

`tools/map/skiplist.c` links its nodes on up to eight levels. A node has as many links as its
level, the head has all eight, and every search goes down from the highest level in use. An
insertion and a removal first fill an array with the places in front of the key on each level.

Nodes are numbered as they are allocated. A read of a link that a node does not have, of a node
that was freed or of a part of the array that was not written has no result, and neither has a
walk that takes more steps than there are nodes.
-/
namespace RaleighSL.Zcl.SkipList

def maxHeight : Nat := 8

/-- A level for a new node. -/
abbrev Height := { level : Nat // 1 ≤ level ∧ level ≤ maxHeight }

/-- The head of the list or one of its nodes. -/
inductive Place where
  | head
  | node (n : Nat)
  deriving DecidableEq, Repr

structure Node (δ : Type*) where
  data : δ
  next : List (Option Nat)
  deriving DecidableEq, Repr

structure State (δ : Type*) where
  /-- The links of the head. -/
  head : List (Option Nat)
  nodes : Nat → Option (Node δ)
  /-- The number of nodes that were ever allocated. -/
  count : Nat
  levels : Nat
  size : Nat
  /-- There is a function `data_free`. -/
  frees : Bool
  /-- What was given to `data_free`. -/
  freed : List δ

variable {δ κ : Type*}

/-! ### Links -/

def State.link (s : State δ) (level : Nat) : Place → Option (Option Nat)
  | .head => s.head[level]?
  | .node n => (s.nodes n).bind (fun node => node.next[level]?)

def State.setLink (s : State δ) (level : Nat) (p : Place) (next : Option Nat) : Option (State δ) :=
  match p with
  | .head => if level < s.head.length then some { s with head := s.head.set level next } else none
  | .node n => (s.nodes n).bind (fun node =>
      if level < node.next.length then
        some { s with nodes := Function.update s.nodes n (some { node with next := node.next.set level next }) }
      else none)

/-- The inner loop of the searches: it goes on as long as the data of the next node lets it. The result is the place
where it stops and the next node, unless there is none. -/
def State.walk (s : State δ) (goes : δ → Bool) (level : Nat) : Nat → Place → Option (Place × Option (Nat × δ))
  | 0, _ => none
  | fuel + 1, p => (s.link level p).bind (fun next =>
      match next with
      | none => some (p, none)
      | some n => (s.nodes n).bind (fun node =>
          if goes node.data then s.walk goes level fuel (.node n) else some (p, some (n, node.data))))

variable [LinearOrder κ] (key : δ → κ)

/-! ### Searches -/

/-- `__skip_find_path`, from a level down: the array with the places in front of the key, the place that is returned and
whether its key is the one that is sought. -/
def State.findPathFrom (s : State δ) (k : κ) : Nat → Place → (Nat → Option Place) →
    Option ((Nat → Option Place) × Place × Bool)
  | 0, p, prev => some (prev, p, false)
  | level + 1, p, prev => (s.walk (fun d => key d < k) level (s.count + 1) p).bind (fun r =>
      let prev := Function.update prev level (some r.1)
      match level, r.2 with
      | 0, some (n, d) => some (prev, .node n, key d = k)
      | _, _ => s.findPathFrom k level r.1 prev)

def State.findPath (s : State δ) (k : κ) : Option ((Nat → Option Place) × Place × Bool) :=
  s.findPathFrom key k s.levels .head (fun _ => none)

/-- `__skip_node_lookup` with the flags `ITEM_CMP_EQ` and `ITEM_CMP_LESS`, from a level down: the place that is returned,
unless it is null, and `found`. -/
def State.lookupFrom (s : State δ) (eq less : Bool) (k : κ) : Nat → Place → Option (Option Place × Bool)
  | 0, p => some (if less ∧ p ≠ .head then some p else none, false)
  | level + 1, p =>
    (s.walk (fun d => key d < k ∨ (key d = k ∧ ¬ eq)) level (s.count + 1) p).bind (fun r =>
      match r.2 with
      | some (n, d) =>
        if key d = k then some (some (.node n), true)
        else if level = 0 ∧ less then some (some r.1, false)
        else s.lookupFrom eq less k level r.1
      | none => s.lookupFrom eq less k level r.1)

def State.lookup (s : State δ) (eq less : Bool) (k : κ) : Option (Option Place × Bool) :=
  s.lookupFrom key eq less k s.levels .head

/-! ### Insertion and removal -/

def State.freeNode (s : State δ) (n : Nat) : Option (State δ) :=
  (s.nodes n).map (fun node =>
    { s with
      nodes := Function.update s.nodes n none
      freed := if s.frees then s.freed ++ [node.data] else s.freed })

def State.linkAt (s : State δ) (prev : Nat → Option Place) (n level : Nat) : Option (State δ) :=
  (prev level).bind (fun p => (s.link level p).bind (fun next =>
    (s.setLink level (.node n) next).bind (fun s => s.setLink level p (some n))))

/-- A node is left out behind the place of the array, if it is linked there. -/
def State.unlinkAt (s : State δ) (prev : Nat → Option Place) (n level : Nat) : Option (State δ) :=
  (prev level).bind (fun p => (s.link level p).bind (fun next =>
    if next = some n then (s.link level (.node n)).bind (s.setLink level p) else some s))

/-- The data of a node and of the new one with the same key change places, and the new one is freed. -/
def State.replace (s : State δ) (old n : Nat) : Option (State δ) :=
  (s.nodes old).bind (fun a => (s.nodes n).bind (fun b =>
    { s with
      nodes := Function.update (Function.update s.nodes n (some { b with data := a.data })) old
        (some { a with data := b.data }) }.freeNode n))

def State.attach (s : State δ) (levels n : Nat) : Option (State δ) :=
  (s.nodes n).bind (fun node => (s.findPath key (key node.data)).bind (fun r =>
    match r with
    | (_, .node m, true) => s.replace m n
    | (prev, _, _) =>
      let prev := fun level => if s.levels ≤ level ∧ level < levels then some .head else prev level
      ((List.range levels).foldlM (fun (s : State δ) level => s.linkAt prev n level)
        { s with levels := max s.levels levels }).map (fun s => { s with size := (s.size + 1) % 2 ^ 32 })))

/-- The loop of `__skip_list_detach` that lowers the number of levels. -/
def State.lower (s : State δ) : Nat → Option Nat
  | level + 2 => (s.link (level + 1) .head).bind (fun next =>
      if next = none then s.lower (level + 1) else some (level + 2))
  | level => some level

def State.detach (s : State δ) (prev : Nat → Option Place) (n : Nat) : Option (State δ) :=
  ((List.range s.levels).foldlM (fun (s : State δ) level => s.unlinkAt prev n level) s).bind (fun s =>
    (s.lower s.levels).map (fun levels => { s with levels := levels, size := (s.size + (2 ^ 32 - 1)) % 2 ^ 32 }))

def State.allocNode (s : State δ) (level : Nat) (d : δ) : State δ :=
  { s with
    nodes := Function.update s.nodes s.count (some ⟨d, List.replicate level none⟩)
    count := s.count + 1 }

/-! ### The calls -/

/-- `z_skip_list_put` with the level of the new node. -/
def put (s : State δ) (d : δ) (level : Height) : Option (State δ × Nat) :=
  ((s.allocNode level d).attach key level s.count).map (fun s => (s, 0))

def remove (s : State δ) (k : κ) : Option (State δ × Nat) :=
  (s.findPath key k).bind (fun r =>
    match r with
    | (prev, .node n, true) => ((s.detach prev n).bind (fun s => s.freeNode n)).map (fun s => (s, 0))
    | _ => some (s, 1))

def get (s : State δ) (k : κ) : Option (Option δ) :=
  (s.lookup key true false k).bind (fun r =>
    match r.1 with
    | some (.node n) => (s.nodes n).map (fun node => some node.data)
    | some .head => none
    | none => some none)

inductive Op (δ κ : Type*) where
  | put (d : δ) (level : Height)
  | remove (k : κ)
  | get (k : κ)

inductive Result (δ : Type*) where
  | status (n : Nat)
  | data (d : Option δ)
  deriving DecidableEq, Repr

def step (s : State δ) : Op δ κ → Option (State δ × Result δ)
  | .put d level => (put key s d level).map (fun r => (r.1, .status r.2))
  | .remove k => (remove key s k).map (fun r => (r.1, .status r.2))
  | .get k => (get key s k).map (fun d => (s, .data d))

def alloc (frees : Bool) : State δ where
  head := List.replicate maxHeight none
  nodes := fun _ => none
  count := 0
  levels := 1
  size := 0
  frees := frees
  freed := []

/-! ### Random levels -/

def rand (seed : UInt32) : UInt32 × UInt32 :=
  let next₁ := seed * 1103515245 + 12345
  let next₂ := next₁ * 1103515245 + 12345
  let next₃ := next₂ * 1103515245 + 12345
  let result₁ := (next₁ >>> 16) &&& 2047
  let result₂ := (result₁ <<< 10) ^^^ ((next₂ >>> 16) &&& 1023)
  ((result₂ <<< 10) ^^^ ((next₃ >>> 16) &&& 1023), next₃)

def randLevelFrom : Nat → UInt32 → Nat → Nat × UInt32
  | 0, seed, level => (level, seed)
  | n + 1, seed, level =>
    if (rand seed).1 &&& 3 = 0 then randLevelFrom n (rand seed).2 (level + 1) else (level, (rand seed).2)

theorem randLevelFrom_mem (n : Nat) (seed : UInt32) (level : Nat) :
    level ≤ (randLevelFrom n seed level).1 ∧ (randLevelFrom n seed level).1 ≤ level + n := by
  induction n generalizing seed level with
  | zero => exact ⟨Nat.le_refl level, Nat.le_refl level⟩
  | succ n ih =>
    rw [randLevelFrom]
    split_ifs
    · have h := ih (rand seed).2 (level + 1)
      omega
    · exact ⟨Nat.le_refl level, Nat.le_add_right level _⟩

/-- `z_skip_node_rand_level`, and the seed after it. -/
def randLevel (seed : UInt32) : Height × UInt32 :=
  (⟨(randLevelFrom (maxHeight - 1) seed 1).1, randLevelFrom_mem _ _ _⟩, (randLevelFrom (maxHeight - 1) seed 1).2)

end RaleighSL.Zcl.SkipList
