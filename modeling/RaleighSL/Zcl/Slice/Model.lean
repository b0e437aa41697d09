import RaleighSL.Library.Run
import RaleighSL.Zcl.Map

/-!
# Slices

`buffers/slice.c`: a slice is a chain of nodes with three blocks each, and a block is an address and
a number of bytes that is kept in 32 bits. The first node is a part of the slice, and the tail is
the last node. A block without bytes is free, and for most functions it is also the end.

A block has the bytes from its address on to the end of what it was made from. Allocations succeed.
-/
namespace RaleighSL.Zcl.Slice

/-- `z_byte_slice`. -/
structure Block where
  size : Nat
  data : Bytes
  deriving DecidableEq, Repr

/-- `z_byte_slice_set`. -/
def Block.ofData (data : Bytes) (size : Nat) : Block := { size := size % 2 ^ 32, data := data }

def Block.zero : Block := { size := 0, data := [] }

/-- `z_byte_slice_is_empty`. -/
def Block.isEmpty (b : Block) : Bool := b.size = 0

def Block.bytes (b : Block) : Bytes := b.data.take b.size

structure Node where
  block₀ : Block
  block₁ : Block
  block₂ : Block
  deriving DecidableEq, Repr

def Node.blocks (node : Node) : List Block := [node.block₀, node.block₁, node.block₂]

def Node.single (b : Block) : Node := { block₀ := b, block₁ := Block.zero, block₂ := Block.zero }

structure State where
  head : Node
  rest : List Node
  deriving DecidableEq, Repr

def State.blocks (s : State) : List Block := s.head.blocks ++ s.rest.flatMap Node.blocks

/-! ### Changes -/

/-- An empty slice, as `__slice_ctor` and `z_slice_clear` leave it. -/
def empty : State := { head := Node.single Block.zero, rest := [] }

/-- The node with a block where `__slice_pick_tail_free_buffer` finds a free one, if it does. -/
def Node.putTail (node : Node) (b : Block) : Option Node :=
  if !node.block₂.isEmpty then none
  else if !node.block₁.isEmpty then some { node with block₂ := b }
  else if !node.block₀.isEmpty then some { node with block₁ := b }
  else some { node with block₀ := b }

/-- A block is put into the last node of a list, or into a new one behind it. -/
def putLast (b : Block) : Node → List Node → Node × List Node
  | node, [] =>
    match node.putTail b with
    | some node => (node, [])
    | none => (node, [Node.single b])
  | node, next :: rest => let r := putLast b next rest; (node, r.1 :: r.2)

def append (s : State) (data : Bytes) (size : Nat) : State :=
  let r := putLast (Block.ofData data size) s.head s.rest
  { head := r.1, rest := r.2 }

/-- The copy of the first `k` bytes of the first block to the second one: these are bytes of its size. -/
def Node.move (node : Node) (k : Nat) : Node :=
  { node with block₁ :=
    { node.block₁ with size := node.block₁.size / 256 ^ k * 256 ^ k + node.block₀.size % 256 ^ k } }

def prepend (s : State) (data : Bytes) (size : Nat) : State :=
  let b := Block.ofData data size
  if s.head.block₀.isEmpty then { s with head := { s.head with block₀ := b } }
  else if s.head.block₁.isEmpty then { s with head := { s.head.move 1 with block₁ := b } }
  else if s.head.block₂.isEmpty then { s with head := { s.head.move 2 with block₂ := b } }
  else { head := Node.single b, rest := s.head :: s.rest }

/-- The loop of `z_slice_add` from a block on: it goes over the blocks of the slice that it appends to. -/
def addFrom : Nat → Nat → State → Option State
  | 0, _, _ => none
  | fuel + 1, i, s =>
    match s.blocks[i]? with
    | none => some s
    | some b => addFrom fuel (i + 1) (if b.size ≠ 0 then append s b.data b.size else s)

/-- `z_slice_add`. When no block has bytes, the loop ends after the last one. -/
def add (s : State) (_slice : State) : Option State := addFrom (s.blocks.length + 1) 0 s

/-- A step of the loop of `z_slice_ltrim`. -/
def Block.trim (b : Block) (size : Nat) : Block × Nat :=
  ({ size := b.size - min size b.size, data := b.data.drop (min size b.size) }, size - min size b.size)

def Node.trim (node : Node) (size : Nat) : Node × Nat :=
  let (block₀, size) := node.block₀.trim size
  let (block₁, size) := node.block₁.trim size
  let (block₂, size) := node.block₂.trim size
  ({ block₀ := block₀, block₁ := block₁, block₂ := block₂ }, size)

def trimNodes : Nat → List Node → List Node
  | _, [] => []
  | size, node :: rest => (node.trim size).1 :: trimNodes (node.trim size).2 rest

def ltrim (s : State) (size : Nat) : State :=
  { head := (s.head.trim size).1, rest := trimNodes (s.head.trim size).2 s.rest }

def chrToLower (c : Byte) : Byte := if 65 ≤ c ∧ c ≤ 90 then c + 32 else c

/-- `z_strnlower` over the bytes of a block. -/
def Block.toLower (b : Block) : Block := { b with data := (b.data.take b.size).map chrToLower ++ b.data.drop b.size }

def Node.toLower (node : Node) : Node :=
  { block₀ := node.block₀.toLower, block₁ := node.block₁.toLower, block₂ := node.block₂.toLower }

def toLower (s : State) : State := { head := s.head.toLower, rest := s.rest.map Node.toLower }

/-! ### Observations -/

/-- The loop of `z_slice_length`. -/
def lengthFrom : List Block → Nat → Nat
  | [], length => length
  | b :: blocks, length => if b.size = 0 then length else lengthFrom blocks ((length + b.size) % 2 ^ 64)

def length (s : State) : Nat := lengthFrom s.blocks 0

def isEmpty (s : State) : Bool := s.head.block₀.isEmpty

/-- `z_byte_slice_starts_with`: a block has at least `n` bytes, and they are those of the data. -/
def Block.startsWith (b : Block) (data : Bytes) (n : Nat) : Bool := n ≤ b.size && b.data.take n = data.take n

def equalsFrom : List Block → Bytes → Bool
  | [], data => data.length = 0
  | b :: blocks, data =>
    let n := min data.length b.size
    if data.length < b.size then false
    else if n = 0 then data.length = 0
    else if !b.startsWith data n then false
    else equalsFrom blocks (data.drop n)

def equals (s : State) (data : Bytes) : Bool := equalsFrom s.blocks data

def startsWithFrom : List Block → Bytes → Bool
  | [], data => data.length = 0
  | b :: blocks, data =>
    let n := min data.length b.size
    if n = 0 then data.length = 0
    else if !b.startsWith data data.length then false
    else startsWithFrom blocks (data.drop n)

def startsWith (s : State) (data : Bytes) : Bool := startsWithFrom s.blocks data

/-- The loop of `z_slice_copy`. -/
def copyFrom : List Block → Nat → Bytes
  | [], _ => []
  | b :: blocks, size => b.data.take (min size b.size) ++ copyFrom blocks (size - min size b.size)

/-- `z_slice_copy`: what is written from the start of the buffer on, and the result. -/
def copy (s : State) (size : Nat) : Bytes × Nat := (copyFrom s.blocks size ++ [0], (copyFrom s.blocks size).length)

/-! ### Calls -/

inductive Op where
  | append (data : Bytes)
  | prepend (data : Bytes)
  | add (slice : State)
  | ltrim (size : Nat)
  | length
  | isEmpty
  | equals (data : Bytes)
  | startsWith (data : Bytes)
  | copy (size : Nat)

inductive Result where
  | status (n : Nat)
  | size (n : Nat)
  | flag (b : Bool)
  | copied (written : Bytes) (n : Nat)
  deriving DecidableEq, Repr

def step (s : State) : Op → Option (State × Result)
  | .append data => some (append s data data.length, .status 0)
  | .prepend data => some (prepend s data data.length, .status 0)
  | .add slice => (add s slice).map (fun s => (s, .status 0))
  | .ltrim size => some (ltrim s size, .status 0)
  | .length => some (s, .size (length s))
  | .isEmpty => some (s, .flag (isEmpty s))
  | .equals data => some (s, .flag (equals s data))
  | .startsWith data => some (s, .flag (startsWith s data))
  | .copy size => some (s, .copied (copy s size).1 (copy s size).2)

end RaleighSL.Zcl.Slice
