import RaleighSL.Library.Run
import RaleighSL.Zcl.Ipc.Frame

/-!
# The output of a connection

The messages that wait for the socket are in a chain of nodes of sixteen slots, and a
flush offers them all to `writev`. Both loops of `__ipc_outbuf_flush` run over the slots
of a node up to `DUMP_NBLOCKS`, which is sixty-four: they leave the node when more than
what is left of it is pending. After a write that ends inside a message the byte offset
is what is missing of the message, not what was written of it, and the message is no
longer counted.
-/
namespace RaleighSL.Zcl.Ipc
open RaleighSL.Library

def nodeNBlocks : Nat := 16
def dumpNBlocks : Nat := 64

/-- The slots of a node. A slot that is not in use has no bytes. -/
abbrev Node := List Bytes

def Node.alloc : Node := List.replicate nodeNBlocks []

/-- The output side of `z_ipc_msgbuf_t`, with the chain of nodes from the head to the tail. -/
structure Outbuf where
  nodes : List Node
  mCount : Nat
  mOffset : Nat
  dOffset : Nat
  version : Nat
  deriving DecidableEq, Repr

/-- After `__ipc_outbuf_open`. -/
def Outbuf.init (version : Nat) : Outbuf := ⟨[], 0, 0, 0, version⟩

namespace Outbuf

def setTail (idx : Nat) (data : Bytes) : List Node → List Node
  | [] => []
  | [node] => [node.set idx data]
  | node :: next => node :: setTail idx data next

/-- `__ipc_outbuf_add`, where a node can be allocated if `memory`. -/
def add (b : Outbuf) (data : Bytes) (memory : Bool) : Outbuf × Int :=
  let msgIdx := (b.mOffset + b.mCount) % nodeNBlocks
  let requireNewNode := decide (msgIdx = 0 ∧ b.mCount > 0)
  if b.nodes = [] ∨ requireNewNode then
    if memory then
      ({ b with nodes := setTail msgIdx data (b.nodes ++ [.alloc]), mCount := (b.mCount + 1) % 2 ^ 32 }, 0)
    else (b, -1)
  else ({ b with nodes := setTail msgIdx data b.nodes, mCount := (b.mCount + 1) % 2 ^ 32 }, 0)

/-- The messages that the first loop of `__ipc_outbuf_flush` offers: `count` slots from `i` on. -/
def gather (version : Nat) (node : Node) : Nat → Nat → Option Bytes
  | _, 0 => some []
  | i, count + 1 =>
    match node[i]? with
    | none => none
    | some data => (gather version node (i + 1) count).map (message version data ++ ·)

/-- The bytes that `__ipc_outbuf_flush` offers. With a byte offset inside the head the data pointer is moved
by a difference that is below zero. -/
def offered (b : Outbuf) (niovs : Nat) : Option Bytes :=
  match b.nodes with
  | [] => if 0 < b.dOffset then none else some []
  | node :: _ =>
    if 0 < b.dOffset then
      match node[b.mOffset]? with
      | none => none
      | some data =>
        if b.dOffset < 8 ∨ data.length < b.dOffset - 8 then none
        else (gather b.version node (b.mOffset + 1) (niovs - 1)).map (data.drop (b.dOffset - 8) ++ ·)
    else gather b.version node b.mOffset niovs

/-- The second loop of `__ipc_outbuf_flush`: `count` of the messages are not accounted for yet and `size` bytes
are. A loop that ends without a return takes the lock twice. -/
def settle (b : Outbuf) (niovs wr : Nat) (node : Node) (next : List Node) : Nat → Nat → Nat → Option Outbuf
  | _, 0, _ => none
  | i, count + 1, size =>
    match node[i]? with
    | none => none
    | some data =>
      let size := size + (8 + data.length)
      if size > wr then
        some { b with nodes := node :: next, mOffset := i, dOffset := (size - wr) % 2 ^ 32,
                      mCount := b.mCount - (1 + (niovs - (count + 1))) }
      else if size = wr then
        some { b with nodes := node.set i [] :: next, mOffset := (i + 1) % nodeNBlocks,
                      mCount := b.mCount - (niovs - count) }
      else settle b niovs wr (node.set i []) next (i + 1) count size

/-- `__ipc_outbuf_flush` with the bytes that the socket accepts. It has room for a number of bytes or fails. -/
def flush (b : Outbuf) (room : Option Nat) : Option (Outbuf × Int × Bytes) :=
  let niovs := min b.mCount dumpNBlocks
  if niovs = 0 then some (b, 0, [])
  else
    match b.offered niovs with
    | none => none
    | some bytes =>
      match room with
      | none => some (b, -1, [])
      | some room =>
        match b.nodes with
        | [] => some (b, 0, [])
        | node :: next =>
          (b.settle niovs (min room bytes.length) node next b.mOffset niovs ((2 ^ 32 - b.dOffset) % 2 ^ 32)).map
            (fun b' => (b', 0, bytes.take room))

end Outbuf

/-- A sender with the messages that were pushed and the bytes that the socket has accepted. -/
structure Sender where
  obuffer : Outbuf
  pushed : List Bytes
  sent : Bytes
  deriving DecidableEq, Repr

def Sender.init (version : Nat) : Sender := ⟨.init version, [], []⟩

inductive SendOp where
  | push (data : Bytes) (memory : Bool)
  | flush (room : Option Nat)
  deriving DecidableEq, Repr

namespace Sender

def step (s : Sender) : SendOp → Option (Sender × Int)
  | .push data memory =>
    let r := s.obuffer.add data memory
    some (⟨r.1, if r.2 = 0 then s.pushed ++ [data] else s.pushed, s.sent⟩, r.2)
  | .flush room => (s.obuffer.flush room).map (fun r => (⟨r.1, s.pushed, s.sent ++ r.2.2⟩, r.2.1))

end Sender

def wire (version : Nat) (msgs : List Bytes) : Bytes := (msgs.map (message version)).flatten

def Outbuf.pending (b : Outbuf) : List Bytes := ((b.nodes.headD []).drop b.mOffset).take b.mCount

/-- What a socket with room for `room` bytes accepts ends with one of the messages. -/
def Outbuf.EndsMessage (b : Outbuf) (room : Nat) : Prop :=
  ∃ k < b.mCount, (wire b.version (b.pending.take (k + 1))).length = min room (wire b.version b.pending).length

instance (b : Outbuf) (room : Nat) : Decidable (b.EndsMessage room) := inferInstanceAs (Decidable (∃ k < _, _))

/-- A payload whose size three bytes hold, or a flush of one node that is not cut inside a message. -/
def SendOk (s : Sender) : SendOp → Prop
  | .push data _ => data.length < 2 ^ 24 ∧ s.obuffer.mCount + 1 < 2 ^ 32
  | .flush room => s.obuffer.mCount = 0 ∨
    (s.obuffer.mOffset + s.obuffer.mCount ≤ nodeNBlocks ∧ ∀ n ∈ room, s.obuffer.EndsMessage n)

instance (s : Sender) : (op : SendOp) → Decidable (SendOk s op)
  | .push _ _ => inferInstanceAs (Decidable (_ ∧ _))
  | .flush _ => inferInstanceAs (Decidable (_ ∨ _ ∧ _))

variable {version : Nat} {msgs msgs' : List Bytes} {node : Node} {next : List Node} {b : Outbuf} {s : Sender}

@[simp] theorem wire_nil (version : Nat) : wire version [] = [] := rfl

@[simp] theorem wire_cons (version : Nat) (data : Bytes) (msgs : List Bytes) :
    wire version (data :: msgs) = message version data ++ wire version msgs := rfl

@[simp] theorem wire_append (version : Nat) (msgs msgs' : List Bytes) :
    wire version (msgs ++ msgs') = wire version msgs ++ wire version msgs' := by
  simp [wire]

@[simp] theorem length_message (version : Nat) (data : Bytes) : (message version data).length = 8 + data.length := by
  rw [message, List.length_append]
  rfl

/-- A socket that stops at the end of a message has accepted whole messages. -/
theorem take_wire {room k : Nat} (h : (wire version (msgs.take k)).length = min room (wire version msgs).length) :
    (wire version msgs).take room = wire version (msgs.take k) := by
  have hsplit : wire version msgs = wire version (msgs.take k) ++ wire version (msgs.drop k) := by
    rw [← wire_append, List.take_append_drop]
  calc (wire version msgs).take room
      = (wire version msgs).take (wire version (msgs.take k)).length := by rw [h, List.take_eq_take_iff]; omega
    _ = wire version (msgs.take k) := by nth_rewrite 1 [hsplit]; exact List.take_left

namespace Outbuf

theorem setTail_ne_nil {idx : Nat} {data : Bytes} {nodes : List Node} (h : nodes ≠ []) : setTail idx data nodes ≠ [] := by
  cases nodes with
  | nil => exact absurd rfl h
  | cons node next => cases next <;> simp [setTail]

theorem gather_eq {i count : Nat} (h : i + count ≤ node.length) :
    gather version node i count = some (wire version ((node.drop i).take count)) := by
  induction count generalizing i with
  | zero => rfl
  | succ count ih =>
    have hi : i < node.length := by omega
    rw [gather, List.getElem?_eq_getElem hi]
    dsimp only
    rw [ih (by omega), List.drop_eq_getElem_cons hi, List.take_succ_cons, wire_cons]
    rfl

/-- The second loop up to the message that ends the write. -/
theorem settle_ends {niovs wr i count size k : Nat} (hk : k < count) (hfit : i + count ≤ node.length)
    (hwr : size + (wire version ((node.drop i).take (k + 1))).length = wr) :
    ∃ node', settle b niovs wr node next i count size = some { b with
        nodes := node' :: next, mOffset := (i + (k + 1)) % nodeNBlocks, mCount := b.mCount - (niovs - (count - (k + 1))) } ∧
      node'.length = node.length ∧ node'.drop (i + (k + 1)) = node.drop (i + (k + 1)) := by
  induction count generalizing node i size k with
  | zero => omega
  | succ count ih =>
    have hi : i < node.length := by omega
    rw [List.drop_eq_getElem_cons hi, List.take_succ_cons, wire_cons, List.length_append, length_message] at hwr
    rw [settle, List.getElem?_eq_getElem hi]
    dsimp only
    rw [if_neg (by omega)]
    cases k with
    | zero =>
      rw [List.take_zero, wire_nil, List.length_nil] at hwr
      rw [if_pos (by omega)]
      refine ⟨_, rfl, List.length_set, ?_⟩
      rw [List.drop_set_of_lt (by omega)]
    | succ k =>
      have hpos : 0 < (wire version ((node.drop (i + 1)).take (k + 1))).length := by
        rw [List.drop_eq_getElem_cons (by omega), List.take_succ_cons, wire_cons, List.length_append, length_message]
        omega
      have hdrop : (node.set i []).drop (i + 1) = node.drop (i + 1) := List.drop_set_of_lt (by omega)
      rw [if_neg (by omega)]
      have hrest : size + (8 + node[i].length) + (wire version (((node.set i []).drop (i + 1)).take (k + 1))).length = wr := by
        rw [hdrop]
        omega
      obtain ⟨node', hset, hlen, hrest⟩ := ih (by omega) (by rw [List.length_set]; omega) hrest
      refine ⟨node', ?_, by rw [hlen, List.length_set], ?_⟩
      · rw [hset, show i + 1 + (k + 1) = i + (k + 1 + 1) by omega, show count + 1 - (k + 1 + 1) = count - (k + 1) by omega]
      · rw [show i + (k + 1 + 1) = i + 1 + (k + 1) by omega, hrest, List.drop_set_of_lt (by omega)]

end Outbuf

/-- Where the messages that are not written yet are. -/
inductive Outbuf.Waits (b : Outbuf) (msgs : List Bytes) : Prop where
  | none (hnodes : b.nodes = []) (hoffset : b.mOffset = 0) (hmsgs : msgs = [])
  | one (node : Node) (hnodes : b.nodes = [node]) (hlen : node.length = nodeNBlocks)
    (hfit : b.mOffset + b.mCount ≤ nodeNBlocks) (hmsgs : (node.drop b.mOffset).take b.mCount = msgs)
  | more (hnodes : b.nodes ≠ []) (hfull : nodeNBlocks < b.mOffset + b.mCount)

/-- The sender has written the messages that are no longer counted. -/
structure Sending (version : Nat) (s : Sender) : Prop where
  heads : s.obuffer.version = version
  dOffset : s.obuffer.dOffset = 0
  mOffset : s.obuffer.mOffset < nodeNBlocks
  mCount : s.obuffer.mCount ≤ s.pushed.length
  sent : s.sent = wire version (s.pushed.take (s.pushed.length - s.obuffer.mCount))
  sizes : ∀ data ∈ s.pushed, data.length < 2 ^ 24
  waits : s.obuffer.Waits (s.pushed.drop (s.pushed.length - s.obuffer.mCount))

namespace Sending

theorem length_waiting (h : Sending version s) :
    (s.pushed.drop (s.pushed.length - s.obuffer.mCount)).length = s.obuffer.mCount := by
  have hcount := h.mCount
  rw [List.length_drop]
  omega

theorem add (h : Sending version s) {data : Bytes} {nodes : List Node} (hsize : data.length < 2 ^ 24)
    (hcount : s.obuffer.mCount + 1 < 2 ^ 32)
    (hwaits : Outbuf.Waits { s.obuffer with nodes := nodes, mCount := s.obuffer.mCount + 1 }
      (s.pushed.drop (s.pushed.length - s.obuffer.mCount) ++ [data])) :
    Sending version
      ⟨{ s.obuffer with nodes := nodes, mCount := (s.obuffer.mCount + 1) % 2 ^ 32 }, s.pushed ++ [data], s.sent⟩ := by
  have hle := h.mCount
  have hlast : (s.pushed ++ [data]).length - (s.obuffer.mCount + 1) = s.pushed.length - s.obuffer.mCount := by
    rw [List.length_append, List.length_singleton]
    omega
  rw [Nat.mod_eq_of_lt hcount]
  refine ⟨h.heads, h.dOffset, h.mOffset, by simpa using hle, ?_, ?_, ?_⟩
  · rw [hlast, List.take_append_of_le_length (Nat.sub_le _ _)]
    exact h.sent
  · intro d hd
    rcases List.mem_append.mp hd with hd | hd
    · exact h.sizes d hd
    · rw [List.mem_singleton.mp hd]
      exact hsize
  · dsimp only
    rw [hlast, List.drop_append_of_le_length (Nat.sub_le _ _)]
    exact hwaits

theorem push (h : Sending version s) {data : Bytes} (memory : Bool) (hsize : data.length < 2 ^ 24)
    (hcount : s.obuffer.mCount + 1 < 2 ^ 32) :
    ∃ s' e, s.step (.push data memory) = some (s', e) ∧ Sending version s' := by
  have hoff := h.mOffset
  refine ⟨_, _, rfl, ?_⟩
  rw [Outbuf.add]
  cases h.waits with
  | none hnodes hoffset hmsgs =>
    have hzero : s.obuffer.mCount = 0 := by rw [← h.length_waiting, hmsgs, List.length_nil]
    rw [if_pos (Or.inl hnodes)]
    cases memory with
    | false => exact h
    | true =>
      refine h.add hsize hcount (.one (Node.alloc.set 0 data) ?_ rfl ?_ ?_)
      · simp [hnodes, hoffset, hzero, Outbuf.setTail]
      · simp [hoffset, hzero, nodeNBlocks]
      · simp [hoffset, hzero, Node.alloc, nodeNBlocks, List.replicate_succ]
  | one node hnodes hlen hfit hmsgs =>
    by_cases hend : s.obuffer.mOffset + s.obuffer.mCount = nodeNBlocks
    · have hidx : (s.obuffer.mOffset + s.obuffer.mCount) % nodeNBlocks = 0 ∧ s.obuffer.mCount > 0 := by
        rw [hend, Nat.mod_self]
        exact ⟨rfl, by omega⟩
      rw [if_pos (Or.inr (decide_eq_true hidx))]
      cases memory with
      | false => exact h
      | true => exact h.add hsize hcount (.more (Outbuf.setTail_ne_nil (by simp)) (by dsimp only; omega))
    · have hidx : (s.obuffer.mOffset + s.obuffer.mCount) % nodeNBlocks = s.obuffer.mOffset + s.obuffer.mCount :=
        Nat.mod_eq_of_lt (by omega)
      have hold : ¬ (s.obuffer.nodes = [] ∨
          decide (s.obuffer.mOffset + s.obuffer.mCount = 0 ∧ s.obuffer.mCount > 0) = true) := by
        rw [hnodes, decide_eq_true_eq]
        rintro (hnil | ⟨hzero, hpos⟩)
        · exact List.cons_ne_nil _ _ hnil
        · omega
      rw [hidx, if_neg hold]
      refine h.add hsize hcount (.one (node.set (s.obuffer.mOffset + s.obuffer.mCount) data) ?_ ?_ ?_ ?_)
      · simp [hnodes, Outbuf.setTail]
      · rw [List.length_set, hlen]
      · dsimp only
        omega
      · dsimp only
        rw [← hmsgs, List.take_add_one, List.drop_set, if_neg (by omega), Nat.add_sub_cancel_left, List.take_set,
          List.set_eq_of_length_le (by simp), List.getElem?_set_self (by rw [List.length_drop]; omega)]
        rfl
  | more hnodes hfull =>
    by_cases hnew : s.obuffer.nodes = [] ∨
        decide ((s.obuffer.mOffset + s.obuffer.mCount) % nodeNBlocks = 0 ∧ s.obuffer.mCount > 0) = true
    · rw [if_pos hnew]
      cases memory with
      | false => exact h
      | true => exact h.add hsize hcount (.more (Outbuf.setTail_ne_nil (by simp)) (by dsimp only; omega))
    · rw [if_neg hnew]
      exact h.add hsize hcount (.more (Outbuf.setTail_ne_nil hnodes) (by dsimp only; omega))

/-- The sender after the first messages that wait were written. -/
theorem written (h : Sending version s) {node node' : Node} {k : Nat} (hk : k < s.obuffer.mCount)
    (hlen : node.length = nodeNBlocks) (hfit : s.obuffer.mOffset + s.obuffer.mCount ≤ nodeNBlocks)
    (hmsgs : (node.drop s.obuffer.mOffset).take s.obuffer.mCount = s.pushed.drop (s.pushed.length - s.obuffer.mCount))
    (hlen' : node'.length = node.length)
    (hrest : node'.drop (s.obuffer.mOffset + (k + 1)) = node.drop (s.obuffer.mOffset + (k + 1))) :
    Sending version ⟨{ s.obuffer with nodes := [node'], mOffset := (s.obuffer.mOffset + (k + 1)) % nodeNBlocks,
                                      mCount := s.obuffer.mCount - (k + 1) }, s.pushed,
      s.sent ++ wire version ((s.pushed.drop (s.pushed.length - s.obuffer.mCount)).take (k + 1))⟩ := by
  have hle := h.mCount
  have hlast : s.pushed.length - (s.obuffer.mCount - (k + 1)) = s.pushed.length - s.obuffer.mCount + (k + 1) := by omega
  refine ⟨h.heads, h.dOffset, Nat.mod_lt _ (by decide), (Nat.sub_le _ _).trans hle, ?_, h.sizes, ?_⟩
  · dsimp only
    rw [hlast, h.sent, ← wire_append, ← List.take_add]
  · dsimp only
    rw [hlast, ← List.drop_drop, ← hmsgs, List.drop_take, List.drop_drop, ← hrest]
    by_cases hend : s.obuffer.mOffset + (k + 1) = nodeNBlocks
    · have hzero : s.obuffer.mCount - (k + 1) = 0 := by omega
      rw [hend, hzero, Nat.mod_self]
      exact .one node' rfl (hlen'.trans hlen) (Nat.zero_le _) rfl
    · rw [Nat.mod_eq_of_lt (by omega)]
      exact .one node' rfl (hlen'.trans hlen) (by dsimp only; omega) rfl

theorem flush (h : Sending version s) {room : Option Nat}
    (hok : s.obuffer.mCount = 0 ∨
      (s.obuffer.mOffset + s.obuffer.mCount ≤ nodeNBlocks ∧ ∀ n ∈ room, s.obuffer.EndsMessage n)) :
    ∃ s' e, s.step (.flush room) = some (s', e) ∧ Sending version s' := by
  rw [Sender.step, Outbuf.flush]
  by_cases hzero : s.obuffer.mCount = 0
  · rw [hzero, Nat.zero_min, if_pos rfl, Option.map_some, List.append_nil]
    exact ⟨_, _, rfl, h⟩
  · obtain ⟨hfit, hends⟩ := hok.resolve_left hzero
    have hniovs : min s.obuffer.mCount dumpNBlocks = s.obuffer.mCount :=
      Nat.min_eq_left ((Nat.le_add_left _ _).trans (hfit.trans (by decide)))
    rw [hniovs, if_neg hzero]
    cases h.waits with
    | none hnodes hoffset hmsgs => exact absurd (by rw [← h.length_waiting, hmsgs, List.length_nil]) hzero
    | more hnodes hfull => omega
    | one node hnodes hlen hfit' hmsgs =>
      have hpending : s.obuffer.pending = s.pushed.drop (s.pushed.length - s.obuffer.mCount) := by
        rw [Outbuf.pending, hnodes, List.headD_cons, hmsgs]
      have hoffered : s.obuffer.offered s.obuffer.mCount =
          some (wire version (s.pushed.drop (s.pushed.length - s.obuffer.mCount))) := by
        rw [Outbuf.offered, hnodes]
        dsimp only
        rw [if_neg (by rw [h.dOffset]; decide), Outbuf.gather_eq (by omega), hmsgs, h.heads]
      rw [hoffered]
      cases room with
      | none =>
        dsimp only
        rw [Option.map_some, List.append_nil]
        exact ⟨_, _, rfl, h⟩
      | some n =>
        obtain ⟨k, hk, hwr⟩ := hends n rfl
        rw [hpending, h.heads] at hwr
        have hstart : (node.drop s.obuffer.mOffset).take (k + 1) =
            (s.pushed.drop (s.pushed.length - s.obuffer.mCount)).take (k + 1) := by
          rw [← hmsgs, List.take_take, Nat.min_eq_left hk]
        have hwr' : 0 + (wire version ((node.drop s.obuffer.mOffset).take (k + 1))).length =
            min n (wire version (s.pushed.drop (s.pushed.length - s.obuffer.mCount))).length := by
          rw [Nat.zero_add, hstart, hwr]
        obtain ⟨node', hsettle, hlen', hrest⟩ := Outbuf.settle_ends hk (hfit.trans hlen.ge) hwr'
        dsimp only
        rw [hnodes]
        dsimp only
        rw [h.dOffset, Nat.sub_zero, Nat.mod_self, hsettle, take_wire hwr, Nat.sub_sub_self hk]
        exact ⟨_, _, rfl, h.written hk hlen hfit hmsgs hlen' hrest⟩

theorem step (h : Sending version s) {op : SendOp} (hok : SendOk s op) :
    ∃ s' e, s.step op = some (s', e) ∧ Sending version s' := by
  cases op with
  | push data memory => exact h.push memory hok.1 hok.2
  | flush room => exact h.flush hok

end Sending

/-- In a run whose writes stop at the end of a message of the first node, the socket has accepted the heads and
payloads of the messages that are no longer counted, in the order they were pushed, each head with the size of
its payload. -/
theorem run_writes_stream (version : Nat) {ops : List SendOp}
    (hm : Meets Sender.step SendOk (Sender.init version) ops) :
    ∃ s results, exec Sender.step (Sender.init version) ops = some (s, results) ∧
      s.sent <+: wire version s.pushed ∧ s.obuffer.mCount ≤ s.pushed.length ∧
      s.sent = wire version (s.pushed.take (s.pushed.length - s.obuffer.mCount)) ∧
      ((wire version s.pushed).length ≤ s.sent.length → s.sent = wire version s.pushed ∧ s.obuffer.mCount = 0) ∧
      ∀ data ∈ s.pushed, (parseHead (message version data)).size = data.length := by
  have hinit : Sending version (Sender.init version) :=
    ⟨rfl, rfl, Nat.zero_lt_succ 15, le_rfl, rfl, by simp [Sender.init], .none rfl rfl rfl⟩
  obtain ⟨s, results, he, h⟩ := exec_history (I := fun s _ => Sending version s)
    (fun s _ op h hok => h.step hok) (h := []) hinit hm
  have hsplit : wire version s.pushed = s.sent ++ wire version (s.pushed.drop (s.pushed.length - s.obuffer.mCount)) := by
    rw [h.sent, ← wire_append, List.take_append_drop]
  have hpart : s.sent <+: wire version s.pushed := hsplit ▸ List.prefix_append _ _
  refine ⟨s, results, he, hpart, h.mCount, h.sent, ?_, fun data hd => size_message (h.sizes data hd) version⟩
  intro henough
  refine ⟨hpart.eq_of_length_le henough, ?_⟩
  have hnone := congrArg List.length hsplit
  rw [List.length_append] at hnone
  rw [← h.length_waiting]
  cases hwait : s.pushed.drop (s.pushed.length - s.obuffer.mCount) with
  | nil => rfl
  | cons data msgs =>
    rw [hwait, wire_cons, List.length_append, length_message] at hnone
    omega

/-- Three messages, of which the first is written before the last is pushed. -/
theorem run_writes_stream_two_flushes : ∃ s results,
    exec Sender.step (Sender.init 0) [.push [1, 2] true, .push [] true, .flush (some 10), .push [3] true, .flush none,
      .flush (some 100)] = some (s, results) ∧ s.sent = message 0 [1, 2] ++ message 0 [] ++ message 0 [3] := by
  have hm : Meets Sender.step SendOk (Sender.init 0) [.push [1, 2] true, .push [] true, .flush (some 10), .push [3] true,
      .flush none, .flush (some 100)] := by
    decide +kernel
  obtain ⟨s, results, he, -, -, -, hall, -⟩ := run_writes_stream 0 hm
  have hrun : (exec Sender.step (Sender.init 0) [.push [1, 2] true, .push [] true, .flush (some 10), .push [3] true,
      .flush none, .flush (some 100)]).map (fun r => (r.1.pushed, r.1.sent.length)) = some ([[1, 2], [], [3]], 27) := by
    decide +kernel
  rw [he, Option.map_some] at hrun
  obtain ⟨hpushed, hsent⟩ := Prod.mk.inj (Option.some.inj hrun)
  rw [hpushed] at hall
  refine ⟨s, results, he, ?_⟩
  rw [(hall (by rw [hsent]; decide +kernel)).1]
  decide +kernel

/-- A write that stops inside a message loses the message, seventeen messages make a flush leave the node, and
the head of a payload of 2^24 bytes has the size zero. -/
theorem torn_write_long_queue_and_large_payload :
    (∃ s results, exec Sender.step (Sender.init 0) [.push [1, 2, 3] true, .flush (some 4)] = some (s, results) ∧
      s.pushed = [[1, 2, 3]] ∧ s.sent.length = 4 ∧ s.obuffer.mCount = 0) ∧
    exec Sender.step (Sender.init 0) [.push [1, 2, 3] true, .flush (some 4), .push [4] true, .flush (some 100)] = none ∧
    exec Sender.step (Sender.init 0) (List.replicate 17 (.push [1] true) ++ [.flush (some 1000)]) = none ∧
    (parseHead (message 0 (List.replicate (2 ^ 24) 0))).size = 0 := by
  refine ⟨?_, by decide +kernel, by decide +kernel, ?_⟩
  · have hrun : (exec Sender.step (Sender.init 0) [.push [1, 2, 3] true, .flush (some 4)]).map
        (fun r => (r.1.pushed, r.1.sent.length, r.1.obuffer.mCount)) = some ([[1, 2, 3]], 4, 0) := by
      decide +kernel
    obtain ⟨⟨s, results⟩, he, hr⟩ := Option.map_eq_some_iff.mp hrun
    obtain ⟨hpushed, hrest⟩ := Prod.mk.inj hr
    obtain ⟨hsent, hcount⟩ := Prod.mk.inj hrest
    exact ⟨s, results, he, hpushed, hsent, hcount⟩
  · have hhead : parseHead (message 0 (List.replicate (2 ^ 24) 0)) = parseHead (buildHead 0 (2 ^ 24)) := by
      rw [message, List.length_replicate]
      exact parseHead_append (by simp [buildHead]) _
    rw [hhead]
    decide +kernel

end RaleighSL.Zcl.Ipc
