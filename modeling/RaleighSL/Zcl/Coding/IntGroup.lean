import RaleighSL.Zcl.Coding.Int

/-!
# Groups of integers

`io/coding/coding-int-group.c`: the widths of three or four integers share one byte, and the
integers follow it without separators.
-/
namespace RaleighSL.Zcl.Coding

/-- The encodings of some integers one after the other, each in its width. -/
def encodeGroup : List (Nat × Nat) → Bytes
  | [] => []
  | (length, value) :: ints => encodeUint length value ++ encodeGroup ints

def decodeGroup (buf : Bytes) : List Nat → Option (List Nat)
  | [] => some []
  | length :: head =>
    (decodeUint buf length).bind (fun value => (decodeGroup (buf.drop length) head).map (value :: ·))

/-- `z_decode_4int_head`. -/
def decode4intHead (hbuf : Byte) : List Nat :=
  [1 + fetchBits hbuf 2 6, 1 + fetchBits hbuf 2 4, 1 + fetchBits hbuf 2 2, 1 + fetchBits hbuf 2 0]

/-- `z_encode_4int`. -/
def encode4int (a b c d : Nat) : Bytes :=
  let aLength := uint32Size a
  let bLength := uint32Size b
  let cLength := uint32Size c
  let dLength := uint32Size d
  Fin.ofNat 256 ((aLength - 1) <<< 6 ||| (bLength - 1) <<< 4 ||| (cLength - 1) <<< 2 ||| (dLength - 1)) ::
    encodeGroup [(aLength, a), (bLength, b), (cLength, c), (dLength, d)]

/-- `z_decode_4int`: the integers and the number of bytes. -/
def decode4int : Bytes → Option (List Nat × Nat)
  | [] => none
  | hbuf :: buf => (decodeGroup buf (decode4intHead hbuf)).map (fun ints => (ints, 1 + (decode4intHead hbuf).sum))

/-- `z_decode_3int_head`. -/
def decode3intHead (hbuf : Byte) : List Nat := [1 + fetchBits hbuf 3 5, 1 + fetchBits hbuf 3 2, 1 + fetchBits hbuf 2 0]

/-- `z_encode_3int`. -/
def encode3int (a b c : Nat) : Bytes :=
  let aLength := uint64Size a
  let bLength := uint64Size b
  let cLength := uint32Size c
  Fin.ofNat 256 ((aLength - 1) <<< 5 ||| (bLength - 1) <<< 2 ||| (cLength - 1)) ::
    encodeGroup [(aLength, a), (bLength, b), (cLength, c)]

/-- `z_decode_3int`: the integers and the number of bytes. -/
def decode3int : Bytes → Option (List Nat × Nat)
  | [] => none
  | hbuf :: buf => (decodeGroup buf (decode3intHead hbuf)).map (fun ints => (ints, 1 + (decode3intHead hbuf).sum))

theorem length_encodeGroup (ints : List (Nat × Nat)) : (encodeGroup ints).length = (ints.map Prod.fst).sum := by
  induction ints with
  | nil => rfl
  | cons int ints ih => simp [encodeGroup, ih]

theorem decodeGroup_encodeGroup {ints : List (Nat × Nat)} (h : ∀ int ∈ ints, int.2 < 256 ^ int.1) (rest : Bytes) :
    decodeGroup (encodeGroup ints ++ rest) (ints.map Prod.fst) = some (ints.map Prod.snd) := by
  induction ints with
  | nil => rfl
  | cons int ints ih =>
    obtain ⟨length, value⟩ := int
    have hvalue : value < 256 ^ length := h _ List.mem_cons_self
    have hdrop : (encodeUint length value ++ (encodeGroup ints ++ rest)).drop length = encodeGroup ints ++ rest := by
      rw [List.drop_append, List.drop_of_length_le (by simp)]
      simp
    rw [encodeGroup, List.append_assoc, List.map_cons, decodeGroup, decodeUint_encodeUint hvalue, Option.bind_some,
      hdrop, ih (fun int hint => h int (List.mem_cons_of_mem _ hint))]
    rfl

theorem decode4intHead_eq : ∀ a b c d : Fin 4,
    decode4intHead (Fin.ofNat 256 (a.val <<< 6 ||| b.val <<< 4 ||| c.val <<< 2 ||| d.val)) =
      [1 + a.val, 1 + b.val, 1 + c.val, 1 + d.val] := by
  decide +kernel

theorem decode3intHead_eq : ∀ (a b : Fin 8) (c : Fin 4),
    decode3intHead (Fin.ofNat 256 (a.val <<< 5 ||| b.val <<< 2 ||| c.val)) = [1 + a.val, 1 + b.val, 1 + c.val] := by
  decide +kernel

theorem decode4int_encode4int {a b c d : Nat} (ha : a < 2 ^ 32) (hb : b < 2 ^ 32) (hc : c < 2 ^ 32) (hd : d < 2 ^ 32)
    (rest : Bytes) :
    decode4int (encode4int a b c d ++ rest) = some ([a, b, c, d], (encode4int a b c d).length) := by
  have hma := uint32Size_minimal ha
  have hmb := uint32Size_minimal hb
  have hmc := uint32Size_minimal hc
  have hmd := uint32Size_minimal hd
  have hle := uint32Size_le
  have hhead := decode4intHead_eq ⟨uint32Size a - 1, by have := hle a; omega⟩ ⟨uint32Size b - 1, by have := hle b; omega⟩
    ⟨uint32Size c - 1, by have := hle c; omega⟩ ⟨uint32Size d - 1, by have := hle d; omega⟩
  simp only [Nat.add_sub_cancel' hma.1, Nat.add_sub_cancel' hmb.1, Nat.add_sub_cancel' hmc.1,
    Nat.add_sub_cancel' hmd.1] at hhead
  have hgroup := @decodeGroup_encodeGroup
    [(uint32Size a, a), (uint32Size b, b), (uint32Size c, c), (uint32Size d, d)]
    (by simpa using ⟨hma.2.1, hmb.2.1, hmc.2.1, hmd.2.1⟩) rest
  simp only [List.map_cons, List.map_nil] at hgroup
  rw [encode4int, List.cons_append, decode4int, hhead, hgroup, List.length_cons, length_encodeGroup]
  simp [Nat.add_comm]

theorem decode3int_encode3int {a b c : Nat} (ha : a < 2 ^ 64) (hb : b < 2 ^ 64) (hc : c < 2 ^ 32) (rest : Bytes) :
    decode3int (encode3int a b c ++ rest) = some ([a, b, c], (encode3int a b c).length) := by
  have hma := uint64Size_minimal ha
  have hmb := uint64Size_minimal hb
  have hmc := uint32Size_minimal hc
  have hhead := decode3intHead_eq ⟨uint64Size a - 1, by have := uint64Size_le a; omega⟩
    ⟨uint64Size b - 1, by have := uint64Size_le b; omega⟩ ⟨uint32Size c - 1, by have := uint32Size_le c; omega⟩
  simp only [Nat.add_sub_cancel' hma.1, Nat.add_sub_cancel' hmb.1, Nat.add_sub_cancel' hmc.1] at hhead
  have hgroup := @decodeGroup_encodeGroup [(uint64Size a, a), (uint64Size b, b), (uint32Size c, c)]
    (by simpa using ⟨hma.2.1, hmb.2.1, hmc.2.1⟩) rest
  simp only [List.map_cons, List.map_nil] at hgroup
  rw [encode3int, List.cons_append, decode3int, hhead, hgroup, List.length_cons, length_encodeGroup]
  simp [Nat.add_comm]

end RaleighSL.Zcl.Coding
