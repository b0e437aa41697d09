import RaleighSL.Zcl.Reader.Fields

/-!
# Generated messages

`bin/zcl-compiler.py` generates four functions for a struct of a schema: `alloc`, `parse`, `size`
and `write`. Each is one piece of code for every field, in the order of the fields, by the kind of
the field; here a struct is its fields one after the other, and the functions are recursive over
them. A list of structs has no generated code that compiles, and a default is of integers only.
-/
namespace RaleighSL.Compiler
open Zcl (Byte Bytes ReaderMethods writeField writeFieldUint64 writeFieldInt64 writeFieldBytes)
open Zcl.Coding (encodedFieldLength uint32Size uint64Size encodeZigzag decodeZigzag)

inductive IntType where
  | bool | int8 | int16 | int32 | int64 | uint8 | uint16 | uint32 | uint64
deriving DecidableEq, Repr

namespace IntType

def size : IntType → Nat
  | bool | int8 | uint8 => 1
  | int16 | uint16 => 2
  | int32 | uint32 => 4
  | int64 | uint64 => 8

def signed : IntType → Bool
  | bool | int8 | int16 | int32 | int64 => true
  | uint8 | uint16 | uint32 | uint64 => false

abbrev Value (vtype : IntType) := BitVec (8 * vtype.size)

/-- The bits over which a size and a decoder work: `int` for the types it has room for. -/
def width (vtype : IntType) : Nat := if vtype.size = 8 then 64 else 32

/-- `z_write_field_int8`, ..., `z_write_field_uint64`: all integers go through 64 bits. -/
def writeInt (vtype : IntType) (uid : Nat) (value : vtype.Value) : Bytes :=
  if vtype.signed then writeFieldInt64 uid (value.signExtend 64) else writeFieldUint64 uid value.toNat

/-- `z_int8_size`, ..., `z_uint64_size`. -/
def intSize (vtype : IntType) (value : vtype.Value) : Nat :=
  let value := if vtype.signed then (encodeZigzag (value.signExtend vtype.width)).toNat else value.toNat
  if vtype.size = 8 then uint64Size value else uint32Size value

def ofUnsigned (vtype : IntType) (uvalue : Nat) : vtype.Value :=
  if vtype.signed then (decodeZigzag (BitVec.ofNat vtype.width uvalue)).setWidth (8 * vtype.size)
  else BitVec.ofNat (8 * vtype.size) uvalue

end IntType

/-- What a call on a reader gives: none for undefined behaviour, then none for an error. -/
abbrev Answer (σ α : Type) := Option (Option α × σ)

namespace Answer
variable {σ α β γ : Type}

def map (f : α → β) (answer : Answer σ α) : Answer σ β := Option.map (fun r => (r.1.map f, r.2)) answer

@[simp] theorem map_none (f : α → β) : map f (none : Answer σ α) = none := rfl

@[simp] theorem map_error (f : α → β) (self : σ) : map f (some (none, self)) = some (none, self) := rfl

@[simp] theorem map_some (f : α → β) (x : α) (self : σ) : map f (some (some x, self)) = some (some (f x), self) := rfl

theorem map_map (f : α → β) (g : β → γ) (answer : Answer σ α) : map g (map f answer) = map (g ∘ f) answer := by
  obtain _ | ⟨_ | x, self⟩ := answer <;> rfl

theorem map_eq_some {f : α → β} {answer : Answer σ α} {y : β} {self : σ} (h : map f answer = some (some y, self)) :
    ∃ x, answer = some (some x, self) ∧ f x = y := by
  obtain _ | ⟨_ | x, self'⟩ := answer
  · cases h
  · cases h
  · cases h
    exact ⟨x, rfl, rfl⟩

end Answer

variable {σ : Type}

/-- `z_v_reader_decode_int8`, ..., `z_v_reader_decode_uint64`. -/
def IntType.decodeInt (vtype : IntType) (vtable : ReaderMethods σ) (length : Nat) (self : σ) : Answer σ vtype.Value :=
  Answer.map vtype.ofUnsigned
    (if vtype.size = 1 then vtable.decodeUint8 length self else vtable.decodeUint vtype.size length self)

inductive ItemType where
  | int (vtype : IntType)
  | bytes
deriving DecidableEq, Repr

namespace ItemType

abbrev Value : ItemType → Type
  | int vtype => vtype.Value
  | bytes => Bytes

/-- `sizeof` of the type of an item; a `z_bytes_ref_t` is a slice and two pointers. -/
def size : ItemType → Nat
  | int vtype => vtype.size
  | bytes => 32

def writeItem : (vtype : ItemType) → Nat → vtype.Value → Bytes
  | int vtype, uid, value => vtype.writeInt uid value
  | bytes, uid, value => writeFieldBytes uid value

def decodeItem : (vtype : ItemType) → ReaderMethods σ → Nat → σ → Answer σ vtype.Value
  | int vtype, vtable, length, self => vtype.decodeInt vtable length self
  | bytes, vtable, length, self => vtable.decodeBytes length self

end ItemType

/-- `StructEntity`: the fields of a struct. -/
inductive Struct where
  | done
  | int (uid : Nat) (vtype : IntType) (default : Option vtype.Value) (fields : Struct)
  | bytes (uid : Nat) (fields : Struct)
  | list (uid : Nat) (vtype : ItemType) (fields : Struct)
  | struct (uid : Nat) (vtype : Struct) (fields : Struct)

namespace Struct

/-- The ids of the fields, those of nested structs apart. -/
def uids : Struct → List Nat
  | done => []
  | int uid _ _ fields | bytes uid fields | list uid _ fields | struct uid _ fields => uid :: fields.uids

/-- The compiler rejects ids from 64 on, and a `switch` has a case once. -/
def Accepted : Struct → Prop
  | done => True
  | int uid _ _ fields | bytes uid fields | list uid _ fields => uid < 64 ∧ uid ∉ fields.uids ∧ fields.Accepted
  | struct uid vtype fields => uid < 64 ∧ uid ∉ fields.uids ∧ vtype.Accepted ∧ fields.Accepted

/-- `struct {ENTITY_NAME}`: the values of the fields that are in the bitmap. -/
def Message : Struct → Type
  | done => Unit
  | int _ vtype _ fields => Option vtype.Value × fields.Message
  | bytes _ fields => Option Bytes × fields.Message
  | list _ vtype fields => Option (List vtype.Value) × fields.Message
  | struct _ vtype fields => Option vtype.Message × fields.Message

instance decidableEqMessage : (s : Struct) → DecidableEq s.Message
  | done => inferInstanceAs (DecidableEq Unit)
  | int _ vtype _ fields =>
    have := decidableEqMessage fields
    inferInstanceAs (DecidableEq (Option vtype.Value × fields.Message))
  | bytes _ fields =>
    have := decidableEqMessage fields
    inferInstanceAs (DecidableEq (Option Bytes × fields.Message))
  | list _ (.int vtype) fields =>
    have := decidableEqMessage fields
    inferInstanceAs (DecidableEq (Option (List vtype.Value) × fields.Message))
  | list _ .bytes fields =>
    have := decidableEqMessage fields
    inferInstanceAs (DecidableEq (Option (List Bytes) × fields.Message))
  | struct _ vtype fields =>
    have := decidableEqMessage vtype
    have := decidableEqMessage fields
    inferInstanceAs (DecidableEq (Option vtype.Message × fields.Message))

/-- `{ENTITY_NAME}_alloc`: the fields with a default are there. -/
def alloc : (s : Struct) → s.Message
  | done => ()
  | int _ _ default fields => (default, fields.alloc)
  | bytes _ fields => (none, fields.alloc)
  | list _ _ fields => (none, fields.alloc)
  | struct _ _ fields => (none, fields.alloc)

def size : (s : Struct) → s.Message → Nat
  | done, _ => 0
  | int uid vtype _ fields, (value, msg) =>
    value.elim 0 (fun value => encodedFieldLength uid (vtype.intSize value) + vtype.intSize value) + fields.size msg
  | bytes uid fields, (value, msg) =>
    value.elim 0 (fun value => encodedFieldLength uid value.length + value.length) + fields.size msg
  | list _ _ fields, (_, msg) => fields.size msg
  | struct _ vtype fields, (value, msg) => value.elim 0 vtype.size + fields.size msg

def write : (s : Struct) → s.Message → Bytes
  | done, _ => []
  | int uid vtype _ fields, (value, msg) => value.elim [] (vtype.writeInt uid) ++ fields.write msg
  | bytes uid fields, (value, msg) => value.elim [] (writeFieldBytes uid) ++ fields.write msg
  | list uid vtype fields, (values, msg) =>
    values.elim [] (fun values => values.flatMap (vtype.writeItem uid)) ++ fields.write msg
  | struct uid vtype fields, (value, msg) =>
    value.elim [] (fun value => writeField uid (vtype.size value) ++ vtype.write value) ++ fields.write msg

end Struct

/-- The loop of `{ENTITY_NAME}_parse` around its `switch`, from the values of `total_length` and `r`,
for at most `fuel` fields. -/
def parseLoop {μ : Type} (vtable : ReaderMethods σ) (switch : Nat → Nat → μ → σ → Answer σ (Int × μ)) (size : Nat) :
    Nat → Nat → Int → μ → σ → Option (Option μ × σ)
  | 0, _, _, _, _ => none
  | fuel + 1, total, r, msg, self => do
    let (field, self) ← vtable.decodeField self
    match field with
    | none => some (if r = 0 then some msg else none, self)
    | some (_, fieldId, length) =>
      let (answer, self) ← switch fieldId length msg self
      match answer with
      | none => some (none, self)
      | some (r, msg) =>
        let total := (total + length) % 2 ^ 64
        if size ≤ total then some (if r = 0 then some msg else none, self)
        else parseLoop vtable switch size fuel total r msg self

namespace Struct

/-- The `switch` of `{ENTITY_NAME}_parse`: the new values of `r` and of the message. -/
def switch (vtable : ReaderMethods σ) (fuel : Nat) : (s : Struct) → Nat → Nat → s.Message → σ → Answer σ (Int × s.Message)
  | done, _, length, msg, self =>
    (vtable.skip length self).map (fun r => (if r.1 then some (-1, msg) else none, r.2))
  | int uid vtype _ fields, fieldId, length, (value, msg), self =>
    if fieldId = uid then
      if vtype.size < length then some (none, self)
      else (vtype.decodeInt vtable length self).map (fun value => (0, (some value, msg)))
    else (fields.switch vtable fuel fieldId length msg self).map (fun r => (r.1, (value, r.2)))
  | bytes uid fields, fieldId, length, (value, msg), self =>
    if fieldId = uid then
      if 1024 < length then some (none, self)
      else Answer.map (fun value => (0, (some value, msg))) (vtable.decodeBytes length self)
    else (fields.switch vtable fuel fieldId length msg self).map (fun r => (r.1, (value, r.2)))
  | list uid vtype fields, fieldId, length, (values, msg), self =>
    if fieldId = uid then
      if vtype.size < length then some (none, self)
      else (vtype.decodeItem vtable length self).map (fun value => (0, (some (values.getD [] ++ [value]), msg)))
    else (fields.switch vtable fuel fieldId length msg self).map (fun r => (r.1, (values, r.2)))
  | struct uid vtype fields, fieldId, length, (value, msg), self =>
    if fieldId = uid then
      Answer.map (fun value => (0, (some value, msg)))
        (parseLoop vtable (vtype.switch vtable fuel) length fuel 0 0 (value.getD vtype.alloc) self)
    else (fields.switch vtable fuel fieldId length msg self).map (fun r => (r.1, (value, r.2)))

/-- `{ENTITY_NAME}_parse`, an error for any result but 0. -/
def parse (vtable : ReaderMethods σ) (fuel : Nat) (s : Struct) (msg : s.Message) (self : σ) (size : Nat) :
    Answer σ s.Message :=
  parseLoop vtable (s.switch vtable fuel) size fuel 0 0 msg self

/-- A message that came from `alloc` and has values within the limits of `parse`. -/
def Valid : (s : Struct) → s.Message → Prop
  | done, _ => True
  | int _ _ default fields, (value, msg) => (value = none → default = none) ∧ fields.Valid msg
  | bytes _ fields, (value, msg) => (∀ data, value = some data → data.length ≤ 1024) ∧ fields.Valid msg
  | list _ .bytes fields, (values, msg) =>
    (∀ data ∈ values.getD [], data.length ≤ ItemType.size .bytes) ∧ fields.Valid msg
  | list _ (.int _) fields, (_, msg) => fields.Valid msg
  | struct _ vtype fields, (value, msg) => (∀ x, value = some x → vtype.Valid x) ∧ fields.Valid msg

end Struct

end RaleighSL.Compiler
