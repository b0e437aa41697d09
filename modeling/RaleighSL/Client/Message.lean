import RaleighSL.Client.Signed
import RaleighSL.Library.Fuel

/-!
# Messages in the client

`FieldStruct.parse` of `raleigh-client/pyraleigh/raleigh/ipc_client.py`: the fields of a message
are read one after the other, and a table says how the value of a field is read. A field that is
not in the table is skipped.
-/
namespace RaleighSL.Client
open Zcl (Byte Bytes)
open Library (Yields)

inductive Decoder
  | uint
  | int
  | bytes
  | string
deriving DecidableEq, Repr

/-- The type of a field: a value, a list of values in fields of their own, or a message. -/
inductive FieldType
  | scalar (decoder : Decoder)
  | list (decoder : Decoder)
  | struct (fields : List (Nat × String × FieldType))

/-- A dictionary of fields: the id, the name and the type of each. -/
abbrev Fields := List (Nat × String × FieldType)

def Fields.get (fields : Fields) (field : Nat) : Option (String × FieldType) :=
  (fields.find? (fun entry => entry.1 = field)).map Prod.snd

/-- What is read: both integer decoders give an integer. -/
inductive Value
  | number (n : Int)
  | bytes (b : Bytes)
  | string (b : Bytes)
  | list (values : List Value)
  | struct (values : String → Option Value)

/-- The dictionary of the values by their names. -/
abbrev Values := String → Option Value

namespace Values

def empty : Values := fun _ => none

def put (values : Values) (name : String) (value : Value) : Values := Function.update values name (some value)

/-- `values.setdefault(name, []).append(value)`, none where the name does not have a list. -/
def append (values : Values) (name : String) (value : Value) : Option Values :=
  match values name with
  | none => some (values.put name (.list [value]))
  | some (.list members) => some (values.put name (.list (members ++ [value])))
  | some _ => none

end Values

/-- The function `z_decode_` with the name of the decoder, none for an index error. -/
def Decoder.decode (decoder : Decoder) (data : Bytes) (length : Nat) : Option Value :=
  match decoder with
  | .uint => (decodeUint data length).map (fun n : Nat => .number n)
  | .int => (decodeInt data length).map .number
  | .bytes => some (.bytes (data.take length))
  | .string => some (.string (data.take length))

namespace FieldStruct

/-- The body of the loop behind a header: the values with the one of the field. -/
def store (parse : Fields → Bytes → Option (Option Values)) (fields : Fields) (field : Nat) (data : Bytes)
    (length : Nat) (values : Values) : Option (Option Values) :=
  match fields.get field with
  | none => some (some values)
  | some (name, .struct inner) =>
    (parse inner (data.take length)).map (fun found => found.map (fun members => values.put name (.struct members)))
  | some (name, .list decoder) => some ((decoder.decode data length).bind (values.append name))
  | some (name, .scalar decoder) => some ((decoder.decode data length).map (values.put name))

/-- The loop of `parse` with its local values, none where it has not ended within `fuel` steps and
some none for an error. A part of a header has the length -1, which leaves the last byte of the
data, and no id and no length, which leaves all of that. -/
def parseFrom : Nat → Fields → Bytes → Values → Option (Option Values)
  | 0, _, _, _ => none
  | fuel + 1, fields, data, values =>
    if data = [] then some (some values)
    else
      match decodeField data with
      | none => some none
      | some none => parseFrom fuel fields (data.drop (data.length - 1)) values
      | some (some (elength, field, length)) =>
        match store (fun inner part => parseFrom fuel inner part .empty) fields field (data.drop elength) length values with
        | some (some values) => parseFrom fuel fields ((data.drop elength).drop length) values
        | other => other

def parse (fuel : Nat) (data : Bytes) (fields : Fields) : Option (Option Values) := parseFrom fuel fields data .empty

end FieldStruct

/-- The names of the fields of one message are different, and so are their ids. -/
inductive Proper : Fields → Prop
  | intro {fields : Fields} (hids : (fields.map Prod.fst).Nodup) (hnames : (fields.map (fun entry => entry.2.1)).Nodup)
      (hinner : ∀ {field name inner}, (field, name, .struct inner) ∈ fields → Proper inner) : Proper fields

structure FieldTable where
  fields : Fields
  proper : Proper fields

namespace Fields

variable {fields : Fields} {field other : Nat} {name : String} {type type' : FieldType}

theorem mem_of_get (h : fields.get field = some (name, type)) : (field, name, type) ∈ fields := by
  obtain ⟨⟨found, entry⟩, hfind, hentry⟩ := Option.map_eq_some_iff.mp h
  have hid := List.find?_some hfind
  have hmem := List.mem_of_find?_eq_some hfind
  simp only [decide_eq_true_eq] at hid hentry
  rw [← hid, ← hentry]
  exact hmem

theorem find?_of_nodup {κ : Type} [DecidableEq κ] (key : Nat × String × FieldType → κ)
    (hkeys : (fields.map key).Nodup) {entry : Nat × String × FieldType} (h : entry ∈ fields) :
    fields.find? (fun entry' => key entry' = key entry) = some entry := by
  induction fields with
  | nil => cases h
  | cons first fields ih =>
    rw [List.map_cons, List.nodup_cons] at hkeys
    rcases List.mem_cons.mp h with heq | hmem
    · subst heq
      simp
    · have hne : key first ≠ key entry := by
        intro heq
        rw [heq] at hkeys
        exact hkeys.1 (List.mem_map_of_mem hmem)
      rw [List.find?_cons_of_neg (by simpa using hne)]
      exact ih hkeys.2 hmem

theorem get_of_mem (hproper : Proper fields) (h : (field, name, type) ∈ fields) : fields.get field = some (name, type) := by
  obtain ⟨hids, -, -⟩ := hproper
  rw [Fields.get, find?_of_nodup Prod.fst hids h]
  rfl

def named (fields : Fields) (name : String) : Option (Nat × String × FieldType) :=
  fields.find? (fun entry => entry.2.1 = name)

theorem named_iff (hproper : Proper fields) :
    fields.named name = some (field, name, type) ↔ fields.get field = some (name, type) := by
  constructor
  · exact fun h => get_of_mem hproper (List.mem_of_find?_eq_some h)
  · intro h
    have hmem := mem_of_get h
    obtain ⟨-, hnames, -⟩ := hproper
    exact find?_of_nodup (fun entry => entry.2.1) hnames hmem

theorem get_inj (hproper : Proper fields) (h : fields.get field = some (name, type))
    (h' : fields.get other = some (name, type')) : field = other ∧ type = type' := by
  have hnamed := (named_iff hproper).mpr h
  rw [(named_iff hproper).mpr h'] at hnamed
  simp only [Option.some.injEq, Prod.mk.injEq] at hnamed
  exact ⟨hnamed.1.symm, hnamed.2.2.symm⟩

theorem proper_inner {inner : Fields} (hproper : Proper fields) (h : fields.get field = some (name, .struct inner)) :
    Proper inner := by
  obtain ⟨-, -, hinner⟩ := hproper
  exact hinner (mem_of_get h)

end Fields

end RaleighSL.Client
