import RaleighSL.Client.Parsing

/-!
# Messages written by the client

A message that is written field by field, the dictionary of its values, and what the parser does
with the bytes of a message and with a part of them.
-/
namespace RaleighSL.Client
open Zcl (Byte Bytes)
open Library (Yields)

inductive Content
  | uint (n : Nat)
  | int (n : Int)
  | bytes (b : Bytes)
  | string (b : Bytes)
  | struct (message : List (Nat × Content))

abbrev Message := List (Nat × Content)

def encodeFieldBytes (field : Nat) (value : Bytes) : Option Bytes :=
  (encodeField field value.length).map (fun header => header ++ value)

mutual
/-- A field of a message, none where an assertion fails: a message in a field is written as bytes. -/
def encodeContent (field : Nat) : Content → Option Bytes
  | .uint n => encodeFieldUint field n
  | .int n => encodeFieldInt field n
  | .bytes b => encodeFieldBytes field b
  | .string b => encodeFieldBytes field b
  | .struct message => (encodeMessage message).bind (encodeFieldBytes field)

def encodeMessage : List (Nat × Content) → Option Bytes
  | [] => some []
  | (field, content) :: message =>
    (encodeContent field content).bind (fun first => (encodeMessage message).map (fun rest => first ++ rest))
end

/-- The content is one for the decoder, and its value or its length fits in 64 bits. -/
def Decoder.Takes : Decoder → Content → Prop
  | .uint, .uint n => n < 2 ^ 64
  | .int, .int n => -2 ^ 63 ≤ n ∧ n < 2 ^ 63
  | .bytes, .bytes b => b.length < 2 ^ 64
  | .string, .string b => b.length < 2 ^ 64
  | _, _ => False

mutual
/-- The content is of the type, and a message in a field has less than 2 ^ 64 bytes. -/
def Fits : FieldType → Content → Prop
  | .struct fields, .struct message =>
    FitsAll fields message ∧ ∀ data, encodeMessage message = some data → data.length < 2 ^ 64
  | .struct _, _ => False
  | .scalar decoder, content => decoder.Takes content
  | .list decoder, content => decoder.Takes content

/-- The fields of a message are in the table, with ids that fit in 16 bits. -/
def FitsAll (fields : Fields) : List (Nat × Content) → Prop
  | [] => True
  | (field, content) :: message =>
    (field < 2 ^ 16 ∧ ∃ name type, fields.get field = some (name, type) ∧ Fits type content) ∧ FitsAll fields message
end

/-- The value of a name for the contents that are there: all of them of a list, else the last one. -/
def collect (type : FieldType) (found : List Value) : Option Value :=
  match type, found with
  | .list _, [] => none
  | .list _, found => some (.list found)
  | _, found => found.getLast?

mutual
def value : FieldType → Content → Value
  | _, .uint n => .number n
  | _, .int n => .number n
  | _, .bytes b => .bytes b
  | _, .string b => .string b
  | .struct fields, .struct message =>
    .struct (fun name => (Fields.named fields name).bind (fun entry => collect entry.2.2 (valuesOf entry.2.2 entry.1 message)))
  | _, .struct _ => .struct Values.empty

def valuesOf (type : FieldType) (field : Nat) : List (Nat × Content) → List Value
  | [] => []
  | (other, content) :: message =>
    if other = field then value type content :: valuesOf type field message else valuesOf type field message
end

def record (fields : Fields) (message : Message) : Values :=
  fun name => (Fields.named fields name).bind (fun entry => collect entry.2.2 (valuesOf entry.2.2 entry.1 message))

theorem value_struct (fields : Fields) (message : Message) :
    value (.struct fields) (.struct message) = .struct (record fields message) := by
  rw [value]
  rfl

/-! ### What is written -/

variable {fields : Fields} {field length : Nat} {name : String} {type : FieldType} {decoder : Decoder} {content : Content}
  {message : Message} {data header part : Bytes} {values : Values}

theorem decodeField_encodeField (hid : field < 2 ^ 16) (hlength : length < 2 ^ 64)
    (h : encodeField field length = some header) (rest : Bytes) :
    decodeField (header ++ rest) = some (some (header.length, field, length)) := by
  have hpos : 0 < length := by
    by_contra hzero
    rw [encodeField, if_neg hzero] at h
    cases h
  rw [encodeField_eq hid hlength hpos, Option.some.injEq] at h
  subst h
  rw [decodeField_eq, Zcl.Coding.decodeField_encodeField hid hlength hpos (by simp)]
  rfl

/-- The bytes of a content behind the header of its field. -/
def body : Content → Option Bytes
  | .uint n => some (encodeUint (uintBytes n) n)
  | .int n => some (encodeUint (uintBytes (encodeZigzag n).toNat) (encodeZigzag n).toNat)
  | .bytes b => some b
  | .string b => some b
  | .struct message => encodeMessage message

theorem encodeContent_eq (field : Nat) (content : Content) :
    encodeContent field content = (body content).bind (encodeFieldBytes field) := by
  have hlen : ∀ n, (encodeUint (uintBytes n) n).length = uintBytes n := by simp [encodeUint]
  cases content with
  | uint n => simp [encodeContent, body, encodeFieldUint, encodeFieldBytes, hlen]
  | int n => simp [encodeContent, body, encodeFieldInt, encodeFieldUint, encodeFieldBytes, hlen]
  | bytes b => rfl
  | string b => rfl
  | struct message => rfl

theorem encodeZigzag_lt {n : Int} (hlow : -2 ^ 63 ≤ n) (hhigh : n < 2 ^ 63) : (encodeZigzag n).toNat < 2 ^ 64 := by
  rw [encodeZigzag_eq hlow hhigh]
  split_ifs <;> omega

theorem decodeUint_encodeUint {n : Nat} (h : n < 2 ^ 64) (rest : Bytes) :
    decodeUint (encodeUint (uintBytes n) n ++ rest) (uintBytes n) = some n := by
  have hle := Zcl.Coding.uint64Size_le n
  rw [uintBytes_eq, decodeUint_eq hle, encodeUint_eq hle]
  exact Zcl.Coding.decodeUint_encodeUint (Zcl.Coding.uint64Size_minimal h).2.1 rest

theorem length_encodeUint (n : Nat) : (encodeUint (uintBytes n) n).length = uintBytes n := by simp [encodeUint]

theorem decode_body (htakes : decoder.Takes content) (hpart : body content = some part) (type : FieldType)
    (rest : Bytes) : decoder.decode (part ++ rest) part.length = some (value type content) := by
  cases content with
  | struct message => cases decoder <;> exact htakes.elim
  | uint n =>
    obtain rfl := Option.some.inj hpart
    cases decoder with
    | uint =>
      rw [Decoder.decode, length_encodeUint, decodeUint_encodeUint htakes]
      simp [value]
    | int | bytes | string => exact htakes.elim
  | int n =>
    obtain rfl := Option.some.inj hpart
    cases decoder with
    | int =>
      obtain ⟨hlow, hhigh⟩ := htakes
      rw [Decoder.decode, length_encodeUint, decodeInt, decodeUint_encodeUint (encodeZigzag_lt hlow hhigh), Option.map_some,
        decodeZigzag_encodeZigzag hlow hhigh]
      simp [value]
    | uint | bytes | string => exact htakes.elim
  | bytes b =>
    obtain rfl := Option.some.inj hpart
    cases decoder with
    | bytes => simp [Decoder.decode, value]
    | uint | int | string => exact htakes.elim
  | string b =>
    obtain rfl := Option.some.inj hpart
    cases decoder with
    | string => simp [Decoder.decode, value]
    | uint | int | bytes => exact htakes.elim

theorem length_body_lt (hfits : Fits type content) (hpart : body content = some part) : part.length < 2 ^ 64 := by
  have hscalar : ∀ decoder : Decoder, decoder.Takes content → part.length < 2 ^ 64 := by
    intro decoder htakes
    have hsize := fun n => Zcl.Coding.uint64Size_le n
    cases content with
    | struct message => cases decoder <;> exact htakes.elim
    | uint n =>
      obtain rfl := Option.some.inj hpart
      rw [length_encodeUint, uintBytes_eq]
      exact Nat.lt_of_le_of_lt (hsize n) (by decide)
    | int n =>
      obtain rfl := Option.some.inj hpart
      rw [length_encodeUint, uintBytes_eq]
      exact Nat.lt_of_le_of_lt (hsize _) (by decide)
    | bytes b =>
      obtain rfl := Option.some.inj hpart
      cases decoder with
      | bytes => exact htakes
      | uint | int | string => exact htakes.elim
    | string b =>
      obtain rfl := Option.some.inj hpart
      cases decoder with
      | string => exact htakes
      | uint | int | bytes => exact htakes.elim
  cases type with
  | scalar decoder => exact hscalar decoder (by rwa [Fits] at hfits)
  | list decoder => exact hscalar decoder (by rwa [Fits] at hfits)
  | struct fields =>
    cases content with
    | struct message =>
      rw [Fits] at hfits
      exact hfits.2 part hpart
    | uint n | int n | bytes b | string b =>
      rw [Fits] at hfits
      · exact hfits.elim
      · simp

theorem encodeMessage_cons (h : encodeMessage ((field, content) :: message) = some data) :
    ∃ header part rest, data = header ++ (part ++ rest) ∧ encodeField field part.length = some header ∧
      body content = some part ∧ encodeMessage message = some rest := by
  rw [encodeMessage, encodeContent_eq] at h
  obtain ⟨first, hfirst, hdata⟩ := Option.bind_eq_some_iff.mp h
  obtain ⟨part, hpart, hbytes⟩ := Option.bind_eq_some_iff.mp hfirst
  obtain ⟨header, hheader, rfl⟩ := Option.map_eq_some_iff.mp hbytes
  obtain ⟨rest, hrest, rfl⟩ := Option.map_eq_some_iff.mp hdata
  exact ⟨header, part, rest, List.append_assoc .., hheader, hpart, hrest⟩

/-! ### The dictionary of a message -/

open FieldStruct

theorem valuesOf_append (type : FieldType) (field : Nat) (first second : Message) :
    valuesOf type field (first ++ second) = valuesOf type field first ++ valuesOf type field second := by
  induction first with
  | nil => simp [valuesOf]
  | cons entry first ih =>
    obtain ⟨other, content⟩ := entry
    rw [List.cons_append, valuesOf, valuesOf, ih]
    split <;> rfl

theorem record_nil : record fields [] = .empty := by
  funext name
  rw [record]
  cases fields.named name with
  | none => rfl
  | some entry =>
    obtain ⟨field, name', type⟩ := entry
    cases type <;> rfl

theorem record_of_get (hproper : Proper fields) (hget : fields.get field = some (name, type)) :
    record fields message name = collect type (valuesOf type field message) := by
  rw [record, (Fields.named_iff hproper).mpr hget]
  rfl

/-- One more field changes the value of its name. -/
theorem record_concat (hproper : Proper fields) (hget : fields.get field = some (name, type)) :
    record fields (message ++ [(field, content)]) = assign (record fields message) name type (value type content) := by
  have hlast : valuesOf type field (message ++ [(field, content)]) = valuesOf type field message ++ [value type content] := by
    rw [valuesOf_append, valuesOf, if_pos rfl, valuesOf]
  have hsame : assign (record fields message) name type (value type content) name =
      collect type (valuesOf type field message ++ [value type content]) := by
    have hold : record fields message name = collect type (valuesOf type field message) := record_of_get hproper hget
    cases type with
    | scalar decoder => simp [assign, Values.put, collect]
    | struct inner => simp [assign, Values.put, collect]
    | list decoder =>
      have hmembers : (record fields message).members name = valuesOf (.list decoder) field message := by
        rw [Values.members, hold]
        cases valuesOf (.list decoder) field message <;> rfl
      rw [assign, hmembers, Values.put, Function.update_self]
      cases valuesOf (.list decoder) field message <;> rfl
  funext name'
  by_cases hname : name' = name
  · subst hname
    rw [record_of_get hproper hget, hlast, hsame]
  · have hother : assign (record fields message) name type (value type content) name' = record fields message name' := by
      cases type <;> exact Function.update_of_ne hname ..
    rw [hother, record, record]
    cases hnamed : fields.named name' with
    | none => rfl
    | some entry =>
      obtain ⟨field', found, type'⟩ := entry
      have hfound := List.find?_some hnamed
      simp only [decide_eq_true_eq] at hfound
      subst hfound
      have hne : field ≠ field' := by
        rintro rfl
        have hget' := (Fields.named_iff hproper).mp hnamed
        rw [hget] at hget'
        simp only [Option.some.injEq, Prod.mk.injEq] at hget'
        exact hname hget'.1.symm
      simp only [Option.bind_some]
      rw [valuesOf_append, valuesOf, if_neg hne, valuesOf, List.append_nil]

theorem tidy_record (hproper : Proper fields) (message : Message) : Tidy fields (record fields message) := by
  intro field name decoder hget
  rw [record_of_get hproper hget]
  cases valuesOf (.list decoder) field message with
  | nil => exact .inl rfl
  | cons first found => exact .inr ⟨first :: found, rfl⟩

theorem parseFrom_encodeMessage (hproper : Proper fields) (hfits : FitsAll fields message)
    (h : encodeMessage message = some data) (before : Message) :
    Yields (fun fuel => parseFrom fuel fields data (record fields before)) (some (record fields (before ++ message))) := by
  induction hn : data.length using Nat.strongRecOn generalizing data message fields before with
  | ind n ih =>
    subst hn
    cases message with
    | nil =>
      obtain rfl : [] = data := Option.some.inj h
      refine ⟨1, fun fuel hfuel => ?_⟩
      obtain ⟨fuel, rfl⟩ : ∃ k, fuel = k + 1 := ⟨fuel - 1, by omega⟩
      rw [List.append_nil]
      exact parseFrom_nil fuel
    | cons entry message =>
      obtain ⟨field, content⟩ := entry
      rw [FitsAll] at hfits
      obtain ⟨⟨hid, name, type, hget, hcontent⟩, hmessage⟩ := hfits
      obtain ⟨header, part, rest, rfl, hheader, hpart, hrest⟩ := encodeMessage_cons h
      have hfield := decodeField_encodeField hid (length_body_lt hcontent hpart) hheader (part ++ rest)
      have hone := (elength_le hfield).1
      have hlen : rest.length < (header ++ (part ++ rest)).length := by
        simp only [List.length_append]
        omega
      have hlast : record fields (before ++ [(field, content)]) =
          assign (record fields before) name type (value type content) := record_concat hproper hget
      have hnext := ih _ hlen hproper hmessage hrest (before ++ [(field, content)]) rfl
      rw [List.append_assoc, List.singleton_append, hlast] at hnext
      have hdrop : (header ++ (part ++ rest)).drop header.length = part ++ rest := List.drop_left
      have hbehind : ((header ++ (part ++ rest)).drop header.length).drop part.length = rest := by
        rw [hdrop, List.drop_left]
      cases htype : type.decoder with
      | some decoder =>
        have htakes : decoder.Takes content := by
          cases type with
          | scalar decoder' =>
            obtain rfl : decoder' = decoder := Option.some.inj htype
            rwa [Fits] at hcontent
          | list decoder' =>
            obtain rfl : decoder' = decoder := Option.some.inj htype
            rwa [Fits] at hcontent
          | struct inner => cases htype
        refine hnext.step (fun fuel => ?_)
        have hvalue := decode_body htakes hpart type rest
        rw [← hdrop] at hvalue
        rw [parseFrom_field hfield (store_value (tidy_record hproper before) hget htype hvalue _), hbehind]
      | none =>
        cases type with
        | scalar decoder => cases htype
        | list decoder => cases htype
        | struct inner =>
          obtain ⟨inside, rfl⟩ : ∃ inside, content = .struct inside := by
            cases content with
            | struct inside => exact ⟨inside, rfl⟩
            | uint n | int n | bytes b | string b => simp [Fits] at hcontent
          rw [Fits] at hcontent
          have hshort : part.length < (header ++ (part ++ rest)).length := by
            simp only [List.length_append]
            omega
          have hinner := ih _ hshort (Fields.proper_inner hproper hget) hcontent.1 hpart [] rfl
          rw [record_nil, List.nil_append] at hinner
          rw [value_struct] at hnext
          rw [← hbehind] at hnext
          refine yields_struct hfield hget ?_ hnext
          rw [hdrop, List.take_left]
          exact hinner

/-! ### The bytes that the parser gets -/

def Parses (table : FieldTable) (data : Bytes) (result : Option Values) : Prop :=
  Yields (fun fuel => parse fuel data table.fields) result

/-- The bytes are a part of a message from its start, and not a message. -/
def Truncated (fields : Fields) (data : Bytes) : Prop :=
  (∃ message rest, FitsAll fields message ∧ encodeMessage message = some (data ++ rest)) ∧
    ∀ message, FitsAll fields message → encodeMessage message ≠ some data

/-- The parser ends; on a message with its values, and on a part of a message with an error. -/
def ParsesRight (table : FieldTable) (data : Bytes) : Prop :=
  (∃ result, Parses table data result) ∧
  (∀ message, FitsAll table.fields message → encodeMessage message = some data →
    Parses table data (some (record table.fields message))) ∧
  (Truncated table.fields data → Parses table data none)

theorem parses_of_ends (table : FieldTable) {ending : Ending} (h : Ends table.fields data ending) :
    ending.Outcome (fun fuel => parse fuel data table.fields) :=
  parseFrom_of_ends h table.proper tidy_empty

theorem parses_message (table : FieldTable) (hfits : FitsAll table.fields message) (h : encodeMessage message = some data) :
    Parses table data (some (record table.fields message)) := by
  have hparse := parseFrom_encodeMessage table.proper hfits h []
  rw [record_nil, List.nil_append] at hparse
  exact hparse

theorem terminates_iff (table : FieldTable) (data : Bytes) :
    (∃ result, Parses table data result) ↔ ¬ Ends table.fields data .header := by
  constructor
  · rintro ⟨result, n, hn⟩ hheader
    have hloop := parses_of_ends table hheader n
    rw [hn n (Nat.le_refl n)] at hloop
    cases hloop
  · intro hheader
    obtain ⟨ending, hends⟩ := exists_ends data table.fields
    cases ending with
    | whole =>
      obtain ⟨values, hvalues⟩ := parses_of_ends table hends
      exact ⟨some values, hvalues⟩
    | number => exact ⟨none, parses_of_ends table hends⟩
    | header => exact absurd hends hheader

theorem raises_iff (table : FieldTable) (data : Bytes) : Parses table data none ↔ Ends table.fields data .number := by
  constructor
  · intro hnone
    obtain ⟨ending, hends⟩ := exists_ends data table.fields
    cases ending with
    | whole =>
      obtain ⟨values, hvalues⟩ := parses_of_ends table hends
      cases hvalues.unique hnone
    | number => exact hends
    | header => exact absurd hends ((terminates_iff table data).mp ⟨none, hnone⟩)
  · exact fun h => parses_of_ends table h

/-- The parser does what it should with the bytes that do not end with the start of a header, and
where they are a part of a message, with a number whose last bytes are missing. -/
theorem parses_right_iff (table : FieldTable) (data : Bytes) :
    ParsesRight table data ↔
      ¬ Ends table.fields data .header ∧ (Truncated table.fields data → Ends table.fields data .number) := by
  rw [ParsesRight, terminates_iff, raises_iff]
  constructor
  · rintro ⟨hends, -, hcut⟩
    exact ⟨hends, hcut⟩
  · rintro ⟨hends, hcut⟩
    exact ⟨hends, fun message hfits h => parses_message table hfits h, hcut⟩

def valueTable : FieldTable where
  fields := [(1, "value", .scalar .bytes)]
  proper := .intro (by decide) (by decide) (fun h => by simp at h)

/-- On the first byte of a value of nine bytes the parser does not end. -/
theorem first_byte_loops :
    encodeMessage [(1, .bytes [1, 2, 3, 4, 5, 6, 7, 8, 9])] = some ([0x83] ++ [9, 1, 2, 3, 4, 5, 6, 7, 8, 9]) ∧
      ¬ ParsesRight valueTable [0x83] := by
  have hloop : ∀ fuel, parseFrom fuel valueTable.fields [0x83] .empty = none := by
    intro fuel
    induction fuel with
    | zero => rfl
    | succ fuel ih =>
      have hcut : parseFrom (fuel + 1) valueTable.fields ([] ++ [0x83]) .empty = parseFrom fuel valueTable.fields [0x83] .empty :=
        parseFrom_cut (by decide) fuel
      exact hcut.trans ih
  refine ⟨by decide, fun h => ?_⟩
  obtain ⟨⟨result, n, hn⟩, -⟩ := h
  have hnone : parse n [0x83] valueTable.fields = some result := hn n (Nat.le_refl n)
  rw [parse, hloop] at hnone
  cases hnone

end RaleighSL.Client
