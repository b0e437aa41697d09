import RaleighSL.Client.Message

/-!
# Reading messages in the client

A message that is read back as it was written, and the ways in which bytes end: behind a field,
before the last byte of a number, or inside a header. The parser ends on the first two.
-/
namespace RaleighSL.Client
open Zcl (Byte Bytes)
open Library (Yields)

/-! ### Headers -/

theorem decodeField_ne_none {data : Bytes} (h : data ≠ []) : decodeField data ≠ none := by
  cases data with
  | nil => exact absurd rfl h
  | cons head data =>
    have hid : ∀ {elength flen length : Nat},
        decodeFieldId (head :: data) elength flen length ≠ none := by
      intro elength flen length
      rw [decodeFieldId]
      split_ifs with hhead hshort
      · simp
      · simp
      · have hle : min (flen + 1) 8 ≤ ((head :: data).drop elength).length := by
          rw [List.length_drop]
          omega
        rw [decodeUint, if_pos hle]
        simp
    rw [decodeField]
    split_ifs with hext hshort
    · simp
    · have hle : min (1 + Zcl.Coding.fetchBits head 3 4) 8 ≤ data.length := by
        rw [List.length_cons] at hshort
        omega
      rw [decodeUint, if_pos hle, Option.bind_some]
      exact hid
    · exact hid

theorem elength_le {data : Bytes} {elength field length : Nat} (h : decodeField data = some (some (elength, field, length))) :
    1 ≤ elength ∧ elength ≤ data.length := by
  rw [decodeField_eq, Option.map_eq_some_iff] at h
  obtain ⟨result, hresult, hok⟩ := h
  cases result with
  | error n => cases hok
  | ok triple =>
    obtain rfl : triple = (elength, field, length) := Option.some.inj hok
    have hpos : 0 < data.length := by
      cases data with
      | nil => cases hresult
      | cons head data => simp
    obtain ⟨hleast, hle⟩ := Zcl.Coding.leastFieldLength_le hpos hresult
    have hone : 0 < Zcl.Coding.encodedFieldLength field length := Zcl.Coding.encodedFieldLength_pos ..
    rw [Zcl.Coding.leastFieldLength] at hleast
    exact ⟨by omega, hle⟩

/-! ### The ends of bytes -/

/-- The bytes that a value needs: the others are read as far as they are there. -/
def Decoder.needs (decoder : Decoder) (length : Nat) : Nat :=
  match decoder with
  | .uint | .int => min length 8
  | .bytes | .string => 0

theorem Decoder.decode_isSome_iff (decoder : Decoder) (data : Bytes) (length : Nat) :
    (decoder.decode data length).isSome ↔ decoder.needs length ≤ data.length := by
  cases decoder <;> simp [Decoder.decode, Decoder.needs, decodeInt, decodeUint]

/-- The decoder of a field that is not a message. -/
def FieldType.decoder : FieldType → Option Decoder
  | .scalar decoder | .list decoder => some decoder
  | .struct _ => none

/-- Where bytes end: behind a field, before all the bytes of a number, or with a byte that is the
start of a header and nothing more. -/
inductive Ending
  | whole
  | number
  | header
deriving DecidableEq, Repr

/-- The bytes of a message end so. Of a part of a header the last byte counts, as the start of
another header; a message in a field ends where the bytes of the field do. -/
inductive Ends : Fields → Bytes → Ending → Prop
  | nil {fields : Fields} : Ends fields [] .whole
  | header {fields : Fields} {b : Byte} (hcut : decodeField [b] = some none) : Ends fields [b] .header
  | last {fields : Fields} {data : Bytes} {b : Byte} {ending : Ending} (hcut : decodeField (data ++ [b]) = some none)
      (hne : data ≠ []) (hlast : Ends fields [b] ending) : Ends fields (data ++ [b]) ending
  | unknown {fields : Fields} {data : Bytes} {elength field length : Nat} {ending : Ending}
      (hfield : decodeField data = some (some (elength, field, length))) (hget : fields.get field = none)
      (hnext : Ends fields ((data.drop elength).drop length) ending) : Ends fields data ending
  | value {fields : Fields} {data : Bytes} {elength field length : Nat} {name : String} {type : FieldType}
      {decoder : Decoder} {ending : Ending} (hfield : decodeField data = some (some (elength, field, length)))
      (hget : fields.get field = some (name, type)) (htype : type.decoder = some decoder)
      (hall : decoder.needs length ≤ (data.drop elength).length)
      (hnext : Ends fields ((data.drop elength).drop length) ending) : Ends fields data ending
  | number {fields : Fields} {data : Bytes} {elength field length : Nat} {name : String} {type : FieldType}
      {decoder : Decoder} (hfield : decodeField data = some (some (elength, field, length)))
      (hget : fields.get field = some (name, type)) (htype : type.decoder = some decoder)
      (hshort : (data.drop elength).length < decoder.needs length) : Ends fields data .number
  | struct {fields inner : Fields} {data : Bytes} {elength field length : Nat} {name : String} {ending : Ending}
      (hfield : decodeField data = some (some (elength, field, length)))
      (hget : fields.get field = some (name, .struct inner))
      (hinner : Ends inner ((data.drop elength).take length) .whole)
      (hnext : Ends fields ((data.drop elength).drop length) ending) : Ends fields data ending
  | inner {fields inner : Fields} {data : Bytes} {elength field length : Nat} {name : String} {ending : Ending}
      (hfield : decodeField data = some (some (elength, field, length)))
      (hget : fields.get field = some (name, .struct inner))
      (hinner : Ends inner ((data.drop elength).take length) ending) (hstop : ending ≠ .whole) : Ends fields data ending

/-- All bytes end in one of the three ways. -/
theorem exists_ends (data : Bytes) (fields : Fields) : ∃ ending, Ends fields data ending := by
  induction hn : data.length using Nat.strongRecOn generalizing data fields with
  | ind n ih =>
    subst hn
    by_cases hnil : data = []
    · subst hnil
      exact ⟨.whole, .nil⟩
    cases hfield : decodeField data with
    | none => exact absurd hfield (decodeField_ne_none hnil)
    | some result =>
      cases result with
      | none =>
        obtain ⟨data, b, rfl⟩ : ∃ init b, data = init ++ [b] :=
          ⟨data.dropLast, data.getLast hnil, (List.dropLast_append_getLast hnil).symm⟩
        by_cases hinit : data = []
        · subst hinit
          exact ⟨.header, .header hfield⟩
        · have hpos := List.length_pos_iff.mpr hinit
          obtain ⟨ending, hlast⟩ := ih 1 (by simpa using hpos) [b] fields rfl
          exact ⟨ending, .last hfield hinit hlast⟩
      | some triple =>
        obtain ⟨elength, field, length⟩ := triple
        obtain ⟨hone, hle⟩ := elength_le hfield
        have hdrop : (data.drop elength).length < data.length := by
          rw [List.length_drop]
          omega
        have hrest : ((data.drop elength).drop length).length < data.length := by
          rw [List.length_drop]
          omega
        have hpart : ((data.drop elength).take length).length < data.length := by
          rw [List.length_take]
          omega
        obtain ⟨ending, hnext⟩ := ih _ hrest _ fields rfl
        cases hget : fields.get field with
        | none => exact ⟨ending, .unknown hfield hget hnext⟩
        | some entry =>
          obtain ⟨name, type⟩ := entry
          cases htype : type.decoder with
          | some decoder =>
            by_cases hall : decoder.needs length ≤ (data.drop elength).length
            · exact ⟨ending, .value hfield hget htype hall hnext⟩
            · exact ⟨.number, .number hfield hget htype (Nat.lt_of_not_le hall)⟩
          | none =>
            cases type with
            | scalar decoder => cases htype
            | list decoder => cases htype
            | struct inner =>
              obtain ⟨stop, hinner⟩ := ih _ hpart _ inner rfl
              by_cases hstop : stop = .whole
              · subst hstop
                exact ⟨ending, .struct hfield hget hinner hnext⟩
              · exact ⟨stop, .inner hfield hget hinner hstop⟩

/-! ### The parser on the ends of bytes -/

/-- What a run of the parser comes to, for the bytes that end so. -/
def Ending.Outcome (ending : Ending) (run : Nat → Option (Option Values)) : Prop :=
  match ending with
  | .whole => ∃ values, Yields run (some values)
  | .number => Yields run none
  | .header => ∀ fuel, run fuel = none

theorem Ending.Outcome.step {ending : Ending} {run next : Nat → Option (Option Values)} (hzero : run 0 = none)
    (hstep : ∀ fuel, run (fuel + 1) = next fuel) (h : ending.Outcome next) : ending.Outcome run := by
  cases ending with
  | whole =>
    obtain ⟨values, hvalues⟩ := h
    exact ⟨values, hvalues.step hstep⟩
  | number => exact Yields.step hstep h
  | header =>
    intro fuel
    cases fuel with
    | zero => exact hzero
    | succ fuel => exact (hstep fuel).trans (h fuel)

/-- Where a table has a list, the dictionary has no other value. -/
def Tidy (fields : Fields) (values : Values) : Prop :=
  ∀ field name decoder, fields.get field = some (name, .list decoder) →
    values name = none ∨ ∃ members, values name = some (.list members)

variable {fields inner : Fields} {data : Bytes} {values : Values} {elength field length : Nat} {name : String}
  {type : FieldType} {decoder : Decoder}

theorem tidy_empty : Tidy fields .empty := fun _ _ _ _ => .inl rfl

theorem Tidy.put (h : Tidy fields values) (hproper : Proper fields) (hget : fields.get field = some (name, type))
    {value : Value} (hvalue : ∀ decoder, type = .list decoder → ∃ members, value = .list members) :
    Tidy fields (values.put name value) := by
  intro other name' decoder hother
  by_cases hname : name' = name
  · subst hname
    obtain ⟨-, rfl⟩ := Fields.get_inj hproper hget hother
    obtain ⟨members, rfl⟩ := hvalue decoder rfl
    exact .inr ⟨members, Function.update_self ..⟩
  · rw [Values.put, Function.update_of_ne hname]
    exact h other name' decoder hother

/-- The list of a name, empty where there is none. -/
def Values.members (values : Values) (name : String) : List Value :=
  match values name with
  | some (.list members) => members
  | _ => []

theorem Tidy.append (h : Tidy fields values) (hget : fields.get field = some (name, .list decoder)) (value : Value) :
    values.append name value = some (values.put name (.list (values.members name ++ [value]))) := by
  rcases h field name decoder hget with hnone | ⟨members, hsome⟩
  · rw [Values.append, Values.members, hnone]
    rfl
  · rw [Values.append, Values.members, hsome]

namespace FieldStruct

theorem parseFrom_nil (fuel : Nat) : parseFrom (fuel + 1) fields [] values = some (some values) := by
  rw [parseFrom, if_pos rfl]

/-- A part of a header leaves the last byte. -/
theorem parseFrom_cut {b : Byte} (hcut : decodeField (data ++ [b]) = some none) (fuel : Nat) :
    parseFrom (fuel + 1) fields (data ++ [b]) values = parseFrom fuel fields [b] values := by
  rw [parseFrom, if_neg (by simp), hcut]
  simp

theorem parseFrom_field (hfield : decodeField data = some (some (elength, field, length))) {stored : Values} {fuel : Nat}
    (hstore : store (fun inner part => parseFrom fuel inner part .empty) fields field (data.drop elength) length values =
      some (some stored)) :
    parseFrom (fuel + 1) fields data values = parseFrom fuel fields ((data.drop elength).drop length) stored := by
  have hne : data ≠ [] := by
    rintro rfl
    cases hfield
  rw [parseFrom, if_neg hne, hfield]
  simp only [hstore]

theorem parseFrom_stop (hfield : decodeField data = some (some (elength, field, length))) {fuel : Nat}
    {result : Option (Option Values)} (hresult : ∀ stored, result ≠ some (some stored))
    (hstore : store (fun inner part => parseFrom fuel inner part .empty) fields field (data.drop elength) length values =
      result) :
    parseFrom (fuel + 1) fields data values = result := by
  have hne : data ≠ [] := by
    rintro rfl
    cases hfield
  rw [parseFrom, if_neg hne, hfield]
  cases result with
  | none => simp only [hstore]
  | some found =>
    cases found with
    | none => simp only [hstore]
    | some stored => exact absurd rfl (hresult stored)

/-- The values with the one of a field. -/
def assign (values : Values) (name : String) (type : FieldType) (value : Value) : Values :=
  match type with
  | .list _ => values.put name (.list (values.members name ++ [value]))
  | _ => values.put name value

theorem tidy_assign (h : Tidy fields values) (hproper : Proper fields) (hget : fields.get field = some (name, type))
    (value : Value) : Tidy fields (assign values name type value) := by
  cases type with
  | scalar decoder => exact h.put hproper hget (fun _ heq => by cases heq)
  | list decoder => exact h.put hproper hget (fun _ _ => ⟨_, rfl⟩)
  | struct inner => exact h.put hproper hget (fun _ heq => by cases heq)

theorem store_value (h : Tidy fields values) (hget : fields.get field = some (name, type))
    (htype : type.decoder = some decoder) {value : Value} (hvalue : decoder.decode data length = some value)
    (parse : Fields → Bytes → Option (Option Values)) :
    store parse fields field data length values = some (some (assign values name type value)) := by
  cases type with
  | scalar decoder' =>
    obtain rfl : decoder' = decoder := Option.some.inj htype
    rw [store, hget]
    simp only [hvalue]
    rfl
  | list decoder' =>
    obtain rfl : decoder' = decoder := Option.some.inj htype
    rw [store, hget]
    simp only [hvalue, Option.bind_some, h.append hget]
    rfl
  | struct inner => cases htype

theorem store_short (hget : fields.get field = some (name, type)) (htype : type.decoder = some decoder)
    (hvalue : decoder.decode data length = none) (parse : Fields → Bytes → Option (Option Values)) :
    store parse fields field data length values = some none := by
  cases type with
  | scalar decoder' =>
    obtain rfl : decoder' = decoder := Option.some.inj htype
    rw [store, hget]
    simp only [hvalue]
    rfl
  | list decoder' =>
    obtain rfl : decoder' = decoder := Option.some.inj htype
    rw [store, hget]
    simp only [hvalue]
    rfl
  | struct inner => cases htype

theorem store_struct (hget : fields.get field = some (name, .struct inner))
    (parse : Fields → Bytes → Option (Option Values)) (data : Bytes) (length : Nat) (values : Values) :
    store parse fields field data length values =
      (parse inner (data.take length)).map (fun found => found.map (fun members => values.put name (.struct members))) := by
  rw [store, hget]

theorem store_mono {parse parse' : Fields → Bytes → Option (Option Values)} {result : Option Values}
    (h : ∀ inner part found, parse inner part = some found → parse' inner part = some found)
    (hstore : store parse fields field data length values = some result) :
    store parse' fields field data length values = some result := by
  rw [store] at hstore ⊢
  split at hstore
  · exact hstore
  · obtain ⟨found, hfound, hresult⟩ := Option.map_eq_some_iff.mp hstore
    simp only [h _ _ _ hfound, Option.map_some, hresult]
  · exact hstore
  · exact hstore

theorem parseFrom_succ {fuel : Nat} {result : Option Values} (h : parseFrom fuel fields data values = some result) :
    parseFrom (fuel + 1) fields data values = some result := by
  induction fuel generalizing fields data values result with
  | zero => cases h
  | succ fuel ih =>
    rw [parseFrom] at h ⊢
    split_ifs at h ⊢ with hnil
    · exact h
    · cases hfield : decodeField data with
      | none => rwa [hfield] at h
      | some header =>
        rw [hfield] at h
        cases header with
        | none => exact ih h
        | some triple =>
          obtain ⟨elength, field, length⟩ := triple
          simp only at h ⊢
          cases hstore : store (fun inner part => parseFrom fuel inner part .empty) fields field (data.drop elength)
              length values with
          | none =>
            rw [hstore] at h
            cases h
          | some stored =>
            rw [store_mono (fun _ _ _ => ih) hstore]
            rw [hstore] at h
            cases stored with
            | none => exact h
            | some stored => exact ih h

theorem parseFrom_eq_of_yields {result found : Option Values} {fuel : Nat}
    (h : Yields (fun fuel => parseFrom fuel fields data values) result)
    (hfound : parseFrom fuel fields data values = some found) : found = result := by
  have hmore : ∀ n, parseFrom (fuel + n) fields data values = some found := by
    intro n
    induction n with
    | zero => exact hfound
    | succ n ih => exact parseFrom_succ ih
  obtain ⟨n, hn⟩ := h
  have hresult := hn (fuel + n) (by omega)
  simp only [hmore n, Option.some.injEq] at hresult
  exact hresult

theorem yields_struct (hfield : decodeField data = some (some (elength, field, length)))
    (hget : fields.get field = some (name, .struct inner)) {members : Values} {result : Option Values}
    (hinner : Yields (fun fuel => parseFrom fuel inner ((data.drop elength).take length) .empty) (some members))
    (hnext : Yields (fun fuel => parseFrom fuel fields ((data.drop elength).drop length)
      (values.put name (.struct members))) result) :
    Yields (fun fuel => parseFrom fuel fields data values) result := by
  obtain ⟨n, hn⟩ := hinner
  obtain ⟨m, hm⟩ := hnext
  refine ⟨n + m + 1, fun fuel hfuel => ?_⟩
  obtain ⟨fuel, rfl⟩ : ∃ k, fuel = k + 1 := ⟨fuel - 1, by omega⟩
  have hstore := store_struct hget
    (fun inner part => parseFrom fuel inner part .empty) (data.drop elength) length values
  have hread : parseFrom fuel inner ((data.drop elength).take length) .empty = some (some members) := hn fuel (by omega)
  rw [hread] at hstore
  have hbehind : parseFrom fuel fields ((data.drop elength).drop length) (values.put name (.struct members)) = some result :=
    hm fuel (by omega)
  show parseFrom (fuel + 1) fields data values = some result
  rw [parseFrom_field hfield hstore, hbehind]

theorem parseFrom_of_ends {ending : Ending} (h : Ends fields data ending) (hproper : Proper fields)
    (htidy : Tidy fields values) : ending.Outcome (fun fuel => parseFrom fuel fields data values) := by
  induction h generalizing values with
  | nil => exact ⟨values, 1, fun fuel hfuel => by
      obtain ⟨fuel, rfl⟩ : ∃ k, fuel = k + 1 := ⟨fuel - 1, by omega⟩
      exact parseFrom_nil fuel⟩
  | @header fields b hcut =>
    intro fuel
    induction fuel with
    | zero => rfl
    | succ fuel ih =>
      show parseFrom (fuel + 1) fields ([] ++ [b]) values = none
      rw [parseFrom_cut hcut]
      exact ih
  | last hcut hne hlast ih => exact (ih hproper htidy).step rfl (parseFrom_cut hcut)
  | unknown hfield hget hnext ih =>
    refine (ih hproper htidy).step rfl (fun fuel => parseFrom_field hfield ?_)
    rw [store, hget]
  | value hfield hget htype hall hnext ih =>
    obtain ⟨value, hvalue⟩ := Option.isSome_iff_exists.mp ((Decoder.decode_isSome_iff ..).mpr hall)
    refine (ih hproper (tidy_assign htidy hproper hget value)).step rfl (fun fuel => parseFrom_field hfield ?_)
    exact store_value htidy hget htype hvalue _
  | number hfield hget htype hshort =>
    have hnone := mt (Decoder.decode_isSome_iff ..).mp (Nat.not_le.mpr hshort)
    rw [Option.not_isSome_iff_eq_none] at hnone
    refine ⟨1, fun fuel hfuel => ?_⟩
    obtain ⟨fuel, rfl⟩ : ∃ k, fuel = k + 1 := ⟨fuel - 1, by omega⟩
    exact parseFrom_stop hfield (fun stored heq => by cases heq) (store_short hget htype hnone _)
  | @struct fields inner data elength field length name ending hfield hget hinner hnext ihinner ih =>
    obtain ⟨members, hmembers⟩ := ihinner (Fields.proper_inner hproper hget) tidy_empty
    have hput : Tidy fields (values.put name (.struct members)) := htidy.put hproper hget (fun _ heq => by cases heq)
    have hrun := ih hproper hput
    cases ending with
    | whole =>
      obtain ⟨found, hfound⟩ := hrun
      exact ⟨found, yields_struct hfield hget hmembers hfound⟩
    | number => exact yields_struct hfield hget hmembers hrun
    | header =>
      intro fuel
      cases fuel with
      | zero => rfl
      | succ fuel =>
        have hstore := store_struct hget
          (fun inner part => parseFrom fuel inner part .empty) (data.drop elength) length values
        show parseFrom (fuel + 1) fields data values = none
        cases hread : parseFrom fuel inner ((data.drop elength).take length) .empty with
        | none =>
          rw [hread] at hstore
          exact parseFrom_stop hfield (fun stored heq => by cases heq) hstore
        | some found =>
          obtain rfl := parseFrom_eq_of_yields hmembers hread
          rw [hread] at hstore
          rw [parseFrom_field hfield hstore]
          exact hrun fuel
  | @inner fields inner data elength field length name ending hfield hget hinner hstop ih =>
    have hrun := ih (Fields.proper_inner hproper hget) tidy_empty
    have hnone : ∀ fuel stored, parseFrom fuel inner ((data.drop elength).take length) .empty ≠ some (some stored) := by
      intro fuel stored hread
      cases ending with
      | whole => exact hstop rfl
      | number => cases parseFrom_eq_of_yields hrun hread
      | header =>
        exact absurd hread (by rw [show parseFrom fuel inner _ .empty = none from hrun fuel]; simp)
    refine Ending.Outcome.step rfl (fun fuel => ?_) hrun
    have hstore := store_struct hget
      (fun inner part => parseFrom fuel inner part .empty) (data.drop elength) length values
    refine parseFrom_stop hfield (hnone fuel) (hstore.trans ?_)
    cases hread : parseFrom fuel inner ((data.drop elength).take length) .empty with
    | none => rfl
    | some found =>
      cases found with
      | none => rfl
      | some stored => exact absurd hread (hnone fuel stored)

end FieldStruct

end RaleighSL.Client
