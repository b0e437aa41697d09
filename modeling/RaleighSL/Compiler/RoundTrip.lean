import RaleighSL.Compiler.Integers

/-!
# Round trips of messages

A message without lists and nested structs, and without empty bytes, is read back from what was
written, field after field, through any reader that keeps its contract.
-/
namespace RaleighSL.Compiler
open Zcl (Byte Bytes ReaderMethods writeField writeFieldUint64 writeFieldBytes)
open Zcl.Coding (encodedFieldLength encodedFieldLength_pos encodeUint uint64Size)

/-! ### The loop of the parser -/

section
variable {σ μ : Type} (vtable : ReaderMethods σ) (s : Bytes) (At : σ → Nat → Nat → Prop)
  (switch : Nat → Nat → μ → σ → Answer σ (Int × μ)) (size : Nat)

/-- From the bytes `data` at the end of the string the loop makes `final` of `first`. -/
def Reads (first : μ) (data : Bytes) (final : μ) : Prop :=
  ∀ fuel total pos last self, At self pos last → s.drop pos = data → data.length < fuel → total + data.length ≤ size →
    ∃ self' last', parseLoop vtable switch size fuel total 0 first self = some (some final, self') ∧
      At self' (pos + data.length) last'

variable {vtable s At switch size} {Fetchable : Nat → Nat → Prop}

theorem Reads.done (h : vtable.Lawful s At Fetchable) (msg : μ) : Reads vtable s At switch size msg [] msg := by
  intro fuel total pos last self hat hrest hfuel _
  obtain ⟨fuel, rfl⟩ := Nat.exists_eq_succ_of_ne_zero (Nat.ne_zero_of_lt hfuel)
  obtain ⟨self', last', heq, hat'⟩ := h.decodeField_end hat hrest
  refine ⟨self', last', ?_, hat'⟩
  simp [parseLoop, heq]

theorem Reads.field (h : vtable.Lawful s At Fetchable) (hok : ∀ length rest, 0 < length → Fetchable length rest)
    (hsize : size < 2 ^ 64) {uid length : Nat} {data rest : Bytes} {first next final : μ} (hid : uid < 64)
    (hdata : data.length = length) (hpos : 0 < length)
    (hfield : ∀ self pos last, At self pos last → s.drop pos = data ++ rest → ∃ self' last',
      switch uid length first self = some (some (0, next), self') ∧ At self' (pos + length) last')
    (hrest : Reads vtable s At switch size next rest final) :
    Reads vtable s At switch size first (writeField uid length ++ data ++ rest) final := by
  intro fuel total pos last self hat hdrop hfuel htotal
  obtain ⟨fuel, rfl⟩ := Nat.exists_eq_succ_of_ne_zero (Nat.ne_zero_of_lt hfuel)
  have hheader := encodedFieldLength_pos uid length
  have hlen : (writeField uid length).length = encodedFieldLength uid length :=
    Zcl.Coding.length_encodeField uid length
  rw [List.append_assoc] at hdrop hfuel htotal ⊢
  rw [List.length_append, List.length_append, hlen, hdata] at hfuel htotal
  obtain ⟨self₁, last₁, heq₁, hat₁⟩ :=
    h.decodeField hat hok (Nat.lt_trans hid (by decide)) (show length < 2 ^ 64 by omega) hpos hdrop
  have hdrop₁ : s.drop (pos + encodedFieldLength uid length) = data ++ rest := by
    rw [← List.drop_drop, hdrop, List.drop_left' hlen]
  obtain ⟨self₂, last₂, heq₂, hat₂⟩ := hfield self₁ _ _ hat₁ hdrop₁
  have hdrop₂ : s.drop (pos + encodedFieldLength uid length + length) = rest := by
    rw [← List.drop_drop, hdrop₁, List.drop_left' hdata]
  have htotal' : (total + length) % 2 ^ 64 = total + length := Nat.mod_eq_of_lt (by omega)
  obtain ⟨self₃, last₃, heq₃, hat₃⟩ :=
    hrest fuel (total + length) _ _ _ hat₂ hdrop₂ (by omega) (by omega)
  refine ⟨self₃, last₃, ?_, ?_⟩
  · simp only [parseLoop, heq₁, heq₂, Option.bind_eq_bind, Option.bind_some, htotal']
    rw [if_neg (by omega), heq₃]
  · rw [List.length_append, List.length_append, hlen, hdata, ← Nat.add_assoc, ← Nat.add_assoc]
    exact hat₃

end

namespace Struct

def Flat : (s : Struct) → s.Message → Prop
  | done, _ => True
  | int _ _ _ fields, (_, msg) => fields.Flat msg
  | bytes _ fields, (_, msg) => fields.Flat msg
  | list _ _ fields, (values, msg) => values = none ∧ fields.Flat msg
  | struct _ _ fields, (value, msg) => value = none ∧ fields.Flat msg

def Filled : (s : Struct) → s.Message → Prop
  | done, _ => True
  | int _ _ _ fields, (_, msg) => fields.Filled msg
  | bytes _ fields, (value, msg) => value ≠ some [] ∧ fields.Filled msg
  | list _ _ fields, (_, msg) => fields.Filled msg
  | struct _ _ fields, (_, msg) => fields.Filled msg

/-! ### Sizes -/

theorem length_writeInt (vtype : IntType) (uid : Nat) (value : vtype.Value) :
    (vtype.writeInt uid value).length = encodedFieldLength uid (vtype.intSize value) + vtype.intSize value := by
  rw [IntType.writeInt_eq, IntType.intSize_eq, writeFieldUint64, writeField, List.length_append,
    Zcl.Coding.length_encodeField, Zcl.Coding.length_encodeUint]

theorem length_writeFieldBytes (uid : Nat) (value : Bytes) :
    (writeFieldBytes uid value).length = encodedFieldLength uid value.length + value.length := by
  rw [writeFieldBytes, writeField, List.length_append, Zcl.Coding.length_encodeField]

theorem length_writeItem_pos (vtype : ItemType) (uid : Nat) (value : vtype.Value) :
    0 < (vtype.writeItem uid value).length := by
  cases vtype with
  | int vtype =>
    rw [ItemType.writeItem, length_writeInt]
    exact Nat.add_pos_left (encodedFieldLength_pos _ _) _
  | bytes =>
    rw [ItemType.writeItem, length_writeFieldBytes]
    exact Nat.add_pos_left (encodedFieldLength_pos _ _) _

/-- No nested struct is there, and the lists have no items. -/
def Sized : (s : Struct) → s.Message → Prop
  | done, _ => True
  | int _ _ _ fields, (_, msg) => fields.Sized msg
  | bytes _ fields, (_, msg) => fields.Sized msg
  | list _ _ fields, (values, msg) => values.getD [] = [] ∧ fields.Sized msg
  | struct _ _ fields, (value, msg) => value = none ∧ fields.Sized msg

theorem Flat.sized {s : Struct} {msg : s.Message} (h : s.Flat msg) : s.Sized msg := by
  induction s with
  | done => trivial
  | int uid vtype default fields ih => exact @ih msg.2 h
  | bytes uid fields ih => exact @ih msg.2 h
  | list uid vtype fields ih => exact ⟨by rw [h.1]; rfl, @ih msg.2 h.2⟩
  | struct uid vtype fields _ ih => exact ⟨h.1, @ih msg.2 h.2⟩

/-- The header of a nested struct and the items of a list are not counted. -/
theorem size_le (s : Struct) (msg : s.Message) : s.size msg ≤ (s.write msg).length := by
  induction s with
  | done => exact Nat.le_refl 0
  | int uid vtype default fields ih =>
    obtain ⟨value, msg⟩ := msg
    have hrest := ih msg
    cases value with
    | none => simpa [size, write] using hrest
    | some value => simpa [size, write, length_writeInt] using hrest
  | bytes uid fields ih =>
    obtain ⟨value, msg⟩ := msg
    have hrest := ih msg
    cases value with
    | none => simpa [size, write] using hrest
    | some value => simpa [size, write, length_writeFieldBytes] using hrest
  | list uid vtype fields ih =>
    obtain ⟨values, msg⟩ := msg
    rw [size, write, List.length_append]
    exact Nat.le_add_left_of_le (ih msg)
  | struct uid vtype fields ihvtype ih =>
    obtain ⟨value, msg⟩ := msg
    have hrest := ih msg
    cases value with
    | none => simpa [size, write] using hrest
    | some value =>
      have hvalue := ihvtype value
      simp only [size, write, Option.elim, List.length_append]
      omega

/-- The size is that of what is written exactly without nested structs and items of lists. -/
theorem size_eq_iff (s : Struct) (msg : s.Message) : s.size msg = (s.write msg).length ↔ s.Sized msg := by
  induction s with
  | done => exact iff_of_true rfl trivial
  | int uid vtype default fields ih =>
    obtain ⟨value, msg⟩ := msg
    rw [Sized, ← ih msg]
    cases value with
    | none => simp [size, write]
    | some value => simp [size, write, length_writeInt]
  | bytes uid fields ih =>
    obtain ⟨value, msg⟩ := msg
    rw [Sized, ← ih msg]
    cases value with
    | none => simp [size, write]
    | some value => simp [size, write, length_writeFieldBytes]
  | list uid vtype fields ih =>
    obtain ⟨values, msg⟩ := msg
    rw [Sized, ← ih msg]
    have hrest := fields.size_le msg
    cases values with
    | none => simp [size, write]
    | some values =>
      cases values with
      | nil => simp [size, write]
      | cons value values =>
        have hitem := length_writeItem_pos vtype uid value
        refine iff_of_false (fun heq => ?_) (fun h => by cases h.1)
        simp only [size, write, Option.elim, List.flatMap_cons, List.length_append] at heq
        omega
  | struct uid vtype fields _ ih =>
    obtain ⟨value, msg⟩ := msg
    rw [Sized, ← ih msg]
    cases value with
    | none => simp [size, write]
    | some value =>
      have hvalue := vtype.size_le value
      have hrest := fields.size_le msg
      have hheader := encodedFieldLength_pos uid (vtype.size value)
      refine iff_of_false (fun heq => ?_) (fun h => by cases h.1)
      simp only [size, write, Option.elim, List.length_append, writeField, Zcl.Coding.length_encodeField] at heq
      omega

theorem Accepted.uids {s : Struct} (h : s.Accepted) : s.uids.Nodup ∧ ∀ uid ∈ s.uids, uid < 64 := by
  induction s with
  | done => exact ⟨List.nodup_nil, nofun⟩
  | int uid vtype default fields ih | bytes uid fields ih | list uid vtype fields ih =>
    obtain ⟨hid, hnot, hfields⟩ := h
    exact ⟨List.nodup_cons.mpr ⟨hnot, (ih hfields).1⟩, List.forall_mem_cons.mpr ⟨hid, (ih hfields).2⟩⟩
  | struct uid vtype fields _ ih =>
    obtain ⟨hid, hnot, -, hfields⟩ := h
    exact ⟨List.nodup_cons.mpr ⟨hnot, (ih hfields).1⟩, List.forall_mem_cons.mpr ⟨hid, (ih hfields).2⟩⟩

theorem Accepted.length_uids_le {s : Struct} (h : s.Accepted) : s.uids.length ≤ 64 := by
  obtain ⟨hnodup, hlt⟩ := h.uids
  have hsub : s.uids.toFinset ⊆ Finset.range 64 := fun uid hmem => Finset.mem_range.mpr (hlt uid (List.mem_toFinset.mp hmem))
  have hcard := Finset.card_le_card hsub
  rwa [List.toFinset_card_of_nodup hnodup, Finset.card_range] at hcard

theorem Sized.length_write_le {s : Struct} {msg : s.Message} (h : s.Sized msg) (hvalid : s.Valid msg) :
    (s.write msg).length ≤ 1037 * s.uids.length := by
  have hheader (uid length : Nat) : encodedFieldLength uid length ≤ 13 := by
    have hlength := Zcl.Coding.uint64Size_le length
    have hid := Zcl.Coding.uint32Size_le uid
    unfold encodedFieldLength
    split_ifs <;> omega
  induction s with
  | done => exact Nat.zero_le _
  | int uid vtype default fields ih =>
    obtain ⟨value, msg⟩ := msg
    have hrest := ih h hvalid.2
    cases value with
    | none =>
      simp only [write, uids, Option.elim, List.nil_append, List.length_cons]
      omega
    | some value =>
      have hfield := hheader uid (vtype.intSize value)
      have hvalue := Zcl.Coding.uint64Size_le (vtype.code value)
      rw [← IntType.intSize_eq] at hvalue
      simp only [write, uids, Option.elim, List.length_append, length_writeInt, List.length_cons]
      omega
  | bytes uid fields ih =>
    obtain ⟨value, msg⟩ := msg
    have hrest := ih h hvalid.2
    cases value with
    | none =>
      simp only [write, uids, Option.elim, List.nil_append, List.length_cons]
      omega
    | some value =>
      have hfield := hheader uid value.length
      have hvalue := hvalid.1 value rfl
      simp only [write, uids, Option.elim, List.length_append, length_writeFieldBytes, List.length_cons]
      omega
  | list uid vtype fields ih =>
    obtain ⟨values, msg⟩ := msg
    have hvalid' : fields.Valid msg := by
      cases vtype with
      | int vtype => exact hvalid
      | bytes => exact hvalid.2
    have hrest := ih h.2 hvalid'
    have hnone : values.elim [] (fun values => values.flatMap (vtype.writeItem uid)) = [] := by
      cases values with
      | none => rfl
      | some values =>
        obtain rfl : values = [] := h.1
        rfl
    simp only [write, uids, hnone, List.nil_append, List.length_cons]
    omega
  | struct uid vtype fields _ ih =>
    obtain ⟨value, msg⟩ := msg
    obtain ⟨rfl, h⟩ := h
    have hrest := ih h hvalid.2
    simp only [write, uids, Option.elim, List.nil_append, List.length_cons]
    omega

/-! ### Parsing -/

variable {σ μ : Type} {vtable : ReaderMethods σ} {input : Bytes} {At : σ → Nat → Nat → Prop}
  {Fetchable : Nat → Nat → Prop} {size : Nat}

/-- In a longer message a `switch` handles the ids of these fields as their own one does. -/
def Handles (vtable : ReaderMethods σ) (fuel : Nat) (switch : Nat → Nat → μ → σ → Answer σ (Int × μ)) (s : Struct)
    (put : s.Message → μ) : Prop :=
  ∀ fieldId ∈ s.uids, ∀ length msg self, switch fieldId length (put msg) self =
    (s.switch vtable fuel fieldId length msg self).map (fun r => (r.1, put r.2))

theorem Handles.rest {fuel : Nat} {switch : Nat → Nat → μ → σ → Answer σ (Int × μ)} {s fields : Struct}
    {put : s.Message → μ} (h : Handles vtable fuel switch s put) (pair : fields.Message → s.Message)
    (hpair : ∀ fieldId ∈ fields.uids, fieldId ∈ s.uids ∧ ∀ length msg self,
      s.switch vtable fuel fieldId length (pair msg) self =
        (fields.switch vtable fuel fieldId length msg self).map (fun r => (r.1, pair r.2))) :
    Handles vtable fuel switch fields (fun msg => put (pair msg)) := by
  intro fieldId hmem length msg self
  obtain ⟨hmem', heq⟩ := hpair fieldId hmem
  rw [h fieldId hmem', heq, Answer.map_map]
  rfl

theorem reads_write (h : vtable.Lawful input At Fetchable) (hok : ∀ length rest, 0 < length → Fetchable length rest)
    (hsize : size < 2 ^ 64) (fuel : Nat) {s : Struct} {msg : s.Message} (hs : s.Accepted) (hvalid : s.Valid msg)
    (hflat : s.Flat msg) (hfilled : s.Filled msg) {switch : Nat → Nat → μ → σ → Answer σ (Int × μ)} (put : s.Message → μ)
    (hswitch : Handles vtable fuel switch s put) :
    Reads vtable input At switch size (put s.alloc) (s.write msg) (put msg) := by
  induction s with
  | done => exact Reads.done h _
  | int uid vtype default fields ih =>
    obtain ⟨value, msg⟩ := msg
    obtain ⟨hid, hnot, hs⟩ := hs
    have hrest : Reads vtable input At switch size (put (value, fields.alloc)) (fields.write msg) (put (value, msg)) :=
      ih hs hvalid.2 hflat hfilled (fun msg => put (value, msg)) (hswitch.rest (fun msg => (value, msg))
        (fun _ hmem => ⟨List.mem_cons_of_mem _ hmem, fun _ _ _ => if_neg (ne_of_mem_of_not_mem hmem hnot)⟩))
    cases value with
    | none =>
      obtain rfl := hvalid.1 rfl
      exact hrest
    | some value =>
      have hmin := Zcl.Coding.uint64Size_minimal (IntType.code_lt_two_pow value)
      rw [write, Option.elim, IntType.writeInt_eq]
      refine hrest.field h hok hsize hid (Zcl.Coding.length_encodeUint _ _) hmin.1 (fun self pos last hat hdrop => ?_)
      obtain ⟨self', last', heq, hat'⟩ := IntType.decodeInt_code h hat hok value hdrop
      refine ⟨self', last', (hswitch uid List.mem_cons_self _ (default, fields.alloc) self).trans ?_, hat'⟩
      rw [Struct.switch, if_pos rfl, if_neg (Nat.not_lt.mpr (IntType.uint64Size_code_le value)), heq]
      rfl
  | bytes uid fields ih =>
    obtain ⟨value, msg⟩ := msg
    obtain ⟨hid, hnot, hs⟩ := hs
    have hrest : Reads vtable input At switch size (put (value, fields.alloc)) (fields.write msg) (put (value, msg)) :=
      ih hs hvalid.2 hflat hfilled.2 (fun msg => put (value, msg)) (hswitch.rest (fun msg => (value, msg))
        (fun _ hmem => ⟨List.mem_cons_of_mem _ hmem, fun _ _ _ => if_neg (ne_of_mem_of_not_mem hmem hnot)⟩))
    cases value with
    | none => exact hrest
    | some value =>
      have hne : value ≠ [] := fun hnil => hfilled.1 (congrArg some hnil)
      refine hrest.field h hok hsize hid rfl (List.length_pos_iff.mpr hne) (fun self pos last hat hdrop => ?_)
      obtain ⟨self', last', heq, hat'⟩ := h.decodeBytes hat hok hne hdrop
      refine ⟨self', last', (hswitch uid List.mem_cons_self _ (none, fields.alloc) self).trans ?_, hat'⟩
      rw [Struct.switch, if_pos rfl, if_neg (Nat.not_lt.mpr (hvalid.1 value rfl)), heq]
      rfl
  | list uid vtype fields ih =>
    obtain ⟨values, msg⟩ := msg
    obtain ⟨hid, hnot, hs⟩ := hs
    obtain ⟨rfl, hflat⟩ := hflat
    have hvalid' : fields.Valid msg := by
      cases vtype with
      | int vtype => exact hvalid
      | bytes => exact hvalid.2
    exact ih hs hvalid' hflat hfilled (fun msg => put (none, msg)) (hswitch.rest (fun msg => (none, msg))
      (fun _ hmem => ⟨List.mem_cons_of_mem _ hmem, fun _ _ _ => if_neg (ne_of_mem_of_not_mem hmem hnot)⟩))
  | struct uid vtype fields _ ih =>
    obtain ⟨value, msg⟩ := msg
    obtain ⟨hid, hnot, -, hs⟩ := hs
    obtain ⟨rfl, hflat⟩ := hflat
    exact ih hs hvalid.2 hflat hfilled (fun msg => put (none, msg)) (hswitch.rest (fun msg => (none, msg))
      (fun _ hmem => ⟨List.mem_cons_of_mem _ hmem, fun _ _ _ => if_neg (ne_of_mem_of_not_mem hmem hnot)⟩))

/-! ### What a message should keep -/

/-- Through any reader over what was written, also behind other bytes, the message comes back. -/
def Restored (s : Struct) (msg : s.Message) : Prop :=
  ∀ {σ : Type} (vtable : ReaderMethods σ) (At : σ → Nat → Nat → Prop) (before : Bytes),
    vtable.Lawful (before ++ s.write msg) At (fun length _ => 0 < length) → ∀ self last fuel size,
    At self before.length last → (s.write msg).length < fuel → (s.write msg).length ≤ size → size < 2 ^ 64 →
    ∃ self', s.parse vtable fuel s.alloc self size = some (some msg, self')

/-- With its size as the length, a struct is parsed from its bytes and no others. -/
def Delimited (s : Struct) (msg : s.Message) : Prop :=
  ∀ {σ : Type} (vtable : ReaderMethods σ) (At : σ → Nat → Nat → Prop) (before after : Bytes),
    vtable.Lawful (before ++ s.write msg ++ after) At (fun length _ => 0 < length) → ∀ self last fuel,
    At self before.length last → (s.write msg ++ after).length < fuel →
    ∃ self' last', s.parse vtable fuel s.alloc self (s.size msg) = some (some msg, self') ∧
      At self' (before.length + (s.write msg).length) last'

/-- The nested structs of a message are parsed from their bytes and no others. -/
def NestedDelimited : (s : Struct) → s.Message → Prop
  | done, _ => True
  | int _ _ _ fields, (_, msg) => fields.NestedDelimited msg
  | bytes _ fields, (_, msg) => fields.NestedDelimited msg
  | list _ _ fields, (_, msg) => fields.NestedDelimited msg
  | struct _ vtype fields, (value, msg) =>
    (∀ x, value = some x → vtype.Delimited x ∧ vtype.NestedDelimited x) ∧ fields.NestedDelimited msg

/-- A message comes back, its size is that of what is written, and its nested structs are delimited. -/
def RoundTrips (s : Struct) (msg : s.Message) : Prop :=
  s.Restored msg ∧ s.size msg = (s.write msg).length ∧ s.NestedDelimited msg

theorem Flat.nestedDelimited {s : Struct} {msg : s.Message} (h : s.Flat msg) : s.NestedDelimited msg := by
  induction s with
  | done => trivial
  | int uid vtype default fields ih => exact @ih msg.2 h
  | bytes uid fields ih => exact @ih msg.2 h
  | list uid vtype fields ih => exact @ih msg.2 h.2
  | struct uid vtype fields _ ih =>
    refine ⟨fun x hx => ?_, @ih msg.2 h.2⟩
    rw [h.1] at hx
    cases hx

/-- Without lists, nested structs and empty bytes a message comes back. -/
theorem restored_of_flat {s : Struct} {msg : s.Message} (hs : s.Accepted) (hvalid : s.Valid msg) (hflat : s.Flat msg)
    (hfilled : s.Filled msg) : s.Restored msg := by
  intro σ vtable At before hlawful self last fuel size hat hfuel hle hsize
  have hhandles : Handles vtable fuel (s.switch vtable fuel) s (fun msg => msg) := by
    intro fieldId _ length msg self
    obtain _ | ⟨_ | r, self⟩ := s.switch vtable fuel fieldId length msg self <;> rfl
  obtain ⟨self', last', heq, -⟩ := reads_write hlawful (fun _ _ hpos => hpos) hsize fuel hs hvalid hflat hfilled
    (fun msg => msg) hhandles fuel 0 before.length last self hat List.drop_left hfuel (by omega)
  exact ⟨self', heq⟩

end Struct

end RaleighSL.Compiler
