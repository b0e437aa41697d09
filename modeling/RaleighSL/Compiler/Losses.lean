import RaleighSL.Compiler.RoundTrip

/-!
# What messages lose

The size of a message leaves out the header of a nested struct and the items of lists, and empty
bytes are written as a field of eight bytes. Whatever bytes it reads, the parser takes for each
value it gives at least as many bytes as the value needs.
-/
namespace RaleighSL.Compiler
open Zcl (Byte Bytes ReaderMethods IovecReader)
open Zcl.ReaderMethods (Located)
open Zcl.Coding (encodedFieldLength leastFieldLength uint64Size)

variable {σ μ : Type} {vtable : ReaderMethods σ} {input : Bytes} {At : σ → Nat → Nat → Prop}
  {handle : Nat → Nat → μ → σ → Answer σ (Int × μ)} {size fuel total : Nat} {r : Int} {msg final : μ} {self self' : σ}

/-- What each field keeps holds at the end of the loop. -/
theorem parseLoop_keeps {P : μ → σ → Prop}
    (hend : ∀ msg self self', P msg self → vtable.decodeField self = some (none, self') → P msg self')
    (hfield : ∀ msg self elength fieldId length self₁ r msg' self', P msg self →
      vtable.decodeField self = some (some (elength, fieldId, length), self₁) →
      handle fieldId length msg self₁ = some (some (r, msg'), self') → P msg' self')
    (hstart : P msg self) (heq : parseLoop vtable handle size fuel total r msg self = some (some final, self')) :
    P final self' := by
  induction fuel generalizing total r msg self with
  | zero => cases heq
  | succ fuel ih =>
    simp only [parseLoop] at heq
    rcases hdecode : vtable.decodeField self with _ | ⟨_ | ⟨elength, fieldId, length⟩, self₁⟩
    · rw [hdecode] at heq
      cases heq
    · simp only [hdecode, Option.bind_eq_bind, Option.bind_some] at heq
      split at heq
      · cases heq
        exact hend _ _ _ hstart hdecode
      · cases heq
    · simp only [hdecode, Option.bind_eq_bind, Option.bind_some] at heq
      rcases hanswer : handle fieldId length msg self₁ with _ | ⟨_ | ⟨r', msg'⟩, self₂⟩
      · rw [hanswer] at heq
        cases heq
      · rw [hanswer] at heq
        cases heq
      · have hnext := hfield _ _ _ _ _ _ _ _ _ hstart hdecode hanswer
        simp only [hanswer, Option.bind_some] at heq
        split at heq
        · split at heq
          · cases heq
            exact hnext
          · cases heq
        · exact ih hnext heq

/-- A case of the `switch` gave a message: its field was read, or one of the fields behind it. -/
theorem Answer.field_cases {α β γ : Type} {fieldId uid limit length : Nat} {read : Answer σ α} {rest : Answer σ β}
    {f : α → γ} {g : β → γ} {y : γ}
    (heq : (if fieldId = uid then if limit < length then some (none, self) else read.map f else rest.map g) =
      some (some y, self')) :
    (fieldId = uid ∧ length ≤ limit ∧ ∃ x, read = some (some x, self') ∧ f x = y) ∨
      ∃ x, rest = some (some x, self') ∧ g x = y := by
  by_cases hid : fieldId = uid
  · rw [if_pos hid] at heq
    by_cases hlimit : limit < length
    · rw [if_pos hlimit] at heq
      cases heq
    · rw [if_neg hlimit] at heq
      exact .inl ⟨hid, Nat.not_lt.mp hlimit, Answer.map_eq_some heq⟩
  · rw [if_neg hid] at heq
    exact .inr (Answer.map_eq_some heq)

/-- The same for a nested struct, whose length has no limit. -/
theorem Answer.struct_cases {α β γ : Type} {fieldId uid : Nat} {read : Answer σ α} {rest : Answer σ β} {f : α → γ}
    {g : β → γ} {y : γ} (heq : (if fieldId = uid then read.map f else rest.map g) = some (some y, self')) :
    (fieldId = uid ∧ ∃ x, read = some (some x, self') ∧ f x = y) ∨ ∃ x, rest = some (some x, self') ∧ g x = y := by
  by_cases hid : fieldId = uid
  · rw [if_pos hid] at heq
    exact .inl ⟨hid, Answer.map_eq_some heq⟩
  · rw [if_neg hid] at heq
    exact .inr (Answer.map_eq_some heq)

namespace Struct

/-! ### Lists -/

def Pushed : (s : Struct) → s.Message → Prop
  | done, _ => True
  | int _ _ _ fields, (_, msg) => fields.Pushed msg
  | bytes _ fields, (_, msg) => fields.Pushed msg
  | list _ _ fields, (values, msg) => values ≠ some [] ∧ fields.Pushed msg
  | struct _ _ fields, (_, msg) => fields.Pushed msg

theorem alloc_pushed (s : Struct) : s.Pushed s.alloc := by
  induction s with
  | done => trivial
  | int _ _ _ fields ih => exact ih
  | bytes _ fields ih => exact ih
  | list _ _ fields ih => exact ⟨nofun, ih⟩
  | struct _ _ fields _ ih => exact ih

theorem Pushed.switch {s : Struct} {msg msg' : s.Message} {fieldId length : Nat} (h : s.Pushed msg)
    (heq : s.switch vtable fuel fieldId length msg self = some (some (r, msg'), self')) : s.Pushed msg' := by
  induction s with
  | done => trivial
  | int uid vtype default fields ih =>
    obtain ⟨value, msg⟩ := msg
    rw [Struct.switch] at heq
    obtain ⟨-, -, _, -, ⟨⟩⟩ | ⟨_, hrest, ⟨⟩⟩ := Answer.field_cases heq
    · exact h
    · exact @ih msg _ h hrest
  | bytes uid fields ih =>
    obtain ⟨value, msg⟩ := msg
    rw [Struct.switch] at heq
    obtain ⟨-, -, _, -, ⟨⟩⟩ | ⟨_, hrest, ⟨⟩⟩ := Answer.field_cases heq
    · exact h
    · exact @ih msg _ h hrest
  | list uid vtype fields ih =>
    obtain ⟨values, msg⟩ := msg
    rw [Struct.switch] at heq
    obtain ⟨-, -, _, -, ⟨⟩⟩ | ⟨_, hrest, ⟨⟩⟩ := Answer.field_cases heq
    · exact ⟨by simp, h.2⟩
    · exact ⟨h.1, ih h.2 hrest⟩
  | struct uid vtype fields _ ih =>
    obtain ⟨value, msg⟩ := msg
    rw [Struct.switch] at heq
    obtain ⟨-, _, -, ⟨⟩⟩ | ⟨_, hrest, ⟨⟩⟩ := Answer.struct_cases heq
    · exact h
    · exact @ih msg _ h hrest

theorem parse_pushed {s : Struct} {msg : s.Message}
    (heq : s.parse vtable fuel s.alloc self size = some (some msg, self')) : s.Pushed msg :=
  parseLoop_keeps (P := fun msg _ => s.Pushed msg) (fun _ _ _ h _ => h)
    (fun _ _ _ _ _ _ _ _ _ h _ hanswer => Pushed.switch h hanswer) s.alloc_pushed heq

/-! ### The bytes of values -/

/-- The least number of bytes from which the parser makes the values of a message. A default needs none. -/
def weight : (s : Struct) → s.Message → Nat
  | done, _ => 0
  | int uid vtype default fields, (value, msg) =>
    (if value = default then 0
      else value.elim 0 (fun value => encodedFieldLength uid (vtype.intSize value) + vtype.intSize value)) +
        fields.weight msg
  | bytes uid fields, (value, msg) =>
    value.elim 0 (fun value => leastFieldLength uid value.length + value.length) + fields.weight msg
  | list _ _ fields, (_, msg) => fields.weight msg
  | struct _ _ fields, (_, msg) => fields.weight msg

theorem weight_alloc (s : Struct) : s.weight s.alloc = 0 := by
  induction s with
  | done => rfl
  | int uid vtype default fields ih => simp [alloc, weight, ih]
  | bytes uid fields ih => simp [alloc, weight, ih]
  | list uid vtype fields ih => exact ih
  | struct uid vtype fields _ ih => exact ih

/-- From `pos` on bytes were taken, `spare` of them for something else than the new values. -/
def Weighs (input : Bytes) (At : σ → Nat → Nat → Prop) (pos spare before after : Nat) (self' : σ) : Prop :=
  ∃ pos', pos ≤ pos' ∧ Located input At self' pos' ∧ after + pos ≤ before + spare + pos'

/-- The loop takes as many bytes as the new values need. -/
theorem parseLoop_weighs {weight : μ → Nat} (h : vtable.Lawful input At fun _ _ => True) (hfetch : vtable.fetch = none)
    (hfield : ∀ {msg self fieldId length r msg' self' pos}, Located input At self pos →
      handle fieldId length msg self = some (some (r, msg'), self') →
      Weighs input At pos (leastFieldLength fieldId length) (weight msg) (weight msg') self')
    {pos : Nat} (hat : Located input At self pos)
    (heq : parseLoop vtable handle size fuel total r msg self = some (some final, self')) :
    Weighs input At pos 0 (weight msg) (weight final) self' := by
  refine parseLoop_keeps (P := fun msg' self => Weighs input At pos 0 (weight msg) (weight msg') self) ?_ ?_
    ⟨pos, Nat.le_refl _, hat, Nat.le_refl _⟩ heq
  · rintro msg' self self' ⟨pos₁, hge, hat₁, hweight⟩ hdecode
    obtain ⟨pos₂, hat₂, hge₂, -⟩ := h.decodeField_located hfetch hat₁ hdecode
    exact ⟨pos₂, by omega, hat₂, by omega⟩
  · rintro msg' self elength fieldId length self₁ r msg'' self' ⟨pos₁, hge, hat₁, hweight⟩ hdecode hanswer
    obtain ⟨pos₂, hat₂, hge₂, hleast⟩ := h.decodeField_located hfetch hat₁ hdecode
    obtain ⟨pos₃, hge₃, hat₃, hweight₃⟩ := hfield hat₂ hanswer
    have hheader := hleast _ _ _ rfl
    exact ⟨pos₃, by omega, hat₃, by omega⟩

/-- A case of the `switch` takes as many bytes as the new value needs, those of the header apart. -/
theorem switch_weighs (h : vtable.Lawful input At fun _ _ => True) (hfetch : vtable.fetch = none) {s : Struct}
    {msg msg' : s.Message} {fieldId length pos : Nat} (hat : Located input At self pos)
    (heq : s.switch vtable fuel fieldId length msg self = some (some (r, msg'), self')) :
    Weighs input At pos (leastFieldLength fieldId length) (s.weight msg) (s.weight msg') self' := by
  induction s generalizing self self' r fieldId length pos with
  | done =>
    rcases hskip : vtable.skip length self with _ | ⟨_ | _, self₁⟩
    · rw [switch, hskip] at heq
      cases heq
    · rw [switch, hskip] at heq
      cases heq
    · rw [switch, hskip] at heq
      cases heq
      exact ⟨pos + length, Nat.le_add_right _ _, h.skip_located hat hskip, by simp only [weight]; omega⟩
  | int uid vtype default fields ih =>
    obtain ⟨value, msg⟩ := msg
    rw [switch] at heq
    obtain ⟨rfl, -, value', hread, ⟨⟩⟩ | ⟨⟨r', msg'⟩, hrest, ⟨⟩⟩ := Answer.field_cases heq
    · obtain ⟨hat', hsize⟩ := IntType.decodeInt_located h hfetch hat hread
      refine ⟨pos + length, Nat.le_add_right _ _, hat', ?_⟩
      have hle : encodedFieldLength fieldId (uint64Size (vtype.code value')) ≤ encodedFieldLength fieldId length :=
        Zcl.Coding.encodedFieldLength_le (Zcl.Coding.uint64Size_le _) length
      have hvalue : (if some value' = default then 0 else (some value').elim 0
          (fun value => encodedFieldLength fieldId (vtype.intSize value) + vtype.intSize value)) ≤
          encodedFieldLength fieldId (uint64Size (vtype.code value')) + uint64Size (vtype.code value') := by
        split
        · exact Nat.zero_le _
        · rw [Option.elim, IntType.intSize_eq]
      simp only [weight, leastFieldLength]
      by_cases hzero : length = 0
      · rw [if_pos hzero]
        omega
      · rw [if_neg hzero]
        omega
    · obtain ⟨pos', hge, hat', hweight⟩ := ih hat hrest
      exact ⟨pos', hge, hat', by simp only [weight]; omega⟩
  | bytes uid fields ih =>
    obtain ⟨value, msg⟩ := msg
    rw [switch] at heq
    obtain ⟨rfl, -, value', hread, ⟨⟩⟩ | ⟨⟨r', msg'⟩, hrest, ⟨⟩⟩ := Answer.field_cases heq
    · obtain ⟨pos', hat', hge, hsome⟩ := h.vFetch_located hfetch hat hread
      obtain ⟨hlen, rfl⟩ := hsome value' rfl
      refine ⟨pos + length, hge, hat', ?_⟩
      simp only [weight, Option.elim, hlen]
      omega
    · obtain ⟨pos', hge, hat', hweight⟩ := ih hat hrest
      exact ⟨pos', hge, hat', by simp only [weight]; omega⟩
  | list uid vtype fields ih =>
    obtain ⟨values, msg⟩ := msg
    rw [switch] at heq
    obtain ⟨rfl, -, value', hread, ⟨⟩⟩ | ⟨⟨r', msg'⟩, hrest, ⟨⟩⟩ := Answer.field_cases heq
    · cases vtype with
      | int vtype =>
        obtain ⟨hat', -⟩ := IntType.decodeInt_located h hfetch hat hread
        exact ⟨pos + length, Nat.le_add_right _ _, hat', by simp only [weight]; omega⟩
      | bytes =>
        obtain ⟨pos', hat', hge, -⟩ := h.vFetch_located hfetch hat hread
        exact ⟨pos', hge, hat', by simp only [weight]; omega⟩
    · obtain ⟨pos', hge, hat', hweight⟩ := ih hat hrest
      exact ⟨pos', hge, hat', hweight⟩
  | struct uid vtype fields ihvtype ih =>
    obtain ⟨value, msg⟩ := msg
    rw [switch] at heq
    obtain ⟨rfl, value', hread, ⟨⟩⟩ | ⟨⟨r', msg'⟩, hrest, ⟨⟩⟩ := Answer.struct_cases heq
    · obtain ⟨pos', hge, hat', -⟩ := parseLoop_weighs h hfetch (fun hat heq => ihvtype hat heq) hat hread
      exact ⟨pos', hge, hat', by simp only [weight]; omega⟩
    · obtain ⟨pos', hge, hat', hweight⟩ := ih hat hrest
      exact ⟨pos', hge, hat', hweight⟩

def AtDefault : (s : Struct) → s.Message → Prop
  | done, _ => False
  | int _ _ default fields, (value, msg) => (value ≠ none ∧ value = default) ∨ fields.AtDefault msg
  | bytes _ fields, (_, msg) => fields.AtDefault msg
  | list _ _ fields, (_, msg) => fields.AtDefault msg
  | struct _ _ fields, (_, msg) => fields.AtDefault msg

/-- The values of a message need the bytes that are written, and one more for empty bytes. -/
theorem Flat.filled {s : Struct} {msg : s.Message} (h : s.Flat msg) (hdefault : ¬ s.AtDefault msg) :
    (s.write msg).length ≤ s.weight msg ∧ (s.weight msg ≤ (s.write msg).length → s.Filled msg) := by
  induction s with
  | done => exact ⟨Nat.le_refl 0, fun _ => trivial⟩
  | int uid vtype default fields ih =>
    obtain ⟨value, msg⟩ := msg
    obtain ⟨hvalue, hdefault⟩ := not_or.mp hdefault
    obtain ⟨hle, hfilled⟩ := ih h hdefault
    have hsame : (value.elim [] (vtype.writeInt uid)).length = if value = default then 0
        else value.elim 0 (fun value => encodedFieldLength uid (vtype.intSize value) + vtype.intSize value) := by
      cases value with
      | none => simp
      | some value => rw [if_neg (fun heq => hvalue ⟨nofun, heq⟩), Option.elim, Option.elim, length_writeInt]
    simp only [weight, write, List.length_append, hsame]
    exact ⟨by omega, fun hle => hfilled (by omega)⟩
  | bytes uid fields ih =>
    obtain ⟨value, msg⟩ := msg
    obtain ⟨hle, hfilled⟩ := ih h hdefault
    cases value with
    | none =>
      simp only [weight, write, Option.elim, List.nil_append, Nat.zero_add]
      exact ⟨hle, fun hle => ⟨(Option.some_ne_none []).symm, hfilled hle⟩⟩
    | some value =>
      simp only [weight, write, Option.elim, List.length_append, length_writeFieldBytes, leastFieldLength]
      refine ⟨by omega, fun hle' => ⟨?_, hfilled (by omega)⟩⟩
      rintro ⟨⟩
      simp only [List.length_nil, if_true] at hle'
      omega
  | list uid vtype fields ih =>
    obtain ⟨values, msg⟩ := msg
    obtain ⟨rfl, h⟩ := h
    exact ih h hdefault
  | struct uid vtype fields _ ih =>
    obtain ⟨value, msg⟩ := msg
    obtain ⟨rfl, h⟩ := h
    exact ih h hdefault

/-! ### Messages that come back -/

/-- A reader over chunks of one byte. -/
theorem singletons_lawful (data : Bytes) :
    { IovecReader.methods (data.map fun b => [b]) with fetch := none }.Lawful data
      (IovecReader.Place (data.map fun b => [b])) (fun _ _ => True) := by
  have hchunks : ∀ chunk ∈ data.map (fun b => [b]), chunk ≠ [] := by simp
  have hlawful := IovecReader.lawful_fallback hchunks
  have hflatten : (data.map fun b => [b]).flatten = data := by
    rw [← List.flatMap_def, List.flatMap_singleton']
  rwa [hflatten] at hlawful

/-- What comes back through a reader over single bytes was parsed from as many bytes as are written. -/
theorem Restored.parsed {s : Struct} {msg : s.Message} (h : s.Restored msg) (hlt : (s.write msg).length < 2 ^ 64) :
    s.Pushed msg ∧ s.weight msg ≤ (s.write msg).length := by
  have hlawful := singletons_lawful (s.write msg)
  have hat : IovecReader.Place ((s.write msg).map fun b => [b]) (IovecReader.opened ((s.write msg).map fun b => [b])) 0 0 :=
    ⟨IovecReader.At.opened _, Nat.zero_le _⟩
  obtain ⟨self', heq⟩ := h _ _ [] (hlawful.mono fun _ _ _ => trivial) _ 0 ((s.write msg).length + 1)
    (s.write msg).length hat (Nat.lt_succ_self _) (Nat.le_refl _) hlt
  refine ⟨parse_pushed heq, ?_⟩
  obtain ⟨pos', -, ⟨hle, -⟩, hweight⟩ := parseLoop_weighs hlawful rfl
    (fun hat heq => switch_weighs hlawful rfl hat heq) ⟨Nat.zero_le _, 0, hat⟩ heq
  rw [weight_alloc] at hweight
  omega

theorem Sized.flat {s : Struct} {msg : s.Message} (h : s.Sized msg) (hpushed : s.Pushed msg) : s.Flat msg := by
  induction s with
  | done => trivial
  | int uid vtype default fields ih => exact @ih msg.2 h hpushed
  | bytes uid fields ih => exact @ih msg.2 h hpushed
  | list uid vtype fields ih =>
    obtain ⟨_ | values, msg⟩ := msg
    · exact ⟨rfl, ih h.2 hpushed.2⟩
    · exact absurd (congrArg some h.1) hpushed.1
  | struct uid vtype fields _ ih => exact ⟨h.1, @ih msg.2 h.2 hpushed⟩

/-- A message without lists, nested structs and empty bytes round trips. One that round trips has no
lists and no nested structs, and empty bytes only beside an integer that has the value of its default. -/
theorem messages_round_trip {s : Struct} {msg : s.Message} (hs : s.Accepted) (hvalid : s.Valid msg) :
    (s.Flat msg ∧ s.Filled msg → s.RoundTrips msg) ∧
      (s.RoundTrips msg → s.Flat msg ∧ (s.Filled msg ∨ s.AtDefault msg)) := by
  constructor
  · rintro ⟨hflat, hfilled⟩
    exact ⟨restored_of_flat hs hvalid hflat hfilled, (size_eq_iff s msg).mpr hflat.sized, hflat.nestedDelimited⟩
  · rintro ⟨hrestored, hsize, -⟩
    have hsized := (size_eq_iff s msg).mp hsize
    have hlen := hsized.length_write_le hvalid
    have huids := hs.length_uids_le
    obtain ⟨hpushed, hweight⟩ := hrestored.parsed (by omega)
    have hflat := hsized.flat hpushed
    refine ⟨hflat, or_iff_not_imp_right.mpr (fun hdefault => ?_)⟩
    exact (hflat.filled hdefault).2 hweight

/-- `struct status` of `rpc/rpc.rpc`. -/
def status : Struct := int 1 .uint64 (some 0) (bytes 2 done)

/-- `response semantic_open` of `rpc/rpc.rpc`. -/
def semanticOpenResponse : Struct := struct 0 status (int 1 .uint64 none done)

theorem status_round_trips : status.RoundTrips (some 7, some [1, 2, 3], ()) :=
  (@messages_round_trip status (some 7, some [1, 2, 3], ())
    ⟨by decide, by decide, by decide, by decide, trivial⟩
    ⟨nofun, fun _ h => by cases h; decide, trivial⟩).1 ⟨trivial, nofun, trivial⟩

/-- A response with a code, a text and the id of an object. -/
def openedResponse : semanticOpenResponse.Message := (some (some 7, some [1, 2, 3], ()), some 9, ())

/-- The same without the id, which became the code. -/
def parsedResponse : semanticOpenResponse.Message := (some (some 9, some [1, 2, 3], ()), none, ())

/-- The id behind the status is parsed as the code of the status. -/
theorem semanticOpenResponse_lost :
    semanticOpenResponse.Accepted ∧ semanticOpenResponse.Valid openedResponse ∧
      semanticOpenResponse.size openedResponse = 8 ∧
      semanticOpenResponse.write openedResponse = [82, 3, 7, 36, 1, 2, 3, 3, 9] ∧
      ¬ semanticOpenResponse.Restored openedResponse ∧ ¬ semanticOpenResponse.RoundTrips openedResponse := by
  have hwrite : semanticOpenResponse.write openedResponse = [82, 3, 7, 36, 1, 2, 3, 3, 9] := by decide +kernel
  have hparse : semanticOpenResponse.parse
      { IovecReader.methods ([82, 3, 7, 36, 1, 2, 3, 3, 9].map fun b => [b]) with fetch := none } 10
      semanticOpenResponse.alloc (IovecReader.opened ([82, 3, 7, 36, 1, 2, 3, 3, 9].map fun b => [b])) 9 =
      some (some parsedResponse, { ivec := 8, offset := 1, avail := 0 }) := by
    decide +kernel
  have hlost : ¬ semanticOpenResponse.Restored openedResponse := by
    intro h
    obtain ⟨self', heq⟩ := h _ _ [] ((singletons_lawful [82, 3, 7, 36, 1, 2, 3, 3, 9]).mono fun _ _ _ => trivial)
      _ 0 10 9 ⟨IovecReader.At.opened _, Nat.zero_le _⟩ (by decide +kernel) (by decide +kernel) (by decide)
    rw [hparse] at heq
    cases heq
  exact ⟨⟨by decide, by decide, ⟨by decide, by decide, by decide, by decide, trivial⟩, by decide, by decide, trivial⟩,
    ⟨fun _ h => by cases h; exact ⟨nofun, fun _ h => by cases h; decide, trivial⟩, fun _ => rfl, trivial⟩,
    by decide +kernel, hwrite, hlost, fun h => hlost h.1⟩

end Struct

end RaleighSL.Compiler
