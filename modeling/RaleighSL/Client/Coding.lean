import RaleighSL.Zcl.Coding.IntGroup

/-!
# The integers of the client

`raleigh-client/pyraleigh/raleigh/coding.py`: its integers have no bound, and reading behind
the end of a buffer raises an error. It writes and accepts the bytes of `io/coding`.
-/
namespace RaleighSL.Client
open Zcl (Byte Bytes)
open Zcl.Coding (number)

def uintBytes (value : Nat) : Nat :=
  if value < 1 <<< 32 then
    if value < 1 <<< 8 then 1
    else if value < 1 <<< 16 then 2
    else if value < 1 <<< 24 then 3
    else 4
  else if value < 1 <<< 40 then 5
  else if value < 1 <<< 48 then 6
  else if value < 1 <<< 56 then 7
  else 8

/-- `z_encode_uint`: only the first eight bytes are set. -/
def encodeUint (length value : Nat) : Bytes :=
  (List.range length).map (fun i => if i < 8 then Fin.ofNat 256 (value >>> (8 * i) &&& 0xff) else 0)

/-- `z_decode_uint`, none for an index error: at most eight bytes are read. -/
def decodeUint (buf : Bytes) (length : Nat) : Option Nat :=
  if min length 8 ≤ buf.length then some (number (buf.take (min length 8))) else none

/-- The loop of `z_encode_vint`. -/
def encodeVintFrom (bits value : Nat) : Bytes :=
  if value ≠ 0 then Fin.ofNat 256 (0x80 ||| bits) :: encodeVintFrom (value &&& 0x7f) (value >>> 7)
  else [Fin.ofNat 256 bits]
termination_by value
decreasing_by
  rw [Nat.shiftRight_eq_div_pow]
  omega

def encodeVint (value : Nat) : Bytes := encodeVintFrom (value &&& 0x7f) (value >>> 7)

/-- The loop of `z_decode_vint` over the shifts, none for an index error. -/
def decodeVintFrom : Bytes → List Nat → Nat → Nat → Option (Option (Nat × Nat))
  | _, [], _, _ => some none
  | [], _ :: _, _, _ => none
  | b :: buf, shift :: shifts, result, index =>
    if b.val &&& 128 ≠ 0 then decodeVintFrom buf shifts (result ||| (b.val &&& 0x7f) <<< shift) (index + 1)
    else some (some (index + 1, result ||| b.val <<< shift))

/-- `z_decode_vint`, with the shifts of `xrange(0, 64, 7)`: the number of bytes and the value. -/
def decodeVint (buf : Bytes) : Option (Option (Nat × Nat)) := decodeVintFrom buf (List.range' 0 10 7) 0 0

theorem uintBytes_eq (value : Nat) : uintBytes value = Zcl.Coding.uint64Size value := rfl

theorem encodeUint_eq {length : Nat} (h : length ≤ 8) (value : Nat) :
    encodeUint length value = Zcl.Coding.encodeUint length value := by
  refine List.map_congr_left (fun i hi => ?_)
  have hi8 : i < 8 := Nat.lt_of_lt_of_le (List.mem_range.mp hi) h
  rw [if_pos hi8, Nat.and_two_pow_sub_one_eq_mod _ 8]
  exact Fin.ext (Nat.mod_mod _ _)

theorem decodeUint_eq {length : Nat} (h : length ≤ 8) (buf : Bytes) :
    decodeUint buf length = Zcl.Coding.decodeUint buf length := by
  rw [decodeUint, Nat.min_eq_left h, Zcl.Coding.decodeUint]

theorem encodeVintFrom_eq (value : Nat) :
    encodeVintFrom (value &&& 0x7f) (value >>> 7) = Zcl.Coding.encodeVint value := by
  induction value using Nat.strongRecOn with
  | ind value ih =>
    rw [encodeVintFrom, Zcl.Coding.encodeVint]
    by_cases h : 128 ≤ value
    · have hne : value >>> 7 ≠ 0 := by
        rw [Nat.shiftRight_eq_div_pow]
        omega
      have hlt : value >>> 7 < value := by
        rw [Nat.shiftRight_eq_div_pow]
        omega
      rw [if_pos hne, if_pos h, ih _ hlt, Nat.or_comm]
    · have heq : ¬ value >>> 7 ≠ 0 := by
        rw [Nat.shiftRight_eq_div_pow]
        omega
      rw [if_neg heq, if_neg h]

theorem encodeVint_eq (value : Nat) : encodeVint value = Zcl.Coding.encodeVint value := encodeVintFrom_eq value

/-- The result over 64 bits of a decoding without a bound: an error is a rejection. -/
def truncated (decoded : Option (Option (Nat × Nat))) : Option (Nat × Nat) :=
  decoded.join.map (fun r => (r.2 % 2 ^ 64, r.1))

theorem decodeVintFrom_eq (buf : Bytes) {n count : Nat} (hn : count + n = 10) (result : Nat) :
    Zcl.Coding.decodeVintFrom (count + buf.length) buf (7 * count) (result % 2 ^ 64) count =
      some (truncated (decodeVintFrom buf (List.range' (7 * count) n 7) result count)) := by
  induction buf generalizing n count result with
  | nil => cases n <;> simp [Zcl.Coding.decodeVintFrom, decodeVintFrom, truncated, List.range'_succ]
  | cons b buf ih =>
    cases n with
    | zero =>
      have hshift : ¬ (7 * count ≤ 63 ∧ count < count + (b :: buf).length) := by omega
      rw [Zcl.Coding.decodeVintFrom, if_neg hshift]
      rfl
    | succ n =>
      have hshift : 7 * count ≤ 63 ∧ count < count + (b :: buf).length := by
        rw [List.length_cons]
        omega
      have hlen : count + (b :: buf).length = count + 1 + buf.length := by
        rw [List.length_cons, Nat.add_right_comm, Nat.add_assoc]
      rw [Zcl.Coding.decodeVintFrom, if_pos hshift, List.range'_succ, decodeVintFrom]
      split
      · rw [← Nat.or_mod_two_pow, hlen]
        exact ih (by omega) _
      · rw [← Nat.or_mod_two_pow]
        rfl

theorem decodeVint_eq (buf : Bytes) : Zcl.Coding.decodeVint buf buf.length = some (truncated (decodeVint buf)) := by
  have h := decodeVintFrom_eq buf (by decide : 0 + 10 = 10) 0
  rw [Nat.zero_add] at h
  exact h

/-- The integer codecs: encodings are decoded with their sizes, a part of one is rejected, the
decoder stays within `buflen` and ten bytes, the groups are decoded, the widths are the least
ones, and the client writes and accepts the same bytes. -/
theorem integer_codecs :
    (∀ value < 2 ^ 64,
      (Zcl.Coding.encodeVint value).length = Zcl.Coding.vintSize value ∧
      (∀ rest buflen, (Zcl.Coding.encodeVint value).length ≤ buflen →
        Zcl.Coding.decodeVint (Zcl.Coding.encodeVint value ++ rest) buflen =
          some (some (value, Zcl.Coding.vintSize value))) ∧
      (∀ p q rest, Zcl.Coding.encodeVint value = p ++ q → q ≠ [] →
        Zcl.Coding.decodeVint (p ++ rest) p.length = some none)) ∧
    (∀ buf buflen, min buflen 10 ≤ buf.length → (Zcl.Coding.decodeVint buf buflen).isSome) ∧
    (∀ a < 2 ^ 32, ∀ b < 2 ^ 32, ∀ c < 2 ^ 32, ∀ d < 2 ^ 32, ∀ rest,
      Zcl.Coding.decode4int (Zcl.Coding.encode4int a b c d ++ rest) =
        some ([a, b, c, d], (Zcl.Coding.encode4int a b c d).length)) ∧
    (∀ a < 2 ^ 64, ∀ b < 2 ^ 64, ∀ c < 2 ^ 32, ∀ rest,
      Zcl.Coding.decode3int (Zcl.Coding.encode3int a b c ++ rest) =
        some ([a, b, c], (Zcl.Coding.encode3int a b c).length)) ∧
    (∀ value < 2 ^ 32, Zcl.Coding.Minimal (Zcl.Coding.uint32Size value) value) ∧
    (∀ value < 2 ^ 64, Zcl.Coding.Minimal (Zcl.Coding.uint64Size value) value) ∧
    (∀ value < 2 ^ 64, encodeVint value = Zcl.Coding.encodeVint value) ∧
    (∀ buf, Zcl.Coding.decodeVint buf buf.length = some (truncated (decodeVint buf))) := by
  refine ⟨fun value h => ⟨(Zcl.Coding.vintSize_eq h).symm, fun rest buflen hlen => ?_, fun p q rest hpq hq => ?_⟩,
    fun buf buflen h => Zcl.Coding.decodeVint_isSome h, fun a ha b hb c hc d hd => ?_, fun a ha b hb c hc => ?_,
    fun value h => Zcl.Coding.uint32Size_minimal h, fun value h => Zcl.Coding.uint64Size_minimal h,
    fun value _ => encodeVint_eq value, decodeVint_eq⟩
  · rw [Zcl.Coding.vintSize_eq h]
    exact Zcl.Coding.decodeVint_encodeVint h hlen rest
  · exact Zcl.Coding.decodeVint_prefix hpq hq rest
  · exact Zcl.Coding.decode4int_encode4int ha hb hc hd
  · exact Zcl.Coding.decode3int_encode3int ha hb hc

end RaleighSL.Client
