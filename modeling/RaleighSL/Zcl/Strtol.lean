import RaleighSL.Zcl.Map
import Mathlib.Data.Nat.Digits.Defs
import Mathlib.Data.Nat.Digits.Lemmas
import Mathlib.Tactic.IntervalCases

/-!
# Numbers as texts

`string/strtol.c` writes a number in some base into a buffer and reads it again. The digits are collected from the
last one on and then put in order, and the terminator behind them is not counted when the size of the buffer is
checked. The sign of a negative number takes the first byte without a check, and one is added to the result of the
rest, even if that is an error. In the base 8 the reading skips the first zero, which may be all there is.

A text is read up to its terminator, which it does not contain here. A negation wraps around.
-/
namespace RaleighSL.Zcl.Strtol

/-! ### Characters -/

def isspace (c : Byte) : Bool := c = 32 || (9 ≤ c && c ≤ 13)

def isdigit (c : Byte) : Bool := 48 ≤ c && c ≤ 57

def isxdigit (c : Byte) : Bool := isdigit c || (65 ≤ c && c ≤ 70) || (97 ≤ c && c ≤ 102)

def tolower (c : Byte) : Byte := if 65 ≤ c ∧ c ≤ 90 then c + 32 else c

/-! ### Reading -/

def digitValue (c : Byte) : Nat := if isdigit c then c.val - 48 else (tolower c).val - 97 + 10

/-- The loop of `__strtou64`: whether some digit was converted, and the result. -/
def strtou64Loop (base : Nat) : Bytes → Nat → Bool → Bool × Nat
  | [], result, converted => (converted, result)
  | c :: str, result, converted =>
    if isxdigit c ∧ digitValue c < base then strtou64Loop base str ((result * base + digitValue c) % 2 ^ 64) true
    else (converted, result)

/-- The part of `__strtou64` in front of the loop. -/
def skipPrefix (base : Nat) (str : Bytes) : Bytes :=
  if str.head? = some 48 then
    match base with
    | 8 => str.drop 1
    | 2 => if str[1]?.map tolower = some 98 then str.drop 2 else str
    | 16 => if str[1]?.map tolower = some 120 then str.drop 2 else str
    | _ => str
  else str

def strtou64From (base : Nat) (str : Bytes) : Bool × UInt64 :=
  let r := strtou64Loop base (skipPrefix base str) 0 false
  (r.1, UInt64.ofNat r.2)

def strtoi64From (base : Nat) (str : Bytes) : Bool × Int64 :=
  if str.head? = some 45 then
    let r := strtou64From base (str.drop 1)
    (r.1, -r.2.toInt64)
  else
    let r := strtou64From base str
    (r.1, r.2.toInt64)

def strtou64 (base : Nat) (str : Bytes) : Bool × UInt64 := strtou64From base (str.dropWhile isspace)

def strtou32 (base : Nat) (str : Bytes) : Bool × UInt32 :=
  let r := strtou64 base str
  (r.1, r.2.toUInt32)

def strtoi64 (base : Nat) (str : Bytes) : Bool × Int64 := strtoi64From base (str.dropWhile isspace)

/-! ### Writing -/

/-- The bytes that are stored, in order, with their indexes. -/
abbrev Stores := List (Nat × Byte)

def storesFrom : Nat → Bytes → Stores
  | _, [] => []
  | i, c :: data => (i, c) :: storesFrom (i + 1) data

def stored (memory : Nat → Byte) (stores : Stores) : Nat → Byte :=
  stores.foldl (fun memory p => Function.update memory p.1 p.2) memory

def digitChar (c : Nat) : Byte := Fin.ofNat 256 (if 9 < c then c - 10 + 97 else c + 48)

/-- The loop of `z_u64tostr` with the room in its own buffer, and no result beyond it. -/
def digitsLoop (base : Nat) : Nat → Nat → Option Bytes
  | 0, value => if value = 0 then some [] else none
  | room + 1, value =>
    if value = 0 then some [] else (digitsLoop base room (value / base)).map (digitChar (value % base % 256) :: ·)

def u64tostr (value : UInt64) (nptrsize : UInt32) (base : Nat) : Option (Int × Stores) :=
  if value = 0 then
    if nptrsize < 2 then some (-2, []) else some (1, storesFrom 0 [48, 0])
  else
    (digitsLoop base 64 value.toNat).map (fun buffer =>
      if nptrsize.toNat < buffer.length then (-1, []) else (buffer.length, storesFrom 0 (buffer.reverse ++ [0])))

def i64tostr (i64 : Int64) (bufsize : UInt32) (base : Nat) : Option (Int × Stores) :=
  if i64 < 0 then
    (u64tostr (-i64).toUInt64 (bufsize - 1) base).map (fun r => (1 + r.1, (0, 45) :: r.2.map (fun p => (p.1 + 1, p.2))))
  else u64tostr i64.toUInt64 bufsize base

/-! ### The round trip -/

/-- An error is returned, or the length of a text that the memory has with its terminator and that has a property, and
nothing is stored behind the buffer. -/
def Writes (memory : Nat → Byte) (size : UInt32) (Reads : Bytes → Prop) (out : Option (Int × Stores)) : Prop :=
  ∃ result stores, out = some (result, stores) ∧ (∀ p ∈ stores, p.1 < size.toNat) ∧
    (result < 0 ∨ ∃ n : Nat, result = n ∧ 0 ∉ (List.range n).map (stored memory stores) ∧ stored memory stores n = 0 ∧
      Reads ((List.range n).map (stored memory stores)))

variable {base d n value : Nat} {memory : Nat → Byte} {size : UInt32} {Reads : Bytes → Prop}

/-! ### Digits -/

/-- What the characters of the digits are. -/
theorem digitChar_spec (h : d < 16) : isxdigit (digitChar d) = true ∧ digitValue (digitChar d) = d ∧
    isspace (digitChar d) = false ∧ digitChar d ≠ 0 ∧ digitChar d ≠ 45 ∧ (digitChar d = 48 → d = 0) := by
  have hall : ∀ d < 16, isxdigit (digitChar d) = true ∧ digitValue (digitChar d) = d ∧
      isspace (digitChar d) = false ∧ digitChar d ≠ 0 ∧ digitChar d ≠ 45 ∧ (digitChar d = 48 → d = 0) := by decide
  exact hall d h

/-- The number that some digits have behind another number. -/
def numberFrom (base : Nat) (digits : List Nat) (number : Nat) : Nat := digits.foldl (fun r d => r * base + d) number

theorem numberFrom_digits (base value : Nat) : numberFrom base (Nat.digits base value).reverse 0 = value := by
  rw [numberFrom, List.foldl_reverse]
  calc (Nat.digits base value).foldr (fun d r => r * base + d) 0
      = (Nat.digits base value).foldr (fun d r => d + base * r) 0 := by
        congr 1
        funext d r
        rw [Nat.mul_comm, Nat.add_comm]
    _ = Nat.ofDigits base (Nat.digits base value) := (Nat.ofDigits_eq_foldr base _).symm
    _ = value := Nat.ofDigits_digits base value

theorem numberFrom_mod {m x y : Nat} (h : x ≡ y [MOD m]) (digits : List Nat) :
    numberFrom base digits x ≡ numberFrom base digits y [MOD m] := by
  induction digits generalizing x y with
  | nil => exact h
  | cons d digits ih => exact ih ((h.mul_right base).add_right d)

theorem strtou64Loop_digits (hbase : base ≤ 16) {digits : List Nat} (hdigits : ∀ d ∈ digits, d < base) {result : Nat}
    (hresult : result < 2 ^ 64) (converted : Bool) : strtou64Loop base (digits.map digitChar) result converted =
      (converted || !digits.isEmpty, numberFrom base digits result % 2 ^ 64) := by
  induction digits generalizing result converted with
  | nil =>
    rw [List.map_nil, strtou64Loop, numberFrom, List.foldl_nil, Nat.mod_eq_of_lt hresult]
    simp
  | cons d digits ih =>
    have hd : d < base := hdigits d List.mem_cons_self
    obtain ⟨hdigit, hvalue, -⟩ := digitChar_spec (d := d) (hd.trans_le hbase)
    have hlt : (result * base + d) % 2 ^ 64 < 2 ^ 64 := Nat.mod_lt _ (by decide)
    rw [List.map_cons, strtou64Loop, hvalue, if_pos ⟨hdigit, hd⟩,
      ih (fun c hc => hdigits c (List.mem_cons_of_mem d hc)) hlt true]
    have hmod : numberFrom base digits ((result * base + d) % 2 ^ 64) % 2 ^ 64 = numberFrom base (d :: digits) result % 2 ^ 64 :=
      numberFrom_mod (Nat.mod_modEq _ _) digits
    rw [hmod]
    simp

/-- The digits of a number, and none of a larger one than the buffer has room for. -/
theorem digitsLoop_eq (hbase : 2 ≤ base ∧ base ≤ 16) {room : Nat} (hroom : (Nat.digits base value).length ≤ room) :
    digitsLoop base room value = some ((Nat.digits base value).map digitChar) := by
  induction room generalizing value with
  | zero =>
    have hzero : value = 0 := by
      by_contra hne
      rw [Nat.digits_def' hbase.1 (Nat.pos_of_ne_zero hne), List.length_cons] at hroom
      omega
    rw [hzero, digitsLoop, if_pos rfl, Nat.digits_zero, List.map_nil]
  | succ room ih =>
    rw [digitsLoop]
    split_ifs with hzero
    · rw [hzero, Nat.digits_zero, List.map_nil]
    · have hdigits := Nat.digits_def' hbase.1 (Nat.pos_of_ne_zero hzero)
      rw [hdigits, List.length_cons] at hroom
      have hmod : value % base < base := Nat.mod_lt _ (by omega)
      rw [ih (Nat.le_of_succ_le_succ hroom), hdigits, Nat.mod_eq_of_lt (show value % base < 256 by omega)]
      rfl

theorem length_digits_le (hbase : 2 ≤ base) (hvalue : value < 2 ^ 64) : (Nat.digits base value).length ≤ 64 := by
  by_contra hlong
  have hle := (Nat.lt_digits_length_iff hbase value).mp (Nat.lt_of_not_le hlong)
  have hpow : 2 ^ 64 ≤ base ^ 64 := Nat.pow_le_pow_left hbase 64
  omega

/-! ### The text of a number -/

def text (base value : Nat) : Bytes := (Nat.digits base value).reverse.map digitChar

theorem length_text (base value : Nat) : (text base value).length = (Nat.digits base value).length := by
  rw [text, List.length_map, List.length_reverse]

section

variable (hbase : 2 ≤ base ∧ base ≤ 16)
include hbase

theorem digit_lt (h : d ∈ (Nat.digits base value).reverse) : d < 16 :=
  (Nat.digits_lt_base hbase.1 (List.mem_reverse.mp h)).trans_le hbase.2

theorem zero_not_mem_text (value : Nat) : 0 ∉ text base value := by
  intro h
  obtain ⟨d, hd, heq⟩ := List.mem_map.mp h
  exact (digitChar_spec (digit_lt hbase hd)).2.2.2.1 heq

/-- The text of a number begins with a digit that is not zero. -/
theorem text_cons (hvalue : value ≠ 0) : ∃ d str, text base value = digitChar d :: str ∧ d < 16 ∧ d ≠ 0 := by
  have hne : Nat.digits base value ≠ [] := Nat.digits_ne_nil_iff_ne_zero.mpr hvalue
  have hreverse : (Nat.digits base value).reverse =
      (Nat.digits base value).getLast hne :: (Nat.digits base value).dropLast.reverse := by
    conv_lhs => rw [← List.dropLast_append_getLast hne]
    rw [List.reverse_append]
    rfl
  have hlast : (Nat.digits base value).getLast hne < base := Nat.digits_lt_base hbase.1 (List.getLast_mem hne)
  exact ⟨_, _, by rw [text, hreverse, List.map_cons], hlast.trans_le hbase.2, Nat.getLast_digit_ne_zero base hvalue⟩

theorem strtou64From_text (hvalue : value ≠ 0) (hlt : value < 2 ^ 64) :
    strtou64From base (text base value) = (true, UInt64.ofNat value) := by
  obtain ⟨d, str, hcons, hd, hnonzero⟩ := text_cons hbase hvalue
  have hskip : skipPrefix base (text base value) = text base value := by
    rw [hcons]
    exact if_neg (fun heq => hnonzero ((digitChar_spec hd).2.2.2.2.2 (Option.some.inj heq)))
  have hloop := strtou64Loop_digits hbase.2
    (fun d hd => Nat.digits_lt_base hbase.1 (List.mem_reverse.mp hd) : ∀ d ∈ (Nat.digits base value).reverse, d < base)
    (show 0 < 2 ^ 64 by decide) false
  have hne : (Nat.digits base value).reverse ≠ [] := by
    rw [Ne, List.reverse_eq_nil_iff]
    exact Nat.digits_ne_nil_iff_ne_zero.mpr hvalue
  rw [strtou64From, hskip, text, hloop, numberFrom_digits, Nat.mod_eq_of_lt hlt, List.isEmpty_eq_false_iff.mpr hne]
  rfl

theorem dropWhile_text (hvalue : value ≠ 0) : (text base value).dropWhile isspace = text base value := by
  obtain ⟨d, str, hcons, hd, -⟩ := text_cons hbase hvalue
  rw [hcons, List.dropWhile_cons_of_neg]
  rw [(digitChar_spec hd).2.2.1]
  decide

/-- The digit of zero is skipped in the base 8. -/
theorem strtou64From_zero : strtou64From base [48] = (decide (base ≠ 8), 0) := by
  obtain ⟨hle, hge⟩ := hbase
  interval_cases base <;> rfl

end

/-! ### Stores -/

theorem stored_storesFrom (memory : Nat → Byte) (i : Nat) (data : Bytes) (j : Nat) :
    stored memory (storesFrom i data) j = if i ≤ j then data[j - i]?.getD (memory j) else memory j := by
  induction data generalizing memory i with
  | nil =>
    rw [storesFrom, stored, List.foldl_nil]
    simp
  | cons c data ih =>
    change stored (Function.update memory i c) (storesFrom (i + 1) data) j = _
    rw [ih]
    obtain hlt | heq | hgt := Nat.lt_trichotomy j i
    · rw [if_neg (by omega), if_neg (by omega), Function.update_of_ne (Nat.ne_of_lt hlt)]
    · subst heq
      rw [if_neg (by omega), if_pos (Nat.le_refl j), Function.update_self, Nat.sub_self]
      rfl
    · rw [if_pos (Nat.succ_le_of_lt hgt), if_pos (Nat.le_of_lt hgt), Function.update_of_ne (Nat.ne_of_gt hgt)]
      have hsub : j - i = j - (i + 1) + 1 := by omega
      rw [hsub, List.getElem?_cons_succ]

theorem storesFrom_inside (i n : Nat) (data : Bytes) (c : Byte) :
    (∀ p ∈ storesFrom i (data ++ [c]), p.1 < n) ↔ i + data.length < n := by
  induction data generalizing i with
  | nil => simp [storesFrom]
  | cons d data ih =>
    rw [List.cons_append, storesFrom, List.forall_mem_cons, ih, List.length_cons]
    omega

theorem map_storesFrom (i : Nat) (data : Bytes) :
    (storesFrom i data).map (fun p => (p.1 + 1, p.2)) = storesFrom (i + 1) data := by
  induction data generalizing i with
  | nil => rfl
  | cons c data ih => rw [storesFrom, List.map_cons, ih, storesFrom]

/-- A text that is stored with its terminator. -/
theorem writes_text (str : Bytes) (hstr : 0 ∉ str) :
    Writes memory size Reads (some (str.length, storesFrom 0 (str ++ [0]))) ↔ str.length < size.toNat ∧ Reads str := by
  have hmemory : ∀ j, stored memory (storesFrom 0 (str ++ [0])) j = (str ++ [0])[j]?.getD (memory j) := fun j => by
    rw [stored_storesFrom, if_pos (Nat.zero_le j), Nat.sub_zero]
  have htext : (List.range str.length).map (stored memory (storesFrom 0 (str ++ [0]))) = str := by
    apply List.ext_getElem
    · rw [List.length_map, List.length_range]
    · intro j hj hj'
      rw [List.getElem_map, List.getElem_range, hmemory, List.getElem?_append_left hj', List.getElem?_eq_getElem hj']
      rfl
  have hend : stored memory (storesFrom 0 (str ++ [0])) str.length = 0 := by
    rw [hmemory, List.getElem?_append_right (Nat.le_refl _), Nat.sub_self]
    rfl
  have hinside : (∀ p ∈ storesFrom 0 (str ++ [0]), p.1 < size.toNat) ↔ str.length < size.toNat := by
    rw [storesFrom_inside, Nat.zero_add]
  constructor
  · rintro ⟨result, stores, hout, hindexes, hresult⟩
    obtain ⟨rfl, rfl⟩ := Prod.mk.inj (Option.some.inj hout)
    obtain hneg | ⟨n, hn, -, -, hreads⟩ := hresult
    · omega
    · obtain rfl : str.length = n := by omega
      exact ⟨hinside.mp hindexes, htext ▸ hreads⟩
  · rintro ⟨hlt, hreads⟩
    refine ⟨_, _, rfl, hinside.mpr hlt, .inr ⟨str.length, rfl, ?_, hend, ?_⟩⟩
    · rwa [htext]
    · rwa [htext]

theorem writes_error {result : Int} (h : result < 0) : Writes memory size Reads (some (result, [])) :=
  ⟨result, [], rfl, fun _ hp => absurd hp List.not_mem_nil, .inl h⟩

/-! ### Numbers without a sign -/

/-- Zero is not read in the base 8, and no terminator is left out that is one byte behind the buffer. -/
def Fits (base : Nat) (size : UInt32) (value : Nat) : Prop :=
  (value = 0 → base = 8 → size < 2) ∧ (value ≠ 0 → (Nat.digits base value).length ≠ size.toNat)

instance (base : Nat) (size : UInt32) (value : Nat) : Decidable (Fits base size value) :=
  inferInstanceAs (Decidable ((value = 0 → base = 8 → size < 2) ∧ (value ≠ 0 → _ ≠ size.toNat)))

section

variable (hbase : 2 ≤ base ∧ base ≤ 16)
include hbase

theorem u64tostr_digits {value : UInt64} (hvalue : value ≠ 0) (size : UInt32) :
    u64tostr value size base =
      if size.toNat < (text base value.toNat).length then some (-1, [])
      else some (((text base value.toNat).length : Int), storesFrom 0 (text base value.toNat ++ [0])) := by
  have hlength := length_digits_le hbase.1 value.toNat_lt
  rw [u64tostr, if_neg hvalue, digitsLoop_eq hbase hlength, Option.map_some, List.length_map, ← List.map_reverse,
    ← text, length_text]
  split_ifs <;> rfl

theorem writes_u64tostr (value : UInt64) (hreads : value ≠ 0 → Reads (text base value.toNat))
    (hzero : value = 0 → (Reads [48] ↔ base ≠ 8)) :
    Writes memory size Reads (u64tostr value size base) ↔ Fits base size value.toNat := by
  by_cases hvalue : value = 0
  · subst hvalue
    have hfits : Fits base size (UInt64.toNat 0) ↔ (base = 8 → size < 2) :=
      ⟨fun h => h.1 rfl, fun h => ⟨fun _ => h, fun hne => absurd rfl hne⟩⟩
    rw [hfits, u64tostr, if_pos rfl]
    split_ifs with hsmall
    · exact iff_of_true (writes_error (by decide)) (fun _ => hsmall)
    · have hsize : [(48 : Byte)].length < size.toNat := by
        rw [UInt32.lt_iff_toNat_lt] at hsmall
        exact Nat.lt_of_not_le fun hle => hsmall (Nat.lt_succ_of_le hle)
      have htext : Writes memory size Reads (some (1, storesFrom 0 [48, 0])) ↔ _ :=
        writes_text [48] (by decide)
      rw [htext, and_iff_right hsize, hzero rfl]
      exact ⟨fun hne heq => absurd heq hne, fun h heq => hsmall (h heq)⟩
  · have hnonzero : value.toNat ≠ 0 := fun h => hvalue (UInt64.toNat_inj.mp h)
    have hfits : Fits base size value.toNat ↔ (Nat.digits base value.toNat).length ≠ size.toNat :=
      ⟨fun h => h.2 hnonzero, fun h => ⟨fun hzero => absurd hzero hnonzero, fun _ => h⟩⟩
    rw [hfits, u64tostr_digits hbase hvalue, ← length_text]
    split_ifs with hsmall
    · exact iff_of_true (writes_error (by decide)) (Nat.ne_of_gt hsmall)
    · rw [writes_text _ (zero_not_mem_text hbase _), and_iff_left (hreads hvalue)]
      omega

/-! ### Numbers with a sign -/

/-- A negative number is written with its sign where the buffer has room for it, the digits and the terminator. -/
theorem writes_i64tostr_neg {value : Int64} (hneg : value < 0) (hreads : Reads (45 :: text base (-value).toUInt64.toNat)) :
    Writes memory size Reads (i64tostr value size base) ↔
      (Nat.digits base (-value).toUInt64.toNat).length + 2 ≤ size.toNat := by
  have hnonzero : (-value).toUInt64 ≠ 0 := fun h => by
    have hzero : -value = 0 := congrArg UInt64.toInt64 h
    have hvalue : value = -0 := Int64.neg_neg.symm.trans (congrArg (fun x => -x) hzero)
    rw [hvalue] at hneg
    exact absurd hneg (by decide)
  have hlength := length_digits_le hbase.1 (-value).toUInt64.toNat_lt
  have hsign : 0 ∉ 45 :: text base (-value).toUInt64.toNat := by
    rw [List.mem_cons, not_or]
    exact ⟨by decide, zero_not_mem_text hbase _⟩
  rw [← length_text] at hlength
  rw [i64tostr, if_pos hneg, u64tostr_digits hbase hnonzero, ← length_text]
  generalize text base (-value).toUInt64.toNat = str at *
  have hsub : (size - 1).toNat = (2 ^ 32 - 1 + size.toNat) % 2 ^ 32 := UInt32.toNat_sub ..
  have hsize := size.toNat_lt
  by_cases hsmall : (size - 1).toNat < str.length
  · rw [if_pos hsmall, Option.map_some, List.map_nil]
    refine iff_of_false ?_ (by omega)
    rintro ⟨result, stores, hout, -, hneg | ⟨n, hn, -, hend, -⟩⟩
    · cases hout
      exact absurd hneg (by decide)
    · cases hout
      obtain rfl : n = 0 := Int.ofNat.inj hn.symm
      have hfirst : stored memory [(0, 45)] 0 = 45 := (stored_storesFrom memory 0 [45] 0).trans rfl
      exact absurd (hfirst.symm.trans hend) (by decide)
  · have hout : (some (((str.length : Int), storesFrom 0 (str ++ [0]))) : Option (Int × Stores)).map
        (fun r => (1 + r.1, (0, 45) :: r.2.map (fun p => (p.1 + 1, p.2)))) =
          some (((45 :: str).length : Int), storesFrom 0 (45 :: str ++ [0])) := by
      rw [Option.map_some, map_storesFrom, List.length_cons, Nat.cast_add, Nat.cast_one, Int.add_comm]
      rfl
    rw [if_neg hsmall, hout, writes_text _ hsign, and_iff_left hreads, List.length_cons]
    omega

end

theorem toNat_of_nonneg {value : Int64} (h : ¬ value < 0) : value.toUInt64.toNat = value.toInt.toNat :=
  Int64.toNat_toUInt64_of_le (Int64.not_lt.mp h)

/-- The magnitude of a negative number, which may be `2 ^ 63`. -/
theorem toNat_of_neg {value : Int64} (h : value < 0) : (-value).toUInt64.toNat = value.toInt.natAbs := by
  have hneg : value.toInt < 0 := Int64.lt_iff_toInt_lt.mp h
  have hint : value.toInt = if 2 * value.toUInt64.toNat < 2 ^ 64 then (value.toUInt64.toNat : Int)
      else value.toUInt64.toNat - 2 ^ 64 := BitVec.toInt_eq_toNat_cond value.toBitVec
  have hlt := value.toUInt64.toNat_lt
  rw [Int64.toUInt64_neg, UInt64.toNat_neg, show UInt64.size = 2 ^ 64 from rfl]
  split_ifs at hint <;> omega

/-- There is room for the sign, the digits and the terminator of a negative number. -/
def FitsSigned (base : Nat) (size : UInt32) (value : Int64) : Prop :=
  if value < 0 then (Nat.digits base value.toInt.natAbs).length + 2 ≤ size.toNat else Fits base size value.toInt.toNat

/-- The sign is read and the digits behind it. -/
theorem strtoi64_negative (hbase : 2 ≤ base ∧ base ≤ 16) {value : Int64} (hneg : value < 0) :
    strtoi64 base (45 :: text base (-value).toUInt64.toNat) = (true, value) := by
  have hnonzero : (-value).toUInt64.toNat ≠ 0 := by
    have hlt : value.toInt < 0 := Int64.lt_iff_toInt_lt.mp hneg
    rw [toNat_of_neg hneg]
    omega
  have hspace : (45 :: text base (-value).toUInt64.toNat).dropWhile isspace = 45 :: text base (-value).toUInt64.toNat := rfl
  rw [strtoi64, hspace, strtoi64From, List.head?_cons, if_pos rfl, List.drop_one, List.tail_cons,
    strtou64From_text hbase hnonzero (-value).toUInt64.toNat_lt, UInt64.ofNat_toNat]
  exact congrArg (Prod.mk true) Int64.neg_neg

theorem strtoi64_text (hbase : 2 ≤ base ∧ base ≤ 16) {value : Int64} (hvalue : value.toUInt64 ≠ 0) :
    strtoi64 base (text base value.toUInt64.toNat) = (true, value) := by
  have hnonzero : value.toUInt64.toNat ≠ 0 := fun h => hvalue (UInt64.toNat_inj.mp h)
  obtain ⟨d, str, hcons, hd, -⟩ := text_cons hbase hnonzero
  have hsign : (text base value.toUInt64.toNat).head? ≠ some 45 := by
    rw [hcons, List.head?_cons]
    exact fun h => (digitChar_spec hd).2.2.2.2.1 (Option.some.inj h)
  rw [strtoi64, dropWhile_text hbase hnonzero, strtoi64From, if_neg hsign,
    strtou64From_text hbase hnonzero value.toUInt64.toNat_lt, UInt64.ofNat_toNat]
  rfl

/-- Every number is written and read again, or refused, if and only if it fits. -/
theorem tostr_round_trips_iff (hbase : 2 ≤ base ∧ base ≤ 16) (memory : Nat → Byte) (size : UInt32) :
    (∀ value : UInt64, Writes memory size (fun str => strtou64 base str = (true, value)) (u64tostr value size base) ↔
      Fits base size value.toNat) ∧
    ∀ value : Int64, Writes memory size (fun str => strtoi64 base str = (true, value)) (i64tostr value size base) ↔
      FitsSigned base size value := by
  have hspace : ([48] : Bytes).dropWhile isspace = [48] := rfl
  constructor
  · intro value
    refine writes_u64tostr hbase value (fun hvalue => ?_) (fun hvalue => ?_)
    · have hnonzero : value.toNat ≠ 0 := fun h => hvalue (UInt64.toNat_inj.mp h)
      rw [strtou64, dropWhile_text hbase hnonzero, strtou64From_text hbase hnonzero value.toNat_lt, UInt64.ofNat_toNat]
    · rw [strtou64, hspace, strtou64From_zero hbase, hvalue]
      simp
  · intro value
    rw [FitsSigned]
    split_ifs with hneg
    · rw [writes_i64tostr_neg hbase hneg (strtoi64_negative hbase hneg), toNat_of_neg hneg]
    · rw [i64tostr, if_neg hneg, ← toNat_of_nonneg hneg]
      refine writes_u64tostr hbase _ (fun hvalue => strtoi64_text hbase hvalue) (fun hvalue => ?_)
      have hzero : value = 0 := congrArg UInt64.toInt64 hvalue
      rw [strtoi64, hspace, strtoi64From, if_neg (by decide), strtou64From_zero hbase, hzero]
      simp

theorem round_trip_small : Writes (fun _ => 0) 4 (fun str => strtou64 16 str = (true, 255)) (u64tostr 255 4 16) ∧
    Writes (fun _ => 0) 4 (fun str => strtoi64 10 str = (true, -12)) (i64tostr (-12) 4 10) :=
  ⟨((tostr_round_trips_iff (by decide) _ 4).1 255).mpr ⟨by decide, fun _ => by simp⟩,
    ((tostr_round_trips_iff (by decide) _ 4).2 (-12)).mpr (by simp [FitsSigned])⟩

/-- The terminator is stored behind a buffer of the length of the text. -/
theorem terminator_behind_buffer : u64tostr 255 2 16 = some (2, [(0, 102), (1, 102), (2, 0)]) ∧
    ¬ Writes (fun _ => 0) 2 (fun str => strtou64 16 str = (true, 255)) (u64tostr 255 2 16) := by
  have hout : u64tostr 255 2 16 = some (2, [(0, 102), (1, 102), (2, 0)]) := by decide
  refine ⟨hout, ?_⟩
  rintro ⟨result, stores, heq, hinside, -⟩
  rw [hout] at heq
  cases heq
  exact absurd (hinside (2, 0) (by decide)) (by decide)

/-- Zero is not read again in the base 8, and an error behind a sign is no error. -/
example : strtou64 8 [48] = (false, 0) ∧ i64tostr (-12) 1 10 = some (0, [(0, 45)]) := by decide

end RaleighSL.Zcl.Strtol
