import RaleighSL.Library.Area
import RaleighSL.Library.Blocks
import Mathlib.Data.List.OfFn
import Mathlib.Data.Nat.Bitwise
import Mathlib.Tactic.IntervalCases

/-!
# The contexts of the SHA hashes

The begin, update and final functions of `hash/sha1.c` and `hash/sha2.c` are the same but for the
state and the function that takes a block into it. Lengths are numbers of 32 bits. There is no result
where memory outside of the buffer or of the data would be read or written.
-/
namespace RaleighSL.Zcl.Sha
open RaleighSL.Library

/-- `SHA1_Context` and `SHA256_Context`, by the number of words of the state. -/
structure Context (n : Nat) where
  state : Fin n → UInt32
  count0 : Nat
  count1 : Nat
  buffer : List UInt8

variable {n : Nat} {transform : (Fin n → UInt32) → List UInt8 → Fin n → UInt32} {start : Fin n → UInt32}
  {context : Context n} {memory message data : List UInt8}

/-- The begin functions, which leave the buffer as the memory has it. -/
def begin (start : Fin n → UInt32) (memory : List UInt8) : Context n :=
  { state := start, count0 := 0, count1 := 0, buffer := memory }

def updateLoop (transform : (Fin n → UInt32) → List UInt8 → Fin n → UInt32) (data : List UInt8) :
    Nat → Nat → (Fin n → UInt32) → Option (Nat × (Fin n → UInt32))
  | 0, _, _ => none
  | fuel + 1, i, state =>
    if (i + 63) % 2 ^ 32 < data.length then
      (readAt data i 64).bind fun block => updateLoop transform data fuel ((i + 64) % 2 ^ 32) (transform state block)
    else some (i, state)

def keepRest (context : Context n) (j : Nat) (data : List UInt8) (i : Nat) : Option (Context n) :=
  (readAt data i ((data.length + 2 ^ 32 - i) % 2 ^ 32)).bind fun rest =>
    (writeAt context.buffer j rest).map fun buffer => { context with buffer := buffer }

def update (transform : (Fin n → UInt32) → List UInt8 → Fin n → UInt32) (context : Context n) (data : List UInt8) :
    Option (Context n) :=
  let len := data.length
  let j := context.count0 >>> 3 &&& 63
  let count0 := (context.count0 + (len <<< 3) % 2 ^ 32) % 2 ^ 32
  let count1 := if count0 < (len <<< 3) % 2 ^ 32 then context.count1 + 1 else context.count1
  let context := { context with count0 := count0, count1 := (count1 + len >>> 29) % 2 ^ 32 }
  if (j + len) % 2 ^ 32 > 63 then
    (readAt data 0 (64 - j)).bind fun first =>
      (writeAt context.buffer j first).bind fun buffer =>
        (updateLoop transform data (len + 1) (64 - j) (transform context.state buffer)).bind fun r =>
          keepRest { context with state := r.2, buffer := buffer } 0 data r.1
  else keepRest context j data 0

/-- The length in bits that the final functions put behind the message. -/
def finalcount (context : Context n) : List UInt8 :=
  (List.range 8).map fun i =>
    UInt8.ofNat ((if i ≥ 4 then context.count0 else context.count1) >>> ((3 - (i &&& 3)) * 8) &&& 255)

/-- The loops of the final functions, which put zeros behind the message. -/
def finalLoop (transform : (Fin n → UInt32) → List UInt8 → Fin n → UInt32) : Nat → Context n → Option (Context n)
  | 0, _ => none
  | fuel + 1, context =>
    if context.count0 &&& 504 ≠ 448 then (update transform context [0]).bind (finalLoop transform fuel)
    else some context

def digest (state : Fin n → UInt32) : List UInt8 :=
  List.ofFn fun i : Fin (n * 4) =>
    (state ⟨i.val >>> 2, by rw [Nat.shiftRight_eq_div_pow]; omega⟩ >>> UInt32.ofNat ((3 - (i.val &&& 3)) * 8) &&& 255).toUInt8

def final (transform : (Fin n → UInt32) → List UInt8 → Fin n → UInt32) (context : Context n) : Option (List UInt8) :=
  (update transform context [0x80]).bind fun marked =>
    (finalLoop transform 64 marked).bind fun filled =>
      (update transform filled (finalcount context)).map fun context => digest context.state

/-! ### Padded messages -/

/-- A number in eight bytes, the highest one first. -/
def bigEndian64 (k : Nat) : List UInt8 := (List.range 8).map fun i => UInt8.ofNat (k / 2 ^ (8 * (7 - i)))

/-- What stands behind a message: a bit, zeros, and the length of the message in bits, up to the end of a block. -/
def padding (length : Nat) : List UInt8 :=
  0x80 :: List.replicate ((119 - length % 64) % 64) 0 ++ bigEndian64 (8 * length)

/-- A word in four bytes, the highest one first. -/
def bigEndian (w : UInt32) : List UInt8 := [(w >>> 24).toUInt8, (w >>> 16).toUInt8, (w >>> 8).toUInt8, w.toUInt8]

/-- The hash of a message: the blocks of the padded message go into a state, whose words are the digest. -/
def secureHash (compress : (Fin n → UInt32) → List UInt8 → Fin n → UInt32) (start : Fin n → UInt32) (message : List UInt8) :
    List UInt8 :=
  (List.ofFn fun k => bigEndian (absorb compress 64 start (message ++ padding message.length) k)).flatten

/-- A context that has taken a message. -/
structure Holds (transform : (Fin n → UInt32) → List UInt8 → Fin n → UInt32) (start : Fin n → UInt32)
    (context : Context n) (message : List UInt8) : Prop where
  state : context.state = absorb transform 64 start message
  count0 : context.count0 = 8 * message.length % 2 ^ 32
  count1 : context.count1 = 8 * message.length / 2 ^ 32 % 2 ^ 32
  size : context.buffer.length = 64
  front : ∃ rest, context.buffer = leftover 64 message ++ rest

theorem holds_begin (transform : (Fin n → UInt32) → List UInt8 → Fin n → UInt32) (start : Fin n → UInt32)
    (h : memory.length = 64) : Holds transform start (begin start memory) [] where
  state := rfl
  count0 := rfl
  count1 := rfl
  size := h
  front := ⟨memory, rfl⟩

namespace Holds

theorem used (h : Holds transform start context message) : context.count0 >>> 3 &&& 63 = message.length % 64 := by
  rw [h.count0, Nat.shiftRight_eq_div_pow, show (63 : Nat) = 2 ^ 6 - 1 from rfl, Nat.and_two_pow_sub_one_eq_mod]
  omega

/-- The counters after an update. -/
theorem counted (h : Holds transform start context message) (data : List UInt8) :
    let count0 := (context.count0 + (data.length <<< 3) % 2 ^ 32) % 2 ^ 32
    count0 = 8 * (message ++ data).length % 2 ^ 32 ∧
      ((if count0 < (data.length <<< 3) % 2 ^ 32 then context.count1 + 1 else context.count1) + data.length >>> 29) % 2 ^ 32 =
        8 * (message ++ data).length / 2 ^ 32 % 2 ^ 32 := by
  simp only [h.count0, h.count1, Nat.shiftLeft_eq, Nat.shiftRight_eq_div_pow, List.length_append]
  split_ifs <;> omega

end Holds

/-! ### Updates -/

theorem readAt_drop {i : Nat} (hi : i ≤ data.length) (hlen : data.length < 2 ^ 32) :
    readAt data i ((data.length + 2 ^ 32 - i) % 2 ^ 32) = some (data.drop i) := by
  have hcount : (data.length + 2 ^ 32 - i) % 2 ^ 32 = (data.drop i).length := by
    rw [List.length_drop]
    omega
  have hread := readAt_append (data.take i) (data.drop i) []
  rwa [List.append_nil, List.take_append_drop, List.length_take_of_le hi, ← hcount] at hread

/-- The loop takes all the blocks and stops where less than a block is left. -/
theorem updateLoop_eq (state : Fin n → UInt32) (fuel i j : Nat) (hi : i ≤ data.length) (hfuel : data.length - i < fuel)
    (hdvd : 64 ∣ i + j) (hlen : j + data.length < 2 ^ 32) :
    ∃ k ≤ data.length, data.drop k = leftover 64 (data.drop i) ∧
      updateLoop transform data fuel i state = some (k, absorb transform 64 state (data.drop i)) := by
  induction fuel generalizing i state with
  | zero => exact (Nat.not_lt_zero _ hfuel).elim
  | succ fuel ih =>
    have hdrop : (data.drop i).length = data.length - i := List.length_drop
    rw [updateLoop]
    by_cases hblock : i + 64 ≤ data.length
    · have hbytes : 64 ≤ (data.drop i).length := by omega
      have hread : readAt data i 64 = some ((data.drop i).take 64) := by
        rw [readAt, if_neg (by decide), if_pos hblock]
      obtain ⟨k, hk, hrest, hloop⟩ := ih (transform state ((data.drop i).take 64)) (i + 64) hblock (by omega) (by omega)
      refine ⟨k, hk, ?_, ?_⟩
      · rw [hrest, leftover_of_le (by decide) hbytes, List.drop_drop]
      · rw [if_pos (by omega), hread, Option.bind_some, Nat.mod_eq_of_lt (by omega), hloop,
          absorb_of_le (by decide) hbytes, List.drop_drop]
    · refine ⟨i, hi, (leftover_of_lt (by omega)).symm, ?_⟩
      rw [if_neg (by omega), absorb_of_lt (by omega)]

theorem keepRest_eq (state : Fin n → UInt32) (count0 count1 : Nat) (kept : List UInt8) {rest : List UInt8} {i : Nat}
    (hi : i ≤ data.length) (hlen : data.length < 2 ^ 32) (hfit : (data.drop i).length ≤ rest.length) :
    keepRest ⟨state, count0, count1, kept ++ rest⟩ kept.length data i =
      some ⟨state, count0, count1, kept ++ (data.drop i ++ rest.drop (data.drop i).length)⟩ := by
  rw [keepRest, readAt_drop hi hlen, Option.bind_some, writeAt_behind kept hfit, Option.map_some]

theorem Holds.update (h : Holds transform start context message) (data : List UInt8) (hlen : message.length % 64 + data.length < 2 ^ 32) :
    ∃ context', update transform context data = some context' ∧ Holds transform start context' (message ++ data) := by
  obtain ⟨hcount0, hcount1⟩ := h.counted data
  obtain ⟨rest, hbuffer⟩ := h.front
  have hj : (leftover 64 message).length = message.length % 64 := length_leftover 64 message
  have hlt : (leftover 64 message).length < 64 := hj ▸ Nat.mod_lt _ (by decide)
  have hsize : (leftover 64 message).length + rest.length = 64 := by
    rw [← List.length_append, ← hbuffer, h.size]
  have hwhole : absorb transform 64 start (message ++ data) =
      absorb transform 64 (absorb transform 64 start message) (leftover 64 message ++ data) :=
    absorb_append (by decide) message data
  have hbehind : leftover 64 (message ++ data) = leftover 64 (leftover 64 message ++ data) :=
    leftover_append (by decide) message data
  simp only [Sha.update, h.used]
  rw [Nat.mod_eq_of_lt hlen]
  generalize message.length % 64 = j at hlen hj ⊢
  subst hj
  by_cases hfill : (leftover 64 message).length + data.length > 63
  · set first := data.take (64 - (leftover 64 message).length) with hfirst
    have hfits : first.length = rest.length := by
      rw [hfirst, List.length_take]
      omega
    have hblock : (leftover 64 message ++ data).take 64 = leftover 64 message ++ first := by
      rw [List.take_append, List.take_of_length_le hlt.le]
    have hafter : (leftover 64 message ++ data).drop 64 = data.drop (64 - (leftover 64 message).length) := by
      rw [List.drop_append, List.drop_of_length_le hlt.le, List.nil_append]
    have hbytes : 64 ≤ (leftover 64 message ++ data).length := by
      rw [List.length_append]
      omega
    have hread : readAt data 0 (64 - (leftover 64 message).length) = some first := by
      rw [readAt, if_neg (by omega), if_pos (by omega), List.drop_zero]
    have hwrite : writeAt context.buffer (leftover 64 message).length first = some (leftover 64 message ++ first) := by
      rw [hbuffer, writeAt_behind _ (Nat.le_of_eq hfits), hfits, List.drop_length, List.append_nil]
    obtain ⟨k, hk, hrest, hloop⟩ := updateLoop_eq (transform context.state (leftover 64 message ++ first)) (data.length + 1)
      (64 - (leftover 64 message).length) _ (by omega) (by omega) (by omega) hlen
    have hshort : (data.drop k).length < 64 := by
      rw [hrest, length_leftover]
      exact Nat.mod_lt _ (by decide)
    have hroom : (data.drop k).length ≤ (leftover 64 message ++ first).length := by
      rw [List.length_append]
      omega
    have hkeep (state : Fin n → UInt32) (count0 count1 : Nat) :
        keepRest ⟨state, count0, count1, leftover 64 message ++ first⟩ 0 data k =
          some ⟨state, count0, count1, data.drop k ++ (leftover 64 message ++ first).drop (data.drop k).length⟩ :=
      keepRest_eq state count0 count1 [] hk (by omega) hroom
    rw [if_pos hfill, hread, Option.bind_some, hwrite, Option.bind_some, hloop, Option.bind_some, hkeep]
    refine ⟨_, rfl, ⟨?_, hcount0, hcount1, ?_, ?_⟩⟩
    · rw [hwhole, absorb_of_le (by decide) hbytes, hblock, hafter, h.state]
    · simp only [List.length_append, List.length_drop] at hshort ⊢
      omega
    · rw [hbehind, leftover_of_le (by decide) hbytes, hafter, ← hrest]
      exact ⟨_, rfl⟩
  · have hbytes : (leftover 64 message ++ data).length < 64 := by
      rw [List.length_append]
      omega
    have hroom : (data.drop 0).length ≤ rest.length := by
      rw [List.drop_zero]
      omega
    rw [if_neg hfill, hbuffer, keepRest_eq _ _ _ _ (Nat.zero_le _) (by omega) hroom, List.drop_zero]
    refine ⟨_, rfl, ⟨?_, hcount0, hcount1, ?_, ?_⟩⟩
    · rw [hwhole, absorb_of_lt hbytes, h.state]
    · simp only [List.length_append, List.length_drop]
      omega
    · rw [hbehind, leftover_of_lt hbytes]
      exact ⟨_, (List.append_assoc _ _ _).symm⟩

/-! ### The digest of a message -/

theorem bits_and (k : Nat) : 8 * k % 2 ^ 32 &&& 504 = 8 * (k % 64) := by
  rw [show 8 * k % 2 ^ 32 = (k % 2 ^ 29) <<< 3 by rw [Nat.shiftLeft_eq]; omega, show 504 = 63 <<< 3 from rfl,
    ← Nat.shiftLeft_and_distrib, show (63 : Nat) = 2 ^ 6 - 1 from rfl, Nat.and_two_pow_sub_one_eq_mod, Nat.shiftLeft_eq]
  omega

/-- The loop puts zeros behind the message until eight bytes are missing to the end of a block. -/
theorem finalLoop_eq (fuel : Nat) (h : Holds transform start context message) (hfuel : (120 - message.length % 64) % 64 < fuel) :
    ∃ context', finalLoop transform fuel context = some context' ∧
      Holds transform start context' (message ++ List.replicate ((120 - message.length % 64) % 64) 0) := by
  induction fuel generalizing context message with
  | zero => exact (Nat.not_lt_zero _ hfuel).elim
  | succ fuel ih =>
    rw [finalLoop, h.count0, bits_and]
    by_cases hlast : message.length % 64 = 56
    · rw [if_neg (by omega), hlast, List.replicate_zero, List.append_nil]
      exact ⟨context, rfl, h⟩
    · obtain ⟨next, hupdate, hnext⟩ := h.update [0] (by rw [List.length_singleton]; omega)
      have hlength : (message ++ [0]).length = message.length + 1 := List.length_append
      obtain ⟨context', hloop, hholds⟩ := ih hnext (by omega)
      have hcount : (120 - message.length % 64) % 64 = (120 - (message ++ [0]).length % 64) % 64 + 1 := by omega
      rw [if_pos (by omega), hupdate, Option.bind_some, hcount, List.replicate_succ, ← List.singleton_append, ← List.append_assoc]
      exact ⟨context', hloop, hholds⟩

theorem finalcount_eq (h : Holds transform start context message) :
    finalcount context = bigEndian64 (8 * message.length) := by
  refine List.map_congr_left fun i hi => UInt8.toNat_inj.mp ?_
  rw [List.mem_range] at hi
  rw [UInt8.toNat_ofNat', UInt8.toNat_ofNat', show (255 : Nat) = 2 ^ 8 - 1 from rfl, Nat.and_two_pow_sub_one_eq_mod,
    Nat.shiftRight_eq_div_pow, h.count0, h.count1, show i &&& 3 = i % 4 from Nat.and_two_pow_sub_one_eq_mod i 2]
  interval_cases i <;> simp only [ge_iff_le, Nat.reduceLeDiff, ↓reduceIte, Nat.reduceMod, Nat.reduceSub, Nat.reduceMul, Nat.reducePow] <;> omega

theorem digest_eq (state : Fin n → UInt32) : digest state = (List.ofFn fun k => bigEndian (state k)).flatten := by
  have hplace (k : Fin n) (j : Fin 4) : (k.val * 4 + j.val) >>> 2 = k.val := by
    rw [Nat.shiftRight_eq_div_pow]
    omega
  have hbyte (k : Fin n) (j : Fin 4) : k.val * 4 + j.val &&& 3 = j.val := by
    rw [show (3 : Nat) = 2 ^ 2 - 1 from rfl, Nat.and_two_pow_sub_one_eq_mod]
    omega
  have hlow (w : UInt32) : (w &&& 255).toUInt8 = w.toUInt8 := by
    rw [UInt32.toUInt8_and]
    exact UInt8.and_neg_one
  simp only [digest, List.ofFn_mul, hplace, hbyte, hlow, Fin.eta]
  congr 2

/-- The digest of a context that has taken a message. -/
theorem Holds.final (h : Holds transform start context message) :
    final transform context = some (secureHash transform start message) := by
  obtain ⟨marked, hmark, hmarked⟩ := h.update [0x80] (by rw [List.length_singleton]; omega)
  have hlength : (message ++ [0x80]).length = message.length + 1 := List.length_append
  obtain ⟨filled, hfill, hfilled⟩ := finalLoop_eq 64 hmarked (by omega)
  obtain ⟨last, hlast, hdone⟩ := hfilled.update (finalcount context) (by rw [finalcount, List.length_map, List.length_range]; omega)
  rw [Sha.final, hmark, Option.bind_some, hfill, Option.bind_some, hlast, Option.map_some, digest_eq, hdone.state, secureHash,
    padding, finalcount_eq h, hlength, show (120 - (message.length + 1) % 64) % 64 = (119 - message.length % 64) % 64 by omega]
  simp only [List.append_assoc, List.cons_append, List.nil_append]

theorem Holds.updates (h : Holds transform start context message) {parts : List (List UInt8)}
    (hparts : ∀ part ∈ parts, part.length + 63 < 2 ^ 32) :
    ∃ context', parts.foldlM (Sha.update transform) context = some context' ∧
      Holds transform start context' (message ++ parts.flatten) := by
  induction parts generalizing context message with
  | nil => exact ⟨context, rfl, by rwa [List.flatten_nil, List.append_nil]⟩
  | cons part parts ih =>
    obtain ⟨hpart, hparts⟩ := List.forall_mem_cons.mp hparts
    obtain ⟨next, hupdate, hnext⟩ := h.update part (by omega)
    obtain ⟨context', hfold, hholds⟩ := ih hnext hparts
    rw [List.flatten_cons, ← List.append_assoc]
    exact ⟨context', by rw [List.foldlM_cons, hupdate]; exact hfold, hholds⟩

/-- The digest of a message that comes in parts. -/
theorem updates_final (transform : (Fin n → UInt32) → List UInt8 → Fin n → UInt32) (start : Fin n → UInt32)
    (hmemory : memory.length = 64) {parts : List (List UInt8)} (hparts : ∀ part ∈ parts, part.length + 63 < 2 ^ 32) :
    (parts.foldlM (update transform) (begin start memory)).bind (final transform) =
      some (secureHash transform start parts.flatten) := by
  obtain ⟨context, hfold, hholds⟩ := (holds_begin transform start hmemory).updates hparts
  rw [hfold, Option.bind_some, hholds.final, List.nil_append]

end RaleighSL.Zcl.Sha
