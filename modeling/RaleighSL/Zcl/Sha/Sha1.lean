import RaleighSL.Zcl.Murmur3
import RaleighSL.Zcl.Sha.Context
import Mathlib.Data.Fin.VecNotation
import Mathlib.Tactic.FinCases

/-!
# The SHA-1 hash

`hash/sha1.c`. The function that takes a block into the state has the names of its five words rotated
from round to round where the standard moves the words, and it has room for the last sixteen words of
the schedule. The memory has the lowest byte of a word first.
-/
namespace RaleighSL.Zcl.Sha
open RaleighSL.Library RaleighSL.Zcl.Murmur3

def bswap32 (x : UInt32) : UInt32 :=
  (x &&& 0x000000ff) <<< 24 ||| (x &&& 0x0000ff00) <<< 8 ||| (x &&& 0x00ff0000) >>> 8 ||| (x &&& 0xff000000) >>> 24

/-- The words of a block, as they are in the memory. -/
def memoryWord (block : List UInt8) (i : Nat) : UInt32 :=
  word (byteAt block (4 * i)) (byteAt block (4 * i + 1)) (byteAt block (4 * i + 2)) (byteAt block (4 * i + 3))

/-- The words of a block by the standard, with the highest byte first. -/
def blockWord (block : List UInt8) (i : Nat) : UInt32 :=
  (byteAt block (4 * i)).toUInt32 <<< 24 ||| (byteAt block (4 * i + 1)).toUInt32 <<< 16 |||
    (byteAt block (4 * i + 2)).toUInt32 <<< 8 ||| (byteAt block (4 * i + 3)).toUInt32

theorem bswap32_word (b₀ b₁ b₂ b₃ : UInt8) :
    bswap32 (word b₀ b₁ b₂ b₃) = b₀.toUInt32 <<< 24 ||| b₁.toUInt32 <<< 16 ||| b₂.toUInt32 <<< 8 ||| b₃.toUInt32 := by
  apply UInt32.eq_of_toBitVec_eq
  apply BitVec.eq_of_getElem_eq
  intro i hi
  simp [bswap32, word]
  interval_cases i <;> simp

namespace Sha1

/-- `blk0`, with the block after it. -/
def blk0 (block : Nat → UInt32) (i : Nat) : Nat → UInt32 := Function.update block i (bswap32 (block i))

/-- `blk`, with the block after it. -/
def blk (block : Nat → UInt32) (i : Nat) : Nat → UInt32 :=
  Function.update block (i &&& 15)
    (rotl32 (block (i + 13 &&& 15) ^^^ block (i + 8 &&& 15) ^^^ block (i + 2 &&& 15) ^^^ block (i &&& 15)) 1)

/-- The words `a` to `e`, and the block. -/
abbrev Work := (Fin 5 → UInt32) × (Nat → UInt32)

/-- What `R0` to `R4` have in common. -/
def R (mix : UInt32 → UInt32 → UInt32 → UInt32) (key : UInt32) (blk : (Nat → UInt32) → Nat → Nat → UInt32)
    (v w x y z : Fin 5) (i : Nat) (work : Work) : Work :=
  let block := blk work.2 i
  let words := Function.update work.1 z
    (work.1 z + (mix (work.1 w) (work.1 x) (work.1 y) + block (i &&& 15) + key + rotl32 (work.1 v) 5))
  (Function.update words w (rotl32 (words w) 30), block)

def R0 : Fin 5 → Fin 5 → Fin 5 → Fin 5 → Fin 5 → Nat → Work → Work := R (fun w x y => (w &&& (x ^^^ y)) ^^^ y) 0x5A827999 blk0
def R1 : Fin 5 → Fin 5 → Fin 5 → Fin 5 → Fin 5 → Nat → Work → Work := R (fun w x y => (w &&& (x ^^^ y)) ^^^ y) 0x5A827999 blk
def R2 : Fin 5 → Fin 5 → Fin 5 → Fin 5 → Fin 5 → Nat → Work → Work := R (fun w x y => w ^^^ x ^^^ y) 0x6ED9EBA1 blk
def R3 : Fin 5 → Fin 5 → Fin 5 → Fin 5 → Fin 5 → Nat → Work → Work := R (fun w x y => ((w ||| x) &&& y) ||| (w &&& x)) 0x8F1BBCDC blk
def R4 : Fin 5 → Fin 5 → Fin 5 → Fin 5 → Fin 5 → Nat → Work → Work := R (fun w x y => w ^^^ x ^^^ y) 0xCA62C1D6 blk

/-- The place among `a` to `e` that is argument `k` of the macro in round `i`. -/
def role (i k : Nat) : Fin 5 := Fin.ofNat 5 (4 * i + k)

def macroOf (i : Nat) : Fin 5 → Fin 5 → Fin 5 → Fin 5 → Fin 5 → Nat → Work → Work :=
  if i < 16 then R0 else if i < 20 then R1 else if i < 40 then R2 else if i < 60 then R3 else R4

def round (work : Work) (i : Nat) : Work := macroOf i (role i 0) (role i 1) (role i 2) (role i 3) (role i 4) i work

def sha1Transform (state : Fin 5 → UInt32) (buffer : List UInt8) : Fin 5 → UInt32 :=
  let work := (List.range 80).foldl round (state, memoryWord buffer)
  fun k => state k + work.1 k

def initial : Fin 5 → UInt32 := ![0x67452301, 0xEFCDAB89, 0x98BADCFE, 0x10325476, 0xC3D2E1F0]

def sha1Update : Context 5 → List UInt8 → Option (Context 5) := update sha1Transform

def sha1Final : Context 5 → Option (List UInt8) := final sha1Transform

/-- `z_hash160_sha`, on a stack with some content. -/
def hash160Sha (memory data : List UInt8) : Option (List UInt8) :=
  (sha1Update (begin initial memory) data).bind sha1Final

/-! ### The standard -/

def ch (x y z : UInt32) : UInt32 := (x &&& y) ^^^ (~~~x &&& z)
def parity (x y z : UInt32) : UInt32 := x ^^^ y ^^^ z
def maj (x y z : UInt32) : UInt32 := (x &&& y) ^^^ (x &&& z) ^^^ (y &&& z)

def mixOf (t : Nat) : UInt32 → UInt32 → UInt32 → UInt32 :=
  if t < 20 then ch else if t < 40 then parity else if t < 60 then maj else parity

def keyOf (t : Nat) : UInt32 :=
  if t < 20 then 0x5a827999 else if t < 40 then 0x6ed9eba1 else if t < 60 then 0x8f1bbcdc else 0xca62c1d6

def schedule (words : Nat → UInt32) (t : Nat) : UInt32 :=
  if t < 16 then words t
  else rotl32 (schedule words (t - 3) ^^^ schedule words (t - 8) ^^^ schedule words (t - 14) ^^^ schedule words (t - 16)) 1
termination_by t
decreasing_by all_goals omega

def step (words : Nat → UInt32) (s : Fin 5 → UInt32) (t : Nat) : Fin 5 → UInt32 :=
  ![rotl32 (s 0) 5 + mixOf t (s 1) (s 2) (s 3) + s 4 + keyOf t + schedule words t, s 0, rotl32 (s 1) 30, s 2, s 3]

def compress (state : Fin 5 → UInt32) (block : List UInt8) : Fin 5 → UInt32 :=
  fun k => state k + (List.range 80).foldl (step (blockWord block)) state k

/-! ### The rounds -/

theorem ch_eq (w x y : UInt32) : (w &&& (x ^^^ y)) ^^^ y = ch w x y := by
  apply UInt32.eq_of_toBitVec_eq
  apply BitVec.eq_of_getElem_eq
  intro i hi
  simp only [ch, UInt32.toBitVec_xor, UInt32.toBitVec_and, UInt32.toBitVec_not, BitVec.getElem_xor, BitVec.getElem_and,
    BitVec.getElem_not]
  cases w.toBitVec[i] <;> cases x.toBitVec[i] <;> cases y.toBitVec[i] <;> rfl

theorem maj_eq (w x y : UInt32) : ((w ||| x) &&& y) ||| (w &&& x) = maj w x y := by
  apply UInt32.eq_of_toBitVec_eq
  apply BitVec.eq_of_getElem_eq
  intro i hi
  simp only [maj, UInt32.toBitVec_xor, UInt32.toBitVec_or, UInt32.toBitVec_and, BitVec.getElem_xor, BitVec.getElem_or,
    BitVec.getElem_and]
  cases w.toBitVec[i] <;> cases x.toBitVec[i] <;> cases y.toBitVec[i] <;> rfl

/-- The macros have the functions and the constants of the standard. -/
theorem macroOf_eq (i : Nat) : macroOf i = R (mixOf i) (keyOf i) (if i < 16 then blk0 else blk) := by
  have hch : (fun w x y : UInt32 => (w &&& (x ^^^ y)) ^^^ y) = ch := by
    funext w x y
    exact ch_eq w x y
  have hmaj : (fun w x y : UInt32 => ((w ||| x) &&& y) ||| (w &&& x)) = maj := by
    funext w x y
    exact maj_eq w x y
  have h₀ : R0 = R ch 0x5A827999 blk0 := congrArg (fun mix => R mix 0x5A827999 blk0) hch
  have h₁ : R1 = R ch 0x5A827999 blk := congrArg (fun mix => R mix 0x5A827999 blk) hch
  have h₂ : R2 = R parity 0x6ED9EBA1 blk := rfl
  have h₃ : R3 = R maj 0x8F1BBCDC blk := congrArg (fun mix => R mix 0x8F1BBCDC blk) hmaj
  have h₄ : R4 = R parity 0xCA62C1D6 blk := rfl
  rw [macroOf, mixOf, keyOf, h₀, h₁, h₂, h₃, h₄]
  split_ifs <;> first | omega | rfl

/-- The room of the block has the words of the schedule that are still needed, and the words of the block before they are. -/
structure Expanded (buffer : List UInt8) (i : Nat) (block : Nat → UInt32) : Prop where
  before : ∀ t < i, i ≤ t + 16 → block (t % 16) = schedule (blockWord buffer) t
  after : ∀ t < 16, i ≤ t → block t = memoryWord buffer t

theorem expanded_memoryWord (buffer : List UInt8) : Expanded buffer 0 (memoryWord buffer) where
  before t ht := (Nat.not_lt_zero t ht).elim
  after _ _ _ := rfl

theorem and_fifteen (k : Nat) : k &&& 15 = k % 16 := Nat.and_two_pow_sub_one_eq_mod k 4

/-- The word that a round puts into the block, and the block after it. -/
theorem Expanded.next {buffer : List UInt8} {i : Nat} {block : Nat → UInt32} (h : Expanded buffer i block) :
    (if i < 16 then blk0 else blk) block i (i &&& 15) = schedule (blockWord buffer) i ∧
      Expanded buffer (i + 1) ((if i < 16 then blk0 else blk) block i) := by
  have hupdate : (if i < 16 then blk0 else blk) block i =
      Function.update block (i % 16) (schedule (blockWord buffer) i) := by
    rw [schedule]
    by_cases hi : i < 16
    · rw [if_pos hi, if_pos hi, blk0, h.after i hi le_rfl, Nat.mod_eq_of_lt hi]
      exact congrArg (Function.update block i) (bswap32_word ..)
    · have hback (d : Nat) (hd : d < 16) : block ((i + d) % 16) = schedule (blockWord buffer) (i - (16 - d)) := by
        rw [← h.before (i - (16 - d)) (by omega) (by omega)]
        congr 1
        omega
      have hthree := hback 13 (by decide)
      have height := hback 8 (by decide)
      have hfourteen := hback 2 (by decide)
      have hsixteen := hback 0 (by decide)
      rw [if_neg hi, if_neg hi, blk]
      simp only [and_fifteen]
      rw [hthree, height, hfourteen, ← hsixteen, Nat.add_zero]
  rw [hupdate, and_fifteen, Function.update_self]
  refine ⟨rfl, ⟨fun t ht hlate => ?_, fun t ht hlater => ?_⟩⟩
  · by_cases heq : t = i
    · rw [heq, Function.update_self]
    · rw [Function.update_of_ne (by omega), h.before t (by omega) (by omega)]
  · rw [Function.update_of_ne (by omega), h.after t ht (by omega)]

theorem role_ne {i j k : Nat} (h : j % 5 ≠ k % 5) : role i j ≠ role i k := by
  intro heq
  have hval : (4 * i + j) % 5 = (4 * i + k) % 5 := congrArg Fin.val heq
  omega

theorem role_succ (i k : Nat) : role (i + 1) k = role i (k + 4) := by
  rw [role, role, Nat.mul_succ, Nat.add_right_comm, Nat.add_assoc]

theorem role_add_five (i k : Nat) : role i (k + 5) = role i k := by
  apply Fin.ext
  show (4 * i + (k + 5)) % 5 = (4 * i + k) % 5
  omega

/-- A round is a round of the standard, read by the names that the words have in the round after it. -/
theorem round_eq {buffer : List UInt8} {i : Nat} {work : Work} {s : Fin 5 → UInt32} (h : Expanded buffer i work.2)
    (hs : ∀ k : Fin 5, work.1 (role i k) = s k) :
    Expanded buffer (i + 1) (round work i).2 ∧
      ∀ k : Fin 5, (round work i).1 (role (i + 1) k) = step (blockWord buffer) s i k := by
  obtain ⟨hword, hnext⟩ := h.next
  rw [round, macroOf_eq, R]
  simp only [hword]
  have h₀ : work.1 (role i 0) = s 0 := hs 0
  have h₁ : work.1 (role i 1) = s 1 := hs 1
  have h₂ : work.1 (role i 2) = s 2 := hs 2
  have h₃ : work.1 (role i 3) = s 3 := hs 3
  have h₄ : work.1 (role i 4) = s 4 := hs 4
  rw [Function.update_of_ne (role_ne (by decide : 1 % 5 ≠ 4 % 5)), h₀, h₁, h₂, h₃, h₄]
  refine ⟨hnext, fun k => ?_⟩
  rw [role_succ]
  match k with
  | 0 =>
    refine (Function.update_of_ne (role_ne (by decide)) _ _).trans ((Function.update_self ..).trans ?_)
    show _ = rotl32 (s 0) 5 + mixOf i (s 1) (s 2) (s 3) + s 4 + keyOf i + schedule (blockWord buffer) i
    ac_rfl
  | 1 =>
    rw [show role i ((1 : Fin 5).val + 4) = role i 0 from role_add_five i 0]
    exact (Function.update_of_ne (role_ne (by decide)) _ _).trans ((Function.update_of_ne (role_ne (by decide)) _ _).trans h₀)
  | 2 =>
    rw [show role i ((2 : Fin 5).val + 4) = role i 1 from role_add_five i 1]
    exact Function.update_self ..
  | 3 =>
    rw [show role i ((3 : Fin 5).val + 4) = role i 2 from role_add_five i 2]
    exact (Function.update_of_ne (role_ne (by decide)) _ _).trans ((Function.update_of_ne (role_ne (by decide)) _ _).trans h₂)
  | 4 =>
    rw [show role i ((4 : Fin 5).val + 4) = role i 3 from role_add_five i 3]
    exact (Function.update_of_ne (role_ne (by decide)) _ _).trans ((Function.update_of_ne (role_ne (by decide)) _ _).trans h₃)

/-- The transformation is the compression of the standard. -/
theorem sha1Transform_eq : sha1Transform = compress := by
  funext state buffer k
  have hrounds (n : Nat) : Expanded buffer n ((List.range n).foldl round (state, memoryWord buffer)).2 ∧
      ∀ j : Fin 5, ((List.range n).foldl round (state, memoryWord buffer)).1 (role n j) =
        (List.range n).foldl (step (blockWord buffer)) state j := by
    induction n with
    | zero =>
      refine ⟨expanded_memoryWord buffer, fun j => congrArg state (Fin.ext ?_)⟩
      exact (congrArg (· % 5) (Nat.zero_add j.val)).trans (Nat.mod_eq_of_lt j.isLt)
    | succ n ih =>
      rw [List.range_succ, List.foldl_append, List.foldl_append]
      exact round_eq ih.1 ih.2
  have hplace : role 80 k = k := by
    apply Fin.ext
    show (320 + k.val) % 5 = k.val
    omega
  have hlast := (hrounds 80).2 k
  rw [hplace] at hlast
  exact congrArg (state k + ·) hlast

/-- The digest of a message that comes in parts is the hash of the whole message. -/
theorem sha1_digest {memory : List UInt8} (hmemory : memory.length = 64) {parts : List (List UInt8)}
    (hparts : ∀ part ∈ parts, part.length + 63 < 2 ^ 32) :
    (parts.foldlM sha1Update (begin initial memory)).bind sha1Final = some (secureHash compress initial parts.flatten) := by
  rw [← sha1Transform_eq]
  exact updates_final sha1Transform initial hmemory hparts

theorem sha1_digest_abc : ([[0x61], [], [0x62, 0x63]].foldlM sha1Update (begin initial (List.replicate 64 0xff))).bind sha1Final =
    some (secureHash compress initial [0x61, 0x62, 0x63]) :=
  sha1_digest (by decide) (by decide)

/-- A message of any size of 32 bits can be given at once. -/
theorem hash160Sha_eq {memory data : List UInt8} (hmemory : memory.length = 64) (hdata : data.length < 2 ^ 32) :
    hash160Sha memory data = some (secureHash compress initial data) := by
  obtain ⟨context, hupdate, hholds⟩ := (holds_begin sha1Transform initial hmemory).update data
    (by rw [List.length_nil]; omega)
  rw [hash160Sha, sha1Update, hupdate, Option.bind_some, sha1Final, hholds.final, List.nil_append, sha1Transform_eq]

example : hash160Sha (List.replicate 64 0xff) [0x61, 0x62, 0x63] =
    some [0xa9, 0x99, 0x3e, 0x36, 0x47, 0x06, 0x81, 0x6a, 0xba, 0x3e, 0x25, 0x71, 0x78, 0x50, 0xc2, 0x6c, 0x9c, 0xd0, 0xd8, 0x9d] := by
  decide +kernel

end Sha1

end RaleighSL.Zcl.Sha
