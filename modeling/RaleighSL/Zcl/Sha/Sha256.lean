import RaleighSL.Zcl.Sha.Sha1

/-!
# The SHA-256 hash

`hash/sha2.c`, which fills an array with the whole schedule of a block and has shorter forms of two
functions of the standard.
-/
namespace RaleighSL.Zcl.Sha.Sha256
open RaleighSL.Library RaleighSL.Zcl.Murmur3

def ch (x y z : UInt32) : UInt32 := z ^^^ (x &&& (y ^^^ z))
def maj (x y z : UInt32) : UInt32 := (x &&& y) ^^^ (z &&& (x ^^^ y))
def rot32 (x s : UInt32) : UInt32 := x >>> s ||| x <<< (32 - s)
def SIGMA0 (x : UInt32) : UInt32 := rot32 x 2 ^^^ rot32 x 13 ^^^ rot32 x 22
def SIGMA1 (x : UInt32) : UInt32 := rot32 x 6 ^^^ rot32 x 11 ^^^ rot32 x 25
def sigma0 (x : UInt32) : UInt32 := rot32 x 7 ^^^ rot32 x 18 ^^^ x >>> 3
def sigma1 (x : UInt32) : UInt32 := rot32 x 17 ^^^ rot32 x 19 ^^^ x >>> 10

def K : List UInt32 := [
  0x428a2f98, 0x71374491, 0xb5c0fbcf, 0xe9b5dba5, 0x3956c25b, 0x59f111f1, 0x923f82a4, 0xab1c5ed5,
  0xd807aa98, 0x12835b01, 0x243185be, 0x550c7dc3, 0x72be5d74, 0x80deb1fe, 0x9bdc06a7, 0xc19bf174,
  0xe49b69c1, 0xefbe4786, 0x0fc19dc6, 0x240ca1cc, 0x2de92c6f, 0x4a7484aa, 0x5cb0a9dc, 0x76f988da,
  0x983e5152, 0xa831c66d, 0xb00327c8, 0xbf597fc7, 0xc6e00bf3, 0xd5a79147, 0x06ca6351, 0x14292967,
  0x27b70a85, 0x2e1b2138, 0x4d2c6dfc, 0x53380d13, 0x650a7354, 0x766a0abb, 0x81c2c92e, 0x92722c85,
  0xa2bfe8a1, 0xa81a664b, 0xc24b8b70, 0xc76c51a3, 0xd192e819, 0xd6990624, 0xf40e3585, 0x106aa070,
  0x19a4c116, 0x1e376c08, 0x2748774c, 0x34b0bcb5, 0x391c0cb3, 0x4ed8aa4a, 0x5b9cca4f, 0x682e6ff3,
  0x748f82ee, 0x78a5636f, 0x84c87814, 0x8cc70208, 0x90befffa, 0xa4506ceb, 0xbef9a3f7, 0xc67178f2]

/-- The second loop that fills `W`, up to a place. -/
def fillW (cp : List UInt8) : Nat → Nat → UInt32
  | 0 => blockWord cp
  | n + 1 =>
    let W := fillW cp n
    let t := n + 16
    Function.update W t (sigma1 (W (t - 2)) + W (t - 7) + sigma0 (W (t - 15)) + W (t - 16))

/-- One of the sixty-four rounds, on the words `a` to `h`. -/
def round (W : Nat → UInt32) (s : Fin 8 → UInt32) (t : Nat) : Fin 8 → UInt32 :=
  let T1 := s 7 + SIGMA1 (s 4) + ch (s 4) (s 5) (s 6) + K.getD t 0 + W t
  let T2 := SIGMA0 (s 0) + maj (s 0) (s 1) (s 2)
  ![T1 + T2, s 0, s 1, s 2, s 3 + T1, s 4, s 5, s 6]

def sha256Transform (H : Fin 8 → UInt32) (cp : List UInt8) : Fin 8 → UInt32 :=
  let W := fillW cp 48
  let s := (List.range 64).foldl (round W) H
  fun k => H k + s k

def initial : Fin 8 → UInt32 :=
  ![0x6a09e667, 0xbb67ae85, 0x3c6ef372, 0xa54ff53a, 0x510e527f, 0x9b05688c, 0x1f83d9ab, 0x5be0cd19]

def sha256Update : Context 8 → List UInt8 → Option (Context 8) := update sha256Transform

def sha256Final : Context 8 → Option (List UInt8) := final sha256Transform

/-- `z_hash256_sha`, on a stack with some content. -/
def hash256Sha (memory data : List UInt8) : Option (List UInt8) :=
  (sha256Update (begin initial memory) data).bind sha256Final

/-! ### The standard -/

def schedule (words : Nat → UInt32) (t : Nat) : UInt32 :=
  if t < 16 then words t
  else sigma1 (schedule words (t - 2)) + schedule words (t - 7) + sigma0 (schedule words (t - 15)) + schedule words (t - 16)
termination_by t
decreasing_by all_goals omega

def step (words : Nat → UInt32) (s : Fin 8 → UInt32) (t : Nat) : Fin 8 → UInt32 :=
  let T1 := s 7 + SIGMA1 (s 4) + Sha1.ch (s 4) (s 5) (s 6) + K.getD t 0 + schedule words t
  let T2 := SIGMA0 (s 0) + Sha1.maj (s 0) (s 1) (s 2)
  ![T1 + T2, s 0, s 1, s 2, s 3 + T1, s 4, s 5, s 6]

def compress (state : Fin 8 → UInt32) (block : List UInt8) : Fin 8 → UInt32 :=
  fun k => state k + (List.range 64).foldl (step (blockWord block)) state k

/-! ### The rounds -/

theorem ch_eq (x y z : UInt32) : ch x y z = Sha1.ch x y z := by
  apply UInt32.eq_of_toBitVec_eq
  apply BitVec.eq_of_getElem_eq
  intro i hi
  simp only [ch, Sha1.ch, UInt32.toBitVec_xor, UInt32.toBitVec_and, UInt32.toBitVec_not, BitVec.getElem_xor,
    BitVec.getElem_and, BitVec.getElem_not]
  cases x.toBitVec[i] <;> cases y.toBitVec[i] <;> cases z.toBitVec[i] <;> rfl

theorem maj_eq (x y z : UInt32) : maj x y z = Sha1.maj x y z := by
  apply UInt32.eq_of_toBitVec_eq
  apply BitVec.eq_of_getElem_eq
  intro i hi
  simp only [maj, Sha1.maj, UInt32.toBitVec_xor, UInt32.toBitVec_and, BitVec.getElem_xor, BitVec.getElem_and]
  cases x.toBitVec[i] <;> cases y.toBitVec[i] <;> cases z.toBitVec[i] <;> rfl

/-- The array has the schedule as far as it is filled. -/
theorem fillW_eq (cp : List UInt8) (n : Nat) {t : Nat} (ht : t < n + 16) : fillW cp n t = schedule (blockWord cp) t := by
  induction n generalizing t with
  | zero => rw [fillW, schedule, if_pos ht]
  | succ n ih =>
    rw [fillW]
    by_cases heq : t = n + 16
    · rw [heq, Function.update_self, schedule, if_neg (by omega), ih (by omega), ih (by omega), ih (by omega), ih (by omega)]
    · rw [Function.update_of_ne heq, ih (by omega)]

/-- The transformation is the compression of the standard. -/
theorem sha256Transform_eq : sha256Transform = compress := by
  funext H cp k
  have hrounds : (List.range 64).foldl (round (fillW cp 48)) H = (List.range 64).foldl (step (blockWord cp)) H := by
    refine List.foldl_ext _ _ _ fun s t ht => ?_
    rw [round, step, fillW_eq cp 48 (List.mem_range.mp ht), ch_eq, maj_eq]
  exact congrArg (fun s : Fin 8 → UInt32 => H k + s k) hrounds

/-- The digest of a message that comes in parts is the hash of the whole message. -/
theorem sha256_digest {memory : List UInt8} (hmemory : memory.length = 64) {parts : List (List UInt8)}
    (hparts : ∀ part ∈ parts, part.length + 63 < 2 ^ 32) :
    (parts.foldlM sha256Update (begin initial memory)).bind sha256Final =
      some (secureHash compress initial parts.flatten) := by
  rw [← sha256Transform_eq]
  exact updates_final sha256Transform initial hmemory hparts

theorem sha256_digest_abc :
    ([[0x61], [], [0x62, 0x63]].foldlM sha256Update (begin initial (List.replicate 64 0xff))).bind sha256Final =
      some (secureHash compress initial [0x61, 0x62, 0x63]) :=
  sha256_digest (by decide) (by decide)

/-- A message of any size of 32 bits can be given at once. -/
theorem hash256Sha_eq {memory data : List UInt8} (hmemory : memory.length = 64) (hdata : data.length < 2 ^ 32) :
    hash256Sha memory data = some (secureHash compress initial data) := by
  obtain ⟨context, hupdate, hholds⟩ := (holds_begin sha256Transform initial hmemory).update data
    (by rw [List.length_nil]; omega)
  rw [hash256Sha, sha256Update, hupdate, Option.bind_some, sha256Final, hholds.final, List.nil_append, sha256Transform_eq]

example : hash256Sha (List.replicate 64 0xff) [0x61, 0x62, 0x63] =
    some [
      0xba, 0x78, 0x16, 0xbf, 0x8f, 0x01, 0xcf, 0xea, 0x41, 0x41, 0x40, 0xde, 0x5d, 0xae, 0x22, 0x23,
      0xb0, 0x03, 0x61, 0xa3, 0x96, 0x17, 0x7a, 0x9c, 0xb4, 0x10, 0xff, 0x61, 0xf2, 0x00, 0x15, 0xad] := by
  decide +kernel

end RaleighSL.Zcl.Sha.Sha256
