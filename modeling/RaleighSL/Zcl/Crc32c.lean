import RaleighSL.Library.Crc
import Mathlib.Algebra.Order.Ring.Nat

/-!
# CRC-32C

`hash/crc32c.c`: the function that takes one byte after the other through a table, and the one that
calls instructions of the processor for eight bytes at a time and for the bytes that remain. The
instructions are parameters. What is assumed of them is that each takes the bytes of its word, the
lowest first, through the steps of the bit-serial check.
-/
namespace RaleighSL.Zcl.Crc32c

open RaleighSL.Library

abbrev Byte8 := BitVec 8

def table : List (BitVec 32) :=
  [
    0x00000000, 0xF26B8303, 0xE13B70F7, 0x1350F3F4, 0xC79A971F, 0x35F1141C, 0x26A1E7E8, 0xD4CA64EB,
    0x8AD958CF, 0x78B2DBCC, 0x6BE22838, 0x9989AB3B, 0x4D43CFD0, 0xBF284CD3, 0xAC78BF27, 0x5E133C24,
    0x105EC76F, 0xE235446C, 0xF165B798, 0x030E349B, 0xD7C45070, 0x25AFD373, 0x36FF2087, 0xC494A384,
    0x9A879FA0, 0x68EC1CA3, 0x7BBCEF57, 0x89D76C54, 0x5D1D08BF, 0xAF768BBC, 0xBC267848, 0x4E4DFB4B,
    0x20BD8EDE, 0xD2D60DDD, 0xC186FE29, 0x33ED7D2A, 0xE72719C1, 0x154C9AC2, 0x061C6936, 0xF477EA35,
    0xAA64D611, 0x580F5512, 0x4B5FA6E6, 0xB93425E5, 0x6DFE410E, 0x9F95C20D, 0x8CC531F9, 0x7EAEB2FA,
    0x30E349B1, 0xC288CAB2, 0xD1D83946, 0x23B3BA45, 0xF779DEAE, 0x05125DAD, 0x1642AE59, 0xE4292D5A,
    0xBA3A117E, 0x4851927D, 0x5B016189, 0xA96AE28A, 0x7DA08661, 0x8FCB0562, 0x9C9BF696, 0x6EF07595,
    0x417B1DBC, 0xB3109EBF, 0xA0406D4B, 0x522BEE48, 0x86E18AA3, 0x748A09A0, 0x67DAFA54, 0x95B17957,
    0xCBA24573, 0x39C9C670, 0x2A993584, 0xD8F2B687, 0x0C38D26C, 0xFE53516F, 0xED03A29B, 0x1F682198,
    0x5125DAD3, 0xA34E59D0, 0xB01EAA24, 0x42752927, 0x96BF4DCC, 0x64D4CECF, 0x77843D3B, 0x85EFBE38,
    0xDBFC821C, 0x2997011F, 0x3AC7F2EB, 0xC8AC71E8, 0x1C661503, 0xEE0D9600, 0xFD5D65F4, 0x0F36E6F7,
    0x61C69362, 0x93AD1061, 0x80FDE395, 0x72966096, 0xA65C047D, 0x5437877E, 0x4767748A, 0xB50CF789,
    0xEB1FCBAD, 0x197448AE, 0x0A24BB5A, 0xF84F3859, 0x2C855CB2, 0xDEEEDFB1, 0xCDBE2C45, 0x3FD5AF46,
    0x7198540D, 0x83F3D70E, 0x90A324FA, 0x62C8A7F9, 0xB602C312, 0x44694011, 0x5739B3E5, 0xA55230E6,
    0xFB410CC2, 0x092A8FC1, 0x1A7A7C35, 0xE811FF36, 0x3CDB9BDD, 0xCEB018DE, 0xDDE0EB2A, 0x2F8B6829,
    0x82F63B78, 0x709DB87B, 0x63CD4B8F, 0x91A6C88C, 0x456CAC67, 0xB7072F64, 0xA457DC90, 0x563C5F93,
    0x082F63B7, 0xFA44E0B4, 0xE9141340, 0x1B7F9043, 0xCFB5F4A8, 0x3DDE77AB, 0x2E8E845F, 0xDCE5075C,
    0x92A8FC17, 0x60C37F14, 0x73938CE0, 0x81F80FE3, 0x55326B08, 0xA759E80B, 0xB4091BFF, 0x466298FC,
    0x1871A4D8, 0xEA1A27DB, 0xF94AD42F, 0x0B21572C, 0xDFEB33C7, 0x2D80B0C4, 0x3ED04330, 0xCCBBC033,
    0xA24BB5A6, 0x502036A5, 0x4370C551, 0xB11B4652, 0x65D122B9, 0x97BAA1BA, 0x84EA524E, 0x7681D14D,
    0x2892ED69, 0xDAF96E6A, 0xC9A99D9E, 0x3BC21E9D, 0xEF087A76, 0x1D63F975, 0x0E330A81, 0xFC588982,
    0xB21572C9, 0x407EF1CA, 0x532E023E, 0xA145813D, 0x758FE5D6, 0x87E466D5, 0x94B49521, 0x66DF1622,
    0x38CC2A06, 0xCAA7A905, 0xD9F75AF1, 0x2B9CD9F2, 0xFF56BD19, 0x0D3D3E1A, 0x1E6DCDEE, 0xEC064EED,
    0xC38D26C4, 0x31E6A5C7, 0x22B65633, 0xD0DDD530, 0x0417B1DB, 0xF67C32D8, 0xE52CC12C, 0x1747422F,
    0x49547E0B, 0xBB3FFD08, 0xA86F0EFC, 0x5A048DFF, 0x8ECEE914, 0x7CA56A17, 0x6FF599E3, 0x9D9E1AE0,
    0xD3D3E1AB, 0x21B862A8, 0x32E8915C, 0xC083125F, 0x144976B4, 0xE622F5B7, 0xF5720643, 0x07198540,
    0x590AB964, 0xAB613A67, 0xB831C993, 0x4A5A4A90, 0x9E902E7B, 0x6CFBAD78, 0x7FAB5E8C, 0x8DC0DD8F,
    0xE330A81A, 0x115B2B19, 0x020BD8ED, 0xF0605BEE, 0x24AA3F05, 0xD6C1BC06, 0xC5914FF2, 0x37FACCF1,
    0x69E9F0D5, 0x9B8273D6, 0x88D28022, 0x7AB90321, 0xAE7367CA, 0x5C18E4C9, 0x4F48173D, 0xBD23943E,
    0xF36E6F75, 0x0105EC76, 0x12551F82, 0xE03E9C81, 0x34F4F86A, 0xC69F7B69, 0xD5CF889D, 0x27A40B9E,
    0x79B737BA, 0x8BDCB4B9, 0x988C474D, 0x6AE7C44E, 0xBE2DA0A5, 0x4C4623A6, 0x5F16D052, 0xAD7D5351
  ]

/-- The reflected polynomial of CRC-32C. -/
def polynomial : BitVec 32 := 0x82F63B78

/-! ### The table -/

def csum32Crcc (csum : BitVec 32) : List Byte8 → BitVec 32
  | [] => csum
  | p :: data => csum32Crcc (table.getD ((csum ^^^ p.setWidth 32) &&& 0xFF).toNat 0 ^^^ csum >>> 8) data

/-- The entries of the table are the registers that hold one byte, eight bits later. -/
theorem table_eq_map : table = (List.range 256).map (fun i => Crc.bits polynomial 8 (BitVec.ofNat 32 i)) := by
  decide +kernel

theorem table_eq (i : Nat) (hi : i < 256) : table.getD i 0 = Crc.bits polynomial 8 (BitVec.ofNat 32 i) := by
  rw [table_eq_map, List.getD_eq_getElem?_getD, List.getElem?_map, List.getElem?_range hi]
  rfl

theorem and_mask (x : BitVec 32) : (x &&& 0xFF).toNat = (x.setWidth 8).toNat := by
  rw [BitVec.toNat_and, BitVec.toNat_setWidth]
  exact Nat.and_two_pow_sub_one_eq_mod x.toNat 8

/-- The table takes a byte through the steps of the check. -/
theorem csum32Crcc_eq (csum : BitVec 32) (data : List Byte8) :
    csum32Crcc csum data = data.foldl (Crc.byteStep polynomial) csum := by
  induction data generalizing csum with
  | nil => rfl
  | cons p data ih =>
    rw [csum32Crcc, List.foldl_cons, ih, Crc.byteStep_eq_table table_eq, and_mask]

/-! ### The instructions -/

/-- `__builtin_ia32_crc32qi`, `__builtin_ia32_crc32hi`, `__builtin_ia32_crc32si` and `__builtin_ia32_crc32di`. -/
structure Instructions where
  crc32qi : BitVec 32 → BitVec 8 → BitVec 32
  crc32hi : BitVec 32 → BitVec 16 → BitVec 32
  crc32si : BitVec 32 → BitVec 32 → BitVec 32
  crc32di : BitVec 32 → BitVec 64 → BitVec 32

def bytesOf (n : Nat) (word : BitVec (8 * n)) : List Byte8 := (List.range n).map (fun i => word.extractLsb' (8 * i) 8)

/-- Each instruction takes the bytes of its word through the steps of the check. -/
structure Bytewise (cpu : Instructions) : Prop where
  qi : ∀ csum word, cpu.crc32qi csum word = (bytesOf 1 word).foldl (Crc.byteStep polynomial) csum
  hi : ∀ csum word, cpu.crc32hi csum word = (bytesOf 2 word).foldl (Crc.byteStep polynomial) csum
  si : ∀ csum word, cpu.crc32si csum word = (bytesOf 4 word).foldl (Crc.byteStep polynomial) csum
  di : ∀ csum word, cpu.crc32di csum word = (bytesOf 8 word).foldl (Crc.byteStep polynomial) csum

/-- The number that bytes stand for, the lowest first. -/
def leNat : List Byte8 → Nat
  | [] => 0
  | b :: bs => b.toNat + 256 * leNat bs

/-- A word of `n` bytes that is read from the memory. -/
def load (n : Nat) (p : List Byte8) : BitVec (8 * n) := BitVec.ofNat (8 * n) (leNat (p.take n))

namespace Instructions

variable (cpu : Instructions)

/-- The loop over words of eight bytes: the check and the bytes that remain. -/
def words (csum : BitVec 32) (p : List Byte8) : BitVec 32 × List Byte8 :=
  if 8 ≤ p.length then words (cpu.crc32di csum (load 8 p)) (p.drop 8) else (csum, p)
termination_by p.length
decreasing_by
  rw [List.length_drop]
  omega

def case1 (csum : BitVec 32) (p : List Byte8) : BitVec 32 := cpu.crc32qi csum (load 1 p)

def case5 (csum : BitVec 32) (p : List Byte8) : BitVec 32 := cpu.case1 (cpu.crc32si csum (load 4 p)) (p.drop 4)

def case2 (csum : BitVec 32) (p : List Byte8) : BitVec 32 := cpu.crc32hi csum (load 2 p)

def case3 (csum : BitVec 32) (p : List Byte8) : BitVec 32 := cpu.case2 (cpu.crc32qi csum (load 1 p)) (p.drop 1)

def case4 (csum : BitVec 32) (p : List Byte8) : BitVec 32 := cpu.crc32si csum (load 4 p)

def case6 (csum : BitVec 32) (p : List Byte8) : BitVec 32 := cpu.case4 (cpu.crc32hi csum (load 2 p)) (p.drop 2)

def case7 (csum : BitVec 32) (p : List Byte8) : BitVec 32 := cpu.case6 (cpu.crc32qi csum (load 1 p)) (p.drop 1)

def csum32Crcc (csum : BitVec 32) (data : List Byte8) : BitVec 32 :=
  let r := cpu.words csum data
  match r.2.length with
  | 7 => cpu.case7 r.1 r.2
  | 6 => cpu.case6 r.1 r.2
  | 4 => cpu.case4 r.1 r.2
  | 3 => cpu.case3 r.1 r.2
  | 2 => cpu.case2 r.1 r.2
  | 5 => cpu.case5 r.1 r.2
  | 1 => cpu.case1 r.1 r.2
  | _ => r.1

end Instructions

/-! ### Words and bytes -/

theorem leNat_lt (bs : List Byte8) : leNat bs < 2 ^ (8 * bs.length) := by
  induction bs with
  | nil => exact Nat.one_pos
  | cons b bs ih =>
    have hpow : 2 ^ (8 * (bs.length + 1)) = 2 ^ (8 * bs.length) * 256 := by rw [Nat.mul_succ, Nat.pow_add]
    have hb := b.isLt
    rw [leNat, List.length_cons, hpow]
    omega

/-- The byte at a place of the number. -/
theorem leNat_byte (bs : List Byte8) (i : Nat) (hi : i < bs.length) :
    BitVec.ofNat 8 (leNat bs >>> (8 * i)) = bs[i] := by
  induction bs generalizing i with
  | nil => exact absurd hi (Nat.not_lt_zero i)
  | cons b bs ih =>
    cases i with
    | zero =>
      apply BitVec.eq_of_toNat_eq
      have hb := b.isLt
      rw [Nat.mul_zero, Nat.shiftRight_zero, BitVec.toNat_ofNat, leNat, List.getElem_cons_zero]
      omega
    | succ i =>
      have hshift : leNat (b :: bs) >>> (8 * (i + 1)) = leNat bs >>> (8 * i) := by
        have hb := b.isLt
        have hbyte : leNat (b :: bs) >>> 8 = leNat bs := by
          rw [Nat.shiftRight_eq_div_pow, leNat]
          omega
        rw [Nat.mul_succ, Nat.add_comm, Nat.shiftRight_add, hbyte]
      rw [hshift, List.getElem_cons_succ]
      exact ih i (Nat.lt_of_succ_lt_succ hi)

/-- A word that is read has the bytes of the memory. -/
theorem bytesOf_load {n : Nat} {p : List Byte8} (h : n ≤ p.length) : bytesOf n (load n p) = p.take n := by
  have hlen : (p.take n).length = n := List.length_take_of_le h
  have hlt : leNat (p.take n) < 2 ^ (8 * n) := by
    have hbound := leNat_lt (p.take n)
    rwa [hlen] at hbound
  apply List.ext_getElem
  · rw [bytesOf, List.length_map, List.length_range, hlen]
  · intro i hi hi'
    have hget : (bytesOf n (load n p))[i] = (load n p).extractLsb' (8 * i) 8 := by simp [bytesOf]
    rw [hget, ← leNat_byte (p.take n) i hi']
    apply BitVec.eq_of_toNat_eq
    rw [BitVec.extractLsb'_toNat, load, BitVec.toNat_ofNat, BitVec.toNat_ofNat, Nat.mod_eq_of_lt hlt]

/-! ### Both functions -/

def checked (csum : BitVec 32) (data : List Byte8) : BitVec 32 := data.foldl (Crc.byteStep polynomial) csum

theorem checked_append (csum : BitVec 32) (a b : List Byte8) : checked csum (a ++ b) = checked (checked csum a) b :=
  List.foldl_append

theorem checked_take (csum : BitVec 32) (n : Nat) (p : List Byte8) :
    checked csum p = checked (checked csum (p.take n)) (p.drop n) := by
  rw [← checked_append, List.take_append_drop]

namespace Bytewise

variable {cpu : Instructions} (h : Bytewise cpu)
include h

theorem qi_load {csum : BitVec 32} {p : List Byte8} (hp : 1 ≤ p.length) :
    cpu.crc32qi csum (load 1 p) = checked csum (p.take 1) := by
  rw [h.qi csum (load 1 p), bytesOf_load hp, checked]

theorem hi_load {csum : BitVec 32} {p : List Byte8} (hp : 2 ≤ p.length) :
    cpu.crc32hi csum (load 2 p) = checked csum (p.take 2) := by
  rw [h.hi csum (load 2 p), bytesOf_load hp, checked]

theorem si_load {csum : BitVec 32} {p : List Byte8} (hp : 4 ≤ p.length) :
    cpu.crc32si csum (load 4 p) = checked csum (p.take 4) := by
  rw [h.si csum (load 4 p), bytesOf_load hp, checked]

theorem di_load {csum : BitVec 32} {p : List Byte8} (hp : 8 ≤ p.length) :
    cpu.crc32di csum (load 8 p) = checked csum (p.take 8) := by
  rw [h.di csum (load 8 p), bytesOf_load hp, checked]

/-- The loop over words leaves fewer bytes than a word has. -/
theorem words_spec (csum : BitVec 32) (p : List Byte8) :
    (cpu.words csum p).2.length < 8 ∧ checked (cpu.words csum p).1 (cpu.words csum p).2 = checked csum p := by
  fun_induction Instructions.words cpu csum p with
  | case1 csum p hle ih =>
    rw [h.di_load hle] at ih
    rw [h.di_load hle, checked_take csum 8 p]
    exact ih
  | case2 csum p hlt => exact ⟨Nat.lt_of_not_le hlt, rfl⟩

theorem case1_eq {csum : BitVec 32} {p : List Byte8} (hp : p.length = 1) : cpu.case1 csum p = checked csum p := by
  rw [Instructions.case1, h.qi_load (Nat.le_of_eq hp.symm), List.take_of_length_le (Nat.le_of_eq hp)]

theorem case2_eq {csum : BitVec 32} {p : List Byte8} (hp : p.length = 2) : cpu.case2 csum p = checked csum p := by
  rw [Instructions.case2, h.hi_load (Nat.le_of_eq hp.symm), List.take_of_length_le (Nat.le_of_eq hp)]

theorem case4_eq {csum : BitVec 32} {p : List Byte8} (hp : p.length = 4) : cpu.case4 csum p = checked csum p := by
  rw [Instructions.case4, h.si_load (Nat.le_of_eq hp.symm), List.take_of_length_le (Nat.le_of_eq hp)]

theorem case3_eq {csum : BitVec 32} {p : List Byte8} (hp : p.length = 3) : cpu.case3 csum p = checked csum p := by
  rw [Instructions.case3, h.qi_load (by omega), h.case2_eq (by rw [List.length_drop, hp]), ← checked_take]

theorem case5_eq {csum : BitVec 32} {p : List Byte8} (hp : p.length = 5) : cpu.case5 csum p = checked csum p := by
  rw [Instructions.case5, h.si_load (by omega), h.case1_eq (by rw [List.length_drop, hp]), ← checked_take]

theorem case6_eq {csum : BitVec 32} {p : List Byte8} (hp : p.length = 6) : cpu.case6 csum p = checked csum p := by
  rw [Instructions.case6, h.hi_load (by omega), h.case4_eq (by rw [List.length_drop, hp]), ← checked_take]

theorem case7_eq {csum : BitVec 32} {p : List Byte8} (hp : p.length = 7) : cpu.case7 csum p = checked csum p := by
  rw [Instructions.case7, h.qi_load (by omega), h.case6_eq (by rw [List.length_drop, hp]), ← checked_take]

/-- The instructions take a string through the steps of the check, whatever is left for the switch. -/
theorem csum32Crcc_eq (csum : BitVec 32) (data : List Byte8) : cpu.csum32Crcc csum data = checked csum data := by
  obtain ⟨hlt, hchecked⟩ := h.words_spec csum data
  rw [← hchecked]
  simp only [Instructions.csum32Crcc]
  split
  · next hp => exact h.case7_eq hp
  · next hp => exact h.case6_eq hp
  · next hp => exact h.case4_eq hp
  · next hp => exact h.case3_eq hp
  · next hp => exact h.case2_eq hp
  · next hp => exact h.case5_eq hp
  · next hp => exact h.case1_eq hp
  · next h7 h6 h4 h3 h2 h5 h1 =>
    have hnil : (cpu.words csum data).2 = [] := by
      apply List.eq_nil_of_length_eq_zero
      change (cpu.words csum data).2.length ≠ _ at h1 h2 h3 h4 h5 h6 h7
      omega
    rw [hnil]
    rfl

end Bytewise

/-- Both functions compute the same check, and both can go on with the check of what comes before. -/
theorem csum32Crcc_agree {cpu : Instructions} (h : Bytewise cpu) :
    (∀ csum data, cpu.csum32Crcc csum data = csum32Crcc csum data) ∧
      (∀ csum a b, cpu.csum32Crcc (cpu.csum32Crcc csum a) b = cpu.csum32Crcc csum (a ++ b)) ∧
      ∀ csum a b, csum32Crcc (csum32Crcc csum a) b = csum32Crcc csum (a ++ b) := by
  refine ⟨fun csum data => ?_, fun csum a b => ?_, fun csum a b => ?_⟩
  · rw [h.csum32Crcc_eq, csum32Crcc_eq, checked]
  · rw [h.csum32Crcc_eq, h.csum32Crcc_eq, h.csum32Crcc_eq, checked_append]
  · rw [csum32Crcc_eq, csum32Crcc_eq, csum32Crcc_eq, List.foldl_append]

/-- Instructions that take the bytes of their words through the check. -/
def checkedInstructions : Instructions where
  crc32qi csum word := checked csum (bytesOf 1 word)
  crc32hi csum word := checked csum (bytesOf 2 word)
  crc32si csum word := checked csum (bytesOf 4 word)
  crc32di csum word := checked csum (bytesOf 8 word)

theorem csum32Crcc_agree_checkedInstructions :
    (∀ csum data, checkedInstructions.csum32Crcc csum data = csum32Crcc csum data) ∧
      (∀ csum a b, checkedInstructions.csum32Crcc (checkedInstructions.csum32Crcc csum a) b =
        checkedInstructions.csum32Crcc csum (a ++ b)) ∧
      ∀ csum a b, csum32Crcc (csum32Crcc csum a) b = csum32Crcc csum (a ++ b) :=
  csum32Crcc_agree ⟨fun _ _ => rfl, fun _ _ => rfl, fun _ _ => rfl, fun _ _ => rfl⟩

end RaleighSL.Zcl.Crc32c
