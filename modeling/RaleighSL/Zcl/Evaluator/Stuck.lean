import RaleighSL.Zcl.Evaluator.Meaning

/-!
# Evaluation that does not get stuck

The evaluator looks at the type of every operand it has evaluated, also of one without a value,
and it hands any two integers to the operators of C. So it comes to an end with a value or `NULL`
only where every operand it needs has a value, no integer is divided by zero, no quotient is too
large, and no number is shifted too far. Any other overflow gives some number.
-/
namespace RaleighSL.Zcl.Evaluator

/-! ### Operations that are defined -/

def InRange (n : Int) : Prop := -2 ^ 63 ≤ n ∧ n < 2 ^ 63

instance (n : Int) : Decidable (InRange n) := inferInstanceAs (Decidable (_ ∧ _))

theorem inRange_toInt (n : Int64) : InRange n.toInt := ⟨n.le_toInt, n.toInt_lt⟩

/-- The operands that do not stop an operator on integers. -/
def BinaryType.Defined (type : BinaryType) (left right : Int64) : Prop :=
  match type with
  | .div | .mod => right.toInt ≠ 0 ∧ ¬ (left.toInt = -2 ^ 63 ∧ right.toInt = -1)
  | .lshift | .rshift => 0 ≤ right.toInt ∧ right.toInt < 64
  | _ => True

/-- An overflow gives a number. -/
def total (overflow : Int → Int64) : Overflow := fun n => some (overflow n)

theorem isSome_checked {n : Int} : (checked undefined n).isSome ↔ InRange n := by
  rw [checked]
  by_cases h : -2 ^ 63 ≤ n ∧ n < 2 ^ 63
  · rw [if_pos h]
    exact iff_of_true rfl h
  · rw [if_neg h]
    exact iff_of_false (by simp [undefined]) h

theorem isSome_checked_total (overflow : Int → Int64) (n : Int) : (checked (total overflow) n).isSome := by
  rw [checked]
  split_ifs <;> rfl

/-- A quotient overflows for one pair of numbers. -/
theorem inRange_tdiv {m n : Int} (hm : InRange m) (hn : n ≠ 0) :
    InRange (m.tdiv n) ↔ ¬ (m = -2 ^ 63 ∧ n = -1) := by
  have habs : (m.tdiv n).natAbs = m.natAbs / n.natAbs := Int.natAbs_tdiv m n
  obtain ⟨hlow, hhigh⟩ := hm
  by_cases hone : n = -1
  · rw [hone, Int.tdiv_neg, Int.tdiv_one, InRange]
    omega
  · refine iff_of_true ?_ (fun h => hone h.2)
    by_cases hpos : n = 1
    · rw [hpos, Int.tdiv_one]
      exact ⟨hlow, hhigh⟩
    · have htwo : 2 ≤ n.natAbs := by omega
      have hhalf : m.natAbs / n.natAbs ≤ m.natAbs / 2 := Nat.div_le_div_left htwo (by decide)
      rw [InRange]
      omega

theorem inRange_tmod {m n : Int} (hm : InRange m) : InRange (m.tmod n) := by
  have habs : (m.tmod n).natAbs = m.natAbs % n.natAbs := Int.natAbs_tmod m n
  have hle : m.natAbs % n.natAbs ≤ m.natAbs := Nat.mod_le _ _
  obtain ⟨hlow, hhigh⟩ := hm
  rcases Int.le_total 0 m with hpos | hneg
  · have hsign : 0 ≤ m.tmod n := Int.tmod_nonneg n hpos
    rw [InRange]
    omega
  · have hsign : m.tmod n ≤ 0 := by
      have h := Int.tmod_nonneg n (a := -m) (by omega)
      rw [Int.neg_tmod] at h
      omega
    rw [InRange]
    omega

theorem inRange_ediv_pow {m : Int} (hm : InRange m) (k : Nat) : InRange (m / 2 ^ k) := by
  have hpos : (0 : Int) < 2 ^ k := by positivity
  have hone : (1 : Int) ≤ 2 ^ k := hpos
  obtain ⟨hlow, hhigh⟩ := hm
  refine ⟨Int.le_ediv_of_mul_le hpos (by nlinarith), Int.ediv_lt_of_lt_mul hpos (by nlinarith)⟩

theorem isSome_quotient {m n : Int64} : (quotient m n).isSome ↔ BinaryType.Defined .div m n := by
  rw [quotient, BinaryType.Defined]
  by_cases h : n = 0
  · rw [if_pos h, h]
    simp
  · have hn : n.toInt ≠ 0 := fun heq => h (Int64.toInt_inj.mp (heq.trans Int64.toInt_zero.symm))
    rw [if_neg h, isSome_checked, inRange_tdiv (inRange_toInt m) hn, and_iff_right hn]

theorem isSome_evalIntegerBinaryOp {overflow : Int → Int64} {type : BinaryType} {m n : Int64} :
    (evalIntegerBinaryOp (total overflow) type m n).isSome ↔ type.Defined m n := by
  cases type with
  | add => exact iff_of_true (isSome_checked_total ..) trivial
  | sub => exact iff_of_true (isSome_checked_total ..) trivial
  | mul => exact iff_of_true (isSome_checked_total ..) trivial
  | div => exact isSome_quotient
  | mod =>
    have hmod : (checked undefined (m.toInt.tmod n.toInt)).isSome := isSome_checked.mpr (inRange_tmod (inRange_toInt m))
    have hdiv : BinaryType.Defined .mod m n ↔ (quotient m n).isSome := isSome_quotient.symm
    rw [hdiv, evalIntegerBinaryOp, remainder]
    cases quotient m n with
    | none => simp
    | some q => exact iff_of_true hmod rfl
  | lshift =>
    rw [evalIntegerBinaryOp, shiftRight, BinaryType.Defined]
    by_cases h : 0 ≤ n.toInt ∧ n.toInt < 64
    · rw [if_pos h, isSome_checked]
      exact iff_of_true (inRange_ediv_pow (inRange_toInt m) _) h
    · rw [if_neg h]
      exact iff_of_false (by simp) h
  | rshift =>
    rw [evalIntegerBinaryOp, shiftLeft, BinaryType.Defined]
    by_cases h : 0 ≤ n.toInt ∧ n.toInt < 64
    · rw [if_pos h]
      exact iff_of_true (isSome_checked_total ..) h
    · rw [if_neg h]
      exact iff_of_false (by simp) h
  | _ => exact iff_of_true rfl trivial

theorem isSome_evalIntegerUnaryOp (overflow : Int → Int64) (type : UnaryType) (n : Int64) :
    (evalIntegerUnaryOp (total overflow) type n).isSome := by
  cases type with
  | negative => exact isSome_checked_total ..
  | _ => rfl

/-! ### Values -/

section

variable {φ : Type*} (overflow : Int → Int64) (ops : Floating φ) (vars : String → Option (Expr φ))

def UnaryType.value (type : UnaryType) : Expr φ → Option (Expr φ)
  | .integer n => (evalIntegerUnaryOp (total overflow) type n).map .integer
  | .floating x => (ops.unary type x).map .floating
  | _ => none

/-- The value of an operator applied to two values, if it has one. -/
def BinaryType.value (type : BinaryType) : Expr φ → Expr φ → Option (Expr φ)
  | .integer m, .integer n => (evalIntegerBinaryOp (total overflow) type m n).map .integer
  | .integer m, .floating y => (ops.binary type (ops.ofInt m) y).map .floating
  | .floating x, .integer n => (ops.binary type x (ops.ofInt n)).map .floating
  | .floating x, .floating y => (ops.binary type x y).map .floating
  | _, _ => none

/-- The value of an expression. It has none when a part that it needs has none. -/
def valueOf : Expr φ → Option (Expr φ)
  | .identifier key => vars key
  | .unary type operand => (valueOf operand).bind (type.value overflow ops)
  | .binary type left right =>
    (valueOf left).bind (fun l =>
      match earlyExit type (some l) with
      | some n => some (.integer n)
      | none => (valueOf right).bind (type.value overflow ops l))
  | .function _ _ _ _ => none
  | e => some e

/-- The left operand of a connective decides it. -/
def Decided (type : BinaryType) (left : Expr φ) : Prop := ∃ l ∈ valueOf overflow ops vars left, (earlyExit type (some l)).isSome

/-- The expression has a part that it needs, itself included, and that has no value. -/
def Missing : Expr φ → Prop
  | .unary type operand => Missing operand ∨ valueOf overflow ops vars (.unary type operand) = none
  | .binary type left right => Missing left ∨ (¬ Decided overflow ops vars type left ∧ Missing right) ∨
      valueOf overflow ops vars (.binary type left right) = none
  | e => valueOf overflow ops vars e = none

/-- Every operand that is needed has a value, and no operation on integers that is needed stops. -/
def Fine : Expr φ → Prop
  | .unary _ operand => Fine operand ∧ (valueOf overflow ops vars operand).isSome
  | .binary type left right => Fine left ∧ ∃ l ∈ valueOf overflow ops vars left, Decided overflow ops vars type left ∨
      Fine right ∧ ∃ r ∈ valueOf overflow ops vars right, ∀ m n, l = .integer m → r = .integer n → type.Defined m n
  | _ => True

/-- The evaluation comes to an end with a value or `NULL`, and with `NULL` when a part that is needed has no value. -/
def Evaluates (e : Expr φ) : Prop := ∃ r, evaluate (total overflow) ops vars e = some r ∧ (Missing overflow ops vars e → r = none)

end

section

variable {φ : Type*} {overflow : Int → Int64} {ops : Floating φ} {vars : String → Option (Expr φ)}

theorem evalUnary_eq_some {type : UnaryType} {v : Option (Expr φ)} {r : Option (Expr φ)} :
    evalUnary (total overflow) ops type v = some r ↔ ∃ a, v = some a ∧ r = type.value overflow ops a := by
  cases v with
  | none => simp [evalUnary]
  | some a =>
    cases a with
    | integer n =>
      obtain ⟨k, hk⟩ := Option.isSome_iff_exists.mp (isSome_evalIntegerUnaryOp overflow type n)
      simp [evalUnary, UnaryType.value, hk, eq_comm]
    | _ => simp [evalUnary, UnaryType.value, eq_comm]

theorem evalBinary_some_none (type : BinaryType) (a : Expr φ) : evalBinary (total overflow) ops type (some a) none = none := by
  cases a <;> rfl

/-- Operands that are not both integers have a result, which is the value of the operator. -/
theorem evalBinary_of_not_integers {type : BinaryType} {a b : Expr φ}
    (h : ¬ ∃ m n, a = .integer m ∧ b = .integer n) :
    evalBinary (total overflow) ops type (some a) (some b) = some (type.value overflow ops a b) := by
  cases a with
  | integer m =>
    cases b with
    | integer n => exact absurd ⟨m, n, rfl, rfl⟩ h
    | _ => rfl
  | _ => cases b <;> rfl

theorem evalBinary_eq_some {type : BinaryType} {l r v : Option (Expr φ)} :
    evalBinary (total overflow) ops type l r = some v ↔
      ∃ a b, l = some a ∧ r = some b ∧ (∀ m n, a = .integer m → b = .integer n → type.Defined m n) ∧
        v = type.value overflow ops a b := by
  cases l with
  | none => simp [evalBinary]
  | some a =>
    cases r with
    | none => simp [evalBinary_some_none]
    | some b =>
      by_cases hintegers : ∃ m n, a = .integer m ∧ b = .integer n
      · obtain ⟨m, n, rfl, rfl⟩ := hintegers
        have hdefined : (∀ m' n', (.integer m : Expr φ) = .integer m' → (.integer n : Expr φ) = .integer n' →
            type.Defined m' n') ↔ (evalIntegerBinaryOp (total overflow) type m n).isSome := by
          rw [isSome_evalIntegerBinaryOp]
          refine ⟨fun h => h m n rfl rfl, ?_⟩
          rintro h m' n' ⟨⟩ ⟨⟩
          exact h
        simp only [evalBinary, BinaryType.value, Option.some.injEq, exists_and_left, exists_eq_left', hdefined]
        cases evalIntegerBinaryOp (total overflow) type m n with
        | none => simp
        | some k => simp [eq_comm]
      · rw [evalBinary_of_not_integers hintegers]
        constructor
        · intro h
          exact ⟨a, b, rfl, rfl, fun m n hm hn => absurd ⟨m, n, hm, hn⟩ hintegers, (Option.some.inj h).symm⟩
        · rintro ⟨a', b', ha, hb, -, rfl⟩
          rw [Option.some.inj ha, Option.some.inj hb]

/-- The evaluation has a result exactly when nothing goes wrong, and then it is the value. -/
theorem evaluate_eq_some {e : Expr φ} {r : Option (Expr φ)} :
    evaluate (total overflow) ops vars e = some r ↔ Fine overflow ops vars e ∧ r = valueOf overflow ops vars e := by
  induction e generalizing r with
  | unary type operand ih =>
    rw [evaluate, Option.bind_eq_some_iff, Fine, valueOf, Option.isSome_iff_exists]
    simp only [ih, evalUnary_eq_some]
    constructor
    · rintro ⟨v, ⟨hfine, hv⟩, a, ha, hr⟩
      rw [hv] at ha
      exact ⟨⟨hfine, a, ha⟩, by rw [hr, ha, Option.bind_some]⟩
    · rintro ⟨⟨hfine, a, ha⟩, hr⟩
      exact ⟨some a, ⟨hfine, ha.symm⟩, a, rfl, by rw [hr, ha, Option.bind_some]⟩
  | binary type left right ihl ihr =>
    rw [evaluate, Option.bind_eq_some_iff, Fine, valueOf]
    simp only [ihl]
    cases hl : valueOf overflow ops vars left with
    | none =>
      constructor
      · rintro ⟨v, ⟨-, rfl⟩, hv⟩
        obtain ⟨r', -, hbinary⟩ := Option.bind_eq_some_iff.mp hv
        obtain ⟨a, b, hnone, -⟩ := evalBinary_eq_some.mp hbinary
        cases hnone
      · rintro ⟨⟨-, l, hmem, -⟩, -⟩
        cases hmem
    | some l =>
      have hdecided : Decided overflow ops vars type left ↔ (earlyExit type (some l)).isSome := by simp [Decided, hl]
      rw [hdecided]
      simp only [Option.mem_def, Option.some.injEq, exists_eq_left', and_assoc, exists_and_left, exists_eq_left,
        Option.bind_some]
      refine and_congr_right (fun _ => ?_)
      cases earlyExit type (some l) with
      | some n => simp [eq_comm]
      | none =>
        simp only [Option.bind_eq_some_iff, ihr, evalBinary_eq_some, Option.some.injEq, Option.isSome_none,
          Bool.false_eq_true, false_or]
        constructor
        · rintro ⟨v, ⟨hfine, rfl⟩, a, b, rfl, hb, hdefined, hr⟩
          exact ⟨⟨hfine, b, hb, hdefined⟩, by rw [hr, hb, Option.bind_some]⟩
        · rintro ⟨⟨hfine, b, hb, hdefined⟩, hr⟩
          exact ⟨some b, ⟨hfine, hb.symm⟩, l, b, rfl, rfl, hdefined, by rw [hr, hb, Option.bind_some]⟩
  | _ => simp [evaluate, Fine, valueOf, eq_comm]

/-- Where nothing goes wrong, the only part without a value that is needed is the expression itself. -/
theorem Fine.valueOf_of_missing {e : Expr φ} (h : Fine overflow ops vars e) (hmissing : Missing overflow ops vars e) :
    valueOf overflow ops vars e = none := by
  induction e with
  | unary type operand ih =>
    obtain ⟨hfine, hv⟩ := h
    rcases hmissing with hoperand | hnone
    · rw [ih hfine hoperand] at hv
      cases hv
    · exact hnone
  | binary type left right ihl ihr =>
    obtain ⟨hleft, l, hl, hright⟩ := h
    rcases hmissing with hmissing | ⟨hdecided, hmissing⟩ | hnone
    · rw [ihl hleft hmissing] at hl
      cases hl
    · obtain ⟨hfine, r, hr, -⟩ := hright.resolve_left hdecided
      rw [ihr hfine hmissing] at hr
      cases hr
    · exact hnone
  | _ => exact hmissing

end

/-- Whatever an overflow gives, the evaluation of a tree comes to an end with a value or `NULL`, and with `NULL` when a
part that is needed has no value, exactly when every operand that is needed has a value, and no integer that is needed
is divided by zero, is the least one divided by -1, or is shifted by an amount outside 0..63. -/
theorem evaluates_iff_fine {φ : Type*} (overflow : Int → Int64) (ops : Floating φ) (vars : String → Option (Expr φ))
    (e : Expr φ) : Evaluates overflow ops vars e ↔ Fine overflow ops vars e := by
  constructor
  · rintro ⟨r, hr, -⟩
    exact (evaluate_eq_some.mp hr).1
  · intro h
    exact ⟨valueOf overflow ops vars e, evaluate_eq_some.mpr ⟨h, rfl⟩, h.valueOf_of_missing⟩

/-- The sum overflows and is a value. -/
example : evaluate (total Int64.ofInt) noFloating xIsTwo (.binary .add (.integer Int64.maxValue) (.integer 1)) =
    some (some (.integer Int64.minValue)) := by decide

/-- The type of a missing operand is looked at, and integers are divided by zero. -/
theorem evaluation_stuck :
    ¬ Evaluates Int64.ofInt noFloating xIsTwo (.unary .negative (.identifier "y")) ∧
      ¬ Evaluates Int64.ofInt noFloating xIsTwo (.binary .div (.integer 1) (.integer 0)) := by
  refine ⟨?_, ?_⟩
  · rintro ⟨r, hr, -⟩
    cases hr
  · rintro ⟨r, hr, -⟩
    cases hr

end RaleighSL.Zcl.Evaluator
