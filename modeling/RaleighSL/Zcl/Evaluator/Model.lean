import Mathlib.Data.List.Basic
import Mathlib.Algebra.Order.Ring.Int

/-!
# Expressions

The trees of `evaluator/expr.h`, their copies in `evaluator/expr.c` and their evaluation in
`evaluator/expr-eval.c`. Integers are 64-bit numbers of C: a division by zero and a shift by too
many bits have no result, and what an overflow gives is a parameter, like the arithmetic of `double`.
-/
namespace RaleighSL.Zcl.Evaluator

inductive UnaryType where
  | not
  | positive
  | negative
  | bitNegation
  deriving DecidableEq, Repr

inductive BinaryType where
  | add
  | sub
  | mul
  | div
  | mod
  | lshift
  | rshift
  | bitOr
  | bitAnd
  | bitXor
  | eq
  | lt
  | gt
  | le
  | ge
  | neq
  | like
  | ilike
  | or
  | and
  deriving DecidableEq, Repr

/-- `struct z_expr`. The bytes of a string are none where they are not set, and a function has four arguments. -/
inductive Expr (φ : Type*) where
  | integer (n : Int64)
  | floating (x : φ)
  | string (bytes : Option String)
  | identifier (key : String)
  | unary (type : UnaryType) (operand : Expr φ)
  | binary (type : BinaryType) (left right : Expr φ)
  | function (arg₀ arg₁ arg₂ arg₃ : Expr φ)
  deriving DecidableEq, Repr

/-- `z_expr_copy`. A string takes a reference to its bytes, which is undefined where they are not set. -/
def Expr.copy {φ : Type*} : Expr φ → Option (Expr φ)
  | .integer n => some (.integer n)
  | .floating x => some (.floating x)
  | .string bytes => bytes.map (fun text => .string (some text))
  | .identifier key => some (.identifier key)
  | .unary type operand => operand.copy.map (.unary type)
  | .binary type left right => left.copy.bind (fun l => right.copy.map (.binary type l))
  | .function arg₀ arg₁ arg₂ arg₃ =>
    arg₀.copy.bind (fun a => arg₁.copy.bind (fun b => arg₂.copy.bind (fun c => arg₃.copy.map (.function a b c))))

/-- The operations of `double`: `__eval_numeric_unary_op` and `__eval_float_binary_op`. -/
structure Floating (φ : Type*) where
  ofInt : Int64 → φ
  unary : UnaryType → φ → Option φ
  binary : BinaryType → φ → φ → Option φ

/-! ### The operations of `long` -/

/-- What an operation gives when its result is no number of 64 bits. -/
abbrev Overflow := Int → Option Int64

/-- C does not define it. -/
def undefined : Overflow := fun _ => none

/-- A result that is no number of 64 bits is an overflow. -/
def checked (overflow : Overflow) (n : Int) : Option Int64 :=
  if -2 ^ 63 ≤ n ∧ n < 2 ^ 63 then some (Int64.ofInt n) else overflow n

/-- What a comparison gives. -/
def truth (p : Prop) [Decidable p] : Option Int64 := some (if p then 1 else 0)

def shiftLeft (overflow : Overflow) (left right : Int64) : Option Int64 :=
  if 0 ≤ right.toInt ∧ right.toInt < 64 then checked overflow (left.toInt * 2 ^ right.toInt.toNat) else none

def shiftRight (left right : Int64) : Option Int64 :=
  if 0 ≤ right.toInt ∧ right.toInt < 64 then checked undefined (left.toInt / 2 ^ right.toInt.toNat) else none

/-- `left / right`, which rounds to zero. Its overflow is a trap like the division by zero. -/
def quotient (left right : Int64) : Option Int64 :=
  if right = 0 then none else checked undefined (left.toInt.tdiv right.toInt)

/-- `left % right`, which has no result when the quotient has none. -/
def remainder (left right : Int64) : Option Int64 :=
  (quotient left right).bind (fun _ => checked undefined (left.toInt.tmod right.toInt))

/-- The branch for integers of `__eval_numeric_unary_op`. -/
def evalIntegerUnaryOp (overflow : Overflow) (type : UnaryType) (operand : Int64) : Option Int64 :=
  match type with
  | .not => truth (operand = 0)
  | .positive => some operand
  | .negative => checked overflow (-operand.toInt)
  | .bitNegation => some (~~~operand)

def evalIntegerBinaryOp (overflow : Overflow) (type : BinaryType) (left right : Int64) : Option Int64 :=
  match type with
  | .add => checked overflow (left.toInt + right.toInt)
  | .sub => checked overflow (left.toInt - right.toInt)
  | .mul => checked overflow (left.toInt * right.toInt)
  | .div => quotient left right
  | .mod => remainder left right
  | .lshift => shiftRight left right
  | .rshift => shiftLeft overflow left right
  | .bitOr => some (left ||| right)
  | .bitAnd => some (left &&& right)
  | .bitXor => some (left ^^^ right)
  | .eq => truth (left = right)
  | .lt => truth (left < right)
  | .gt => truth (left > right)
  | .le => truth (left ≤ right)
  | .ge => truth (left ≥ right)
  | .neq => truth (left ≠ right)
  | .like => truth (left = right)
  | .ilike => truth (left = right)
  | .or => truth (left ≠ 0 ∧ right ≠ 0)
  | .and => truth (left ≠ 0 ∨ right ≠ 0)

/-- The result of a connective whose left operand decides it. -/
def exitValue (type : BinaryType) (left : Int64) : Option Int64 :=
  match type with
  | .or => if left ≠ 0 then some 1 else none
  | .and => if left = 0 then some 0 else none
  | _ => none

/-! ### Evaluation -/

section

variable {φ : Type*} (overflow : Overflow) (ops : Floating φ) (vars : String → Option (Expr φ))

/-- `__eval_numeric_unary_op`, `__eval_string_unary_op` and the choice between them. The result is
undefined, or it is a pointer that may be `NULL`. -/
def evalUnary (type : UnaryType) : Option (Expr φ) → Option (Option (Expr φ))
  | none => none
  | some (.integer n) => (evalIntegerUnaryOp overflow type n).map (fun n => some (.integer n))
  | some (.floating x) => some ((ops.unary type x).map .floating)
  | some _ => some none

/-- `__eval_numeric_binary_op`, the functions of the strings, which give `NULL`, and the choice between them. -/
def evalBinary (type : BinaryType) : Option (Expr φ) → Option (Expr φ) → Option (Option (Expr φ))
  | none, _ => none
  | _, none => none
  | some (.integer m), some (.integer n) => (evalIntegerBinaryOp overflow type m n).map (fun n => some (.integer n))
  | some (.integer m), some (.floating y) => some ((ops.binary type (ops.ofInt m) y).map .floating)
  | some (.floating x), some (.integer n) => some ((ops.binary type x (ops.ofInt n)).map .floating)
  | some (.floating x), some (.floating y) => some ((ops.binary type x y).map .floating)
  | some _, some _ => some none

/-- The part of `__eval_binary_op` that does not evaluate the right operand. -/
def earlyExit (type : BinaryType) : Option (Expr φ) → Option Int64
  | some (.integer n) => exitValue type n
  | _ => none

/-- `z_expr_evaluate`, with `__eval_unary_op`, `__eval_binary_op` and `__eval_function`. -/
def evaluate : Expr φ → Option (Option (Expr φ))
  | .identifier key => some (vars key)
  | .unary type operand => (evaluate operand).bind (evalUnary overflow ops type)
  | .binary type left right =>
    (evaluate left).bind (fun l =>
      match earlyExit type l with
      | some n => some (some (.integer n))
      | none => (evaluate right).bind (evalBinary overflow ops type l))
  | .function _ _ _ _ => some none
  | e => some (some e)

end

end RaleighSL.Zcl.Evaluator
