import Mathlib.Data.Int.Bitwise

/-!
# The values of expressions

The operators of `RqlUnary.evaluate` and `RqlBinary.evaluate` are those of Python 2: a boolean is a number
among the others, numbers of two types are made equal first, and a comparison has a result for any two
values. What an operator raises is not told apart.

The floats, the formatting of a string and the identity of objects are left open. Identity is asked of
values.
-/
namespace RaleighSL.Client.Rql

/-- A value of Python: `None`, a boolean, an integer of any size, a float or a string. -/
inductive Value (φ : Type) where
  | none
  | bool (b : Bool)
  | int (n : Int)
  | float (x : φ)
  | str (s : String)
  deriving DecidableEq, Repr

inductive Comparison where
  | eq
  | ne
  | lt
  | le
  | gt
  | ge
  deriving DecidableEq, Repr

inductive Arith where
  | add
  | sub
  | mul
  | div
  | mod
  deriving DecidableEq, Repr

/-- What is left open of Python. A division by zero and a float that is too large raise. -/
structure Python (φ : Type) where
  ofInt : Int → Option φ
  ofString : String → Option φ
  truth : φ → Bool
  neg : φ → φ
  arith : Arith → φ → φ → Option φ
  compare : Comparison → φ → φ → Bool
  compareInt : Comparison → φ → Int → Bool
  format : String → Value φ → Option String
  same : Value φ → Value φ → Bool

/-- A comparison of what is in some order. -/
def Comparison.holds : Comparison → Ordering → Bool
  | .eq, o => o == .eq
  | .ne, o => o != .eq
  | .lt, o => o == .lt
  | .le, o => o != .gt
  | .gt, o => o == .gt
  | .ge, o => o != .lt

def Comparison.flip : Comparison → Comparison
  | .eq => .eq
  | .ne => .ne
  | .lt => .gt
  | .le => .ge
  | .gt => .lt
  | .ge => .le

variable {φ : Type}

namespace Value

/-- The integer that a boolean or an integer is. -/
def asInt : Value φ → Option Int
  | .bool b => some (if b then 1 else 0)
  | .int n => some n
  | _ => Option.none

def isString : Value φ → Bool
  | .str _ => true
  | _ => false

def isFloat : Value φ → Bool
  | .float _ => true
  | _ => false

/-- `isinstance` of `bool`. -/
def isBool : Value φ → Bool
  | .bool _ => true
  | _ => false

/-- `isinstance` of `int` or `float`: a boolean is an `int` too, and a larger integer is a `long`. -/
def isIntOrFloat : Value φ → Bool
  | .bool _ => true
  | .int n => -2 ^ 63 ≤ n && n < 2 ^ 63
  | .float _ => true
  | _ => false

/-- `None` is below the numbers, and these are below the strings. -/
def rank : Value φ → Nat
  | .none => 0
  | .str _ => 2
  | _ => 1

end Value

/-! ### Operators -/

def intArith : Arith → Int → Int → Option Int
  | .add, m, n => some (m + n)
  | .sub, m, n => some (m - n)
  | .mul, m, n => some (m * n)
  | .div, m, n => if n = 0 then none else some (m.fdiv n)
  | .mod, m, n => if n = 0 then none else some (m.fmod n)

def repeated (s : String) (n : Int) : String := String.join (List.replicate n.toNat s)

def bitwise (onBool : Bool → Bool → Bool) (onInt : Int → Int → Int) : Value φ → Value φ → Option (Value φ)
  | .bool a, .bool b => some (.bool (onBool a b))
  | v, w => do some (.int (onInt (← v.asInt) (← w.asInt)))

variable (py : Python φ)

def toFloat : Value φ → Option φ
  | .none => none
  | .bool b => py.ofInt (if b then 1 else 0)
  | .int n => py.ofInt n
  | .float x => some x
  | .str s => py.ofString s

def truth : Value φ → Bool
  | .none => false
  | .bool b => b
  | .int n => n != 0
  | .float x => py.truth x
  | .str s => s != ""

def arith (op : Arith) : Value φ → Value φ → Option (Value φ)
  | .float x, .float y => (py.arith op x y).map .float
  | .float x, w => do (py.arith op x (← py.ofInt (← w.asInt))).map .float
  | v, .float y => do (py.arith op (← py.ofInt (← v.asInt)) y).map .float
  | v, w => do (intArith op (← v.asInt) (← w.asInt)).map .int

def compareValues (c : Comparison) : Value φ → Value φ → Bool
  | .float x, .float y => py.compare c x y
  | .str s, .str t => c.holds (compareOfLessAndEq s t)
  | v, w =>
    match v, w, v.asInt, w.asInt with
    | .float x, _, _, some n => py.compareInt c x n
    | _, .float y, some m, _ => py.compareInt c.flip y m
    | _, _, some m, some n => c.holds (compare m n)
    | _, _, _, _ => c.holds (compare v.rank w.rank)

/-- `+` of strings puts them together. -/
def add : Value φ → Value φ → Option (Value φ)
  | .str s, .str t => some (.str (s ++ t))
  | v, w => arith py .add v w

/-- `*` of a string and an integer repeats the string. -/
def multiply : Value φ → Value φ → Option (Value φ)
  | .str s, w => do some (.str (repeated s (← w.asInt)))
  | v, .str t => do some (.str (repeated t (← v.asInt)))
  | v, w => arith py .mul v w

/-- `%` of a string formats a value. -/
def modulo : Value φ → Value φ → Option (Value φ)
  | .str s, w => (py.format s w).map .str
  | v, w => arith py .mod v w

/-- The operators of `RqlUnary.evaluate`. -/
def unaryOperator (operator : String) (expr : Value φ) : Option (Value φ) :=
  match operator with
  | "+" => some expr
  | "-" =>
    match expr with
    | .float x => some (.float (py.neg x))
    | v => do some (.int (-(← v.asInt)))
  | "~" => do some (.int (-(← expr.asInt) - 1))
  | "NOT" => some (.bool (!truth py expr))
  | _ => none

/-- The operators of `RqlBinary.evaluate`. -/
def binaryOperator (operator : String) (left right : Value φ) : Option (Value φ) :=
  match operator with
  | "+" => add py left right
  | "-" => arith py .sub left right
  | "&" => bitwise (· && ·) Int.land left right
  | "|" => bitwise (· || ·) Int.lor left right
  | "^" => bitwise (· != ·) Int.xor left right
  | "*" => multiply py left right
  | "/" => arith py .div left right
  | "%" => modulo py left right
  | "=" => some (.bool (compareValues py .eq left right))
  | "<" => some (.bool (compareValues py .lt left right))
  | ">" => some (.bool (compareValues py .gt left right))
  | "<=" => some (.bool (compareValues py .le left right))
  | ">=" => some (.bool (compareValues py .ge left right))
  | "==" => some (.bool (compareValues py .eq left right))
  | "!=" => some (.bool (compareValues py .ne left right))
  | "IS" => some (.bool (py.same left right))
  | "OR" => some (if truth py left then left else right)
  | "AND" => some (if truth py left then right else left)
  | _ => none

end RaleighSL.Client.Rql
