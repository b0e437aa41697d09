import RaleighSL.Client.Rql.Values
import RaleighSL.Client.Rql.Parser

/-!
# Evaluation and constant folding

`evaluate` of a node gives a value or raises, and an assignment sets a variable of the context.
`resolve` replaces an operator over constants by a constant, bottom up. The constants and functions of a
context are kept by name in upper and in lower case, and an identifier is looked up in both.
-/
namespace RaleighSL.Client.Rql

/-- `RqlContext`, with its variables by name. -/
structure Context (φ : Type) where
  constants : String → Option (Value φ)
  functions : String → Option (List (Value φ) → Option (Value φ))
  variableMap : String → Option (Value φ)

variable {φ : Type}

namespace Context

def getIdentifier (context : Context φ) (name : String) : Option (Value φ) :=
  match context.constants name.toUpper with
  | some value => some value
  | none => context.variableMap name.toLower

def setVariable (context : Context φ) (name : String) (value : Value φ) : Context φ :=
  { context with variableMap := fun s => if s = name then some value else context.variableMap s }

/-- `RqlContext.__init__`, for some value of pi and some functions. -/
def init (pi : φ) (functions : String → Option (List (Value φ) → Option (Value φ))) : Context φ :=
  { constants := fun name =>
      if name = "PI" then some (.float pi)
      else if name = "NULL" then some .none
      else if name = "FALSE" then some (.bool false)
      else if name = "TRUE" then some (.bool true)
      else none
    functions := functions
    variableMap := fun _ => none }

end Context

def Expr.isConstant : Expr φ → Bool
  | .number _ => true
  | .boolean _ => true
  | .string _ => true
  | .wildcard _ => true
  | .identifier _ => false
  | .call _ _ => false
  | .unary _ expression => expression.isConstant
  | .binary _ left right => left.isConstant && right.isConstant
  | .assignment _ expression => expression.isConstant

variable (py : Python φ)

mutual

def evaluate (context : Context φ) : Expr φ → Option (Value φ × Context φ)
  | .number value => some (.float value, context)
  | .boolean value => some (.bool value, context)
  | .string value => some (.str value, context)
  | .wildcard value => some (.str value, context)
  | .identifier name => (context.getIdentifier name).map (fun value => (value, context))
  | .call name args => do
    let func ← context.functions name
    let (args, context) ← evaluateArgs context args
    (func args).map (fun value => (value, context))
  | .unary operator expression => do
    let (expr, context) ← evaluate context expression
    (unaryOperator py operator expr).map (fun value => (value, context))
  | .binary operator left right => do
    let (left, context) ← evaluate context left
    let (right, context) ← evaluate context right
    (binaryOperator py operator left right).map (fun value => (value, context))
  | .assignment name expression => do
    let (right, context) ← evaluate context expression
    some (right, context.setVariable name right)

/-- The arguments of `RqlFunctionCall.evaluate`. -/
def evaluateArgs (context : Context φ) : List (Expr φ) → Option (List (Value φ) × Context φ)
  | [] => some ([], context)
  | arg :: args => do
    let (value, context) ← evaluate context arg
    let (values, context) ← evaluateArgs context args
    some (value :: values, context)

end

/-- The constant for a result in `RqlBinary.resolve`. -/
def constantOf (result : Value φ) : Option (Expr φ) :=
  if result.isString then
    match result with
    | .str s => some (.string s)
    | _ => none
  else if result.isIntOrFloat then (toFloat py result).map .number
  else if result.isBool then some (.boolean (truth py result))
  else none

/-- `resolve`. That of an assignment takes no context, so that it raises. -/
def resolve (context : Context φ) : Expr φ → Option (Expr φ)
  | .unary operator expression => do
    let expression ← resolve context expression
    if expression.isConstant then do
      let (result, _) ← evaluate py context (.unary operator expression)
      (toFloat py result).map .number
    else some (.unary operator expression)
  | .binary operator left right => do
    let left ← resolve context left
    let right ← resolve context right
    if left.isConstant && right.isConstant then do
      let (result, _) ← evaluate py context (.binary operator left right)
      constantOf py result
    else some (.binary operator left right)
  | .assignment _ _ => none
  | e => some e

end RaleighSL.Client.Rql
