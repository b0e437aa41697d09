import RaleighSL.Zcl.Evaluator.Model
import Mathlib.Data.String.Defs

/-!
# The parser of expressions

`evaluator/expr-parser.c` over the tokens of the lexer. At the end of its input the lexer keeps
the text of the last token and only changes its type. The functions write what they parsed to a
place that the caller gives, which keeps its contents when nothing is parsed, and all of their
callers go on after an error. `__parse_string` sets the type of its place and no bytes. A left
operand is a copy. The depth of the calls is bounded by a number.
-/
namespace RaleighSL.Zcl.Evaluator

inductive TokenType where
  | unknown
  | int
  | float
  | string
  | boolean
  | operator
  | identifier
  deriving DecidableEq, Repr

structure Token where
  type : TokenType
  text : String
  deriving DecidableEq, Repr

def Token.begins (t : Token) (c : Char) : Bool := t.text.toList.head? = some c

/-- `struct z_lexer`: the current token and those that come. -/
structure Lexer where
  token : Token
  rest : List Token
  deriving DecidableEq, Repr

def Lexer.next (lex : Lexer) : Lexer :=
  match lex.rest with
  | [] => { token := { type := .unknown, text := lex.token.text }, rest := [] }
  | t :: ts => { token := t, rest := ts }

/-- `enum expr_parser_error`, without the values that nothing returns. -/
inductive ParserError where
  | ok
  | unknownPrimaryToken
  | primaryExpectedParenthesis
  | primaryNotWithoutOp
  | expectedEndParenthesis
  | betweenExpectedAnd
  | functionTooManyArgs
  deriving DecidableEq, Repr

/-- The library function `strtod`, and what is in memory before it is written. -/
structure Environment (φ : Type*) where
  strtod : String → φ
  expr : Expr φ
  number : Int64

/-- `__strtou64` for the base 10. -/
def strtou64 (result : UInt64) : List Char → UInt64
  | [] => result
  | c :: cs => if c.isDigit then strtou64 (result * 10 + (c.toNat - '0'.toNat).toUInt64) cs else result

/-- `z_strtoi64` for the base 10. -/
def strtoi64 (text : String) : Int64 :=
  match text.toList.dropWhile Char.isWhitespace with
  | '-' :: cs => -(strtou64 0 cs).toInt64
  | cs => (strtou64 0 cs).toInt64

/-- `__get_binary_precedence`, without a value for -1. -/
def binaryPrecedence (text : String) : Option (BinaryType × Nat) :=
  match text with
  | "=" => some (.eq, 3)
  | ">" => some (.gt, 3)
  | "<" => some (.lt, 3)
  | "+" => some (.add, 4)
  | "-" => some (.sub, 4)
  | "|" => some (.bitOr, 4)
  | "&" => some (.bitAnd, 4)
  | "^" => some (.bitXor, 4)
  | "*" => some (.mul, 5)
  | "/" => some (.div, 5)
  | "%" => some (.mod, 5)
  | "==" => some (.eq, 3)
  | "!>" => some (.le, 3)
  | "<=" => some (.le, 3)
  | ">=" => some (.ge, 3)
  | "!<" => some (.ge, 3)
  | "!=" => some (.neq, 3)
  | "<>" => some (.neq, 3)
  | "OR" => some (.or, 0)
  | "AND" => some (.and, 1)
  | "LIKE" => some (.like, 2)
  | "ILIKE" => some (.ilike, 2)
  | _ => none

/-- What `__get_unary_operator` returns. For a token of another length than 1 and 3 it returns an operator that it has
not set. -/
inductive UnaryMatch where
  | no
  | yes (type : UnaryType)
  | unset
  deriving DecidableEq, Repr

/-- `__get_unary_operator`. -/
def unaryOperator (text : String) : UnaryMatch :=
  match text with
  | "-" => .yes .negative
  | "+" => .yes .positive
  | "~" => .yes .bitNegation
  | "!" => .yes .not
  | "NOT" => .yes .not
  | _ => if text.length = 1 ∨ text.length = 3 then .no else .unset

section

variable {φ : Type*} (env : Environment φ)

/-- The arguments of a function, of which four have a place. -/
def functionExpr (args : List (Expr φ)) : Expr φ :=
  let arg (i : Nat) := args.getD i (.integer env.number)
  .function (arg 0) (arg 1) (arg 2) (arg 3)

mutual

/-- The loop of `__parse_function`, and the parenthesis behind it. The opening parenthesis is still the current token,
so the first argument has it. -/
def parseFunction : Nat → Lexer → List (Expr φ) → Option (Expr φ × Lexer × ParserError)
  | 0, _, _ => none
  | n + 1, lex, args =>
    if 4 ≤ args.length then some (functionExpr env args, lex, .functionTooManyArgs)
    else
      (parsePredicate n lex (.integer env.number)).bind (fun r =>
        let args := args ++ [r.1]
        if r.2.token.begins ',' then parseFunction n r.2.next args
        else if r.2.token.begins ')' then some (functionExpr env args, r.2.next, .ok)
        else some (functionExpr env args, r.2, .expectedEndParenthesis))

/-- The loop of `__parse_in`, and the parenthesis behind it. -/
def parseIn : Nat → Lexer → BinaryType → Expr φ → Expr φ → Option (Expr φ × Lexer × ParserError)
  | 0, _, _, _, _ => none
  | n + 1, lex, type, value, expr =>
    if lex.token.begins ',' then
      value.copy.bind (fun left =>
        (parsePredicate n lex.next env.expr).bind (fun r =>
          expr.copy.bind (fun e => parseIn n r.2 type value (.binary .or e (.binary type left r.1)))))
    else if lex.token.begins ')' then some (expr, lex.next, .ok)
    else some (expr, lex, .ok)

def parseBetween : Nat → Lexer → Expr φ → Bool → Option (Expr φ × Lexer × ParserError)
  | 0, _, _, _ => none
  | n + 1, lex, expr, negate =>
    expr.copy.bind (fun left =>
      (parseExpression n lex env.expr).bind (fun low =>
        if low.2.token.text = "AND" then
          expr.copy.bind (fun left' =>
            (parseExpression n low.2.next env.expr).bind (fun high =>
              let expr : Expr φ :=
                if negate then .binary .or (.binary .lt left low.1) (.binary .gt left' high.1)
                else .binary .and (.binary .ge left low.1) (.binary .le left' high.1)
              some (expr, high.2, .ok)))
        else some (expr, low.2, .betweenExpectedAnd)))

/-- The part of `__parse_primary` behind the operand. -/
def parseSuffix : Nat → Lexer → Expr φ → Option (Expr φ × Lexer × ParserError)
  | 0, _, _ => none
  | n + 1, lex, expr =>
    let negate := lex.token.text = "NOT"
    let lex := if negate then lex.next else lex
    if lex.token.text = "IN" then
      let lex := if lex.next.token.begins '(' then lex.next.next else lex.next
      let type := if negate then .neq else .eq
      expr.copy.bind (fun value =>
        value.copy.bind (fun left =>
          (parsePredicate n lex env.expr).bind (fun r => parseIn n r.2 type value (.binary type left r.1))))
    else if lex.token.text = "BETWEEN" then parseBetween n lex.next expr negate
    else if negate then some (expr, lex, .primaryNotWithoutOp)
    else some (expr, lex, .ok)

def parsePrimary : Nat → Lexer → Expr φ → Option (Expr φ × Lexer × ParserError)
  | 0, _, _ => none
  | n + 1, lex, expr =>
    match lex.token.type with
    | .int => parseSuffix n lex.next (.integer (strtoi64 lex.token.text))
    | .float => parseSuffix n lex.next (.floating (env.strtod lex.token.text))
    | .boolean => parseSuffix n lex.next (.integer (if lex.token.text.length = 4 then 1 else 0))
    | .string => parseSuffix n lex.next (.string none)
    | .identifier =>
      if lex.next.token.begins '(' then
        (parseFunction n lex.next []).bind (fun r => parseSuffix n r.2.1 r.1)
      else parseSuffix n lex.next (.identifier lex.token.text)
    | .operator =>
      if lex.token.begins '(' then
        (parsePredicate n lex.next expr).bind (fun r =>
          if r.2.token.begins ')' then parseSuffix n r.2.next r.1 else some (r.1, r.2, .expectedEndParenthesis))
      else some (expr, lex, .primaryExpectedParenthesis)
    | .unknown => some (expr, lex, .unknownPrimaryToken)

def parseUnary : Nat → Lexer → Expr φ → Option (Expr φ × Lexer × ParserError)
  | 0, _, _ => none
  | n + 1, lex, expr =>
    if lex.token.type = .operator then
      match unaryOperator lex.token.text with
      | .yes type => (parseUnary n lex.next env.expr).map (fun r => (.unary type r.1, r.2))
      | .no => parsePrimary n lex expr
      | .unset => none
    else parsePrimary n lex expr

def parseBinary : Nat → Lexer → Expr φ → Nat → Option (Expr φ × Lexer)
  | 0, _, _, _ => none
  | n + 1, lex, lhs, minPrecedence =>
    match binaryPrecedence lex.token.text with
    | none => some (lhs, lex)
    | some (type, prec) =>
      if minPrecedence ≤ prec then
        lhs.copy.bind (fun left =>
          (parseUnary n lex.next env.expr).bind (fun r =>
            (parseRight n r.2.1 r.1 prec).bind (fun r => parseBinary n r.2 (.binary type left r.1) minPrecedence)))
      else some (lhs, lex)

/-- The inner loop of `__parse_binary`. -/
def parseRight : Nat → Lexer → Expr φ → Nat → Option (Expr φ × Lexer)
  | 0, _, _, _ => none
  | n + 1, lex, right, prec =>
    match binaryPrecedence lex.token.text with
    | none => some (right, lex)
    | some (_, next) =>
      if prec < next then (parseBinary n lex right prec).bind (fun r => parseRight n r.2 r.1 prec)
      else some (right, lex)

def parseExpression : Nat → Lexer → Expr φ → Option (Expr φ × Lexer)
  | 0, _, _ => none
  | n + 1, lex, expr => (parseUnary n lex expr).bind (fun r => parseBinary n r.2.1 r.1 3)

/-- `__parse_predicate` and `z_expr_parse_predicate`. -/
def parsePredicate : Nat → Lexer → Expr φ → Option (Expr φ × Lexer)
  | 0, _, _ => none
  | n + 1, lex, expr => (parseUnary n lex expr).bind (fun r => parseBinary n r.2.1 r.1 0)

end

end

end RaleighSL.Zcl.Evaluator
