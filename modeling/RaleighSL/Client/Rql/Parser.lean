import RaleighSL.Client.Rql.Lexer

/-!
# The parser of the query language

The functions of `RqlExprParser` call each other. A bound on the depth of the calls makes them
functions, and the loops are functions of their own. `get_binary_precedence` looks at the text of
a token and not at its type.
-/
namespace RaleighSL.Client.Rql

inductive Expr (φ : Type) where
  | number (value : φ)
  | boolean (value : Bool)
  | string (value : String)
  | wildcard (value : String)
  | identifier (name : String)
  | call (name : String) (args : List (Expr φ))
  | unary (operator : String) (expression : Expr φ)
  | binary (operator : String) (left right : Expr φ)
  | assignment (name : String) (expression : Expr φ)

def expressionOperators : List (List String) := [["+", "-", "&", "^", "|"], ["*", "/", "%"], ["~"]]

def predicateOperators : List (List String) :=
  [["OR"], ["AND"], ["LIKE"], ["==", "<", ">", "<=", ">=", "<>", "!=", "!>", "!<"]]

def predicateExpressionOperators : List (List String) := predicateOperators ++ expressionOperators

variable {ν : Type}

def getBinaryPrecedence (operators : List (List String)) (token : Option (Token ν)) : Int :=
  match token with
  | none => -1
  | some t =>
    if operators.any (fun oplist => oplist.contains t.text) then
      operators.findIdx (fun oplist => oplist.contains t.text)
    else -1

/-- `parse_list` with a dot, of `expect_string_or_identifier`. -/
def parseDotList : Nat → List (Token ν) → Outcome ν (List String × List (Token ν))
  | 0, _ => none
  | n + 1, ts => do
    let (item, ts) ← expectStringOrIdentifier ts
    if item = "" then throw .invalidListItem
    match matchSeq [some "."] ts with
    | some ts => do
      let (items, ts) ← parseDotList n ts
      pure (item :: items, ts)
    | none => pure ([item], ts)

def parseIdentifier {φ : Type} (n : Nat) (ts : List (Token ν)) : Outcome ν (Expr φ × List (Token ν)) := do
  let (items, ts) ← parseDotList n ts
  pure (.identifier (".".intercalate items), ts)

section

variable {φ : Type} (float : ν → Option φ)

mutual

def parseFunctionCall : Nat → List (Token ν) → Outcome ν (Expr φ × List (Token ν))
  | 0, _ => none
  | n + 1, ts => do
    let (name, ts) ← expectIdentifier ts
    let ts ← expectSeq [some "("] ts
    match matchSeq [some ")"] ts with
    | some ts => pure (.call name.toLower [], ts)
    | none => do
      let (args, ts) ← parseCommaList n ts
      let ts ← expectSeq [some ")"] ts
      pure (.call name.toLower args, ts)

/-- `parse_comma_list` of `parse_expression`. -/
def parseCommaList : Nat → List (Token ν) → Outcome ν (List (Expr φ) × List (Token ν))
  | 0, _ => none
  | n + 1, ts => do
    let (item, ts) ← parseExpression n ts
    match matchSeq [some ","] ts with
    | some ts => do
      let (items, ts) ← parseCommaList n ts
      pure (item :: items, ts)
    | none => pure ([item], ts)

def parsePrimary : Nat → List (Token ν) → Outcome ν (Expr φ × List (Token ν))
  | 0, _ => none
  | _ + 1, [] => throw .unexpectedTermination
  | n + 1, token :: ts =>
    match matchSeq [some "("] (token :: ts) with
    | some ts => do
      let (expr, ts) ← parseAssignment n ts
      let ts ← expectSeq [some ")"] ts
      parseSuffix n expr ts
    | none =>
      match token with
      | .identifier _ =>
        if (matchSeq [none, some "("] (token :: ts)).isSome then parseFunctionCall n (token :: ts)
        else do
          let (expr, ts) ← parseIdentifier n (token :: ts)
          parseSuffix n expr ts
      | .number value =>
        match float value with
        | some value => parseSuffix n (.number value) ts
        | none => throw .overflow
      | .string value => parseSuffix n (.string value) ts
      | .boolean value => parseSuffix n (.boolean value) ts
      | token => if token.text = "*" then parseSuffix n (.wildcard token.text) ts else throw (.canNotProcess token)

/-- The part of `parse_primary` behind the operand. -/
def parseSuffix : Nat → Expr φ → List (Token ν) → Outcome ν (Expr φ × List (Token ν))
  | 0, _, _ => none
  | n + 1, expr, ts =>
    match matchSeq [some "BETWEEN"] ts with
    | some ts => parseBetween n expr ts
    | none =>
      match matchSeq [some "NOT", some "BETWEEN"] ts with
      | some ts => do
        let (expr, ts) ← parseBetween n expr ts
        pure (.unary "NOT" expr, ts)
      | none => pure (expr, ts)

def parseUnary : Nat → List (Token ν) → Outcome ν (Expr φ × List (Token ν))
  | 0, _ => none
  | n + 1, ts =>
    match matchOperator ["-", "+", "~", "NOT"] ts with
    | some (operator, ts) => do
      let (expr, ts) ← parseUnary n ts
      pure (.unary operator expr, ts)
    | none => parsePrimary n ts

def parseBetween : Nat → Expr φ → List (Token ν) → Outcome ν (Expr φ × List (Token ν))
  | 0, _, _ => none
  | n + 1, expr, ts => do
    let (minExpr, ts) ← parseExpression n ts
    let ts ← expectSeq [some "AND"] ts
    let (_, ts) ← parseExpression n ts
    pure (.binary "AND" (.binary ">=" expr minExpr) (.binary "<=" expr minExpr), ts)

def parseBinary : Nat → List (List String) → Expr φ → Int → List (Token ν) → Outcome ν (Expr φ × List (Token ν))
  | 0, _, _, _, _ => none
  | _ + 1, _, lhs, _, [] => pure (lhs, [])
  | n + 1, operators, lhs, minPrecedence, operation :: ts =>
    if minPrecedence ≤ getBinaryPrecedence operators (some operation) then do
      let (rhs, ts) ← parseUnary n ts
      let (rhs, ts) ← parseRight n operators rhs minPrecedence ts
      parseBinary n operators (.binary operation.text lhs rhs) minPrecedence ts
    else pure (lhs, operation :: ts)

/-- The inner loop of `parse_binary`. -/
def parseRight : Nat → List (List String) → Expr φ → Int → List (Token ν) → Outcome ν (Expr φ × List (Token ν))
  | 0, _, _, _, _ => none
  | n + 1, operators, rhs, inPrecedence, ts =>
    let prec := getBinaryPrecedence operators ts.head?
    if inPrecedence < prec then do
      let (rhs, ts) ← parseBinary n operators rhs prec ts
      parseRight n operators rhs prec ts
    else pure (rhs, ts)

def parseExpression : Nat → List (Token ν) → Outcome ν (Expr φ × List (Token ν))
  | 0, _ => none
  | n + 1, ts => do
    let (lhs, ts) ← parseUnary n ts
    parseBinary n expressionOperators lhs 0 ts

def parseAssignment : Nat → List (Token ν) → Outcome ν (Expr φ × List (Token ν))
  | 0, _ => none
  | n + 1, ts => do
    let (lhs, ts) ← parseUnary n ts
    let (expr, ts) ← parseBinary n predicateExpressionOperators lhs 0 ts
    match expr with
    | .identifier name =>
      match matchSeq [some "="] ts with
      | some ts => do
        let (value, ts) ← parseAssignment n ts
        pure (.assignment name value, ts)
      | none => pure (.identifier name, ts)
    | expr => pure (expr, ts)

end

def parsePredicate (n : Nat) (ts : List (Token ν)) : Outcome ν (Expr φ × List (Token ν)) := do
  let (lhs, ts) ← parseUnary float n ts
  parseBinary float n predicateExpressionOperators lhs 0 ts

end

end RaleighSL.Client.Rql
