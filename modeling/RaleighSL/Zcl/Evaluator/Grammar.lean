import RaleighSL.Library.Precedence
import RaleighSL.Zcl.Evaluator.Parser

/-!
# The grammar of expressions

A predicate is a chain of terms with operators between them. A term may have unary operators. Behind
an operand, a call or a predicate in parentheses it may have a list or two bounds. The second bound
goes on as far as it can, so only an operator that is none of expressions comes behind it.
-/
namespace RaleighSL.Zcl.Evaluator

open Library

structure Word (text : String) : Prop where
  operator : binaryPrecedence text = none
  keyword : text ≠ "NOT" ∧ text ≠ "IN" ∧ text ≠ "BETWEEN"

/-- A token that is an operand: not an operator, a keyword or a parenthesis. -/
structure Operand where
  token : Token
  type : token.type ∈ [TokenType.int, .float, .boolean, .string, .identifier]
  word : Word token.text
  parenthesis : token.begins '(' = false

/-- A token that is a binary operator, with its type and precedence. -/
structure BinaryToken where
  token : Token
  type : BinaryType
  prec : Nat
  operator : binaryPrecedence token.text = some (type, prec)

structure UnaryToken where
  token : Token
  type : UnaryType
  isOperator : token.type = .operator
  operator : unaryOperator token.text = .yes type

structure Name where
  text : String
  word : Word text

/-- The precedence from which on `__parse_expression` takes operators. -/
def expressionPrecedence : Nat := 3

mutual

inductive Primary where
  | operand (o : Operand)
  | group (c : Chain)
  | call (name : Name)
  | callWith (name : Name) (args : Elements)

/-- What may have a list or bounds behind it, with unary operators before it. -/
inductive Term where
  | primary (p : Primary)
  | within (p : Primary) (negate : Bool) (xs : Elements)
  | between (p : Primary) (negate : Bool) (low high : Chain)
  | unary (u : UnaryToken) (t : Term)

inductive Chain where
  | last (t : Term)
  | more (t : Term) (b : BinaryToken) (c : Chain)

inductive Elements where
  | last (c : Chain)
  | more (c : Chain) (xs : Elements)

end

/-! ### Tokens -/

def openParenthesis : Token := ⟨.operator, "("⟩

def closeParenthesis : Token := ⟨.operator, ")"⟩

def comma : Token := ⟨.operator, ","⟩

/-- The keyword behind an operand, which may have `NOT` before it. -/
def keywordTokens (negate : Bool) (keyword : String) : List Token :=
  (if negate then [⟨.operator, "NOT"⟩] else []) ++ [⟨.identifier, keyword⟩]

mutual

def Primary.tokens : Primary → List Token
  | .operand o => [o.token]
  | .group c => openParenthesis :: (c.tokens ++ [closeParenthesis])
  | .call name => [⟨.identifier, name.text⟩, openParenthesis, closeParenthesis]
  | .callWith name args => ⟨.identifier, name.text⟩ :: openParenthesis :: (args.tokens ++ [closeParenthesis])

def Term.tokens : Term → List Token
  | .primary p => p.tokens
  | .within p negate xs => p.tokens ++ (keywordTokens negate "IN" ++ openParenthesis :: (xs.tokens ++ [closeParenthesis]))
  | .between p negate low high =>
    p.tokens ++ (keywordTokens negate "BETWEEN" ++ (low.tokens ++ ⟨.operator, "AND"⟩ :: high.tokens))
  | .unary u t => u.token :: t.tokens

def Chain.tokens : Chain → List Token
  | .last t => t.tokens
  | .more t b c => t.tokens ++ b.token :: c.tokens

def Elements.tokens : Elements → List Token
  | .last c => c.tokens
  | .more c xs => c.tokens ++ comma :: xs.tokens

end

/-! ### Well-formed predicates -/

def Term.endsBetween : Term → Bool
  | .between .. => true
  | .unary _ t => t.endsBetween
  | _ => false

mutual

/-- Bounds have only operators of expressions, and none of these comes behind the second one. -/
def Primary.WellFormed : Primary → Prop
  | .operand _ => True
  | .group c => c.WellFormed 0
  | .call _ => True
  | .callWith _ args => args.WellFormed

def Term.WellFormed : Term → Prop
  | .primary p => p.WellFormed
  | .within p _ xs => p.WellFormed ∧ xs.WellFormed
  | .between p _ low high =>
    p.WellFormed ∧ low.WellFormed expressionPrecedence ∧ high.WellFormed expressionPrecedence
  | .unary _ t => t.WellFormed

def Chain.WellFormed : Nat → Chain → Prop
  | _, .last t => t.WellFormed
  | least, .more t b c =>
    t.WellFormed ∧ least ≤ b.prec ∧ (t.endsBetween = true → b.prec < expressionPrecedence) ∧ c.WellFormed least

def Elements.WellFormed : Elements → Prop
  | .last c => c.WellFormed 0
  | .more c xs => c.WellFormed 0 ∧ xs.WellFormed

end

mutual

def Primary.CallFree : Primary → Prop
  | .operand _ => True
  | .group c => c.CallFree
  | .call _ => False
  | .callWith _ _ => False

def Term.CallFree : Term → Prop
  | .primary p => p.CallFree
  | .within p _ xs => p.CallFree ∧ xs.CallFree
  | .between p _ low high => p.CallFree ∧ low.CallFree ∧ high.CallFree
  | .unary _ t => t.CallFree

def Chain.CallFree : Chain → Prop
  | .last t => t.CallFree
  | .more t _ c => t.CallFree ∧ c.CallFree

def Elements.CallFree : Elements → Prop
  | .last c => c.CallFree
  | .more c xs => c.CallFree ∧ xs.CallFree

end

mutual

def Primary.StringFree : Primary → Prop
  | .operand o => o.token.type ≠ .string
  | .group c => c.StringFree
  | .call _ => True
  | .callWith _ args => args.StringFree

def Term.StringFree : Term → Prop
  | .primary p => p.StringFree
  | .within p _ xs => p.StringFree ∧ xs.StringFree
  | .between p _ low high => p.StringFree ∧ low.StringFree ∧ high.StringFree
  | .unary _ t => t.StringFree

def Chain.StringFree : Chain → Prop
  | .last t => t.StringFree
  | .more t _ c => t.StringFree ∧ c.StringFree

def Elements.StringFree : Elements → Prop
  | .last c => c.StringFree
  | .more c xs => c.StringFree ∧ xs.StringFree

end

mutual

/-- There is no string literal in what is copied: before an operator, before a list or bounds, and in a list before its
last element. -/
def Primary.Copied : Primary → Prop
  | .operand _ => True
  | .group c => c.Copied
  | .call _ => True
  | .callWith _ args => args.Copied

def Term.Copied : Term → Prop
  | .primary p => p.Copied
  | .within p _ xs => p.StringFree ∧ xs.Copied
  | .between p _ low high => p.StringFree ∧ low.Copied ∧ high.Copied
  | .unary _ t => t.Copied

def Chain.Copied : Chain → Prop
  | .last t => t.Copied
  | .more t _ c => t.StringFree ∧ c.Copied

def Elements.Copied : Elements → Prop
  | .last c => c.Copied
  | .more c xs => c.StringFree ∧ xs.Copied

end

def Chain.ops : Chain → List BinaryToken
  | .last _ => []
  | .more _ b c => b :: c.ops

mutual

/-- In no parentheses, element or bound two operators of equal precedence have higher ones between them. -/
def Primary.Clean : Primary → Prop
  | .operand _ => True
  | .group c => OpTree.Clean BinaryToken.prec c.ops ∧ c.CleanTerms
  | .call _ => True
  | .callWith _ args => args.Clean

def Term.Clean : Term → Prop
  | .primary p => p.Clean
  | .within p _ xs => p.Clean ∧ xs.Clean
  | .between p _ low high =>
    p.Clean ∧ (OpTree.Clean BinaryToken.prec low.ops ∧ low.CleanTerms) ∧
      OpTree.Clean BinaryToken.prec high.ops ∧ high.CleanTerms
  | .unary _ t => t.Clean

def Chain.CleanTerms : Chain → Prop
  | .last t => t.Clean
  | .more t _ c => t.Clean ∧ c.CleanTerms

def Elements.Clean : Elements → Prop
  | .last c => OpTree.Clean BinaryToken.prec c.ops ∧ c.CleanTerms
  | .more c xs => (OpTree.Clean BinaryToken.prec c.ops ∧ c.CleanTerms) ∧ xs.Clean

end

/-- Neither at the top nor in a part of it two operators of equal precedence have higher ones between them. -/
def Chain.Clean (c : Chain) : Prop := OpTree.Clean BinaryToken.prec c.ops ∧ c.CleanTerms

/-! ### Expressions -/

def inType (negate : Bool) : BinaryType := if negate then .neq else .eq

section

variable {φ : Type*}

/-- The tree for a list, of which some elements are joined. -/
def joined (type : BinaryType) (e : Expr φ) : Expr φ → List (Expr φ) → Expr φ :=
  List.foldl (fun t x => .binary .or t (.binary type e x))

def inTree (negate : Bool) (e : Expr φ) (xs : Expr φ × List (Expr φ)) : Expr φ :=
  joined (inType negate) e (.binary (inType negate) e xs.1) xs.2

def betweenTree (negate : Bool) (e low high : Expr φ) : Expr φ :=
  if negate then .binary .or (.binary .lt e low) (.binary .gt e high)
  else .binary .and (.binary .ge e low) (.binary .le e high)

def treeExpr : OpTree (Expr φ) BinaryToken → Expr φ
  | .leaf e => e
  | .node l b r => .binary b.type (treeExpr l) (treeExpr r)

def groupedExpr (items : Expr φ × List (BinaryToken × Expr φ)) : Expr φ :=
  treeExpr (OpTree.group BinaryToken.prec items.1 items.2)

variable (env : Environment φ)

def Operand.expr (o : Operand) : Expr φ :=
  match o.token.type with
  | .int => .integer (strtoi64 o.token.text)
  | .float => .floating (env.strtod o.token.text)
  | .boolean => .integer (if o.token.text.length = 4 then 1 else 0)
  | .identifier => .identifier o.token.text
  | _ => .string none

mutual

/-- The expression of a part, where every predicate is grouped by precedence. -/
def Primary.expr : Primary → Expr φ
  | .operand o => o.expr env
  | .group c => groupedExpr c.items
  | .call _ => functionExpr env []
  | .callWith _ args => functionExpr env (args.exprs.1 :: args.exprs.2)

def Term.expr : Term → Expr φ
  | .primary p => p.expr
  | .within p negate xs => inTree negate p.expr xs.exprs
  | .between p negate low high => betweenTree negate p.expr (groupedExpr low.items) (groupedExpr high.items)
  | .unary u t => .unary u.type t.expr

def Chain.items : Chain → Expr φ × List (BinaryToken × Expr φ)
  | .last t => (t.expr, [])
  | .more t b c => (t.expr, (b, c.items.1) :: c.items.2)

def Elements.exprs : Elements → Expr φ × List (Expr φ)
  | .last c => (groupedExpr c.items, [])
  | .more c xs => (groupedExpr c.items, xs.exprs.1 :: xs.exprs.2)

end

/-- The expression of a predicate, where operators of higher precedence bind tighter and operators of equal precedence
associate to the left. -/
def Chain.expr (c : Chain) : Expr φ := groupedExpr (c.items env)

end

mutual

theorem Primary.StringFree.copied : {p : Primary} → p.StringFree → p.Copied
  | .operand _, _ => trivial
  | .group c, h => Chain.StringFree.copied (c := c) h
  | .call _, _ => trivial
  | .callWith _ args, h => Elements.StringFree.copied (e := args) h

theorem Term.StringFree.copied : {t : Term} → t.StringFree → t.Copied
  | .primary p, h => Primary.StringFree.copied (p := p) h
  | .within _ _ xs, h => ⟨h.1, Elements.StringFree.copied (e := xs) h.2⟩
  | .between _ _ low high, h => ⟨h.1, Chain.StringFree.copied (c := low) h.2.1, Chain.StringFree.copied (c := high) h.2.2⟩
  | .unary _ t, h => Term.StringFree.copied (t := t) h

theorem Chain.StringFree.copied : {c : Chain} → c.StringFree → c.Copied
  | .last t, h => Term.StringFree.copied (t := t) h
  | .more _ _ c, h => ⟨h.1, Chain.StringFree.copied (c := c) h.2⟩

theorem Elements.StringFree.copied : {e : Elements} → e.StringFree → e.Copied
  | .last c, h => Chain.StringFree.copied (c := c) h
  | .more _ xs, h => ⟨h.1, Elements.StringFree.copied (e := xs) h.2⟩

end

end RaleighSL.Zcl.Evaluator
