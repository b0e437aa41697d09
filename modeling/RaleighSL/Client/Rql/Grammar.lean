import RaleighSL.Client.Rql.Spine
import RaleighSL.Library.EagerClimbing

/-!
# The grammar of expressions

A chain is a sequence of terms with binary operators between them. A term may have unary operators.
It is an operand, a call or a chain in parentheses, or one of these with the two chains of a
`BETWEEN`. The second of these goes on as far as it can, so only an operator that is none of
expressions comes behind it.
-/
namespace RaleighSL.Client.Rql

open Library

/-- The operators of the one or the other kind of chain. -/
inductive Table where
  | expression
  | predicate
  deriving DecidableEq, Repr

/-- The operators, from the lowest level on. -/
def Table.operators : Table → List (List String)
  | .expression => expressionOperators
  | .predicate => predicateExpressionOperators

def Table.Has (table : Table) (op : String) : Prop := table.operators.any (fun oplist => oplist.contains op) = true

instance (table : Table) (op : String) : Decidable (table.Has op) := inferInstanceAs (Decidable (_ = true))

theorem Table.Has.mem {table : Table} {op : String} (h : table.Has op) : op ∈ table.operators.flatten := by
  obtain ⟨oplist, hmem, hop⟩ := List.any_eq_true.mp h
  exact List.mem_flatten.mpr ⟨oplist, hmem, List.contains_iff_mem.mp hop⟩

def Table.level (table : Table) (op : String) : Nat := table.operators.findIdx (fun oplist => oplist.contains op)

def unaryOperators : List String := ["-", "+", "~", "NOT"]

def grammarWords : List String :=
  ["(", ")", ",", ".", "=", "*", "BETWEEN", "NOT", "AND"] ++ unaryOperators ++ predicateExpressionOperators.flatten

structure NamePart where
  quoted : Bool
  text : String
  nonempty : text ≠ ""

/-- A name. An identifier is no parenthesis. -/
structure Name where
  first : String
  nonempty : first ≠ ""
  parenthesis : first ≠ "(" ∧ first ≠ ")"
  parts : List NamePart

def Name.text (name : Name) : String :=
  ".".intercalate (name.first.toLower :: name.parts.map (fun part => part.text.toLower))

section

variable {ν φ : Type} (float : ν → Option φ)

/-- An operand. The number of a token is one that a float can be made of. -/
inductive Operand where
  | number (value : ν) (result : φ) (converts : float value = some result)
  | boolean (value : Bool)
  | string (value : String)
  | identifier (name : Name)
  | wildcard

mutual

/-- An operand, something in parentheses or a call. -/
inductive Primary where
  | operand (o : Operand float)
  | group (a : Assignment)
  | call (name : String)
  | callWith (name : String) (args : Arguments)

inductive Term where
  | primary (p : Primary)
  | between (p : Primary) (negated : Bool) (low high : Chain)
  | unary (op : String) (t : Term)

inductive Chain where
  | last (t : Term)
  | more (t : Term) (op : String) (c : Chain)

inductive Assignment where
  | predicate (c : Chain)
  | assign (name : Name) (a : Assignment)

inductive Arguments where
  | last (c : Chain)
  | more (c : Chain) (args : Arguments)

end

end

variable {ν φ : Type} {float : ν → Option φ}

/-! ### Tokens -/

def NamePart.token (part : NamePart) : Token ν := if part.quoted then .string part.text else .identifier part.text

def NamePart.tokens (part : NamePart) : List (Token ν) :=
  [.punctuation ".", part.token]

def Name.tokens (name : Name) : List (Token ν) := .identifier name.first :: name.parts.flatMap NamePart.tokens

def Operand.tokens : Operand float → List (Token ν)
  | .number value _ _ => [.number value]
  | .boolean value => [.boolean value]
  | .string value => [.string value]
  | .identifier name => name.tokens
  | .wildcard => [.operator "*"]

mutual

def Primary.tokens : Primary float → List (Token ν)
  | .operand o => o.tokens
  | .group a => .punctuation "(" :: (a.tokens ++ [.punctuation ")"])
  | .call name => [.identifier name, .punctuation "(", .punctuation ")"]
  | .callWith name args => .identifier name :: .punctuation "(" :: (args.tokens ++ [.punctuation ")"])

def Term.tokens : Term float → List (Token ν)
  | .primary p => p.tokens
  | .between p negated low high =>
    p.tokens ++ ((if negated then [.operator "NOT"] else []) ++
      .identifier "BETWEEN" :: (low.tokens ++ .operator "AND" :: high.tokens))
  | .unary op t => .operator op :: t.tokens

def Chain.tokens : Chain float → List (Token ν)
  | .last t => t.tokens
  | .more t op c => t.tokens ++ .operator op :: c.tokens

def Assignment.tokens : Assignment float → List (Token ν)
  | .predicate c => c.tokens
  | .assign name a => name.tokens ++ .operator "=" :: a.tokens

def Arguments.tokens : Arguments float → List (Token ν)
  | .last c => c.tokens
  | .more c args => c.tokens ++ .punctuation "," :: args.tokens

end

/-! ### Well-formed chains -/

def Term.endsBetween : Term float → Bool
  | .between .. => true
  | .unary _ t => t.endsBetween
  | _ => false

mutual

/-- Unary operators are unary operators, and the name of a call is no word of the grammar. -/
def Primary.WellFormed : Primary float → Prop
  | .operand _ => True
  | .group a => a.WellFormed
  | .call name => name ∉ grammarWords
  | .callWith name args => name ∉ grammarWords ∧ args.WellFormed

def Term.WellFormed : Term float → Prop
  | .primary p => p.WellFormed
  | .between p _ low high => p.WellFormed ∧ low.WellFormed .expression ∧ high.WellFormed .expression
  | .unary op t => op ∈ unaryOperators ∧ t.WellFormed

/-- The operators are those of the table, and one of expressions does not come behind a `BETWEEN`. -/
def Chain.WellFormed (table : Table) : Chain float → Prop
  | .last t => t.WellFormed
  | .more t op c =>
    t.WellFormed ∧ table.Has op ∧ (t.endsBetween = true → ¬ Table.expression.Has op) ∧ c.WellFormed table

def Assignment.WellFormed : Assignment float → Prop
  | .predicate c => c.WellFormed .predicate
  | .assign _ a => a.WellFormed

def Arguments.WellFormed : Arguments float → Prop
  | .last c => c.WellFormed .expression
  | .more c args => c.WellFormed .expression ∧ args.WellFormed

end

/-! ### Expressions -/

def groupedExpr (table : Table) (items : Expr φ × List (String × Expr φ)) : Expr φ :=
  treeExpr (OpTree.group table.level items.1 items.2)

def betweenExpr (e low high : Expr φ) : Expr φ := .binary "AND" (.binary ">=" e low) (.binary "<=" e high)

def Operand.expr : Operand float → Expr φ
  | .number _ result _ => .number result
  | .boolean value => .boolean value
  | .string value => .string value
  | .identifier name => .identifier name.text
  | .wildcard => .wildcard "*"

mutual

def Primary.expr : Primary float → Expr φ
  | .operand o => o.expr
  | .group a => a.expr
  | .call name => .call name.toLower []
  | .callWith name args => .call name.toLower args.exprs

def Term.expr : Term float → Expr φ
  | .primary p => p.expr
  | .between p negated low high =>
    let e := betweenExpr p.expr (groupedExpr .expression low.items) (groupedExpr .expression high.items)
    if negated then .unary "NOT" e else e
  | .unary op t => .unary op t.expr

def Chain.items : Chain float → Expr φ × List (String × Expr φ)
  | .last t => (t.expr, [])
  | .more t op c => (t.expr, (op, c.items.1) :: c.items.2)

def Assignment.expr : Assignment float → Expr φ
  | .predicate c => groupedExpr .predicate c.items
  | .assign name a => .assignment name.text a.expr

def Arguments.exprs : Arguments float → List (Expr φ)
  | .last c => [groupedExpr .expression c.items]
  | .more c args => groupedExpr .expression c.items :: args.exprs

end

/-- The expression of a chain, where operators of a higher level bind tighter and operators of one level associate to the
left. -/
def Chain.expr (table : Table) (c : Chain float) : Expr φ := groupedExpr table c.items

/-! ### What the parser gets right -/

def Chain.ops : Chain float → List String
  | .last _ => []
  | .more _ op c => op :: c.ops

mutual

/-- No operand is the string of an opening parenthesis, and the arguments of no call begin with the string of a closing
one. -/
def Primary.Readable : Primary float → Prop
  | .operand (.string value) => value ≠ "("
  | .operand _ => True
  | .group a => a.Readable
  | .call _ => True
  | .callWith _ args => args.tokens.head? ≠ some (.string ")") ∧ args.Readable

def Term.Readable : Term float → Prop
  | .primary p => p.Readable
  | .between p _ low high => p.Readable ∧ low.Readable ∧ high.Readable
  | .unary _ t => t.Readable

def Chain.Readable : Chain float → Prop
  | .last t => t.Readable
  | .more t _ c => t.Readable ∧ c.Readable

def Assignment.Readable : Assignment float → Prop
  | .predicate c => c.Readable
  | .assign _ a => a.Readable

def Arguments.Readable : Arguments float → Prop
  | .last c => c.Readable
  | .more c args => c.Readable ∧ args.Readable

end

def Primary.isCall : Primary float → Bool
  | .call _ => true
  | .callWith .. => true
  | _ => false

mutual

def Primary.Bare : Primary float → Prop
  | .operand _ => True
  | .group a => a.Bare
  | .call _ => True
  | .callWith _ args => args.Bare

def Term.Bare : Term float → Prop
  | .primary p => p.Bare
  | .between p _ low high => p.isCall = false ∧ p.Bare ∧ low.Bare ∧ high.Bare
  | .unary _ t => t.Bare

def Chain.Bare : Chain float → Prop
  | .last t => t.Bare
  | .more t _ c => t.Bare ∧ c.Bare

def Assignment.Bare : Assignment float → Prop
  | .predicate c => c.Bare
  | .assign _ a => a.Bare

def Arguments.Bare : Arguments float → Prop
  | .last c => c.Bare
  | .more c args => c.Bare ∧ args.Bare

end

mutual

/-- In parentheses, in the arguments of a call and in the first bound of a `BETWEEN` the operators are spaced, and the
second bound is the same expression as the first. -/
def Primary.Clean : Primary float → Prop
  | .operand _ => True
  | .group a => a.Clean
  | .call _ => True
  | .callWith _ args => args.Clean

def Term.Clean : Term float → Prop
  | .primary p => p.Clean
  | .between p _ low high =>
    p.Clean ∧ (OpTree.Spaced Table.expression.level 0 low.ops ∧ low.CleanTerms) ∧
      low.expr .expression = high.expr .expression
  | .unary _ t => t.Clean

def Chain.CleanTerms : Chain float → Prop
  | .last t => t.Clean
  | .more t _ c => t.Clean ∧ c.CleanTerms

def Assignment.Clean : Assignment float → Prop
  | .predicate c => OpTree.Spaced Table.predicate.level 0 c.ops ∧ c.CleanTerms
  | .assign _ a => a.Clean

def Arguments.Clean : Arguments float → Prop
  | .last c => OpTree.Spaced Table.expression.level 0 c.ops ∧ c.CleanTerms
  | .more c args => (OpTree.Spaced Table.expression.level 0 c.ops ∧ c.CleanTerms) ∧ args.Clean

end

def Chain.Clean (table : Table) (c : Chain float) : Prop := OpTree.Spaced table.level 0 c.ops ∧ c.CleanTerms

def Table.parse : Table → (ν → Option φ) → Nat → List (Token ν) → Outcome ν (Expr φ × List (Token ν))
  | .expression => parseExpression
  | .predicate => parsePredicate

end RaleighSL.Client.Rql
