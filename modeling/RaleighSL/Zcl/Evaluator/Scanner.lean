import RaleighSL.Zcl.Evaluator.Parser
import RaleighSL.Library.Texts
import RaleighSL.Library.Fuel

/-!
# The lexer

`utils/lexer.c` over the characters of a text. A function that recognises a kind of token is given
the characters that are left. It gives how far it moves the index, and what it returns: nothing
for 0, else the type of the token or an error. The tests of `ctype.h` are those of the C locale.
-/
namespace RaleighSL.Zcl.Evaluator

/-- `enum z_lexer_error`, without the value for no error. -/
inductive LexerError where
  | ucaes
  | edads
  | utstr
  | invtok
  deriving DecidableEq, Repr

/-- What a function that recognises a kind of token returns. -/
abbrev LexState := Option (Except LexerError TokenType)

/-- `isspace`. -/
def isSpace (c : Char) : Bool := c ∈ [' ', '\t', '\n', '\x0b', '\x0c', '\r']

def lexSkipSpaces (cs : List Char) : Nat := (cs.takeWhile isSpace).length

/-- The loops of `__lex_number` over digits. -/
def lexDigits (cs : List Char) : Nat := (cs.takeWhile Char.isDigit).length

/-- The part of `__lex_number` for the dot. -/
def lexFraction (cs : List Char) : Nat := if cs.head? = some '.' then 1 + lexDigits (cs.drop 1) else 0

/-- The part of `__lex_number` behind the exponent sign. -/
def lexExponent (cs : List Char) : Nat × LexState :=
  match cs with
  | [] => (0, some (.error .ucaes))
  | c :: cs =>
    if c = '+' ∨ c = '-' ∨ c.isDigit then (1 + lexDigits cs, some (.ok .float)) else (0, some (.error .ucaes))

def lexNumber (cs : List Char) : Nat × LexState :=
  if cs.head?.any (fun c => c.isDigit ∨ c = '.') then
    let whole := lexDigits cs
    let cs₁ := cs.drop whole
    let fraction := lexFraction cs₁
    let cs₂ := cs₁.drop fraction
    if cs₂.head? = some 'e' ∨ cs₂.head? = some 'E' then
      let r := lexExponent (cs₂.drop 1)
      (whole + fraction + 1 + r.1, r.2)
    else if whole + fraction = 1 ∧ cs.head? = some '.' then (whole + fraction, some (.error .edads))
    else (whole + fraction, some (.ok (if fraction = 0 then .int else .float)))
  else (0, none)

/-- The loop of `__lex_string`, behind the quote. -/
def lexQuoted (quote : Char) : List Char → Nat × LexState
  | [] => (0, some (.error .utstr))
  | c :: cs =>
    if c = quote then (1, some (.ok .string))
    else if c = '\\' then
      match cs with
      | [] => (1, some (.error .utstr))
      | _ :: cs =>
        let r := lexQuoted quote cs
        (2 + r.1, r.2)
    else
      let r := lexQuoted quote cs
      (1 + r.1, r.2)

def lexString : List Char → Nat × LexState
  | [] => (0, none)
  | c :: cs =>
    if c = '\'' ∨ c = '"' then
      let r := lexQuoted c cs
      (1 + r.1, r.2)
    else (0, none)

/-- `__lex_operator_keyword`, which moves the index only when it finds the keyword. -/
def lexOperatorKeyword (cs keyword : List Char) : Option Nat :=
  if keyword <+: cs.map Char.toUpper then some keyword.length else none

/-- The keywords that `__lex_operator` looks for. -/
def keywords : List (List Char) := [['O', 'R'], ['A', 'N', 'D'], ['N', 'O', 'T']]

/-- The operators of one character that begin no longer one. -/
def punctuation : List Char := ['+', '-', '*', '/', '%', '~', '^', ',', ';', '(', ')', '[', ']']

def lexOperator : List Char → Nat × LexState
  | [] => (0, none)
  | c :: cs =>
    let next := cs.head?
    if c ∈ punctuation then (1, some (.ok .operator))
    else if c ∈ ['&', '|'] then (if next = some c then 2 else 1, some (.ok .operator))
    else if c ∈ ['<', '>', '=', '!'] then
      (if next = some c ∨ next = some '=' ∨ (c = '<' ∧ next = some '>') then 2 else 1, some (.ok .operator))
    else
      match keywords.findSome? (lexOperatorKeyword (c :: cs)) with
      | some n => (n, some (.ok .operator))
      | none => (0, none)

def beginsWord (c : Char) : Bool := c = '_' || c.isAlpha

def lexIdentifier : List Char → Nat × LexState
  | [] => (0, none)
  | c :: cs =>
    if beginsWord c then (1 + (cs.takeWhile Char.isAlphanum).length, some (.ok .identifier)) else (0, none)

def lexKnownIdentifiers (text : List Char) : TokenType :=
  if text.map Char.toLower = ['t', 'r', 'u', 'e'] ∨ text.map Char.toLower = ['f', 'a', 'l', 's', 'e'] then .boolean
  else .identifier

/-- The functions are tried in their order, each at the index that the one before leaves. -/
def lexFirst : List (List Char → Nat × LexState) → List Char → Nat × LexState
  | [], _ => (0, none)
  | f :: fs, cs =>
    match f cs with
    | (n, none) =>
      let r := lexFirst fs (cs.drop n)
      (n + r.1, r.2)
    | r => r

/-- The part of `z_lexer_next` that recognises a token. -/
def lexToken (cs : List Char) : Nat × LexState :=
  let r := lexFirst [lexNumber, lexString, lexOperator, lexIdentifier] cs
  match r.2 with
  | none => (r.1, some (.error .invtok))
  | some (.ok .identifier) => (r.1, some (.ok (lexKnownIdentifiers (cs.take r.1))))
  | some state => (r.1, some state)

/-- `struct z_lexer_token`. -/
structure Span where
  start : Nat
  length : Nat
  type : TokenType
  deriving DecidableEq, Repr

def Span.text (t : Span) (query : List Char) : List Char := (query.drop t.start).take t.length

/-- `struct z_lexer`. -/
structure Scanner where
  query : List Char
  index : Nat
  token : Span
  deriving DecidableEq, Repr

/-- `z_lexer_open`, which leaves the place of the token as the memory has it. -/
def openLexer (query : List Char) (memory : Span) : Scanner :=
  { query := query, index := 0, token := { memory with type := .unknown } }

/-- `z_lexer_next`, and what it returns. -/
def Scanner.next (lex : Scanner) : Scanner × Int :=
  let index := lex.index + lexSkipSpaces (lex.query.drop lex.index)
  if lex.query.length ≤ index then
    ({ lex with index := index, token := { lex.token with type := .unknown } }, 1)
  else
    let r := lexToken (lex.query.drop index)
    match r.2 with
    | some (.ok type) =>
      ({ lex with index := index + r.1, token := { start := index, length := r.1, type := type } }, 0)
    | _ => ({ lex with index := index + r.1, token := { start := index, length := r.1, type := .unknown } }, -1)

/-- The tokens that `z_lexer_next` reads until it does not return 0, and what it leaves and returns then. -/
def readTokens : Nat → Scanner → Option (List Span × Scanner × Int)
  | 0, _ => none
  | n + 1, lex =>
    let r := lex.next
    if r.2 = 0 then (readTokens n r.1).map (fun s => (r.1.token :: s.1, s.2)) else some ([], r)

end RaleighSL.Zcl.Evaluator
