import RaleighSL.Client.Rql.Lexer
import RaleighSL.Client.Rql.Parser
import Mathlib.Data.List.Infix

/-!
# Tokens and their texts

A query is a list of tokens with a text for each one, and white space and comments behind them. Only an
operator may touch its neighbour, and the two do not form an operator, the start of a comment or a word
together. A word is a number, a name or an operator of letters, and a name is read in upper case.
-/
namespace RaleighSL.Client.Rql

/-- A character that no test of the tokenizer but the last one finds. -/
structure IsWordChar (c : Char) : Prop where
  operator : [c] ∉ operators
  quote : c ∉ symbolsQuote
  space : c ∉ symbolsSpace
  punctuation : c ∉ symbolsPunctuation

instance : DecidablePred IsWordChar := fun c =>
  decidable_of_iff ([c] ∉ operators ∧ c ∉ symbolsQuote ∧ c ∉ symbolsSpace ∧ c ∉ symbolsPunctuation)
    ⟨fun ⟨operator, quote, space, punctuation⟩ => ⟨operator, quote, space, punctuation⟩,
      fun h => ⟨h.operator, h.quote, h.space, h.punctuation⟩⟩

variable {ν : Type}

/-- A token with its text. The characters of a string may be escaped. -/
inductive Item (ν : Type) where
  | number (text : List Char) (value : ν)
  | identifier (text : List Char)
  | string (quote : Char) (body : List (Bool × Char))
  | punctuation (c : Char)
  | keyword (text : List Char)
  | symbol (text : List Char)

namespace Item

def text : Item ν → List Char
  | .number text _ => text
  | .identifier text => text
  | .string quote body => quote :: (body.flatMap (fun p => if p.1 then ['\\', p.2] else [p.2]) ++ [quote])
  | .punctuation c => [c]
  | .keyword text => text
  | .symbol text => text

def token : Item ν → Token ν
  | .number _ value => .number value
  | .identifier text => .identifier (String.ofList (text.map Char.toUpper))
  | .string _ body => .string (String.ofList (body.map Prod.snd))
  | .punctuation c => .punctuation (String.ofList [c])
  | .keyword text => .operator (String.ofList (text.map Char.toUpper))
  | .symbol text => .operator (String.ofList text)

def isWord : Item ν → Bool
  | .number _ _ => true
  | .identifier _ => true
  | .keyword _ => true
  | _ => false

def isOperator : Item ν → Bool
  | .keyword _ => true
  | .symbol _ => true
  | _ => false

/-- The text is one of the token. The operators are those of the tables of the parser. -/
def Valid (tokenNumberFunc : List (List Char → Option ν)) : Item ν → Prop
  | .number text value => (∀ c ∈ text, IsWordChar c) ∧ text.head?.any (fun c => '0' ≤ c && c ≤ '9') ∧
      tokenNumberFunc.findSome? (fun func => func text) = some value
  | .identifier text => (∀ c ∈ text, IsWordChar c) ∧ text ≠ [] ∧ text.map Char.toUpper ∉ keywordsOperator ∧
      (text.head?.any (fun c => '0' ≤ c && c ≤ '9') → tokenNumberFunc.findSome? (fun func => func text) = none)
  | .string quote body => quote ∈ symbolsQuote ∧ ∀ p ∈ body, p.1 = false → p.2 ≠ quote ∧ p.2 ≠ '\\'
  | .punctuation c => c ∈ symbolsPunctuation
  | .keyword text => text.map Char.toUpper ∈ keywordsOperator ∧
      String.ofList (text.map Char.toUpper) ∈ predicateExpressionOperators.flatten
  | .symbol text => text ∉ keywordsOperator ∧ String.ofList text ∈ predicateExpressionOperators.flatten

instance [DecidableEq ν] (tokenNumberFunc : List (List Char → Option ν)) :
    DecidablePred (Valid tokenNumberFunc : Item ν → Prop)
  | .number _ _ => inferInstanceAs (Decidable (_ ∧ _))
  | .identifier _ => inferInstanceAs (Decidable (_ ∧ _))
  | .string _ _ => inferInstanceAs (Decidable (_ ∧ _))
  | .punctuation c => inferInstanceAs (Decidable (c ∈ symbolsPunctuation))
  | .keyword _ => inferInstanceAs (Decidable (_ ∧ _))
  | .symbol _ => inferInstanceAs (Decidable (_ ∧ _))

/-- Two tokens may stand side by side. -/
structure MayTouch (i j : Item ν) : Prop where
  operator : i.isOperator ∨ j.isOperator
  word : ¬ (i.isWord ∧ j.isWord)
  other : i.text ++ j.text ∉ operators
  comment : i.text ++ j.text ∉ symbolsComment

instance (i j : Item ν) : Decidable (i.MayTouch j) :=
  decidable_of_iff ((i.isOperator ∨ j.isOperator) ∧ ¬ (i.isWord ∧ j.isWord) ∧ i.text ++ j.text ∉ operators ∧
      i.text ++ j.text ∉ symbolsComment)
    ⟨fun ⟨operator, word, other, comment⟩ => ⟨operator, word, other, comment⟩,
      fun h => ⟨h.operator, h.word, h.other, h.comment⟩⟩

end Item

/-- A character of white space, a comment up to the end of the line, or a comment between its two marks. -/
inductive Blank where
  | space (c : Char)
  | line (text : List Char)
  | block (text : List Char)

namespace Blank

def text : Blank → List Char
  | .space c => [c]
  | .line text => '-' :: '-' :: (text ++ ['\n'])
  | .block text => '/' :: '*' :: (text ++ ['*', '/'])

def Valid : Blank → Prop
  | .space c => c ∈ symbolsSpace
  | .line text => '\n' ∉ text
  | .block text => ¬ ['*', '/'] <:+: text ++ ['*']

instance : DecidablePred Valid
  | .space c => inferInstanceAs (Decidable (c ∈ symbolsSpace))
  | .line text => inferInstanceAs (Decidable ('\n' ∉ text))
  | .block text => inferInstanceAs (Decidable (¬ ['*', '/'] <:+: text ++ ['*']))

end Blank

/-- Tokens with what stands behind them: where nothing does, they may touch. -/
def Spaced : List (Item ν × List Blank) → Prop
  | p :: q :: parts => (p.2.isEmpty → p.1.MayTouch q.1) ∧ Spaced (q :: parts)
  | _ => True

instance decidableSpaced : ∀ parts : List (Item ν × List Blank), Decidable (Spaced parts)
  | [] => .isTrue trivial
  | [_] => .isTrue trivial
  | p :: q :: parts =>
    haveI := decidableSpaced (q :: parts)
    inferInstanceAs (Decidable ((p.2.isEmpty → p.1.MayTouch q.1) ∧ Spaced (q :: parts)))

/-- The text of tokens with what stands behind them. The last line may end in a comment. -/
def written (last : Option (List Char)) : List (Item ν × List Blank) → List Char
  | [] => last.elim [] (fun text => '-' :: '-' :: text)
  | p :: parts => p.1.text ++ (p.2.flatMap Blank.text ++ written last parts)

structure Query (tokenNumberFunc : List (List Char → Option ν)) where
  before : List Blank
  parts : List (Item ν × List Blank)
  last : Option (List Char)
  blank_before : ∀ b ∈ before, b.Valid
  item : ∀ p ∈ parts, p.1.Valid tokenNumberFunc
  blank_behind : ∀ p ∈ parts, ∀ b ∈ p.2, b.Valid
  line_last : ∀ text ∈ last, '\n' ∉ text
  spaced : Spaced parts

namespace Query

variable {tokenNumberFunc : List (List Char → Option ν)}

def text (query : Query tokenNumberFunc) : List Char :=
  query.before.flatMap Blank.text ++ written query.last query.parts

def tokens (query : Query tokenNumberFunc) : List (Token ν) := query.parts.map (fun p => p.1.token)

end Query

/-! ### Characters -/

theorem isWordChar_of_toUpper {c : Char} (h : IsWordChar c.toUpper) : IsWordChar c := by
  have hoperators : ∀ l ∈ operators, l.map Char.toUpper = l := by decide
  have hquote : ∀ d ∈ symbolsQuote, d.toUpper = d := by decide
  have hspace : ∀ d ∈ symbolsSpace, d.toUpper = d := by decide
  have hpunctuation : ∀ d ∈ symbolsPunctuation, d.toUpper = d := by decide
  refine ⟨fun hc => h.operator ?_, fun hc => h.quote ?_, fun hc => h.space ?_, fun hc => h.punctuation ?_⟩
  · have heq := hoperators [c] hc
    rw [List.map_singleton] at heq
    rwa [heq]
  · rwa [hquote c hc]
  · rwa [hspace c hc]
  · rwa [hpunctuation c hc]

theorem isWordChar_keyword {text : List Char} (h : text.map Char.toUpper ∈ keywordsOperator) :
    ∀ c ∈ text, IsWordChar c := by
  have hall : ∀ l ∈ keywordsOperator, ∀ c ∈ l, [c] ∉ operators ∧ c ∉ symbolsQuote ∧ c ∉ symbolsSpace ∧
      c ∉ symbolsPunctuation := by decide
  intro c hc
  obtain ⟨hoperator, hquote, hspace, hpunctuation⟩ := hall _ h c.toUpper (List.mem_map_of_mem hc)
  exact isWordChar_of_toUpper ⟨hoperator, hquote, hspace, hpunctuation⟩

end RaleighSL.Client.Rql
