import RaleighSL.Library.Fuel
import RaleighSL.Library.Texts
import Mathlib.Data.List.Basic

/-!
# The tokens of the query language

`RqlLexer` hands out the tokens in their order. It looks at tokens ahead and puts them back, so
it is the list of the tokens that are left.

`tokenize` of `sql/tokenizer.py` goes over the characters of a query and collects a text until something
ends it. Behind an operator it reads one character ahead, and goes on with this character behind the test
for operators. At the end of the query the reading of a character ends the loop, wherever it stands.

Of a token its type and value are kept, and not its row and column.
-/
namespace RaleighSL.Client.Rql

/-- `Token`, by its type. The values of numbers are of a type of their own. -/
inductive Token (ν : Type) where
  | number (value : ν)
  | boolean (value : Bool)
  | string (value : String)
  | identifier (value : String)
  | punctuation (value : String)
  | operator (value : String)
  deriving DecidableEq, Repr

variable {ν : Type}

/-- The value of a token for a comparison with a text. A number or a boolean equals none, and no text it is compared
with is empty. -/
def Token.text : Token ν → String
  | .number _ => ""
  | .boolean _ => ""
  | .string s => s
  | .identifier s => s
  | .punctuation s => s
  | .operator s => s

@[simp] theorem Token.text_identifier (s : String) : (Token.identifier s : Token ν).text = s := rfl

@[simp] theorem Token.text_punctuation (s : String) : (Token.punctuation s : Token ν).text = s := rfl

@[simp] theorem Token.text_operator (s : String) : (Token.operator s : Token ν).text = s := rfl

def Token.isOperator : Token ν → Bool
  | .operator _ => true
  | _ => false

/-- `_match_seq`. It gives what is left, or nothing where the tokens are put back. -/
def matchSeq : List (Option String) → List (Token ν) → Option (List (Token ν))
  | [], ts => some ts
  | _ :: _, [] => none
  | utoken :: utokens, t :: ts => if utoken.all (fun text => t.text == text) then matchSeq utokens ts else none

def matchOperator (utokens : List String) : List (Token ν) → Option (String × List (Token ν))
  | [] => none
  | t :: ts => if t.isOperator ∧ t.text ∈ utokens then some (t.text, ts) else none

/-- What the parser raises. -/
inductive SyntaxError (ν : Type) where
  | unexpectedTermination
  | canNotProcess (token : Token ν)
  | expected (utokens : List (Option String)) (got : Option (Token ν))
  | expectedIdentifier (got : Option (Token ν))
  | expectedStringOrIdentifier (got : Option (Token ν))
  | invalidListItem
  | overflow
  deriving DecidableEq, Repr

/-- What a function with a bound on its depth gives: nothing when the bound is too small, and else an exception or a
result. -/
abbrev Outcome (ν : Type) := ExceptT (SyntaxError ν) Option

def expectSeq (utokens : List (Option String)) (ts : List (Token ν)) : Outcome ν (List (Token ν)) :=
  match matchSeq utokens ts with
  | some ts => pure ts
  | none => throw (.expected utokens ts.head?)

def expectIdentifier : List (Token ν) → Outcome ν (String × List (Token ν))
  | .identifier s :: ts => pure (s, ts)
  | ts => throw (.expectedIdentifier ts.head?)

def expectStringOrIdentifier : List (Token ν) → Outcome ν (String × List (Token ν))
  | .string s :: ts => pure (s.toLower, ts)
  | .identifier s :: ts => pure (s.toLower, ts)
  | ts => throw (.expectedStringOrIdentifier ts.head?)

/-- A function returns a result when it gives it for all bounds from some on. -/
def Returns {α : Type} (f : Nat → Outcome ν α) (a : α) : Prop := Library.Yields (fun n => (f n).run) (.ok a)

section

variable {α β : Type}

theorem Returns.of_forall {f : Nat → Outcome ν α} {a : α} (h : ∀ n, f n = pure a) : Returns f a :=
  Library.Yields.of_forall h

theorem Returns.step {f g : Nat → Outcome ν α} {a : α} (hfg : ∀ n, f (n + 1) = g n) (h : Returns g a) : Returns f a :=
  Library.Yields.step hfg h

theorem Returns.bind {f : Nat → Outcome ν α} {g : Nat → α → Outcome ν β} {a : α} {b : β} (hf : Returns f a)
    (hg : Returns (fun n => g n a) b) : Returns (fun n => f n >>= g n) b := by
  obtain ⟨N, hN⟩ := hf
  obtain ⟨M, hM⟩ := hg
  refine ⟨N + M, fun n hn => ?_⟩
  have hfn : f n = pure a := hN n (by omega)
  have hgn : g n a = pure b := hM n (by omega)
  show (f n >>= g n) = pure b
  rw [hfn, pure_bind, hgn]

theorem returns_iff_settles {f : Nat → Outcome ν α} {a : α} :
    Returns f a ↔ Library.Settles f (fun x => x = pure a) := Iff.rfl

theorem Returns.bind_settles {f : Nat → Outcome ν α} {g : Nat → α → Outcome ν β} {a : α} {P : Outcome ν β → Prop}
    (hf : Returns f a) (hg : Library.Settles (fun n => g n a) P) : Library.Settles (fun n => f n >>= g n) P := by
  obtain ⟨N, hN⟩ := hf
  obtain ⟨M, hM⟩ := hg
  refine ⟨N + M, fun n hn => ?_⟩
  have hfn : f n = pure a := hN n (by omega)
  show P (f n >>= g n)
  rw [hfn, pure_bind]
  exact hM n (by omega)

/-- A function that first calls another one. -/
theorem Returns.step_bind {f : Nat → Outcome ν β} {h : Nat → Outcome ν α} {g : Nat → α → Outcome ν β} {a : α} {b : β}
    (hh : Returns h a) (hf : ∀ n, f (n + 1) = h n >>= g n) (hg : Returns (fun n => g n a) b) : Returns f b :=
  Returns.step hf (hh.bind hg)

theorem Returns.unique {f : Nat → Outcome ν α} {a b : α} (ha : Returns f a) (hb : Returns f b) : a = b :=
  Except.ok.inj (Library.Yields.unique ha hb)

end

@[simp] theorem matchSeq_nil (ts : List (Token ν)) : matchSeq [] ts = some ts := rfl

@[simp] theorem matchSeq_cons (text : String) (utokens : List (Option String)) (t : Token ν) (ts : List (Token ν)) :
    matchSeq (some text :: utokens) (t :: ts) = if t.text = text then matchSeq utokens ts else none := by
  simp [matchSeq]

theorem matchSeq_text (text : String) {t : Token ν} (h : t.text = text) (ts : List (Token ν)) :
    matchSeq [some text] (t :: ts) = some ts := by
  simp [matchSeq, h]

theorem expectSeq_text (text : String) {t : Token ν} (h : t.text = text) (ts : List (Token ν)) :
    expectSeq [some text] (t :: ts) = pure ts := by
  rw [expectSeq, matchSeq_text text h]

theorem matchSeq_cons_none {text : String} {utokens : List (Option String)} {ts : List (Token ν)}
    (h : ∀ t ∈ ts.head?, t.text ≠ text) : matchSeq (some text :: utokens) ts = none := by
  cases ts with
  | nil => rfl
  | cons t ts =>
    have hne : t.text ≠ text := h t rfl
    simp [matchSeq, hne]

theorem matchSeq_other {text : String} {utokens : List (Option String)} (other : String) (hne : other ≠ text)
    {t : Token ν} (h : t.text = other) (ts : List (Token ν)) : matchSeq (some text :: utokens) (t :: ts) = none :=
  matchSeq_cons_none (by rintro u ⟨⟩; rw [h]; exact hne)

/-! ### The tokenizer -/

def symbolsQuote : List Char := ['\'', '"']

/-- `_SYMBOLS_SPACE`, with the vertical tab at its end. -/
def symbolsSpace : List Char := [' ', '\t', '\n', '\r', Char.ofNat 11]

def symbolsPunctuation : List Char := [',', ';', '(', ')']

def symbolsComment : List (List Char) := [['-', '-'], ['/', '*']]

def operators : List (List Char) :=
  [['+'], ['-'], ['*'], ['/'], ['|'], ['^'], ['&'], ['~'], ['!'], ['='], ['<'], ['>'], ['<', '='], ['>', '='], ['<', '>'],
    ['!', '='], ['!', '>'], ['!', '<']]

def keywordsOperator : List (List Char) :=
  [['O', 'R'], ['A', 'N', 'D'], ['N', 'O', 'T'], ['I', 'N'], ['L', 'I', 'K', 'E']]

/-- The tokens that the generator gives, and whether it raises an exception then. -/
abbrev Tokens (ν : Type) := List (Token ν) × Bool

def yields (ts : List (Token ν)) (r : Tokens ν) : Tokens ν := (ts ++ r.1, r.2)

def wordToken (sdata : List Char) : Token ν :=
  let token := sdata.map Char.toUpper
  if token ∈ keywordsOperator then .operator (String.ofList token) else .identifier (String.ofList token)

variable (tokenNumberFunc : List (List Char → Option ν))

/-- `_sdata_to_token`. The functions for numbers are tried one after the other. -/
def sdataToToken (sdata : List Char) : Token ν :=
  if sdata.head?.any (fun c => '0' ≤ c && c ≤ '9') then
    match tokenNumberFunc.findSome? (fun func => func sdata) with
    | some value => .number value
    | none => wordToken sdata
  else wordToken sdata

def flush (sdata : List Char) : List (Token ν) := if sdata = [] then [] else [sdataToToken tokenNumberFunc sdata]

/-- The part of the loop behind the test for operators: what it gives, the quote that is open, and the text. -/
def classify (c : Char) (sdata : List Char) : List (Token ν) × Option Char × List Char :=
  if c ∈ symbolsQuote then ([], some c, sdata)
  else if c ∈ symbolsSpace then (flush tokenNumberFunc sdata, none, [])
  else if c ∈ symbolsPunctuation then
    (flush tokenNumberFunc sdata ++ [.punctuation (String.ofList [c])], none, [])
  else ([], none, sdata ++ [c])

def finish (quoted : Option Char) (sdata : List Char) : Tokens ν :=
  if quoted.isSome then ([], true) else (flush tokenNumberFunc sdata, false)

/-- The loop of `tokenize`, with the open quote, the two flags for comments and the text that is collected. -/
def tokenizeLoop : Option Char → Bool → Bool → List Char → List Char → Tokens ν
  | quoted, _, _, sdata, [] => finish tokenNumberFunc quoted sdata
  | some quote, comment, lineComment, sdata, c :: query =>
    if c = quote then
      yields [.string (String.ofList sdata)] (tokenizeLoop none comment lineComment [] query)
    else if c = '\\' then
      match query with
      | [] => finish tokenNumberFunc (some quote) sdata
      | c :: query => tokenizeLoop (some quote) comment lineComment (sdata ++ [c]) query
    else tokenizeLoop (some quote) comment lineComment (sdata ++ [c]) query
  | none, true, lineComment, sdata, c :: query =>
    if lineComment && c = '\n' then tokenizeLoop none false false [] query
    else if !lineComment && ['*', '/'].isSuffixOf (sdata ++ [c]) then tokenizeLoop none false lineComment [] query
    else tokenizeLoop none true lineComment (sdata ++ [c]) query
  | none, false, lineComment, sdata, c :: query =>
    if [c] ∈ operators then
      yields (flush tokenNumberFunc sdata) (match query with
        | [] => finish tokenNumberFunc none []
        | nc :: query =>
          if [c, nc] ∈ operators then
            yields [.operator (String.ofList [c, nc])] (tokenizeLoop none false lineComment [] query)
          else if [c, nc] ∈ symbolsComment then tokenizeLoop none true ([c, nc] = ['-', '-']) [] query
          else
            let r := classify tokenNumberFunc nc []
            yields (.operator (String.ofList [c]) :: r.1) (tokenizeLoop r.2.1 false lineComment r.2.2 query))
    else
      let r := classify tokenNumberFunc c sdata
      yields r.1 (tokenizeLoop r.2.1 false lineComment r.2.2 query)

def tokenize (query : List Char) : Tokens ν := tokenizeLoop tokenNumberFunc none false false [] query

end RaleighSL.Client.Rql
