import RaleighSL.Client.Rql.Texts

/-!
# The steps of the tokenizer

What the loop does with the characters of a word, a string, a comment or white space, one after the other.
White space, punctuation and operators end a text that is collected, and a quote does not.
-/
namespace RaleighSL.Client.Rql

variable {ν : Type} {tokenNumberFunc : List (List Char → Option ν)} {c d quote : Char} {sdata text str : List Char}

theorem yields_yields (ts us : List (Token ν)) (r : Tokens ν) : yields ts (yields us r) = yields (ts ++ us) r := by
  rw [yields, yields, yields, List.append_assoc]

@[simp] theorem yields_nil (r : Tokens ν) : yields [] r = r := rfl

/-! ### Characters -/

theorem tokenizeLoop_nil (quoted : Option Char) (comment lineComment : Bool) (sdata : List Char) :
    tokenizeLoop tokenNumberFunc quoted comment lineComment sdata [] = finish tokenNumberFunc quoted sdata := by
  cases quoted <;> cases comment <;> rfl

def lookAhead (tokenNumberFunc : List (List Char → Option ν)) (c : Char) : List Char → Tokens ν
  | [] => finish tokenNumberFunc none []
  | nc :: str =>
    if [c, nc] ∈ operators then
      yields [.operator (String.ofList [c, nc])] (tokenizeLoop tokenNumberFunc none false false [] str)
    else if [c, nc] ∈ symbolsComment then tokenizeLoop tokenNumberFunc none true ([c, nc] = ['-', '-']) [] str
    else yields (.operator (String.ofList [c]) :: (classify tokenNumberFunc nc []).1)
      (tokenizeLoop tokenNumberFunc (classify tokenNumberFunc nc []).2.1 false false (classify tokenNumberFunc nc []).2.2 str)

theorem tokenizeLoop_cons (c : Char) (sdata str : List Char) :
    tokenizeLoop tokenNumberFunc none false false sdata (c :: str) =
      if [c] ∈ operators then yields (flush tokenNumberFunc sdata) (lookAhead tokenNumberFunc c str)
      else yields (classify tokenNumberFunc c sdata).1 (tokenizeLoop tokenNumberFunc (classify tokenNumberFunc c sdata).2.1
        false false (classify tokenNumberFunc c sdata).2.2 str) := by
  cases str <;> rfl

theorem tokenizeLoop_quoted (quote c : Char) (sdata str : List Char) :
    tokenizeLoop tokenNumberFunc (some quote) false false sdata (c :: str) =
      if c = quote then yields [.string (String.ofList sdata)] (tokenizeLoop tokenNumberFunc none false false [] str)
      else if c = '\\' then
        match str with
        | [] => finish tokenNumberFunc (some quote) sdata
        | d :: str => tokenizeLoop tokenNumberFunc (some quote) false false (sdata ++ [d]) str
      else tokenizeLoop tokenNumberFunc (some quote) false false (sdata ++ [c]) str := by
  cases str <;> rfl

theorem tokenizeLoop_char (hc : [c] ∉ operators) (sdata str : List Char) :
    tokenizeLoop tokenNumberFunc none false false sdata (c :: str) =
      yields (classify tokenNumberFunc c sdata).1 (tokenizeLoop tokenNumberFunc (classify tokenNumberFunc c sdata).2.1 false
        false (classify tokenNumberFunc c sdata).2.2 str) := by
  rw [tokenizeLoop_cons, if_neg hc]

theorem tokenizeLoop_wordChar (hc : IsWordChar c) (sdata str : List Char) :
    tokenizeLoop tokenNumberFunc none false false sdata (c :: str) =
      tokenizeLoop tokenNumberFunc none false false (sdata ++ [c]) str := by
  rw [tokenizeLoop_char hc.operator, classify, if_neg hc.quote, if_neg hc.space, if_neg hc.punctuation]
  rfl

theorem tokenizeLoop_word (htext : ∀ c ∈ text, IsWordChar c) (sdata str : List Char) :
    tokenizeLoop tokenNumberFunc none false false sdata (text ++ str) =
      tokenizeLoop tokenNumberFunc none false false (sdata ++ text) str := by
  induction text generalizing sdata with
  | nil => rw [List.nil_append, List.append_nil]
  | cons c text ih =>
    rw [List.cons_append, tokenizeLoop_wordChar (htext c List.mem_cons_self),
      ih (fun d hd => htext d (List.mem_cons_of_mem c hd)), List.append_assoc]
    rfl

theorem not_quote_of_space (hc : c ∈ symbolsSpace) : [c] ∉ operators ∧ c ∉ symbolsQuote := by
  have hall : ∀ c ∈ symbolsSpace, [c] ∉ operators ∧ c ∉ symbolsQuote := by decide
  exact hall c hc

theorem tokenizeLoop_space (hc : c ∈ symbolsSpace) (sdata str : List Char) :
    tokenizeLoop tokenNumberFunc none false false sdata (c :: str) =
      yields (flush tokenNumberFunc sdata) (tokenizeLoop tokenNumberFunc none false false [] str) := by
  obtain ⟨hoperator, hquote⟩ := not_quote_of_space hc
  rw [tokenizeLoop_char hoperator, classify, if_neg hquote, if_pos hc]

theorem tokenizeLoop_punctuation (hc : c ∈ symbolsPunctuation) (sdata str : List Char) :
    tokenizeLoop tokenNumberFunc none false false sdata (c :: str) =
      yields (flush tokenNumberFunc sdata)
        (yields [.punctuation (String.ofList [c])] (tokenizeLoop tokenNumberFunc none false false [] str)) := by
  have hall : ∀ c ∈ symbolsPunctuation, [c] ∉ operators ∧ c ∉ symbolsQuote ∧ c ∉ symbolsSpace := by decide
  obtain ⟨hoperator, hquote, hspace⟩ := hall c hc
  rw [tokenizeLoop_char hoperator, classify, if_neg hquote, if_neg hspace, if_pos hc, yields_yields]

def Ends (str : List Char) : Prop := ∀ c ∈ str.head?, [c] ∈ operators ∨ c ∈ symbolsSpace ∨ c ∈ symbolsPunctuation

theorem tokenizeLoop_operator (hc : [c] ∈ operators) (sdata str : List Char) :
    tokenizeLoop tokenNumberFunc none false false sdata (c :: str) =
      yields (flush tokenNumberFunc sdata) (tokenizeLoop tokenNumberFunc none false false [] (c :: str)) := by
  rw [tokenizeLoop_cons, tokenizeLoop_cons, if_pos hc, if_pos hc]
  rfl

theorem Ends.flush (h : Ends str) (sdata : List Char) : tokenizeLoop tokenNumberFunc none false false sdata str =
    yields (flush tokenNumberFunc sdata) (tokenizeLoop tokenNumberFunc none false false [] str) := by
  cases str with
  | nil =>
    rw [tokenizeLoop_nil, tokenizeLoop_nil, finish, finish, yields]
    simp [flush]
  | cons c str =>
    obtain hc | hc | hc := h c rfl
    · exact tokenizeLoop_operator hc sdata str
    · rw [tokenizeLoop_space hc, tokenizeLoop_space hc []]
      rfl
    · rw [tokenizeLoop_punctuation hc, tokenizeLoop_punctuation hc []]
      rfl

/-! ### Strings -/

theorem tokenizeLoop_quote (hquote : quote ∈ symbolsQuote) (sdata str : List Char) :
    tokenizeLoop tokenNumberFunc none false false sdata (quote :: str) =
      tokenizeLoop tokenNumberFunc (some quote) false false sdata str := by
  have hall : ∀ c ∈ symbolsQuote, [c] ∉ operators := by decide
  rw [tokenizeLoop_char (hall quote hquote), classify, if_pos hquote]
  rfl

theorem tokenizeLoop_body (hquote : quote ∈ symbolsQuote) {body : List (Bool × Char)}
    (hbody : ∀ p ∈ body, p.1 = false → p.2 ≠ quote ∧ p.2 ≠ '\\') (sdata str : List Char) :
    tokenizeLoop tokenNumberFunc (some quote) false false sdata
        (body.flatMap (fun p => if p.1 then ['\\', p.2] else [p.2]) ++ quote :: str) =
      yields [.string (String.ofList (sdata ++ body.map Prod.snd))] (tokenizeLoop tokenNumberFunc none false false [] str) := by
  have hescape : '\\' ≠ quote := by
    rintro rfl
    revert hquote
    decide
  induction body generalizing sdata with
  | nil => rw [List.flatMap_nil, List.nil_append, tokenizeLoop_quoted, if_pos rfl, List.map_nil, List.append_nil]
  | cons p body ih =>
    have hrest := ih (fun q hq => hbody q (List.mem_cons_of_mem p hq)) (sdata ++ [p.2])
    rw [List.append_assoc] at hrest
    obtain ⟨escaped, c⟩ := p
    cases escaped with
    | true =>
      change tokenizeLoop tokenNumberFunc (some quote) false false sdata ('\\' :: c :: (_ ++ quote :: str)) = _
      rw [tokenizeLoop_quoted, if_neg hescape, if_pos rfl]
      exact hrest
    | false =>
      obtain ⟨hne, hplain⟩ := hbody _ List.mem_cons_self rfl
      change tokenizeLoop tokenNumberFunc (some quote) false false sdata (c :: (_ ++ quote :: str)) = _
      rw [tokenizeLoop_quoted, if_neg hne, if_neg hplain]
      exact hrest

/-! ### Comments -/

theorem tokenizeLoop_dashes (str : List Char) : tokenizeLoop tokenNumberFunc none false false [] ('-' :: '-' :: str) =
    tokenizeLoop tokenNumberFunc none true true [] str := rfl

theorem tokenizeLoop_mark (str : List Char) : tokenizeLoop tokenNumberFunc none false false [] ('/' :: '*' :: str) =
    tokenizeLoop tokenNumberFunc none true false [] str := rfl

theorem tokenizeLoop_line (htext : '\n' ∉ text) (sdata str : List Char) :
    tokenizeLoop tokenNumberFunc none true true sdata (text ++ str) =
      tokenizeLoop tokenNumberFunc none true true (sdata ++ text) str := by
  induction text generalizing sdata with
  | nil => rw [List.nil_append, List.append_nil]
  | cons c text ih =>
    have hc : c ≠ '\n' := fun hc => htext (hc ▸ List.mem_cons_self)
    have hrest := ih (fun hmem => htext (List.mem_cons_of_mem c hmem)) (sdata ++ [c])
    rw [List.append_assoc] at hrest
    rw [List.cons_append, tokenizeLoop]
    simpa [hc] using hrest

theorem tokenizeLoop_newline (sdata str : List Char) : tokenizeLoop tokenNumberFunc none true true sdata ('\n' :: str) =
    tokenizeLoop tokenNumberFunc none false false [] str := by
  rw [tokenizeLoop]
  rfl

theorem tokenizeLoop_block (htext : ¬ ['*', '/'] <:+: sdata ++ text ++ ['*']) (str : List Char) :
    tokenizeLoop tokenNumberFunc none true false sdata (text ++ '*' :: '/' :: str) =
      tokenizeLoop tokenNumberFunc none false false [] str := by
  induction text generalizing sdata with
  | nil =>
    have hfirst : ¬ ['*', '/'] <:+ sdata ++ ['*'] := fun hsuffix => htext (by
      rw [List.append_nil]
      exact hsuffix.isInfix)
    have hsecond : ['*', '/'] <:+ sdata ++ ['*'] ++ ['/'] := ⟨sdata, by rw [List.append_assoc]; rfl⟩
    rw [List.nil_append, tokenizeLoop, tokenizeLoop]
    simp only [Bool.false_and, Bool.not_false, Bool.true_and, Bool.false_eq_true, if_false, List.isSuffixOf_iff_suffix,
      if_neg hfirst, if_pos hsecond]
  | cons c text ih =>
    have hopen : ¬ ['*', '/'] <:+ sdata ++ [c] := fun hsuffix => htext (by
      rw [show sdata ++ c :: text ++ ['*'] = sdata ++ [c] ++ (text ++ ['*']) by simp]
      exact hsuffix.isInfix.trans (List.prefix_append _ _).isInfix)
    have hinner : ¬ ['*', '/'] <:+: sdata ++ [c] ++ text ++ ['*'] := by
      rwa [show sdata ++ [c] ++ text ++ ['*'] = sdata ++ c :: text ++ ['*'] by simp]
    have hrest := ih hinner
    rw [List.cons_append, tokenizeLoop]
    simp only [Bool.false_and, Bool.not_false, Bool.true_and, Bool.false_eq_true, if_false, List.isSuffixOf_iff_suffix,
      if_neg hopen]
    exact hrest

theorem Blank.Valid.skipped {b : Blank} (h : b.Valid) (str : List Char) :
    tokenizeLoop tokenNumberFunc none false false [] (b.text ++ str) =
      tokenizeLoop tokenNumberFunc none false false [] str := by
  cases b with
  | space c =>
    rw [Blank.text, List.singleton_append, tokenizeLoop_space h]
    rfl
  | line text =>
    rw [Blank.text, List.cons_append, List.cons_append, tokenizeLoop_dashes, List.append_assoc, tokenizeLoop_line h,
      List.singleton_append, tokenizeLoop_newline]
  | block text =>
    rw [Blank.text, List.cons_append, List.cons_append, tokenizeLoop_mark, List.append_assoc]
    exact tokenizeLoop_block (show ¬ ['*', '/'] <:+: [] ++ text ++ ['*'] from h) str

theorem tokenizeLoop_gap {gap : List Blank} (h : ∀ b ∈ gap, b.Valid) (str : List Char) :
    tokenizeLoop tokenNumberFunc none false false [] (gap.flatMap Blank.text ++ str) =
      tokenizeLoop tokenNumberFunc none false false [] str := by
  induction gap with
  | nil => rfl
  | cons b gap ih =>
    rw [List.flatMap_cons, List.append_assoc, (h b List.mem_cons_self).skipped,
      ih (fun b' hb' => h b' (List.mem_cons_of_mem b hb'))]

end RaleighSL.Client.Rql
