import RaleighSL.Client.Rql.Tokenizing

/-!
# What the tokenizer keeps

The tokenizer reads each item of a query as its token as long as a character that is no operator follows
every operator of one character, no quote follows an operator of letters, and the query does not end in a
comment. An operator that is not in its set is never read: two such operators are in the tables of the
parser.

Where the first item is that is not read whole, the tokens differ from those of the query. Only a minus
that a comment follows is lost without another trace, so that a number of them is lost at most.
-/
namespace RaleighSL.Client.Rql

variable {ν : Type} {tokenNumberFunc : List (List Char → Option ν)} {c d quote : Char} {sdata text str : List Char}

/-- An item is read as one when some text stands behind it. -/
def Item.Whole (str : List Char) : Item ν → Prop
  | .symbol text => text ∈ operators ∧ (text.length = 1 → ∃ c, str.head? = some c ∧ [c] ∉ operators)
  | .keyword _ => ∀ c ∈ str.head?, c ∉ symbolsQuote
  | _ => True

/-- Every item is read as one, and no comment is open at the end. -/
def Clean (last : Option (List Char)) : List (Item ν × List Blank) → Prop
  | [] => ∀ text ∈ last, text = []
  | p :: parts => p.1.Whole (p.2.flatMap Blank.text ++ written last parts) ∧ Clean last parts

/-! ### Texts -/

theorem operator_length (h : text ∈ operators) : text.length = 1 ∨ text.length = 2 := by
  have hall : ∀ l ∈ operators, l.length = 1 ∨ l.length = 2 := by decide
  exact hall text h

theorem head_operator (h : c :: text ∈ operators) : [c] ∈ operators := by
  have hall : ∀ l ∈ operators, l.take 1 ∈ operators := by decide
  exact hall _ h

theorem not_operator_of_digit (h : '0' ≤ c ∧ c ≤ '9') : [c] ∉ operators := by
  have hall : ∀ l ∈ operators, ∀ c ∈ l.head?, ¬ ('0' ≤ c ∧ c ≤ '9') := by decide
  exact fun hc => hall [c] hc c rfl h

/-- A pair of characters that the tokenizer knows ends in an operator. -/
theorem pair_of_second (h : [d] ∉ operators) (c : Char) : [c, d] ∉ operators ∧ [c, d] ∉ symbolsComment := by
  have hoperators : ∀ l ∈ operators, ∀ d ∈ l.getLast?, [d] ∈ operators := by decide
  have hcomments : ∀ l ∈ symbolsComment, ∀ d ∈ l.getLast?, [d] ∈ operators := by decide
  exact ⟨fun hmem => h (hoperators _ hmem d rfl), fun hmem => h (hcomments _ hmem d rfl)⟩

theorem sdataToToken_operator (hc : [c] ∈ operators) (sdata : List Char) :
    sdataToToken tokenNumberFunc (c :: sdata) = .identifier (String.ofList (c :: sdata.map Char.toUpper)) := by
  have hdigit : ¬ ('0' ≤ c && c ≤ '9') = true := by
    rw [Bool.and_eq_true_iff, decide_eq_true_iff, decide_eq_true_iff]
    exact fun h => not_operator_of_digit h hc
  have hupper : ∀ l ∈ operators, l.map Char.toUpper = l := by decide
  have hc' := hupper [c] hc
  rw [List.map_singleton, List.cons.injEq] at hc'
  have hall : ∀ l ∈ keywordsOperator, ∀ c ∈ l.head?, [c] ∉ operators := by decide
  rw [sdataToToken, List.head?_cons, Option.any_some, if_neg hdigit, wordToken, List.map_cons, hc'.1,
    if_neg (fun hmem => hall _ hmem c rfl hc)]

theorem sdataToToken_ne {op : List Char} (hop : op ∈ operators) (sdata : List Char) :
    sdataToToken tokenNumberFunc sdata ≠ .operator (String.ofList op) := by
  have hword : wordToken sdata ≠ (.operator (String.ofList op) : Token ν) := by
    rw [wordToken]
    split_ifs with hkeyword
    · intro heq
      rw [Token.operator.injEq, String.ofList_inj] at heq
      have hall : ∀ l ∈ operators, l ∉ keywordsOperator := by decide
      exact hall op hop (heq ▸ hkeyword)
    · intro heq
      cases heq
  rw [sdataToToken]
  split_ifs
  · split
    · intro heq
      cases heq
    · exact hword
  · exact hword

theorem toUpper_digit (h : '0' ≤ c ∧ c ≤ '9') : c.toUpper = c := by
  have hle : c.val ≤ '9'.val := h.2
  exact Library.toUpper_of_not_lower (fun hlower => absurd (UInt32.le_trans hlower.1 hle) (by decide))

theorem Item.Valid.sdataToToken {text : List Char} (h : (Item.identifier text : Item ν).Valid tokenNumberFunc) :
    sdataToToken tokenNumberFunc text = (Item.identifier text : Item ν).token := by
  obtain ⟨-, -, hkeyword, hnumber⟩ := h
  have hword : wordToken text = (Item.identifier text : Item ν).token := by
    rw [wordToken, if_neg hkeyword]
    rfl
  rw [RaleighSL.Client.Rql.sdataToToken]
  split_ifs with hdigit
  · rw [hnumber hdigit]
    exact hword
  · exact hword

theorem tokenizeLoop_item {i : Item ν} (hi : i.Valid tokenNumberFunc) (hword : i.isWord) (hends : Ends str) :
    tokenizeLoop tokenNumberFunc none false false [] (i.text ++ str) =
      yields [i.token] (tokenizeLoop tokenNumberFunc none false false [] str) := by
  have hread : ∀ text : List Char, (∀ c ∈ text, IsWordChar c) → text ≠ [] →
      sdataToToken tokenNumberFunc text = i.token →
      tokenizeLoop tokenNumberFunc none false false [] (text ++ str) =
        yields [i.token] (tokenizeLoop tokenNumberFunc none false false [] str) := by
    intro text hchars hsome htoken
    rw [tokenizeLoop_word hchars, List.nil_append, hends.flush, flush, if_neg hsome, htoken]
  cases i with
  | number text value =>
    obtain ⟨hchars, hdigit, hvalue⟩ := hi
    refine hread text hchars (fun hnil => ?_) ?_
    · rw [hnil] at hdigit
      cases hdigit
    · rw [sdataToToken, if_pos hdigit, hvalue]
      rfl
  | identifier text => exact hread text hi.1 hi.2.1 hi.sdataToToken
  | keyword text =>
    have hall : ∀ l ∈ keywordsOperator, l ≠ [] ∧ ∀ c ∈ l.head?, ¬ ('0' ≤ c ∧ c ≤ '9') := by decide
    obtain ⟨hsome, hdigit⟩ := hall _ hi.1
    refine hread text (isWordChar_keyword hi.1) (fun hnil => hsome (by rw [hnil]; rfl)) ?_
    cases text with
    | nil => exact absurd rfl hsome
    | cons c text =>
      have hc : ¬ ('0' ≤ c ∧ c ≤ '9') := fun h => hdigit c.toUpper rfl (by rwa [toUpper_digit h])
      rw [sdataToToken, List.head?_cons, Option.any_some, if_neg (by simpa using hc), wordToken, if_pos hi.1]
      rfl
  | _ => cases hword

/-! ### What stands behind an item -/

def Known (parts : List (Item ν × List Blank)) : Prop := ∀ p ∈ parts, ∀ text, p.1 = .symbol text → text ∈ operators

theorem Known.tail {p : Item ν × List Blank} {parts : List (Item ν × List Blank)} (h : Known (p :: parts)) :
    Known parts := fun q hq => h q (List.mem_cons_of_mem p hq)

theorem Spaced.tail {p : Item ν × List Blank} {parts : List (Item ν × List Blank)} (h : Spaced (p :: parts)) :
    Spaced parts := by
  cases parts with
  | nil => trivial
  | cons q parts => exact h.2

theorem exists_cons_of_operator (h : text ∈ operators) : ∃ c rest, text = c :: rest ∧ [c] ∈ operators := by
  cases text with
  | nil => exact absurd h (by decide)
  | cons c rest => exact ⟨c, rest, rfl, head_operator h⟩

theorem ends_cons (h : [c] ∈ operators ∨ c ∈ symbolsSpace ∨ c ∈ symbolsPunctuation) (str : List Char) : Ends (c :: str) := by
  intro d hd
  cases hd
  exact h

theorem Blank.Valid.ends {b : Blank} (h : b.Valid) (str : List Char) : Ends (b.text ++ str) := by
  cases b with
  | space c => exact ends_cons (.inr (.inl h)) str
  | line text => exact ends_cons (.inl (by decide)) _
  | block text => exact ends_cons (.inl (by decide)) _

theorem ends_last (last : Option (List Char)) : Ends (written last ([] : List (Item ν × List Blank))) := by
  cases last with
  | none => exact fun c hc => by cases hc
  | some text => exact ends_cons (.inl (by decide)) _

theorem ends_behind {last : Option (List Char)} {p : Item ν × List Blank} {parts : List (Item ν × List Blank)}
    (hvalid : ∀ q ∈ parts, q.1.Valid tokenNumberFunc) (hblank : ∀ b ∈ p.2, b.Valid) (hspaced : Spaced (p :: parts))
    (hknown : Known parts) (hword : p.1.isWord) (hwhole : p.1.Whole (p.2.flatMap Blank.text ++ written last parts)) :
    Ends (p.2.flatMap Blank.text ++ written last parts) := by
  obtain ⟨i, gap⟩ := p
  cases gap with
  | cons b gap =>
    rw [List.flatMap_cons, List.append_assoc]
    exact (hblank b List.mem_cons_self).ends _
  | nil =>
    cases parts with
    | nil => exact ends_last (ν := ν) last
    | cons q parts =>
      have htouch := hspaced.1 rfl
      have hq : q.1.isWord = false := by
        rw [← Bool.not_eq_true]
        exact fun h => htouch.word ⟨hword, h⟩
      have hqvalid := hvalid q List.mem_cons_self
      obtain ⟨j, gap⟩ := q
      cases j with
      | punctuation c => exact ends_cons (.inr (.inr hqvalid)) _
      | symbol text =>
        obtain ⟨c, rest, htext, hc⟩ := exists_cons_of_operator (hknown _ List.mem_cons_self text rfl)
        rw [written, Item.text, htext]
        exact ends_cons (.inl hc) _
      | string quote body =>
        cases i with
        | keyword text => exact absurd hqvalid.1 (hwhole quote rfl)
        | number => exact absurd htouch.operator (by simp [Item.isOperator])
        | identifier => exact absurd htouch.operator (by simp [Item.isOperator])
        | _ => cases hword
      | _ => cases hq

/-- An item that is read as one gives its token. -/
theorem tokenizeLoop_whole {last : Option (List Char)} {p : Item ν × List Blank} {parts : List (Item ν × List Blank)}
    (hvalid : ∀ q ∈ p :: parts, q.1.Valid tokenNumberFunc) (hblank : ∀ q ∈ p :: parts, ∀ b ∈ q.2, b.Valid)
    (hspaced : Spaced (p :: parts)) (hknown : Known parts)
    (hwhole : p.1.Whole (p.2.flatMap Blank.text ++ written last parts)) :
    tokenizeLoop tokenNumberFunc none false false [] (written last (p :: parts)) =
      yields [p.1.token] (tokenizeLoop tokenNumberFunc none false false [] (written last parts)) := by
  have hp := hvalid p List.mem_cons_self
  have hgap := hblank p List.mem_cons_self
  rw [written, ← tokenizeLoop_gap hgap (written last parts)]
  by_cases hword : p.1.isWord
  · exact tokenizeLoop_item hp hword
      (ends_behind (fun q hq => hvalid q (List.mem_cons_of_mem p hq)) hgap hspaced hknown hword hwhole)
  · generalize p.2.flatMap Blank.text ++ written last parts = str at *
    obtain ⟨i, gap⟩ := p
    cases i with
    | string quote body =>
      simp only [Item.text, Item.token]
      rw [List.cons_append, tokenizeLoop_quote hp.1, List.append_assoc, List.singleton_append, tokenizeLoop_body hp.1 hp.2,
        List.nil_append]
    | punctuation c => exact tokenizeLoop_punctuation hp [] str
    | symbol text =>
      obtain ⟨htext, hnext⟩ := hwhole
      simp only [Item.text, Item.token]
      obtain hlength | hlength := operator_length htext
      · obtain ⟨c, rfl⟩ := List.length_eq_one_iff.mp hlength
        obtain ⟨d, hd, hplain⟩ := hnext hlength
        cases str with
        | nil => cases hd
        | cons e str =>
          cases hd
          obtain ⟨hpair, hcomment⟩ := pair_of_second hplain c
          rw [List.singleton_append, tokenizeLoop_cons, if_pos htext, lookAhead, if_neg hpair, if_neg hcomment,
            tokenizeLoop_char hplain, yields_yields]
          rfl
      · obtain ⟨c, d, rfl⟩ := List.length_eq_two.mp hlength
        rw [List.cons_append, List.singleton_append, tokenizeLoop_cons, if_pos (head_operator htext), lookAhead,
          if_pos htext]
        rfl
    | _ => exact absurd rfl hword

theorem Clean.known {last : Option (List Char)} {parts : List (Item ν × List Blank)} (h : Clean last parts) :
    Known parts := by
  induction parts with
  | nil => exact fun p hp => absurd hp List.not_mem_nil
  | cons p parts ih =>
    intro q hq text htext
    obtain rfl | hq := List.mem_cons.mp hq
    · have hwhole := h.1
      rw [htext] at hwhole
      exact hwhole.1
    · exact ih h.2 q hq text htext

theorem Clean.tokens {last : Option (List Char)} {parts : List (Item ν × List Blank)}
    (hvalid : ∀ q ∈ parts, q.1.Valid tokenNumberFunc) (hblank : ∀ q ∈ parts, ∀ b ∈ q.2, b.Valid)
    (hspaced : Spaced parts) (h : Clean last parts) :
    tokenizeLoop tokenNumberFunc none false false [] (written last parts) = (parts.map (fun p => p.1.token), false) := by
  induction parts with
  | nil =>
    cases last with
    | none => rfl
    | some text =>
      obtain rfl := h text rfl
      rfl
  | cons p parts ih =>
    rw [tokenizeLoop_whole hvalid hblank hspaced h.2.known h.1, ih (fun q hq => hvalid q (List.mem_cons_of_mem p hq))
      (fun q hq => hblank q (List.mem_cons_of_mem p hq)) hspaced.tail h.2]
    rfl

/-! ### Operators that are read -/

def Sound (ts : List (Token ν)) : Prop :=
  ∀ op : List Char, .operator (String.ofList op) ∈ ts → op ∈ operators ∨ op ∈ keywordsOperator

theorem Sound.append {ts us : List (Token ν)} (hts : Sound ts) (hus : Sound us) : Sound (ts ++ us) :=
  fun op hop => (List.mem_append.mp hop).elim (hts op) (hus op)

theorem sound_nil : Sound ([] : List (Token ν)) := fun _ hop => absurd hop List.not_mem_nil

theorem sound_operator (h : text ∈ operators) : Sound [(.operator (String.ofList text) : Token ν)] := by
  intro op hop
  rw [List.mem_singleton, Token.operator.injEq, String.ofList_inj] at hop
  exact .inl (hop ▸ h)

theorem sound_flush (sdata : List Char) : Sound (flush tokenNumberFunc sdata) := by
  have hword : ∀ op, wordToken sdata = (.operator (String.ofList op) : Token ν) → op ∈ keywordsOperator := by
    intro op hop
    rw [wordToken] at hop
    split_ifs at hop with hkeyword
    rw [Token.operator.injEq, String.ofList_inj] at hop
    exact hop ▸ hkeyword
  intro op hop
  rw [flush] at hop
  split_ifs at hop
  · cases hop
  · rw [List.mem_singleton, sdataToToken] at hop
    split_ifs at hop
    · split at hop
      · cases hop
      · exact .inr (hword op hop.symm)
    · exact .inr (hword op hop.symm)

theorem sound_classify (c : Char) (sdata : List Char) : Sound (classify tokenNumberFunc c sdata).1 := by
  rw [classify]
  split_ifs
  · exact sound_nil
  · exact sound_flush sdata
  · exact (sound_flush sdata).append (fun op hop => by cases List.mem_singleton.mp hop)
  · exact sound_nil

theorem sound_finish (quoted : Option Char) (sdata : List Char) : Sound (finish tokenNumberFunc quoted sdata).1 := by
  rw [finish]
  split_ifs
  · exact sound_nil
  · exact sound_flush sdata

theorem sound_tokenizeLoop (quoted : Option Char) (comment lineComment : Bool) (sdata str : List Char) :
    Sound (tokenizeLoop tokenNumberFunc quoted comment lineComment sdata str).1 := by
  fun_induction tokenizeLoop tokenNumberFunc quoted comment lineComment sdata str with
  | case1 => exact sound_finish _ _
  | case2 comment lineComment sdata c query ih =>
    exact Sound.append (fun op hop => by cases List.mem_singleton.mp hop) ih
  | case3 => exact sound_nil
  | case4 quote comment lineComment sdata c query hc ih => exact ih
  | case5 quote comment lineComment sdata c query hc hd ih => exact ih
  | case6 lineComment sdata c query hc ih => exact ih
  | case7 lineComment sdata c query hc hd ih => exact ih
  | case8 lineComment sdata c query hc hd ih => exact ih
  | case9 lineComment sdata c query hc ih =>
    refine (sound_flush sdata).append ?_
    cases query with
    | nil => exact sound_finish _ _
    | cons nc query =>
      obtain ⟨hplain, hcomment, hclassified⟩ := ih
      dsimp only
      split_ifs with hpair
      · exact (sound_operator hpair).append hplain
      · exact hcomment
      · exact ((sound_operator hc).append (sound_classify nc [])).append hclassified
  | case10 lineComment sdata c query hc r ih => exact (sound_classify c sdata).append ih

/-! ### Tokens that are not read whole -/

variable (tokenNumberFunc) in
theorem tokenizeLoop_open (quote : Char) (sdata str : List Char) :
    (tokenizeLoop tokenNumberFunc (some quote) false false sdata str).2 = true ∨
      ∃ v ts, (tokenizeLoop tokenNumberFunc (some quote) false false sdata str).1 = .string v :: ts := by
  induction hn : str.length using Nat.strong_induction_on generalizing sdata str with
  | _ n ih =>
    cases str with
    | nil => exact .inl (by rw [tokenizeLoop_nil]; rfl)
    | cons c str =>
      rw [tokenizeLoop_quoted]
      rw [List.length_cons] at hn
      split_ifs with hquote hescape
      · exact .inr ⟨_, _, rfl⟩
      · cases str with
        | nil => exact .inl rfl
        | cons d str => exact ih str.length (by rw [List.length_cons] at hn; omega) _ _ rfl
      · exact ih str.length (by omega) _ _ rfl

/-- What a character of an operator becomes when it is read as part of a text. -/
def Misread (t : Token ν) : Prop :=
  (∃ v, t = .string v) ∨ ∃ c text, t = .identifier (String.ofList (c :: text)) ∧ [c] ∈ operators

variable (tokenNumberFunc) in
theorem tokenizeLoop_misread (hc : [c] ∈ operators) (sdata str : List Char) :
    (tokenizeLoop tokenNumberFunc none false false (c :: sdata) str).2 = true ∨
      ∃ t ts, (tokenizeLoop tokenNumberFunc none false false (c :: sdata) str).1 = t :: ts ∧ Misread t := by
  have hflush : ∀ sdata, flush tokenNumberFunc (c :: sdata) =
      [.identifier (String.ofList (c :: sdata.map Char.toUpper))] := fun sdata => by
    rw [flush, if_neg (List.cons_ne_nil _ _), sdataToToken_operator hc]
  induction str generalizing sdata with
  | nil =>
    rw [tokenizeLoop_nil, finish]
    exact .inr ⟨_, [], hflush sdata, .inr ⟨c, _, rfl, hc⟩⟩
  | cons d str ih =>
    by_cases hd : [d] ∈ operators
    · rw [tokenizeLoop_operator hd, hflush]
      exact .inr ⟨_, _, rfl, .inr ⟨c, _, rfl, hc⟩⟩
    · by_cases hquote : d ∈ symbolsQuote
      · rw [tokenizeLoop_quote hquote]
        obtain hraise | ⟨v, ts, hstring⟩ := tokenizeLoop_open tokenNumberFunc d (c :: sdata) str
        · exact .inl hraise
        · exact .inr ⟨_, ts, hstring, .inl ⟨v, rfl⟩⟩
      · by_cases hspace : d ∈ symbolsSpace
        · rw [tokenizeLoop_space hspace, hflush]
          exact .inr ⟨_, _, rfl, .inr ⟨c, _, rfl, hc⟩⟩
        · by_cases hpunctuation : d ∈ symbolsPunctuation
          · rw [tokenizeLoop_punctuation hpunctuation, hflush]
            exact .inr ⟨_, _, rfl, .inr ⟨c, _, rfl, hc⟩⟩
          · rw [tokenizeLoop_wordChar ⟨hd, hquote, hspace, hpunctuation⟩]
            exact ih (sdata ++ [d])

/-- A letter is no operator in upper case either. -/
theorem not_operator_toUpper (h : [c] ∉ operators) : [c.toUpper] ∉ operators := by
  have hall : ∀ l ∈ operators, ∀ d ∈ l, ¬ ('A' ≤ d ∧ d ≤ 'Z') := by decide
  by_cases hlower : 'a'.val ≤ c.val ∧ c.val ≤ 'z'.val
  · intro hmem
    refine hall _ hmem _ (List.mem_singleton_self _) ?_
    have hval := Library.toUpper_val hlower
    simp only [Char.le_def, hval, UInt32.le_iff_toNat_le, UInt32.toNat_add] at hlower ⊢
    grind
  · rwa [Library.toUpper_of_not_lower hlower]

/-- No name is read like a misread operator. -/
theorem Item.Valid.not_misread {i : Item ν} (h : i.Valid tokenNumberFunc) (hc : [c] ∈ operators) (text : List Char) :
    i.token ≠ .identifier (String.ofList (c :: text)) := by
  cases i with
  | identifier word =>
    intro heq
    rw [Item.token, Token.identifier.injEq, String.ofList_inj] at heq
    cases word with
    | nil => cases heq
    | cons d word =>
      rw [List.map_cons, List.cons.injEq] at heq
      exact not_operator_toUpper (h.1 d List.mem_cons_self).operator (heq.1 ▸ hc)
  | _ => exact fun heq => by cases heq

/-! ### The first flaw -/

def dash : Token ν := .operator (String.ofList ['-'])

theorem head_of_replicate {j : Nat} {op : String} {t : Token ν} {ts rest : List (Token ν)}
    (h : List.replicate j dash ++ .operator op :: rest = t :: ts) : t = dash ∨ t = .operator op := by
  cases j with
  | zero => exact .inr (List.cons.inj h).1.symm
  | succ j => exact .inl (List.cons.inj h).1.symm

theorem replicate_dash (j : Nat) (ts : List (Token ν)) :
    List.replicate j dash ++ dash :: ts = List.replicate (j + 1) dash ++ ts := by
  rw [List.replicate_succ', List.append_assoc]
  rfl

theorem Misread.ne_operator {t : Token ν} (h : Misread t) (op : String) : t ≠ .operator op := by
  obtain ⟨v, rfl⟩ | ⟨c, text, rfl, -⟩ := h <;> exact fun heq => by cases heq

/-- An item that begins with an operator is one. -/
theorem Item.Valid.text_cons {i : Item ν} (h : i.Valid tokenNumberFunc)
    (hknown : ∀ text, i = .symbol text → text ∈ operators) :
    ∃ c rest, i.text = c :: rest ∧ ([c] ∈ operators → i = .symbol i.text) := by
  have hword : ∀ text : List Char, (∀ c ∈ text, IsWordChar c) → text ≠ [] →
      ∃ c rest, text = c :: rest ∧ [c] ∉ operators := by
    intro text hchars hsome
    cases text with
    | nil => exact absurd rfl hsome
    | cons c rest => exact ⟨c, rest, rfl, (hchars c List.mem_cons_self).operator⟩
  cases i with
  | number text value =>
    obtain ⟨c, rest, htext, hc⟩ := hword text h.1 (fun hnil => by rw [hnil] at h; cases h.2.1)
    exact ⟨c, rest, htext, fun hmem => absurd hmem hc⟩
  | identifier text =>
    obtain ⟨c, rest, htext, hc⟩ := hword text h.1 h.2.1
    exact ⟨c, rest, htext, fun hmem => absurd hmem hc⟩
  | keyword text =>
    have hsome : text ≠ [] := fun hnil => by
      have hkeyword := h.1
      rw [hnil] at hkeyword
      revert hkeyword
      decide
    obtain ⟨c, rest, htext, hc⟩ := hword text (isWordChar_keyword h.1) hsome
    exact ⟨c, rest, htext, fun hmem => absurd hmem hc⟩
  | string quote body =>
    have hall : ∀ c ∈ symbolsQuote, [c] ∉ operators := by decide
    exact ⟨quote, _, rfl, fun hmem => absurd hmem (hall quote h.1)⟩
  | punctuation c =>
    have hall : ∀ c ∈ symbolsPunctuation, [c] ∉ operators := by decide
    exact ⟨c, [], rfl, fun hmem => absurd hmem (hall c h)⟩
  | symbol text =>
    obtain ⟨c, rest, htext, -⟩ := exists_cons_of_operator (hknown text rfl)
    exact ⟨c, rest, htext, fun _ => rfl⟩

theorem classify_operator (hc : [c] ∈ operators) : classify tokenNumberFunc c [] = ([], none, [c]) := by
  have hquote : ∀ d ∈ symbolsQuote, [d] ∉ operators := by decide
  have hspace : ∀ d ∈ symbolsSpace, [d] ∉ operators := by decide
  have hpunctuation : ∀ d ∈ symbolsPunctuation, [d] ∉ operators := by decide
  rw [classify, if_neg (fun h => hquote c h hc), if_neg (fun h => hspace c h hc), if_neg (fun h => hpunctuation c h hc)]
  rfl

/-- What begins with an operator behind an item: another operator, a comment, or the comment at the end. -/
inductive Behind (last : Option (List Char)) (p : Item ν × List Blank) (parts : List (Item ν × List Blank)) (c : Char)
    (str : List Char) : Prop where
  | symbol (text : List Char) (gap : List Blank) (rest : List (Item ν × List Blank)) (hgap : p.2 = [])
      (hparts : parts = (.symbol text, gap) :: rest) (htext : text.head? = some c)
  | line (text : List Char) (gap : List Blank) (hgap : p.2 = .line text :: gap) (hc : c = '-')
      (hstr : str = '-' :: (text ++ '\n' :: (gap.flatMap Blank.text ++ written last parts)))
  | block (hc : c = '/') (rest : List Char) (hstr : str = '*' :: rest)
  | last (hparts : parts = []) (text : List Char) (hlast : last = some text) (hc : c = '-') (hstr : str = '-' :: text)

theorem exists_behind {last : Option (List Char)} {p : Item ν × List Blank} {parts : List (Item ν × List Blank)}
    (hvalid : ∀ q ∈ parts, q.1.Valid tokenNumberFunc) (hblank : ∀ b ∈ p.2, b.Valid) (hknown : Known parts)
    (hc : [c] ∈ operators) (hstr : p.2.flatMap Blank.text ++ written last parts = c :: str) :
    Behind last p parts c str := by
  obtain ⟨i, gap⟩ := p
  cases gap with
  | cons b gap =>
    have hb := hblank b List.mem_cons_self
    cases b with
    | space d =>
      obtain ⟨rfl, -⟩ := List.cons.inj hstr
      exact absurd hc (not_quote_of_space hb).1
    | line text =>
      obtain ⟨rfl, rfl⟩ := List.cons.inj hstr
      exact .line text gap rfl rfl (by simp [List.flatMap])
    | block text =>
      obtain ⟨rfl, rfl⟩ := List.cons.inj hstr
      exact .block rfl _ rfl
  | nil =>
    cases parts with
    | nil =>
      cases last with
      | none => cases hstr
      | some text =>
        obtain ⟨rfl, rfl⟩ := List.cons.inj hstr
        exact .last rfl text rfl rfl rfl
    | cons q parts =>
      obtain ⟨d, rest, htext, hsymbol⟩ := (hvalid q List.mem_cons_self).text_cons (hknown q List.mem_cons_self)
      obtain ⟨j, gap⟩ := q
      rw [List.flatMap_nil, List.nil_append, written] at hstr
      dsimp only at htext hsymbol hstr
      rw [htext] at hstr
      obtain ⟨rfl, -⟩ := List.cons.inj hstr
      have hj := hsymbol hc
      exact .symbol j.text gap parts rfl (by rw [← hj]) (by rw [htext]; rfl)

/-- A misread character is none of the tokens that follow. -/
theorem Behind.not_misread {last : Option (List Char)} {p : Item ν × List Blank} {parts : List (Item ν × List Blank)}
    {t : Token ν} {ts : List (Token ν)} (hcase : Behind last p parts d str)
    (hvalid : ∀ q ∈ parts, q.1.Valid tokenNumberFunc) (hd : [d] ∈ operators)
    (ht : (tokenizeLoop tokenNumberFunc none false false [d] str).1 = t :: ts) (hmisread : Misread t) :
    t :: ts ≠ parts.map (fun q => q.1.token) := by
  intro hrest
  have hcomment : ∀ e s, [e] ∈ operators → str ≠ e :: s := fun e s he hs => by
    rw [hs, tokenizeLoop_operator he, flush, if_neg (List.cons_ne_nil _ _), sdataToToken_operator hd] at ht
    obtain ⟨heq, -⟩ := List.cons.inj ht
    cases parts with
    | nil => cases hrest
    | cons q parts =>
      obtain ⟨hq, -⟩ := List.cons.inj hrest
      exact (hvalid q List.mem_cons_self).not_misread hd [] (hq.symm.trans heq.symm)
  cases hcase with
  | symbol text gap rest hnil hparts hhead =>
    subst hparts
    exact hmisread.ne_operator _ (List.cons.inj hrest).1
  | line text gap hline hc hstr => exact hcomment '-' _ (by decide) hstr
  | block hc rest hstr => exact hcomment '*' _ (by decide) hstr
  | last hparts text hlast hc hstr =>
    subst hparts
    cases hrest

section

variable {last : Option (List Char)} {p : Item ν × List Blank} {parts : List (Item ν × List Blank)} {j : Nat}
  (hvalid : ∀ q ∈ p :: parts, q.1.Valid tokenNumberFunc) (hblank : ∀ q ∈ p :: parts, ∀ b ∈ q.2, b.Valid)
  (hspaced : Spaced (p :: parts)) (hknown : Known (p :: parts)) (hlast : ∀ text ∈ last, '\n' ∉ text)

include hvalid in
/-- An operator of letters that touches a quote becomes a part of the string. -/
theorem whole_of_keyword (hread : tokenizeLoop tokenNumberFunc none false false [] (written last (p :: parts)) =
      (List.replicate j dash ++ p.1.token :: parts.map (fun q => q.1.token), false)) (hp : p.1 = .keyword text) :
    p.1.Whole (p.2.flatMap Blank.text ++ written last parts) := by
  obtain ⟨i, gap⟩ := p
  obtain rfl : i = .keyword text := hp
  have htext := isWordChar_keyword (hvalid _ List.mem_cons_self).1
  intro c hc hquote
  rw [written] at hread
  dsimp only at hread hc
  generalize gap.flatMap Blank.text ++ written last parts = str at *
  cases str with
  | nil => cases hc
  | cons d str =>
    cases hc
    rw [Item.text, tokenizeLoop_word htext, tokenizeLoop_quote hquote] at hread
    obtain hraise | ⟨v, ts, hstring⟩ := tokenizeLoop_open tokenNumberFunc c ([] ++ text) str
    · rw [hread] at hraise
      cases hraise
    · rw [hread] at hstring
      obtain heq | heq := head_of_replicate hstring <;> cases heq

variable (ih : ∀ k, tokenizeLoop tokenNumberFunc none false false [] (written last parts) ≠
    (List.replicate (k + 1) dash ++ parts.map (fun q => q.1.token), false))

include hblank hspaced hknown hlast ih in
/-- Where an operator and what follows begin a comment, the tokens are others. -/
theorem tokenizeLoop_opener (hp : p.1 = .symbol [c]) (hd : [d] ∈ operators) (hcomment : [c, d] ∈ symbolsComment)
    (hcase : Behind last p parts d str) : tokenizeLoop tokenNumberFunc none true ([c, d] = ['-', '-']) [] str ≠
      (List.replicate j dash ++ .operator (String.ofList [c]) :: parts.map (fun q => q.1.token), false) := by
  intro hread
  have hdash : d = '-' → c = '-' := fun hd => by simpa [hd, symbolsComment] using hcomment
  cases hcase with
  | symbol text gap rest hnil hparts hhead =>
    obtain ⟨i, gap'⟩ := p
    obtain rfl : i = .symbol [c] := hp
    subst hparts
    have htouch := (hspaced.1 (List.isEmpty_iff.mpr hnil)).comment
    have hother := hknown.tail _ List.mem_cons_self text rfl
    have hall : ∀ l ∈ operators, l.length = 2 → ∀ k ∈ symbolsComment, k.getLast? ≠ l.head? := by decide
    obtain hone | htwo := operator_length hother
    · obtain ⟨e, rfl⟩ := List.length_eq_one_iff.mp hone
      cases hhead
      exact htouch hcomment
    · exact hall text hother htwo _ hcomment hhead.symm
  | line text gap hgap hc hstr =>
    obtain rfl := hdash hc
    subst hc hstr
    have hb := hblank p List.mem_cons_self
    rw [hgap] at hb
    have hline : '\n' ∉ '-' :: text := fun hmem => (List.mem_cons.mp hmem).elim (by decide) (hb _ List.mem_cons_self)
    change tokenizeLoop tokenNumberFunc none true true [] ('-' :: text ++ _) = _ at hread
    rw [tokenizeLoop_line hline, tokenizeLoop_newline, tokenizeLoop_gap (fun b h => hb b (List.mem_cons_of_mem _ h))] at hread
    exact ih j (hread.trans (by rw [← replicate_dash]; rfl))
  | block hc rest hstr =>
    subst hc
    have hall : ∀ k ∈ symbolsComment, k.getLast? ≠ some '/' := by decide
    exact hall _ hcomment rfl
  | last hparts text hsome hc hstr =>
    obtain rfl := hdash hc
    subst hc hstr hparts
    have hline : '\n' ∉ '-' :: text := fun hmem => (List.mem_cons.mp hmem).elim (by decide) (hlast text hsome)
    change tokenizeLoop tokenNumberFunc none true true [] ('-' :: text) = _ at hread
    rw [← List.append_nil ('-' :: text), tokenizeLoop_line hline, tokenizeLoop_nil, List.nil_append, finish,
      if_neg (by decide), flush, if_neg (List.cons_ne_nil _ _), sdataToToken_operator hd] at hread
    obtain heq | heq := head_of_replicate (congrArg Prod.fst hread).symm <;> cases heq

include hvalid hblank hspaced hknown hlast ih in
/-- An operator of one character that another one follows is not read as its token. -/
theorem whole_of_symbol (hread : tokenizeLoop tokenNumberFunc none false false [] (written last (p :: parts)) =
      (List.replicate j dash ++ p.1.token :: parts.map (fun q => q.1.token), false)) (hp : p.1 = .symbol text) :
    p.1.Whole (p.2.flatMap Blank.text ++ written last parts) := by
  have htail : ∀ q ∈ parts, q.1.Valid tokenNumberFunc := fun q hq => hvalid q (List.mem_cons_of_mem p hq)
  have htext := hknown _ List.mem_cons_self text hp
  rw [written] at hread
  simp only [hp, Item.text, Item.token] at hread ⊢
  refine ⟨htext, fun hlength => ?_⟩
  obtain ⟨c, rfl⟩ := List.length_eq_one_iff.mp hlength
  by_contra hnone
  cases hstr : p.2.flatMap Blank.text ++ written last parts with
  | nil =>
    rw [hstr, List.append_nil, tokenizeLoop_cons, if_pos htext] at hread
    exact absurd (congrArg Prod.fst hread).symm (by simp [lookAhead, finish, flush, yields])
  | cons d str =>
    rw [hstr] at hnone hread
    have hd : [d] ∈ operators := by
      by_contra hd
      exact hnone ⟨d, rfl, hd⟩
    have hcase := exists_behind htail (hblank p List.mem_cons_self) hknown.tail hd hstr
    rw [List.singleton_append, tokenizeLoop_cons, if_pos htext, lookAhead] at hread
    by_cases hpair : [c, d] ∈ operators
    · rw [if_pos hpair] at hread
      have hhead := head_of_replicate (congrArg Prod.fst hread).symm
      simp only [dash, Token.operator.injEq, String.ofList_inj] at hhead
      obtain heq | heq := hhead <;> cases heq
    · rw [if_neg hpair] at hread
      by_cases hcomment : [c, d] ∈ symbolsComment
      · rw [if_pos hcomment] at hread
        exact tokenizeLoop_opener hblank hspaced hknown hlast ih hp hd hcomment hcase hread
      · rw [if_neg hcomment, classify_operator hd] at hread
        change yields [.operator (String.ofList [c])] (tokenizeLoop tokenNumberFunc none false false [d] str) = _ at hread
        obtain hraise | ⟨t, ts, ht, hmisread⟩ := tokenizeLoop_misread tokenNumberFunc hd [] str
        · exact absurd ((congrArg Prod.snd hread).symm.trans hraise) Bool.false_ne_true
        · have hfirst : .operator (String.ofList [c]) :: t :: ts = _ :=
            (congrArg (_ :: ·) ht.symm).trans (congrArg Prod.fst hread)
          cases j with
          | succ j =>
            obtain ⟨-, hrest⟩ := List.cons.inj hfirst
            obtain heq | heq := head_of_replicate hrest.symm
            · exact hmisread.ne_operator _ heq
            · exact hmisread.ne_operator _ heq
          | zero => exact hcase.not_misread htail hd ht hmisread (List.cons.inj hfirst).2

end

/-- Where the tokens are those of a query, up to some lost ones at the front, nothing is lost and each item is read
as one. -/
theorem clean_of_tokens {last : Option (List Char)} {parts : List (Item ν × List Blank)}
    (hvalid : ∀ q ∈ parts, q.1.Valid tokenNumberFunc) (hblank : ∀ q ∈ parts, ∀ b ∈ q.2, b.Valid)
    (hspaced : Spaced parts) (hknown : Known parts) (hlast : ∀ text ∈ last, '\n' ∉ text) (j : Nat)
    (hread : tokenizeLoop tokenNumberFunc none false false [] (written last parts) =
      (List.replicate j dash ++ parts.map (fun q => q.1.token), false)) :
    j = 0 ∧ Clean last parts := by
  induction parts generalizing j with
  | nil =>
    rw [List.map_nil, List.append_nil] at hread
    cases last with
    | none =>
      have hlength := congrArg (fun r => r.1.length) hread
      simp only [List.length_replicate] at hlength
      exact ⟨hlength.symm, fun text htext => by cases htext⟩
    | some text =>
      change tokenizeLoop tokenNumberFunc none true true [] text = _ at hread
      rw [← List.append_nil text, tokenizeLoop_line (hlast text rfl), tokenizeLoop_nil, List.nil_append, finish,
        if_neg (by decide), flush] at hread
      by_cases hempty : text = []
      · rw [if_pos hempty] at hread
        have hlength := congrArg (fun r => r.1.length) hread
        simp only [List.length_replicate] at hlength
        refine ⟨hlength.symm, fun text' htext' => ?_⟩
        cases htext'
        exact hempty
      · rw [if_neg hempty] at hread
        have htokens := congrArg Prod.fst hread
        cases j with
        | zero => cases htokens
        | succ j => exact absurd (List.cons.inj htokens).1 (sdataToToken_ne (by decide) text)
  | cons p parts ih =>
    have hrest := ih (fun q hq => hvalid q (List.mem_cons_of_mem p hq)) (fun q hq => hblank q (List.mem_cons_of_mem p hq))
      hspaced.tail hknown.tail
    have hwhole : p.1.Whole (p.2.flatMap Blank.text ++ written last parts) := by
      cases hp : p.1 with
      | keyword text =>
        have hkeyword := whole_of_keyword hvalid hread hp
        rwa [hp] at hkeyword
      | symbol text =>
        have hsymbol := whole_of_symbol hvalid hblank hspaced hknown hlast
          (fun k heq => Nat.succ_ne_zero k (hrest (k + 1) heq).1) hread hp
        rwa [hp] at hsymbol
      | _ => trivial
    rw [tokenizeLoop_whole hvalid hblank hspaced hknown.tail hwhole] at hread
    have htokens := congrArg Prod.fst hread
    have hraise := congrArg Prod.snd hread
    cases j with
    | zero =>
      obtain ⟨-, hclean⟩ := hrest 0 (Prod.ext (List.cons.inj htokens).2 hraise)
      exact ⟨rfl, hwhole, hclean⟩
    | succ j =>
      obtain ⟨hp, htail⟩ := List.cons.inj htokens
      rw [List.map_cons, hp] at htail
      exact absurd (hrest (j + 1) (Prod.ext (htail.trans (replicate_dash j _)) hraise)).1 (Nat.succ_ne_zero j)

/-- Where the tokens are those of a query, its symbols are operators of the tokenizer. -/
theorem known_of_tokens {parts : List (Item ν × List Blank)} (hvalid : ∀ q ∈ parts, q.1.Valid tokenNumberFunc)
    {quoted : Option Char} {comment lineComment : Bool}
    (hread : (tokenizeLoop tokenNumberFunc quoted comment lineComment sdata str).1 = parts.map (fun q => q.1.token)) :
    Known parts := by
  intro p hp text htext
  have hmem : (.operator (String.ofList text) : Token ν) ∈
      (tokenizeLoop tokenNumberFunc quoted comment lineComment sdata str).1 := by
    rw [hread]
    exact List.mem_map.mpr ⟨p, hp, by rw [htext]; rfl⟩
  have hsymbol := hvalid p hp
  rw [htext] at hsymbol
  exact (sound_tokenizeLoop _ _ _ _ _ text hmem).resolve_right hsymbol.1

/-- The tokenizer gives the tokens of a query if and only if each operator of one character is followed by a character
that is no operator, no operator of letters touches a quote, each symbol is in its set, and no comment with a text is
open at the end. -/
theorem tokenize_eq_iff (query : Query tokenNumberFunc) :
    tokenize tokenNumberFunc query.text = (query.tokens, false) ↔ Clean query.last query.parts := by
  rw [tokenize, Query.text, Query.tokens, tokenizeLoop_gap query.blank_before]
  constructor
  · intro hread
    have hknown := known_of_tokens query.item (congrArg Prod.fst hread)
    exact (clean_of_tokens query.item query.blank_behind query.spaced hknown query.line_last 0 hread).2
  · exact Clean.tokens query.item query.blank_behind query.spaced

/-- The end of the query behind an operator ends the loop before the operator is given. -/
example : tokenize [fun text => (String.ofList text).toInt?] "a &".toList = ([.identifier "A"], false) := by decide

/-- A sign behind an operator is read as a part of the name that it stands in front of. -/
def opposite : Query [fun text => (String.ofList text).toInt?] where
  before := []
  parts := [(.identifier ['a'], []), (.symbol ['<'], []), (.symbol ['-'], []), (.identifier ['b'], [])]
  last := none
  blank_before := by decide
  item := by decide
  blank_behind := by decide
  line_last := by decide
  spaced := by decide

theorem sign_behind_operator : opposite.text = "a<-b".toList ∧
    tokenize [fun text => (String.ofList text).toInt?] opposite.text =
      ([.identifier "A", .operator "<", .identifier "-B"], false) ∧
    tokenize [fun text => (String.ofList text).toInt?] opposite.text ≠ (opposite.tokens, false) := by decide

end RaleighSL.Client.Rql
