import RaleighSL.Zcl.Evaluator.Words

/-!
# The tokens of a text

The lexer tries the kinds of tokens in a fixed order. The first character of what is left decides
which of them takes it, except that a keyword is taken before an identifier that begins with it.
The tokens that the lexer reads to the end of the text or to the first error tile the text. They
keep the law of the keywords if and only if each word that begins with a keyword is that keyword,
in the letters in which the parser looks for it.
-/
namespace RaleighSL.Zcl.Evaluator

open RaleighSL.Library

/-- The parser takes the two texts for the same operator. -/
def SameOperator (w k : List Char) : Prop :=
  binaryPrecedence (String.ofList w) = binaryPrecedence (String.ofList k) ∧
    unaryOperator (String.ofList w) = unaryOperator (String.ofList k)

/-- A token with the text `w`, read where `cs` is left, is the longest one of its kind. -/
structure IsLongest (cs w : List Char) (type : TokenType) : Prop where
  number : type = .int ∨ type = .float → Longest IsNumber w cs
  identifier : type = .identifier ∨ type = .boolean → Longest IsIdentifier w cs
  symbol : type = .operator → (∀ c ∈ w.head?, beginsWord c = false) → Longest IsSymbol w cs

/-- A keyword is a whole word, which the parser takes for the operator, and any other word is one identifier. -/
structure IsWhole (cs w : List Char) (type : TokenType) : Prop where
  keyword : type = .operator → (∃ c ∈ w.head?, beginsWord c = true) →
    Longest IsIdentifier w cs ∧ ∃ k ∈ keywords, w.map Char.toUpper = k ∧ SameOperator w k
  word : ∀ v, Longest IsIdentifier v cs → v.map Char.toUpper ∉ keywords → w = v ∧ type = lexKnownIdentifiers v

/-- A word that begins with a keyword, in letters of any case, is that keyword in capitals. -/
def Unambiguous (w : List Char) : Prop := ∀ k ∈ keywords, k <+: w.map Char.toUpper → w = k

/-- The functions that take a token that begins with no letter. -/
def lexThree : List Char → Nat × LexState := lexFirst [lexNumber, lexString, lexOperator]

/-- The words of a text up to the first error, each taken to its end. -/
def wordsFrom : Nat → List Char → List (List Char)
  | 0, _ => []
  | n + 1, cs =>
    match cs.dropWhile isSpace with
    | [] => []
    | c :: cs =>
      if beginsWord c then wordAt c cs :: wordsFrom n (cs.dropWhile Char.isAlphanum)
      else
        match lexThree (c :: cs) with
        | (k, some (.ok _)) => wordsFrom n ((c :: cs).drop k)
        | _ => []

def words (query : List Char) : List (List Char) := wordsFrom query.length query

/-! ### One token -/

theorem binaryPrecedence_or {text : String} (h : binaryPrecedence text = some (.or, 0)) : text = "OR" := by
  unfold binaryPrecedence at h
  split at h <;> first | rfl | exact absurd h (by decide)

theorem binaryPrecedence_and {text : String} (h : binaryPrecedence text = some (.and, 1)) : text = "AND" := by
  unfold binaryPrecedence at h
  split at h <;> first | rfl | exact absurd h (by decide)

theorem unaryOperator_not {text : String} (h : unaryOperator text = .yes .not) : text = "!" ∨ text = "NOT" := by
  unfold unaryOperator at h
  split at h
  case h_4 => exact .inl rfl
  case h_5 => exact .inr rfl
  case h_6 => split at h <;> exact absurd h (by decide)
  all_goals exact absurd h (by decide)

/-- The parser looks for the keywords in capitals. -/
theorem sameOperator_iff {w k : List Char} (hk : k ∈ keywords) (hw : w.map Char.toUpper = k) :
    SameOperator w k ↔ w = k := by
  refine ⟨fun h => ?_, fun h => by rw [h]; exact ⟨rfl, rfl⟩⟩
  have hlen : w.length = k.length := by rw [← hw, List.length_map]
  rw [keywords, List.mem_cons, List.mem_cons, List.mem_singleton] at hk
  rcases hk with rfl | rfl | rfl
  · exact String.ofList_injective (binaryPrecedence_or h.1)
  · exact String.ofList_injective (binaryPrecedence_and h.1)
  · rcases unaryOperator_not h.2 with hbang | hnot
    · rw [show w = ['!'] from String.ofList_injective hbang] at hlen
      exact absurd hlen (by decide)
    · exact String.ofList_injective hnot

theorem lexFirst_skip {f : List Char → Nat × LexState} {fs : List (List Char → Nat × LexState)} {cs : List Char}
    (h : f cs = (0, none)) : lexFirst (f :: fs) cs = lexFirst fs cs := by
  simp only [lexFirst, h, List.drop_zero, Nat.zero_add]

theorem lexFirst_take {f : List Char → Nat × LexState} {fs : List (List Char → Nat × LexState)} {cs : List Char}
    {n : Nat} {state : Except LexerError TokenType} (h : f cs = (n, some state)) :
    lexFirst (f :: fs) cs = (n, some state) := by
  simp only [lexFirst, h]

theorem lexFirst_append (fs gs : List (List Char → Nat × LexState)) {cs : List Char} {n : Nat}
    {state : Except LexerError TokenType} (h : lexFirst fs cs = (n, some state)) :
    lexFirst (fs ++ gs) cs = (n, some state) := by
  induction fs generalizing cs n with
  | nil => exact absurd (congrArg Prod.snd h) (by simp [lexFirst])
  | cons f fs ih =>
    cases hf : f cs with
    | mk k st =>
      cases st with
      | some st =>
        rw [lexFirst_take hf] at h
        rw [List.cons_append, lexFirst_take hf, h]
      | none =>
        simp only [lexFirst, hf] at h
        obtain ⟨hn, hst⟩ := Prod.mk.inj h
        have hrest := ih (Prod.ext rfl hst : lexFirst fs (cs.drop k) = (_, some state))
        simp only [List.cons_append, lexFirst, hf, hrest, hn]

theorem lexNumber_other {c : Char} (hdigit : c.isDigit = false) (hdot : c ≠ '.') (cs : List Char) :
    lexNumber (c :: cs) = (0, none) := by
  rw [lexNumber, if_neg]
  simp only [List.head?_cons, Option.any_some, hdigit, hdot, Bool.false_eq_true, or_self, decide_false, not_false_iff]

theorem lexString_other {c : Char} (hsingle : c ≠ '\'') (hdouble : c ≠ '"') (cs : List Char) :
    lexString (c :: cs) = (0, none) := by
  rw [lexString, if_neg]
  simp only [hsingle, hdouble, or_self, not_false_iff]

/-- A character that begins no operator is taken for a keyword or left. -/
theorem lexOperator_other {c : Char} (hc : beginsSymbol c = false) (cs : List Char) :
    lexOperator (c :: cs) = ((keywords.findSome? (lexOperatorKeyword (c :: cs))).getD 0,
      (keywords.findSome? (lexOperatorKeyword (c :: cs))).map (fun _ => .ok .operator)) := by
  have hmem : c ∉ punctuation ∧ c ∉ ['&', '|'] ∧ c ∉ ['<', '>', '=', '!'] := by
    have hnot : c ∉ punctuation ++ ['&', '|', '<', '>', '=', '!'] := of_decide_eq_false hc
    simp only [List.mem_append, List.mem_cons, List.not_mem_nil, or_false] at hnot ⊢
    tauto
  rw [lexOperator, if_neg hmem.1, if_neg hmem.2.1, if_neg hmem.2.2]
  cases keywords.findSome? (lexOperatorKeyword (c :: cs)) with
  | none => rfl
  | some n => rfl

/-- A letter is left to the keywords and to the identifiers. -/
theorem lexFirst_word {c : Char} (hc : beginsWord c = true) (cs : List Char) :
    lexFirst [lexNumber, lexString, lexOperator, lexIdentifier] (c :: cs) =
      match keywords.findSome? (lexOperatorKeyword (c :: cs)) with
      | some n => (n, some (.ok .operator))
      | none => ((wordAt c cs).length, some (.ok .identifier)) := by
  have hne : ∀ d, beginsWord d = false → c ≠ d := fun d hd h => Bool.false_ne_true (hd.symm.trans (h ▸ hc))
  have hdigit : c.isDigit = false := by
    rw [Bool.eq_false_iff]
    exact fun h => Bool.false_ne_true ((not_beginsWord_of_isDigit h).symm.trans hc)
  have hsymbol : beginsSymbol c = false := by
    rw [beginsSymbol, decide_eq_false_iff_not]
    intro h
    refine hne c (not_beginsWord_of_mem c ?_) rfl
    exact List.mem_cons_of_mem _ (List.mem_cons_of_mem _ (List.mem_cons_of_mem _ h))
  rw [lexFirst_skip (lexNumber_other hdigit (hne '.' (by decide)) cs),
    lexFirst_skip (lexString_other (hne '\'' (by decide)) (hne '"' (by decide)) cs)]
  have hop := lexOperator_other hsymbol cs
  cases hfind : keywords.findSome? (lexOperatorKeyword (c :: cs)) with
  | some n =>
    rw [hfind] at hop
    exact lexFirst_take hop
  | none =>
    rw [hfind] at hop
    rw [lexFirst_skip hop]
    exact lexFirst_take (lexIdentifier_word hc cs)

/-- What the lexer reads at a letter: a keyword when the letters of one are there, else the whole word. -/
theorem lexToken_keyword {k : List Char} (hk : k ∈ keywords) {c : Char} {cs : List Char}
    (h : k <+: (c :: cs).map Char.toUpper) : lexToken (c :: cs) = (k.length, some (.ok .operator)) := by
  have hfirst := lexFirst_word (keyword_at hk h).1 cs
  rw [findSome_keyword hk h] at hfirst
  simp only [lexToken, hfirst]

theorem lexToken_identifier {c : Char} (hc : beginsWord c = true) {cs : List Char}
    (h : ∀ k ∈ keywords, ¬ k <+: (c :: cs).map Char.toUpper) :
    lexToken (c :: cs) = ((wordAt c cs).length, some (.ok (lexKnownIdentifiers (wordAt c cs)))) := by
  have hfirst := lexFirst_word hc cs
  rw [findSome_keyword_none h] at hfirst
  simp only [lexToken, hfirst]
  rw [← List.prefix_iff_eq_take.mp (wordAt_longest hc cs).isPrefix]

theorem lexKnownIdentifiers_type (w : List Char) :
    lexKnownIdentifiers w = .identifier ∨ lexKnownIdentifiers w = .boolean := by
  rw [lexKnownIdentifiers]
  split
  · exact .inr rfl
  · exact .inl rfl

/-- What one token at a letter is. -/
theorem lexToken_word {c : Char} (hc : beginsWord c = true) (cs : List Char) :
    ∃ n type, lexToken (c :: cs) = (n, some (.ok type)) ∧ 0 < n ∧ n ≤ (c :: cs).length ∧
      IsLongest (c :: cs) ((c :: cs).take n) type ∧
      (IsWhole (c :: cs) ((c :: cs).take n) type ↔ Unambiguous (wordAt c cs)) ∧
      (Unambiguous (wordAt c cs) → n = (wordAt c cs).length) := by
  have hword := wordAt_longest hc cs
  have hle : (wordAt c cs).length ≤ (c :: cs).length := hword.isPrefix.length_le
  by_cases hkey : ∃ k ∈ keywords, k <+: (c :: cs).map Char.toUpper
  · obtain ⟨k, hk, hpre⟩ := hkey
    obtain ⟨-, hupper, hin, hid⟩ := keyword_at hk hpre
    have hlen : ((c :: cs).take k.length).length = k.length := by
      have h := congrArg List.length hupper
      rwa [List.length_map] at h
    have hpre_word : k <+: (wordAt c cs).map Char.toUpper := by
      rw [← hupper]
      exact hin.map Char.toUpper
    have hwhole : Unambiguous (wordAt c cs) → (c :: cs).take k.length = wordAt c cs ∧ wordAt c cs = k := by
      intro h
      have hk_eq := h k hk hpre_word
      refine ⟨hin.eq_of_length ?_, hk_eq⟩
      rw [hlen, hk_eq]
    refine ⟨k.length, .operator, lexToken_keyword hk hpre, ?_, ?_, ?_, ⟨fun h => ?_, fun h => ?_⟩, fun h => ?_⟩
    · exact List.length_pos_iff.mpr (keywords_alpha k hk).1
    · rw [← hlen]
      exact List.length_take_le' _ _
    · refine ⟨fun h => ?_, fun h => ?_, fun _ h => ?_⟩
      · exact absurd h (by decide)
      · exact absurd h (by decide)
      · obtain ⟨d, hd, hdw⟩ := hid.begins
        exact absurd ((h d hd).symm.trans hdw) Bool.false_ne_true
    · obtain ⟨hlongest, k', hk', hupper', hsame⟩ := h.keyword rfl hid.begins
      obtain rfl : k = k' := hupper.symm.trans hupper'
      have heq : wordAt c cs = k := (hword.unique hlongest).trans ((sameOperator_iff hk hupper).mp hsame)
      intro k' hk' hpre'
      rw [heq, keyword_upper k hk] at hpre'
      rw [heq, keywords_distinct k hk k' hk' (head?_of_begins (keywords_alpha k' hk').1 hpre')]
    · obtain ⟨htake, heq⟩ := hwhole h
      refine ⟨fun _ _ => ⟨htake ▸ hword, k, hk, hupper, ?_⟩, fun v hv hnot => ?_⟩
      · exact (sameOperator_iff hk hupper).mpr (htake.trans heq)
      · rw [hv.unique hword, heq, keyword_upper k hk] at hnot
        exact absurd hk hnot
    · rw [(hwhole h).2]
  · have hkey' : ∀ k ∈ keywords, ¬ k <+: (c :: cs).map Char.toUpper := fun k hk hpre => hkey ⟨k, hk, hpre⟩
    have hun : Unambiguous (wordAt c cs) :=
      fun k hk hpre => absurd (hpre.trans (hword.isPrefix.map Char.toUpper)) (hkey' k hk)
    have htake : (c :: cs).take (wordAt c cs).length = wordAt c cs :=
      (List.prefix_iff_eq_take.mp hword.isPrefix).symm
    have hnot : lexKnownIdentifiers (wordAt c cs) ≠ .operator := by
      rcases lexKnownIdentifiers_type (wordAt c cs) with h | h <;> rw [h] <;> decide
    have hnum : ¬ (lexKnownIdentifiers (wordAt c cs) = .int ∨ lexKnownIdentifiers (wordAt c cs) = .float) := by
      rcases lexKnownIdentifiers_type (wordAt c cs) with h | h <;> rw [h] <;> decide
    refine ⟨_, _, lexToken_identifier hc hkey', Nat.succ_pos _, hle, ?_, ⟨fun _ => hun, fun _ => ?_⟩, fun _ => rfl⟩
    · rw [htake]
      exact ⟨fun h => absurd h hnum, fun _ => hword, fun h => absurd h hnot⟩
    · rw [htake]
      exact ⟨fun h => absurd h hnot, fun v hv _ => ⟨hword.unique hv, by rw [hv.unique hword]⟩⟩

theorem lexNumber_some {c : Char} (hc : c.isDigit = true ∨ c = '.') (cs : List Char) :
    ∃ n state, lexNumber (c :: cs) = (n, some state) := by
  have hbegins : (c :: cs).head?.any (fun c => c.isDigit ∨ c = '.') = true := decide_eq_true hc
  have hexp : ∀ cs, ∃ state, (lexExponent cs).2 = some state := by
    intro cs
    cases cs with
    | nil => exact ⟨_, rfl⟩
    | cons x cs =>
      rw [lexExponent]
      split <;> exact ⟨_, rfl⟩
  rw [lexNumber, if_pos hbegins]
  dsimp only
  split
  · obtain ⟨state, h⟩ := hexp (List.drop 1 (List.drop (lexFraction (List.drop (lexDigits (c :: cs)) (c :: cs)))
      (List.drop (lexDigits (c :: cs)) (c :: cs))))
    exact ⟨_, state, Prod.ext rfl h⟩
  · split <;> exact ⟨_, _, rfl⟩

theorem lexQuoted_some (quote : Char) (cs : List Char) : ∃ n state, lexQuoted quote cs = (n, some state) ∧
    ∀ type, state = .ok type → type = .string ∧ n ≤ cs.length := by
  fun_induction lexQuoted quote cs with
  | case1 => exact ⟨_, _, rfl, fun type h => absurd h (by simp)⟩
  | case2 cs =>
    refine ⟨_, _, rfl, fun type h => ⟨(Except.ok.inj h).symm, ?_⟩⟩
    simp only [List.length_cons]
    omega
  | case3 h => exact ⟨_, _, rfl, fun type h => absurd h (by simp)⟩
  | case4 d cs r h ih =>
    obtain ⟨n, state, hr, hok⟩ := ih
    have hstate : r.2 = some state := congrArg Prod.snd hr
    refine ⟨2 + r.1, state, Prod.ext rfl hstate, fun type h => ⟨(hok type h).1, ?_⟩⟩
    have hn : r.1 = n := congrArg Prod.fst hr
    have hle := (hok type h).2
    simp only [List.length_cons]
    omega
  | case5 c cs h h' r ih =>
    obtain ⟨n, state, hr, hok⟩ := ih
    have hstate : r.2 = some state := congrArg Prod.snd hr
    refine ⟨1 + r.1, state, Prod.ext rfl hstate, fun type h => ⟨(hok type h).1, ?_⟩⟩
    have hn : r.1 = n := congrArg Prod.fst hr
    have hle := (hok type h).2
    simp only [List.length_cons]
    omega

/-- A token that begins with no letter holds no part of a word. -/
theorem isWhole_other {c : Char} (hc : beginsWord c = false) {cs : List Char} {n : Nat} (hn : 0 < n)
    (type : TokenType) : IsWhole (c :: cs) ((c :: cs).take n) type := by
  have hno : ∀ d ∈ ((c :: cs).take n).head?, beginsWord d = false := by
    obtain ⟨m, rfl⟩ : ∃ m, n = m + 1 := ⟨n - 1, by omega⟩
    intro d hd
    rwa [← Option.some.inj hd]
  refine ⟨fun _ hbegins => ?_, fun v hv _ => ?_⟩
  · obtain ⟨d, hd, hdw⟩ := hbegins
    exact absurd ((hno d hd).symm.trans hdw) Bool.false_ne_true
  · obtain ⟨d, hd, hdw⟩ := hv.property.begins
    obtain ⟨a, as, rfl, -⟩ := hv.property
    obtain rfl : a = d := Option.some.inj hd
    obtain rfl : a = c := (List.cons_prefix_cons.mp hv.isPrefix).1
    exact absurd (hc.symm.trans hdw) Bool.false_ne_true

theorem lexToken_of_three {cs : List Char} {n : Nat} {state : Except LexerError TokenType}
    (h : lexThree cs = (n, some state)) (hid : state ≠ .ok .identifier) : lexToken cs = (n, some state) := by
  have hfirst : lexFirst [lexNumber, lexString, lexOperator, lexIdentifier] cs = (n, some state) :=
    lexFirst_append [lexNumber, lexString, lexOperator] [lexIdentifier] h
  simp only [lexToken, hfirst]

/-- What one token at another character is, when there is one. -/
theorem lexToken_other {c : Char} (hc : beginsWord c = false) (cs : List Char) :
    (∃ n type, lexToken (c :: cs) = (n, some (.ok type)) ∧ lexThree (c :: cs) = (n, some (.ok type)) ∧
      0 < n ∧ n ≤ (c :: cs).length ∧ IsLongest (c :: cs) ((c :: cs).take n) type) ∨
    ((∃ n e, lexToken (c :: cs) = (n, some (.error e))) ∧ ∀ n type, lexThree (c :: cs) ≠ (n, some (.ok type))) := by
  have hnot : ∀ cs', ¬ (∃ k ∈ keywords, k <+: (c :: cs').map Char.toUpper) := by
    rintro cs' ⟨k, hk, hpre⟩
    exact absurd (hc.symm.trans (keyword_at hk hpre).1) Bool.false_ne_true
  by_cases hnumber : c.isDigit = true ∨ c = '.'
  · obtain ⟨n, state, hnum⟩ := lexNumber_some hnumber cs
    have hthree : lexThree (c :: cs) = (n, some state) := lexFirst_take hnum
    cases state with
    | error e =>
      refine .inr ⟨⟨n, e, lexToken_of_three hthree (by simp)⟩, fun k type h => ?_⟩
      exact absurd (congrArg Prod.snd (hthree.symm.trans h)) (by simp)
    | ok type =>
      obtain ⟨htype, hpos, hle, hlongest⟩ := lexNumber_longest hnum
      have hid : type ≠ .identifier ∧ type ≠ .boolean ∧ type ≠ .operator := by
        rcases htype with rfl | rfl <;> decide
      refine .inl ⟨n, type, lexToken_of_three hthree (by simp [hid.1]), hthree, hpos, hle, fun _ => hlongest, ?_, ?_⟩
      · exact fun h => absurd h (by simp only [hid.1, hid.2.1, or_self, not_false_iff])
      · exact fun h => absurd h hid.2.2
  · rw [not_or, Bool.not_eq_true] at hnumber
    have hnum := lexNumber_other hnumber.1 hnumber.2 cs
    by_cases hquote : c = '\'' ∨ c = '"'
    · obtain ⟨n, state, hquoted, hok⟩ := lexQuoted_some c cs
      have hstring : lexString (c :: cs) = (1 + n, some state) := by
        rw [lexString, if_pos hquote]
        simp only [hquoted]
      have hthree : lexThree (c :: cs) = (1 + n, some state) := by
        rw [lexThree, lexFirst_skip hnum]
        exact lexFirst_take hstring
      cases state with
      | error e =>
        refine .inr ⟨⟨1 + n, e, lexToken_of_three hthree (by simp)⟩, fun k type h => ?_⟩
        exact absurd (congrArg Prod.snd (hthree.symm.trans h)) (by simp)
      | ok type =>
        obtain ⟨rfl, hle⟩ := hok type rfl
        refine .inl ⟨1 + n, .string, lexToken_of_three hthree (by simp), hthree, by omega, ?_, ?_, ?_, ?_⟩
        · simp only [List.length_cons]
          omega
        all_goals exact fun h => absurd h (by decide)
    · rw [not_or] at hquote
      have hstring := lexString_other hquote.1 hquote.2 cs
      have hthree : lexThree (c :: cs) = lexFirst [lexOperator] (c :: cs) := by
        rw [lexThree, lexFirst_skip hnum, lexFirst_skip hstring]
      by_cases hsymbol : beginsSymbol c = true
      · have hop : lexOperator (c :: cs) = (symbolLength c cs, some (.ok .operator)) := lexOperator_symbol hsymbol
        have hlongest : Longest IsSymbol ((c :: cs).take (symbolLength c cs)) (c :: cs) := symbol_longest hsymbol
        have hlen : 0 < symbolLength c cs ∧ symbolLength c cs ≤ (c :: cs).length := symbolLength_le c cs
        rw [lexFirst_take hop] at hthree
        refine .inl ⟨_, .operator, lexToken_of_three hthree (by simp), hthree, hlen.1, hlen.2, ?_, ?_, fun _ _ => hlongest⟩
        all_goals exact fun h => absurd h (by decide)
      · have hnone : keywords.findSome? (lexOperatorKeyword (c :: cs)) = none :=
          findSome_keyword_none (fun k hk hpre => hnot cs ⟨k, hk, hpre⟩)
        have hop := lexOperator_other (Bool.not_eq_true _ ▸ hsymbol) cs
        rw [hnone] at hop
        have hid : lexIdentifier (c :: cs) = (0, none) := by rw [lexIdentifier, if_neg (by rw [hc]; decide)]
        have hfour : lexFirst [lexNumber, lexString, lexOperator, lexIdentifier] (c :: cs) = (0, none) := by
          rw [lexFirst_skip hnum, lexFirst_skip hstring, lexFirst_skip hop, lexFirst_skip hid, lexFirst]
        rw [lexFirst_skip hop, lexFirst] at hthree
        refine .inr ⟨⟨0, .invtok, by simp only [lexToken, hfour]⟩, fun k type h => ?_⟩
        exact absurd (congrArg Prod.snd (hthree.symm.trans h)) (by simp)

/-! ### The run of the lexer -/

def Blank (query : List Char) (i : Nat) : Prop := ∃ c ∈ query[i]?, isSpace c = true

def Span.place (t : Span) : Nat × Nat := (t.start, t.length)

/-- Where the reading of tokens ends: at the end of the text, or where the token with the error begins. -/
def limit (last : Scanner × Int) : Nat := if last.2 = 1 then last.1.query.length else last.1.token.start

theorem drop_takeWhile (p : Char → Bool) (cs : List Char) : cs.drop (cs.takeWhile p).length = cs.dropWhile p := by
  have h : (cs.takeWhile p ++ cs.dropWhile p).drop (cs.takeWhile p).length = cs.dropWhile p := List.drop_left
  rwa [List.takeWhile_append_dropWhile] at h

/-- The spaces in front of a token are a gap. -/
theorem gap_spaces (query : List Char) (index : Nat) :
    Gap (Blank query) index (index + lexSkipSpaces (query.drop index)) := by
  intro i hi hlt
  obtain ⟨j, rfl⟩ := Nat.exists_eq_add_of_le hi
  have hj : j < ((query.drop index).takeWhile isSpace).length := by
    rw [← lexSkipSpaces]
    omega
  refine ⟨((query.drop index).takeWhile isSpace)[j], ?_, List.mem_takeWhile_imp (List.getElem_mem hj)⟩
  have hget : ((query.drop index).takeWhile isSpace ++ (query.drop index).dropWhile isSpace)[j]? =
      some ((query.drop index).takeWhile isSpace)[j] := by
    rw [List.getElem?_append_left hj]
    exact List.getElem?_eq_getElem hj
  rwa [List.takeWhile_append_dropWhile, List.getElem?_drop] at hget

variable {query : List Char} {index : Nat}

theorem Scanner.next_blank (h : (query.drop index).dropWhile isSpace = []) (token : Span) :
    ∃ i, Scanner.next ⟨query, index, token⟩ = (⟨query, i, { token with type := .unknown }⟩, 1) ∧
      Gap (Blank query) index query.length := by
  have hend : query.length ≤ index + lexSkipSpaces (query.drop index) := by
    rw [← List.drop_eq_nil_iff, ← List.drop_drop, lexSkipSpaces, drop_takeWhile]
    exact h
  refine ⟨index + lexSkipSpaces (query.drop index), ?_, ?_⟩
  · simp only [Scanner.next, if_pos hend]
  · exact fun i hi hlt => gap_spaces query index i hi (by omega)

/-- The text at a token, and that it is there. -/
theorem drop_spaces {c : Char} {cs : List Char} (h : (query.drop index).dropWhile isSpace = c :: cs) :
    query.drop (index + lexSkipSpaces (query.drop index)) = c :: cs ∧
      ¬ query.length ≤ index + lexSkipSpaces (query.drop index) := by
  have hdrop : query.drop (index + lexSkipSpaces (query.drop index)) = c :: cs := by
    rw [← List.drop_drop, lexSkipSpaces, drop_takeWhile, h]
  refine ⟨hdrop, fun hle => ?_⟩
  rw [List.drop_eq_nil_of_le hle] at hdrop
  exact absurd hdrop.symm (List.cons_ne_nil c cs)

theorem Scanner.next_token {c : Char} {cs : List Char} (h : (query.drop index).dropWhile isSpace = c :: cs)
    (token : Span) {n : Nat} {type : TokenType} (htoken : lexToken (c :: cs) = (n, some (.ok type))) :
    Scanner.next ⟨query, index, token⟩ =
      (⟨query, index + lexSkipSpaces (query.drop index) + n,
        ⟨index + lexSkipSpaces (query.drop index), n, type⟩⟩, 0) := by
  obtain ⟨hdrop, hlt⟩ := drop_spaces h
  simp only [Scanner.next, if_neg hlt, hdrop, htoken]

theorem Scanner.next_error {c : Char} {cs : List Char} (h : (query.drop index).dropWhile isSpace = c :: cs)
    (token : Span) {n : Nat} {e : LexerError} (htoken : lexToken (c :: cs) = (n, some (.error e))) :
    Scanner.next ⟨query, index, token⟩ =
      (⟨query, index + lexSkipSpaces (query.drop index) + n,
        ⟨index + lexSkipSpaces (query.drop index), n, .unknown⟩⟩, -1) := by
  obtain ⟨hdrop, hlt⟩ := drop_spaces h
  simp only [Scanner.next, if_neg hlt, hdrop, htoken]

/-- What is known of the tokens that the lexer reads from the place `index`, where the words `ws` follow. -/
structure Reading (query : List Char) (index : Nat) (ws : List (List Char)) (ts : List Span) (last : Scanner × Int) :
    Prop where
  tiles : Tiles (Blank query) index (ts.map Span.place) (limit last)
  limit_le : limit last ≤ query.length
  longest : ∀ t ∈ ts, IsLongest (query.drop t.start) (t.text query) t.type
  whole : (∀ t ∈ ts, IsWhole (query.drop t.start) (t.text query) t.type) ↔ ∀ w ∈ ws, Unambiguous w

theorem yields_cons {lex lex' : Scanner} {ts : List Span} {last : Scanner × Int} (hnext : lex.next = (lex', 0))
    (h : Yields (fun n => readTokens n lex') (ts, last)) :
    Yields (fun n => readTokens n lex) (lex'.token :: ts, last) := by
  have hmap : Yields (fun n => (readTokens n lex').map (fun s => (lex'.token :: s.1, s.2))) (lex'.token :: ts, last) :=
    h.map
  refine Yields.step (fun n => ?_) hmap
  simp only [readTokens, hnext, if_true]

theorem yields_nil {lex : Scanner} {last : Scanner × Int} (hnext : lex.next = last) (hcode : last.2 ≠ 0) :
    Yields (fun n => readTokens n lex) ([], last) := by
  refine Yields.step (fun n => ?_) (Yields.of_forall (fun _ => rfl) : Yields (fun _ => some ([], last)) ([], last))
  simp only [readTokens, hnext, if_neg hcode]

theorem wordsFrom_blank {cs : List Char} (h : cs.dropWhile isSpace = []) (m : Nat) : wordsFrom m cs = [] := by
  cases m with
  | zero => rfl
  | succ m => simp only [wordsFrom, h]

theorem reading_blank (h : (query.drop index).dropWhile isSpace = []) (hle : index ≤ query.length) (token : Span)
    (m : Nat) : ∃ ts last, Yields (fun n => readTokens n ⟨query, index, token⟩) (ts, last) ∧
      Reading query index (wordsFrom m (query.drop index)) ts last := by
  obtain ⟨i, hnext, hgap⟩ := Scanner.next_blank h token
  refine ⟨_, _, yields_nil hnext one_ne_zero, ⟨hle, hgap⟩, Nat.le_refl _, fun t ht => absurd ht List.not_mem_nil, ?_⟩
  rw [wordsFrom_blank h]
  exact ⟨fun _ w hw => absurd hw List.not_mem_nil, fun _ t ht => absurd ht List.not_mem_nil⟩

theorem Reading.cons {c : Char} {cs : List Char} (h : (query.drop index).dropWhile isSpace = c :: cs) {n : Nat}
    {type : TokenType} (hn : 0 < n)
    (hlongest : IsLongest (c :: cs) ((c :: cs).take n) type) {ws ws' : List (List Char)} {ts : List Span}
    {last : Scanner × Int}
    (hrest : Reading query (index + lexSkipSpaces (query.drop index) + n) ws' ts last)
    (hwhole : (IsWhole (c :: cs) ((c :: cs).take n) type ∧ ∀ w ∈ ws', Unambiguous w) ↔ ∀ w ∈ ws, Unambiguous w) :
    Reading query index ws (⟨index + lexSkipSpaces (query.drop index), n, type⟩ :: ts) last := by
  obtain ⟨hdrop, -⟩ := drop_spaces h
  have htext : Span.text ⟨index + lexSkipSpaces (query.drop index), n, type⟩ query = (c :: cs).take n := by
    rw [Span.text, hdrop]
  refine ⟨⟨Nat.le_add_right _ _, gap_spaces query index, hn, hrest.tiles⟩, hrest.limit_le, ?_, ?_⟩
  · intro t ht
    rcases List.mem_cons.mp ht with rfl | ht
    · rw [htext, hdrop]
      exact hlongest
    · exact hrest.longest t ht
  · rw [List.forall_mem_cons, htext, hdrop, hrest.whole]
    exact hwhole

/-- The lexer reads what is left of the text when that is at most `m` characters. -/
def Readable (query : List Char) (m : Nat) : Prop :=
  ∀ (index : Nat) (token : Span), (query.drop index).length ≤ m → index ≤ query.length →
    ∃ ts last, Yields (fun n => readTokens n ⟨query, index, token⟩) (ts, last) ∧
      Reading query index (wordsFrom m (query.drop index)) ts last

/-- What the lexer reads behind a token. -/
theorem Readable.behind {m : Nat} (ih : Readable query m) {c : Char} {cs : List Char}
    (h : (query.drop index).dropWhile isSpace = c :: cs) (token : Span) (hm : (query.drop index).length ≤ m + 1)
    {n : Nat} {type : TokenType} (htoken : lexToken (c :: cs) = (n, some (.ok type))) (hn : 0 < n)
    (hle : n ≤ (c :: cs).length) :
    ∃ ts last, Yields (fun k => readTokens k ⟨query, index, token⟩)
        (⟨index + lexSkipSpaces (query.drop index), n, type⟩ :: ts, last) ∧
      Reading query (index + lexSkipSpaces (query.drop index) + n) (wordsFrom m ((c :: cs).drop n)) ts last := by
  obtain ⟨hdrop, hlt⟩ := drop_spaces h
  have hlen := congrArg List.length hdrop
  rw [List.length_drop] at hm hlen
  have hnext := Scanner.next_token h token htoken
  obtain ⟨ts, last, hyields, hread⟩ := ih (index + lexSkipSpaces (query.drop index) + n)
    ⟨index + lexSkipSpaces (query.drop index), n, type⟩ (by rw [List.length_drop]; omega) (by omega)
  refine ⟨ts, last, yields_cons hnext hyields, ?_⟩
  rwa [← List.drop_drop, hdrop] at hread

theorem reading_error {c : Char} {cs : List Char} (h : (query.drop index).dropWhile isSpace = c :: cs) (token : Span)
    {n : Nat} {e : LexerError} (htoken : lexToken (c :: cs) = (n, some (.error e))) :
    ∃ ts last, Yields (fun k => readTokens k ⟨query, index, token⟩) (ts, last) ∧ Reading query index [] ts last := by
  obtain ⟨-, hlt⟩ := drop_spaces h
  have hnext := Scanner.next_error h token htoken
  have hcode : (-1 : Int) ≠ 0 := by decide
  refine ⟨_, _, yields_nil hnext hcode, ⟨Nat.le_add_right _ _, gap_spaces query index⟩, ?_, fun t ht => absurd ht List.not_mem_nil, ?_⟩
  · exact Nat.le_of_not_le hlt
  · exact ⟨fun _ w hw => absurd hw List.not_mem_nil, fun _ t ht => absurd ht List.not_mem_nil⟩

/-- The lexer reads the rest of a text to its end or to an error. -/
theorem readable (query : List Char) (m : Nat) : Readable query m := by
  induction m with
  | zero =>
    intro index token hm hle
    refine reading_blank ?_ hle token 0
    rw [List.eq_nil_of_length_eq_zero (Nat.le_zero.mp hm), List.dropWhile_nil]
  | succ m ih =>
    intro index token hm hle
    cases hrest : (query.drop index).dropWhile isSpace with
    | nil => exact reading_blank hrest hle token (m + 1)
    | cons c cs =>
      cases hc : beginsWord c with
      | true =>
        obtain ⟨n, type, htoken, hn, hnle, hlongest, hwhole, hlength⟩ := lexToken_word hc cs
        obtain ⟨ts, last, hyields, hread⟩ := ih.behind hrest token hm htoken hn hnle
        refine ⟨_, last, hyields, Reading.cons hrest hn hlongest hread ?_⟩
        simp only [wordsFrom, hrest, hc, if_true]
        rw [List.forall_mem_cons, hwhole]
        refine and_congr_right (fun hun => ?_)
        have hdrop : (c :: cs).drop n = cs.dropWhile Char.isAlphanum := by
          rw [hlength hun, wordAt, List.length_cons, List.drop_succ_cons, drop_takeWhile]
        rw [hdrop]
      | false =>
        rcases lexToken_other hc cs with ⟨n, type, htoken, hthree, hn, hnle, hlongest⟩ | ⟨⟨n, e, htoken⟩, hthree⟩
        · obtain ⟨ts, last, hyields, hread⟩ := ih.behind hrest token hm htoken hn hnle
          refine ⟨_, last, hyields, Reading.cons hrest hn hlongest hread ?_⟩
          simp only [wordsFrom, hrest, hc, hthree, Bool.false_eq_true, if_false]
          exact and_iff_right (isWhole_other hc hn type)
        · have hnil : wordsFrom (m + 1) (query.drop index) = [] := by
            simp only [wordsFrom, hrest, hc, Bool.false_eq_true, if_false]
          rw [hnil]
          exact reading_error hrest token htoken

/-! ### The law of the lexer -/

/-- The tokens of a text up to its end or to the first error. -/
structure Lawful (query : List Char) (ts : List Span) (stop : Nat) : Prop where
  nonempty : ∀ t ∈ ts, 0 < t.length
  ordered : ts.Pairwise (fun t u => t.start + t.length ≤ u.start)
  inside : ∀ t ∈ ts, t.start + t.length ≤ query.length
  covers : ∀ i c, i < stop → query[i]? = some c → isSpace c = false →
    ∃ t ∈ ts, t.start ≤ i ∧ i < t.start + t.length
  longest : ∀ t ∈ ts, IsLongest (query.drop t.start) (t.text query) t.type
  whole : ∀ t ∈ ts, IsWhole (query.drop t.start) (t.text query) t.type

end RaleighSL.Zcl.Evaluator
