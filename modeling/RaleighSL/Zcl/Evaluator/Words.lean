import RaleighSL.Zcl.Evaluator.Scanner
import RaleighSL.Library.Texts
import RaleighSL.Library.Area
import Mathlib.Data.List.TakeWhile

/-!
# The words of a text

The numbers, the identifiers and the operators of the lexer as languages of their own, and what
each function that recognises one of them takes from a text: the longest word of its language.
A keyword is taken without regard to what follows it and to the case of its letters.
-/
namespace RaleighSL.Zcl.Evaluator

open RaleighSL.Library (Longest prefix_split)

/-! ### Numbers -/

def IsDigits (ds : List Char) : Prop := ∀ c ∈ ds, c.isDigit = true

/-- Nothing, or a dot and digits. -/
inductive IsFraction : List Char → Prop
  | none : IsFraction []
  | dot (gs : List Char) (digits : IsDigits gs) : IsFraction ('.' :: gs)

/-- Nothing, or the exponent sign, a sign or a digit, and digits. -/
inductive IsExponent : List Char → Prop
  | none : IsExponent []
  | sign (e x : Char) (gs : List Char) (exponent : e = 'e' ∨ e = 'E') (first : x = '+' ∨ x = '-' ∨ x.isDigit = true)
      (digits : IsDigits gs) : IsExponent (e :: x :: gs)

def IsNumber (w : List Char) : Prop :=
  ∃ ds fs es, w = ds ++ (fs ++ es) ∧ IsDigits ds ∧ IsFraction fs ∧ IsExponent es ∧ ds ++ fs ≠ [] ∧ w ≠ ['.']

theorem lexDigits_split (cs : List Char) : ∃ ds rest, cs = ds ++ rest ∧ IsDigits ds ∧
    (∀ c ∈ rest.head?, ¬ c.isDigit = true) ∧ lexDigits cs = ds.length := by
  refine ⟨cs.takeWhile Char.isDigit, cs.dropWhile Char.isDigit, List.takeWhile_append_dropWhile.symm, ?_, ?_, rfl⟩
  · exact fun c hc => List.mem_takeWhile_imp hc
  · intro c hc
    have h := List.head?_dropWhile_not Char.isDigit cs
    rw [Option.mem_def.mp hc] at h
    simpa using h

/-- What `lexNumber` takes, and where each of its loops stops. -/
structure Taken (ds fs es rest : List Char) : Prop where
  whole : IsDigits ds
  fraction : IsFraction fs
  exponent : IsExponent es
  nonempty : ds ++ fs ≠ []
  not_dot : ds ++ (fs ++ es) ≠ ['.']
  whole_stops : ∀ c ∈ (fs ++ (es ++ rest)).head?, ¬ c.isDigit = true
  fraction_stops : ∀ c ∈ (es ++ rest).head?, (fs = [] → c ≠ '.') ∧ (fs ≠ [] → ¬ c.isDigit = true)
  exponent_stops : ∀ c ∈ rest.head?, (es = [] → c ≠ 'e' ∧ c ≠ 'E') ∧ (es ≠ [] → ¬ c.isDigit = true)

theorem IsExponent.head {es : List Char} (h : IsExponent es) : ∀ c ∈ es.head?, c = 'e' ∨ c = 'E' := by
  cases h with
  | none => exact fun c hc => absurd hc (Option.not_mem_none c)
  | sign e x gs he hx hgs =>
    intro c hc
    obtain rfl : e = c := Option.some.inj hc
    exact he

theorem IsExponent.not_digit {es : List Char} (h : IsExponent es) : ∀ c ∈ es.head?, ¬ c.isDigit = true := by
  intro c hc
  rcases h.head c hc with rfl | rfl <;> decide

theorem IsFraction.not_digit {fs es : List Char} (hf : IsFraction fs) (he : IsExponent es) :
    ∀ c ∈ (fs ++ es).head?, ¬ c.isDigit = true := by
  cases hf with
  | none => exact he.not_digit
  | dot gs hgs =>
    intro c hc
    obtain rfl : '.' = c := Option.some.inj hc
    decide

/-- An exponent in front of a letter that is no digit is not shorter than another one that stands there. -/
theorem IsExponent.length_le {es es' rest : List Char} (h : IsExponent es) (h' : IsExponent es')
    (hstop : ∀ c ∈ rest.head?, (es = [] → c ≠ 'e' ∧ c ≠ 'E') ∧ (es ≠ [] → ¬ c.isDigit = true))
    (hpre : es' <+: es ++ rest) : es'.length ≤ es.length := by
  cases h' with
  | none => exact Nat.zero_le _
  | sign e x gs he hx hgs =>
    cases h with
    | none =>
      obtain ⟨t, rfl⟩ := hpre
      have hne := (hstop e rfl).1 rfl
      exact absurd he (by simp only [hne.1, hne.2, or_self, not_false_iff])
    | sign e' x' gs' he' hx' hgs' =>
      have hgs_pre : gs ++ [] <+: gs' ++ rest := by
        rw [List.append_nil]
        exact (List.cons_prefix_cons.mp (List.cons_prefix_cons.mp hpre).2).2
      have hnil : ∀ c ∈ ([] : List Char).head?, ¬ c.isDigit = true := fun c hc => absurd hc (Option.not_mem_none c)
      have hle : gs.length ≤ gs'.length := by
        rcases prefix_split (fun c : Char => c.isDigit = true) hgs hnil hgs'
          (fun c hc => (hstop c hc).2 (List.cons_ne_nil _ _)) hgs_pre with ⟨-, hle⟩ | ⟨rfl, -⟩
        · exact hle
        · exact Nat.le_refl _
      simp only [List.length_cons]
      omega

theorem Taken.fraction_length_le {ds fs es rest fs' es' : List Char} (h : Taken ds fs es rest) (hfs : IsFraction fs')
    (hes : IsExponent es') (hpre : fs' ++ es' <+: fs ++ (es ++ rest)) : (fs' ++ es').length ≤ (fs ++ es).length := by
  have hexp : fs' = fs → es' <+: es ++ rest → (fs' ++ es').length ≤ (fs ++ es).length := by
    rintro rfl hes_pre
    have hle := h.exponent.length_le hes h.exponent_stops hes_pre
    simp only [List.length_append]
    omega
  cases hfs with
  | none =>
    cases hes with
    | none => exact Nat.zero_le _
    | sign e x gs he hx hgs =>
      refine hexp ?_ ?_
      · cases h.fraction with
        | none => rfl
        | dot gs' hgs' =>
          have hdot : e = '.' := (List.cons_prefix_cons.mp hpre).1
          rcases he with rfl | rfl <;> exact absurd hdot (by decide)
      · cases hf : h.fraction with
        | none => exact hpre
        | dot gs' hgs' =>
          have hdot : e = '.' := (List.cons_prefix_cons.mp hpre).1
          rcases he with rfl | rfl <;> exact absurd hdot (by decide)
  | dot gs hgs =>
    cases hf : h.fraction with
    | none =>
      obtain ⟨t, ht⟩ := hpre
      have hhead : '.' ∈ (es ++ rest).head? := by
        rw [List.nil_append] at ht
        rw [← ht]
        rfl
      exact absurd rfl ((h.fraction_stops '.' hhead).1 rfl)
    | dot gs' hgs' =>
      have hpre' : gs ++ es' <+: gs' ++ (es ++ rest) := (List.cons_prefix_cons.mp hpre).2
      rcases prefix_split (fun c : Char => c.isDigit = true) hgs hes.not_digit hgs'
        (fun c hc => (h.fraction_stops c hc).2 (List.cons_ne_nil _ _)) hpre' with ⟨rfl, hle⟩ | ⟨rfl, hes_pre⟩
      · simp only [List.append_nil, List.cons_append, List.length_cons, List.length_append]
        omega
      · exact hexp rfl hes_pre

/-- A number that stands at the same place is not longer. -/
theorem Taken.longest {ds fs es rest : List Char} (h : Taken ds fs es rest) :
    Longest IsNumber (ds ++ (fs ++ es)) (ds ++ (fs ++ (es ++ rest))) := by
  have happ : ds ++ (fs ++ (es ++ rest)) = ds ++ (fs ++ es) ++ rest := by simp only [List.append_assoc]
  refine ⟨happ ▸ List.prefix_append _ _, ⟨ds, fs, es, rfl, h.whole, h.fraction, h.exponent, h.nonempty, h.not_dot⟩, ?_⟩
  rintro v hv ⟨ds', fs', es', rfl, hds, hfs, hes, -, -⟩
  rcases prefix_split (fun c : Char => c.isDigit = true) hds (hfs.not_digit hes) h.whole h.whole_stops hv with
    ⟨hnil, hle⟩ | ⟨rfl, hpre⟩
  · rw [hnil, List.append_nil]
    simp only [List.length_append]
    omega
  · have hle : (fs' ++ es').length ≤ (fs ++ es).length := h.fraction_length_le hfs hes hpre
    simp only [List.length_append] at hle ⊢
    omega

theorem lexFraction_split (cs : List Char) : ∃ fs rest, cs = fs ++ rest ∧ IsFraction fs ∧
    (∀ c ∈ rest.head?, (fs = [] → c ≠ '.') ∧ (fs ≠ [] → ¬ c.isDigit = true)) ∧ lexFraction cs = fs.length := by
  by_cases hdot : cs.head? = some '.'
  · obtain ⟨t, rfl⟩ : ∃ t, cs = '.' :: t := List.head?_eq_some_iff.mp hdot
    obtain ⟨gs, rest, rfl, hgs, hstop, hlen⟩ := lexDigits_split t
    refine ⟨'.' :: gs, rest, rfl, .dot gs hgs, fun c hc => ⟨?_, fun _ => hstop c hc⟩, ?_⟩
    · exact fun h => absurd h (List.cons_ne_nil _ _)
    · rw [lexFraction, if_pos hdot, List.drop_one, List.tail_cons, hlen, List.length_cons, Nat.add_comm]
  · refine ⟨[], cs, rfl, .none, fun c hc => ⟨fun _ hc' => hdot ?_, fun h => absurd rfl h⟩, if_neg hdot⟩
    rw [Option.mem_def.mp hc, hc']

theorem lexExponent_split {e : Char} {cs : List Char} {n : Nat} {type : TokenType} (he : e = 'e' ∨ e = 'E')
    (h : lexExponent cs = (n, some (.ok type))) : type = .float ∧ ∃ es rest, cs = es ++ rest ∧
      IsExponent (e :: es) ∧ (∀ c ∈ rest.head?, ¬ c.isDigit = true) ∧ n = es.length := by
  cases cs with
  | nil => exact absurd (congrArg Prod.snd h) (by simp [lexExponent])
  | cons x cs =>
    rw [lexExponent] at h
    split at h
    · next hx =>
      obtain ⟨hn, ht⟩ := Prod.mk.inj h
      obtain ⟨gs, rest, rfl, hgs, hstop, hlen⟩ := lexDigits_split cs
      refine ⟨?_, x :: gs, rest, rfl, .sign e x gs he hx hgs, hstop, ?_⟩
      · exact (Except.ok.inj (Option.some.inj ht)).symm
      · rw [← hn, hlen, List.length_cons, Nat.add_comm]
    · exact absurd (congrArg Prod.snd h) (by simp)

/-- A number is the longest one that stands at its place. -/
theorem lexNumber_taken {cs : List Char} {n : Nat} {type : TokenType} (h : lexNumber cs = (n, some (.ok type))) :
    (type = .int ∨ type = .float) ∧ ∃ ds fs es rest, Taken ds fs es rest ∧ cs = ds ++ (fs ++ (es ++ rest)) ∧
      n = ds.length + fs.length + es.length := by
  rw [lexNumber] at h
  split at h
  · next hbegins =>
    obtain ⟨ds, cs₁, rfl, hds, hds_stop, hds_len⟩ := lexDigits_split cs
    obtain ⟨fs, cs₂, rfl, hfs, hfs_stop, hfs_len⟩ := lexFraction_split cs₁
    have hne : ds ++ fs ≠ [] := by
      intro hnil
      obtain ⟨rfl, rfl⟩ := List.append_eq_nil_iff.mp hnil
      rw [List.nil_append, List.nil_append, Option.any_eq_true] at hbegins
      obtain ⟨c, hc, hbegin⟩ := hbegins
      rcases of_decide_eq_true hbegin with hdigit | hdot
      · exact hds_stop c hc hdigit
      · exact (hfs_stop c hc).1 rfl hdot
    simp only [hds_len, List.drop_left, hfs_len] at h
    split at h
    · next hexp =>
      obtain ⟨e, cs₃, rfl, he⟩ : ∃ e cs₃, cs₂ = e :: cs₃ ∧ (e = 'e' ∨ e = 'E') := by
        rcases hexp with hexp | hexp
        · obtain ⟨t, rfl⟩ := List.head?_eq_some_iff.mp hexp
          exact ⟨'e', t, rfl, .inl rfl⟩
        · obtain ⟨t, rfl⟩ := List.head?_eq_some_iff.mp hexp
          exact ⟨'E', t, rfl, .inr rfl⟩
      obtain ⟨hn, ht⟩ := Prod.mk.inj h
      rw [List.drop_one, List.tail_cons] at hn ht
      have hread : lexExponent cs₃ = ((lexExponent cs₃).1, some (.ok type)) := Prod.ext rfl ht
      obtain ⟨rfl, es, rest, rfl, hes, hes_stop, hes_len⟩ := lexExponent_split he hread
      refine ⟨.inr rfl, ds, fs, e :: es, rest, ⟨hds, hfs, hes, hne, ?_, hds_stop, hfs_stop, fun c hc => ?_⟩, rfl, ?_⟩
      · intro hdot
        have hlen := congrArg List.length hdot
        have hpos : 0 < (ds ++ fs).length := List.length_pos_iff.mpr hne
        simp only [List.length_append, List.length_cons, List.length_nil] at hlen hpos
        omega
      · exact ⟨fun h => absurd h (List.cons_ne_nil _ _), fun _ => hes_stop c hc⟩
      · rw [← hn, hes_len, List.length_cons]
        omega
    · next hexp =>
      split at h
      · exact absurd (congrArg Prod.snd h) (by simp)
      · next hdot =>
        obtain ⟨hn, ht⟩ := Prod.mk.inj h
        refine ⟨?_, ds, fs, [], cs₂, ⟨hds, hfs, .none, hne, ?_, hds_stop, hfs_stop, fun c hc => ?_⟩, rfl, hn.symm⟩
        · rw [← Except.ok.inj (Option.some.inj ht)]
          split
          · exact .inl rfl
          · exact .inr rfl
        · intro hw
          rw [List.append_nil] at hw
          have hlen := congrArg List.length hw
          rw [List.length_append] at hlen
          refine hdot ⟨hlen, ?_⟩
          rw [← List.append_assoc, hw]
          rfl
        · refine ⟨fun _ => ⟨?_, ?_⟩, fun h => absurd rfl h⟩
          · rintro rfl
            exact hexp (.inl hc)
          · rintro rfl
            exact hexp (.inr hc)
  · exact absurd (congrArg Prod.snd h) (by simp)

theorem lexNumber_longest {cs : List Char} {n : Nat} {type : TokenType} (h : lexNumber cs = (n, some (.ok type))) :
    (type = .int ∨ type = .float) ∧ 0 < n ∧ n ≤ cs.length ∧ Longest IsNumber (cs.take n) cs := by
  obtain ⟨htype, ds, fs, es, rest, htaken, rfl, rfl⟩ := lexNumber_taken h
  have hlen : ds.length + fs.length + es.length = (ds ++ (fs ++ es)).length := by
    simp only [List.length_append, Nat.add_assoc]
  have happ : ds ++ (fs ++ (es ++ rest)) = ds ++ (fs ++ es) ++ rest := by simp only [List.append_assoc]
  refine ⟨htype, ?_, ?_, ?_⟩
  · have hpos : 0 < (ds ++ fs).length := List.length_pos_iff.mpr htaken.nonempty
    rw [List.length_append] at hpos
    omega
  · simp only [List.length_append]
    omega
  · rw [hlen]
    nth_rewrite 1 [happ]
    rw [List.take_left]
    exact htaken.longest

/-! ### Operators and identifiers -/

def symbols : List (List Char) :=
  punctuation.map (fun c => [c]) ++
    [['&'], ['&', '&'], ['|'], ['|', '|'], ['<'], ['<', '<'], ['<', '='], ['<', '>'], ['>'], ['>', '>'], ['>', '='],
      ['='], ['=', '='], ['!'], ['!', '!'], ['!', '=']]

def IsSymbol (w : List Char) : Prop := w ∈ symbols

/-- The second characters that make an operator longer. -/
def seconds (c : Char) : List Char :=
  if c ∈ ['&', '|'] then [c] else if c = '<' then ['<', '=', '>'] else if c ∈ ['>', '=', '!'] then [c, '='] else []

/-- The first characters of the operators that are no keywords. -/
def beginsSymbol (c : Char) : Bool := c ∈ punctuation ++ ['&', '|', '<', '>', '=', '!']

theorem symbols_shape : ∀ w ∈ symbols, ∃ c, beginsSymbol c = true ∧ (w = [c] ∨ ∃ d ∈ seconds c, w = [c, d]) := by
  have hall : symbols.all (fun w => w.head?.any (fun c =>
      beginsSymbol c && (w == [c] || (seconds c).any (fun d => w == [c, d])))) = true := by decide
  intro w hw
  obtain ⟨c, -, hc⟩ := (Option.any_eq_true _ _).mp (List.all_eq_true.mp hall w hw)
  rw [Bool.and_eq_true, Bool.or_eq_true, List.any_eq_true] at hc
  refine ⟨c, hc.1, hc.2.imp (fun h => eq_of_beq h) ?_⟩
  rintro ⟨d, hd, h⟩
  exact ⟨d, hd, eq_of_beq h⟩

theorem symbols_one : ∀ c ∈ punctuation ++ ['&', '|', '<', '>', '=', '!'], [c] ∈ symbols ∧ ∀ d ∈ seconds c, [c, d] ∈ symbols := by
  decide

/-- The operator is one character long, or two when the next character goes with the first one. -/
def symbolLength (c : Char) (cs : List Char) : Nat := if ∃ d ∈ cs.head?, d ∈ seconds c then 2 else 1

theorem symbolLength_le (c : Char) (cs : List Char) : 0 < symbolLength c cs ∧ symbolLength c cs ≤ (c :: cs).length := by
  rw [symbolLength, List.length_cons]
  split
  · next h =>
    obtain ⟨d, hd, -⟩ := h
    obtain ⟨t, rfl⟩ := List.head?_eq_some_iff.mp hd
    exact ⟨Nat.succ_pos 1, by rw [List.length_cons]; omega⟩
  · exact ⟨Nat.one_pos, by omega⟩

theorem symbol_longest {c : Char} {cs : List Char} (hc : beginsSymbol c = true) :
    Longest IsSymbol ((c :: cs).take (symbolLength c cs)) (c :: cs) := by
  obtain ⟨hone, htwo⟩ := symbols_one c (of_decide_eq_true hc)
  by_cases hnext : ∃ d ∈ cs.head?, d ∈ seconds c
  · obtain ⟨d, hd, hdc⟩ := hnext
    obtain ⟨t, rfl⟩ := List.head?_eq_some_iff.mp hd
    have hlen : symbolLength c (d :: t) = 2 := if_pos ⟨d, hd, hdc⟩
    rw [hlen]
    refine ⟨List.take_prefix _ _, htwo d hdc, fun v _ hv => ?_⟩
    obtain ⟨a, -, rfl | ⟨b, -, rfl⟩⟩ := symbols_shape v hv
    · exact Nat.le_succ 1
    · exact Nat.le_refl 2
  · have hlen : symbolLength c cs = 1 := if_neg hnext
    rw [hlen]
    refine ⟨List.take_prefix _ _, hone, fun v hpre hv => ?_⟩
    obtain ⟨a, -, rfl | ⟨b, hb, rfl⟩⟩ := symbols_shape v hv
    · exact Nat.le_refl 1
    · obtain ⟨t, ht⟩ := hpre
      obtain ⟨rfl, rfl⟩ := List.cons.inj ht
      exact absurd ⟨b, rfl, hb⟩ hnext

theorem lexOperator_symbol {c : Char} {cs : List Char} (hc : beginsSymbol c = true) :
    lexOperator (c :: cs) = (symbolLength c cs, some (.ok .operator)) := by
  have hmem : c ∈ punctuation ∨ c ∈ ['&', '|'] ∨ c ∈ ['<', '>', '=', '!'] := by
    have hall : ∀ c ∈ punctuation ++ ['&', '|', '<', '>', '=', '!'],
        c ∈ punctuation ∨ c ∈ ['&', '|'] ∨ c ∈ ['<', '>', '=', '!'] := by decide
    exact hall c (of_decide_eq_true hc)
  rw [lexOperator]
  rcases hmem with h | h | h
  · have hsec : ∀ c ∈ punctuation, seconds c = [] := by decide
    rw [if_pos h, symbolLength, hsec c h, if_neg (by simp)]
  · have hpunct : ∀ c ∈ ['&', '|'], c ∉ punctuation := by decide
    have hnext : (∃ d ∈ cs.head?, d ∈ seconds c) ↔ cs.head? = some c := by
      rw [seconds, if_pos h]
      simp only [List.mem_singleton, exists_eq_right, Option.mem_def]
    rw [if_neg (hpunct c h), if_pos h, symbolLength]
    simp only [hnext]
  · have hpunct : ∀ c ∈ ['<', '>', '=', '!'], c ∉ punctuation ∧ c ∉ ['&', '|'] := by decide
    have hsec : ∀ c ∈ ['<', '>', '=', '!'], ∀ d ∈ seconds c, d = c ∨ d = '=' ∨ (c = '<' ∧ d = '>') := by decide
    have hsec' : ∀ c ∈ ['<', '>', '=', '!'], c ∈ seconds c ∧ '=' ∈ seconds c ∧ (c = '<' → '>' ∈ seconds c) := by decide
    have hnext : (∃ d ∈ cs.head?, d ∈ seconds c) ↔
        (cs.head? = some c ∨ cs.head? = some '=' ∨ (c = '<' ∧ cs.head? = some '>')) := by
      constructor
      · rintro ⟨d, hd, hdc⟩
        rcases hsec c h d hdc with rfl | rfl | ⟨hlt, rfl⟩
        · exact .inl hd
        · exact .inr (.inl hd)
        · exact .inr (.inr ⟨hlt, hd⟩)
      · rintro (hd | hd | ⟨hlt, hd⟩)
        · exact ⟨c, hd, (hsec' c h).1⟩
        · exact ⟨'=', hd, (hsec' c h).2.1⟩
        · exact ⟨'>', hd, (hsec' c h).2.2 hlt⟩
    rw [if_neg (hpunct c h).1, if_neg (hpunct c h).2, if_pos h, symbolLength]
    simp only [hnext]

/-- A letter or an underscore, and letters and digits. -/
def IsIdentifier (w : List Char) : Prop := ∃ c cs, w = c :: cs ∧ beginsWord c = true ∧ ∀ d ∈ cs, d.isAlphanum = true

theorem IsIdentifier.begins {w : List Char} (h : IsIdentifier w) : ∃ c ∈ w.head?, beginsWord c = true := by
  obtain ⟨c, cs, rfl, hc, -⟩ := h
  exact ⟨c, rfl, hc⟩

def wordAt (c : Char) (cs : List Char) : List Char := c :: cs.takeWhile Char.isAlphanum

theorem wordAt_longest {c : Char} (hc : beginsWord c = true) (cs : List Char) :
    Longest IsIdentifier (wordAt c cs) (c :: cs) := by
  refine ⟨?_, ⟨c, _, rfl, hc, fun d hd => List.mem_takeWhile_imp hd⟩, ?_⟩
  · exact List.cons_prefix_cons.mpr ⟨rfl, List.takeWhile_prefix _⟩
  · rintro v hv ⟨a, as, rfl, -, has⟩
    obtain ⟨rfl, hpre⟩ := List.cons_prefix_cons.mp hv
    obtain ⟨t, rfl⟩ := hpre
    rw [wordAt, List.takeWhile_append_of_pos has]
    simp only [List.length_cons, List.length_append]
    omega

theorem lexIdentifier_word {c : Char} (hc : beginsWord c = true) (cs : List Char) :
    lexIdentifier (c :: cs) = ((wordAt c cs).length, some (.ok .identifier)) := by
  rw [lexIdentifier, if_pos hc, wordAt, List.length_cons, Nat.add_comm]

/-! ### Keywords -/

theorem isAlpha_of_toUpper {c : Char} (h : c.toUpper.isAlpha = true) : c.isAlpha = true := by
  by_contra hc
  have hlower : ¬ ('a'.val ≤ c.val ∧ c.val ≤ 'z'.val) := by
    intro hle
    exact hc (Library.isAlpha_iff.mpr (.inr (Library.isLower_iff.mpr hle)))
  rw [Library.toUpper_of_not_lower hlower] at h
  exact hc h

theorem keywords_alpha : ∀ k ∈ keywords, k ≠ [] ∧ ∀ c ∈ k, c.isAlpha = true := by decide

theorem keyword_upper : ∀ k ∈ keywords, k.map Char.toUpper = k := by decide

theorem keywords_distinct : ∀ k ∈ keywords, ∀ k' ∈ keywords, k'.head? = k.head? → k' = k := by decide

/-- The letters that make a keyword, in any case, are the first ones of a word. -/
theorem keyword_at {k : List Char} (hk : k ∈ keywords) {c : Char} {cs : List Char}
    (h : k <+: (c :: cs).map Char.toUpper) : beginsWord c = true ∧
      ((c :: cs).take k.length).map Char.toUpper = k ∧ (c :: cs).take k.length <+: wordAt c cs ∧
        IsIdentifier ((c :: cs).take k.length) := by
  obtain ⟨hne, halpha⟩ := keywords_alpha k hk
  have hupper : ((c :: cs).take k.length).map Char.toUpper = k := by
    rw [List.map_take]
    exact (List.prefix_iff_eq_take.mp h).symm
  have hletters : ∀ d ∈ (c :: cs).take k.length, d.isAlpha = true := by
    intro d hd
    refine isAlpha_of_toUpper (halpha d.toUpper ?_)
    rw [← hupper]
    exact List.mem_map_of_mem hd
  obtain ⟨n, hn⟩ : ∃ n, k.length = n + 1 := ⟨k.length - 1, by have := List.length_pos_iff.mpr hne; omega⟩
  rw [hn, List.take_succ_cons] at hletters hupper ⊢
  have hc : beginsWord c = true := by rw [beginsWord, hletters c List.mem_cons_self, Bool.or_true]
  have hid : IsIdentifier (c :: cs.take n) := by
    refine ⟨c, _, rfl, hc, fun d hd => ?_⟩
    rw [Char.isAlphanum, hletters d (List.mem_cons_of_mem c hd), Bool.true_or]
  have hpre : c :: cs.take n <+: c :: cs := List.cons_prefix_cons.mpr ⟨rfl, List.take_prefix _ _⟩
  have hlongest := wordAt_longest hc cs
  exact ⟨hc, hupper, List.prefix_of_prefix_length_le hpre hlongest.isPrefix (hlongest.longest _ hpre hid), hid⟩

theorem head?_of_begins {u v : List Char} (hu : u ≠ []) (h : u <+: v) : u.head? = v.head? := by
  obtain ⟨t, rfl⟩ := h
  cases u with
  | nil => exact absurd rfl hu
  | cons c u => rfl

/-- The first keyword that is found is the one that is there. -/
theorem findSome_keyword {k : List Char} (hk : k ∈ keywords) {cs : List Char} (h : k <+: cs.map Char.toUpper) :
    keywords.findSome? (lexOperatorKeyword cs) = some k.length := by
  cases hfind : keywords.findSome? (lexOperatorKeyword cs) with
  | none =>
    have hnone := List.findSome?_eq_none_iff.mp hfind k hk
    rw [lexOperatorKeyword, if_pos h] at hnone
    exact absurd hnone (Option.some_ne_none _)
  | some n =>
    obtain ⟨k', hk', hn⟩ := List.exists_of_findSome?_eq_some hfind
    rw [lexOperatorKeyword] at hn
    split at hn
    · next h' =>
      have hhead : k'.head? = k.head? :=
        (head?_of_begins (keywords_alpha k' hk').1 h').trans (head?_of_begins (keywords_alpha k hk).1 h).symm
      rw [keywords_distinct k hk k' hk' hhead] at hn
      exact hn.symm
    · exact absurd hn.symm (Option.some_ne_none _)

theorem findSome_keyword_none {cs : List Char} (h : ∀ k ∈ keywords, ¬ k <+: cs.map Char.toUpper) :
    keywords.findSome? (lexOperatorKeyword cs) = none :=
  List.findSome?_eq_none_iff.mpr (fun k hk => if_neg (h k hk))

/-! ### The first character -/

theorem not_beginsWord_of_isDigit {c : Char} (h : c.isDigit = true) : beginsWord c = false := by
  have hrange : 48 ≤ c.toNat ∧ c.toNat ≤ 57 := by
    simpa [Char.isDigit, UInt32.le_iff_toNat_le] using h
  rw [Bool.eq_false_iff]
  intro hw
  rw [beginsWord, Bool.or_eq_true] at hw
  rcases hw with hw | hw
  · rw [of_decide_eq_true hw] at hrange
    exact absurd hrange (by decide)
  · have hletter : 65 ≤ c.toNat ∧ c.toNat ≤ 90 ∨ 97 ≤ c.toNat ∧ c.toNat ≤ 122 := by
      simpa [Library.isAlpha_iff, Library.isUpper_iff, Library.isLower_iff, UInt32.le_iff_toNat_le] using hw
    omega

theorem not_beginsWord_of_mem : ∀ c ∈ '.' :: '\'' :: '"' :: (punctuation ++ ['&', '|', '<', '>', '=', '!']),
    beginsWord c = false := by decide

end RaleighSL.Zcl.Evaluator
