import RaleighSL.Client.Rql.Grammar

/-!
# Parentheses in what the parser reads

The parser takes a string for a parenthesis when it has its text. What it reads holds at least as
many opening as closing parentheses, and holds more when it has taken a string for the closing
one of a call. It never gives the string of an opening parenthesis as a constant.
-/
namespace RaleighSL.Client.Rql

variable {ν φ : Type}

/-! ### Results that are ensured -/

/-- What a function gives, when it gives a result. -/
def Ensures {α : Type} (x : Outcome ν α) (P : α → Prop) : Prop := ∀ a, x = pure a → P a

section

variable {α β : Type} {P : α → Prop} {Q : β → Prop}

theorem ensures_none : Ensures (none : Outcome ν α) P := fun _ h => by cases h

theorem ensures_throw (err : SyntaxError ν) : Ensures (throw err : Outcome ν α) P := fun _ h => by cases h

theorem Ensures.of_pure {a : α} (h : P a) : Ensures (pure a : Outcome ν α) P := by
  intro b hb
  cases hb
  exact h

theorem Ensures.bind {x : Outcome ν α} {f : α → Outcome ν β} (hx : Ensures x P) (hf : ∀ a, P a → Ensures (f a) Q) :
    Ensures (x >>= f) Q := by
  intro b hb
  rcases x with _ | err | a
  · cases hb
  · cases hb
  · exact hf a (hx a rfl) b hb

theorem Ensures.of_returns {f : Nat → Outcome ν α} (h : ∀ n, Ensures (f n) P) {a : α} (ha : Returns f a) : P a := by
  obtain ⟨N, hN⟩ := ha
  exact h N a (hN N (Nat.le_refl N))

end

/-- What comes behind a word that is expected. -/
theorem ensures_expectSeq (text : String) (ts : List (Token ν)) :
    Ensures (expectSeq [some text] ts) (fun us => ∃ t, ts = t :: us ∧ t.text = text) := by
  cases ts with
  | nil => exact ensures_throw _
  | cons t ts =>
    by_cases h : t.text = text
    · rw [expectSeq_text text h]
      exact Ensures.of_pure ⟨t, rfl, h⟩
    · rw [expectSeq, matchSeq_other t.text h rfl]
      exact ensures_throw _

theorem eq_cons_of_matchSeq {text : String} {utokens : List (Option String)} {ts us : List (Token ν)}
    (h : matchSeq (some text :: utokens) ts = some us) :
    ∃ t ts', ts = t :: ts' ∧ t.text = text ∧ matchSeq utokens ts' = some us := by
  cases ts with
  | nil => cases h
  | cons t ts =>
    rw [matchSeq_cons] at h
    split at h
    next ht => exact ⟨t, ts, rfl, ht, h⟩
    next => cases h

/-! ### The balance of the parentheses -/

def Token.isDot : Token ν → Bool
  | .punctuation s => s == "."
  | _ => false

def Token.closes : Token ν → Bool
  | .punctuation s => s == ")"
  | _ => false

/-- Tokens of the text of an opening parenthesis count, and closing parentheses that are no strings. -/
def Token.weight (t : Token ν) : Int := if t.text = "(" then 1 else if t.closes then -1 else 0

/-- The parentheses that stay open. The token behind a dot does not count. -/
def balance : List (Token ν) → Int
  | [] => 0
  | [t] => if t.isDot then 0 else t.weight
  | t :: u :: us => if t.isDot then balance us else t.weight + balance (u :: us)

/-- A call whose arguments begin with the string of a closing parenthesis. -/
def Token.isTrap (t : Token ν) (ts : List (Token ν)) : Bool :=
  match t, ts with
  | .identifier name, .punctuation open' :: .string close :: _ => name ∉ grammarWords ∧ open' = "(" ∧ close = ")"
  | _, _ => false

/-- The calls whose arguments begin with the string of a closing parenthesis. -/
def traps : List (Token ν) → Nat
  | [] => 0
  | t :: ts => (if t.isTrap ts then 1 else 0) + traps ts

def Opens (ts : List (Token ν)) : Prop := ∃ t us, ts = t :: us ∧ t.text = "("

/-- What is read from some tokens on has no more closing than opening parentheses. If it has as many, there is no such
call in it, unless an opening parenthesis comes behind it. -/
structure Read (ts rest : List (Token ν)) : Prop where
  le : balance rest ≤ balance ts
  traps : balance ts = balance rest → traps ts = traps rest ∨ Opens rest

/-- What is read behind an operand, which is nothing in front of an opening parenthesis. -/
structure Kept (ts rest : List (Token ν)) : Prop extends Read ts rest where
  opens : Opens ts → rest = ts

theorem Read.refl (ts : List (Token ν)) : Read ts ts := ⟨Int.le_refl _, fun _ => .inl rfl⟩

theorem Kept.refl (ts : List (Token ν)) : Kept ts ts := ⟨Read.refl ts, fun _ => rfl⟩

theorem Read.kept {ts mid rest : List (Token ν)} (h : Read ts mid) (hkept : Kept mid rest) : Read ts rest where
  le := Int.le_trans hkept.le h.le
  traps := by
    intro heq
    have hle := h.le
    have hle' := hkept.le
    obtain htraps | hopens := h.traps (by omega)
    · rw [htraps]
      exact hkept.traps (by omega)
    · rw [hkept.opens hopens]
      exact .inr hopens

theorem Kept.trans {ts mid rest : List (Token ν)} (h : Kept ts mid) (hkept : Kept mid rest) : Kept ts rest where
  toRead := h.toRead.kept hkept
  opens := by
    intro hopens
    obtain rfl := h.opens hopens
    exact hkept.opens hopens

structure Neutral (t : Token ν) (ts : List (Token ν)) : Prop where
  text : t.text ≠ "("
  balance : balance (t :: ts) = balance ts
  traps : Rql.traps (t :: ts) = Rql.traps ts

theorem Neutral.read {t : Token ν} {ts rest : List (Token ν)} (h : Neutral t ts) (hread : Read ts rest) :
    Read (t :: ts) rest where
  le := h.balance ▸ hread.le
  traps := by
    rw [h.balance, h.traps]
    exact hread.traps

theorem Neutral.kept {t : Token ν} {ts rest : List (Token ν)} (h : Neutral t ts) (hread : Read ts rest) :
    Kept (t :: ts) rest where
  toRead := h.read hread
  opens := by
    rintro ⟨u, us, heq, hu⟩
    obtain ⟨rfl, -⟩ := List.cons.inj heq
    exact absurd hu h.text

/-- A token that does not count between two parts. -/
theorem Read.between {ts us rest : List (Token ν)} {t : Token ν} (h : Read ts (t :: us)) (ht : Neutral t us)
    (hread : Read us rest) : Read ts rest := h.kept (ht.kept hread)

theorem isDot_of_text {t : Token ν} (h : t.text ≠ ".") : t.isDot = false := by
  cases t with
  | punctuation s => exact beq_eq_false_iff_ne.mpr h
  | _ => rfl

theorem balance_cons {t : Token ν} (h : t.isDot = false) (ts : List (Token ν)) :
    balance (t :: ts) = t.weight + balance ts := by
  have hdot : ¬ t.isDot = true := by rw [h]; decide
  cases ts with
  | nil => exact (if_neg hdot).trans (Int.add_zero _).symm
  | cons u us => exact if_neg hdot

theorem isTrap_of_word {t : Token ν} (h : t.text ∈ grammarWords) (ts : List (Token ν)) : t.isTrap ts = false := by
  unfold Token.isTrap
  split
  next name open' close us =>
    have hname : name ∈ grammarWords := h
    simp [hname]
  next => rfl

theorem traps_cons {t : Token ν} {ts : List (Token ν)} (h : t.isTrap ts = false) : traps (t :: ts) = traps ts := by
  rw [traps, h]
  exact Nat.zero_add _

theorem text_of_closes {t : Token ν} (h : t.closes = true) : t.text = ")" := by
  cases t with
  | punctuation s => exact eq_of_beq h
  | _ => cases h

theorem weight_of_text {t : Token ν} (hopen : t.text ≠ "(") (hclose : t.text ≠ ")") : t.weight = 0 := by
  have hcloses : ¬ t.closes = true := fun h => hclose (text_of_closes h)
  rw [Token.weight, if_neg hopen, if_neg hcloses]

/-- A word of the grammar that is no parenthesis and no dot does not count. -/
theorem neutral_of_word {t : Token ν} (h : t.text ∈ grammarWords)
    (hne : t.text ≠ "(" ∧ t.text ≠ ")" ∧ t.text ≠ ".") (ts : List (Token ν)) : Neutral t ts where
  text := hne.1
  balance := by rw [balance_cons (isDot_of_text hne.2.2), weight_of_text hne.1 hne.2.1, Int.zero_add]
  traps := traps_cons (isTrap_of_word h ts)

theorem neutral_of_text (text : String) (h : text ∈ grammarWords) (hne : text ≠ "(" ∧ text ≠ ")" ∧ text ≠ ".")
    {t : Token ν} (ht : t.text = text) (ts : List (Token ν)) : Neutral t ts :=
  neutral_of_word (ht ▸ h) (ht ▸ hne) ts

/-- A constant that is no parenthesis does not count. -/
theorem neutral_of_constant {t : Token ν} (h : t.text ≠ "(")
    (ht : ∀ s, t ≠ .identifier s ∧ t ≠ .punctuation s ∧ t ≠ .operator s) (ts : List (Token ν)) : Neutral t ts := by
  cases t with
  | identifier s => exact absurd rfl (ht s).1
  | punctuation s => exact absurd rfl (ht s).2.1
  | operator s => exact absurd rfl (ht s).2.2
  | _ =>
    refine ⟨h, ?_, traps_cons rfl⟩
    rw [balance_cons rfl, Token.weight, if_neg h]
    exact Int.zero_add _

theorem balance_open {t : Token ν} (h : t.text = "(") (ts : List (Token ν)) : balance (t :: ts) = 1 + balance ts := by
  rw [balance_cons (isDot_of_text (h ▸ by decide)), Token.weight, if_pos h]

theorem weight_closing {t : Token ν} (h : t.text = ")") : t.weight = if t.closes then -1 else 0 :=
  if_neg (h ▸ by decide)

theorem balance_closing {t : Token ν} (h : t.text = ")") (ts : List (Token ν)) :
    balance (t :: ts) = t.weight + balance ts := balance_cons (isDot_of_text (h ▸ by decide)) ts

theorem traps_word {t : Token ν} {text : String} (h : t.text = text) (hword : text ∈ grammarWords) (ts : List (Token ν)) :
    traps (t :: ts) = traps ts := traps_cons (isTrap_of_word (h ▸ hword) ts)

theorem Read.enclosed {t u : Token ν} {ts us : List (Token ν)} (h : Read ts (u :: us)) (ht : t.text = "(")
    (hu : u.text = ")") : Read (t :: ts) us := by
  have hle := h.le
  have hweight := weight_closing hu
  rw [balance_closing hu] at hle
  refine ⟨?_, fun heq => .inl ?_⟩
  · rw [balance_open ht]
    split at hweight <;> omega
  · rw [balance_open ht] at heq
    have hequal : balance ts = balance (u :: us) := by
      rw [balance_closing hu]
      split at hweight <;> omega
    rw [traps_word ht (by decide), ← traps_word hu (by decide) us]
    obtain htraps | ⟨v, vs, heq', hv⟩ := h.traps hequal
    · exact htraps
    · obtain ⟨rfl, -⟩ := List.cons.inj heq'
      rw [hu] at hv
      exact absurd hv (by decide)

theorem weight_identifier_nonneg (name : String) : 0 ≤ (Token.identifier name : Token ν).weight := by
  unfold Token.weight
  split
  · decide
  · exact Int.le_refl 0

/-- The name of a call that is not taken for one without arguments. -/
theorem Read.call {name : String} {ts rest : List (Token ν)} (h : Read ts rest)
    (htrap : (Token.identifier name).isTrap ts = false) : Read (.identifier name :: ts) rest := by
  have hle := h.le
  have hweight := weight_identifier_nonneg (ν := ν) name
  have hbalance : balance (.identifier name :: ts) = (Token.identifier name : Token ν).weight + balance ts :=
    balance_cons rfl ts
  refine ⟨by omega, fun heq => ?_⟩
  rw [traps_cons htrap]
  exact h.traps (by omega)

/-- A call without arguments. When it ends with a string, it has an opening parenthesis more. -/
theorem read_emptyCall (name : String) {t u : Token ν} (ht : t.text = "(") (hu : u.text = ")") (ts : List (Token ν)) :
    Read (.identifier name :: t :: u :: ts) ts := by
  cases hcloses : u.closes with
  | true =>
    refine ((Read.refl (u :: ts)).enclosed ht hu).call ?_
    unfold Token.isTrap
    split
    next heq =>
      obtain ⟨-, heq⟩ := List.cons.inj heq
      obtain ⟨rfl, -⟩ := List.cons.inj heq
      cases hcloses
    next => rfl
  | false =>
    have hweight := weight_identifier_nonneg (ν := ν) name
    have hlt : balance ts < balance (.identifier name :: t :: u :: ts) := by
      rw [balance_cons rfl, balance_open ht, balance_closing hu, weight_closing hu, hcloses, if_neg Bool.false_ne_true]
      omega
    exact ⟨Int.le_of_lt hlt, fun heq => absurd heq (Int.ne_of_gt hlt)⟩

/-! ### Names -/

/-- A token that is a string or an identifier. -/
def Token.IsName (t : Token ν) : Prop := ∃ s, t = .string s ∨ t = .identifier s

theorem Token.IsName.isDot {t : Token ν} (h : t.IsName) : t.isDot = false := by
  obtain ⟨s, rfl | rfl⟩ := h <;> rfl

theorem Token.IsName.weight_nonneg {t : Token ν} (h : t.IsName) : 0 ≤ t.weight := by
  have hcloses : ¬ t.closes = true := by
    obtain ⟨s, rfl | rfl⟩ := h <;> exact Bool.false_ne_true
  rw [Token.weight, if_neg hcloses]
  split <;> decide

theorem Token.IsName.traps {t : Token ν} (ts : List (Token ν)) : traps (t :: ts) = traps ts ∨ Opens ts := by
  cases htrap : t.isTrap ts with
  | false => exact .inl (traps_cons htrap)
  | true =>
    unfold Token.isTrap at htrap
    split at htrap
    next name open' close us => exact .inr ⟨_, _, rfl, (of_decide_eq_true htrap).2.1⟩
    next => cases htrap

theorem Kept.name {t : Token ν} (ht : t.IsName) {ts rest : List (Token ν)} (h : Kept ts rest) : Read (t :: ts) rest where
  le := by
    have hle := h.le
    have hweight := ht.weight_nonneg
    rw [balance_cons ht.isDot]
    omega
  traps := by
    intro heq
    have hle := h.le
    have hweight := ht.weight_nonneg
    rw [balance_cons ht.isDot] at heq
    obtain htraps | hopens := Token.IsName.traps (t := t) ts
    · rw [htraps]
      exact h.traps (by omega)
    · rw [h.opens hopens]
      exact .inr hopens

theorem Kept.dot {t u : Token ν} (ht : t.text = ".") (hu : u.IsName) {ts rest : List (Token ν)} (h : Kept ts rest) :
    Kept (t :: u :: ts) rest := by
  have hle := h.le
  have hweight := hu.weight_nonneg
  have htraps : traps (t :: u :: ts) = traps (u :: ts) := traps_cons (isTrap_of_word (ht ▸ by decide) _)
  have hbalance : balance ts ≤ balance (t :: u :: ts) := by
    by_cases hdot : t.isDot = true
    · exact Int.le_of_eq (if_pos hdot).symm
    · rw [balance_cons (Bool.eq_false_iff.mpr hdot), balance_cons hu.isDot,
        weight_of_text (ht ▸ by decide) (ht ▸ by decide)]
      omega
  refine ⟨⟨by omega, fun heq => ?_⟩, ?_⟩
  · rw [htraps]
    obtain htrapsU | hopens := Token.IsName.traps (t := u) ts
    · rw [htrapsU]
      exact h.traps (by omega)
    · rw [h.opens hopens]
      exact .inr hopens
  · rintro ⟨v, vs, heq, hv⟩
    obtain ⟨rfl, -⟩ := List.cons.inj heq
    rw [ht] at hv
    exact absurd hv (by decide)

theorem ensures_expectStringOrIdentifier (ts : List (Token ν)) :
    Ensures (expectStringOrIdentifier ts) (fun r => ∃ t, ts = t :: r.2 ∧ t.IsName) := by
  unfold expectStringOrIdentifier
  split
  next s ts => exact Ensures.of_pure ⟨_, rfl, s, .inl rfl⟩
  next s ts => exact Ensures.of_pure ⟨_, rfl, s, .inr rfl⟩
  next => exact ensures_throw _

theorem ensures_parseDotList (n : Nat) (ts : List (Token ν)) :
    Ensures (parseDotList n ts) (fun r => ∃ t us, ts = t :: us ∧ t.IsName ∧ Kept us r.2) := by
  induction n generalizing ts with
  | zero => exact ensures_none
  | succ n ih =>
    rw [parseDotList]
    refine (ensures_expectStringOrIdentifier ts).bind ?_
    rintro ⟨item, us⟩ ⟨t, rfl, ht⟩
    dsimp only
    split
    · exact ensures_throw _
    · cases hmatch : matchSeq [some "."] us with
      | none => exact Ensures.of_pure ⟨t, us, rfl, ht, Kept.refl us⟩
      | some vs =>
        obtain ⟨u, us', rfl, hu, hvs⟩ := eq_cons_of_matchSeq hmatch
        obtain rfl := Option.some.inj hvs
        refine (ih us').bind ?_
        rintro ⟨items, rest⟩ ⟨v, vs, rfl, hv, hkept⟩
        exact Ensures.of_pure ⟨t, _, rfl, ht, hkept.dot hu hv⟩

/-! ### Constants -/

inductive Contains (s : String) : Expr φ → Prop where
  | string : Contains s (.string s)
  | argument {name : String} {args : List (Expr φ)} {e : Expr φ} (he : e ∈ args) (h : Contains s e) :
    Contains s (.call name args)
  | unary {op : String} {e : Expr φ} (h : Contains s e) : Contains s (.unary op e)
  | left {op : String} {l r : Expr φ} (h : Contains s l) : Contains s (.binary op l r)
  | right {op : String} {l r : Expr φ} (h : Contains s r) : Contains s (.binary op l r)
  | assignment {name : String} {e : Expr φ} (h : Contains s e) : Contains s (.assignment name e)

def Expr.Plain (e : Expr φ) : Prop := ¬ Contains "(" e

theorem Expr.Plain.unary {e : Expr φ} (h : e.Plain) (op : String) : (Expr.unary op e).Plain := by
  rintro (_ | _ | h')
  exact h h'

theorem Expr.Plain.binary {l r : Expr φ} (hl : l.Plain) (hr : r.Plain) (op : String) : (Expr.binary op l r).Plain := by
  rintro (_ | _ | _ | h | h)
  · exact hl h
  · exact hr h

theorem Expr.Plain.assignment {e : Expr φ} (h : e.Plain) (name : String) : (Expr.assignment name e).Plain := by
  intro hc
  cases hc with
  | assignment h' => exact h h'

theorem Expr.Plain.call {args : List (Expr φ)} (h : ∀ e ∈ args, e.Plain) (name : String) : (Expr.call name args).Plain := by
  intro hc
  cases hc with
  | argument he h' => exact h _ he h'

theorem Expr.Plain.between {e low high : Expr φ} (he : e.Plain) (hlow : low.Plain) (hhigh : high.Plain) :
    (betweenExpr e low high).Plain := (he.binary hlow _).binary (he.binary hhigh _) _

/-! ### Operators -/

theorem Table.Has.word {table : Table} {op : String} (h : table.Has op) :
    op ∈ grammarWords ∧ op ≠ "(" ∧ op ≠ ")" ∧ op ≠ "." := by
  have hall : ∀ op ∈ table.operators.flatten, op ∈ grammarWords ∧ op ≠ "(" ∧ op ≠ ")" ∧ op ≠ "." := by
    cases table <;> decide
  exact hall op h.mem

theorem neutral_of_precedence {table : Table} {t : Token ν} (h : 0 ≤ getBinaryPrecedence table.operators (some t))
    (ts : List (Token ν)) : Neutral t ts := by
  have hhas : table.Has t.text := by
    by_contra hnot
    exact absurd (Int.le_trans h (Int.le_of_eq (if_neg hnot))) (by decide)
  exact neutral_of_word hhas.word.1 hhas.word.2 ts

theorem eq_cons_of_matchOperator {utokens : List String} {ts us : List (Token ν)} {op : String}
    (h : matchOperator utokens ts = some (op, us)) : ∃ t, ts = t :: us ∧ t.text ∈ utokens := by
  cases ts with
  | nil => cases h
  | cons t ts =>
    rw [matchOperator] at h
    split at h
    next hop =>
      obtain ⟨-, rfl⟩ := Prod.mk.inj (Option.some.inj h)
      exact ⟨t, rfl, hop.2⟩
    next => cases h

/-! ### The parser -/

variable (float : ν → Option φ)

/-- What is read from some tokens on as an operand. -/
def ReadsOperand (x : Outcome ν (Expr φ × List (Token ν))) (ts : List (Token ν)) : Prop :=
  Ensures x (fun r => r.1.Plain ∧ Read ts r.2)

def ReadsBehind (x : Outcome ν (Expr φ × List (Token ν))) (ts : List (Token ν)) : Prop :=
  Ensures x (fun r => r.1.Plain ∧ Kept ts r.2)

/-- What the functions of the parser read with a bound on the depth. -/
structure Reads (n : Nat) : Prop where
  functionCall : ∀ name ts, ReadsOperand (parseFunctionCall float n (.identifier name :: ts)) (.identifier name :: ts)
  commaList : ∀ ts, Ensures (parseCommaList float n ts) (fun r => (∀ e ∈ r.1, e.Plain) ∧ Read ts r.2)
  primary : ∀ ts, ReadsOperand (parsePrimary float n ts) ts
  suffix : ∀ e ts, e.Plain → ReadsBehind (parseSuffix float n e ts) ts
  unary : ∀ ts, ReadsOperand (parseUnary float n ts) ts
  between : ∀ e ts, e.Plain → ReadsOperand (parseBetween float n e ts) ts
  binary : ∀ (table : Table) e min ts, e.Plain → 0 ≤ min →
    ReadsBehind (parseBinary float n table.operators e min ts) ts
  right : ∀ (table : Table) e min ts, e.Plain → 0 ≤ min →
    ReadsBehind (parseRight float n table.operators e min ts) ts
  expression : ∀ ts, ReadsOperand (parseExpression float n ts) ts
  assignment : ∀ ts, ReadsOperand (parseAssignment float n ts) ts

namespace Reads

variable {float} {n : Nat}

theorem ensures_parseIdentifier (n : Nat) (ts : List (Token ν)) :
    ReadsOperand (parseIdentifier (φ := φ) n ts) ts := by
  refine (ensures_parseDotList n ts).bind ?_
  rintro ⟨items, us⟩ ⟨t, vs, rfl, ht, hkept⟩
  exact Ensures.of_pure ⟨by rintro ⟨⟩, hkept.name ht⟩

theorem zero : Reads float 0 where
  functionCall _ _ := ensures_none
  commaList _ := ensures_none
  primary _ := ensures_none
  suffix _ _ _ := ensures_none
  unary _ := ensures_none
  between _ _ _ := ensures_none
  binary _ _ _ _ _ _ := ensures_none
  right _ _ _ _ _ _ := ensures_none
  expression _ := ensures_none
  assignment _ := ensures_none

theorem commaList_succ (h : Reads float n) (ts : List (Token ν)) :
    Ensures (parseCommaList float (n + 1) ts) (fun r => (∀ e ∈ r.1, e.Plain) ∧ Read ts r.2) := by
  rw [parseCommaList]
  refine (h.expression ts).bind ?_
  rintro ⟨item, us⟩ ⟨hitem, hread⟩
  dsimp only at hitem hread ⊢
  cases hmatch : matchSeq [some ","] us with
  | none => exact Ensures.of_pure ⟨by simpa using hitem, hread⟩
  | some vs =>
    obtain ⟨t, vs, rfl, ht, hvs⟩ := eq_cons_of_matchSeq hmatch
    obtain rfl := Option.some.inj hvs
    refine (h.commaList vs).bind ?_
    rintro ⟨items, rest⟩ ⟨hitems, hrest⟩
    exact Ensures.of_pure ⟨List.forall_mem_cons.mpr ⟨hitem, hitems⟩,
      hread.between (neutral_of_text "," (by decide) (by decide) ht vs) hrest⟩

theorem between_succ (h : Reads float n) {e : Expr φ} (he : e.Plain) (ts : List (Token ν)) :
    ReadsOperand (parseBetween float (n + 1) e ts) ts := by
  rw [parseBetween]
  refine (h.expression ts).bind ?_
  rintro ⟨low, us⟩ ⟨hlow, hread⟩
  refine (ensures_expectSeq "AND" us).bind ?_
  rintro vs ⟨t, rfl, ht⟩
  refine (h.expression vs).bind ?_
  rintro ⟨high, rest⟩ ⟨-, hrest⟩
  exact Ensures.of_pure ⟨he.between hlow hlow,
    hread.between (neutral_of_text "AND" (by decide) (by decide) ht vs) hrest⟩

theorem suffix_succ (h : Reads float n) {e : Expr φ} (he : e.Plain) (ts : List (Token ν)) :
    ReadsBehind (parseSuffix float (n + 1) e ts) ts := by
  rw [parseSuffix]
  cases hmatch : matchSeq [some "BETWEEN"] ts with
  | some us =>
    obtain ⟨t, us, rfl, ht, hus⟩ := eq_cons_of_matchSeq hmatch
    obtain rfl := Option.some.inj hus
    intro r hr
    obtain ⟨hplain, hread⟩ := h.between e us he r hr
    exact ⟨hplain, (neutral_of_text "BETWEEN" (by decide) (by decide) ht us).kept hread⟩
  | none =>
    dsimp only
    cases hnot : matchSeq [some "NOT", some "BETWEEN"] ts with
    | none => exact Ensures.of_pure ⟨he, Kept.refl ts⟩
    | some us =>
      obtain ⟨t, us', rfl, ht, hus'⟩ := eq_cons_of_matchSeq hnot
      obtain ⟨u, us, rfl, hu, hus⟩ := eq_cons_of_matchSeq hus'
      obtain rfl := Option.some.inj hus
      refine (h.between e us he).bind ?_
      rintro ⟨e', rest⟩ ⟨hplain, hread⟩
      exact Ensures.of_pure ⟨hplain.unary _, (neutral_of_text "NOT" (by decide) (by decide) ht _).kept
        ((neutral_of_text "BETWEEN" (by decide) (by decide) hu us).read hread)⟩

theorem unary_succ (h : Reads float n) (ts : List (Token ν)) : ReadsOperand (parseUnary float (n + 1) ts) ts := by
  rw [parseUnary]
  cases hmatch : matchOperator ["-", "+", "~", "NOT"] ts with
  | none => exact h.primary ts
  | some r =>
    obtain ⟨op, us⟩ := r
    obtain ⟨t, rfl, ht⟩ := eq_cons_of_matchOperator hmatch
    have hword : t.text ∈ grammarWords ∧ t.text ≠ "(" ∧ t.text ≠ ")" ∧ t.text ≠ "." := by
      have hall : ∀ op ∈ unaryOperators, op ∈ grammarWords ∧ op ≠ "(" ∧ op ≠ ")" ∧ op ≠ "." := by decide
      exact hall t.text ht
    refine (h.unary us).bind ?_
    rintro ⟨e, rest⟩ ⟨hplain, hread⟩
    exact Ensures.of_pure ⟨hplain.unary _, (neutral_of_word hword.1 hword.2 us).read hread⟩

theorem binary_succ (h : Reads float n) (table : Table) {lhs : Expr φ} {min : Int} (ts : List (Token ν))
    (hlhs : lhs.Plain) (hmin : 0 ≤ min) : ReadsBehind (parseBinary float (n + 1) table.operators lhs min ts) ts := by
  cases ts with
  | nil => exact Ensures.of_pure ⟨hlhs, Kept.refl []⟩
  | cons operation ts =>
    rw [parseBinary]
    split
    next hprec =>
      refine (h.unary ts).bind ?_
      rintro ⟨operand, us⟩ ⟨hoperand, hread⟩
      refine (h.right table operand min us hoperand hmin).bind ?_
      rintro ⟨rhs, vs⟩ ⟨hrhs, hkept⟩
      intro r hr
      obtain ⟨hplain, hrest⟩ := h.binary table _ min vs (hlhs.binary hrhs _) hmin r hr
      exact ⟨hplain, (neutral_of_precedence (Int.le_trans hmin hprec) ts).kept (hread.kept (hkept.trans hrest))⟩
    next => exact Ensures.of_pure ⟨hlhs, Kept.refl _⟩

theorem right_succ (h : Reads float n) (table : Table) {rhs : Expr φ} {min : Int} (ts : List (Token ν))
    (hrhs : rhs.Plain) (hmin : 0 ≤ min) : ReadsBehind (parseRight float (n + 1) table.operators rhs min ts) ts := by
  rw [parseRight]
  dsimp only
  split
  next hlt =>
    have hprec := Int.le_trans hmin (Int.le_of_lt hlt)
    refine (h.binary table rhs _ ts hrhs hprec).bind ?_
    rintro ⟨e, us⟩ ⟨hplain, hkept⟩
    intro r hr
    obtain ⟨hplain', hkept'⟩ := h.right table e _ us hplain hprec r hr
    exact ⟨hplain', hkept.trans hkept'⟩
  next => exact Ensures.of_pure ⟨hrhs, Kept.refl ts⟩

theorem expression_succ (h : Reads float n) (ts : List (Token ν)) :
    ReadsOperand (parseExpression float (n + 1) ts) ts := by
  rw [parseExpression]
  refine (h.unary ts).bind ?_
  rintro ⟨lhs, us⟩ ⟨hlhs, hread⟩
  intro r hr
  obtain ⟨hplain, hkept⟩ := h.binary .expression lhs 0 us hlhs (Int.le_refl 0) r hr
  exact ⟨hplain, hread.kept hkept⟩

theorem assignment_succ (h : Reads float n) (ts : List (Token ν)) :
    ReadsOperand (parseAssignment float (n + 1) ts) ts := by
  rw [parseAssignment]
  refine (h.unary ts).bind ?_
  rintro ⟨lhs, us⟩ ⟨hlhs, hread⟩
  refine (h.binary .predicate lhs 0 us hlhs (Int.le_refl 0)).bind ?_
  rintro ⟨e, vs⟩ ⟨he, hkept⟩
  have hvs : Read ts vs := hread.kept hkept
  cases e with
  | identifier name =>
    dsimp only
    cases hmatch : matchSeq [some "="] vs with
    | none => exact Ensures.of_pure ⟨he, hvs⟩
    | some ws =>
      obtain ⟨t, ws, rfl, ht, hws⟩ := eq_cons_of_matchSeq hmatch
      obtain rfl := Option.some.inj hws
      refine (h.assignment ws).bind ?_
      rintro ⟨value, rest⟩ ⟨hvalue, hrest⟩
      exact Ensures.of_pure ⟨hvalue.assignment _,
        hvs.between (neutral_of_text "=" (by decide) (by decide) ht ws) hrest⟩
  | _ => exact Ensures.of_pure ⟨he, hvs⟩

theorem functionCall_succ (h : Reads float n) (name : String) (ts : List (Token ν)) :
    ReadsOperand (parseFunctionCall float (n + 1) (.identifier name :: ts)) (.identifier name :: ts) := by
  rw [parseFunctionCall, expectIdentifier, pure_bind]
  refine (ensures_expectSeq "(" ts).bind ?_
  rintro us ⟨t, rfl, ht⟩
  cases hmatch : matchSeq [some ")"] us with
  | some vs =>
    obtain ⟨u, vs, rfl, hu, hvs⟩ := eq_cons_of_matchSeq hmatch
    obtain rfl := Option.some.inj hvs
    exact Ensures.of_pure ⟨Expr.Plain.call (by simp) _, read_emptyCall name ht hu vs⟩
  | none =>
    refine (h.commaList us).bind ?_
    rintro ⟨args, vs⟩ ⟨hargs, hread⟩
    refine (ensures_expectSeq ")" vs).bind ?_
    rintro rest ⟨u, rfl, hu⟩
    refine Ensures.of_pure ⟨Expr.Plain.call hargs _, (hread.enclosed ht hu).call ?_⟩
    unfold Token.isTrap
    split
    next heq =>
      obtain ⟨-, rfl⟩ := List.cons.inj heq
      rw [matchSeq_cons] at hmatch
      split at hmatch
      next => cases hmatch
      next hclose => exact decide_eq_false (fun hall => hclose hall.2.2)
    next => rfl

theorem primary_succ (h : Reads float n) (ts : List (Token ν)) :
    ReadsOperand (parsePrimary float (n + 1) ts) ts := by
  cases ts with
  | nil => exact ensures_throw _
  | cons token ts =>
    have hconstant {e : Expr φ} (he : e.Plain) (ht : Neutral token ts) :
        ReadsOperand (parseSuffix float n e ts) (token :: ts) := by
      intro r hr
      obtain ⟨hplain, hkept⟩ := h.suffix e ts he r hr
      exact ⟨hplain, ht.read hkept.toRead⟩
    cases hmatch : matchSeq [some "("] (token :: ts) with
    | some us =>
      obtain ⟨t, us, heq, ht, hus⟩ := eq_cons_of_matchSeq hmatch
      obtain ⟨rfl, rfl⟩ := List.cons.inj heq
      obtain rfl := Option.some.inj hus
      simp only [parsePrimary, hmatch]
      refine (h.assignment ts).bind ?_
      rintro ⟨e, vs⟩ ⟨he, hread⟩
      refine (ensures_expectSeq ")" vs).bind ?_
      rintro ws ⟨u, rfl, hu⟩
      intro r hr
      obtain ⟨hplain, hkept⟩ := h.suffix e ws he r hr
      exact ⟨hplain, (hread.enclosed ht hu).kept hkept⟩
    | none =>
      have htext : token.text ≠ "(" := by
        intro htext
        rw [matchSeq_text "(" htext] at hmatch
        cases hmatch
      cases token with
      | number value =>
        simp only [parsePrimary, hmatch]
        cases float value with
        | none => exact ensures_throw _
        | some x => exact hconstant (by rintro ⟨⟩) (neutral_of_constant htext (fun s => ⟨by rintro ⟨⟩, by rintro ⟨⟩, by rintro ⟨⟩⟩) ts)
      | boolean value =>
        simp only [parsePrimary, hmatch]
        exact hconstant (by rintro ⟨⟩) (neutral_of_constant htext (fun s => ⟨by rintro ⟨⟩, by rintro ⟨⟩, by rintro ⟨⟩⟩) ts)
      | string value =>
        simp only [parsePrimary, hmatch]
        refine hconstant ?_ (neutral_of_constant htext (fun s => ⟨by rintro ⟨⟩, by rintro ⟨⟩, by rintro ⟨⟩⟩) ts)
        rintro ⟨⟩
        exact htext rfl
      | identifier name =>
        simp only [parsePrimary, hmatch]
        split
        next => exact h.functionCall name ts
        next =>
          refine (ensures_parseIdentifier n _).bind ?_
          rintro ⟨e, vs⟩ ⟨he, hread⟩
          intro r hr
          obtain ⟨hplain, hkept⟩ := h.suffix e vs he r hr
          exact ⟨hplain, hread.kept hkept⟩
      | punctuation s =>
        simp only [parsePrimary, hmatch]
        split
        next hstar => exact hconstant (by rintro ⟨⟩) (neutral_of_text "*" (by decide) (by decide) hstar ts)
        next => exact ensures_throw _
      | operator s =>
        simp only [parsePrimary, hmatch]
        split
        next hstar => exact hconstant (by rintro ⟨⟩) (neutral_of_text "*" (by decide) (by decide) hstar ts)
        next => exact ensures_throw _

end Reads

theorem reads (n : Nat) : Reads float n := by
  induction n with
  | zero => exact Reads.zero
  | succ n ih =>
    exact ⟨ih.functionCall_succ, ih.commaList_succ, ih.primary_succ, fun _ ts he => ih.suffix_succ he ts, ih.unary_succ,
      fun _ ts he => ih.between_succ he ts, fun table _ _ ts he hmin => ih.binary_succ table ts he hmin,
      fun table _ _ ts he hmin => ih.right_succ table ts he hmin, ih.expression_succ, ih.assignment_succ⟩

/-- What the parser gives for a chain has no string of an opening parenthesis. -/
theorem parse_plain (table : Table) {ts : List (Token ν)} {r : Expr φ × List (Token ν)}
    (h : Returns (fun n => table.parse float n ts) r) : r.1.Plain ∧ Read ts r.2 := by
  refine Ensures.of_returns (P := fun r => r.1.Plain ∧ Read ts r.2) (fun n => ?_) h
  cases table with
  | expression => exact (reads float n).expression ts
  | predicate =>
    refine ((reads float n).unary ts).bind ?_
    rintro ⟨lhs, us⟩ ⟨hlhs, hread⟩
    intro r hr
    obtain ⟨hplain, hkept⟩ := (reads float n).binary .predicate lhs 0 us hlhs (Int.le_refl 0) r hr
    exact ⟨hplain, hread.kept hkept⟩

end RaleighSL.Client.Rql
