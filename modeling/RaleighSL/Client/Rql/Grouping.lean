import RaleighSL.Client.Rql.Climbing
import RaleighSL.Client.Rql.Reading

/-!
# The grouping of expressions

The parser comes to the end of a readable chain in which no `BETWEEN` stands behind a call, with an
expression which is the one that is grouped by the levels exactly when the chain is clean. It does
not give the expression of a chain that is not readable, and stops in front of a `BETWEEN` behind a
call.
-/
namespace RaleighSL.Client.Rql

open Library

variable {ν φ : Type} {float : ν → Option φ}

/-! ### The first token -/

theorem ne_closing_of_not_word {name : String} (h : name ∉ grammarWords) : name ≠ ")" := by
  rintro rfl
  exact h (by decide)

mutual

theorem Primary.first (p : Primary float) (h : p.WellFormed) :
    ∃ t ts, p.tokens = t :: ts ∧ (t = .string ")" ∨ t.text ≠ ")") :=
  match p with
  | .operand (.number value _ _) => ⟨.number value, [], rfl, .inr (show "" ≠ ")" by decide)⟩
  | .operand (.boolean value) => ⟨.boolean value, [], rfl, .inr (show "" ≠ ")" by decide)⟩
  | .operand (.string value) => ⟨.string value, [], rfl, (em (value = ")")).imp (fun h => congrArg _ h) id⟩
  | .operand (.identifier name) => ⟨_, _, rfl, .inr name.parenthesis.2⟩
  | .operand .wildcard => ⟨_, _, rfl, .inr (show "*" ≠ ")" by decide)⟩
  | .group a => ⟨_, _, rfl, .inr (show "(" ≠ ")" by decide)⟩
  | .call name => ⟨_, _, rfl, .inr (ne_closing_of_not_word h)⟩
  | .callWith name args => ⟨_, _, rfl, .inr (ne_closing_of_not_word h.1)⟩

theorem Term.first (t : Term float) (h : t.WellFormed) :
    ∃ u us, t.tokens = u :: us ∧ (u = .string ")" ∨ u.text ≠ ")") :=
  match t with
  | .primary p => p.first h
  | .between p negated low high => by
    obtain ⟨u, us, htokens, hu⟩ := p.first h.1
    rw [Term.tokens, htokens]
    exact ⟨u, _, rfl, hu⟩
  | .unary op t => by
    have hall : ∀ op ∈ unaryOperators, op ≠ ")" := by decide
    exact ⟨_, _, rfl, .inr (hall op h.1)⟩

end

theorem Chain.first (c : Chain float) {table : Table} (h : c.WellFormed table) :
    ∃ u us, c.tokens = u :: us ∧ (u = .string ")" ∨ u.text ≠ ")") := by
  cases c with
  | last t => exact t.first h
  | more t op c =>
    obtain ⟨u, us, htokens, hu⟩ := t.first h.1
    rw [Chain.tokens, htokens]
    exact ⟨u, _, rfl, hu⟩

/-- Arguments that do not begin with the string of a closing parenthesis. -/
theorem Arguments.first (args : Arguments float) (h : args.WellFormed) (hne : args.tokens.head? ≠ some (.string ")")) :
    ∃ u us, args.tokens = u :: us ∧ u.text ≠ ")" := by
  have hfirst : ∃ u us, args.tokens = u :: us ∧ (u = .string ")" ∨ u.text ≠ ")") := by
    cases args with
    | last c => exact c.first h
    | more c args =>
      obtain ⟨u, us, htokens, hu⟩ := c.first h.1
      rw [Arguments.tokens, htokens]
      exact ⟨u, _, rfl, hu⟩
  obtain ⟨u, us, htokens, rfl | hu⟩ := hfirst
  · rw [htokens] at hne
    exact absurd rfl hne
  · exact ⟨u, us, htokens, hu⟩

/-! ### Terms that are parsed apart from what they should be -/

def ApartAll (es fs : List (Expr φ)) : Prop := ∀ (i : Nat) e f, es[i]? = some e → fs[i]? = some f → Apart e f

theorem ApartAll.cons {e f : Expr φ} {es fs : List (Expr φ)} (h : Apart e f) (hs : ApartAll es fs) :
    ApartAll (e :: es) (f :: fs) := by
  intro i e' f' he hf
  cases i with
  | zero =>
    obtain rfl := Option.some.inj he
    obtain rfl := Option.some.inj hf
    exact h
  | succ i => exact hs i e' f' he hf

theorem not_leftBelow_between {e f lowE highE lowF highF : Expr φ} (h : ¬ LeftBelow e f) :
    ¬ LeftBelow (betweenExpr e lowE highE) (betweenExpr f lowF highF) := by
  have hself : LeftBelow e (betweenExpr e lowE highE) := .further _ _ (.here _ _)
  intro hbelow
  generalize heq : betweenExpr f lowF highF = b at hbelow
  cases hbelow with
  | here op r =>
    obtain ⟨-, habs, -⟩ := Expr.binary.inj heq
    exact absurd (Expr.binary.inj habs).1 (by decide)
  | further op r hbelow =>
    obtain ⟨-, rfl, -⟩ := Expr.binary.inj heq
    cases hbelow with
    | here => exact h hself
    | further _ _ hbelow => exact h (hself.trans hbelow)

theorem Apart.between {e f : Expr φ} (h : Apart e f) (lowE highE lowF highF : Expr φ) :
    Apart (betweenExpr e lowE highE) (betweenExpr f lowF highF) :=
  ⟨not_leftBelow_between h.1, not_leftBelow_between h.2⟩

/-- The parser's expression is apart from the one that it should give, and is the same in exactly one case. -/
structure Gives (e expr : Expr φ) (right : Prop) : Prop where
  apart : Apart e expr
  eq_iff : e = expr ↔ right

theorem gives_self (e : Expr φ) {right : Prop} (h : right) : Gives e e right := ⟨apart_self e, iff_of_true rfl h⟩

theorem Gives.unary {e expr : Expr φ} {right : Prop} (h : Gives e expr right) (op : String) :
    Gives (.unary op e) (.unary op expr) right where
  apart := apart_of_spine rfl rfl
  eq_iff := by
    rw [← h.eq_iff]
    exact ⟨fun heq => (Expr.unary.inj heq).2, fun heq => by rw [heq]⟩

theorem Gives.between {e expr low lowExpr : Expr φ} {right lowRight : Prop} (h : Gives e expr right)
    (hlow : low = lowExpr ↔ lowRight) (highExpr : Expr φ) :
    Gives (betweenExpr e low low) (betweenExpr expr lowExpr highExpr) (right ∧ lowRight ∧ lowExpr = highExpr) where
  apart := h.apart.between ..
  eq_iff := by
    rw [← h.eq_iff, ← hlow]
    constructor
    · intro heq
      obtain ⟨-, hleft, hright⟩ := Expr.binary.inj heq
      obtain ⟨-, he, hl⟩ := Expr.binary.inj hleft
      obtain ⟨-, -, hh⟩ := Expr.binary.inj hright
      exact ⟨he, hl, hl.symm.trans hh⟩
    · rintro ⟨rfl, rfl, rfl⟩
      rfl

/-- The operands of a chain are parsed, and to their expressions exactly when they are clean. -/
structure ItemsParse (table : Table) (c : Chain float) (t : Term float) (e : Expr φ)
    (xs : List (String × Term float × Expr φ)) : Prop where
  tokens : c.tokens = t.tokens ++ render xs
  ops : xs.map Prod.fst = c.ops
  term : TermParses t e
  ends : t.endsBetween = true → ∀ x ∈ xs.head?, ¬ Table.expression.Has x.1
  listed : Listed table xs
  apart : ApartAll (e :: (parsed xs).map Prod.snd) (c.items.1 :: c.items.2.map Prod.snd)
  eq_iff : (e, parsed xs) = c.items ↔ c.CleanTerms

theorem Chain.items_ops (c : Chain float) : c.items.2.map Prod.fst = c.ops :=
  match c with
  | .last _ => rfl
  | .more _ op c => congrArg (op :: ·) c.items_ops

/-- A chain is parsed, and to the grouped expression exactly when it is clean. -/
theorem ItemsParse.chain {table : Table} {c : Chain float} {t : Term float} {e : Expr φ}
    {xs : List (String × Term float × Expr φ)} (h : ItemsParse table c t e xs) :
    ∃ e', ChainParses table c e' ∧ Gives e' (c.expr table) (c.Clean table) := by
  obtain ⟨r, ys, zs, hxs, hhead, hrest, heager, hzs, hreturns⟩ := climbs h.listed (.leaf e) 0 trivial
  obtain rfl : zs = [] := by
    cases zs with
    | nil => rfl
    | cons z zs => exact absurd (hzs z rfl) (Nat.not_lt_zero _)
  obtain rfl : xs = ys := by rw [hxs, List.append_nil]
  have hrest' : r.rest = parsed xs := hrest
  have hrops : r.ops = c.ops := by rw [ops_of_parsed hrest', h.ops]
  let g := OpTree.group table.level c.items.1 c.items.2
  have hghead : g.head = c.items.1 := OpTree.group_head ..
  have hgrest : g.rest = c.items.2 := OpTree.group_rest ..
  have hggrouped : g.Grouped table.level := OpTree.group_grouped ..
  have haligned : Aligned r g := by
    have happart := h.apart
    rw [← hrest', ← hghead, ← hgrest] at happart
    change ApartAll (operands r) (operands g)
    rw [operands, hhead]
    exact happart
  have hlength : (operands r).length = (operands g).length := by
    rw [operands, operands, List.length_cons, List.length_cons, List.length_map, List.length_map, hrest', hgrest,
      parsed, List.length_map, ← List.length_map Prod.fst, h.ops, ← c.items_ops, List.length_map]
  refine ⟨treeExpr r, fun rest hstop => ?_, haligned.apart hlength, ?_⟩
  · have hunary := h.term (render xs ++ rest) (follow_render h.listed hstop)
      (fun hbetween => ended_render hstop (h.ends hbetween))
    rw [h.tokens, List.append_assoc]
    exact hunary.bind (hreturns rest hstop)
  · constructor
    · intro heq
      have htree : r = g := haligned.eq heq
      refine ⟨hrops ▸ heager.grouped_iff.mp (htree ▸ hggrouped), h.eq_iff.mp (Prod.ext ?_ ?_)⟩
      · exact hhead.symm.trans (htree ▸ hghead)
      · exact hrest'.symm.trans (htree ▸ hgrest)
    · rintro ⟨hspaced, hterms⟩
      have hitems := h.eq_iff.mpr hterms
      have hrgrouped : r.Grouped table.level := heager.grouped_iff.mpr (hrops ▸ hspaced)
      have htree : r = g := hrgrouped.unique hggrouped (hhead.trans ((congrArg Prod.fst hitems).trans hghead.symm))
        (hrest'.trans ((congrArg Prod.snd hitems).trans hgrest.symm))
      exact congrArg treeExpr htree

mutual

theorem Primary.parses (p : Primary float) (hwell : p.WellFormed) (hread : p.Readable) (hbare : p.Bare) :
    ∃ e, PrimaryParses p e ∧ Gives e p.expr p.Clean :=
  match p with
  | .operand o => ⟨o.expr, primaryParses_operand o hread, gives_self _ trivial⟩
  | .group a => by
    obtain ⟨e, hparses, hgives⟩ := a.parses hwell hread hbare
    exact ⟨e, hparses.group, hgives⟩
  | .call name => ⟨_, primaryParses_call (ne_opening_of_not_word hwell), gives_self _ trivial⟩
  | .callWith name args => by
    obtain ⟨es, hparses, heq⟩ := args.parses hwell.2 hread.2 hbare
    refine ⟨.call name.toLower es, hparses.call (ne_opening_of_not_word hwell.1) (args.first hwell.2 hread.1),
      apart_of_spine rfl rfl, ?_⟩
    rw [Primary.Clean, ← heq]
    exact ⟨fun h => (Expr.call.inj h).2, fun h => by rw [h, Primary.expr]⟩

theorem Term.parses (t : Term float) (hwell : t.WellFormed) (hread : t.Readable) (hbare : t.Bare) :
    ∃ e, TermParses t e ∧ Gives e t.expr t.Clean :=
  match t with
  | .primary p => by
    obtain ⟨e, hparses, hgives⟩ := p.parses hwell hread hbare
    exact ⟨e, hparses.term, hgives⟩
  | .between p negated low high => by
    obtain ⟨hp, hlow, hhigh⟩ := hwell
    obtain ⟨hpRead, hlowRead, hhighRead⟩ := hread
    obtain ⟨hcall, hpBare, hlowBare, hhighBare⟩ := hbare
    obtain ⟨e, hparses, hgives⟩ := p.parses hp hpRead hpBare
    obtain ⟨lowExpr, hlowParses, hlowGives⟩ := low.parses hlow hlowRead hlowBare
    obtain ⟨highExpr, hhighParses, -⟩ := high.parses hhigh hhighRead hhighBare
    have hbetween := hgives.between hlowGives.eq_iff (high.expr .expression)
    refine ⟨_, hparses.between hcall hlowParses hhighParses negated, ?_⟩
    cases negated with
    | false => exact hbetween
    | true => exact hbetween.unary "NOT"
  | .unary op t => by
    obtain ⟨e, hparses, hgives⟩ := t.parses hwell.2 hread hbare
    exact ⟨_, hparses.unary hwell.1, hgives.unary op⟩

theorem Chain.itemsParse (c : Chain float) {table : Table} (hwell : c.WellFormed table) (hread : c.Readable)
    (hbare : c.Bare) : ∃ t e xs, ItemsParse table c t e xs :=
  match c with
  | .last t => by
    obtain ⟨e, hparses, hgives⟩ := t.parses hwell hread hbare
    refine ⟨t, e, [], (List.append_nil _).symm, rfl, hparses, by simp, trivial, ?_, ?_⟩
    · exact ApartAll.cons hgives.apart (fun i e f he _ => by simp [parsed] at he)
    · rw [Chain.items, Chain.CleanTerms, ← hgives.eq_iff]
      exact ⟨fun h => (Prod.mk.inj h).1, fun h => by rw [h]; rfl⟩
  | .more t op c => by
    obtain ⟨ht, hop, hends, hc⟩ := hwell
    obtain ⟨e, hparses, hgives⟩ := t.parses ht hread.1 hbare.1
    obtain ⟨t', e', xs, h⟩ := c.itemsParse hc hread.2 hbare.2
    refine ⟨t, e, (op, t', e') :: xs, ?_, ?_, hparses, ?_, ⟨hop, h.term, h.ends, h.listed⟩,
      ApartAll.cons hgives.apart h.apart, ?_⟩
    · rw [Chain.tokens, h.tokens, render_cons]
    · rw [List.map_cons, h.ops, Chain.ops]
    · rintro hbetween _ ⟨⟩
      exact hends hbetween
    · rw [Chain.items, Chain.CleanTerms, ← hgives.eq_iff, ← h.eq_iff, Prod.mk.injEq, parsed, List.map_cons,
        List.cons.injEq, Prod.mk.injEq, Prod.ext_iff]
      simp [parsed]

theorem Chain.parses (c : Chain float) {table : Table} (hwell : c.WellFormed table) (hread : c.Readable)
    (hbare : c.Bare) : ∃ e, ChainParses table c e ∧ Gives e (c.expr table) (c.Clean table) := by
  obtain ⟨t, e, xs, h⟩ := c.itemsParse hwell hread hbare
  exact h.chain

theorem Assignment.parses (a : Assignment float) (hwell : a.WellFormed) (hread : a.Readable) (hbare : a.Bare) :
    ∃ e, AssignmentParses a e ∧ Gives e a.expr a.Clean :=
  match a with
  | .predicate c => by
    obtain ⟨e, hparses, hgives⟩ := c.parses hwell hread hbare
    exact ⟨e, hparses.group, hgives⟩
  | .assign name a => by
    obtain ⟨e, hparses, hgives⟩ := a.parses hwell hread hbare
    refine ⟨.assignment name.text e, hparses.assign name, apart_of_spine rfl rfl, ?_⟩
    rw [Assignment.Clean, ← hgives.eq_iff]
    exact ⟨fun h => (Expr.assignment.inj h).2, fun h => by rw [h, Assignment.expr]⟩

theorem Arguments.parses (args : Arguments float) (hwell : args.WellFormed) (hread : args.Readable) (hbare : args.Bare) :
    ∃ es, ArgumentsParse args es ∧ (es = args.exprs ↔ args.Clean) :=
  match args with
  | .last c => by
    obtain ⟨e, hparses, hgives⟩ := c.parses hwell hread hbare
    refine ⟨[e], hparses.lastArgument, ?_⟩
    rw [Arguments.exprs, Arguments.Clean]
    exact ⟨fun h => hgives.eq_iff.mp (List.cons.inj h).1, fun h => by rw [hgives.eq_iff.mpr h]; rfl⟩
  | .more c args => by
    obtain ⟨e, hparses, hgives⟩ := c.parses hwell.1 hread.1 hbare.1
    obtain ⟨es, hargs, heq⟩ := args.parses hwell.2 hread.2 hbare.2
    refine ⟨e :: es, hparses.moreArguments hargs, ?_⟩
    rw [Arguments.exprs, Arguments.Clean, ← heq]
    exact ⟨fun h => ⟨hgives.eq_iff.mp (List.cons.inj h).1, (List.cons.inj h).2⟩,
      fun h => by rw [hgives.eq_iff.mpr h.1, h.2]; rfl⟩

end

/-! ### A `BETWEEN` behind a call -/

/-- The tokens begin with what is read behind an operand only. -/
def Blocked (ts : List (Token ν)) : Prop := ∃ t us, ts = t :: us ∧ (t.text = "BETWEEN" ∨ t.text = "NOT")

/-- From some bound on, a result leaves such tokens. -/
def Blocks {α : Type} (f : Nat → Outcome ν (α × List (Token ν))) : Prop :=
  Settles f (fun x => Ensures x (fun r => Blocked r.2))

theorem Blocks.bind {α β : Type} {f : Nat → Outcome ν (α × List (Token ν))}
    {g : Nat → α × List (Token ν) → Outcome ν (β × List (Token ν))} (hf : Blocks f)
    (hg : ∀ n r, Blocked r.2 → Ensures (g n r) (fun q => Blocked q.2)) : Blocks (fun n => f n >>= g n) := by
  obtain ⟨N, hN⟩ := hf
  exact ⟨N, fun n hn => (hN n hn).bind (hg n)⟩

theorem blocked_between (negated : Bool) (ts : List (Token ν)) :
    Blocked ((if negated then [.operator "NOT"] else []) ++ .identifier "BETWEEN" :: ts) := by
  cases negated with
  | false => exact ⟨_, _, rfl, .inl rfl⟩
  | true => exact ⟨_, _, rfl, .inr rfl⟩

theorem Blocked.matchSeq {ts : List (Token ν)} (h : Blocked ts) (text : String) (hne : text ≠ "BETWEEN" ∧ text ≠ "NOT") :
    matchSeq [some text] ts = none := by
  obtain ⟨t, us, rfl, ht⟩ := h
  refine matchSeq_cons_none ?_
  rintro u ⟨⟩
  rcases ht with ht | ht
  · exact fun heq => hne.1 (heq.symm.trans ht)
  · exact fun heq => hne.2 (heq.symm.trans ht)

theorem Blocked.expectSeq {ts : List (Token ν)} (h : Blocked ts) (text : String) (hne : text ≠ "BETWEEN" ∧ text ≠ "NOT")
    {P : List (Token ν) → Prop} : Ensures (expectSeq [some text] ts) P := by
  rw [RaleighSL.Client.Rql.expectSeq, h.matchSeq text hne]
  exact ensures_throw _

theorem Blocked.precedence {ts : List (Token ν)} (h : Blocked ts) (table : Table) :
    getBinaryPrecedence table.operators ts.head? = -1 := by
  obtain ⟨t, us, rfl, ht⟩ := h
  refine if_neg (fun hhas => ?_)
  have hplain := Table.Has.plain (show table.Has t.text from hhas)
  exact ht.elim hplain.2.1 hplain.2.2

theorem Blocked.binary {ts : List (Token ν)} (h : Blocked ts) (table : Table) (n : Nat) (lhs : Expr φ) {min : Int}
    (hmin : 0 ≤ min) : Ensures (parseBinary float n table.operators lhs min ts) (fun r => Blocked r.2) := by
  have hprec := h.precedence table
  obtain ⟨t, us, rfl, ht⟩ := h
  cases n with
  | zero => exact ensures_none
  | succ n =>
    have hstop : ¬ min ≤ getBinaryPrecedence table.operators (some t) := by
      rw [show getBinaryPrecedence table.operators (some t) = -1 from hprec]
      omega
    rw [parseBinary, if_neg hstop]
    exact Ensures.of_pure ⟨t, us, rfl, ht⟩

theorem Blocked.right {ts : List (Token ν)} (h : Blocked ts) (table : Table) (n : Nat) (rhs : Expr φ) {min : Int}
    (hmin : 0 ≤ min) : Ensures (parseRight float n table.operators rhs min ts) (fun r => Blocked r.2) := by
  cases n with
  | zero => exact ensures_none
  | succ n =>
    have hstop : ¬ min < getBinaryPrecedence table.operators ts.head? := by
      rw [h.precedence table]
      omega
    rw [parseRight]
    dsimp only
    rw [if_neg hstop]
    exact Ensures.of_pure h

/-- Operators with terms that are read, up to one behind which the parser stops. -/
inductive Stuck (float : ν → Option φ) (table : Table) (N : Nat) : List (Token ν) → Prop
  | here {op : String} {ts : List (Token ν)} (hop : table.Has op)
      (h : ∀ n, N ≤ n → Ensures (parseUnary float n ts) (fun r => Blocked r.2)) : Stuck float table N (.operator op :: ts)
  | later {op : String} {e : Expr φ} {ts us : List (Token ν)} (hop : table.Has op)
      (h : ∀ n, N ≤ n → parseUnary float n ts = pure (e, us)) (hlen : us.length ≤ ts.length)
      (hus : Stuck float table N us) : Stuck float table N (.operator op :: ts)

theorem Stuck.mono {table : Table} {N M : Nat} {ts : List (Token ν)} (h : Stuck float table N ts) (hle : N ≤ M) :
    Stuck float table M ts := by
  induction h with
  | here hop h => exact .here hop (fun n hn => h n (Nat.le_trans hle hn))
  | later hop h hlen _ ih => exact .later hop (fun n hn => h n (Nat.le_trans hle hn)) hlen ih

theorem Stuck.precedence_nonneg {table : Table} {N : Nat} {ts : List (Token ν)} (h : Stuck float table N ts) :
    0 ≤ getBinaryPrecedence table.operators ts.head? := by
  have hop {op : String} {us : List (Token ν)} (hop : table.Has op) :
      0 ≤ getBinaryPrecedence table.operators (Token.operator op :: us).head? := by
    rw [List.head?_cons, getBinaryPrecedence_operator hop]
    exact Int.natCast_nonneg _
  cases h with
  | here hhas _ => exact hop hhas
  | later hhas _ _ _ => exact hop hhas

/-- What `parse_binary` leaves of such tokens: it stops behind the term, or at an operator of lower precedence before it. -/
def Leaves (float : ν → Option φ) (table : Table) (N : Nat) (min : Int) (ts rest : List (Token ν)) : Prop :=
  Blocked rest ∨ Stuck float table N rest ∧ rest.length ≤ ts.length ∧ getBinaryPrecedence table.operators rest.head? < min

theorem Stuck.right {table : Table} {N : Nat} {ts : List (Token ν)} (h : Stuck float table N ts) {n : Nat}
    (hbinary : ∀ (lhs : Expr φ) (min : Int), 0 ≤ min →
      Ensures (parseBinary float n table.operators lhs min ts) (fun r => Leaves float table N min ts r.2))
    (rhs : Expr φ) (min : Int) :
    Ensures (parseRight float (n + 1) table.operators rhs min ts)
      (fun r => Blocked r.2 ∨ Stuck float table N r.2 ∧ r.2.length ≤ ts.length) := by
  have hprec := h.precedence_nonneg
  rw [parseRight]
  dsimp only
  split
  · refine (hbinary rhs _ hprec).bind ?_
    rintro ⟨rhs', us⟩ (hblocked | ⟨hus, hlen, hlt⟩)
    · exact fun r hr => .inl (hblocked.right table n rhs' hprec r hr)
    · cases n with
      | zero => exact ensures_none
      | succ n =>
        rw [parseRight]
        dsimp only
        rw [if_neg (Int.not_lt.mpr (Int.le_of_lt hlt))]
        exact Ensures.of_pure (.inr ⟨hus, hlen⟩)
  · exact Ensures.of_pure (.inr ⟨h, Nat.le_refl _⟩)

theorem Stuck.binary {table : Table} {N : Nat} {ts : List (Token ν)} (h : Stuck float table N ts) {n : Nat}
    (hn : N + 2 * ts.length ≤ n) (lhs : Expr φ) {min : Int} (hmin : 0 ≤ min) :
    Ensures (parseBinary float n table.operators lhs min ts) (fun r => Leaves float table N min ts r.2) := by
  induction hk : ts.length using Nat.strongRecOn generalizing ts n lhs min with
  | ind k ih =>
    subst hk
    cases n with
    | zero => exact ensures_none
    | succ n =>
      cases h with
      | @here op us hop hunary =>
        rw [List.length_cons] at hn
        rw [parseBinary]
        split
        · refine (hunary n (by omega)).bind ?_
          rintro ⟨rhs, vs⟩ hblocked
          refine (hblocked.right table n rhs hmin).bind ?_
          rintro ⟨rhs', ws⟩ hblocked'
          exact fun r hr => .inl (hblocked'.binary table n _ hmin r hr)
        · rename_i hlt
          exact Ensures.of_pure (.inr ⟨.here hop hunary, Nat.le_refl _, Int.lt_of_not_ge hlt⟩)
      | @later op e us vs hop hunary hlen hvs =>
        rw [List.length_cons] at hn ih
        rw [parseBinary]
        split
        · rw [hunary n (by omega), pure_bind]
          have hright : Ensures (parseRight float n table.operators e min vs)
              (fun r => Blocked r.2 ∨ Stuck float table N r.2 ∧ r.2.length ≤ vs.length) := by
            cases n with
            | zero => exact ensures_none
            | succ n =>
              exact hvs.right (fun rhs min hmin => ih vs.length (by omega) hvs (by omega) rhs hmin rfl) e min
          refine hright.bind ?_
          rintro ⟨rhs, ws⟩ (hblocked | ⟨hws, hle⟩)
          · exact fun r hr => .inl (hblocked.binary table n _ hmin r hr)
          · intro r hr
            dsimp only at hws hle hr
            have hleaves := ih ws.length (by omega) hws (by omega) (.binary op lhs rhs) hmin rfl r hr
            refine hleaves.imp_right (fun hrest => ⟨hrest.1, ?_, hrest.2.2⟩)
            rw [List.length_cons]
            omega
        · rename_i hlt
          exact Ensures.of_pure (.inr ⟨.later hop hunary hlen hvs, Nat.le_refl _, Int.lt_of_not_ge hlt⟩)

/-! ### Chains with a `BETWEEN` behind a call -/

/-- The parser stops in the first bound of a `BETWEEN`, and does not come to its second one. -/
theorem blocks_low {low : Chain float} {ts : List (Token ν)} (e : Expr φ)
    (h : Blocks (fun n => parseExpression float n (low.tokens ++ .operator "AND" :: ts))) :
    Blocks (fun n => parseBetween float n e (low.tokens ++ .operator "AND" :: ts)) := by
  refine Settles.step (fun n => ?_) (h.bind (g := fun n (r : Expr φ × List (Token ν)) =>
    expectSeq [some "AND"] r.2 >>= fun ts => parseExpression float n ts >>= fun s =>
      pure (betweenExpr e r.1 r.1, s.2)) (fun n r hr => ?_))
  · rw [parseBetween]
    rfl
  · exact (hr.expectSeq "AND" (by decide) (P := fun _ => False)).bind (fun _ hfalse => hfalse.elim)

theorem Stuck.blocks {table : Table} {N : Nat} {ts : List (Token ν)} (h : Stuck float table N ts) (lhs : Expr φ) :
    Blocks (fun n => parseBinary float n table.operators lhs 0 ts) := by
  refine ⟨N + 2 * ts.length, fun n hn r hr => ?_⟩
  rcases h.binary hn lhs (Int.le_refl 0) r hr with hblocked | ⟨hus, -, hlt⟩
  · exact hblocked
  · exact absurd hus.precedence_nonneg (Int.not_le.mpr hlt)

theorem blocks_expression {ts : List (Token ν)}
    (h : Blocks (fun n => parseUnary float n ts >>= fun r => parseBinary float n expressionOperators r.1 0 r.2)) :
    Blocks (fun n => parseExpression float n ts) := Settles.step (fun _ => rfl) h

/-- The parser does not come to the other arguments. -/
theorem blocks_arguments {ts : List (Token ν)} (h : Blocks (fun n => parseExpression float n ts)) :
    Blocks (fun n => parseCommaList float n ts) := by
  refine Settles.step (fun n => rfl) (h.bind (fun n r hr => ?_))
  have hnone := Blocked.matchSeq hr "," (by decide)
  simp only [hnone]
  exact Ensures.of_pure hr

mutual

theorem Primary.blocks (p : Primary float) (hwell : p.WellFormed) (hread : p.Readable) (hbare : ¬ p.Bare)
    (rest : List (Token ν)) : Blocks (fun n => parseUnary float n (p.tokens ++ rest)) :=
  match p with
  | .operand _ => absurd trivial hbare
  | .group a =>
    parseUnary_group ((a.blocks hwell hread hbare _).bind (fun n _ hr =>
      (hr.expectSeq ")" (by decide) (P := fun _ => False)).bind (fun _ hfalse => hfalse.elim)))
  | .call _ => absurd trivial hbare
  | .callWith _ args =>
    parseUnary_callWith (ne_opening_of_not_word hwell.1) (args.first hwell.2 hread.1)
      ((args.blocks hwell.2 hread.2 hbare _).bind (fun _ _ hr =>
        (hr.expectSeq ")" (by decide) (P := fun _ => False)).bind (fun _ hfalse => hfalse.elim)))

theorem Term.blocks (t : Term float) (hwell : t.WellFormed) (hread : t.Readable) (hbare : ¬ t.Bare)
    (rest : List (Token ν)) : Blocks (fun n => parseUnary float n (t.tokens ++ rest)) :=
  match t with
  | .primary p => p.blocks hwell hread hbare rest
  | .between p negated low high => by
    obtain ⟨hp, hlow, hhigh⟩ := hwell
    obtain ⟨hpRead, hlowRead, hhighRead⟩ := hread
    simp only [Term.tokens, List.append_assoc, List.cons_append]
    by_cases hpBare : p.Bare
    · obtain ⟨e, hparses, -⟩ := p.parses hp hpRead hpBare
      refine hparses _ _ (unjoined_between negated _) ?_
      cases hcall : p.isCall with
      | true =>
        simp only [Primary.behind, hcall, cond_true]
        exact Settles.of_forall (fun _ => Ensures.of_pure (blocked_between negated _))
      | false =>
        have hbounds : Blocks (fun n => parseBetween float n e (low.tokens ++ .operator "AND" :: (high.tokens ++ rest))) := by
          by_cases hlowBare : low.Bare
          · obtain ⟨lowExpr, hlowParses, -⟩ := low.parses hlow hlowRead hlowBare
            have hhighBare : ¬ high.Bare := fun h => hbare ⟨hcall, hpBare, hlowBare, h⟩
            exact parseBetween_low hlowParses e ((blocks_expression (high.blocks hhigh hhighRead hhighBare rest)).bind
              (fun _ _ hr => Ensures.of_pure hr))
          · exact blocks_low e (blocks_expression (low.blocks hlow hlowRead hlowBare _))
        simp only [Primary.behind, hcall, cond_false]
        exact Settles.step (fun n => parseSuffix_between n e negated _)
          (hbounds.bind (fun _ _ hr => Ensures.of_pure hr))
    · exact p.blocks hp hpRead hpBare _
  | .unary op t => by
    refine Settles.step (fun n => ?_) ((t.blocks hwell.2 hread hbare rest).bind (g := fun _ r => pure (.unary op r.1, r.2))
      (fun _ _ hr => Ensures.of_pure hr))
    have hmatch : matchOperator ["-", "+", "~", "NOT"] (.operator op :: (t.tokens ++ rest)) =
        some (op, t.tokens ++ rest) := if_pos ⟨rfl, hwell.1⟩
    rw [Term.tokens, List.cons_append, parseUnary, hmatch]

/-- Behind an operator the terms of a chain are read up to the one with the `BETWEEN`. -/
theorem Chain.stuck (c : Chain float) {table : Table} (hwell : c.WellFormed table) (hread : c.Readable) (hbare : ¬ c.Bare)
    (rest : List (Token ν)) {op : String} (hop : table.Has op) :
    ∃ N, Stuck float table N (.operator op :: (c.tokens ++ rest)) :=
  match c with
  | .last t => by
    obtain ⟨N, hN⟩ := t.blocks hwell hread hbare rest
    exact ⟨N, .here hop hN⟩
  | .more t next c => by
    obtain ⟨ht, hnext, hends, hc⟩ := hwell
    rw [Chain.tokens, List.append_assoc, List.cons_append]
    by_cases htBare : t.Bare
    · obtain ⟨e, hparses, -⟩ := t.parses ht hread.1 htBare
      obtain ⟨M, hM⟩ := c.stuck hc hread.2 (fun h => hbare ⟨htBare, h⟩) rest hnext
      have hended : t.endsBetween = true → Ended .expression (.operator next :: (c.tokens ++ rest) : List (Token ν)) := by
        rintro hbetween _ ⟨⟩
        exact hends hbetween
      obtain ⟨N, hN⟩ := hparses _ (follow_operator hnext _) hended
      refine ⟨max N M, .later hop (fun n hn => hN n (Nat.le_trans (Nat.le_max_left N M) hn)) ?_
        (hM.mono (Nat.le_max_right N M))⟩
      rw [List.length_append]
      exact Nat.le_add_left _ _
    · obtain ⟨N, hN⟩ := t.blocks ht hread.1 htBare (.operator next :: (c.tokens ++ rest))
      exact ⟨N, .here hop hN⟩

theorem Chain.blocks (c : Chain float) {table : Table} (hwell : c.WellFormed table) (hread : c.Readable) (hbare : ¬ c.Bare)
    (rest : List (Token ν)) : Blocks (fun n => parseUnary float n (c.tokens ++ rest) >>= fun r =>
      parseBinary float n table.operators r.1 0 r.2) :=
  match c with
  | .last t => (t.blocks hwell hread hbare rest).bind (fun n r hr => hr.binary table n r.1 (Int.le_refl 0))
  | .more t op c => by
    obtain ⟨ht, hop, hends, hc⟩ := hwell
    rw [Chain.tokens, List.append_assoc, List.cons_append]
    by_cases htBare : t.Bare
    · obtain ⟨e, hparses, -⟩ := t.parses ht hread.1 htBare
      obtain ⟨N, hN⟩ := c.stuck hc hread.2 (fun h => hbare ⟨htBare, h⟩) rest hop
      have hended : t.endsBetween = true → Ended .expression (.operator op :: (c.tokens ++ rest) : List (Token ν)) := by
        rintro hbetween _ ⟨⟩
        exact hends hbetween
      exact (hparses _ (follow_operator hop _) hended).bind_settles (hN.blocks e)
    · exact (t.blocks ht hread.1 htBare _).bind (fun n r hr => hr.binary table n r.1 (Int.le_refl 0))

theorem Assignment.blocks (a : Assignment float) (hwell : a.WellFormed) (hread : a.Readable) (hbare : ¬ a.Bare)
    (rest : List (Token ν)) : Blocks (fun n => parseAssignment float n (a.tokens ++ rest)) :=
  match a with
  | .predicate c => by
    refine Settles.step (fun n => (bind_assoc ..).symm) ((c.blocks hwell hread hbare rest).bind (fun n r hr => ?_))
    obtain ⟨e, ts⟩ := r
    have hnone := Blocked.matchSeq hr "=" (by decide)
    cases e with
    | identifier name =>
      simp only [hnone]
      exact Ensures.of_pure hr
    | _ => exact Ensures.of_pure hr
  | .assign name a => by
    rw [Assignment.tokens, List.append_assoc, List.cons_append]
    exact parseAssignment_name name ((a.blocks hwell hread hbare rest).bind (fun _ _ hr => Ensures.of_pure hr))

theorem Arguments.blocks (args : Arguments float) (hwell : args.WellFormed) (hread : args.Readable) (hbare : ¬ args.Bare)
    (rest : List (Token ν)) : Blocks (fun n => parseCommaList float n (args.tokens ++ rest)) :=
  match args with
  | .last c => blocks_arguments (blocks_expression (c.blocks hwell hread hbare rest))
  | .more c args => by
    rw [Arguments.tokens, List.append_assoc, List.cons_append]
    by_cases hc : c.Bare
    · obtain ⟨e, hparses, -⟩ := c.parses hwell.1 hread.1 hc
      have hstop : Stop .expression (.punctuation "," :: (args.tokens ++ rest)) :=
        stop_of_text "," (by decide) (by decide) rfl _
      refine Settles.step (fun n => rfl) ((hparses.expression hstop).bind_settles ?_)
      simp only [matchSeq_text "," (Token.text_punctuation (ν := ν) ",")]
      exact (args.blocks hwell.2 hread.2 (fun h => hbare ⟨hc, h⟩) rest).bind (fun _ _ hr => Ensures.of_pure hr)
    · exact blocks_arguments (blocks_expression (c.blocks hwell.1 hread.1 hc _))

end

theorem stop_nil (table : Table) : Stop table ([] : List (Token ν)) := ⟨⟨by simp [Unjoined], by simp⟩, by simp [Ended]⟩

/-- The parser comes to the end of a readable chain in which no `BETWEEN` stands behind a call. -/
theorem Chain.returns (c : Chain float) {table : Table} (hwell : c.WellFormed table) (hread : c.Readable)
    (hbare : c.Bare) : ∃ e, Returns (fun n => table.parse float n c.tokens) (e, []) ∧ (e = c.expr table ↔ c.Clean table) := by
  obtain ⟨e, hparses, hgives⟩ := c.parses hwell hread hbare
  have hreturns := hparses.parse (stop_nil table)
  rw [List.append_nil] at hreturns
  exact ⟨e, hreturns, hgives.eq_iff⟩

/-- A chain whose expression the parser gives is readable. -/
theorem Chain.readable_of_returns (c : Chain float) {table : Table} (hwell : c.WellFormed table)
    (h : Returns (fun n => table.parse float n c.tokens) (c.expr table, [])) : c.Readable := by
  obtain ⟨hplain, hread⟩ := parse_plain float table h
  have hclosed := c.closed hwell (groupedExpr_plain hplain)
  have heven : balance c.tokens = balance ([] : List (Token ν)) := by simpa using hclosed.even []
  obtain htraps | ⟨t, us, hnil, -⟩ := hread.traps heven
  · exact hclosed.readable [] (by rw [List.append_nil]; exact htraps)
  · cases hnil

/-- The parser does not come to the end of a readable chain in which a `BETWEEN` stands behind a call. -/
theorem Chain.bare_of_returns (c : Chain float) {table : Table} (hwell : c.WellFormed table) (hread : c.Readable)
    {e : Expr φ} (h : Returns (fun n => table.parse float n c.tokens) (e, [])) : c.Bare := by
  by_contra hbare
  have hblocks : Blocks (fun n => table.parse float n c.tokens) := by
    have hchain := c.blocks hwell hread hbare []
    rw [List.append_nil] at hchain
    cases table with
    | expression => exact blocks_expression hchain
    | predicate => exact hchain
  obtain ⟨N, hN⟩ := hblocks
  obtain ⟨M, hM⟩ := h
  obtain ⟨t, us, hnil, -⟩ := hN (max N M) (Nat.le_max_left N M) _ (hM (max N M) (Nat.le_max_right N M))
  cases hnil

/-- The parser gives the expression of a well-formed chain exactly when no operand is the string of an opening
parenthesis, the arguments of no call begin with the string of a closing one, no `BETWEEN` stands behind a call, the
operators are spaced, at the top and in the chain, and the bounds of every `BETWEEN` are the same expression. -/
theorem chain_grouped_iff {ν φ : Type} {float : ν → Option φ} (table : Table) (c : Chain float)
    (h : c.WellFormed table) :
    Returns (fun n => table.parse float n c.tokens) (c.expr table, []) ↔ c.Readable ∧ c.Bare ∧ c.Clean table := by
  constructor
  · intro hreturns
    have hread := c.readable_of_returns h hreturns
    have hbare := c.bare_of_returns h hread hreturns
    obtain ⟨e, he, hiff⟩ := c.returns h hread hbare
    exact ⟨hread, hbare, hiff.mp (congrArg Prod.fst (he.unique hreturns))⟩
  · rintro ⟨hread, hbare, hclean⟩
    obtain ⟨e, he, hiff⟩ := c.returns h hread hbare
    rw [hiff.mpr hclean] at he
    exact he

/-- A `BETWEEN` behind a call stays unread. -/
example : parseExpression (some : Nat → Option Nat) 20 [.identifier "ABS", .punctuation "(", .number 2, .punctuation ")",
    .identifier "BETWEEN", .number 1, .operator "AND", .number 1] =
      pure (.call "ABS".toLower [.number 2], [.identifier "BETWEEN", .number 1, .operator "AND", .number 1]) := rfl

def singleName (text : String) (h : text ≠ "" ∧ text ≠ "(" ∧ text ≠ ")") : Name := ⟨text, h.1, h.2, []⟩

def numberTerm (n : Nat) : Term (some : Nat → Option Nat) := .primary (.operand (.number n n rfl))

/-- `a BETWEEN 1 AND 1 OR abs(2)`. -/
def betweenOrCall : Chain (some : Nat → Option Nat) :=
  .more (.between (.operand (.identifier (singleName "A" (by decide)))) false (.last (numberTerm 1))
    (.last (numberTerm 1))) "OR" (.last (.primary (.callWith "ABS" (.last (.last (numberTerm 2))))))

theorem between_or_call_grouped :
    Returns (fun n => parsePredicate (some : Nat → Option Nat) n betweenOrCall.tokens)
      (betweenOrCall.expr .predicate, []) := by
  have hclean : betweenOrCall.Clean .predicate :=
    ⟨OpTree.spaced_singleton 0 _, ⟨trivial, ⟨OpTree.spaced_nil 0, trivial⟩, rfl⟩, OpTree.spaced_nil 0, trivial⟩
  have hwell : betweenOrCall.WellFormed .predicate := ⟨⟨trivial, trivial, trivial⟩, by decide, by decide, by decide, trivial⟩
  have hread : betweenOrCall.Readable := ⟨⟨trivial, trivial, trivial⟩, (by simp [Arguments.tokens, Chain.tokens, numberTerm,
    Term.tokens, Primary.tokens, Operand.tokens]), trivial⟩
  exact (chain_grouped_iff .predicate betweenOrCall hwell).mpr
    ⟨hread, ⟨⟨rfl, trivial, trivial, trivial⟩, trivial⟩, hclean⟩

/-- `1 * 2 * 3`. -/
def product : Chain (some : Nat → Option Nat) :=
  .more (numberTerm 1) "*" (.more (numberTerm 2) "*" (.last (numberTerm 3)))

/-- Behind an operator above the lowest level the next one of its level is taken for a part of the right operand. -/
theorem product_to_the_right :
    parseExpression (some : Nat → Option Nat) 20 product.tokens =
        pure (.binary "*" (.number 1) (.binary "*" (.number 2) (.number 3)), []) ∧
      product.expr .expression = .binary "*" (.binary "*" (.number 1) (.number 2)) (.number 3) ∧
      ¬ Returns (fun n => parseExpression (some : Nat → Option Nat) n product.tokens)
        (product.expr .expression, []) := by
  refine ⟨rfl, rfl, fun hreturns => ?_⟩
  have hwell : product.WellFormed .expression := ⟨trivial, by decide, by decide, trivial, by decide, by decide, trivial⟩
  have hread := product.readable_of_returns hwell hreturns
  obtain ⟨e, he, hiff⟩ := product.returns hwell hread (product.bare_of_returns hwell hread hreturns)
  obtain ⟨⟨-, hopened⟩, -⟩ := hiff.mp (congrArg Prod.fst (he.unique hreturns))
  have hlt := hopened [] "*" "*" [] rfl (by simp) (by decide)
  exact absurd hlt (Nat.lt_irrefl _)

end RaleighSL.Client.Rql
