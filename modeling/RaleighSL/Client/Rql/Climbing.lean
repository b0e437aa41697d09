import RaleighSL.Client.Rql.Grammar

/-!
# How the parser climbs

What comes behind a term does not go on with it, so `parse_unary` stops there, and `parse_binary`
climbs eagerly through the terms of a chain.
-/
namespace RaleighSL.Client.Rql

open Library

variable {ν φ : Type} {float : ν → Option φ}

/-! ### What comes behind -/

/-- The tokens behind an operand are not taken for a part of it. -/
def Unjoined (ts : List (Token ν)) : Prop := ∀ t ∈ ts.head?, t.text ≠ "(" ∧ t.text ≠ "."

/-- The tokens behind a term are not taken for a part of it, when it does not end with a `BETWEEN`. -/
structure Follow (ts : List (Token ν)) : Prop where
  unjoined : Unjoined ts
  suffix : ∀ t ∈ ts.head?, t.text ≠ "BETWEEN" ∧ t.text ≠ "NOT"

def Ended (table : Table) (ts : List (Token ν)) : Prop := ∀ t ∈ ts.head?, ¬ table.Has t.text

/-- The tokens behind a chain are not taken for a part of it. -/
structure Stop (table : Table) (ts : List (Token ν)) : Prop extends Follow ts where
  ended : Ended table ts

theorem Table.Has.plain {table : Table} {op : String} (h : table.Has op) :
    (op ≠ "(" ∧ op ≠ ".") ∧ op ≠ "BETWEEN" ∧ op ≠ "NOT" := by
  have hall : ∀ op ∈ table.operators.flatten, (op ≠ "(" ∧ op ≠ ".") ∧ op ≠ "BETWEEN" ∧ op ≠ "NOT" := by
    cases table <;> decide
  exact hall op h.mem

theorem has_predicate_of_expression {op : String} (h : Table.expression.Has op) : Table.predicate.Has op := by
  have hall : ∀ op ∈ Table.expression.operators.flatten, Table.predicate.Has op := by decide
  exact hall op h.mem

theorem Ended.expression {table : Table} {ts : List (Token ν)} (h : Ended table ts) : Ended .expression ts := by
  cases table with
  | expression => exact h
  | predicate => exact fun t ht hop => h t ht (has_predicate_of_expression hop)

theorem unjoined_of_text (text : String) (h : text ≠ "(" ∧ text ≠ ".") {t : Token ν} (ht : t.text = text)
    (ts : List (Token ν)) : Unjoined (t :: ts) := by
  rintro u ⟨⟩
  rw [ht]
  exact h

theorem follow_operator {table : Table} {op : String} (h : table.Has op) (ts : List (Token ν)) :
    Follow (.operator op :: ts) where
  unjoined := by
    rintro t ⟨⟩
    exact h.plain.1
  suffix := by
    rintro t ⟨⟩
    exact h.plain.2

theorem getBinaryPrecedence_operator {table : Table} {op : String} (h : table.Has op) :
    getBinaryPrecedence table.operators (some (.operator op : Token ν)) = table.level op := if_pos h

theorem getBinaryPrecedence_ended {table : Table} {ts : List (Token ν)} (h : Ended table ts) :
    getBinaryPrecedence table.operators ts.head? = -1 := by
  cases ts with
  | nil => rfl
  | cons t ts => exact if_neg (h t rfl)

/-! ### Operands -/

theorem parseSuffix_follow {ts : List (Token ν)} (h : Follow ts) (e : Expr φ) :
    Returns (fun n => parseSuffix float n e ts) (e, ts) := by
  refine Returns.step (fun n => ?_) (Returns.of_forall (fun _ => rfl))
  rw [parseSuffix, matchSeq_cons_none (fun t ht => (h.suffix t ht).1), matchSeq_cons_none (fun t ht => (h.suffix t ht).2)]

theorem parseDotList_parts {t : Token ν} {s : String}
    (ht : ∀ ts, expectStringOrIdentifier (t :: ts) = pure (s.toLower, ts)) (hs : s ≠ "") (parts : List NamePart)
    {rest : List (Token ν)} (hrest : Unjoined rest) :
    Returns (fun n => parseDotList n (t :: (parts.flatMap NamePart.tokens ++ rest)))
      (s.toLower :: parts.map (fun part => part.text.toLower), rest) := by
  have hlower : s.toLower ≠ "" := fun h => hs (String.map_eq_empty.mp h)
  induction parts generalizing t s with
  | nil =>
    refine Returns.step (fun n => ?_) (Returns.of_forall (fun _ => rfl))
    rw [parseDotList, ht, pure_bind]
    simp only [List.flatMap_nil, List.nil_append, hlower, if_false]
    rw [matchSeq_cons_none (fun t ht => (hrest t ht).2)]
    rfl
  | cons part parts ih =>
    have hpart : ∀ ts, expectStringOrIdentifier ((part.token : Token ν) :: ts) = pure (part.text.toLower, ts) := by
      intro ts
      rw [NamePart.token]
      cases part.quoted <;> rfl
    have hnonempty : part.text.toLower ≠ "" := fun h => part.nonempty (String.map_eq_empty.mp h)
    refine Returns.step (fun n => ?_) ((ih hpart part.nonempty hnonempty).bind
      (g := fun _ r => pure (s.toLower :: r.1, r.2)) (Returns.of_forall (fun _ => rfl)))
    rw [parseDotList, ht, pure_bind]
    simp only [hlower, if_false]
    rfl

theorem Name.parseIdentifier (name : Name) {rest : List (Token ν)} (hrest : Unjoined rest) :
    Returns (fun n => parseIdentifier (φ := φ) n (name.tokens ++ rest)) (.identifier name.text, rest) := by
  have hparts := parseDotList_parts (t := .identifier name.first) (fun _ => rfl) name.nonempty name.parts hrest
  exact hparts.bind (g := fun _ r => (pure (.identifier (".".intercalate r.1), r.2) : Outcome ν (Expr φ × List (Token ν))))
    (Returns.of_forall (fun _ => rfl))

/-- What `parse_primary` does behind a primary: nothing when it is a call. -/
def Primary.behind (p : Primary float) (e : Expr φ) (n : Nat) (rest : List (Token ν)) :
    Outcome ν (Expr φ × List (Token ν)) :=
  bif p.isCall then pure (e, rest) else parseSuffix float n e rest

/-- `parse_unary` reads a primary, up to what is done behind it. -/
def PrimaryParses (p : Primary float) (e : Expr φ) : Prop :=
  ∀ rest P, Unjoined rest → Settles (fun n => p.behind e n rest) P →
    Settles (fun n => parseUnary float n (p.tokens ++ rest)) P

theorem PrimaryParses.returns {p : Primary float} {e : Expr φ} (h : PrimaryParses p e) {rest : List (Token ν)}
    (hrest : Unjoined rest) {r : Expr φ × List (Token ν)} (hbehind : Returns (fun n => p.behind e n rest) r) :
    Returns (fun n => parseUnary float n (p.tokens ++ rest)) r :=
  returns_iff_settles.mpr (h rest _ hrest (returns_iff_settles.mp hbehind))

/-- A token with which `parse_unary` goes on to `parse_primary`. -/
theorem parseUnary_primary {t : Token ν} {ts : List (Token ν)} {P : Outcome ν (Expr φ × List (Token ν)) → Prop}
    (ht : t.isOperator = true → t.text ∉ unaryOperators)
    (h : Settles (fun n => parsePrimary float n (t :: ts)) P) : Settles (fun n => parseUnary float n (t :: ts)) P := by
  refine Settles.step (fun n => ?_) h
  have hnone : matchOperator ["-", "+", "~", "NOT"] (t :: ts) = none := if_neg (fun hop => ht hop.1 hop.2)
  rw [parseUnary, hnone]

theorem primaryParses_operand (o : Operand float) (h : (Primary.operand o).Readable) :
    PrimaryParses (.operand o) o.expr := by
  intro rest P hrest hsuffix
  cases o with
  | number value result converts =>
    refine parseUnary_primary (fun hop => by cases hop) (Settles.step (fun n => ?_) hsuffix)
    rw [parsePrimary, matchSeq_other "" (by decide) rfl]
    simp only [converts]
    rfl
  | boolean value =>
    refine parseUnary_primary (fun hop => by cases hop) (Settles.step (fun n => ?_) hsuffix)
    rw [parsePrimary, matchSeq_other "" (by decide) rfl]
    rfl
  | string value =>
    refine parseUnary_primary (fun hop => by cases hop) (Settles.step (fun n => ?_) hsuffix)
    rw [parsePrimary, matchSeq_other value h rfl]
    rfl
  | identifier name =>
    have hcall : matchSeq [none, some "("] (name.tokens ++ rest) = none := by
      change matchSeq [some "("] (name.parts.flatMap NamePart.tokens ++ rest) = none
      cases name.parts with
      | nil => exact matchSeq_cons_none (fun t ht => (hrest t ht).1)
      | cons part parts => exact matchSeq_other "." (by decide) rfl _
    refine parseUnary_primary (fun hop => by cases hop) (Settles.step (fun n => ?_)
      ((name.parseIdentifier hrest).bind_settles (g := fun n (r : Expr φ × List (Token ν)) => parseSuffix float n r.1 r.2)
        hsuffix))
    rw [parsePrimary, matchSeq_other name.first name.parenthesis.1 rfl]
    change (if (matchSeq [none, some "("] (name.tokens ++ rest)).isSome = true then _ else _) = _
    rw [hcall]
    rfl
  | wildcard =>
    refine parseUnary_primary (fun _ => by change "*" ∉ _; decide) (Settles.step (fun n => ?_) hsuffix)
    simp only [parsePrimary, matchSeq_other "*" (show "*" ≠ "(" by decide) (show (Token.operator "*" : Token ν).text = "*" from rfl)]
    rfl

/-- `parse_assignment` reads what stands in parentheses. -/
def AssignmentParses (a : Assignment float) (e : Expr φ) : Prop :=
  ∀ rest, Returns (fun n => parseAssignment float n (a.tokens ++ .punctuation ")" :: rest))
    (e, .punctuation ")" :: rest)

theorem parseUnary_group {a : Assignment float} {rest : List (Token ν)} {P : Outcome ν (Expr φ × List (Token ν)) → Prop}
    (h : Settles (fun n => parseAssignment float n (a.tokens ++ .punctuation ")" :: rest) >>= fun r =>
      expectSeq [some ")"] r.2 >>= parseSuffix float n r.1) P) :
    Settles (fun n => parseUnary float n ((Primary.group a).tokens ++ rest)) P := by
  have htokens : (Primary.group a).tokens ++ rest =
      .punctuation "(" :: (a.tokens ++ .punctuation ")" :: rest) := by simp [Primary.tokens]
  rw [htokens]
  refine parseUnary_primary (fun hop => by cases hop) (Settles.step (fun n => ?_) h)
  simp only [parsePrimary, matchSeq_text "(" (show (Token.punctuation "(" : Token ν).text = "(" from rfl)]

theorem AssignmentParses.group {a : Assignment float} {e : Expr φ} (h : AssignmentParses a e) :
    PrimaryParses (.group a) e := by
  intro rest P _ hsuffix
  have hclose : Settles (fun n => expectSeq [some ")"] (.punctuation ")" :: rest) >>= parseSuffix float n e) P := by
    rw [expectSeq_text ")" rfl]
    exact hsuffix
  exact parseUnary_group ((h rest).bind_settles
    (g := fun n (r : Expr φ × List (Token ν)) => expectSeq [some ")"] r.2 >>= parseSuffix float n r.1) hclose)

/-! ### Terms -/

theorem parseBinary_stops {operators : List (List String)} {min : Nat} {ts : List (Token ν)}
    (h : getBinaryPrecedence operators ts.head? < min) (e : Expr φ) :
    Returns (fun n => parseBinary float n operators e min ts) (e, ts) := by
  refine Returns.step (fun n => ?_) (Returns.of_forall (fun _ => rfl))
  cases ts with
  | nil => rfl
  | cons t ts =>
    rw [parseBinary]
    exact if_neg (Int.not_le.mpr h)

def TermParses (t : Term float) (e : Expr φ) : Prop :=
  ∀ rest, Follow rest → (t.endsBetween = true → Ended .expression rest) →
    Returns (fun n => parseUnary float n (t.tokens ++ rest)) (e, rest)

theorem PrimaryParses.term {p : Primary float} {e : Expr φ} (h : PrimaryParses p e) : TermParses (.primary p) e := by
  intro rest hrest _
  have hbehind : Returns (fun n => p.behind e n rest) (e, rest) := by
    unfold Primary.behind
    cases p.isCall with
    | true => exact Returns.of_forall (fun _ => rfl)
    | false => exact parseSuffix_follow hrest e
  exact h.returns hrest.unjoined hbehind

theorem TermParses.unary {t : Term float} {e : Expr φ} (h : TermParses t e) {op : String} (hop : op ∈ unaryOperators) :
    TermParses (.unary op t) (.unary op e) := by
  intro rest hrest hends
  refine Returns.step (fun n => ?_) ((h rest hrest hends).bind (g := fun _ r => pure (.unary op r.1, r.2))
    (Returns.of_forall (fun _ => rfl)))
  have hmatch : matchOperator ["-", "+", "~", "NOT"] (.operator op :: (t.tokens ++ rest)) =
      some (op, t.tokens ++ rest) := if_pos ⟨rfl, hop⟩
  rw [Term.tokens, List.cons_append, parseUnary, hmatch]

def ChainParses (table : Table) (c : Chain float) (e : Expr φ) : Prop :=
  ∀ rest, Stop table rest → Returns (fun n => parseUnary float n (c.tokens ++ rest) >>= fun r =>
    parseBinary float n table.operators r.1 0 r.2) (e, rest)

theorem ChainParses.parse {table : Table} {c : Chain float} {e : Expr φ} (h : ChainParses table c e)
    {rest : List (Token ν)} (hrest : Stop table rest) :
    Returns (fun n => table.parse float n (c.tokens ++ rest)) (e, rest) := by
  cases table with
  | expression => exact Returns.step (fun _ => rfl) (h rest hrest)
  | predicate => exact h rest hrest

theorem ChainParses.expression {c : Chain float} {e : Expr φ} (h : ChainParses .expression c e)
    {rest : List (Token ν)} (hrest : Stop .expression rest) :
    Returns (fun n => parseExpression float n (c.tokens ++ rest)) (e, rest) := h.parse hrest

theorem stop_of_text {table : Table} (text : String) (h : ¬ table.Has text)
    (hplain : (text ≠ "(" ∧ text ≠ ".") ∧ text ≠ "BETWEEN" ∧ text ≠ "NOT") {t : Token ν} (ht : t.text = text)
    (ts : List (Token ν)) : Stop table (t :: ts) where
  unjoined := unjoined_of_text text hplain.1 ht ts
  suffix := by
    rintro u ⟨⟩
    rw [ht]
    exact hplain.2
  ended := by
    rintro u ⟨⟩
    rw [ht]
    exact h

/-- `parse_between` goes on with the tokens of the second bound behind the first. -/
theorem parseBetween_low {low : Chain float} {lowExpr : Expr φ} (hlow : ChainParses .expression low lowExpr) (e : Expr φ)
    {ts : List (Token ν)} {P : Outcome ν (Expr φ × List (Token ν)) → Prop}
    (h : Settles (fun n => parseExpression float n ts >>= fun s => pure (betweenExpr e lowExpr lowExpr, s.2)) P) :
    Settles (fun n => parseBetween float n e (low.tokens ++ .operator "AND" :: ts)) P := by
  have hand : Stop .expression (.operator "AND" :: ts) := stop_of_text "AND" (by decide) (by decide) rfl _
  have hsecond : Settles (fun n => expectSeq [some "AND"] (.operator "AND" :: ts) >>= fun ts =>
      parseExpression float n ts >>= fun s => pure (betweenExpr e lowExpr lowExpr, s.2)) P := by
    rw [expectSeq_text "AND" rfl]
    exact h
  refine Settles.step (fun n => ?_) ((hlow.expression hand).bind_settles
    (g := fun n (r : Expr φ × List (Token ν)) => expectSeq [some "AND"] r.2 >>= fun ts =>
      parseExpression float n ts >>= fun s => pure (betweenExpr e r.1 r.1, s.2)) hsecond)
  rw [parseBetween]
  rfl

/-- What `parse_between` makes of the bounds it reads. -/
theorem parseBetween_returns {low high : Chain float} {lowExpr highExpr : Expr φ}
    (hlow : ChainParses .expression low lowExpr) (hhigh : ChainParses .expression high highExpr) (e : Expr φ)
    {rest : List (Token ν)} (hrest : Stop .expression rest) :
    Returns (fun n => parseBetween float n e (low.tokens ++ .operator "AND" :: (high.tokens ++ rest)))
      (betweenExpr e lowExpr lowExpr, rest) := by
  have hparse : Returns (fun n => parseExpression float n (high.tokens ++ rest)) (highExpr, rest) :=
    hhigh.expression hrest
  have hsecond : Returns (fun n => parseExpression float n (high.tokens ++ rest) >>= fun s =>
      pure (betweenExpr e lowExpr lowExpr, s.2)) (betweenExpr e lowExpr lowExpr, rest) :=
    hparse.bind (g := fun _ s => pure (betweenExpr e lowExpr lowExpr, s.2)) (Returns.of_forall (fun _ => rfl))
  exact returns_iff_settles.mpr (parseBetween_low hlow e hsecond)

/-- What is done behind an operand in front of a `BETWEEN`. -/
theorem parseSuffix_between (n : Nat) (e : Expr φ) (negated : Bool) (ts : List (Token ν)) :
    parseSuffix float (n + 1) e ((if negated then [.operator "NOT"] else []) ++ .identifier "BETWEEN" :: ts) =
      parseBetween float n e ts >>= fun r => pure (if negated then .unary "NOT" r.1 else r.1, r.2) := by
  cases negated with
  | false =>
    simp only [Bool.false_eq_true, if_false, List.nil_append]
    rw [parseSuffix, matchSeq_text "BETWEEN" rfl]
    exact (bind_pure _).symm
  | true =>
    simp only [if_true, List.singleton_append]
    rw [parseSuffix, matchSeq_other "NOT" (by decide) rfl]
    rfl

theorem unjoined_between (negated : Bool) (ts : List (Token ν)) :
    Unjoined ((if negated then [.operator "NOT"] else []) ++ .identifier "BETWEEN" :: ts) := by
  cases negated with
  | false => exact unjoined_of_text "BETWEEN" (by decide) rfl _
  | true => exact unjoined_of_text "NOT" (by decide) rfl _

theorem PrimaryParses.between {p : Primary float} {e : Expr φ} (h : PrimaryParses p e) (hcall : p.isCall = false)
    {low high : Chain float} {lowExpr highExpr : Expr φ} (hlow : ChainParses .expression low lowExpr)
    (hhigh : ChainParses .expression high highExpr) (negated : Bool) :
    TermParses (.between p negated low high)
      (if negated then .unary "NOT" (betweenExpr e lowExpr lowExpr) else betweenExpr e lowExpr lowExpr) := by
  intro rest hrest hends
  have hbetween := parseBetween_returns hlow hhigh e (Stop.mk hrest (hends rfl))
  have hbehind : Returns (fun n => p.behind e n ((if negated then [.operator "NOT"] else []) ++
      .identifier "BETWEEN" :: (low.tokens ++ .operator "AND" :: (high.tokens ++ rest))))
      (if negated then .unary "NOT" (betweenExpr e lowExpr lowExpr) else betweenExpr e lowExpr lowExpr, rest) := by
    simp only [Primary.behind, hcall, cond_false]
    exact Returns.step (fun n => parseSuffix_between n e negated _)
      (hbetween.bind (g := fun _ r => pure (if negated then .unary "NOT" r.1 else r.1, r.2))
        (Returns.of_forall (fun _ => rfl)))
  have hread := h.returns (unjoined_between negated _) hbehind
  simp only [Term.tokens, List.append_assoc, List.cons_append]
  exact hread

/-- A token of a call's name is read as an operand that ends with the call. -/
theorem parseFunctionCall_term {name : String} (hname : name ≠ "(") {ts : List (Token ν)}
    {P : Outcome ν (Expr φ × List (Token ν)) → Prop}
    (h : Settles (fun n => parseFunctionCall float n (.identifier name :: .punctuation "(" :: ts)) P) :
    Settles (fun n => parseUnary float n (.identifier name :: .punctuation "(" :: ts)) P := by
  refine parseUnary_primary (fun hop => by cases hop) (Settles.step (fun n => ?_) h)
  have hcall : (matchSeq [none, some "("] (.identifier name :: .punctuation "(" :: ts : List (Token ν))).isSome = true := by
    change (matchSeq [some "("] (.punctuation "(" :: ts : List (Token ν))).isSome = true
    rw [matchSeq_text "(" rfl]
    rfl
  rw [parsePrimary, matchSeq_other name hname rfl]
  exact if_pos hcall

theorem primaryParses_call {name : String} (hname : name ≠ "(") :
    PrimaryParses (.call name : Primary float) (.call name.toLower []) := by
  intro rest P _ hbehind
  refine parseFunctionCall_term hname (Settles.step (fun n => ?_) hbehind)
  simp [parseFunctionCall, expectIdentifier, expectSeq, Primary.behind, Primary.isCall]

def ArgumentsParse (args : Arguments float) (es : List (Expr φ)) : Prop :=
  ∀ rest, Returns (fun n => parseCommaList float n (args.tokens ++ .punctuation ")" :: rest))
    (es, .punctuation ")" :: rest)

theorem ChainParses.lastArgument {c : Chain float} {e : Expr φ} (h : ChainParses .expression c e) :
    ArgumentsParse (.last c) [e] := by
  intro rest
  have hstop : Stop .expression (.punctuation ")" :: rest) := stop_of_text ")" (by decide) (by decide) rfl _
  exact (h.expression hstop).step_bind (fun n => rfl) (Returns.of_forall (fun _ => by simp))

theorem ChainParses.moreArguments {c : Chain float} {e : Expr φ} (h : ChainParses .expression c e)
    {args : Arguments float} {es : List (Expr φ)} (hargs : ArgumentsParse args es) :
    ArgumentsParse (.more c args) (e :: es) := by
  intro rest
  have hstop : Stop .expression (.punctuation "," :: (args.tokens ++ .punctuation ")" :: rest)) :=
    stop_of_text "," (by decide) (by decide) rfl _
  have htokens : (Arguments.more c args).tokens ++ .punctuation ")" :: rest =
      c.tokens ++ .punctuation "," :: (args.tokens ++ .punctuation ")" :: rest) := by simp [Arguments.tokens]
  rw [htokens]
  refine (h.expression hstop).step_bind (fun n => rfl) ?_
  simp only [matchSeq_text "," (Token.text_punctuation (ν := ν) ",")]
  exact (hargs rest).bind (g := fun _ r => pure (e :: r.1, r.2)) (Returns.of_forall (fun _ => rfl))

theorem ChainParses.group {c : Chain float} {e : Expr φ} (h : ChainParses .predicate c e) :
    AssignmentParses (.predicate c) e := by
  intro rest
  have hstop : Stop .predicate (.punctuation ")" :: rest) := stop_of_text ")" (by decide) (by decide) rfl _
  have hnone : matchSeq [some "="] (.punctuation ")" :: rest) = none := matchSeq_other ")" (by decide) rfl _
  refine (h _ hstop).step_bind (fun n => (bind_assoc ..).symm) (Returns.of_forall (fun n => ?_))
  cases e with
  | identifier name => simp only [hnone]
  | _ => rfl

/-- A name with an equals sign behind it. -/
theorem parseAssignment_name (name : Name) {ts : List (Token ν)} {P : Outcome ν (Expr φ × List (Token ν)) → Prop}
    (h : Settles (fun n => parseAssignment float n ts >>= fun r => pure (.assignment name.text r.1, r.2)) P) :
    Settles (fun n => parseAssignment float n (name.tokens ++ .operator "=" :: ts)) P := by
  have hequal : Stop .predicate (.operator "=" :: ts) := stop_of_text "=" (by decide) (by decide) rfl _
  have hname : PrimaryParses (.operand (.identifier name) : Primary float) (.identifier name.text) :=
    primaryParses_operand (.identifier name) trivial
  have hprec : getBinaryPrecedence Table.predicate.operators (.operator "=" :: ts).head? < (0 : Nat) := by
    rw [getBinaryPrecedence_ended hequal.ended]
    decide
  have hunary : Returns (fun n => parseUnary float n (name.tokens ++ .operator "=" :: ts))
      (.identifier name.text, .operator "=" :: ts) :=
    hname.term _ hequal.toFollow (by simp [Term.endsBetween])
  refine Settles.step (fun n => rfl) (hunary.bind_settles ((parseBinary_stops hprec _).bind_settles ?_))
  simp only [matchSeq_text "=" (Token.text_operator (ν := ν) "=")]
  exact h

theorem AssignmentParses.assign {a : Assignment float} {e : Expr φ} (h : AssignmentParses a e) (name : Name) :
    AssignmentParses (.assign name a) (.assignment name.text e) := by
  intro rest
  have hvalue : Returns (fun n => parseAssignment float n (a.tokens ++ .punctuation ")" :: rest) >>= fun r =>
      pure (Expr.assignment name.text r.1, r.2)) (.assignment name.text e, .punctuation ")" :: rest) :=
    (h rest).bind (g := fun _ (r : Expr φ × List (Token ν)) => pure (Expr.assignment name.text r.1, r.2))
      (Returns.of_forall (fun _ => rfl))
  rw [Assignment.tokens, List.append_assoc, List.cons_append]
  exact returns_iff_settles.mpr (parseAssignment_name name hvalue)

/-- The arguments of a call do not begin with what is taken for its end. -/
theorem parseUnary_callWith {args : Arguments float} {name : String} (hname : name ≠ "(")
    (hfirst : ∃ t ts, args.tokens = t :: ts ∧ t.text ≠ ")") {rest : List (Token ν)}
    {P : Outcome ν (Expr φ × List (Token ν)) → Prop}
    (h : Settles (fun n => parseCommaList float n (args.tokens ++ .punctuation ")" :: rest) >>= fun r =>
      expectSeq [some ")"] r.2 >>= fun ts => pure (.call name.toLower r.1, ts)) P) :
    Settles (fun n => parseUnary float n ((Primary.callWith name args).tokens ++ rest)) P := by
  obtain ⟨t, ts, htokens, ht⟩ := hfirst
  have hnone : matchSeq [some ")"] (args.tokens ++ .punctuation ")" :: rest) = none := by
    rw [htokens]
    exact if_neg (by simpa using ht)
  have hargs : (Primary.callWith name args).tokens ++ rest =
      .identifier name :: .punctuation "(" :: (args.tokens ++ .punctuation ")" :: rest) := by simp [Primary.tokens]
  rw [hargs]
  refine parseFunctionCall_term hname (Settles.step (fun n => ?_) h)
  simp only [parseFunctionCall, expectIdentifier, pure_bind, hnone,
    expectSeq_text "(" (Token.text_punctuation (ν := ν) "(")]

theorem ArgumentsParse.call {args : Arguments float} {es : List (Expr φ)} (h : ArgumentsParse args es) {name : String}
    (hname : name ≠ "(") (hfirst : ∃ t ts, args.tokens = t :: ts ∧ t.text ≠ ")") :
    PrimaryParses (.callWith name args) (.call name.toLower es) := by
  intro rest P _ hbehind
  have hclose : Settles (fun _ => expectSeq [some ")"] (.punctuation ")" :: rest) >>= fun ts =>
      (pure (.call name.toLower es, ts) : Outcome ν (Expr φ × List (Token ν)))) P := by
    rw [expectSeq_text ")" rfl]
    exact hbehind
  exact parseUnary_callWith hname hfirst ((h rest).bind_settles
    (g := fun _ r => expectSeq [some ")"] r.2 >>= fun ts => pure (Expr.call name.toLower r.1, ts)) hclose)

/-! ### Chains -/

def render (xs : List (String × Term float × Expr φ)) : List (Token ν) :=
  xs.flatMap (fun x => .operator x.1 :: x.2.1.tokens)

def parsed (xs : List (String × Term float × Expr φ)) : List (String × Expr φ) := xs.map (fun x => (x.1, x.2.2))

@[simp] theorem render_nil : render ([] : List (String × Term float × Expr φ)) = [] := rfl

@[simp] theorem render_cons (x : String × Term float × Expr φ) (xs : List (String × Term float × Expr φ)) :
    render (x :: xs) = .operator x.1 :: (x.2.1.tokens ++ render xs) := rfl

/-- Terms that are parsed, each with an operator of the table before it. An operator of expressions does not come behind
a `BETWEEN`. -/
def Listed (table : Table) : List (String × Term float × Expr φ) → Prop
  | [] => True
  | x :: xs =>
    table.Has x.1 ∧ TermParses x.2.1 x.2.2 ∧
      (x.2.1.endsBetween = true → ∀ y ∈ xs.head?, ¬ Table.expression.Has y.1) ∧ Listed table xs

theorem Listed.of_append {table : Table} {xs ys : List (String × Term float × Expr φ)} (h : Listed table (xs ++ ys)) :
    Listed table ys := by
  induction xs with
  | nil => exact h
  | cons x xs ih => exact ih h.2.2.2

theorem follow_render {table : Table} {xs : List (String × Term float × Expr φ)} (h : Listed table xs)
    {tail : List (Token ν)} (htail : Stop table tail) : Follow (render xs ++ tail) := by
  cases xs with
  | nil => exact htail.toFollow
  | cons x xs => exact follow_operator h.1 _

theorem ended_render {table : Table} {xs : List (String × Term float × Expr φ)} {tail : List (Token ν)}
    (htail : Stop table tail) (h : ∀ x ∈ xs.head?, ¬ Table.expression.Has x.1) :
    Ended .expression (render xs ++ tail) := by
  cases xs with
  | nil => exact htail.ended.expression
  | cons x xs =>
    rintro t ⟨⟩
    exact h x rfl

theorem getBinaryPrecedence_render {table : Table} {xs : List (String × Term float × Expr φ)} (h : Listed table xs)
    {tail : List (Token ν)} (htail : Stop table tail) :
    getBinaryPrecedence table.operators (render xs ++ tail).head? =
      (xs.head?.map (fun x => (table.level x.1 : Int))).getD (-1) := by
  cases xs with
  | nil => exact getBinaryPrecedence_ended htail.ended
  | cons x xs => exact getBinaryPrecedence_operator h.1

/-- What `parse_binary` makes of a tree and what comes behind it. It stops at an operator of lower precedence. -/
def Climbs (table : Table) (xs : List (String × Term float × Expr φ)) : Prop :=
  ∀ lhs min, lhs.Eager table.level min (xs.head?.map Prod.fst) →
    ∃ t ys zs, xs = ys ++ zs ∧ t.head = lhs.head ∧ t.rest = lhs.rest ++ parsed ys ∧
      t.Eager table.level min (zs.head?.map Prod.fst) ∧ (∀ z ∈ zs.head?, table.level z.1 < min) ∧
      ∀ tail, Stop table tail → Returns (fun n => parseBinary float n table.operators (treeExpr lhs) min (render xs ++ tail))
        (treeExpr t, render zs ++ tail)

theorem parseRight_stops {operators : List (List String)} {p : Nat} {ts : List (Token ν)}
    (h : getBinaryPrecedence operators ts.head? ≤ p) (e : Expr φ) :
    Returns (fun n => parseRight float n operators e p ts) (e, ts) := by
  refine Returns.step (fun n => ?_) (Returns.of_forall (fun _ => rfl))
  rw [parseRight]
  exact if_neg (Int.not_lt.mpr h)

theorem ops_of_parsed {t : OpTree (Expr φ) String} {ys : List (String × Term float × Expr φ)}
    (h : t.rest = parsed ys) : t.ops = ys.map Prod.fst := by
  rw [OpTree.ops, h, parsed, List.map_map]
  rfl

theorem parseRight_spec {table : Table} {xs : List (String × Term float × Expr φ)} (h : Listed table xs)
    (hclimbs : Climbs table xs) (e : Expr φ) (min : Nat) :
    ∃ r ys zs, xs = ys ++ zs ∧ r.head = e ∧ r.rest = parsed ys ∧
      (r.ops = [] → ∀ c ∈ zs.head?.map Prod.fst, table.level c ≤ min) ∧
      (∀ p ∈ r.ops.head?, min < table.level p ∧ r.Eager table.level (table.level p) (zs.head?.map Prod.fst) ∧
        ∀ c ∈ zs.head?.map Prod.fst, table.level c < table.level p) ∧
      ∀ tail, Stop table tail → Returns (fun n => parseRight float n table.operators e min (render xs ++ tail))
        (treeExpr r, render zs ++ tail) := by
  have hprec (tail : List (Token ν)) (htail : Stop table tail) := getBinaryPrecedence_render h htail
  by_cases hstop : ∀ x ∈ xs.head?, table.level x.1 ≤ min
  · refine ⟨.leaf e, [], xs, rfl, rfl, rfl, fun _ c hc => ?_, by simp, fun tail htail => ?_⟩
    · obtain ⟨x, hx, rfl⟩ := Option.map_eq_some_iff.mp hc
      exact hstop x hx
    · refine parseRight_stops ?_ e
      rw [hprec tail htail]
      cases xs with
      | nil => exact Int.le_trans (show (-1 : Int) ≤ 0 by decide) (Int.natCast_nonneg min)
      | cons x xs => exact Int.ofNat_le.mpr (hstop x rfl)
  · cases xs with
    | nil => simp at hstop
    | cons x xs =>
      have hlt : min < table.level x.1 := by simpa using hstop
      obtain ⟨r, ys, zs, hxs, hhead, hrest, heager, hzs, hreturns⟩ := hclimbs (.leaf e) (table.level x.1) trivial
      have hops : r.ops = ys.map Prod.fst := ops_of_parsed hrest
      have hfirst : r.ops.head? = some x.1 := by
        cases ys with
        | nil => exact absurd (hzs x (by rw [← List.nil_append zs, ← hxs]; rfl)) (Nat.lt_irrefl _)
        | cons y ys =>
          obtain ⟨rfl, -⟩ := List.cons.inj hxs
          rw [hops]
          rfl
      have hnext : ∀ c ∈ zs.head?.map Prod.fst, table.level c < table.level x.1 := by
        intro c hc
        obtain ⟨z, hz, rfl⟩ := Option.map_eq_some_iff.mp hc
        exact hzs z hz
      refine ⟨r, ys, zs, hxs, hhead, hrest, fun hnil => ?_, fun p hp => ?_, fun tail htail => ?_⟩
      · rw [hnil] at hfirst
        cases hfirst
      · obtain rfl := Option.some.inj (hfirst.symm.trans hp)
        exact ⟨hlt, heager, hnext⟩
      · have hlisted : Listed table zs := (show Listed table (ys ++ zs) from hxs ▸ h).of_append
        have hstops : Returns (fun n => parseRight float n table.operators (treeExpr r) (table.level x.1)
            (render zs ++ tail)) (treeExpr r, render zs ++ tail) := by
          refine parseRight_stops ?_ _
          rw [getBinaryPrecedence_render hlisted htail]
          cases zs with
          | nil => exact Int.le_trans (show (-1 : Int) ≤ 0 by decide) (Int.natCast_nonneg _)
          | cons z zs => exact Int.ofNat_le.mpr (Nat.le_of_lt (hzs z rfl))
        refine (hreturns tail htail).step_bind (g := fun n (s : Expr φ × List (Token ν)) =>
          parseRight float n table.operators s.1 (table.level x.1) s.2) (fun n => ?_) hstops
        have hhead : getBinaryPrecedence table.operators (render (x :: xs) ++ tail).head? = table.level x.1 :=
          hprec tail htail
        rw [parseRight, hhead]
        exact if_pos (Int.ofNat_lt.mpr hlt)

/-- `parse_binary` climbs eagerly. -/
theorem climbs {table : Table} {xs : List (String × Term float × Expr φ)} (h : Listed table xs) : Climbs table xs := by
  induction hn : xs.length using Nat.strongRecOn generalizing xs with
  | ind n ih =>
    intro lhs min heager
    cases xs with
    | nil =>
      refine ⟨lhs, [], [], rfl, rfl, (List.append_nil _).symm, heager, by simp, fun tail htail => ?_⟩
      refine parseBinary_stops ?_ _
      rw [getBinaryPrecedence_render h htail]
      exact Int.lt_of_lt_of_le (show (-1 : Int) < 0 by decide) (Int.natCast_nonneg min)
    | cons x xs =>
      obtain ⟨hop, hterm, hends, hlisted⟩ := h
      by_cases hmin : min ≤ table.level x.1
      · obtain ⟨r, ys, zs, rfl, hhead, hrest, hnone, hsome, hright⟩ :=
          parseRight_spec hlisted (ih xs.length (by rw [← hn]; exact Nat.lt_succ_self _) hlisted rfl) x.2.2 min
        have hnode : (OpTree.node lhs x.1 r).Eager table.level min (zs.head?.map Prod.fst) :=
          ⟨heager, hmin, hnone, hsome⟩
        have hlength : zs.length < n := by
          rw [← hn, List.length_cons, List.length_append]
          omega
        obtain ⟨t, ys', zs', rfl, hhead', hrest', heager', hzs', hreturns⟩ :=
          ih zs.length hlength hlisted.of_append rfl (.node lhs x.1 r) min hnode
        refine ⟨t, x :: (ys ++ ys'), zs', by simp, hhead', ?_, heager', hzs', fun tail htail => ?_⟩
        · rw [hrest', OpTree.rest, hrest, hhead]
          simp [parsed]
        · have hunary := hterm (render (ys ++ (ys' ++ zs')) ++ tail) (follow_render hlisted htail)
            (fun hbetween => ended_render htail (hends hbetween))
          refine hunary.step_bind (g := fun n (r : Expr φ × List (Token ν)) =>
            parseRight float n table.operators r.1 min r.2 >>= fun r =>
              parseBinary float n table.operators (.binary x.1 (treeExpr lhs) r.1) min r.2) (fun n => ?_)
            ((hright tail htail).bind (g := fun n (r : Expr φ × List (Token ν)) =>
              parseBinary float n table.operators (.binary x.1 (treeExpr lhs) r.1) min r.2) (hreturns tail htail))
          rw [render_cons, List.cons_append, List.append_assoc, parseBinary, getBinaryPrecedence_operator hop]
          exact if_pos (Int.ofNat_le.mpr hmin)
      · refine ⟨lhs, [], x :: xs, rfl, rfl, (List.append_nil _).symm, heager, ?_, fun tail htail => ?_⟩
        · rintro z ⟨⟩
          exact Nat.lt_of_not_le hmin
        · refine parseBinary_stops ?_ _
          rw [render_cons, List.cons_append, List.head?_cons, getBinaryPrecedence_operator hop]
          exact Int.ofNat_lt.mpr (Nat.lt_of_not_le hmin)

end RaleighSL.Client.Rql
