import RaleighSL.Library.Fuel
import RaleighSL.Zcl.Evaluator.Grammar

/-!
# How the parser reads the parts of a predicate

What comes behind a part of a predicate does not go on with it, so the parser stops there. At the end
of its input the lexer keeps the text of the last token, which ends every part of a predicate. A part
is read when the parser copies no string literal in it, whose bytes are not set.
-/
namespace RaleighSL.Zcl.Evaluator

open Library

/-! ### Copies and sizes -/

section

variable {φ : Type*}

def Expr.size : Expr φ → Nat
  | .unary _ e => e.size + 1
  | .binary _ l r => l.size + r.size + 1
  | _ => 1

/-- The expression has no string whose bytes are not set. -/
def Expr.Copies (e : Expr φ) : Prop := e.copy = some e

theorem Expr.eq_of_copy {e d : Expr φ} (h : e.copy = some d) : d = e := by
  induction e generalizing d with
  | string bytes =>
    obtain ⟨text, hbytes, rfl⟩ := Option.map_eq_some_iff.mp h
    rw [hbytes]
  | unary type operand ih =>
    obtain ⟨operand', hoperand, rfl⟩ := Option.map_eq_some_iff.mp h
    rw [ih hoperand]
  | binary type left right ihl ihr =>
    obtain ⟨left', hleft, h⟩ := Option.bind_eq_some_iff.mp h
    obtain ⟨right', hright, rfl⟩ := Option.map_eq_some_iff.mp h
    rw [ihl hleft, ihr hright]
  | function arg₀ arg₁ arg₂ arg₃ ih₀ ih₁ ih₂ ih₃ =>
    obtain ⟨a, h₀, h⟩ := Option.bind_eq_some_iff.mp h
    obtain ⟨b, h₁, h⟩ := Option.bind_eq_some_iff.mp h
    obtain ⟨c, h₂, h⟩ := Option.bind_eq_some_iff.mp h
    obtain ⟨d, h₃, rfl⟩ := Option.map_eq_some_iff.mp h
    rw [ih₀ h₀, ih₁ h₁, ih₂ h₂, ih₃ h₃]
  | _ => exact (Option.some.inj h).symm

theorem Expr.copy_eq_none {e : Expr φ} (h : ¬ e.Copies) : e.copy = none := by
  cases hcopy : e.copy with
  | none => rfl
  | some d =>
    rw [Expr.eq_of_copy hcopy] at hcopy
    exact absurd hcopy h

@[simp] theorem Expr.copies_unary {type : UnaryType} {e : Expr φ} : (Expr.unary type e).Copies ↔ e.Copies := by
  simp [Expr.Copies, Expr.copy]

@[simp] theorem Expr.copies_binary {type : BinaryType} {l r : Expr φ} :
    (Expr.binary type l r).Copies ↔ l.Copies ∧ r.Copies := by
  simp [Expr.Copies, Expr.copy, Option.bind_eq_some_iff]

/-- A copy is read like a step that may fail. -/
theorem yieldsIf_copy {β : Type*} {e : Expr φ} {p : Prop} {g : Nat → Expr φ → Option β} {b : β}
    (h : e.Copies → YieldsIf p (fun n => g n e) b) : YieldsIf (e.Copies ∧ p) (fun n => e.copy.bind (g n)) b where
  yields := by
    rintro ⟨hcopy, hp⟩
    have hyields := (h hcopy).yields hp
    rw [Expr.Copies] at hcopy
    simpa only [hcopy, Option.bind_some] using hyields
  stalls := by
    intro hnot
    by_cases hcopy : e.Copies
    · have hstalls := (h hcopy).stalls (fun hp => hnot ⟨hcopy, hp⟩)
      rw [Expr.Copies] at hcopy
      simpa only [hcopy, Option.bind_some] using hstalls
    · exact ⟨0, fun n _ => by simp only [Expr.copy_eq_none hcopy, Option.bind_none]⟩

end

/-! ### The lexer -/

/-- The lexer at the first of some tokens, which come after a last one. -/
def Lexer.at (last : Token) : List Token → Lexer
  | [] => { token := { type := .unknown, text := last.text }, rest := [] }
  | t :: ts => { token := t, rest := ts }

def Lexer.start (ts : List Token) : Lexer := Lexer.at ⟨.unknown, ""⟩ ts

theorem Lexer.at_cons_token (last t : Token) (ts : List Token) : (Lexer.at last (t :: ts)).token = t := rfl

theorem Lexer.at_cons_next (last t : Token) (ts : List Token) : (Lexer.at last (t :: ts)).next = Lexer.at t ts := by
  cases ts <;> rfl

def lastOf (last : Token) (ts : List Token) : Token := ts.foldl (fun _ t => t) last

@[simp] theorem lastOf_nil (last : Token) : lastOf last [] = last := rfl

@[simp] theorem lastOf_cons (last t : Token) (ts : List Token) : lastOf last (t :: ts) = lastOf t ts := rfl

@[simp] theorem lastOf_append (last : Token) (ts us : List Token) :
    lastOf last (ts ++ us) = lastOf (lastOf last ts) us := List.foldl_append

/-- A token behind an operand that is not taken for a part of it. -/
structure Plain (t : Token) : Prop where
  keyword : t.text ≠ "NOT" ∧ t.text ≠ "IN" ∧ t.text ≠ "BETWEEN"
  parenthesis : t.begins '(' = false

structure Ends (least : Nat) (t : Token) : Prop extends Plain t where
  operator : ∀ p ∈ binaryPrecedence t.text, p.2 < least

theorem Ends.mono {least least' : Nat} {t : Token} (h : Ends least t) (hle : least ≤ least') : Ends least' t :=
  ⟨h.toPlain, fun p hp => Nat.lt_of_lt_of_le (h.operator p hp) hle⟩

theorem BinaryToken.plain (b : BinaryToken) : Plain b.token := by
  have h := b.operator
  unfold binaryPrecedence at h
  split at h
  case h_23 => cases h
  all_goals
    next heq =>
    refine ⟨?_, ?_⟩
    · rw [heq]
      decide
    · rw [Token.begins, heq]
      decide

theorem ends_closeParenthesis : Ends 0 closeParenthesis := ⟨⟨by decide, by decide⟩, by decide⟩

theorem ends_comma : Ends 0 comma := ⟨⟨by decide, by decide⟩, by decide⟩

theorem ends_and : Ends expressionPrecedence ⟨.operator, "AND"⟩ := ⟨⟨by decide, by decide⟩, by decide⟩

theorem Operand.ends (o : Operand) : Ends 0 o.token :=
  ⟨⟨o.word.keyword, o.parenthesis⟩, by simp [o.word.operator]⟩

mutual

/-- The text of the last token of a part stays with the lexer at the end of its input. -/
theorem Primary.ends_lastOf (p : Primary) (last : Token) : Ends 0 (lastOf last p.tokens) :=
  match p with
  | .operand o => o.ends
  | .group c => by
    rw [Primary.tokens, lastOf_cons, lastOf_append]
    exact ends_closeParenthesis
  | .call _ => ends_closeParenthesis
  | .callWith _ args => by
    rw [Primary.tokens, lastOf_cons, lastOf_cons, lastOf_append]
    exact ends_closeParenthesis

theorem Term.ends_lastOf (t : Term) (last : Token) : Ends 0 (lastOf last t.tokens) :=
  match t with
  | .primary p => p.ends_lastOf last
  | .within p negate xs => by
    rw [Term.tokens, lastOf_append, lastOf_append, lastOf_cons, lastOf_append]
    exact ends_closeParenthesis
  | .between p negate low high => by
    rw [Term.tokens, lastOf_append, lastOf_append, lastOf_append, lastOf_cons]
    exact high.ends_lastOf _
  | .unary u t => t.ends_lastOf u.token

theorem Chain.ends_lastOf (c : Chain) (last : Token) : Ends 0 (lastOf last c.tokens) :=
  match c with
  | .last t => t.ends_lastOf last
  | .more t b c => by
    rw [Chain.tokens, lastOf_append, lastOf_cons]
    exact c.ends_lastOf b.token

end

/-- The tokens behind an operand do not make it a call. -/
def Unjoined (ts : List Token) : Prop := ∀ t ∈ ts.head?, t.begins '(' = false

/-- The tokens behind a chain of operators of a least precedence do not go on with it. -/
def Stop (least : Nat) (ts : List Token) : Prop := ∀ t ∈ ts.head?, Ends least t

/-- The tokens behind a term do not go on with it. -/
structure Follow (t : Term) (ts : List Token) : Prop where
  plain : ∀ u ∈ ts.head?, Plain u
  bound : t.endsBetween = true → Stop expressionPrecedence ts

theorem Stop.ends {least : Nat} {last : Token} {ts : List Token} (h : Stop least ts) (hlast : Ends 0 last) :
    Ends least (Lexer.at last ts).token := by
  cases ts with
  | nil => exact ⟨⟨hlast.keyword, hlast.parenthesis⟩, (hlast.mono (Nat.zero_le least)).operator⟩
  | cons t ts => exact h t rfl

theorem Follow.plain_at {t : Term} {last : Token} {ts : List Token} (h : Follow t ts) (hlast : Ends 0 last) :
    Plain (Lexer.at last ts).token := by
  cases ts with
  | nil => exact ⟨hlast.keyword, hlast.parenthesis⟩
  | cons u ts => exact h.plain u rfl

theorem Follow.unjoined {t : Term} {ts : List Token} (h : Follow t ts) : Unjoined ts :=
  fun u hu => (h.plain u hu).parenthesis

theorem stop_cons {least : Nat} {t : Token} (h : Ends least t) (ts : List Token) : Stop least (t :: ts) := by
  rintro u ⟨⟩
  exact h

/-! ### Parts of predicates -/

section

variable {φ : Type*} (env : Environment φ)

/-- The parser reads a primary, goes on behind it, and gives an expression, which is the grouped one exactly when the
primary is clean. -/
structure PrimaryParses (p : Primary) (e : Expr φ) : Prop where
  reads : ∀ (last : Token) (rest : List Token) (slot : Expr φ) {b : Expr φ × Lexer × ParserError} {q : Prop},
    Unjoined rest → YieldsIf q (fun n => parseSuffix env n (Lexer.at (lastOf last p.tokens) rest) e) b →
      YieldsIf (p.Copied ∧ q) (fun n => parseUnary env n (Lexer.at last (p.tokens ++ rest)) slot) b
  copies : e.Copies ↔ p.StringFree
  size : e.size = (p.expr env).size
  grouped : e = p.expr env ↔ p.Clean

structure TermParses (t : Term) (e : Expr φ) : Prop where
  reads : ∀ (last : Token) (rest : List Token) (slot : Expr φ), Follow t rest →
    YieldsIf t.Copied (fun n => parseUnary env n (Lexer.at last (t.tokens ++ rest)) slot)
      (e, Lexer.at (lastOf last t.tokens) rest, .ok)
  copies : e.Copies ↔ t.StringFree
  size : e.size = (t.expr env).size
  grouped : e = t.expr env ↔ t.Clean

structure ChainParses (least : Nat) (c : Chain) (e : Expr φ) : Prop where
  reads : ∀ (last : Token) (rest : List Token) (slot : Expr φ), Stop least rest →
    YieldsIf c.Copied (fun n => (parseUnary env n (Lexer.at last (c.tokens ++ rest)) slot).bind
      (fun r => parseBinary env n r.2.1 r.1 least)) (e, Lexer.at (lastOf last c.tokens) rest)
  copies : e.Copies ↔ c.StringFree
  size : e.size = (c.expr env).size
  grouped : e = c.expr env ↔ c.Clean

/-- The parser reads the elements of a list, and makes of each what it makes of its expression. -/
structure ElementsParse (xs : Elements) (es : Expr φ × List (Expr φ)) : Prop where
  reads : ∀ (type : BinaryType) {value : Expr φ} {f : Expr φ → Expr φ} (last : Token) (rest : List Token),
    value.Copies → (∀ x, (f x).Copies ↔ x.Copies) →
      YieldsIf xs.Copied (fun n =>
        (parsePredicate env n (Lexer.at last (xs.tokens ++ closeParenthesis :: rest)) env.expr).bind
          (fun r => parseIn env n r.2 type value (f r.1)))
        (joined type value (f es.1) es.2, Lexer.at closeParenthesis rest, .ok)
  copies : (∀ x ∈ es.1 :: es.2, x.Copies) ↔ xs.StringFree
  size : (es.1 :: es.2).map Expr.size = ((xs.exprs env).1 :: (xs.exprs env).2).map Expr.size
  grouped : es = xs.exprs env ↔ xs.Clean

variable {env}

theorem parseSuffix_plain {lex : Lexer} {e : Expr φ} (h : Plain lex.token) :
    Yields (fun n => parseSuffix env n lex e) (e, lex, .ok) := by
  refine ⟨1, fun n hn => ?_⟩
  obtain ⟨m, rfl⟩ := Nat.exists_eq_add_of_le' hn
  simp [parseSuffix, h.keyword.1, h.keyword.2.1, h.keyword.2.2]

/-! ### Operands -/

theorem Operand.copies (o : Operand) : (o.expr env).Copies ↔ (Primary.operand o).StringFree := by
  have htype := o.type
  rw [Operand.expr, Primary.StringFree]
  cases heq : o.token.type with
  | operator =>
    rw [heq] at htype
    exact absurd htype (by decide)
  | unknown =>
    rw [heq] at htype
    exact absurd htype (by decide)
  | string => exact iff_of_false (by simp [Expr.Copies, Expr.copy]) (by decide)
  | _ => exact iff_of_true rfl (by decide)

theorem primaryParses_operand (o : Operand) : PrimaryParses env (.operand o) (o.expr env) where
  reads := by
    intro last rest slot b q hunjoined hsuffix
    have hnext : (Lexer.at last (o.token :: rest)).next = Lexer.at o.token rest := Lexer.at_cons_next ..
    have hparenthesis : (Lexer.at o.token rest).token.begins '(' = false := by
      cases rest with
      | nil => exact o.parenthesis
      | cons t ts => exact hunjoined t rfl
    have htype := o.type
    rw [Primary.tokens, List.singleton_append]
    refine YieldsIf.congr (YieldsIf.step (g := fun n => parsePrimary env n (Lexer.at last (o.token :: rest)) slot)
      (fun n => ?_) (YieldsIf.step (fun n => ?_) hsuffix)) (by simp [Primary.Copied])
    · have hnot : o.token.type ≠ .operator := by
        intro heq
        rw [heq] at htype
        exact absurd htype (by decide)
      exact if_neg hnot
    · have htoken : (Lexer.at last (o.token :: rest)).token = o.token := rfl
      rw [parsePrimary, hnext, htoken, hparenthesis, Operand.expr]
      cases heq : o.token.type with
      | operator =>
        rw [heq] at htype
        exact absurd htype (by decide)
      | unknown =>
        rw [heq] at htype
        exact absurd htype (by decide)
      | _ => rfl
  copies := o.copies
  size := rfl
  grouped := iff_of_true rfl trivial

theorem PrimaryParses.term {p : Primary} {e : Expr φ} (h : PrimaryParses env p e) : TermParses env (.primary p) e where
  reads := by
    intro last rest slot hfollow
    have hsuffix : Yields (fun n => parseSuffix env n (Lexer.at (lastOf last p.tokens) rest) e) _ :=
      parseSuffix_plain (hfollow.plain_at (p.ends_lastOf last))
    exact (h.reads last rest slot hfollow.unjoined hsuffix.yieldsIf).congr (iff_of_eq (and_true _))
  copies := h.copies
  size := h.size
  grouped := h.grouped

theorem TermParses.unary {t : Term} {e : Expr φ} (h : TermParses env t e) (u : UnaryToken) :
    TermParses env (.unary u t) (.unary u.type e) where
  reads := by
    intro last rest slot hfollow
    have hnext : (Lexer.at last (u.token :: (t.tokens ++ rest))).next = Lexer.at u.token (t.tokens ++ rest) :=
      Lexer.at_cons_next ..
    have htoken : (Lexer.at last (u.token :: (t.tokens ++ rest))).token = u.token := rfl
    have hfollow' : Follow t rest := ⟨hfollow.plain, hfollow.bound⟩
    refine YieldsIf.step (fun n => ?_)
      ((h.reads u.token rest env.expr hfollow').map (fun r => (Expr.unary u.type r.1, r.2)))
    rw [Term.tokens, List.cons_append, parseUnary, htoken, if_pos u.isOperator, u.operator, hnext]
  copies := Expr.copies_unary.trans h.copies
  size := congrArg Nat.succ h.size
  grouped := by
    rw [Term.expr, Term.Clean, ← h.grouped]
    exact ⟨fun heq => (Expr.unary.inj heq).2, fun heq => by rw [heq]⟩

theorem ChainParses.predicate {c : Chain} {e : Expr φ} (h : ChainParses env 0 c e) (last : Token) (rest : List Token)
    (slot : Expr φ) (hstop : Stop 0 rest) :
    YieldsIf c.Copied (fun n => parsePredicate env n (Lexer.at last (c.tokens ++ rest)) slot)
      (e, Lexer.at (lastOf last c.tokens) rest) :=
  (h.reads last rest slot hstop).step (fun _ => rfl)

theorem ChainParses.expression {c : Chain} {e : Expr φ} (h : ChainParses env expressionPrecedence c e) (last : Token)
    (rest : List Token) (slot : Expr φ) (hstop : Stop expressionPrecedence rest) :
    YieldsIf c.Copied (fun n => parseExpression env n (Lexer.at last (c.tokens ++ rest)) slot)
      (e, Lexer.at (lastOf last c.tokens) rest) :=
  (h.reads last rest slot hstop).step (fun _ => rfl)

theorem ChainParses.group {c : Chain} {e : Expr φ} (h : ChainParses env 0 c e) : PrimaryParses env (.group c) e where
  reads := by
    intro last rest slot b q _ hsuffix
    let lex := Lexer.at last (openParenthesis :: (c.tokens ++ closeParenthesis :: rest))
    have hnext : lex.next = Lexer.at openParenthesis (c.tokens ++ closeParenthesis :: rest) := Lexer.at_cons_next ..
    have hclose : (Lexer.at (lastOf openParenthesis c.tokens) (closeParenthesis :: rest)).next =
        Lexer.at closeParenthesis rest := Lexer.at_cons_next ..
    have htoken : lex.token = openParenthesis := rfl
    have hoperator : openParenthesis.type = .operator := rfl
    have hunary : unaryOperator openParenthesis.text = .no := by decide
    have hbegins : openParenthesis.begins '(' = true := by decide
    have hends : (Lexer.at (lastOf openParenthesis c.tokens) (closeParenthesis :: rest)).token.begins ')' = true := by
      show closeParenthesis.begins ')' = true
      decide
    have htokens : (Primary.group c).tokens ++ rest = openParenthesis :: (c.tokens ++ closeParenthesis :: rest) := by
      simp [Primary.tokens]
    have hlast : lastOf last (Primary.group c).tokens = closeParenthesis := by simp [Primary.tokens]
    rw [hlast] at hsuffix
    rw [htokens, Primary.Copied]
    refine YieldsIf.step (g := fun n => parsePrimary env n lex slot) (fun n => ?_) (YieldsIf.step (fun n => ?_)
      ((h.predicate openParenthesis _ slot (stop_cons ends_closeParenthesis rest)).bind
        (g := fun n r => if r.2.token.begins ')' then parseSuffix env n r.2.next r.1
          else some (r.1, r.2, .expectedEndParenthesis)) (fun _ => ?_)))
    · rw [parseUnary, htoken, if_pos hoperator, hunary]
    · rw [parsePrimary, hnext, htoken, hbegins]
      rfl
    · simp only [hclose, hends, if_true]
      exact hsuffix
  copies := h.copies
  size := h.size
  grouped := h.grouped

/-! ### Lists and bounds -/

@[simp] theorem copies_joined {type : BinaryType} {e t : Expr φ} (xs : List (Expr φ)) :
    (joined type e t xs).Copies ↔ t.Copies ∧ ∀ x ∈ xs, e.Copies ∧ x.Copies := by
  induction xs generalizing t with
  | nil => simp [joined]
  | cons x xs ih =>
    have hstep : joined type e t (x :: xs) = joined type e (.binary .or t (.binary type e x)) xs := rfl
    rw [hstep, ih, Expr.copies_binary, Expr.copies_binary, List.forall_mem_cons, and_assoc]

theorem copies_inTree {negate : Bool} {e : Expr φ} {xs : Expr φ × List (Expr φ)} :
    (inTree negate e xs).Copies ↔ e.Copies ∧ ∀ x ∈ xs.1 :: xs.2, x.Copies := by
  rw [inTree, copies_joined, Expr.copies_binary, List.forall_mem_cons]
  constructor
  · rintro ⟨⟨he, hx⟩, hxs⟩
    exact ⟨he, hx, fun y hy => (hxs y hy).2⟩
  · rintro ⟨he, hx, hxs⟩
    exact ⟨⟨he, hx⟩, fun y hy => ⟨he, hxs y hy⟩⟩

theorem copies_betweenTree {negate : Bool} {e low high : Expr φ} :
    (betweenTree negate e low high).Copies ↔ e.Copies ∧ low.Copies ∧ high.Copies := by
  cases negate <;> simp [betweenTree] <;> tauto

theorem size_joined {type : BinaryType} {e t : Expr φ} (xs : List (Expr φ)) :
    (joined type e t xs).size = t.size + ((xs.map Expr.size).map (fun s => e.size + s + 2)).sum := by
  induction xs generalizing t with
  | nil => rfl
  | cons x xs ih =>
    have hstep : joined type e t (x :: xs) = joined type e (.binary .or t (.binary type e x)) xs := rfl
    rw [hstep, ih, List.map_cons, List.map_cons, List.sum_cons, Expr.size, Expr.size]
    omega

theorem size_inTree {negate : Bool} {e e' : Expr φ} {xs xs' : Expr φ × List (Expr φ)} (he : e.size = e'.size)
    (hxs : (xs.1 :: xs.2).map Expr.size = (xs'.1 :: xs'.2).map Expr.size) :
    (inTree negate e xs).size = (inTree negate e' xs').size := by
  obtain ⟨hfirst, hmore⟩ := List.cons.inj hxs
  rw [inTree, inTree, size_joined, size_joined, Expr.size, Expr.size, he, hfirst, hmore]

theorem joined_inj {type : BinaryType} {e e' t t' : Expr φ} {xs xs' : List (Expr φ)} (hlength : xs.length = xs'.length)
    (h : joined type e t xs = joined type e' t' xs') : t = t' ∧ xs = xs' := by
  induction xs generalizing t t' xs' with
  | nil =>
    obtain rfl := List.length_eq_zero_iff.mp hlength.symm
    exact ⟨h, rfl⟩
  | cons x xs ih =>
    cases xs' with
    | nil => cases hlength
    | cons x' xs' =>
      have hstep : joined type e (.binary .or t (.binary type e x)) xs =
          joined type e' (.binary .or t' (.binary type e' x')) xs' := h
      obtain ⟨hnode, rfl⟩ := ih (Nat.succ.inj hlength) hstep
      obtain ⟨-, ht, hcompare⟩ := Expr.binary.inj hnode
      exact ⟨ht, by rw [(Expr.binary.inj hcompare).2.2]⟩

theorem inTree_inj {negate : Bool} {e e' : Expr φ} {xs xs' : Expr φ × List (Expr φ)}
    (hlength : xs.2.length = xs'.2.length) : inTree negate e xs = inTree negate e' xs' ↔ e = e' ∧ xs = xs' := by
  constructor
  · intro h
    obtain ⟨hfirst, hmore⟩ := joined_inj hlength h
    obtain ⟨-, he, hx⟩ := Expr.binary.inj hfirst
    exact ⟨he, Prod.ext hx hmore⟩
  · rintro ⟨rfl, rfl⟩
    rfl

theorem betweenTree_inj {negate : Bool} {e e' low low' high high' : Expr φ} :
    betweenTree negate e low high = betweenTree negate e' low' high' ↔ e = e' ∧ low = low' ∧ high = high' := by
  cases negate with
  | false =>
    simp [betweenTree]
    tauto
  | true =>
    simp [betweenTree]
    tauto

theorem ChainParses.lastElement {c : Chain} {e : Expr φ} (h : ChainParses env 0 c e) :
    ElementsParse env (.last c) (e, []) where
  reads := by
    intro type value f last rest _ _
    refine YieldsIf.congr ((h.predicate last _ env.expr (stop_cons ends_closeParenthesis rest)).bind
      (g := fun n r => parseIn env n r.2 type value (f r.1)) (fun _ => Yields.yieldsIf ?_)) (iff_of_eq (and_true _))
    refine Yields.step (fun n => ?_) (Yields.of_forall (fun _ => rfl))
    have hcomma : closeParenthesis.begins ',' = false := by decide
    have hclose : closeParenthesis.begins ')' = true := by decide
    have hnext : (Lexer.at (lastOf last c.tokens) (closeParenthesis :: rest)).next = Lexer.at closeParenthesis rest :=
      Lexer.at_cons_next ..
    have htoken : (Lexer.at (lastOf last c.tokens) (closeParenthesis :: rest)).token = closeParenthesis := rfl
    rw [parseIn, htoken, hcomma, hclose, hnext]
    rfl
  copies := by
    rw [Elements.StringFree, ← h.copies, List.forall_mem_singleton]
  size := by
    have hsize : e.size = (groupedExpr (c.items env)).size := h.size
    simp [Elements.exprs, hsize]
  grouped := by
    have hgrouped : e = groupedExpr (c.items env) ↔ OpTree.Clean BinaryToken.prec c.ops ∧ c.CleanTerms := h.grouped
    rw [Elements.exprs, Elements.Clean, ← hgrouped, Prod.mk.injEq]
    exact and_iff_left rfl

theorem ChainParses.moreElements {c : Chain} {e : Expr φ} (h : ChainParses env 0 c e) {xs : Elements}
    {es : Expr φ × List (Expr φ)} (hxs : ElementsParse env xs es) :
    ElementsParse env (.more c xs) (e, es.1 :: es.2) where
  reads := by
    intro type value f last rest hvalue hf
    have htokens : (Elements.more c xs).tokens ++ closeParenthesis :: rest =
        c.tokens ++ comma :: (xs.tokens ++ closeParenthesis :: rest) := by simp [Elements.tokens]
    have hnext : (Lexer.at (lastOf last c.tokens) (comma :: (xs.tokens ++ closeParenthesis :: rest))).next =
        Lexer.at comma (xs.tokens ++ closeParenthesis :: rest) := Lexer.at_cons_next ..
    have htoken :
        (Lexer.at (lastOf last c.tokens) (comma :: (xs.tokens ++ closeParenthesis :: rest))).token = comma := rfl
    have hcomma : comma.begins ',' = true := by decide
    have hcond : c.Copied ∧ (f e).Copies ∧ xs.Copied ↔ (Elements.more c xs).Copied := by
      rw [hf, h.copies, Elements.Copied, and_left_comm]
      exact ⟨fun hall => ⟨hall.1, hall.2.2⟩, fun hall => ⟨hall.1, hall.1.copied, hall.2⟩⟩
    rw [htokens]
    refine YieldsIf.congr ((h.predicate last _ env.expr (stop_cons ends_comma _)).bind
      (g := fun n r => parseIn env n r.2 type value (f r.1)) (fun _ => YieldsIf.step (g := fun n =>
        (parsePredicate env n (Lexer.at comma (xs.tokens ++ closeParenthesis :: rest)) env.expr).bind (fun r =>
          (f e).copy.bind (fun d => parseIn env n r.2 type value (.binary .or d (.binary type value r.1))))) (fun n => ?_)
        ?_)) hcond
    · rw [Expr.Copies] at hvalue
      rw [parseIn, htoken, hcomma, hnext, if_pos rfl, hvalue, Option.bind_some]
    · by_cases he : (f e).Copies
      · have hbinary : ∀ x, (Expr.binary .or (f e) (.binary type value x)).Copies ↔ x.Copies := by
          intro x
          simp [he, hvalue]
        have hmore := hxs.reads type comma rest hvalue hbinary
        rw [Expr.Copies] at he
        simp only [he, Option.bind_some]
        exact hmore.congr (by simp [Expr.Copies, he])
      · refine ⟨fun hand => absurd hand.1 he, fun _ => ⟨0, fun n _ => ?_⟩⟩
        simp only [Expr.copy_eq_none he, Option.bind_none, Option.bind_fun_none]
  copies := by
    rw [Elements.StringFree, ← h.copies, ← hxs.copies, List.forall_mem_cons]
  size := by
    have hsize : e.size = (groupedExpr (c.items env)).size := h.size
    have hsizes := hxs.size
    rw [List.map_cons] at hsizes ⊢
    rw [Elements.exprs, List.map_cons, hsizes, hsize]
    rfl
  grouped := by
    have hgrouped : e = groupedExpr (c.items env) ↔ OpTree.Clean BinaryToken.prec c.ops ∧ c.CleanTerms := h.grouped
    rw [Elements.exprs, Elements.Clean, ← hgrouped, ← hxs.grouped, Prod.mk.injEq, List.cons.injEq, Prod.ext_iff]

theorem parseSuffix_in (negate : Bool) (last : Token) (ts : List Token) (e : Expr φ) (n : Nat) :
    parseSuffix env (n + 1) (Lexer.at last (keywordTokens negate "IN" ++ openParenthesis :: ts)) e =
      e.copy.bind (fun value => value.copy.bind (fun left =>
        (parsePredicate env n (Lexer.at openParenthesis ts) env.expr).bind
          (fun r => parseIn env n r.2 (inType negate) value (.binary (inType negate) left r.1)))) := by
  have hbegins : openParenthesis.begins '(' = true := by decide
  cases negate <;> simp [parseSuffix, keywordTokens, inType, Lexer.at_cons_next, Lexer.at_cons_token, hbegins]

theorem parseSuffix_between (negate : Bool) (last : Token) (ts : List Token) (e : Expr φ) (n : Nat) :
    parseSuffix env (n + 1) (Lexer.at last (keywordTokens negate "BETWEEN" ++ ts)) e =
      parseBetween env n (Lexer.at ⟨.identifier, "BETWEEN"⟩ ts) e negate := by
  cases negate <;> simp [parseSuffix, keywordTokens, Lexer.at_cons_next, Lexer.at_cons_token]

theorem unjoined_keyword {keyword : String} (h : (⟨.identifier, keyword⟩ : Token).begins '(' = false) (negate : Bool)
    (ts : List Token) : Unjoined (keywordTokens negate keyword ++ ts) := by
  cases negate with
  | false =>
    rintro t ⟨⟩
    exact h
  | true =>
    rintro t ⟨⟩
    decide

theorem PrimaryParses.within {p : Primary} {e : Expr φ} (h : PrimaryParses env p e) {xs : Elements}
    {es : Expr φ × List (Expr φ)} (hxs : ElementsParse env xs es) (negate : Bool) :
    TermParses env (.within p negate xs) (inTree negate e es) where
  reads := by
    intro last rest slot _
    have htokens : (Term.within p negate xs).tokens ++ rest =
        p.tokens ++ (keywordTokens negate "IN" ++ openParenthesis :: (xs.tokens ++ closeParenthesis :: rest)) := by
      simp [Term.tokens]
    have hlast : lastOf last (Term.within p negate xs).tokens = closeParenthesis := by simp [Term.tokens]
    have hcond : p.Copied ∧ e.Copies ∧ e.Copies ∧ xs.Copied ↔ (Term.within p negate xs).Copied := by
      rw [h.copies, Term.Copied, and_self_left]
      exact ⟨fun hall => hall.2, fun hall => ⟨hall.1.copied, hall⟩⟩
    rw [htokens, hlast]
    refine YieldsIf.congr (h.reads last _ slot (unjoined_keyword (by decide) negate _)
      (YieldsIf.step (fun n => parseSuffix_in negate _ _ e n)
        (yieldsIf_copy (fun hcopy => yieldsIf_copy (fun _ => hxs.reads _ _ _ hcopy ?_))))) hcond
    intro x
    rw [Expr.copies_binary, and_iff_right hcopy]
  copies := by rw [copies_inTree, h.copies, hxs.copies, Term.StringFree]
  size := size_inTree h.size hxs.size
  grouped := by
    have hlength : es.2.length = (xs.exprs env).2.length := by simpa using congrArg List.length hxs.size
    rw [Term.expr, Term.Clean, inTree_inj hlength, h.grouped, hxs.grouped]

theorem PrimaryParses.between {p : Primary} {e : Expr φ} (h : PrimaryParses env p e) {low high : Chain}
    {a b : Expr φ} (hlow : ChainParses env expressionPrecedence low a)
    (hhigh : ChainParses env expressionPrecedence high b) (negate : Bool) :
    TermParses env (.between p negate low high) (betweenTree negate e a b) where
  reads := by
    intro last rest slot hfollow
    have htokens : (Term.between p negate low high).tokens ++ rest = p.tokens ++ (keywordTokens negate "BETWEEN" ++
        (low.tokens ++ ⟨.operator, "AND"⟩ :: (high.tokens ++ rest))) := by
      simp [Term.tokens]
    have hlast : lastOf last (Term.between p negate low high).tokens = lastOf ⟨.operator, "AND"⟩ high.tokens := by
      simp [Term.tokens]
    have hcond : p.Copied ∧ e.Copies ∧ low.Copied ∧ e.Copies ∧ high.Copied ∧ True ↔
        (Term.between p negate low high).Copied := by
      rw [h.copies, Term.Copied, and_true]
      exact ⟨fun hall => ⟨hall.2.1, hall.2.2.1, hall.2.2.2.2⟩,
        fun hall => ⟨hall.1.copied, hall.1, hall.2.1, hall.1, hall.2.2⟩⟩
    rw [htokens, hlast]
    refine YieldsIf.congr (h.reads last _ slot (unjoined_keyword (by decide) negate _)
      (YieldsIf.step (fun n => parseSuffix_between negate _ _ e n) (YieldsIf.step (fun n => rfl)
        (yieldsIf_copy (fun _ => (hlow.expression _ _ env.expr (stop_cons ends_and _)).bind (fun _ => ?_)))))) hcond
    simp only [Lexer.at_cons_token, Lexer.at_cons_next, if_true]
    exact yieldsIf_copy (fun _ => (hhigh.expression _ _ env.expr (hfollow.bound rfl)).bind
      (fun _ => Yields.yieldsIf (Yields.of_forall (fun _ => rfl))))
  copies := by rw [copies_betweenTree, h.copies, hlow.copies, hhigh.copies, Term.StringFree]
  size := by
    have hsize := h.size
    have hsizeLow : a.size = (groupedExpr (low.items env)).size := hlow.size
    have hsizeHigh : b.size = (groupedExpr (high.items env)).size := hhigh.size
    rw [Term.expr]
    cases negate <;> simp [betweenTree, Expr.size, hsize, hsizeLow, hsizeHigh]
  grouped := by
    have hgroupedLow : a = groupedExpr (low.items env) ↔ _ := hlow.grouped
    have hgroupedHigh : b = groupedExpr (high.items env) ↔ _ := hhigh.grouped
    rw [Term.expr, Term.Clean, betweenTree_inj, h.grouped, hgroupedLow, hgroupedHigh]
    rfl

end

end RaleighSL.Zcl.Evaluator
