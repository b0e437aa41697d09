import RaleighSL.Zcl.Evaluator.Grouping

/-!
# IN and BETWEEN

The parser makes comparisons of `IN` and `BETWEEN`, with connectives between them. The connective of
`BETWEEN` changes with the negation. The one of `IN` is always `OR`, so `NOT IN` asks for one element
that differs. A string literal and the name of a function do not come into the tree at all.
-/
namespace RaleighSL.Zcl.Evaluator

open Library

/-- The meaning of literals, identifiers, functions and operators, some values of which are true. -/
structure Interpretation (φ V : Type*) where
  integer : Int64 → V
  floating : φ → V
  text : String → V
  binding : String → V
  call : String → List V → V
  unary : UnaryType → V → V
  binary : BinaryType → V → V → V
  truth : Bool → V
  holds : V → Bool
  holds_truth : ∀ b, holds (truth b) = b

section

variable {φ V : Type*} [LinearOrder V] (I : Interpretation φ V)

/-- The value of an operator, where comparisons and connectives have their usual meaning. -/
def Interpretation.apply (type : BinaryType) (left right : V) : V :=
  match type with
  | .or => I.truth (I.holds left || I.holds right)
  | .and => I.truth (I.holds left && I.holds right)
  | .eq => I.truth (left = right)
  | .neq => I.truth (left ≠ right)
  | .lt => I.truth (left < right)
  | .gt => I.truth (left > right)
  | .le => I.truth (left ≤ right)
  | .ge => I.truth (left ≥ right)
  | type => I.binary type left right

/-- The value of a tree. A string without bytes has none, and a function has none without its name. -/
def Expr.value : Expr φ → Option V
  | .integer n => some (I.integer n)
  | .floating x => some (I.floating x)
  | .string bytes => bytes.map I.text
  | .identifier key => some (I.binding key)
  | .unary type e => e.value.map (I.unary type)
  | .binary type left right => left.value.bind (fun l => right.value.map (I.apply type l))
  | .function _ _ _ _ => none

def Within (negate : Bool) (v : V) (xs : List V) : Prop := if negate then ∀ x ∈ xs, v ≠ x else ∃ x ∈ xs, v = x

instance (negate : Bool) (v : V) (xs : List V) : Decidable (Within negate v xs) := by
  unfold Within
  infer_instance

def Between (negate : Bool) (v low high : V) : Prop :=
  if negate then ¬ (low ≤ v ∧ v ≤ high) else low ≤ v ∧ v ≤ high

instance (negate : Bool) (v low high : V) : Decidable (Between negate v low high) := by
  unfold Between
  infer_instance

/-! ### The value of a query -/

def treeValue : OpTree V BinaryToken → V
  | .leaf v => v
  | .node l b r => I.apply b.type (treeValue l) (treeValue r)

def groupedValue (items : V × List (BinaryToken × V)) : V := treeValue I (OpTree.group BinaryToken.prec items.1 items.2)

variable (env : Environment φ)

def Operand.value (o : Operand) : V :=
  match o.token.type with
  | .int => I.integer (strtoi64 o.token.text)
  | .float => I.floating (env.strtod o.token.text)
  | .boolean => I.integer (if o.token.text.length = 4 then 1 else 0)
  | .identifier => I.binding o.token.text
  | _ => I.text o.token.text

mutual

def Primary.value : Primary → V
  | .operand o => o.value I env
  | .group c => groupedValue I c.values
  | .call name => I.call name.text []
  | .callWith name args => I.call name.text args.values

def Term.value : Term → V
  | .primary p => p.value
  | .within p negate xs => I.truth (Within negate p.value xs.values)
  | .between p negate low high => I.truth (Between negate p.value (groupedValue I low.values) (groupedValue I high.values))
  | .unary u t => I.unary u.type t.value

def Chain.values : Chain → V × List (BinaryToken × V)
  | .last t => (t.value, [])
  | .more t b c => (t.value, (b, c.values.1) :: c.values.2)

def Elements.values : Elements → List V
  | .last c => [groupedValue I c.values]
  | .more c xs => groupedValue I c.values :: xs.values

end

/-- The value is not to be in a list, and it is equal to one element and differs from another. -/
def Mixed (negate : Bool) (v : V) (xs : List V) : Prop := negate = true ∧ (∃ x ∈ xs, v = x) ∧ ∃ x ∈ xs, v ≠ x

def Term.Mixed : Term → Prop
  | .within p negate xs => Evaluator.Mixed negate (p.value I env) (xs.values I env)
  | _ => False

end

/-! ### All terms of a predicate -/

mutual

/-- A property of a term, and of all terms in it. An operand is a term of its own. -/
def Primary.All (P : Term → Prop) : Primary → Prop
  | .operand o => P (.primary (.operand o))
  | .group c => P (.primary (.group c)) ∧ c.All P
  | .call name => P (.primary (.call name))
  | .callWith name args => P (.primary (.callWith name args)) ∧ args.All P

def Term.All (P : Term → Prop) : Term → Prop
  | .primary p => p.All P
  | .within p negate xs => P (.within p negate xs) ∧ p.All P ∧ xs.All P
  | .between p negate low high => P (.between p negate low high) ∧ p.All P ∧ low.All P ∧ high.All P
  | .unary u t => P (.unary u t) ∧ t.All P

def Chain.All (P : Term → Prop) : Chain → Prop
  | .last t => t.All P
  | .more t _ c => t.All P ∧ c.All P

def Elements.All (P : Term → Prop) : Elements → Prop
  | .last c => c.All P
  | .more c xs => c.All P ∧ xs.All P

end

theorem Primary.All.self {P : Term → Prop} {p : Primary} (h : p.All P) : P (.primary p) := by
  cases p with
  | operand o => exact h
  | group c => exact h.1
  | call name => exact h
  | callWith name args => exact h.1

theorem Term.All.self {P : Term → Prop} {t : Term} (h : t.All P) : P t := by
  cases t with
  | primary p => exact Primary.All.self h
  | within p negate xs => exact h.1
  | between p negate low high => exact h.1
  | unary u t => exact h.1

section

variable {φ V : Type*} {I : Interpretation φ V} {env : Environment φ}

theorem Interpretation.truth_inj {b d : Bool} : I.truth b = I.truth d ↔ b = d := by
  constructor
  · intro h
    rw [← I.holds_truth b, h, I.holds_truth]
  · rintro rfl
    rfl

variable [LinearOrder V]

variable (I env) in
def Term.Keeps (t : Term) : Prop := (t.expr env).value I = some (t.value I env)

/-- The parser builds the tree of a predicate, in which the tree of every term has the value of the term. -/
structure KeepsMeaning (I : Interpretation φ V) (env : Environment φ) (slot : Expr φ) (c : Chain) : Prop where
  built : ∃ lex, Yields (fun n => parsePredicate env n (Lexer.start c.tokens) slot) (c.expr env, lex)
  terms : c.All (Term.Keeps I env)

/-! ### Trees -/

def optionValue (I : Interpretation φ V) : OpTree (Option V) BinaryToken → Option V
  | .leaf v => v
  | .node l b r => (optionValue I l).bind (fun v => (optionValue I r).map (I.apply b.type v))

theorem treeExpr_value (t : OpTree (Expr φ) BinaryToken) :
    (treeExpr t).value I = optionValue I (t.map (Expr.value I)) := by
  induction t with
  | leaf e => rfl
  | node l b r ihl ihr => rw [treeExpr, Expr.value, ihl, ihr, OpTree.map, optionValue]

theorem optionValue_some (t : OpTree V BinaryToken) : optionValue I (t.map some) = some (treeValue I t) := by
  induction t with
  | leaf v => rfl
  | node l b r ihl ihr => rw [OpTree.map, optionValue, ihl, ihr, treeValue, Option.bind_some, Option.map_some]

/-- Grouped terms have the value of the query when the terms have. -/
theorem groupedExpr_value {items : Expr φ × List (BinaryToken × Expr φ)} {values : V × List (BinaryToken × V)}
    (hfirst : items.1.value I = some values.1)
    (hmore : items.2.map (fun p => (p.1, p.2.value I)) = values.2.map (fun p => (p.1, some p.2))) :
    (groupedExpr items).value I = some (groupedValue I values) := by
  rw [groupedExpr, treeExpr_value, OpTree.group_map, hfirst, hmore, ← OpTree.group_map, optionValue_some, groupedValue]

theorem value_binary {type : BinaryType} {l r : Expr φ} {v w : V} (hl : l.value I = some v) (hr : r.value I = some w) :
    (Expr.binary type l r).value I = some (I.apply type v w) := by
  rw [Expr.value, hl, hr, Option.bind_some, Option.map_some]

/-- The tree for a list asks for one element, with and without negation. -/
theorem value_joined {negate : Bool} {e t : Expr φ} {v : V} {b : Bool} (he : e.value I = some v)
    (ht : t.value I = some (I.truth b)) {es : List (Expr φ)} {xs : List V} (hes : es.map (Expr.value I) = xs.map some) :
    (joined (inType negate) e t es).value I =
      some (I.truth (b || xs.any (fun x => if negate then decide (v ≠ x) else decide (v = x)))) := by
  induction es generalizing t b xs with
  | nil =>
    obtain rfl := List.map_eq_nil_iff.mp hes.symm
    simpa [joined] using ht
  | cons a es ih =>
    cases xs with
    | nil => simp at hes
    | cons x xs =>
      obtain ⟨ha, hes⟩ := List.cons.inj hes
      have helement : (Expr.binary (inType negate) e a).value I =
          some (I.truth (if negate then decide (v ≠ x) else decide (v = x))) := by
        rw [value_binary he ha]
        cases negate <;> rfl
      have hstep : (Expr.binary .or t (.binary (inType negate) e a)).value I =
          some (I.truth (b || if negate then decide (v ≠ x) else decide (v = x))) := by
        rw [value_binary ht helement, Interpretation.apply, I.holds_truth, I.holds_truth]
      rw [List.any_cons, ← Bool.or_assoc]
      exact ih hstep hes

theorem value_inTree {negate : Bool} {e : Expr φ} {v : V} (he : e.value I = some v) {es : Expr φ × List (Expr φ)}
    {xs : List V} (hes : (es.1 :: es.2).map (Expr.value I) = xs.map some) :
    (inTree negate e es).value I =
      some (I.truth (xs.any (fun x => if negate then decide (v ≠ x) else decide (v = x)))) := by
  cases xs with
  | nil => simp at hes
  | cons x xs =>
    obtain ⟨hfirst, hmore⟩ := List.cons.inj hes
    have helement : (Expr.binary (inType negate) e es.1).value I =
        some (I.truth (if negate then decide (v ≠ x) else decide (v = x))) := by
      rw [value_binary he hfirst]
      cases negate <;> rfl
    rw [inTree, value_joined he helement hmore, List.any_cons]

/-- One element that differs is asked for, where all of them are to differ. -/
theorem any_iff_within (negate : Bool) (v : V) {xs : List V} (hne : xs ≠ []) :
    (xs.any (fun x => if negate then decide (v ≠ x) else decide (v = x)) = decide (Within negate v xs)) ↔
      ¬ Mixed negate v xs := by
  cases negate with
  | false =>
    refine iff_of_true ?_ (fun h => Bool.false_ne_true h.1)
    rw [Bool.eq_iff_iff]
    simp [Within]
  | true =>
    rw [Bool.eq_iff_iff]
    simp only [if_true, List.any_eq_true, decide_eq_true_eq, Within, Mixed, true_and]
    constructor
    · rintro h ⟨⟨x, hx, heq⟩, hdiff⟩
      exact h.mp hdiff x hx heq
    · intro h
      constructor
      · intro hdiff x hx heq
        exact h ⟨⟨x, hx, heq⟩, hdiff⟩
      · intro hall
        obtain ⟨x, hx⟩ := List.exists_mem_of_ne_nil xs hne
        exact ⟨x, hx, hall x hx⟩

theorem value_betweenTree (negate : Bool) {e low high : Expr φ} {v a b : V} (he : e.value I = some v)
    (hlow : low.value I = some a) (hhigh : high.value I = some b) :
    (betweenTree negate e low high).value I = some (I.truth (Between negate v a b)) := by
  cases negate with
  | false =>
    rw [betweenTree, if_neg Bool.false_ne_true, value_binary (value_binary he hlow) (value_binary he hhigh)]
    simp [Interpretation.apply, I.holds_truth, Between]
  | true =>
    rw [betweenTree, if_pos rfl, value_binary (value_binary he hlow) (value_binary he hhigh)]
    simp [Interpretation.apply, I.holds_truth, Between, imp_iff_not_or]

/-! ### Queries -/

theorem Operand.keeps_iff (o : Operand) :
    Term.Keeps I env (.primary (.operand o)) ↔ (Primary.operand o).StringFree := by
  have htype := o.type
  show (o.expr env).value I = some (o.value I env) ↔ o.token.type ≠ .string
  rw [Operand.expr, Operand.value]
  cases heq : o.token.type with
  | operator =>
    rw [heq] at htype
    exact absurd htype (by decide)
  | unknown =>
    rw [heq] at htype
    exact absurd htype (by decide)
  | string => exact iff_of_false (by simp [Expr.value]) (by decide)
  | _ => exact iff_of_true rfl (by decide)

theorem Chain.All.values {c : Chain} (h : c.All (Term.Keeps I env)) :
    (c.items env).1.value I = some (c.values I env).1 ∧
      (c.items env).2.map (fun p => (p.1, p.2.value I)) = (c.values I env).2.map (fun p => (p.1, some p.2)) :=
  match c, h with
  | .last _, h => ⟨Term.All.self h, rfl⟩
  | .more _ _ _, h => by
    obtain ⟨hfirst, hmore⟩ := Chain.All.values h.2
    refine ⟨Term.All.self h.1, ?_⟩
    rw [Chain.items, Chain.values, List.map_cons, List.map_cons, hfirst, hmore]

theorem Chain.All.value {c : Chain} (h : c.All (Term.Keeps I env)) :
    (groupedExpr (c.items env)).value I = some (groupedValue I (c.values I env)) :=
  groupedExpr_value (Chain.All.values h).1 (Chain.All.values h).2

theorem Elements.All.values {xs : Elements} (h : xs.All (Term.Keeps I env)) :
    ((xs.exprs env).1 :: (xs.exprs env).2).map (Expr.value I) = (xs.values I env).map some :=
  match xs, h with
  | .last _, h => by
    rw [Elements.exprs, Elements.values, List.map_singleton, List.map_singleton, Chain.All.value h]
  | .more _ _, h => congrArg₂ List.cons (Chain.All.value h.1) (Elements.All.values h.2)

theorem Elements.values_ne_nil (xs : Elements) : xs.values I env ≠ [] := by
  cases xs <;> simp [Elements.values]

/-- The tree for a list has the value of the list, unless its operand is mixed. -/
theorem keeps_within {p : Primary} (hp : p.All (Term.Keeps I env)) {xs : Elements} (hxs : xs.All (Term.Keeps I env))
    (negate : Bool) :
    Term.Keeps I env (.within p negate xs) ↔ ¬ (Term.within p negate xs).Mixed I env := by
  have hvalue : (p.expr env).value I = some (p.value I env) := Primary.All.self hp
  rw [Term.Keeps, Term.expr, Term.value, value_inTree hvalue (Elements.All.values hxs), Option.some_inj,
    Interpretation.truth_inj]
  exact any_iff_within negate _ xs.values_ne_nil

theorem keeps_between {p : Primary} (hp : p.All (Term.Keeps I env)) {low high : Chain}
    (hlow : low.All (Term.Keeps I env)) (hhigh : high.All (Term.Keeps I env)) (negate : Bool) :
    Term.Keeps I env (.between p negate low high) := by
  have hvalue : (p.expr env).value I = some (p.value I env) := Primary.All.self hp
  exact value_betweenTree negate hvalue (Chain.All.value hlow) (Chain.All.value hhigh)

/-- The name of a function is not in its tree. -/
theorem not_keeps_call {p : Primary} (args : List (Expr φ)) (hp : p.expr env = functionExpr env args) :
    ¬ Term.Keeps I env (.primary p) := by
  intro h
  rw [Term.Keeps, Term.expr, hp] at h
  cases h

theorem keeps_unary {t : Term} (h : t.All (Term.Keeps I env)) (u : UnaryToken) : Term.Keeps I env (.unary u t) := by
  have hvalue : (t.expr env).value I = some (t.value I env) := Term.All.self h
  rw [Term.Keeps, Term.expr, Term.value, Expr.value, hvalue, Option.map_some]

mutual

theorem Primary.keeps_iff (p : Primary) : p.All (Term.Keeps I env) ↔
    (p.StringFree ∧ p.CallFree) ∧ p.All (fun t => ¬ t.Mixed I env) :=
  match p with
  | .operand o => o.keeps_iff.trans ⟨fun h => ⟨⟨h, trivial⟩, not_false⟩, fun h => h.1.1⟩
  | .group c => by
    have hc := c.keeps_iff
    have hgroup : c.All (Term.Keeps I env) →
        (Term.Keeps I env (.primary (.group c)) ↔ ¬ (Term.primary (.group c)).Mixed I env) :=
      fun hall => iff_of_true (Chain.All.value hall) not_false
    rw [Primary.All, Primary.All, and_congr_left hgroup, hc, Primary.StringFree, Primary.CallFree, and_left_comm]
  | .call _ => ⟨fun h => absurd h (not_keeps_call [] rfl), fun h => h.1.2.elim⟩
  | .callWith _ _ => ⟨fun h => absurd h.1 (not_keeps_call _ rfl), fun h => h.1.2.elim⟩

theorem Term.keeps_iff (t : Term) : t.All (Term.Keeps I env) ↔
    (t.StringFree ∧ t.CallFree) ∧ t.All (fun t => ¬ t.Mixed I env) :=
  match t with
  | .primary p => p.keeps_iff
  | .within p negate xs => by
    have hp := p.keeps_iff
    have hxs := xs.keeps_iff
    have hwithin : p.All (Term.Keeps I env) ∧ xs.All (Term.Keeps I env) →
        (Term.Keeps I env (.within p negate xs) ↔ ¬ (Term.within p negate xs).Mixed I env) :=
      fun hall => keeps_within hall.1 hall.2 negate
    rw [Term.All, Term.All, and_congr_left hwithin, hp, hxs, Term.StringFree, Term.CallFree]
    constructor
    · rintro ⟨hmixed, ⟨hplain, hmixedp⟩, hplains, hmixeds⟩
      exact ⟨⟨⟨hplain.1, hplains.1⟩, hplain.2, hplains.2⟩, hmixed, hmixedp, hmixeds⟩
    · rintro ⟨⟨hstrings, hcalls⟩, hmixed, hmixedp, hmixeds⟩
      exact ⟨hmixed, ⟨⟨hstrings.1, hcalls.1⟩, hmixedp⟩, ⟨hstrings.2, hcalls.2⟩, hmixeds⟩
  | .between p negate low high => by
    have hp := p.keeps_iff
    have hlow := low.keeps_iff
    have hhigh := high.keeps_iff
    have hbetween : p.All (Term.Keeps I env) ∧ low.All (Term.Keeps I env) ∧ high.All (Term.Keeps I env) →
        (Term.Keeps I env (.between p negate low high) ↔ ¬ (Term.between p negate low high).Mixed I env) :=
      fun hall => iff_of_true (keeps_between hall.1 hall.2.1 hall.2.2 negate) not_false
    rw [Term.All, Term.All, and_congr_left hbetween, hp, hlow, hhigh, Term.StringFree, Term.CallFree]
    constructor
    · rintro ⟨hmixed, ⟨hplain, hmixedp⟩, ⟨hplaina, hmixeda⟩, hplainb, hmixedb⟩
      exact ⟨⟨⟨hplain.1, hplaina.1, hplainb.1⟩, hplain.2, hplaina.2, hplainb.2⟩, hmixed, hmixedp, hmixeda, hmixedb⟩
    · rintro ⟨⟨hstrings, hcalls⟩, hmixed, hmixedp, hmixeda, hmixedb⟩
      exact ⟨hmixed, ⟨⟨hstrings.1, hcalls.1⟩, hmixedp⟩, ⟨⟨hstrings.2.1, hcalls.2.1⟩, hmixeda⟩,
        ⟨hstrings.2.2, hcalls.2.2⟩, hmixedb⟩
  | .unary u t => by
    have ht := t.keeps_iff
    have hunary : t.All (Term.Keeps I env) →
        (Term.Keeps I env (.unary u t) ↔ ¬ (Term.unary u t).Mixed I env) :=
      fun hall => iff_of_true (keeps_unary hall u) not_false
    rw [Term.All, Term.All, and_congr_left hunary, ht, Term.StringFree, Term.CallFree, and_left_comm]

theorem Chain.keeps_iff (c : Chain) : c.All (Term.Keeps I env) ↔
    (c.StringFree ∧ c.CallFree) ∧ c.All (fun t => ¬ t.Mixed I env) :=
  match c with
  | .last t => t.keeps_iff
  | .more t _ c => by
    have ht := t.keeps_iff
    have hc := c.keeps_iff
    rw [Chain.All, Chain.All, ht, hc, Chain.StringFree, Chain.CallFree]
    exact and_and_and_comm.trans (and_congr_left (fun _ => and_and_and_comm))

theorem Elements.keeps_iff (xs : Elements) : xs.All (Term.Keeps I env) ↔
    (xs.StringFree ∧ xs.CallFree) ∧ xs.All (fun t => ¬ t.Mixed I env) :=
  match xs with
  | .last c => c.keeps_iff
  | .more c xs => by
    have hc := c.keeps_iff
    have hxs := xs.keeps_iff
    rw [Elements.All, Elements.All, hc, hxs, Elements.StringFree, Elements.CallFree]
    exact and_and_and_comm.trans (and_congr_left (fun _ => and_and_and_comm))

end

end

/-- The parser builds a tree in which all parts of a query have their meaning exactly when the query is grouped by
precedence, has no string literal and no call, and no operand that is not to be in a list is equal to one element and
differs from another. -/
theorem keeps_meaning_iff {φ V : Type*} [LinearOrder V] (I : Interpretation φ V) (env : Environment φ) (slot : Expr φ)
    (c : Chain) (h : c.WellFormed 0) :
    KeepsMeaning I env slot c ↔
      c.Clean ∧ (c.StringFree ∧ c.CallFree) ∧ c.All (fun t => ¬ t.Mixed I env) := by
  constructor
  · rintro ⟨⟨lex, hyields⟩, hterms⟩
    obtain ⟨hplain, hmixed⟩ := c.keeps_iff.mp hterms
    obtain ⟨e, lex', hclean, hreads⟩ := parsePredicate_reads env slot h hplain.2
    obtain ⟨-, heq⟩ := hreads.yields_iff.mp hyields
    exact ⟨hclean.mp (congrArg Prod.fst heq).symm, hplain, hmixed⟩
  · rintro ⟨hclean, hplain, hmixed⟩
    obtain ⟨e, lex, hgrouped, hreads⟩ := parsePredicate_reads env slot h hplain.2
    obtain rfl := hgrouped.mpr hclean
    exact ⟨⟨lex, hreads.yields hplain.1.copied⟩, c.keeps_iff.mpr ⟨hplain, hmixed⟩⟩

/-- Numbers, of which 0 is false. -/
def integerInterpretation : Interpretation Unit Int where
  integer n := n.toInt
  floating _ := 0
  text _ := 0
  binding _ := 0
  call _ _ := 0
  unary _ v := v
  binary type v w := if type = .add then v + w else 0
  truth b := if b then 1 else 0
  holds v := v ≠ 0
  holds_truth b := by cases b <;> rfl

def plusToken : BinaryToken := ⟨⟨.operator, "+"⟩, .add, 4, rfl⟩

/-- `(1 + 3) NOT IN (1, 2)`. -/
def sumNotIn : Chain :=
  .last (.within (.group (.more (.primary onePrimary) plusToken
      (.last (.primary threePrimary)))) true
    (.more (.last (.primary onePrimary))
      (.last (.last (.primary twoPrimary)))))

theorem sumNotIn_keeps_meaning : KeepsMeaning integerInterpretation emptyEnvironment (.integer 0) sumNotIn := by
  have hnumber : TokenType.int ≠ .string := by decide
  have hops : ∀ l : List BinaryToken, l.length ≤ 2 → OpTree.Clean BinaryToken.prec l := fun l => OpTree.clean_of_length_le
  have hwf : sumNotIn.WellFormed 0 :=
    ⟨⟨trivial, Nat.zero_le _, by simp [Term.endsBetween], trivial⟩, trivial, trivial⟩
  have hclean : sumNotIn.Clean :=
    ⟨hops _ (by decide), ⟨hops _ (by decide), trivial, trivial⟩, ⟨hops _ (by decide), trivial⟩, hops _ (by decide), trivial⟩
  have hstrings : sumNotIn.StringFree := ⟨⟨hnumber, hnumber⟩, hnumber, hnumber⟩
  have hcalls : sumNotIn.CallFree := ⟨⟨trivial, trivial⟩, trivial, trivial⟩
  have hmixed : ¬ Mixed true (4 : Int) [1, 2] := by
    rintro ⟨-, ⟨x, hx, rfl⟩, -⟩
    simp at hx
  exact (keeps_meaning_iff integerInterpretation emptyEnvironment (.integer 0) sumNotIn hwf).mpr
    ⟨hclean, ⟨hstrings, hcalls⟩, hmixed, ⟨not_false, not_false, not_false⟩, not_false, not_false⟩

/-- `4 NOT IN (1, 4)`. -/
def fourNotIn : Chain :=
  .last (.within fourPrimary true
    (.more (.last (.primary onePrimary))
      (.last (.last (.primary fourPrimary)))))

/-- With `4 NOT IN (1, 4)` the tree is true, though 4 is an element. -/
theorem not_in_true_of_element :
    ∃ e lex, Yields (fun n => parsePredicate emptyEnvironment n (Lexer.start fourNotIn.tokens) (.integer 0)) (e, lex) ∧
      e.value integerInterpretation = some 1 ∧ ¬ Within true (4 : Int) [1, 4] ∧
        ¬ KeepsMeaning integerInterpretation emptyEnvironment (.integer 0) fourNotIn := by
  have hnumber : TokenType.int ≠ .string := by decide
  have hclean : fourNotIn.Clean := by
    have hops : ∀ l : List BinaryToken, l.length ≤ 2 → OpTree.Clean BinaryToken.prec l :=
      fun l => OpTree.clean_of_length_le
    exact ⟨hops _ (by decide), trivial, ⟨hops _ (by decide), trivial⟩, hops _ (by decide), trivial⟩
  have hcopied : fourNotIn.Copied := ⟨hnumber, hnumber, trivial⟩
  obtain ⟨e, lex, hgrouped, hreads⟩ := parsePredicate_reads emptyEnvironment (.integer 0)
    (show fourNotIn.WellFormed 0 from ⟨trivial, trivial, trivial⟩) ⟨trivial, trivial, trivial⟩
  obtain rfl := hgrouped.mpr hclean
  have hvalue : (fourNotIn.expr emptyEnvironment).value integerInterpretation = some 1 := by decide +kernel
  refine ⟨_, lex, hreads.yields hcopied, hvalue, by decide, fun h => ?_⟩
  have hkeeps := Chain.All.value h.terms
  rw [Chain.expr] at hvalue
  rw [hvalue] at hkeeps
  exact absurd hkeeps (by decide +kernel)

end RaleighSL.Zcl.Evaluator
