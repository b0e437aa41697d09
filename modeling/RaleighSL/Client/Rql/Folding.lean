import RaleighSL.Client.Rql.Evaluation

/-!
# What constant folding preserves

A folded operator of one operand becomes a number, and one of two a string or a number, since a boolean
is an integer and is taken for one. So folding preserves an expression and all that it is built of exactly
when no operator over constants has another value: no boolean, integer or `None`, and no string where the
operator has one operand.
-/
namespace RaleighSL.Client.Rql

variable {φ : Type}

@[elab_as_elim] theorem Expr.operands {motive : Expr φ → Prop} (number : ∀ value, motive (.number value))
    (boolean : ∀ value, motive (.boolean value)) (string : ∀ value, motive (.string value))
    (wildcard : ∀ value, motive (.wildcard value)) (identifier : ∀ name, motive (.identifier name))
    (call : ∀ name args, motive (.call name args))
    (unary : ∀ operator expression, motive expression → motive (.unary operator expression))
    (binary : ∀ operator left right, motive left → motive right → motive (.binary operator left right))
    (assignment : ∀ name expression, motive (.assignment name expression)) : ∀ e, motive e
  | .number value => number value
  | .boolean value => boolean value
  | .string value => string value
  | .wildcard value => wildcard value
  | .identifier name => identifier name
  | .call name args => call name args
  | .unary operator expression => unary operator expression
      (operands number boolean string wildcard identifier call unary binary assignment expression)
  | .binary operator left right => binary operator left right
      (operands number boolean string wildcard identifier call unary binary assignment left)
      (operands number boolean string wildcard identifier call unary binary assignment right)
  | .assignment name expression => assignment name expression

/-- An expression of constants, identifiers and operators. -/
def Expr.Simple : Expr φ → Prop
  | .call _ _ => False
  | .unary _ expression => expression.Simple
  | .binary _ left right => left.Simple ∧ right.Simple
  | .assignment _ _ => False
  | _ => True

/-- An expression is another one, or an operand in it. -/
inductive Expr.Part : Expr φ → Expr φ → Prop where
  | refl (e : Expr φ) : Part e e
  | unary {s e : Expr φ} (operator : String) (h : Part s e) : Part s (.unary operator e)
  | left {s l : Expr φ} (operator : String) (r : Expr φ) (h : Part s l) : Part s (.binary operator l r)
  | right {s r : Expr φ} (operator : String) (l : Expr φ) (h : Part s r) : Part s (.binary operator l r)

/-- The context has a value for each identifier. -/
def Context.Binds (context : Context φ) : Expr φ → Prop
  | .identifier name => (context.getIdentifier name).isSome
  | .unary _ expression => context.Binds expression
  | .binary _ left right => context.Binds left ∧ context.Binds right
  | _ => True

variable (py : Python φ)

def constantValue : Expr φ → Option (Value φ)
  | .number value => some (.float value)
  | .boolean value => some (.bool value)
  | .string value => some (.str value)
  | .wildcard value => some (.str value)
  | .unary operator expression => (constantValue expression).bind (unaryOperator py operator)
  | .binary operator left right =>
    (constantValue left).bind (fun v => (constantValue right).bind (binaryOperator py operator v))
  | _ => none

/-- What resolve gives evaluates as the expression does, and nothing is given only when the expression raises. -/
def Agrees (e : Expr φ) : Prop :=
  ∀ context₀ context, context.Binds e → (resolve py context₀ e).bind (evaluate py context) = evaluate py context e

/-- No operator over constants has a value that its constant cannot have: it is a float, or a string when the operator
has two operands. -/
def Expr.Foldable : Expr φ → Prop
  | .unary operator expression => expression.Foldable ∧ (expression.isConstant →
      ∀ v, constantValue py (.unary operator expression) = some v → v.isFloat)
  | .binary operator left right => left.Foldable ∧ right.Foldable ∧ (left.isConstant → right.isConstant →
      ∀ v, constantValue py (.binary operator left right) = some v → v.isFloat ∨ v.isString)
  | _ => True

variable {py} {e e' : Expr φ} {context context₀ : Context φ}

theorem evaluate_constant (hsimple : e.Simple) (hconst : e.isConstant) (context : Context φ) :
    evaluate py context e = (constantValue py e).map (fun value => (value, context)) := by
  induction e using Expr.operands with
  | unary operator expression ih =>
    rw [evaluate, ih hsimple hconst, constantValue]
    cases constantValue py expression <;> rfl
  | binary operator left right ihl ihr =>
    obtain ⟨hl, hr⟩ := Bool.and_eq_true_iff.mp hconst
    rw [evaluate, ihl hsimple.1 hl, constantValue]
    cases constantValue py left with
    | none => rfl
    | some v =>
      simp only [Option.map_some, Option.bind_eq_bind, Option.bind_some, ihr hsimple.2 hr]
      cases constantValue py right <;> rfl
  | identifier => cases hconst
  | call => cases hconst
  | assignment => exact hsimple.elim
  | _ => rfl

/-- A string stays a string, and everything else is made a float. -/
theorem constantOf_eq_some {v : Value φ} (h : constantOf py v = some e) :
    (∃ s, v = .str s ∧ e = .string s) ∨ ∃ x, toFloat py v = some x ∧ e = .number x := by
  cases v with
  | none => cases h
  | str s =>
    cases h
    exact .inl ⟨s, rfl, rfl⟩
  | bool b =>
    obtain ⟨x, hx, rfl⟩ := Option.map_eq_some_iff.mp h
    exact .inr ⟨x, hx, rfl⟩
  | float x =>
    cases h
    exact .inr ⟨x, rfl, rfl⟩
  | int n =>
    simp only [constantOf, Value.isString, Value.isBool, Bool.false_eq_true, if_false] at h
    split_ifs at h
    obtain ⟨x, hx, rfl⟩ := Option.map_eq_some_iff.mp h
    exact .inr ⟨x, hx, rfl⟩

theorem isConstant_constantOf {v : Value φ} (h : constantOf py v = some e) : e.isConstant = true := by
  obtain ⟨s, -, rfl⟩ | ⟨x, -, rfl⟩ := constantOf_eq_some h <;> rfl

theorem isConstant_resolve (h : resolve py context e = some e') : e'.isConstant = e.isConstant := by
  induction e using Expr.operands generalizing e' with
  | unary operator expression ih =>
    simp only [resolve, Option.bind_eq_bind, Option.bind_eq_some_iff] at h
    obtain ⟨s, hs, h⟩ := h
    have hconst := ih hs
    split_ifs at h with hc
    · obtain ⟨r, -, h⟩ := Option.bind_eq_some_iff.mp h
      obtain ⟨x, -, rfl⟩ := Option.map_eq_some_iff.mp h
      exact (hconst ▸ hc).symm
    · cases h
      exact hconst
  | binary operator left right ihl ihr =>
    simp only [resolve, Option.bind_eq_bind, Option.bind_eq_some_iff] at h
    obtain ⟨l, hl, r, hr, h⟩ := h
    have hconst : (l.isConstant && r.isConstant) = (left.isConstant && right.isConstant) := by rw [ihl hl, ihr hr]
    split_ifs at h with hc
    · obtain ⟨v, -, h⟩ := Option.bind_eq_some_iff.mp h
      exact (isConstant_constantOf h).trans (hconst ▸ hc).symm
    · cases h
      exact hconst
  | assignment => cases h
  | _ =>
    cases h
    rfl

theorem binds_of_isConstant (hconst : e.isConstant) (context : Context φ) : context.Binds e := by
  induction e using Expr.operands with
  | unary operator expression ih => exact ih hconst
  | binary operator left right ihl ihr =>
    obtain ⟨hl, hr⟩ := Bool.and_eq_true_iff.mp hconst
    exact ⟨ihl hl, ihr hr⟩
  | identifier => cases hconst
  | _ => trivial

theorem Expr.Part.simple {s : Expr φ} (h : s.Part e) (hsimple : e.Simple) : s.Simple := by
  induction h with
  | refl => exact hsimple
  | unary operator h ih => exact ih hsimple
  | left operator r h ih => exact ih hsimple.1
  | right operator l h ih => exact ih hsimple.2

theorem Expr.Part.foldable {s : Expr φ} (h : s.Part e) (hfold : e.Foldable py) : s.Foldable py := by
  induction h with
  | refl => exact hfold
  | unary operator h ih => exact ih hfold.1
  | left operator r h ih => exact ih hfold.1
  | right operator l h ih => exact ih hfold.2.1

/-! ### Folding -/

def Resolves (py : Python φ) (context₀ : Context φ) (e : Expr φ) : Prop :=
  ∀ context, (resolve py context₀ e).bind (evaluate py context) = evaluate py context e

theorem Resolves.cases (h : Resolves py context₀ e) :
    (resolve py context₀ e = none ∧ ∀ context, evaluate py context e = none) ∨
    ∃ s, resolve py context₀ e = some s ∧ s.isConstant = e.isConstant ∧
      ∀ context, evaluate py context s = evaluate py context e := by
  cases hs : resolve py context₀ e with
  | none => exact .inl ⟨rfl, fun context => by rw [← h context, hs]; rfl⟩
  | some s => exact .inr ⟨s, rfl, isConstant_resolve hs, fun context => by rw [← h context, hs]; rfl⟩

theorem Resolves.unary_constant (h : Resolves py context₀ e) (hsimple : e.Simple) (hconst : e.isConstant)
    (operator : String) : resolve py context₀ (.unary operator e) =
      (constantValue py (.unary operator e)).bind (fun v => (toFloat py v).map .number) := by
  have hvalue : ∀ context, evaluate py context (.unary operator e) = _ :=
    evaluate_constant (e := .unary operator e) hsimple hconst
  obtain ⟨hs, hnone⟩ | ⟨s, hs, hc, heval⟩ := h.cases
  · have hnil : evaluate py context₀ e = _ := evaluate_constant hsimple hconst context₀
    rw [hnone] at hnil
    rw [resolve, hs, constantValue, Option.map_eq_none_iff.mp hnil.symm]
    rfl
  · have hsame : evaluate py context₀ (.unary operator s) = evaluate py context₀ (.unary operator e) := by
      rw [evaluate, evaluate, heval]
    simp only [resolve, hs, Option.bind_eq_bind, Option.bind_some, hc, hconst, if_true, hsame, hvalue]
    cases constantValue py (.unary operator e) <;> rfl

theorem Resolves.binary_constant {l r : Expr φ} (hl : Resolves py context₀ l) (hr : Resolves py context₀ r)
    (hsimple : l.Simple ∧ r.Simple) (hconst : l.isConstant ∧ r.isConstant) (operator : String) :
    resolve py context₀ (.binary operator l r) =
      (constantValue py (.binary operator l r)).bind (constantOf py) := by
  have hvalue : ∀ context, evaluate py context (.binary operator l r) = _ :=
    evaluate_constant (e := .binary operator l r) hsimple (Bool.and_eq_true_iff.mpr hconst)
  have hleft : evaluate py context₀ l = _ := evaluate_constant hsimple.1 hconst.1 context₀
  have hright : evaluate py context₀ r = _ := evaluate_constant hsimple.2 hconst.2 context₀
  obtain ⟨hs, hnone⟩ | ⟨s, hs, hc, heval⟩ := hl.cases
  · rw [hnone] at hleft
    rw [resolve, hs, constantValue, Option.map_eq_none_iff.mp hleft.symm]
    rfl
  · obtain ⟨ht, hnone⟩ | ⟨t, ht, hd, heval'⟩ := hr.cases
    · rw [hnone] at hright
      rw [resolve, hs, ht, constantValue, Option.map_eq_none_iff.mp hright.symm]
      cases constantValue py l <;> rfl
    · have hsame : evaluate py context₀ (.binary operator s t) = evaluate py context₀ (.binary operator l r) := by
        simp only [evaluate, heval, heval']
      simp only [resolve, hs, ht, Option.bind_eq_bind, Option.bind_some, hc, hd, hconst, Bool.and_self, if_true, hsame,
        hvalue]
      cases constantValue py (.binary operator l r) <;> rfl

theorem Expr.Foldable.resolves (hsimple : e.Simple) (h : e.Foldable py) (context₀ : Context φ) :
    Resolves py context₀ e := by
  induction e using Expr.operands with
  | unary operator expression ih =>
    have hexpr := ih hsimple h.1
    intro context
    by_cases hconst : expression.isConstant
    · rw [hexpr.unary_constant hsimple hconst, evaluate_constant (e := .unary operator expression) hsimple hconst]
      cases hv : constantValue py (.unary operator expression) with
      | none => rfl
      | some v =>
        have hfloat := h.2 hconst v hv
        cases v with
        | float x => rfl
        | _ => cases hfloat
    · obtain ⟨hs, hnone⟩ | ⟨s, hs, hc, heval⟩ := hexpr.cases
      · rw [resolve, hs, evaluate, hnone]
        rfl
      · rw [← hc] at hconst
        simp only [resolve, hs, Option.bind_eq_bind, Option.bind_some, if_neg hconst, evaluate, heval]
  | binary operator left right ihl ihr =>
    have hl := ihl hsimple.1 h.1
    have hr := ihr hsimple.2 h.2.1
    intro context
    by_cases hconst : left.isConstant ∧ right.isConstant
    · rw [hl.binary_constant hr hsimple hconst,
        evaluate_constant (e := .binary operator left right) hsimple (Bool.and_eq_true_iff.mpr hconst)]
      cases hv : constantValue py (.binary operator left right) with
      | none => rfl
      | some v =>
        have hkept := h.2.2 hconst.1 hconst.2 v hv
        cases v with
        | float x => rfl
        | str s => rfl
        | _ => obtain hfalse | hfalse := hkept <;> cases hfalse
    · obtain ⟨hs, hnone⟩ | ⟨s, hs, hc, heval⟩ := hl.cases
      · rw [resolve, hs, evaluate, hnone]
        rfl
      · obtain ⟨ht, hnone⟩ | ⟨t, ht, hd, heval'⟩ := hr.cases
        · simp only [resolve, hs, ht, Option.bind_eq_bind, Option.bind_some, evaluate, hnone]
          cases evaluate py context left <;> rfl
        · rw [← hc, ← hd, ← Bool.and_eq_true_iff] at hconst
          simp only [resolve, hs, ht, Option.bind_eq_bind, Option.bind_some, if_neg hconst, evaluate, heval, heval']
  | assignment => exact hsimple.elim
  | call => exact hsimple.elim
  | _ => exact fun context => rfl

theorem Expr.foldable_of_agrees (hsimple : e.Simple) (h : ∀ s : Expr φ, s.Part e → Agrees py s) : e.Foldable py := by
  let context : Context φ := { constants := fun _ => none, functions := fun _ => none, variableMap := fun _ => none }
  induction e using Expr.operands with
  | unary operator expression ih =>
    have hexpr : expression.Simple := hsimple
    have hfold := ih hexpr (fun s hs => h s (.unary operator hs))
    refine ⟨hfold, fun hconst v hv => ?_⟩
    have hagrees := h _ (.refl _) context context (binds_of_isConstant (e := .unary operator expression) hconst context)
    rw [(hfold.resolves hexpr context).unary_constant hexpr hconst,
      evaluate_constant (e := .unary operator expression) hsimple hconst, hv] at hagrees
    cases hx : toFloat py v with
    | none =>
      rw [Option.bind_some, hx] at hagrees
      cases hagrees
    | some x =>
      rw [Option.bind_some, hx] at hagrees
      cases hagrees
      rfl
  | binary operator left right ihl ihr =>
    have hl := ihl hsimple.1 (fun s hs => h s (.left operator right hs))
    have hr := ihr hsimple.2 (fun s hs => h s (.right operator left hs))
    refine ⟨hl, hr, fun hleft hright v hv => ?_⟩
    have hconst : (Expr.binary operator left right).isConstant := Bool.and_eq_true_iff.mpr ⟨hleft, hright⟩
    have hagrees := h _ (.refl _) context context (binds_of_isConstant hconst context)
    rw [(hl.resolves hsimple.1 context).binary_constant (hr.resolves hsimple.2 context) hsimple ⟨hleft, hright⟩,
      evaluate_constant (e := .binary operator left right) hsimple hconst, hv, Option.bind_some] at hagrees
    cases hc : constantOf py v with
    | none =>
      rw [hc] at hagrees
      cases hagrees
    | some c =>
      rw [hc] at hagrees
      obtain ⟨s, rfl, -⟩ | ⟨x, -, rfl⟩ := constantOf_eq_some hc
      · exact .inr rfl
      · cases hagrees
        exact .inl rfl
  | _ => trivial

/-- Folding preserves an expression and everything that it is built of exactly when no operator over constants has a
value that its constant cannot have. -/
theorem resolve_agrees_iff (py : Python φ) {e : Expr φ} (hsimple : e.Simple) :
    (∀ s : Expr φ, s.Part e → Agrees py s) ↔ e.Foldable py := by
  refine ⟨Expr.foldable_of_agrees hsimple, fun h s hs context₀ context _ => ?_⟩
  exact (hs.foldable h).resolves (hs.simple hsimple) context₀ context

def wholeNumbers : Python Int where
  ofInt := some
  ofString _ := none
  truth x := x != 0
  neg x := -x
  arith := intArith
  compare c x y := c.holds (compare x y)
  compareInt c x n := c.holds (compare x n)
  format _ _ := none
  same v w := decide (v = w)

/-- `x + (1 + 2)`. -/
theorem resolve_agrees_sum :
    (Expr.binary "+" (.identifier "x") (.binary "+" (.number 1) (.number 2)) : Expr Int).Simple ∧
    ((∀ s : Expr Int, s.Part (.binary "+" (.identifier "x") (.binary "+" (.number 1) (.number 2))) →
        Agrees wholeNumbers s) ↔
      (Expr.binary "+" (.identifier "x") (.binary "+" (.number 1) (.number 2))).Foldable wholeNumbers) :=
  ⟨⟨trivial, trivial, trivial⟩, resolve_agrees_iff wholeNumbers ⟨trivial, trivial, trivial⟩⟩

example : (Expr.binary "+" (.identifier "x") (.binary "+" (.number 1) (.number 2))).Foldable wholeNumbers := by
  refine ⟨trivial, ⟨trivial, trivial, fun _ _ v hv => ?_⟩, fun hconst => by cases hconst⟩
  cases hv
  exact .inl rfl

/-- `(1 == 1) & (2 == 2)` is true, and resolving it raises. -/
theorem folded_comparisons_raise :
    ¬ Agrees wholeNumbers
      (.binary "&" (.binary "==" (.number 1) (.number 1)) (.binary "==" (.number 2) (.number 2))) := by
  intro hagrees
  have hraises := hagrees (.init 3 (fun _ => none)) (.init 3 (fun _ => none)) ⟨⟨trivial, trivial⟩, trivial, trivial⟩
  cases hraises

end RaleighSL.Client.Rql
