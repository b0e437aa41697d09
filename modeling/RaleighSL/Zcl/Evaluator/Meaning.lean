import RaleighSL.Zcl.Evaluator.Model
import Mathlib.Algebra.Order.Ring.Int
import Mathlib.Tactic.Linarith

/-!
# What expressions mean

The usual meaning of an expression over integers, and the trees whose evaluation gives it. In
the table of the evaluator the two shifts are exchanged, and so are the two connectives when
both of their operands are evaluated.
-/
namespace RaleighSL.Zcl.Evaluator

variable {φ : Type*} {ops : Floating φ} {vars : String → Option (Expr φ)}

def BinaryType.meaning (type : BinaryType) (left right : Int64) : Option Int64 :=
  match type with
  | .add => checked undefined (left.toInt + right.toInt)
  | .sub => checked undefined (left.toInt - right.toInt)
  | .mul => checked undefined (left.toInt * right.toInt)
  | .div => quotient left right
  | .mod => remainder left right
  | .lshift => shiftLeft undefined left right
  | .rshift => shiftRight left right
  | .bitOr => some (left ||| right)
  | .bitAnd => some (left &&& right)
  | .bitXor => some (left ^^^ right)
  | .eq => truth (left = right)
  | .lt => truth (left < right)
  | .gt => truth (left > right)
  | .le => truth (left ≤ right)
  | .ge => truth (left ≥ right)
  | .neq => truth (left ≠ right)
  | .like => truth (left = right)
  | .ilike => truth (left = right)
  | .or => truth (left ≠ 0 ∨ right ≠ 0)
  | .and => truth (left ≠ 0 ∧ right ≠ 0)

def UnaryType.meaning (type : UnaryType) (operand : Int64) : Option Int64 :=
  match type with
  | .not => truth (operand = 0)
  | .positive => some operand
  | .negative => checked undefined (-operand.toInt)
  | .bitNegation => some (~~~operand)

/-- The integer an expression means. It has none where an operand has none, an operation overflows, or a part is not
about integers. -/
def meaning (vars : String → Option (Expr φ)) : Expr φ → Option Int64
  | .integer n => some n
  | .identifier key =>
    match vars key with
    | some (.integer n) => some n
    | _ => none
  | .unary type operand => (meaning vars operand).bind type.meaning
  | .binary type left right => (meaning vars left).bind (fun m => (meaning vars right).bind (type.meaning m))
  | _ => none

def Expr.subtrees : Expr φ → List (Expr φ)
  | .unary type operand => .unary type operand :: operand.subtrees
  | .binary type left right => .binary type left right :: (left.subtrees ++ right.subtrees)
  | e => [e]

/-- When the right operand need not be evaluated, the result has the truth value of the entry of the table. -/
def ExitAgrees (type : BinaryType) (left right : Int64) : Prop :=
  ∀ r ∈ exitValue type left, ∃ v ∈ evalIntegerBinaryOp undefined type left right, v ≠ 0 ↔ r ≠ 0

/-- The tree is evaluated to what it means, and a connective at its root agrees with its entry in the table. -/
structure EvaluatesRight (ops : Floating φ) (vars : String → Option (Expr φ)) (e : Expr φ) : Prop where
  value : evaluate undefined ops vars e = (meaning vars e).map (fun n => some (.integer n))
  exit : ∀ type left right, e = .binary type left right →
    ∀ m ∈ meaning vars left, ∀ n ∈ meaning vars right, ExitAgrees type m n

/-- A shift that shifts nothing, and a connective of two operands with one truth value. -/
def BinaryType.Balanced (type : BinaryType) (left right : Int64) : Prop :=
  match type with
  | .lshift | .rshift => left = 0 ∨ right = 0
  | .or | .and => left = 0 ↔ right = 0
  | _ => True

def Balanced (vars : String → Option (Expr φ)) : Expr φ → Prop
  | .binary type left right => ∀ m ∈ meaning vars left, ∀ n ∈ meaning vars right, type.Balanced m n
  | _ => True

/-! ### The entries of the table -/

/-- What the evaluator makes of two integers. -/
def combine (type : BinaryType) (left right : Int64) : Option Int64 :=
  (exitValue type left).or (evalIntegerBinaryOp undefined type left right)

theorem checked_eq_some {n : Int} {v : Int64} : checked undefined n = some v ↔ v.toInt = n := by
  rw [checked]
  constructor
  · intro h
    split_ifs at h with hn
    · rw [← Option.some.inj h, Int64.toInt_ofInt_of_le hn.1 hn.2]
    · cases h
  · rintro rfl
    rw [if_pos ⟨v.le_toInt, v.toInt_lt⟩, Int64.ofInt_toInt]

/-- The two shifts of a number differ, unless it is zero or not shifted. -/
theorem shift_eq_iff (a : Int) (k : Nat) : a * 2 ^ k = a / 2 ^ k ↔ a = 0 ∨ k = 0 := by
  constructor
  · intro h
    by_contra hne
    obtain ⟨ha, hk⟩ := not_or.mp hne
    have hpow : (2 : Int) ≤ 2 ^ k := by
      calc (2 : Int) = 2 ^ 1 := (pow_one 2).symm
        _ ≤ 2 ^ k := pow_le_pow_right₀ (by decide) (Nat.one_le_iff_ne_zero.mpr hk)
    obtain hneg | hpos := lt_or_gt_of_ne ha
    · have hle : a ≤ a / 2 ^ k := Int.le_ediv_of_mul_le (by omega) (by nlinarith)
      nlinarith
    · have hle : a / 2 ^ k ≤ a := Int.ediv_le_self _ hpos.le
      nlinarith
  · rintro (rfl | rfl)
    · simp
    · simp

theorem shiftRight_eq_iff {m n v : Int64} (hv : shiftLeft undefined m n = some v) :
    shiftRight m n = some v ↔ m = 0 ∨ n = 0 := by
  rw [shiftLeft] at hv
  split_ifs at hv with hn
  rw [shiftRight, if_pos hn, checked_eq_some, checked_eq_some.mp hv, shift_eq_iff, ← Int64.toInt_inj, ← Int64.toInt_inj,
    Int64.toInt_zero]
  omega

theorem shiftLeft_eq_iff {m n v : Int64} (hv : shiftRight m n = some v) :
    shiftLeft undefined m n = some v ↔ m = 0 ∨ n = 0 := by
  rw [shiftRight] at hv
  split_ifs at hv with hn
  rw [shiftLeft, if_pos hn, checked_eq_some, checked_eq_some.mp hv, eq_comm, shift_eq_iff, ← Int64.toInt_inj,
    ← Int64.toInt_inj, Int64.toInt_zero]
  omega

/-- Two integers are combined to what the operator means exactly when they are balanced. -/
theorem combine_eq_iff {type : BinaryType} {m n v : Int64} (hv : type.meaning m n = some v) :
    combine type m n = some v ∧ ExitAgrees type m n ↔ type.Balanced m n := by
  cases type with
  | lshift => simp [combine, ExitAgrees, exitValue, evalIntegerBinaryOp, BinaryType.Balanced, shiftRight_eq_iff hv]
  | rshift => simp [combine, ExitAgrees, exitValue, evalIntegerBinaryOp, BinaryType.Balanced, shiftLeft_eq_iff hv]
  | or =>
    obtain rfl := Option.some.inj hv
    by_cases hm : m = 0 <;> by_cases hn : n = 0 <;>
      simp [combine, ExitAgrees, exitValue, evalIntegerBinaryOp, truth, BinaryType.Balanced, hm, hn]
  | and =>
    obtain rfl := Option.some.inj hv
    by_cases hm : m = 0 <;> by_cases hn : n = 0 <;>
      simp [combine, ExitAgrees, exitValue, evalIntegerBinaryOp, truth, BinaryType.Balanced, hm, hn]
  | _ => exact iff_of_true ⟨hv, fun r hr => absurd hr (Option.not_mem_none r)⟩ trivial

/-! ### Trees -/

theorem evaluate_unary {type : UnaryType} {operand : Expr φ} {m : Int64}
    (h : evaluate undefined ops vars operand = some (some (.integer m))) :
    evaluate undefined ops vars (.unary type operand) = (type.meaning m).map (fun n => some (.integer n)) := by
  rw [evaluate, h, Option.bind_some, evalUnary]
  cases type <;> rfl

theorem evaluate_binary {type : BinaryType} {left right : Expr φ} {m n : Int64}
    (hl : evaluate undefined ops vars left = some (some (.integer m)))
    (hr : evaluate undefined ops vars right = some (some (.integer n))) :
    evaluate undefined ops vars (.binary type left right) = (combine type m n).map (fun n => some (.integer n)) := by
  rw [evaluate, hl, Option.bind_some, earlyExit, combine]
  cases exitValue type m with
  | none => rw [hr]; rfl
  | some r => rfl

theorem Expr.mem_subtrees (e : Expr φ) : e ∈ e.subtrees := by
  cases e <;> simp [Expr.subtrees]

theorem EvaluatesRight.unary {type : UnaryType} {operand : Expr φ} (h : EvaluatesRight ops vars operand) {m : Int64}
    (hm : meaning vars operand = some m) : EvaluatesRight ops vars (.unary type operand) where
  value := by
    have hvalue := h.value
    rw [hm] at hvalue
    rw [evaluate_unary hvalue, meaning, hm, Option.bind_some]
  exit _ _ _ heq := by cases heq

theorem EvaluatesRight.binary_iff {type : BinaryType} {left right : Expr φ} (hl : EvaluatesRight ops vars left)
    (hr : EvaluatesRight ops vars right) {m n v : Int64} (hm : meaning vars left = some m)
    (hn : meaning vars right = some n) (hv : type.meaning m n = some v) :
    EvaluatesRight ops vars (.binary type left right) ↔ Balanced vars (.binary type left right) := by
  have hlvalue := hl.value
  have hrvalue := hr.value
  rw [hm] at hlvalue
  rw [hn] at hrvalue
  have hmeaning : meaning vars (.binary type left right) = some v := by
    rw [meaning, hm, hn, Option.bind_some, Option.bind_some, hv]
  have hinj (o : Option Int64) :
      o.map (fun n => some (Expr.integer n : Expr φ)) = some (some (.integer v)) ↔ o = some v := by
    simp
  have hbalanced : Balanced vars (.binary type left right) ↔ type.Balanced m n := by
    simp [Balanced, hm, hn]
  rw [hbalanced, ← combine_eq_iff hv]
  constructor
  · intro h
    have hvalue := h.value
    rw [evaluate_binary hlvalue hrvalue, hmeaning] at hvalue
    exact ⟨(hinj _).mp hvalue, h.exit type left right rfl m hm n hn⟩
  · rintro ⟨hcombine, hexit⟩
    refine ⟨?_, ?_⟩
    · rw [evaluate_binary hlvalue hrvalue, hmeaning, hcombine]
    · intro type' left' right' heq m' hm' n' hn'
      obtain ⟨rfl, rfl, rfl⟩ := Expr.binary.inj heq
      obtain rfl := Option.some.inj (hm.symm.trans hm')
      obtain rfl := Option.some.inj (hn.symm.trans hn')
      exact hexit

/-- A tree with a meaning, and all the trees below it, are evaluated right exactly when the operands of every shift and
of every connective are balanced. -/
theorem evaluates_right_iff (ops : Floating φ) (vars : String → Option (Expr φ)) (e : Expr φ)
    (he : (meaning vars e).isSome) :
    (∀ d ∈ e.subtrees, EvaluatesRight ops vars d) ↔ ∀ d ∈ e.subtrees, Balanced vars d := by
  induction e with
  | integer n =>
    simp only [Expr.subtrees, List.forall_mem_singleton]
    exact iff_of_true ⟨rfl, fun _ _ _ heq => by cases heq⟩ trivial
  | floating x => cases he
  | string => cases he
  | identifier key =>
    simp only [Expr.subtrees, List.forall_mem_singleton]
    refine iff_of_true ⟨?_, fun _ _ _ heq => by cases heq⟩ trivial
    rw [meaning] at he
    split at he
    next n hkey => rw [evaluate, meaning, hkey]; rfl
    next => cases he
  | unary type operand ih =>
    obtain ⟨v, hv⟩ := Option.isSome_iff_exists.mp he
    rw [meaning, Option.bind_eq_some_iff] at hv
    obtain ⟨m, hm, -⟩ := hv
    have ih := ih (by rw [hm]; rfl)
    simp only [Expr.subtrees, List.forall_mem_cons]
    constructor
    · rintro ⟨-, hsub⟩
      exact ⟨trivial, ih.mp hsub⟩
    · rintro ⟨-, hsub⟩
      have hright := ih.mpr hsub
      exact ⟨(hright operand operand.mem_subtrees).unary hm, hright⟩
  | binary type left right ihl ihr =>
    obtain ⟨v, hv⟩ := Option.isSome_iff_exists.mp he
    rw [meaning, Option.bind_eq_some_iff] at hv
    obtain ⟨m, hm, hv⟩ := hv
    rw [Option.bind_eq_some_iff] at hv
    obtain ⟨n, hn, hv⟩ := hv
    have ihl := ihl (by rw [hm]; rfl)
    have ihr := ihr (by rw [hn]; rfl)
    simp only [Expr.subtrees, List.forall_mem_cons, List.forall_mem_append]
    rw [ihl, ihr]
    refine and_congr_left (fun hsub => ?_)
    exact (ihl.mpr hsub.1 left left.mem_subtrees).binary_iff (ihr.mpr hsub.2 right right.mem_subtrees) hm hn hv
  | function => cases he

/-- Operations of `double` for trees that have none. -/
def noFloating : Floating Unit := ⟨fun _ => (), fun _ _ => none, fun _ _ _ => none⟩

/-- `x * 3 > 5 AND NOT 0`. -/
def andNotTree : Expr Unit :=
  .binary .and (.binary .gt (.binary .mul (.identifier "x") (.integer 3)) (.integer 5)) (.unary .not (.integer 0))

def xIsTwo (key : String) : Option (Expr Unit) := if key = "x" then some (.integer 2) else none

theorem and_not_evaluated_right : EvaluatesRight noFloating xIsTwo andNotTree := by
  refine (evaluates_right_iff noFloating xIsTwo andNotTree rfl).mpr ?_ andNotTree andNotTree.mem_subtrees
  simp only [andNotTree, Expr.subtrees, List.cons_append, List.nil_append, List.forall_mem_cons, Balanced,
    BinaryType.Balanced, implies_true, and_true, List.not_mem_nil, false_imp_iff]
  intro m hm n hn
  obtain rfl : m = 1 := Option.some.inj hm.symm
  obtain rfl : n = 1 := Option.some.inj hn.symm
  rfl

/-- `0 OR 1` is evaluated to 0. -/
theorem or_evaluated_as_and : evaluate undefined noFloating xIsTwo (.binary .or (.integer 0) (.integer 1)) =
      some (some (.integer 0)) ∧
    meaning xIsTwo (.binary .or (.integer 0) (.integer 1)) = some 1 ∧
      ¬ EvaluatesRight noFloating xIsTwo (.binary .or (.integer 0) (.integer 1)) := by
  have hvalue : evaluate undefined noFloating xIsTwo (.binary .or (.integer 0) (.integer 1)) = some (some (.integer 0)) := rfl
  have hmeaning : meaning xIsTwo (.binary .or (.integer 0) (.integer 1)) = some 1 := rfl
  refine ⟨hvalue, hmeaning, ?_⟩
  intro h
  have hright := h.value
  rw [hvalue, hmeaning] at hright
  exact absurd hright (by decide)

end RaleighSL.Zcl.Evaluator
