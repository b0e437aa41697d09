import RaleighSL.Client.Rql.Parser
import RaleighSL.Library.Precedence

/-!
# Expressions of trees

A tree of operators over expressions is an expression, which does not tell where the operands of
the tree begin. Two trees for one chain are told apart all the same, when no operand of the one
is on the left spine of the same operand of the other.
-/
namespace RaleighSL.Client.Rql

open Library

variable {φ : Type}

def treeExpr : OpTree (Expr φ) String → Expr φ
  | .leaf e => e
  | .node l op r => .binary op (treeExpr l) (treeExpr r)

def operands (t : OpTree (Expr φ) String) : List (Expr φ) := t.head :: t.rest.map Prod.snd

@[simp] theorem operands_leaf (e : Expr φ) : operands (.leaf e) = [e] := rfl

@[simp] theorem operands_node (l : OpTree (Expr φ) String) (op : String) (r : OpTree (Expr φ) String) :
    operands (.node l op r) = operands l ++ operands r := by
  simp [operands, OpTree.head, OpTree.rest]

inductive LeftBelow (e : Expr φ) : Expr φ → Prop where
  | here (op : String) (r : Expr φ) : LeftBelow e (.binary op e r)
  | further (op : String) {l : Expr φ} (r : Expr φ) (h : LeftBelow e l) : LeftBelow e (.binary op l r)

theorem LeftBelow.trans {d e f : Expr φ} (hde : LeftBelow d e) (hef : LeftBelow e f) : LeftBelow d f := by
  induction hef with
  | here op r => exact .further op r hde
  | further op r _ ih => exact .further op r ih

def Expr.spine : Expr φ → Nat
  | .binary _ l _ => l.spine + 1
  | _ => 0

theorem LeftBelow.spine_lt {e f : Expr φ} (h : LeftBelow e f) : e.spine < f.spine := by
  induction h with
  | here op r => exact Nat.lt_succ_self _
  | further op r _ ih => exact Nat.lt_succ_of_lt ih

def Apart (e f : Expr φ) : Prop := ¬ LeftBelow e f ∧ ¬ LeftBelow f e

theorem Apart.symm {e f : Expr φ} (h : Apart e f) : Apart f e := ⟨h.2, h.1⟩

theorem apart_self (e : Expr φ) : Apart e e :=
  ⟨fun h => Nat.lt_irrefl _ h.spine_lt, fun h => Nat.lt_irrefl _ h.spine_lt⟩

/-- Expressions that are no binary operators are apart. -/
theorem apart_of_spine {e f : Expr φ} (he : e.spine = 0) (hf : f.spine = 0) : Apart e f :=
  ⟨fun h => by have := h.spine_lt; omega, fun h => by have := h.spine_lt; omega⟩

/-- The operands at the same places of two trees are apart. -/
def Aligned (t u : OpTree (Expr φ) String) : Prop :=
  ∀ (i : Nat) e f, (operands t)[i]? = some e → (operands u)[i]? = some f → Apart e f

theorem Aligned.symm {t u : OpTree (Expr φ) String} (h : Aligned t u) : Aligned u t :=
  fun i e f he hf => (h i f e hf he).symm

theorem getElem?_append_of_some {α : Type*} {l : List α} {i : Nat} {a : α} (h : l[i]? = some a) (m : List α) :
    (l ++ m)[i]? = some a := by
  obtain ⟨hi, rfl⟩ := List.getElem?_eq_some_iff.mp h
  rw [List.getElem?_append_left hi, List.getElem?_eq_getElem hi]

theorem Aligned.left_left {l r : OpTree (Expr φ) String} {op : String} {l' r' : OpTree (Expr φ) String} {op' : String}
    (h : Aligned (.node l op r) (.node l' op' r')) : Aligned l l' := by
  intro i e f he hf
  refine h i e f ?_ ?_
  · rw [operands_node]
    exact getElem?_append_of_some he _
  · rw [operands_node]
    exact getElem?_append_of_some hf _

theorem Aligned.left {l r : OpTree (Expr φ) String} {op : String} {u : OpTree (Expr φ) String}
    (h : Aligned (.node l op r) u) : Aligned l u := by
  intro i e f he hf
  refine h i e f ?_ hf
  rw [operands_node]
  exact getElem?_append_of_some he _

theorem Aligned.right_right {l r : OpTree (Expr φ) String} {op : String} {r' : OpTree (Expr φ) String} {op' : String}
    (h : Aligned (.node l op r) (.node l op' r')) : Aligned r r' := by
  intro i e f he hf
  refine h ((operands l).length + i) e f ?_ ?_
  · rw [operands_node, List.getElem?_append_right (Nat.le_add_right _ _), Nat.add_sub_cancel_left]
    exact he
  · rw [operands_node, List.getElem?_append_right (Nat.le_add_right _ _), Nat.add_sub_cancel_left]
    exact hf

theorem head_leftBelow (l : OpTree (Expr φ) String) (op : String) (r : OpTree (Expr φ) String) :
    LeftBelow (OpTree.node l op r).head (treeExpr (.node l op r)) := by
  induction l generalizing op r with
  | leaf e => exact .here op _
  | node l' op' r' ih => exact .further op _ (ih op' r')

theorem Aligned.head {t u : OpTree (Expr φ) String} (h : Aligned t u) : Apart t.head u.head := h 0 _ _ rfl rfl

theorem Aligned.eq {t u : OpTree (Expr φ) String} (h : Aligned t u) (heq : treeExpr t = treeExpr u) : t = u := by
  induction t generalizing u with
  | leaf e =>
    cases u with
    | leaf f => exact congrArg OpTree.leaf heq
    | node l op r =>
      have hbelow := head_leftBelow l op r
      rw [← heq] at hbelow
      exact absurd hbelow h.head.2
  | node l op r ihl ihr =>
    cases u with
    | leaf f =>
      have hbelow := head_leftBelow l op r
      rw [heq] at hbelow
      exact absurd hbelow h.head.1
    | node l' op' r' =>
      obtain ⟨rfl, hl, hr⟩ := Expr.binary.inj heq
      obtain rfl := ihl h.left_left hl
      rw [ihr h.right_right hr]

theorem Aligned.length_lt {t u : OpTree (Expr φ) String} (h : Aligned t u)
    (hbelow : LeftBelow (treeExpr u) (treeExpr t)) : (operands u).length < (operands t).length := by
  induction t with
  | leaf e =>
    cases u with
    | leaf f => exact absurd hbelow h.head.2
    | node l op r => exact absurd ((head_leftBelow l op r).trans hbelow) h.head.2
  | node l op r ihl _ =>
    have hlength : (operands l).length < (operands (.node l op r)).length := by
      rw [operands_node, List.length_append]
      exact Nat.lt_add_of_pos_right (Nat.succ_pos _)
    generalize hexpr : treeExpr (.node l op r) = e at hbelow
    cases hbelow with
    | here op' r' =>
      obtain ⟨-, hl, -⟩ := Expr.binary.inj hexpr
      obtain rfl := h.left.eq hl
      exact hlength
    | further op' r' hbelow =>
      obtain ⟨-, rfl, -⟩ := Expr.binary.inj hexpr
      exact Nat.lt_trans (ihl h.left hbelow) hlength

theorem Aligned.apart {t u : OpTree (Expr φ) String} (h : Aligned t u)
    (hlength : (operands t).length = (operands u).length) : Apart (treeExpr t) (treeExpr u) := by
  refine ⟨fun hbelow => ?_, fun hbelow => ?_⟩
  · have := h.symm.length_lt hbelow
    omega
  · have := h.length_lt hbelow
    omega

end RaleighSL.Client.Rql
