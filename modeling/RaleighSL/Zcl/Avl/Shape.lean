import RaleighSL.Zcl.Avl.Model
import Mathlib.Order.Monotone.Basic

/-!
# The shape of the balanced tree

A place in a balanced tree is a stack whose nodes fit around a subtree of some height.
An insertion lets the subtree of the last ancestor that was out of balance keep its
height, and a removal hands a subtree that has become lower by one up the stack until a
node takes it without becoming lower itself. The order of the nodes does not change.
-/
namespace RaleighSL.Zcl.Avl

variable {α : Type*}

def Tree.height : Tree α → Nat
  | .nil => 0
  | .node l _ _ r => max l.height r.height + 1

def Tree.toList : Tree α → List α
  | .nil => []
  | .node l v _ r => l.toList ++ v :: r.toList

/-- Every stored balance is the difference of the heights, and it is at most one. -/
def Tree.Balanced : Tree α → Prop
  | .nil => True
  | .node l _ b r => l.Balanced ∧ r.Balanced ∧ b = (r.height : Int) - l.height ∧ -1 ≤ b ∧ b ≤ 1

def Frame.Fits (f : Frame α) (h : Nat) : Prop :=
  f.other.Balanced ∧ f.balance = (if f.dir then (h : Int) - f.other.height else f.other.height - h) ∧
    -1 ≤ f.balance ∧ f.balance ≤ 1

/-- The height of the tree around a subtree of the height. -/
def grow : List (Frame α) → Nat → Nat
  | [], h => h
  | f :: fs, h => grow fs (max h f.other.height + 1)

/-- The stack fits around a balanced subtree of the height. -/
def Fits : List (Frame α) → Nat → Prop
  | [], _ => True
  | f :: fs, h => f.Fits h ∧ Fits fs (max h f.other.height + 1)

def lefts : List (Frame α) → List α
  | [] => []
  | f :: fs => lefts fs ++ if f.dir then f.other.toList ++ [f.value] else []

def rights : List (Frame α) → List α
  | [] => []
  | f :: fs => (if f.dir then [] else f.value :: f.other.toList) ++ rights fs

variable {t : Tree α} {f : Frame α} {stack : List (Frame α)} {h : Nat} {l r : Tree α} {v : α}

theorem Frame.height_plug (f : Frame α) (t : Tree α) : (f.plug t).height = max t.height f.other.height + 1 := by
  rw [Frame.plug]
  split
  · rfl
  · rw [Tree.height, Nat.max_comm]

theorem Frame.balanced_plug : (f.plug t).Balanced ↔ t.Balanced ∧ f.Fits t.height := by
  rw [Frame.plug, Frame.Fits]
  split
  · next hdir =>
    rw [hdir, Tree.Balanced]
    exact Iff.rfl
  · next hdir =>
    rw [hdir, Tree.Balanced, if_pos rfl]
    exact and_left_comm

theorem height_plugAll (stack : List (Frame α)) (t : Tree α) : (plugAll stack t).height = grow stack t.height := by
  induction stack generalizing t with
  | nil => rfl
  | cons f stack ih => rw [plugAll, ih, f.height_plug, grow]

theorem balanced_plugAll : (plugAll stack t).Balanced ↔ t.Balanced ∧ Fits stack t.height := by
  induction stack generalizing t with
  | nil => exact (and_iff_left trivial).symm
  | cons f stack ih => rw [plugAll, ih, f.balanced_plug, f.height_plug, and_assoc, Fits]

theorem fits_append {stack' : List (Frame α)} : Fits (stack ++ stack') h ↔ Fits stack h ∧ Fits stack' (grow stack h) := by
  induction stack generalizing h with
  | nil => exact (and_iff_right trivial).symm
  | cons f stack ih => rw [List.cons_append, Fits, ih, Fits, grow, and_assoc]

theorem grow_append (stack stack' : List (Frame α)) (h : Nat) : grow (stack ++ stack') h = grow stack' (grow stack h) := by
  induction stack generalizing h with
  | nil => rfl
  | cons f stack ih => rw [List.cons_append, grow, ih, grow]

theorem length_add_le_grow (stack : List (Frame α)) (h : Nat) : stack.length + h ≤ grow stack h := by
  induction stack generalizing h with
  | nil => simp [grow]
  | cons f stack ih =>
    have hle := ih (max h f.other.height + 1)
    rw [grow, List.length_cons]
    omega

theorem Frame.toList_plug (f : Frame α) (t : Tree α) : (f.plug t).toList = lefts [f] ++ t.toList ++ rights [f] := by
  rw [Frame.plug]
  split
  · next hdir => simp [lefts, rights, hdir, Tree.toList]
  · next hdir => simp [lefts, rights, hdir, Tree.toList]

theorem toList_plugAll (stack : List (Frame α)) (t : Tree α) :
    (plugAll stack t).toList = lefts stack ++ t.toList ++ rights stack := by
  induction stack generalizing t with
  | nil => simp [plugAll, lefts, rights]
  | cons f stack ih => simp [plugAll, ih, f.toList_plug, lefts, rights]

theorem lefts_append (stack stack' : List (Frame α)) : lefts (stack ++ stack') = lefts stack' ++ lefts stack := by
  induction stack with
  | nil => simp [lefts]
  | cons f stack ih => simp [lefts, ih]

theorem rights_append (stack stack' : List (Frame α)) : rights (stack ++ stack') = rights stack ++ rights stack' := by
  induction stack with
  | nil => simp [rights]
  | cons f stack ih => simp [rights, ih]

/-! ### Insertion -/

/-- A subtree that has grown: it is new, or one of its sides is higher. -/
def Tree.Tall : Tree α → Prop
  | .nil => False
  | .node l _ b r => b ≠ 0 ∨ l = .nil ∧ r = .nil

/-- The tree after a double rotation: two subtrees of one height at the sides, and between them two of which one
has the same height. -/
theorem balanced_double {a b c d : Tree α} (bx bv : Int) (ha : a.Balanced) (hb : b.Balanced) (hc : c.Balanced)
    (hd : d.Balanced) (hsides : a.height = d.height) (hbx : bx = (b.height : Int) - a.height)
    (hbv : bv = (d.height : Int) - c.height) (hmax : max b.height c.height = a.height)
    (hlow : a.height ≤ min b.height c.height + 1) (x w v : α) :
    (Tree.node (.node a x bx b) w 0 (.node c v bv d)).Balanced ∧
      (Tree.node (.node a x bx b) w 0 (.node c v bv d)).height = a.height + 2 := by
  simp only [Tree.Balanced, Tree.height]
  refine ⟨⟨⟨ha, hb, hbx, ?_, ?_⟩, ⟨hc, hd, hbv, ?_, ?_⟩, ?_, by decide, by decide⟩, ?_⟩ <;> omega

theorem balanced_single {a b c : Tree α} {bx bv : Int} (ha : a.Balanced) (hb : b.Balanced) (hc : c.Balanced)
    (hbx : bx = (max b.height c.height + 1 : Int) - a.height) (hbv : bv = (c.height : Int) - b.height)
    (hx : -1 ≤ bx ∧ bx ≤ 1) (hv : -1 ≤ bv ∧ bv ≤ 1) (x v : α) : (Tree.node a x bx (.node b v bv c)).Balanced := by
  simp only [Tree.Balanced, Tree.height]
  refine ⟨ha, ⟨hb, hc, hbv, hv⟩, ?_, hx⟩
  omega

theorem balanced_single' {a b c : Tree α} {bx bv : Int} (ha : a.Balanced) (hb : b.Balanced) (hc : c.Balanced)
    (hbx : bx = (c.height : Int) - (max a.height b.height + 1)) (hbv : bv = (b.height : Int) - a.height)
    (hx : -1 ≤ bx ∧ bx ≤ 1) (hv : -1 ≤ bv ∧ bv ≤ 1) (x v : α) : (Tree.node (.node a v bv b) x bx c).Balanced := by
  simp only [Tree.Balanced, Tree.height]
  refine ⟨⟨ha, hb, hbv, hv⟩, hc, ?_, hx⟩
  omega

theorem rotate_left (hl : l.Balanced) (hr : r.Balanced) (hh : l.height = r.height + 2) (htall : l.Tall) (v : α) :
    ∃ t, rotate (.node l v (-2) r) = some t ∧ t.Balanced ∧ t.height = l.height ∧
      t.toList = l.toList ++ v :: r.toList := by
  cases l with
  | nil => exact htall.elim
  | node l' x bx c =>
    obtain ⟨hl', hc, hbx, hlow, hhigh⟩ := hl
    rw [Tree.height] at hh ⊢
    by_cases hleft : bx = -1
    · refine ⟨.node l' x 0 (.node c v 0 r), by simp [rotate, hleft], ?_, ?_, by simp [Tree.toList]⟩
      · exact balanced_single hl' hc hr (by omega) (by omega) (by decide) (by decide) x v
      · simp only [Tree.height]
        omega
    · have hright : bx = 1 := by
        rcases htall with hne | ⟨rfl, rfl⟩
        · omega
        · simp [Tree.height] at hh
      cases c with
      | nil =>
        simp only [Tree.height] at hbx
        omega
      | node c₀ w bw c₁ =>
        obtain ⟨hc₀, hc₁, hbw, hwlow, hwhigh⟩ := hc
        simp only [Tree.height] at hbx hh ⊢
        by_cases hwl : bw = -1
        · obtain ⟨hb, hheight⟩ := balanced_double 0 1 hl' hc₀ hc₁ hr (by omega) (by omega) (by omega)
            (by omega) (by omega) x w v
          exact ⟨_, by simp [rotate, hleft, hwl], hb, by omega, by simp [Tree.toList]⟩
        · by_cases hwz : bw = 0
          · obtain ⟨hb, hheight⟩ := balanced_double 0 0 hl' hc₀ hc₁ hr (by omega) (by omega) (by omega)
              (by omega) (by omega) x w v
            exact ⟨_, by simp [rotate, hleft, hwz], hb, by omega, by simp [Tree.toList]⟩
          · obtain ⟨hb, hheight⟩ := balanced_double (-1) 0 hl' hc₀ hc₁ hr (by omega) (by omega) (by omega)
              (by omega) (by omega) x w v
            exact ⟨_, by simp [rotate, hleft, hwl, hwz], hb, by omega, by simp [Tree.toList]⟩

theorem rotate_right (hl : l.Balanced) (hr : r.Balanced) (hh : r.height = l.height + 2) (htall : r.Tall) (v : α) :
    ∃ t, rotate (.node l v 2 r) = some t ∧ t.Balanced ∧ t.height = r.height ∧
      t.toList = l.toList ++ v :: r.toList := by
  cases r with
  | nil => exact htall.elim
  | node c x bx r' =>
    obtain ⟨hc, hr', hbx, hlow, hhigh⟩ := hr
    rw [Tree.height] at hh ⊢
    by_cases hright : bx = 1
    · refine ⟨.node (.node l v 0 c) x 0 r', by simp [rotate, hright], ?_, ?_, by simp [Tree.toList]⟩
      · exact balanced_single' hl hc hr' (by omega) (by omega) (by decide) (by decide) x v
      · simp only [Tree.height]
        omega
    · have hleft : bx = -1 := by
        rcases htall with hne | ⟨rfl, rfl⟩
        · omega
        · simp [Tree.height] at hh
      cases c with
      | nil =>
        simp only [Tree.height] at hbx
        omega
      | node c₀ w bw c₁ =>
        obtain ⟨hc₀, hc₁, hbw, hwlow, hwhigh⟩ := hc
        simp only [Tree.height] at hbx hh ⊢
        by_cases hwr : bw = 1
        · obtain ⟨hb, hheight⟩ := balanced_double (-1) 0 hl hc₀ hc₁ hr' (by omega) (by omega) (by omega)
            (by omega) (by omega) v w x
          exact ⟨_, by simp [rotate, hright, hwr], hb, by omega, by simp [Tree.toList]⟩
        · by_cases hwz : bw = 0
          · obtain ⟨hb, hheight⟩ := balanced_double 0 0 hl hc₀ hc₁ hr' (by omega) (by omega) (by omega)
              (by omega) (by omega) v w x
            exact ⟨_, by simp [rotate, hright, hwz], hb, by omega, by simp [Tree.toList]⟩
          · obtain ⟨hb, hheight⟩ := balanced_double 0 1 hl hc₀ hc₁ hr' (by omega) (by omega) (by omega)
              (by omega) (by omega) v w x
            exact ⟨_, by simp [rotate, hright, hwr, hwz], hb, by omega, by simp [Tree.toList]⟩

/-- Ancestors in balance above a subtree that has grown: each of them is out of balance now. -/
theorem grown {inner : List (Frame α)} (hzero : ∀ f ∈ inner, f.balance = 0) (hfits : Fits inner h) (ht : t.Balanced)
    (hheight : t.height = h + 1) (htall : t.Tall) :
    (plugAll (inner.map Frame.count) t).Balanced ∧ (plugAll (inner.map Frame.count) t).height = grow inner h + 1 ∧
      (plugAll (inner.map Frame.count) t).Tall := by
  induction inner generalizing t h with
  | nil => exact ⟨ht, hheight, htall⟩
  | cons f inner ih =>
    obtain ⟨⟨hother, hbal, -, -⟩, hrest⟩ := hfits
    have hb : f.balance = 0 := hzero f List.mem_cons_self
    have hnext := ih (t := f.count.plug t) (fun g hg => hzero g (List.mem_cons_of_mem f hg)) hrest
    obtain ⟨v, b, dir, other⟩ := f
    obtain rfl : b = 0 := hb
    cases dir with
    | false =>
      simp only [Bool.false_eq_true, if_false] at hother hbal hnext
      apply hnext
      · simp only [Frame.count, Frame.plug, Bool.false_eq_true, if_false, Tree.Balanced]
        exact ⟨ht, hother, by omega, by omega, by omega⟩
      · simp only [Frame.count, Frame.plug, Tree.height]
        omega
      · simp [Frame.count, Frame.plug, Tree.Tall]
    | true =>
      simp only [if_true] at hother hbal hnext
      apply hnext
      · simp only [Frame.count, Frame.plug, if_true, Tree.Balanced]
        exact ⟨hother, ht, by omega, by omega, by omega⟩
      · simp only [Frame.count, Frame.plug, Tree.height]
        omega
      · simp [Frame.count, Frame.plug, Tree.Tall]

theorem lefts_count (stack : List (Frame α)) : lefts (stack.map Frame.count) = lefts stack := by
  induction stack with
  | nil => rfl
  | cons f stack ih =>
    rw [List.map_cons, lefts, ih]
    rfl

theorem rights_count (stack : List (Frame α)) : rights (stack.map Frame.count) = rights stack := by
  induction stack with
  | nil => rfl
  | cons f stack ih =>
    rw [List.map_cons, rights, ih]
    rfl

/-- The ancestor the balance changes from keeps the height of its subtree if it was out of balance. -/
theorem rotate_count (hf : f.Fits h) (ht : t.Balanced) (hheight : t.height = h + 1) (htall : t.Tall) :
    ∃ t', rotate (f.count.plug t) = some t' ∧ t'.Balanced ∧ (f.balance ≠ 0 → t'.height = max h f.other.height + 1) ∧
      t'.toList = lefts [f] ++ t.toList ++ rights [f] := by
  obtain ⟨hother, hbal, hlow, hhigh⟩ := hf
  have hlist : (f.count.plug t).toList = lefts [f] ++ t.toList ++ rights [f] := by
    rw [Frame.toList_plug, ← lefts_count [f], ← rights_count [f]]
    rfl
  have hkeep (hbalanced : (f.count.plug t).Balanced) (hsmall : rotate (f.count.plug t) = some (f.count.plug t))
      (hh : f.balance ≠ 0 → (f.count.plug t).height = max h f.other.height + 1) :
      ∃ t', rotate (f.count.plug t) = some t' ∧ t'.Balanced ∧
        (f.balance ≠ 0 → t'.height = max h f.other.height + 1) ∧ t'.toList = lefts [f] ++ t.toList ++ rights [f] :=
    ⟨_, hsmall, hbalanced, hh, hlist⟩
  obtain ⟨v, b, dir, other⟩ := f
  cases dir with
  | false =>
    simp only [Bool.false_eq_true, if_false] at hother hbal hlow hhigh
    by_cases hout : b = -1
    · subst hout
      obtain ⟨t', hrot, hb', hh', hl'⟩ := rotate_left ht hother (by omega) htall v
      refine ⟨t', hrot, hb', fun _ => ?_, ?_⟩
      · simp only
        omega
      · rw [hl', ← hlist]
        rfl
    · refine hkeep ?_ ?_ ?_
      · simp only [Frame.count, Frame.plug, Bool.false_eq_true, if_false, Tree.Balanced]
        exact ⟨ht, hother, by omega, by omega, by omega⟩
      · simp only [Frame.count, Frame.plug, Bool.false_eq_true, if_false, rotate]
        rw [if_neg (by omega), if_neg (by omega)]
      · intro hne
        simp only [Frame.count, Frame.plug, Tree.height] at hne ⊢
        omega
  | true =>
    simp only [if_true] at hother hbal hlow hhigh
    by_cases hout : b = 1
    · subst hout
      obtain ⟨t', hrot, hb', hh', hl'⟩ := rotate_right hother ht (by omega) htall v
      refine ⟨t', hrot, hb', fun _ => ?_, ?_⟩
      · simp only
        omega
      · rw [hl', ← hlist]
        rfl
    · refine hkeep ?_ ?_ ?_
      · simp only [Frame.count, Frame.plug, if_true, Tree.Balanced]
        exact ⟨hother, ht, by omega, by omega, by omega⟩
      · simp only [Frame.count, Frame.plug, if_true, rotate]
        rw [if_neg (by omega), if_neg (by omega)]
      · intro hne
        simp only [Frame.count, Frame.plug, Tree.height] at hne ⊢
        omega

theorem plugAll_append (stack stack' : List (Frame α)) (t : Tree α) :
    plugAll (stack ++ stack') t = plugAll stack' (plugAll stack t) := by
  induction stack generalizing t with
  | nil => rfl
  | cons f stack ih => rw [List.cons_append, plugAll, ih, plugAll]

/-- The ancestors below the last one that was out of balance are in balance. -/
structure Counted (above below : List (Frame α)) : Prop where
  zero : ∀ f ∈ below.dropLast, f.balance = 0
  last : ∀ f, below.getLast? = some f → f.balance = 0 → above = []
  start : below = [] → above = []

theorem doInsert_spec {above below : List (Frame α)} (hc : Counted above below) (hfits : Fits (below ++ above) 0) (x : α) :
    ∃ t, doInsert above below x = some t ∧ t.Balanced ∧
      t.toList = lefts (below ++ above) ++ x :: rights (below ++ above) := by
  have hleaf : (Tree.node .nil x 0 .nil).Balanced := by simp [Tree.Balanced, Tree.height]
  rcases List.eq_nil_or_concat below with rfl | ⟨inner, f, rfl⟩
  · obtain rfl := hc.start rfl
    exact ⟨_, rfl, hleaf, rfl⟩
  · rw [List.concat_eq_append] at hc hfits ⊢
    rw [fits_append, fits_append] at hfits
    obtain ⟨⟨hinner, hf, -⟩, habove⟩ := hfits
    have hzero := hc.zero
    rw [List.dropLast_concat] at hzero
    obtain ⟨hb, hh, htall⟩ := grown hzero hinner hleaf (by simp [Tree.height]) (Or.inr ⟨rfl, rfl⟩)
    obtain ⟨t', hrot, hb', hh', hlist⟩ := rotate_count hf hb hh htall
    have hdo : doInsert above (inner ++ [f]) x = some (plugAll above t') := by
      obtain ⟨g, gs, hcons⟩ : ∃ g gs, inner ++ [f] = g :: gs := List.exists_cons_of_ne_nil (by simp)
      rw [hcons, doInsert, ← hcons, List.map_append, plugAll_append, List.map_cons, List.map_nil, plugAll, plugAll, hrot]
      rfl
    refine ⟨_, hdo, ?_, ?_⟩
    · rw [balanced_plugAll]
      refine ⟨hb', ?_⟩
      by_cases hbal : f.balance = 0
      · rw [hc.last f List.getLast?_concat hbal]
        trivial
      · rw [hh' hbal]
        rw [grow_append] at habove
        exact habove
    · rw [toList_plugAll, hlist, toList_plugAll, lefts_count, rights_count, lefts_append, rights_append, lefts_append,
        rights_append]
      simp [Tree.toList]

/-! ### Removal -/

/-- A round of the loop that goes up: the subtree of the node has become lower too, or the loop ends. -/
structure Shrinks (f : Frame α) (t t₁ : Tree α) : Prop where
  balanced : t₁.Balanced
  toList : t₁.toList = lefts [f] ++ t.toList ++ rights [f]
  round : (∀ stack, unwind (f :: stack) t = unwind stack t₁) ∧ t₁.height = max (t.height + 1) f.other.height ∨
    (∀ stack, unwind (f :: stack) t = some (plugAll stack t₁)) ∧ t₁.height = max (t.height + 1) f.other.height + 1

/-- The left subtree has become lower, and the right one was higher already. -/
theorem shrink_left_rotate {y : α} {other : Tree α} (ht : t.Balanced) (hother : other.Balanced)
    (hh : other.height = t.height + 2) : ∃ t₁, Shrinks ⟨y, 1, false, other⟩ t t₁ := by
  cases other with
  | nil => simp [Tree.height] at hh
  | node c x bx r =>
    obtain ⟨hc, hr, hbx, hxlow, hxhigh⟩ := hother
    simp only [Tree.height] at hh
    by_cases hx : bx = -1
    · cases c with
      | nil =>
        simp only [Tree.height] at hbx
        omega
      | node c₀ w bw c₁ =>
        obtain ⟨hc₀, hc₁, hbw, hwlow, hwhigh⟩ := hc
        simp only [Tree.height] at hbx hh
        by_cases hwr : bw = 1
        · obtain ⟨hb, hheight⟩ := balanced_double (-1) 0 ht hc₀ hc₁ hr (by omega) (by omega) (by omega) (by omega)
            (by omega) y w x
          refine ⟨_, hb, by simp [lefts, rights, Tree.toList], Or.inl ⟨fun stack => by simp [unwind, hx, hwr], ?_⟩⟩
          simp only [Tree.height] at hheight ⊢
          omega
        · by_cases hwz : bw = 0
          · obtain ⟨hb, hheight⟩ := balanced_double 0 0 ht hc₀ hc₁ hr (by omega) (by omega) (by omega) (by omega)
              (by omega) y w x
            refine ⟨_, hb, by simp [lefts, rights, Tree.toList], Or.inl ⟨fun stack => by simp [unwind, hx, hwz], ?_⟩⟩
            simp only [Tree.height] at hheight ⊢
            omega
          · obtain ⟨hb, hheight⟩ := balanced_double 0 1 ht hc₀ hc₁ hr (by omega) (by omega) (by omega) (by omega)
              (by omega) y w x
            refine ⟨_, hb, by simp [lefts, rights, Tree.toList], Or.inl ⟨fun stack => by simp [unwind, hx, hwr, hwz], ?_⟩⟩
            simp only [Tree.height] at hheight ⊢
            omega
    · by_cases hxz : bx = 0
      · refine ⟨.node (.node t y 1 c) x (-1) r, ?_, by simp [lefts, rights, Tree.toList],
          Or.inr ⟨fun stack => by simp [unwind, hxz], ?_⟩⟩
        · exact balanced_single' ht hc hr (by omega) (by omega) (by decide) (by decide) x y
        · simp only [Tree.height]
          omega
      · refine ⟨.node (.node t y 0 c) x 0 r, ?_, by simp [lefts, rights, Tree.toList],
          Or.inl ⟨fun stack => by simp [unwind, hx, hxz], ?_⟩⟩
        · exact balanced_single' ht hc hr (by omega) (by omega) (by decide) (by decide) x y
        · simp only [Tree.height]
          omega

/-- The right subtree has become lower, and the left one was higher already. -/
theorem shrink_right_rotate {y : α} {other : Tree α} (ht : t.Balanced) (hother : other.Balanced)
    (hh : other.height = t.height + 2) : ∃ t₁, Shrinks ⟨y, -1, true, other⟩ t t₁ := by
  cases other with
  | nil => simp [Tree.height] at hh
  | node l x bx c =>
    obtain ⟨hl, hc, hbx, hxlow, hxhigh⟩ := hother
    simp only [Tree.height] at hh
    by_cases hx : bx = 1
    · cases c with
      | nil =>
        simp only [Tree.height] at hbx
        omega
      | node c₀ w bw c₁ =>
        obtain ⟨hc₀, hc₁, hbw, hwlow, hwhigh⟩ := hc
        simp only [Tree.height] at hbx hh
        by_cases hwl : bw = -1
        · obtain ⟨hb, hheight⟩ := balanced_double 0 1 hl hc₀ hc₁ ht (by omega) (by omega) (by omega) (by omega)
            (by omega) x w y
          refine ⟨_, hb, by simp [lefts, rights, Tree.toList], Or.inl ⟨fun stack => by simp [unwind, hx, hwl], ?_⟩⟩
          simp only [Tree.height] at hheight ⊢
          omega
        · by_cases hwz : bw = 0
          · obtain ⟨hb, hheight⟩ := balanced_double 0 0 hl hc₀ hc₁ ht (by omega) (by omega) (by omega) (by omega)
              (by omega) x w y
            refine ⟨_, hb, by simp [lefts, rights, Tree.toList], Or.inl ⟨fun stack => by simp [unwind, hx, hwz], ?_⟩⟩
            simp only [Tree.height] at hheight ⊢
            omega
          · obtain ⟨hb, hheight⟩ := balanced_double (-1) 0 hl hc₀ hc₁ ht (by omega) (by omega) (by omega) (by omega)
              (by omega) x w y
            refine ⟨_, hb, by simp [lefts, rights, Tree.toList], Or.inl ⟨fun stack => by simp [unwind, hx, hwl, hwz], ?_⟩⟩
            simp only [Tree.height] at hheight ⊢
            omega
    · by_cases hxz : bx = 0
      · refine ⟨.node l x 1 (.node c y (-1) t), ?_, by simp [lefts, rights, Tree.toList],
          Or.inr ⟨fun stack => by simp [unwind, hxz], ?_⟩⟩
        · exact balanced_single hl hc ht (by omega) (by omega) (by decide) (by decide) x y
        · simp only [Tree.height]
          omega
      · refine ⟨.node l x 0 (.node c y 0 t), ?_, by simp [lefts, rights, Tree.toList],
          Or.inl ⟨fun stack => by simp [unwind, hx, hxz], ?_⟩⟩
        · exact balanced_single hl hc ht (by omega) (by omega) (by decide) (by decide) x y
        · simp only [Tree.height]
          omega

theorem shrink (hf : f.Fits (t.height + 1)) (ht : t.Balanced) : ∃ t₁, Shrinks f t t₁ := by
  obtain ⟨hother, hbal, hlow, hhigh⟩ := hf
  obtain ⟨y, b, dir, other⟩ := f
  cases dir with
  | false =>
    simp only [Bool.false_eq_true, if_false] at hother hbal hlow hhigh
    obtain rfl | rfl | rfl : b = 0 ∨ b = 1 ∨ b = -1 := by omega
    · refine ⟨.node t y 1 other, ⟨ht, hother, by omega, by omega, by omega⟩, by simp [lefts, rights, Tree.toList],
        Or.inr ⟨fun stack => by simp [unwind], ?_⟩⟩
      simp only [Tree.height]
      omega
    · exact shrink_left_rotate ht hother (by omega)
    · refine ⟨.node t y 0 other, ⟨ht, hother, by omega, by omega, by omega⟩, by simp [lefts, rights, Tree.toList],
        Or.inl ⟨fun stack => by simp [unwind], ?_⟩⟩
      simp only [Tree.height]
      omega
  | true =>
    simp only [if_true] at hother hbal hlow hhigh
    obtain rfl | rfl | rfl : b = 0 ∨ b = -1 ∨ b = 1 := by omega
    · refine ⟨.node other y (-1) t, ⟨hother, ht, by omega, by omega, by omega⟩, by simp [lefts, rights, Tree.toList],
        Or.inr ⟨fun stack => by simp [unwind], ?_⟩⟩
      simp only [Tree.height]
      omega
    · exact shrink_right_rotate ht hother (by omega)
    · refine ⟨.node other y 0 t, ⟨hother, ht, by omega, by omega, by omega⟩, by simp [lefts, rights, Tree.toList],
        Or.inl ⟨fun stack => by simp [unwind], ?_⟩⟩
      simp only [Tree.height]
      omega

/-- A subtree that has become lower by one is handed up until the tree around it is balanced. -/
theorem unwind_spec (hfits : Fits stack (t.height + 1)) (ht : t.Balanced) :
    ∃ t', unwind stack t = some t' ∧ t'.Balanced ∧ t'.toList = lefts stack ++ t.toList ++ rights stack := by
  induction stack generalizing t with
  | nil => exact ⟨t, rfl, ht, by simp [lefts, rights]⟩
  | cons f stack ih =>
    obtain ⟨hf, hrest⟩ := hfits
    obtain ⟨t₁, hb, hl, ⟨hround, hh⟩ | ⟨hround, hh⟩⟩ := shrink hf ht
    · obtain ⟨t', hun, hb', hl'⟩ := ih (t := t₁) (by rw [hh]; exact hrest) hb
      refine ⟨t', by rw [hround, hun], hb', ?_⟩
      rw [hl', hl]
      simp [lefts, rights]
    · refine ⟨_, hround stack, balanced_plugAll.mpr ⟨hb, by rw [hh]; exact hrest⟩, ?_⟩
      rw [toList_plugAll, hl]
      simp [lefts, rights]

theorem push_eq {base : Nat} {stack' : List (Frame α)} (hp : push base f stack = some stack') : stack' = f :: stack := by
  rw [push] at hp
  split_ifs at hp
  exact (Option.some.inj hp).symm

theorem push_isSome {base : Nat} (hroom : base + stack.length < maxHeight) (f : Frame α) :
    push base f stack = some (f :: stack) := if_pos hroom

/-- The least node of a subtree, and the stack that fits around the child in its place. -/
theorem successor_spec {base : Nat} {path : List (Frame α)} {s : α} {c : Tree α} (ht : t.Balanced)
    (hs : successor base t stack = some (path, s, c)) :
    ∃ path', path = path' ++ stack ∧ c.Balanced ∧ Fits path' (c.height + 1) ∧ grow path' (c.height + 1) = t.height ∧
      lefts path' = [] ∧ t.toList = s :: (c.toList ++ rights path') := by
  induction t generalizing stack with
  | nil => simp [successor] at hs
  | node left s' bs c' ih _ =>
    cases left with
    | nil =>
      obtain ⟨rfl, hsc⟩ := Prod.mk.inj (Option.some.inj hs)
      obtain ⟨rfl, rfl⟩ := Prod.mk.inj hsc
      exact ⟨[], rfl, ht.2.1, trivial, by simp [grow, Tree.height], rfl, by simp [Tree.toList, rights]⟩
    | node l v b r =>
      rw [successor, Option.bind_eq_some_iff] at hs
      obtain ⟨stack', hp, hs⟩ := hs
      obtain rfl := push_eq hp
      obtain ⟨hl, hc', hbal⟩ := ht
      obtain ⟨path', rfl, hcb, hfits, hgrow, hlefts, hlist⟩ := ih hl hs
      refine ⟨path' ++ [⟨s', bs, false, c'⟩], by simp, hcb, ?_, ?_, ?_, ?_⟩
      · rw [fits_append, hgrow]
        exact ⟨hfits, ⟨hc', by simpa using hbal⟩, trivial⟩
      · rw [grow_append, hgrow]
        rfl
      · rw [lefts_append, hlefts]
        rfl
      · rw [Tree.toList, hlist, rights_append]
        simp [rights]

theorem successor_isSome {base : Nat} (hne : t ≠ .nil) (hroom : base + stack.length + t.height ≤ maxHeight + 1) :
    (successor base t stack).isSome := by
  induction t generalizing stack with
  | nil => exact absurd rfl hne
  | node left s' bs c' ih _ =>
    cases left with
    | nil => rfl
    | node l v b r =>
      simp only [Tree.height] at hroom
      rw [successor, push_isSome (by omega), Option.bind_some]
      apply ih (by simp)
      rw [List.length_cons]
      simp only [Tree.height]
      omega

/-- The successor in the place of a node that is removed. -/
theorem fits_successor {p : α} {b : Int} {path : List (Frame α)} {c : Tree α} (hb : (Tree.node l p b r).Balanced)
    (hfits : Fits stack (Tree.node l p b r).height) (hpath : Fits path (c.height + 1))
    (hgrow : grow path (c.height + 1) = r.height) (s : α) : Fits (path ++ ⟨s, b, true, l⟩ :: stack) (c.height + 1) := by
  rw [fits_append, hgrow]
  refine ⟨hpath, ⟨hb.1, by simpa using hb.2.2⟩, ?_⟩
  rw [Tree.height, Nat.max_comm] at hfits
  exact hfits

theorem doRemove_spec {p : α} {b : Int} {t' : Tree α} (hb : (Tree.node l p b r).Balanced)
    (hfits : Fits stack (Tree.node l p b r).height) (hs : doRemove stack l b r = some t') :
    t'.Balanced ∧ t'.toList = lefts stack ++ (l.toList ++ r.toList) ++ rights stack := by
  have hplace (path : List (Frame α)) {s : α} {c : Tree α} (hc : c.Balanced) (hpath : Fits path (c.height + 1))
      (hgrow : grow path (c.height + 1) = r.height) (hlefts : lefts path = [])
      (hlist : r.toList = s :: (c.toList ++ rights path))
      (hun : unwind (path ++ ⟨s, b, true, l⟩ :: stack) c = some t') :
      t'.Balanced ∧ t'.toList = lefts stack ++ (l.toList ++ r.toList) ++ rights stack := by
    obtain ⟨t'', hun', hb', hl'⟩ := unwind_spec (fits_successor hb hfits hpath hgrow s) hc
    rw [hun] at hun'
    obtain rfl := Option.some.inj hun'
    refine ⟨hb', ?_⟩
    rw [hl', lefts_append, rights_append, hlefts, hlist]
    simp [lefts, rights]
  cases r with
  | nil =>
    rw [show (Tree.node l p b .nil).height = l.height + 1 by simp [Tree.height]] at hfits
    obtain ⟨t'', hun, hb', hl'⟩ := unwind_spec hfits hb.1
    rw [doRemove, hun] at hs
    obtain rfl := Option.some.inj hs
    exact ⟨hb', by simp [hl', Tree.toList]⟩
  | node r₀ s br c =>
    have hr := hb.2.1
    cases r₀ with
    | nil =>
      rw [doRemove, Option.bind_eq_some_iff] at hs
      obtain ⟨stack', hp, hun⟩ := hs
      obtain rfl := push_eq hp
      exact hplace [] hr.2.1 trivial (by simp [grow, Tree.height]) rfl (by simp [Tree.toList, rights]) hun
    | node l' v' b' c' =>
      rw [doRemove, Option.bind_eq_some_iff] at hs
      obtain ⟨⟨path, s', c''⟩, hsucc, hun⟩ := hs
      obtain ⟨path', hpath, hc, hfits', hgrow, hlefts, hlist⟩ := successor_spec hr hsucc
      rw [List.append_nil] at hpath
      subst hpath
      exact hplace path hc hfits' hgrow hlefts hlist hun

theorem doRemove_isSome {p : α} {b : Int} (hb : (Tree.node l p b r).Balanced)
    (hfits : Fits stack (Tree.node l p b r).height) (hroom : stack.length + (Tree.node l p b r).height < maxHeight) :
    (doRemove stack l b r).isSome := by
  have hplace (path : List (Frame α)) {s : α} {c : Tree α} (hc : c.Balanced) (hpath : Fits path (c.height + 1))
      (hgrow : grow path (c.height + 1) = r.height) : (unwind (path ++ ⟨s, b, true, l⟩ :: stack) c).isSome := by
    obtain ⟨t', hun, -, -⟩ := unwind_spec (fits_successor hb hfits hpath hgrow s) hc
    rw [hun]
    rfl
  cases r with
  | nil =>
    rw [show (Tree.node l p b .nil).height = l.height + 1 by simp [Tree.height]] at hfits
    obtain ⟨t', hun, -, -⟩ := unwind_spec hfits hb.1
    rw [doRemove, hun]
    rfl
  | node r₀ s br c =>
    have hr := hb.2.1
    simp only [Tree.height] at hroom
    cases r₀ with
    | nil =>
      rw [doRemove, push_isSome (by omega), Option.bind_some]
      exact hplace [] hr.2.1 trivial (by simp [grow, Tree.height])
    | node l' v' b' c' =>
      have hsome : (successor (stack.length + 2) (.node (.node l' v' b' c') s br c) []).isSome := by
        apply successor_isSome (by simp)
        simp only [Tree.height, List.length_nil] at hroom ⊢
        omega
      obtain ⟨⟨path, s', c''⟩, hsucc⟩ := Option.isSome_iff_exists.mp hsome
      obtain ⟨path', hpath, hc, hfits', hgrow, -, -⟩ := successor_spec hr hsucc
      rw [List.append_nil] at hpath
      subst hpath
      rw [doRemove, hsucc, Option.bind_some]
      exact hplace path hc hfits' hgrow

/-! ### How high a tree is -/

/-- The number of nodes of the smallest balanced tree of a height. -/
def minSize : Nat → Nat
  | 0 => 0
  | 1 => 1
  | h + 2 => minSize h + minSize (h + 1) + 1

theorem minSize_lt_succ (h : Nat) : minSize h < minSize (h + 1) := by
  cases h with
  | zero => decide
  | succ h =>
    rw [minSize]
    omega

theorem minSize_mono {h h' : Nat} (hle : h ≤ h') : minSize h ≤ minSize h' :=
  monotone_nat_of_le_succ (fun h => (minSize_lt_succ h).le) hle

theorem minSize_height_le (ht : t.Balanced) : minSize t.height ≤ t.toList.length := by
  induction t with
  | nil => simp [Tree.height, minSize]
  | node l v b r ihl ihr =>
    obtain ⟨hl, hr, hbal, hlow, hhigh⟩ := ht
    have hleft := ihl hl
    have hright := ihr hr
    have hstep (low high : Nat) (hle : high ≤ low + 1) : minSize (high + 1) ≤ minSize low + minSize high + 1 := by
      cases high with
      | zero => simp [minSize]
      | succ high =>
        have hmono : minSize high ≤ minSize low := minSize_mono (by omega)
        rw [minSize]
        omega
    rw [Tree.height, Tree.toList, List.length_append, List.length_cons]
    rcases Nat.le_total l.height r.height with hle | hle
    · rw [Nat.max_eq_right hle]
      have hmin := hstep l.height r.height (by omega)
      omega
    · rw [Nat.max_eq_left hle]
      have hmin := hstep r.height l.height (by omega)
      omega

def minTree : Nat → Tree Unit
  | 0 => .nil
  | 1 => .node .nil () 0 .nil
  | h + 2 => .node (minTree h) () 1 (minTree (h + 1))

/-- The bound is the number of nodes of a tree. -/
theorem minTree_spec (h : Nat) :
    (minTree h).Balanced ∧ (minTree h).height = h ∧ (minTree h).toList.length = minSize h := by
  induction h using minTree.induct with
  | case1 => exact ⟨trivial, rfl, rfl⟩
  | case2 => exact ⟨by simp [minTree, Tree.Balanced, Tree.height], rfl, rfl⟩
  | case3 h ihl ihr =>
    obtain ⟨hbl, hhl, hsl⟩ := ihl
    obtain ⟨hbr, hhr, hsr⟩ := ihr
    simp only [minTree, Tree.Balanced, Tree.height, Tree.toList, hhl, hhr, List.length_append, List.length_cons, hsl, hsr,
      minSize]
    exact ⟨⟨hbl, hbr, by omega, by decide, by decide⟩, by omega, by omega⟩

end RaleighSL.Zcl.Avl
