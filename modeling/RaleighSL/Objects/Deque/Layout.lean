import RaleighSL.Objects.Deque.Model

/-!
# The committed list cut at the two removal cursors

Seen from either end the data list is the entries already taken there, the
entries still available, and the entries taken at the other end. A `Layout`
names the three parts; `Rep` says that a deque is laid out that way. Each
operation moves entries between the parts of a layout.
-/
namespace RaleighSL.Objects.Deque
open RaleighSL.Core

variable {α : Type*}

def stock (d : State α) : List (Entry α) := d.data ++ (d.pending .front ++ d.pending .back)

/-- Entries have distinct addresses, all handed out before the next one. -/
structure Distinct (d : State α) : Prop where
  nodup : ((stock d).map Entry.addr).Nodup
  fresh : ∀ x ∈ stock d, x.addr < d.nextAddr

theorem create_distinct : Distinct (create : State α) :=
  ⟨by simp [stock, create], by simp [stock, create]⟩

theorem stock_perm (d : State α) (e : End) :
    (stock d).Perm (d.data ++ (d.pending e ++ d.pending e.other)) := by
  cases e with
  | front => exact List.Perm.refl _
  | back => exact List.Perm.append_left _ List.perm_append_comm

theorem Distinct.nodup_view {d : State α} (h : Distinct d) (e : End) :
    ((view e d.data).map Entry.addr).Nodup := by
  rw [← view_map, Deque.nodup_view]
  have hs := h.nodup
  rw [stock, List.map_append, List.nodup_append] at hs
  exact hs.1

theorem Distinct.of_subperm {d d' : State α} (h : Distinct d) (hs : (stock d').Subperm (stock d))
    (hn : d.nextAddr ≤ d'.nextAddr) : Distinct d' where
  nodup := by
    obtain ⟨l, hp, hl⟩ := hs
    exact (hp.map Entry.addr).nodup_iff.mp ((hl.map Entry.addr).nodup h.nodup)
  fresh x hx := (h.fresh x (hs.subset hx)).trans_le hn

theorem Distinct.addPending {d : State α} (h : Distinct d) (t : TxnId) (e : End) (x : α) :
    Distinct (addPending d t e x) := by
  have hp : (stock (Deque.addPending d t e x)).Perm (⟨d.nextAddr, x⟩ :: stock d) := by
    refine (stock_perm _ e).trans ?_
    simp only [Deque.addPending, Function.update_self, Function.update_of_ne (other_ne e),
      List.cons_append]
    exact List.perm_middle.trans ((stock_perm d e).symm.cons _)
  constructor
  · rw [(hp.map Entry.addr).nodup_iff, List.map_cons, List.nodup_cons]
    refine ⟨?_, h.nodup⟩
    intro hm
    obtain ⟨y, hy, he⟩ := List.mem_map.mp hm
    exact absurd he (h.fresh y hy).ne
  · intro y hy
    rcases List.mem_cons.mp (hp.subset hy) with rfl | hy
    · exact Nat.lt_succ_self _
    · exact (h.fresh y hy).trans (Nat.lt_succ_self _)

theorem removeTo_suffix {c : Cursor} {l l' : List (Entry α)} (h : removeTo c l = some l') :
    l' <:+ l := by
  induction l with
  | nil =>
    simp only [removeTo, Option.ite_none_right_eq_some, Option.some.injEq] at h
    exact h.2 ▸ List.suffix_refl _
  | cons x l ih =>
    rw [removeTo] at h
    split_ifs at h
    · exact Option.some.inj h ▸ List.suffix_refl _
    · exact (ih h).trans (List.suffix_cons x l)

theorem Distinct.shrink {d : State α} (h : Distinct d) (e : End) {p : List (Entry α)}
    (hp : p.Sublist (d.pending e)) {r : End → Option Cursor} {t : End → TxnId} :
    Distinct { d with pending := Function.update d.pending e p, removed := r, txnId := t } := by
  refine h.of_subperm ?_ le_rfl
  refine (stock_perm _ e).subperm.trans (List.Subperm.trans ?_ (stock_perm d e).symm.subperm)
  simp only [Function.update_self, Function.update_of_ne (other_ne e)]
  exact ((List.Sublist.refl _).append (hp.append (List.Sublist.refl _))).subperm

theorem Distinct.pop {d d' : State α} (h : Distinct d) {t : TxnId} {e : End} {r : Errno}
    {x : Option (Entry α)} (hp : pop d t e = some (d', r, x)) : Distinct d' := by
  unfold Deque.pop at hp
  split_ifs at hp with hl hd
  · cases hp
    exact h
  · split at hp
    · rename_i y l hpend
      cases hp
      exact h.shrink e (hpend ▸ List.sublist_cons_self y l)
    · simp only [popData, Option.map_map, Option.map_eq_some_iff] at hp
      obtain ⟨q, -, hq⟩ := hp
      cases hq
      exact ⟨h.nodup, h.fresh⟩
  · split at hp
    · rename_i y l hpend
      cases hp
      exact h.shrink e (hpend ▸ List.sublist_cons_self y l)
    · split at hp
      · cases hp
        exact h.shrink e.other (List.dropLast_sublist _)
      · cases hp
        exact h

theorem Distinct.commitEnd {d d' : State α} (h : Distinct d) {e : End}
    (hc : commitEnd d e = some d') : Distinct d' := by
  simp only [Deque.commitEnd, Option.map_eq_some_iff] at hc
  obtain ⟨l, hl, rfl⟩ := hc
  have hsub : (view e l).Sublist (view e d.data) := by
    cases hr : d.removed e with
    | none => simp_all [kept]
    | some c =>
      simp only [kept, hr, Option.map_eq_some_iff] at hl
      obtain ⟨k, hk, rfl⟩ := hl
      simpa using (removeTo_suffix hk).sublist
  refine h.of_subperm ?_ le_rfl
  refine (stock_perm _ e).subperm.trans (List.Subperm.trans ?_ (stock_perm d e).symm.subperm)
  simp only [Function.update_self, Function.update_of_ne (other_ne e), List.nil_append, foldl_addAt]
  have hv : (view e (d.pending e ++ view e l)).Perm (view e l ++ d.pending e) :=
    (view_perm e _).trans List.perm_append_comm
  refine (hv.append_right _).subperm.trans ?_
  rw [List.append_assoc]
  exact (List.subperm_append_right _).mpr (hsub.subperm.trans (view_perm e _).subperm)

theorem Distinct.objectCommit {d d' : State α} (h : Distinct d)
    (hc : objectCommit d = some d') : Distinct d' := by
  rw [Deque.objectCommit, Option.bind_eq_some_iff] at hc
  obtain ⟨d₁, h₁, h₂⟩ := hc
  have hd₁ : Distinct d₁ := by
    split_ifs at h₁
    · exact h.commitEnd h₁
    · exact Option.some.inj h₁ ▸ h
  split_ifs at h₂
  · exact hd₁.commitEnd h₂
  · exact Option.some.inj h₂ ▸ hd₁

theorem Distinct.objectRevert {d : State α} (h : Distinct d) (e : End) :
    Distinct (objectRevert d e) :=
  h.shrink (revertEnd d e) (List.nil_sublist _)

/-- Entries taken at each end, in the order they were taken, and those between them. -/
structure Layout (α : Type*) where
  taken : End → List (Entry α)
  mid : List (Entry α)

namespace Layout

def walk (L : Layout α) (e : End) : List (Entry α) :=
  L.taken e ++ (view e L.mid ++ (L.taken e.other).reverse)

/-- The cursor an end must have: none before its first pop, else on the first entry not taken. -/
def cursor (L : Layout α) (e : End) : Option Cursor :=
  if L.taken e = [] then none else some (cursorOf (view e L.mid ++ (L.taken e.other).reverse))

def take (L : Layout α) (e : End) (x : Entry α) (m : List (Entry α)) : Layout α :=
  { taken := Function.update L.taken e (L.taken e ++ [x]), mid := view e m }

/-- An end settled: what it took is gone and what it pushed is available. -/
def settle (L : Layout α) (e : End) (pushed : List (Entry α)) : Layout α :=
  { taken := Function.update L.taken e [], mid := view e (pushed ++ view e L.mid) }

@[simp] theorem settle_taken_self (L : Layout α) (e : End) (p : List (Entry α)) :
    (L.settle e p).taken e = [] := by
  simp [settle]

@[simp] theorem settle_taken_other (L : Layout α) (e : End) (p : List (Entry α)) :
    (L.settle e p).taken e.other = L.taken e.other := by
  simp [settle, Function.update_of_ne (other_ne e)]

theorem walk_other (L : Layout α) (e : End) : L.walk e.other = (L.walk e).reverse := by
  simp [walk, view_other]

/-- A walk from one end is known once the walk from the other is. -/
theorem walk_congr {L L' : Layout α} {e : End} (h : L.walk e = L'.walk e) (e' : End) :
    L.walk e' = L'.walk e' := by
  by_cases he : e' = e
  · rw [he, h]
  · rw [eq_other_of_ne he, walk_other, walk_other, h]

theorem take_walk (L : Layout α) {e : End} {x : Entry α} {m : List (Entry α)}
    (hm : view e L.mid = x :: m) (e' : End) :
    (L.take e x m).walk e' = L.walk e' := by
  refine walk_congr (e := e) ?_ e'
  simp [walk, take, hm, Function.update_of_ne (other_ne e)]

theorem take_cursor_self (L : Layout α) (e : End) (x : Entry α) (m : List (Entry α)) :
    (L.take e x m).cursor e = some (cursorOf (m ++ (L.taken e.other).reverse)) := by
  simp [cursor, take, Function.update_of_ne (other_ne e)]

theorem take_cursor_other (L : Layout α) {e : End} {x : Entry α} {m : List (Entry α)}
    (hm : view e L.mid = x :: m) : (L.take e x m).cursor e.other = L.cursor e.other := by
  simp [cursor, take, Function.update_of_ne (other_ne e), view_other, hm]

/-- The other end's cursor survives the settling of an end unless it stood on an entry that is
removed now, or on the list head while entries are added in front of it. -/
theorem settle_cursor_other (L : Layout α) (e : End) (p : List (Entry α))
    (h : L.taken e.other ≠ [] → L.mid ≠ [] ∨ L.taken e = [] ∧ p = []) :
    (L.settle e p).cursor e.other = L.cursor e.other := by
  by_cases ht : L.taken e.other = []
  · simp [cursor, ht]
  · simp only [cursor, settle_taken_other, ht, if_false, other_other, settle_taken_self, List.reverse_nil,
      List.append_nil, Option.some.injEq]
    have hm : view e.other (L.settle e p).mid = view e.other L.mid ++ p.reverse := by
      simp [settle, view_other]
    rw [hm]
    rcases h ht with hmid | ⟨he, rfl⟩
    · obtain ⟨y, m, hy⟩ := List.exists_cons_of_ne_nil (mt view_eq_nil.mp hmid : view e.other L.mid ≠ [])
      simp [hy, cursorOf]
    · simp [he]

end Layout

structure Rep (d : State α) (L : Layout α) : Prop where
  data : d.data = L.walk .front
  removed : ∀ e, d.removed e = L.cursor e

variable {d : State α} {L : Layout α}

theorem Rep.view_data (h : Rep d L) (e : End) : view e d.data = L.walk e := by
  cases e with
  | front => exact h.data
  | back =>
    rw [h.data, show (End.back : End) = End.front.other from rfl, L.walk_other]
    rfl

theorem Rep.mem_mid (h : Rep d L) {x : Entry α} (hx : x ∈ L.mid) : x ∈ d.data := by
  rw [h.data]
  simp [Layout.walk, view, hx]

theorem stepCursor_append {a : Addr} {p l : List (Entry α)} {x : Entry α} (hx : x.addr = a)
    (hp : a ∉ p.map Entry.addr) : stepCursor a (p ++ x :: l) = some (x, cursorOf l) := by
  induction p with
  | nil => simp [stepCursor, hx]
  | cons y p ih =>
    simp only [List.map_cons, List.mem_cons, not_or] at hp
    rw [List.cons_append, stepCursor, if_neg (Ne.symm hp.1), ih hp.2]

theorem Rep.popData (h : Rep d L) (hd : Distinct d) (t : TxnId) {e : End} {x : Entry α}
    {m : List (Entry α)} (hm : view e L.mid = x :: m) :
    ∃ d', popData d t e = some (d', x) ∧ Rep d' (L.take e x m) ∧ d'.data = d.data ∧
      d'.pending = d.pending ∧ d'.txnId = Function.update d.txnId e t := by
  have hw : view e d.data = L.taken e ++ x :: (m ++ (L.taken e.other).reverse) := by
    rw [h.view_data, Layout.walk, hm, List.cons_append]
  have hx : x.addr ∉ (L.taken e).map Entry.addr := by
    have hnd := hd.nodup_view e
    rw [hw, List.map_append, List.nodup_append] at hnd
    intro hc
    exact hnd.2.2 _ hc x.addr (by simp) rfl
  have ha : cursorStart d e = some x.addr := by
    rw [cursorStart, h.removed, Layout.cursor]
    by_cases ht : L.taken e = []
    · simp [ht, hw]
    · simp [ht, hm, cursorOf]
  refine ⟨{ d with
      removed := Function.update d.removed e (some (cursorOf (m ++ (L.taken e.other).reverse)))
      txnId := Function.update d.txnId e t }, ?_, ?_, rfl, rfl, rfl⟩
  · simp only [Deque.popData, ha, Option.bind_some, hw, stepCursor_append rfl hx]
    rfl
  constructor
  · exact h.data.trans (L.take_walk hm _).symm
  · intro e'
    by_cases he : e' = e
    · subst he
      simp [L.take_cursor_self]
    · obtain rfl := eq_other_of_ne he
      simp only [Function.update_of_ne (other_ne e), L.take_cursor_other hm, h.removed]

theorem removeTo_append {p l : List (Entry α)} (h : ((p ++ l).map Entry.addr).Nodup) :
    removeTo (cursorOf l) (p ++ l) = some l := by
  induction p with
  | nil => cases l <;> simp [removeTo, cursorOf]
  | cons x p ih =>
    rw [List.cons_append, List.map_cons, List.nodup_cons] at h
    have hne : cursorOf l ≠ .node x.addr := by
      cases l with
      | nil => simp [cursorOf]
      | cons y l =>
        intro hc
        simp only [cursorOf, Cursor.node.injEq] at hc
        exact h.1 (by simp [hc])
    rw [List.cons_append, removeTo, if_neg hne, ih h.2]

/-- Settling an end under a cursor of the other end that stays valid. -/
theorem Rep.commitEnd (h : Rep d L) (hd : Distinct d) {e : End}
    (hk : L.taken e.other ≠ [] → L.mid ≠ [] ∨ L.taken e = [] ∧ d.pending e = []) :
    ∃ d', commitEnd d e = some d' ∧ Rep d' (L.settle e (d.pending e)) ∧
      d'.pending = Function.update d.pending e [] ∧ d'.txnId = d.txnId ∧ d'.nextAddr = d.nextAddr := by
  have hkept : kept d e = some (view e (view e L.mid ++ (L.taken e.other).reverse)) := by
    rw [kept, h.removed, Layout.cursor]
    by_cases ht : L.taken e = []
    · have hw := h.view_data e
      rw [Layout.walk, ht, List.nil_append] at hw
      simp [ht, ← hw]
    · have hnd := hd.nodup_view e
      rw [h.view_data, Layout.walk] at hnd
      simp [ht, h.view_data, Layout.walk, removeTo_append hnd]
  refine ⟨{ d with
      data := (d.pending e).reverse.foldl (fun l x => addAt e x l)
        (view e (view e L.mid ++ (L.taken e.other).reverse))
      pending := Function.update d.pending e []
      removed := Function.update d.removed e none }, ?_, ?_, rfl, rfl, rfl⟩
  · rw [Deque.commitEnd, hkept]
    rfl
  constructor
  · have hw : (L.settle e (d.pending e)).walk e =
        d.pending e ++ (view e L.mid ++ (L.taken e.other).reverse) := by
      simp [Layout.walk, Layout.settle, Function.update_of_ne (other_ne e)]
    simp only [foldl_addAt, view_view]
    rw [← hw]
    cases e with
    | front => rfl
    | back =>
      rw [show (End.back : End) = End.front.other from rfl, Layout.walk_other]
      simp [view, End.other]
  · intro e'
    by_cases he : e' = e
    · subst he
      simp [Layout.cursor]
    · obtain rfl := eq_other_of_ne he
      simp only [Function.update_of_ne (other_ne e), h.removed, L.settle_cursor_other e _ hk]

/-- Settling an end does not strand the cursor of the other end. -/
def KeepsCursor (d : State α) (L : Layout α) (e : End) : Prop :=
  L.taken e.other ≠ [] → L.mid ≠ [] ∨ L.taken e = [] ∧ d.pending e = []

/-- The layout with every unlocked end settled. -/
def Layout.settled (L : Layout α) (d : State α) : Layout α :=
  { taken := fun e => if d.txnId e = 0 then [] else L.taken e
    mid := (if d.txnId .front = 0 then d.pending .front else []) ++
      (L.mid ++ (if d.txnId .back = 0 then d.pending .back else []).reverse) }

/-- The commit settles the unlocked ends, the front before the back. -/
theorem Rep.objectCommit (h : Rep d L) (hd : Distinct d)
    (hf : d.txnId .front = 0 → KeepsCursor d L .front)
    (hb : d.txnId .back = 0 → d.txnId .front ≠ 0 → KeepsCursor d L .back) :
    ∃ d', objectCommit d = some d' ∧ Rep d' (L.settled d) ∧
      d'.pending = (fun e => if d.txnId e = 0 then [] else d.pending e) ∧ d'.txnId = d.txnId ∧
      d'.nextAddr = d.nextAddr := by
  by_cases h0 : d.txnId .front = 0
  · obtain ⟨d₁, hc₁, hr₁, hp₁, ht₁, hn₁⟩ := h.commitEnd hd (hf h0)
    by_cases h1 : d.txnId .back = 0
    · obtain ⟨d₂, hc₂, hr₂, hp₂, ht₂, hn₂⟩ := hr₁.commitEnd (hd.commitEnd hc₁) (e := .back)
        (fun hne => absurd ((L.settle_taken_self .front _)) hne)
      refine ⟨d₂, by simp [Deque.objectCommit, h0, h1, hc₁, ht₁, hc₂], ?_, ?_, ht₂.trans ht₁, hn₂.trans hn₁⟩
      · convert hr₂ using 1
        simp only [Layout.settled, Layout.settle, h0, h1, hp₁, if_true, view, Layout.mk.injEq]
        refine ⟨funext fun e => by cases e <;> simp [h0, h1], by simp⟩
      · funext e
        cases e <;> simp [hp₂, hp₁, h0, h1]
    · refine ⟨d₁, by simp [Deque.objectCommit, h0, h1, hc₁, ht₁], ?_, ?_, ht₁, hn₁⟩
      · convert hr₁ using 1
        simp only [Layout.settled, Layout.settle, h0, h1, if_true, if_false, view, Layout.mk.injEq]
        refine ⟨funext fun e => by cases e <;> simp [h0, h1], by simp⟩
      · funext e
        cases e <;> simp [hp₁, h0, h1]
  · by_cases h1 : d.txnId .back = 0
    · obtain ⟨d₂, hc₂, hr₂, hp₂, ht₂, hn₂⟩ := h.commitEnd hd (hb h1 h0)
      refine ⟨d₂, by simp [Deque.objectCommit, h0, h1, hc₂], ?_, ?_, ht₂, hn₂⟩
      · convert hr₂ using 1
        simp only [Layout.settled, Layout.settle, h0, h1, if_true, if_false, view, Layout.mk.injEq]
        refine ⟨funext fun e => by cases e <;> simp [h0, h1], by simp⟩
      · funext e
        cases e <;> simp [hp₂, h0, h1]
    · refine ⟨d, by simp [Deque.objectCommit, h0, h1], ?_, ?_, rfl, rfl⟩
      · convert h using 1
        simp only [Layout.settled, h0, h1, if_false]
        cases L
        simp only [Layout.mk.injEq]
        refine ⟨funext fun e => by cases e <;> simp [h0, h1], by simp⟩
      · funext e
        cases e <;> simp [h0, h1]

def Layout.whole (l : List (Entry α)) : Layout α := { taken := fun _ => [], mid := l }

theorem rep_whole_iff {l : List (Entry α)} :
    Rep d (Layout.whole l) ↔ d.data = l ∧ ∀ e, d.removed e = none := by
  constructor
  · intro h
    exact ⟨by simpa [Layout.walk, Layout.whole, view] using h.data,
      fun e => by simpa [Layout.cursor, Layout.whole] using h.removed e⟩
  · rintro ⟨hd, hr⟩
    exact ⟨by simpa [Layout.walk, Layout.whole, view] using hd,
      fun e => by simpa [Layout.cursor, Layout.whole] using hr e⟩

theorem Layout.eq_whole (h : ∀ e, L.taken e = []) : L = Layout.whole L.mid := by
  have ht : L.taken = fun _ => [] := funext h
  cases L
  simp_all [Layout.whole]

end RaleighSL.Objects.Deque
