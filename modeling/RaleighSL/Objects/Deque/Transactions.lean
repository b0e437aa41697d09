import RaleighSL.Objects.Deque.Agreement

/-!
# The deque under transactions

What every interleaving of requests keeps, as long as no request takes one of the
branches on which the code goes wrong (`RequestOk`): a transaction that pops
without having registered its atom, two ends that pop the same entry, an end
settled under a cursor that stands on an entry it removes or on the list head
it adds behind, a pop of another transaction's pending entries, and a rollback
that meets the back atom before the front one.
-/
namespace RaleighSL.Objects.Deque
open RaleighSL.Core RaleighSL.Library

variable {α : Type*}

/-- Addresses of the entries an end has popped from the data and not settled. -/
def removedAt (d : State α) (e : End) : List Addr :=
  match d.removed e with
  | none => []
  | some c => ((view e d.data).takeWhile (fun x => c ≠ .node x.addr)).map Entry.addr

/-- The commit of an end leaves the cursor of the other end on a live entry or on the true
end of the list. -/
def CursorKept (d : State α) (e : End) : Prop :=
  match d.removed e.other with
  | none => True
  | some .head => d.pending e = []
  | some (.node a) => a ∉ removedAt d e

/-- A pop from the data: the caller's atom is registered, the entry is not already popped at the
other end, and a pop that commits at once does not free the entry under the other cursor. -/
def PopDataOk (d : State α) (t : TxnId) (e : End) : Prop :=
  (t ≠ 0 → d.txnId e = t) ∧
    ∀ a ∈ cursorStart d e, a ∉ removedAt d e.other ∧ (t = 0 → d.removed e.other ≠ some (.node a))

/-- A pop that is not refused: from the data as above, and from the pending entries of the other
end only for their owner. -/
def PopOk (d : State α) (t : TxnId) (e : End) : Prop :=
  d.txnId e = 0 ∨ d.txnId e = t → d.pending e = [] →
    if d.removed e ≠ some .head ∧ d.data ≠ [] then PopDataOk d t e
    else d.pending e.other ≠ [] → d.txnId e.other = t

/-- The condition on a request and the state it meets. -/
def RequestOk (s : System α) : Request α → Prop
  | .push t e _ => t = 0 → s.deque.txnId e = 0 → s.deque.removed e.other ≠ some .head
  | .pop t e => PopOk s.deque t e
  | .apply t => (.front ∈ s.atoms t → CursorKept s.deque .front) ∧
      (.back ∈ s.atoms t → .front ∉ s.atoms t → CursorKept s.deque .back)
  | .revert t => s.atoms t = [.back, .front] →
      s.deque.pending .back = [] ∧ s.deque.removed .back = none

instance (d : State α) (e : End) : Decidable (CursorKept d e) :=
  match h : d.removed e.other with
  | none => .isTrue (by simp [CursorKept, h])
  | some .head => decidable_of_iff (d.pending e = []) (by simp [CursorKept, h])
  | some (.node a) => decidable_of_iff (a ∉ removedAt d e) (by simp [CursorKept, h])

instance (d : State α) (t : TxnId) (e : End) : Decidable (PopDataOk d t e) :=
  inferInstanceAs (Decidable (_ ∧ ∀ a ∈ cursorStart d e, _))

instance (d : State α) (t : TxnId) (e : End) : Decidable (PopOk d t e) :=
  inferInstanceAs (Decidable (d.txnId e = 0 ∨ d.txnId e = t → d.pending e = [] → ite _ _ _))

instance (s : System α) : (req : Request α) → Decidable (RequestOk s req)
  | .push t _ _ => inferInstanceAs (Decidable (t = 0 → _))
  | .pop t e => inferInstanceAs (Decidable (PopOk s.deque t e))
  | .apply _ => inferInstanceAs (Decidable (_ ∧ _))
  | .revert t => inferInstanceAs (Decidable (s.atoms t = _ → _))

variable {d : State α} {L : Layout α}

theorem objectCommit_idle (h : ∀ e, d.txnId e = 0 → d.pending e = [] ∧ d.removed e = none) :
    objectCommit d = some d := by
  have hf : (if d.txnId .front = 0 then commitEnd d .front else some d) = some d := by
    split_ifs with h0
    · exact commitEnd_idle (h _ h0).1 (h _ h0).2
    · rfl
  rw [objectCommit, hf, Option.bind_some]
  split_ifs with h0
  · exact commitEnd_idle (h _ h0).1 (h _ h0).2
  · rfl

theorem Rep.removed_of_idle (h : Rep d L) {e : End} (hi : Idle d L e) : d.removed e = none := by
  simp [h.removed, Layout.cursor, hi.2]

theorem takeWhile_cursorOf {p l : List (Entry α)} (h : ((p ++ l).map Entry.addr).Nodup) :
    (p ++ l).takeWhile (fun x => cursorOf l ≠ .node x.addr) = p := by
  induction p with
  | nil => cases l <;> simp [cursorOf]
  | cons x p ih =>
    rw [List.cons_append, List.map_cons, List.nodup_cons] at h
    have hne : cursorOf l ≠ .node x.addr := by
      cases l with
      | nil => simp [cursorOf]
      | cons y l =>
        intro hc
        simp only [cursorOf, Cursor.node.injEq] at hc
        exact h.1 (by simp [hc])
    rw [List.cons_append, List.takeWhile_cons, if_pos (by simpa using hne), ih h.2]

theorem Rep.removedAt_eq (h : Rep d L) (hd : Distinct d) (e : End) :
    removedAt d e = (L.taken e).map Entry.addr := by
  have hnd := hd.nodup_view e
  rw [h.view_data, Layout.walk] at hnd
  rw [removedAt, h.removed, Layout.cursor, h.view_data, Layout.walk]
  by_cases ht : L.taken e = []
  · simp [ht]
  · simp only [ht, if_false]
    rw [takeWhile_cursorOf hnd]

theorem Rep.keepsCursor (h : Rep d L) (hd : Distinct d) {e : End} (hc : CursorKept d e) :
    KeepsCursor d L e := by
  intro ht
  rw [CursorKept, h.removed, Layout.cursor, if_neg ht, h.removedAt_eq hd, other_other] at hc
  by_cases hm : L.mid = []
  · right
    rcases List.eq_nil_or_concat' (L.taken e) with htk | ⟨l, x, htk⟩
    · simpa [hm, htk, cursorOf] using hc
    · simp [hm, htk, cursorOf] at hc
  · exact Or.inl hm

theorem Rep.available (h : Rep d L) (hd : Distinct d) {e : End} (hr : d.removed e ≠ some .head) (hne : d.data ≠ [])
    (hp : ∀ a ∈ cursorStart d e, a ∉ removedAt d e.other) :
    ∃ x m, view e L.mid = x :: m ∧ cursorStart d e = some x.addr := by
  have hw := h.view_data e
  have hrem := h.removed e
  rw [Layout.cursor] at hrem
  rw [Layout.walk] at hw
  cases hv : view e L.mid with
  | cons x m =>
    refine ⟨x, m, rfl, ?_⟩
    rw [cursorStart, hrem, hw, hv]
    by_cases ht : L.taken e = [] <;> simp [ht, cursorOf]
  | nil =>
    exfalso
    rw [hv, List.nil_append] at hw hrem
    have hto : (L.taken e.other).reverse ≠ [] := by
      intro hc
      by_cases ht : L.taken e = []
      · exact hne (view_eq_nil.mp (by rw [hw, ht, hc, List.append_nil]))
      · rw [if_neg ht, hc] at hrem
        exact hr hrem
    obtain ⟨y, l, hy⟩ := List.exists_cons_of_ne_nil hto
    have hstart : cursorStart d e = some y.addr := by
      rw [cursorStart, hrem, hw, hy]
      by_cases ht : L.taken e = [] <;> simp [ht, cursorOf]
    refine hp y.addr hstart ?_
    rw [h.removedAt_eq hd]
    exact List.mem_map_of_mem (List.mem_reverse.mp (hy ▸ List.mem_cons_self))

/-- No pop delivers an entry pushed by another transaction that is still open. -/
def PopsClean (h : List (Event α)) : Prop :=
  ∀ pre post t e x, h = pre ++ .popped t e x :: post →
    ∀ t' e' x', .pushed t' e' x' ∈ pre → x'.addr = x.addr →
      t' = 0 ∨ t' = t ∨ .applied t' ∈ pre

theorem PopsClean.append {h : List (Event α)} {ev : Event α} (hh : PopsClean h)
    (hev : ∀ t e x, ev = .popped t e x → ∀ t' e' x', .pushed t' e' x' ∈ h → x'.addr = x.addr →
      t' = 0 ∨ t' = t ∨ .applied t' ∈ h) : PopsClean (h ++ [ev]) := by
  intro pre post t e x heq
  rcases List.eq_nil_or_concat' post with rfl | ⟨post, ev', rfl⟩
  · obtain ⟨rfl, hl⟩ := List.append_inj' heq rfl
    exact hev t e x (List.singleton_inj.mp hl)
  · rw [← List.cons_append, ← List.append_assoc] at heq
    obtain ⟨rfl, -⟩ := List.append_inj' heq rfl
    exact hh pre post t e x rfl

/-- Where the entries of the deque come from: the data holds settled pushes only, and what is
pending at an end was pushed by its owner. -/
structure Origin (h : List (Event α)) (d : State α) : Prop where
  fresh : ∀ t e x, .pushed t e x ∈ h → x.addr < d.nextAddr
  data : ∀ t e x, .pushed t e x ∈ h → ∀ y ∈ d.data, y.addr = x.addr → t = 0 ∨ .applied t ∈ h
  pending : ∀ t e x, .pushed t e x ∈ h → ∀ e', ∀ y ∈ d.pending e', y.addr = x.addr → t = d.txnId e'

variable {h : List (Event α)}

/-- Without new pushes, while pending entries stay, vanish or become data. -/
theorem Origin.settle {d' : State α} {h' : List (Event α)} (ho : Origin h d)
    (hpush : ∀ t e x, .pushed t e x ∈ h' → .pushed t e x ∈ h)
    (happ : ∀ t, .applied t ∈ h → .applied t ∈ h') (hnext : d'.nextAddr = d.nextAddr)
    (hdata : ∀ y ∈ d'.data, y ∈ d.data ∨
      ∃ e, y ∈ d.pending e ∧ (d.txnId e = 0 ∨ .applied (d.txnId e) ∈ h'))
    (hpend : ∀ e, ∀ y ∈ d'.pending e, y ∈ d.pending e ∧ d'.txnId e = d.txnId e) :
    Origin h' d' := by
  constructor
  · intro t e x hx
    exact hnext ▸ ho.fresh t e x (hpush t e x hx)
  · intro t e x hx y hy hxy
    rcases hdata y hy with hy | ⟨e', hy, hd⟩
    · exact (ho.data t e x (hpush t e x hx) y hy hxy).imp_right (happ t)
    · rwa [ho.pending t e x (hpush t e x hx) e' y hy hxy]
  · intro t e x hx e' y hy hxy
    obtain ⟨hy, ht⟩ := hpend e' y hy
    exact ht ▸ ho.pending t e x (hpush t e x hx) e' y hy hxy

theorem Origin.addPending (ho : Origin h d) (hd : Distinct d) {t : TxnId} {e : End} (x : α)
    (ht : d.txnId e = t ∨ d.pending e = []) :
    Origin (h ++ [.pushed t e ⟨d.nextAddr, x⟩]) (addPending d t e x) := by
  have hold {y : Entry α} (hy : y ∈ stock d) : y.addr ≠ d.nextAddr := (hd.fresh y hy).ne
  have hpend {e' : End} {y : Entry α} (hy : y ∈ d.pending e') : y ∈ stock d := by
    cases e' <;> simp [stock, hy]
  constructor
  · intro t' e' x' hx'
    simp only [List.mem_append, List.mem_singleton, Event.pushed.injEq] at hx'
    rcases hx' with hx' | ⟨-, -, rfl⟩
    · exact (ho.fresh t' e' x' hx').trans (Nat.lt_succ_self _)
    · exact Nat.lt_succ_self _
  · intro t' e' x' hx' y hy hxy
    simp only [List.mem_append, List.mem_singleton, Event.pushed.injEq] at hx'
    rcases hx' with hx' | ⟨-, -, rfl⟩
    · exact (ho.data t' e' x' hx' y hy hxy).imp_right (List.mem_append_left _)
    · exact absurd hxy (hold (by simp [stock, show y ∈ d.data from hy]))
  · intro t' e' x' hx' e'' y hy hxy
    simp only [List.mem_append, List.mem_singleton, Event.pushed.injEq] at hx'
    by_cases he : e'' = e
    · subst he
      simp only [Deque.addPending, Function.update_self, List.mem_cons] at hy ⊢
      rcases hx' with hx' | ⟨rfl, -, -⟩
      · rcases hy with rfl | hy
        · exact absurd hxy (ho.fresh t' e' x' hx').ne'
        · rcases ht with ht | ht
          · exact ht ▸ ho.pending t' e' x' hx' e'' y hy hxy
          · simp [ht] at hy
      · rfl
    · simp only [Deque.addPending, Function.update_of_ne he] at hy ⊢
      rcases hx' with hx' | ⟨-, -, rfl⟩
      · exact ho.pending t' e' x' hx' e'' y hy hxy
      · exact absurd hxy (hold (hpend hy))

/-- The registered atoms are the locks, and only transactions that pushed hold one. -/
structure Locks (txnId : End → TxnId) (atoms : TxnId → List End) (ended : List TxnId)
    (h : List (Event α)) : Prop where
  mem : ∀ t e, e ∈ atoms t ↔ t ≠ 0 ∧ txnId e = t
  nodup : ∀ t, (atoms t).Nodup
  free : ∀ t ∈ ended, atoms t = []
  closed : ∀ t, .applied t ∈ h ∨ .reverted t ∈ h → t ∈ ended
  active : ∀ e, txnId e ≠ 0 → ∃ e' x, .pushed (txnId e) e' x ∈ h

section Locks

variable {txnId : End → TxnId} {atoms : TxnId → List End} {ended : List TxnId} {t : TxnId}

theorem Locks.keep (hl : Locks txnId atoms ended h) {ev : Event α}
    (hev : ∀ t, ev ≠ .applied t ∧ ev ≠ .reverted t) : Locks txnId atoms ended (h ++ [ev]) where
  mem := hl.mem
  nodup := hl.nodup
  free := hl.free
  closed t ht := hl.closed t (by simpa [(hev t).1.symm, (hev t).2.symm] using ht)
  active e he := by
    obtain ⟨e', x, hx⟩ := hl.active e he
    exact ⟨e', x, List.mem_append_left _ hx⟩

theorem Locks.push (hl : Locks txnId atoms ended h) (ht : t ≠ 0) (hne : t ∉ ended) {e : End}
    (he : txnId e = 0 ∨ txnId e = t) (x : Entry α) :
    Locks (Function.update txnId e t)
      (if t ≠ txnId e then Function.update atoms t (atoms t ++ [e]) else atoms) ended
      (h ++ [.pushed t e x]) := by
  have hactive (e' : End) (h0 : Function.update txnId e t e' ≠ 0) :
      ∃ e'' x', .pushed (Function.update txnId e t e') e'' x' ∈ h ++ [.pushed t e x] := by
    by_cases hee : e' = e
    · subst hee
      exact ⟨e', x, by simp⟩
    · rw [Function.update_of_ne hee] at h0 ⊢
      obtain ⟨e'', x', hx'⟩ := hl.active e' h0
      exact ⟨e'', x', List.mem_append_left _ hx'⟩
  have hclosed (t' : TxnId) (h' : .applied t' ∈ h ++ [.pushed t e x] ∨
      .reverted t' ∈ h ++ [.pushed t e x]) : t' ∈ ended := hl.closed t' (by simpa using h')
  by_cases hown : t = txnId e
  · have hu : Function.update txnId e t = txnId := hown ▸ Function.update_eq_self e txnId
    rw [hu] at hactive ⊢
    rw [if_neg (by simpa using hown)]
    exact ⟨hl.mem, hl.nodup, hl.free, hclosed, hactive⟩
  · have h0 : txnId e = 0 := he.resolve_right (Ne.symm hown)
    rw [if_pos hown]
    refine ⟨?_, ?_, ?_, hclosed, hactive⟩
    · intro t' e'
      by_cases htt : t' = t
      · subst htt
        rw [Function.update_self, List.mem_append, hl.mem, List.mem_singleton]
        by_cases hee : e' = e
        · simp [hee, ht]
        · simp [hee, ht]
      · rw [Function.update_of_ne htt, hl.mem]
        by_cases hee : e' = e
        · subst hee
          simp only [Function.update_self, h0]
          exact ⟨fun hc => absurd hc.2.symm hc.1, fun hc => absurd hc.2.symm htt⟩
        · simp [hee]
    · intro t'
      by_cases htt : t' = t
      · subst htt
        rw [Function.update_self, List.nodup_append]
        refine ⟨hl.nodup t', by simp, ?_⟩
        intro a ha b hb hab
        rw [List.mem_singleton.mp hb] at hab
        exact hown ((hl.mem t' e).mp (hab ▸ ha)).2.symm
      · rw [Function.update_of_ne htt]
        exact hl.nodup t'
    · intro t' ht'
      have htt : t' ≠ t := fun hc => hne (hc ▸ ht')
      rw [Function.update_of_ne htt]
      exact hl.free t' ht'

theorem Locks.finish (hl : Locks txnId atoms ended h) (ht : t ≠ 0) {ev : Event α}
    (hev : ev = .applied t ∨ ev = .reverted t) :
    Locks (fun e => if txnId e = t then 0 else txnId e) (Function.update atoms t []) (t :: ended)
      (h ++ [ev]) where
  mem t' e := by
    by_cases htt : t' = t
    · subst htt
      by_cases he : txnId e = t' <;> simp [he, ht, Ne.symm ht]
    · rw [Function.update_of_ne htt, hl.mem]
      by_cases he : txnId e = t
      · simp only [he, if_true]
        exact ⟨fun hc => absurd hc.2.symm htt, fun hc => absurd hc.2.symm hc.1⟩
      · simp [he]
  nodup t' := by
    by_cases htt : t' = t
    · simp [htt]
    · rw [Function.update_of_ne htt]
      exact hl.nodup t'
  free t' ht' := by
    by_cases htt : t' = t
    · simp [htt]
    · rw [Function.update_of_ne htt]
      exact hl.free t' ((List.mem_cons.mp ht').resolve_left htt)
  closed t' ht' := by
    simp only [List.mem_append, List.mem_singleton] at ht'
    rw [List.mem_cons]
    by_cases htt : t' = t
    · exact Or.inl htt
    · refine Or.inr (hl.closed t' ?_)
      rcases hev with rfl | rfl
      · simpa [htt] using ht'
      · simpa [htt] using ht'
  active e he := by
    by_cases hee : txnId e = t
    · simp [hee] at he
    · simp only [hee, if_false] at he ⊢
      obtain ⟨e', x, hx⟩ := hl.active e he
      exact ⟨e', x, List.mem_append_left _ hx⟩

end Locks

/-- What holds between two requests: the deque agrees with the ledger of the history, unlocked
ends are idle, the registered atoms are the locks, and the entries come from where they should. -/
structure Agree (l₀ : List (Entry α)) (s : System α) (h : List (Event α)) (L : Layout α) : Prop where
  core : Core s.deque L (Ledger.ofHistory l₀ h)
  idle : ∀ e, s.deque.txnId e = 0 → Idle s.deque L e
  locks : Locks s.deque.txnId s.atoms s.ended h
  origin : Origin h s.deque
  clean : PopsClean h

variable {l₀ : List (Entry α)} {s : System α}

theorem Agree.commit_idle (ha : Agree l₀ s h L) : objectCommit s.deque = some s.deque :=
  objectCommit_idle (fun e h0 => ⟨(ha.idle e h0).1, ha.core.rep.removed_of_idle (ha.idle e h0)⟩)

theorem Agree.refused (ha : Agree l₀ s h L) (r : Errno) : Agree l₀ s (h ++ [.refused r]) L where
  core := by
    rw [Ledger.ofHistory_append]
    exact ha.core
  idle := ha.idle
  locks := ha.locks.keep (by simp)
  origin := ha.origin.settle (by simp) (by simp) rfl (fun y hy => Or.inl hy) (fun e y hy => ⟨hy, rfl⟩)
  clean := ha.clean.append (fun _ _ _ hc => by cases hc)

end RaleighSL.Objects.Deque
