import RaleighSL.Objects.Deque.Rollback

/-!
# The removal loops of the commit

Each loop of `__object_commit` frees entries from its end until it meets the cursor that the pops at
that end have left. In a run whose pops do not meet the entries popped at the other end, and whose
commits keep the other cursor, the loop at an end frees exactly the entries popped there since
that end was settled or given up.
-/
namespace RaleighSL.Objects.Deque
open RaleighSL.Core RaleighSL.Library

variable {α : Type*}

/-- The entries freed by the removal loop, none when it deletes the list head. -/
def freedTo (c : Cursor) : List (Entry α) → Option (List (Entry α))
  | [] => if c = .head then some [] else none
  | x :: l => if c = .node x.addr then some [] else (freedTo c l).map (x :: ·)

def freed (d : State α) (e : End) : Option (List (Entry α)) :=
  match d.removed e with
  | none => some []
  | some c => freedTo c (view e d.data)

/-- The half of `__object_commit` for an end: nothing while a transaction holds it. -/
def commitHalf (d : State α) (e : End) : Option (State α) := if d.txnId e = 0 then commitEnd d e else some d

/-- The loop at an end ends, and frees the first entries of the data, which are these. -/
def Frees (d : State α) (e : End) (popped : List (Entry α)) : Prop :=
  freed d e = some popped ∧ ∃ rest, view e d.data = popped ++ rest ∧ kept d e = some (view e rest)

/-- The commit has a result, and the loop at each end that it settles frees the entries `popped` there. -/
def CommitExact (d : State α) (popped : End → List (Entry α)) : Prop :=
  ∃ d₁ d₂, commitHalf d .front = some d₁ ∧ commitHalf d₁ .back = some d₂ ∧ objectCommit d = some d₂ ∧
    (d.txnId .front = 0 → Frees d .front (popped .front)) ∧ (d.txnId .back = 0 → Frees d₁ .back (popped .back))

/-- The object with the entries popped from the data at each end and not settled. -/
structure Watched (α : Type*) where
  sys : System α
  popped : End → List (Entry α)

def Watched.init (d : State α) : Watched α := { sys := System.init d, popped := fun _ => [] }

/-- One more entry popped at an end, if it is one of the data. -/
def notePop (w : Watched α) (e : End) : Option (Entry α) → End → List (Entry α)
  | some x =>
    if x.addr ∈ w.sys.deque.data.map Entry.addr then Function.update w.popped e (w.popped e ++ [x]) else w.popped
  | none => w.popped

/-- What a request leaves for the commit that follows it. A transaction that is reverted gives back what
was popped at its ends. -/
def performed (w : Watched α) : Request α → Option (State α × (End → List (Entry α)))
  | .push t e x =>
    some (if t ∈ w.sys.ended then w.sys.deque else (push w.sys.deque t e x).1, w.popped)
  | .pop t e =>
    if t ∈ w.sys.ended then some (w.sys.deque, w.popped)
    else (pop w.sys.deque t e).map (fun r => (r.1, notePop w e r.2.2))
  | .apply t =>
    some (if t = 0 ∨ t ∈ w.sys.ended then w.sys.deque else (w.sys.atoms t).foldl objectApply w.sys.deque, w.popped)
  | .revert t =>
    some (if t = 0 ∨ t ∈ w.sys.ended then (w.sys.deque, w.popped)
      else ((w.sys.atoms t).foldl objectRevert w.sys.deque, fun e => if e ∈ w.sys.atoms t then [] else w.popped e))

/-- A request with its commit. The event is the state the commit meets and what was popped. -/
def watch (w : Watched α) (req : Request α) : Option (Watched α × (State α × (End → List (Entry α)))) :=
  (performed w req).bind (fun c => (serve w.sys req).map (fun r =>
    ({ sys := r.1, popped := fun e => if c.1.txnId e = 0 then [] else c.2 e }, c)))

/-- The condition on a request. A push that is committed at once does not meet a cursor of the other
end on the list head; a pop from the data does not meet an entry popped at the other end, nor, when
it is committed at once, its cursor; the commit of a transaction keeps the other cursor; and its
rollback gives up the cursors of its own ends. -/
def CommitOk (w : Watched α) : Request α → Prop
  | .push t e _ => t = 0 → w.sys.deque.txnId e = 0 → w.sys.deque.removed e.other ≠ some .head
  | .pop t e => t ∉ w.sys.ended → w.sys.deque.txnId e = 0 ∨ w.sys.deque.txnId e = t → w.sys.deque.pending e = [] →
    w.sys.deque.removed e ≠ some .head → ∀ a ∈ cursorStart w.sys.deque e,
      a ∉ removedAt w.sys.deque e.other ∧ (t = 0 → w.sys.deque.removed e.other ≠ some (.node a))
  | .apply t => (.front ∈ w.sys.atoms t → CursorKept w.sys.deque .front) ∧
    (.back ∈ w.sys.atoms t → .front ∉ w.sys.atoms t → CursorKept w.sys.deque .back)
  | .revert t => ∀ e, ((w.sys.atoms t).foldl objectRevert w.sys.deque).removed e =
    if e ∈ w.sys.atoms t then none else w.sys.deque.removed e

instance (w : Watched α) : (req : Request α) → Decidable (CommitOk w req)
  | .push t _ _ => inferInstanceAs (Decidable (t = 0 → _))
  | .pop t _ => inferInstanceAs (Decidable (t ∉ _ → _ → _ → _ → ∀ a ∈ cursorStart _ _, _))
  | .apply _ => inferInstanceAs (Decidable (_ ∧ _))
  | .revert t => decidable_of_iff
    ((((w.sys.atoms t).foldl objectRevert w.sys.deque).removed .front =
        if End.front ∈ w.sys.atoms t then none else w.sys.deque.removed .front) ∧
      ((w.sys.atoms t).foldl objectRevert w.sys.deque).removed .back =
        if End.back ∈ w.sys.atoms t then none else w.sys.deque.removed .back)
    ⟨fun h e => by cases e; exacts [h.1, h.2], fun h => ⟨h .front, h .back⟩⟩

variable {d d' : State α} {L : Layout α} {w : Watched α}

/-! ### One commit -/

theorem freedTo_append {p l : List (Entry α)} (h : ((p ++ l).map Entry.addr).Nodup) :
    freedTo (cursorOf l) (p ++ l) = some p := by
  induction p with
  | nil => cases l <;> simp [freedTo, cursorOf]
  | cons x p ih =>
    rw [List.cons_append, List.map_cons, List.nodup_cons] at h
    have hne : cursorOf l ≠ .node x.addr := by
      cases l with
      | nil => simp [cursorOf]
      | cons y l =>
        intro hc
        simp only [cursorOf, Cursor.node.injEq] at hc
        exact h.1 (by simp [hc])
    rw [List.cons_append, freedTo, if_neg hne, ih h.2]
    rfl

theorem removeTo_of_freedTo {c : Cursor} {l f : List (Entry α)} (h : freedTo c l = some f) :
    ∃ r, removeTo c l = some r ∧ l = f ++ r := by
  induction l generalizing f with
  | nil =>
    simp only [freedTo, Option.ite_none_right_eq_some, Option.some.injEq] at h
    exact ⟨[], by rw [removeTo, if_pos h.1], by rw [← h.2]; rfl⟩
  | cons x l ih =>
    rw [freedTo] at h
    split_ifs at h with hc
    · exact ⟨x :: l, by rw [removeTo, if_pos hc], by rw [← Option.some.inj h]; rfl⟩
    · obtain ⟨f', hf, rfl⟩ := Option.map_eq_some_iff.mp h
      obtain ⟨r, hr, rfl⟩ := ih hf
      exact ⟨r, by rw [removeTo, if_neg hc, hr], rfl⟩

theorem Rep.freed (h : Rep d L) (hd : Distinct d) (e : End) : freed d e = some (L.taken e) := by
  rw [Deque.freed, h.removed, Layout.cursor]
  by_cases ht : L.taken e = []
  · simp [ht]
  · have hnd := hd.nodup_view e
    rw [h.view_data, Layout.walk] at hnd
    simp [ht, h.view_data, Layout.walk, freedTo_append hnd]

theorem Rep.frees (h : Rep d L) (hd : Distinct d) (e : End) : Frees d e (L.taken e) := by
  have hfreed := h.freed hd e
  refine ⟨hfreed, ?_⟩
  cases hr : d.removed e with
  | none =>
    simp only [Deque.freed, hr, Option.some.injEq] at hfreed
    exact ⟨view e d.data, by rw [← hfreed, List.nil_append], by simp [kept, hr]⟩
  | some c =>
    simp only [Deque.freed, hr] at hfreed
    obtain ⟨rest, hrest, heq⟩ := removeTo_of_freedTo hfreed
    exact ⟨rest, heq, by simp [kept, hr, hrest]⟩

theorem Rep.commitExact (h : Rep d L) (hd : Distinct d) (hf : d.txnId .front = 0 → KeepsCursor d L .front)
    (hb : d.txnId .back = 0 → d.txnId .front ≠ 0 → KeepsCursor d L .back) : CommitExact d L.taken := by
  obtain ⟨d₂, hcommit, -⟩ := h.objectCommit hd hf hb
  have hcommit' : (commitHalf d .front).bind (fun d => commitHalf d .back) = some d₂ := hcommit
  obtain ⟨d₁, hd₁, hd₂⟩ := Option.bind_eq_some_iff.mp hcommit'
  refine ⟨d₁, d₂, hd₁, hd₂, hcommit, fun _ => h.frees hd .front, fun _ => ?_⟩
  rw [commitHalf] at hd₁
  split_ifs at hd₁ with h0
  · obtain ⟨d₁', hc, hr, -⟩ := h.commitEnd hd (hf h0)
    obtain rfl : d₁' = d₁ := Option.some.inj (hc.symm.trans hd₁)
    have hfrees := hr.frees (hd.commitEnd hc) .back
    rwa [show (L.settle .front (d.pending .front)).taken .back = L.taken .back from L.settle_taken_other .front _] at hfrees
  · obtain rfl := Option.some.inj hd₁
    exact h.frees hd .back

/-! ### Requests -/

/-- Between two requests the data is laid out with the popped entries at its ends. -/
structure Kept (w : Watched α) : Prop where
  distinct : Distinct w.sys.deque
  settled : Settled w.sys.deque
  layout : ∃ mid, Rep w.sys.deque { taken := w.popped, mid := mid }

/-- What a request must leave for an exact commit. -/
def Ready (c : State α × (End → List (Entry α))) : Prop :=
  Distinct c.1 ∧ ∃ mid, Rep c.1 { taken := c.2, mid := mid } ∧
    (c.1.txnId .front = 0 → KeepsCursor c.1 { taken := c.2, mid := mid } .front) ∧
    (c.1.txnId .back = 0 → c.1.txnId .front ≠ 0 → KeepsCursor c.1 { taken := c.2, mid := mid } .back)

theorem Rep.taken_of_removed (h : Rep d L) {e : End} (hr : d.removed e = none) : L.taken e = [] := by
  by_contra ht
  rw [h.removed, Layout.cursor, if_neg ht] at hr
  cases hr

theorem Rep.congr (h : Rep d L) (hdata : d'.data = d.data) (hremoved : d'.removed = d.removed) : Rep d' L :=
  ⟨hdata.trans h.data, fun e => (congrFun hremoved e).trans (h.removed e)⟩

/-- An end that nobody holds has nothing to settle. -/
theorem Settled.keepsCursor (hs : Settled d) (h : Rep d L) {e : End} (h0 : d.txnId e = 0)
    (hpend : d'.pending e = []) : KeepsCursor d' L e :=
  fun _ => Or.inr ⟨h.taken_of_removed (hs e h0).2, hpend⟩

theorem Kept.ready (h : Kept w) : Ready (w.sys.deque, w.popped) := by
  obtain ⟨mid, hrep⟩ := h.layout
  exact ⟨h.distinct, mid, hrep, fun h0 => h.settled.keepsCursor hrep h0 (h.settled _ h0).1,
    fun h0 _ => h.settled.keepsCursor hrep h0 (h.settled _ h0).1⟩

theorem Kept.push (h : Kept w) {t : TxnId} {e : End} (x : α) (hok : CommitOk w (.push t e x)) :
    Ready ((push w.sys.deque t e x).1, w.popped) := by
  rw [Deque.push]
  split_ifs with hlock
  · exact h.ready
  · obtain ⟨mid, hrep⟩ := h.layout
    have hfree : t = 0 → w.sys.deque.txnId e = 0 := by
      rintro rfl
      by_contra h0
      exact hlock ⟨Nat.pos_of_ne_zero h0, h0⟩
    have hrep' : Rep (addPending w.sys.deque t e x) { taken := w.popped, mid := mid } := hrep.congr rfl rfl
    have hkeeps (e' : End) (h0 : (addPending w.sys.deque t e x).txnId e' = 0) :
        KeepsCursor (addPending w.sys.deque t e x) { taken := w.popped, mid := mid } e' := by
      by_cases he : e' = e
      · subst he
        have ht : t = 0 := by simpa [addPending] using h0
        have htaken : w.popped e' = [] := hrep.taken_of_removed (h.settled e' (hfree ht)).2
        intro hother
        left
        rintro rfl
        refine hok ht (hfree ht) ?_
        rw [hrep.removed, Layout.cursor, if_neg hother, other_other]
        simp [htaken, cursorOf]
      · have hfree' : w.sys.deque.txnId e' = 0 := by simpa [addPending, Function.update_of_ne he] using h0
        exact h.settled.keepsCursor hrep hfree' (by simp [addPending, Function.update_of_ne he, (h.settled e' hfree').1])
    exact ⟨h.distinct.addPending t e x, mid, hrep', hkeeps .front, fun h0 _ => hkeeps .back h0⟩

theorem Distinct.pending_not_data (h : Distinct d) {e : End} {x : Entry α} (hx : x ∈ d.pending e) :
    x.addr ∉ d.data.map Entry.addr := by
  intro hmem
  have hnd := h.nodup
  rw [stock, List.map_append, List.nodup_append] at hnd
  refine hnd.2.2 _ hmem _ (List.mem_map_of_mem ?_) rfl
  cases e
  · exact List.mem_append_left _ hx
  · exact List.mem_append_right _ hx

theorem Kept.pop_pending (h : Kept w) {e : End} {l : List (Entry α)} (hne : w.sys.deque.pending e ≠ [])
    (hl : l.Sublist (w.sys.deque.pending e)) :
    Ready ({ w.sys.deque with pending := Function.update w.sys.deque.pending e l }, w.popped) := by
  obtain ⟨mid, hrep⟩ := h.layout
  have hkeeps (e' : End) (h0 : w.sys.deque.txnId e' = 0) :
      KeepsCursor { w.sys.deque with pending := Function.update w.sys.deque.pending e l }
        { taken := w.popped, mid := mid } e' := by
    have he : e' ≠ e := by
      rintro rfl
      exact hne (h.settled e' h0).1
    exact h.settled.keepsCursor hrep h0 (by simp [Function.update_of_ne he, (h.settled e' h0).1])
  exact ⟨h.distinct.shrink e hl, mid, hrep.congr rfl rfl, hkeeps .front, fun h0 _ => hkeeps .back h0⟩

theorem Kept.pop_data (h : Kept w) {t : TxnId} {e : End} (hok : CommitOk w (.pop t e)) (hopen : t ∉ w.sys.ended)
    (hown : w.sys.deque.txnId e = 0 ∨ w.sys.deque.txnId e = t) (hpend : w.sys.deque.pending e = [])
    (hr : w.sys.deque.removed e ≠ some .head) (hdata : w.sys.deque.data ≠ []) :
    ∃ d x, popData w.sys.deque t e = some (d, x) ∧ Ready (d, notePop w e (some x)) := by
  obtain ⟨mid, hrep⟩ := h.layout
  have hcond := hok hopen hown hpend hr
  obtain ⟨x, m, hm, hstart⟩ := hrep.available h.distinct hr hdata (fun a ha => (hcond a ha).1)
  obtain ⟨d, hpop, hrep', hd, hpend', htxn⟩ := hrep.popData h.distinct t hm
  have hnote : notePop w e (some x) = Function.update w.popped e (w.popped e ++ [x]) := by
    refine if_pos (List.mem_map_of_mem (hrep.mem_mid ?_))
    rw [← mem_view (e := e), hm]
    exact List.mem_cons_self
  have hkeeps (e' : End) (h0 : d.txnId e' = 0) :
      KeepsCursor d { taken := Function.update w.popped e (w.popped e ++ [x]), mid := view e m } e' := by
    rw [htxn] at h0
    by_cases he : e' = e
    · subst he
      have ht : t = 0 := by simpa using h0
      have hfree : w.sys.deque.txnId e' = 0 := by simpa [ht] using hown
      have htaken : w.popped e' = [] := hrep.taken_of_removed (h.settled e' hfree).2
      intro hother
      left
      intro hnil
      obtain rfl : m = [] := view_eq_nil.mp hnil
      have hmid : view e'.other mid = [x] := by rw [view_other, hm, List.reverse_singleton]
      refine (hcond x.addr hstart).2 ht ?_
      have hother' : w.popped e'.other ≠ [] := by simpa [Function.update_of_ne (other_ne e')] using hother
      rw [hrep.removed, Layout.cursor, if_neg hother', hmid]
      rfl
    · have hfree : w.sys.deque.txnId e' = 0 := by simpa [Function.update_of_ne he] using h0
      refine fun _ => Or.inr ⟨?_, by rw [hpend', (h.settled e' hfree).1]⟩
      simpa [Function.update_of_ne he] using hrep.taken_of_removed (h.settled e' hfree).2
  refine ⟨d, x, hpop, ?_, view e m, hnote ▸ hrep', ?_, ?_⟩
  · obtain ⟨q, -, hq⟩ := Option.map_eq_some_iff.mp hpop
    obtain ⟨rfl, -⟩ := Prod.mk.inj hq
    exact ⟨h.distinct.nodup, h.distinct.fresh⟩
  · exact hnote ▸ hkeeps .front
  · exact fun h0 _ => hnote ▸ hkeeps .back h0

theorem Kept.pop (h : Kept w) {t : TxnId} {e : End} (hok : CommitOk w (.pop t e)) (hopen : t ∉ w.sys.ended) :
    ∃ r, Deque.pop w.sys.deque t e = some r ∧ Ready (r.1, notePop w e r.2.2) := by
  rw [Deque.pop]
  split_ifs with hlock hdata
  · exact ⟨_, rfl, h.ready⟩
  · have hown : w.sys.deque.txnId e = 0 ∨ w.sys.deque.txnId e = t := by
      by_contra hc
      rw [not_or] at hc
      exact hlock ⟨Nat.pos_of_ne_zero hc.1, hc.2⟩
    cases hpend : w.sys.deque.pending e with
    | cons x l =>
      have hx : x ∈ w.sys.deque.pending e := hpend ▸ List.mem_cons_self
      refine ⟨_, rfl, ?_⟩
      have hnote : notePop w e (some x) = w.popped := if_neg (h.distinct.pending_not_data hx)
      simpa only [hnote] using h.pop_pending (hpend ▸ List.cons_ne_nil x l) (hpend ▸ List.sublist_cons_self x l)
    | nil =>
      obtain ⟨d, x, hpop, hready⟩ := h.pop_data hok hopen hown hpend hdata.1 hdata.2
      exact ⟨(d, .none, some x), by simp only [hpop, Option.map_some], hready⟩
  · cases hpend : w.sys.deque.pending e with
    | cons x l =>
      have hx : x ∈ w.sys.deque.pending e := hpend ▸ List.mem_cons_self
      refine ⟨_, rfl, ?_⟩
      have hnote : notePop w e (some x) = w.popped := if_neg (h.distinct.pending_not_data hx)
      simpa only [hnote] using h.pop_pending (hpend ▸ List.cons_ne_nil x l) (hpend ▸ List.sublist_cons_self x l)
    | nil =>
      cases hlast : (w.sys.deque.pending e.other).getLast? with
      | none => exact ⟨_, rfl, h.ready⟩
      | some x =>
        have hx : x ∈ w.sys.deque.pending e.other := List.mem_of_getLast? hlast
        refine ⟨_, rfl, ?_⟩
        have hnote : notePop w e (some x) = w.popped := if_neg (h.distinct.pending_not_data hx)
        simpa only [hnote] using h.pop_pending (List.ne_nil_of_mem hx) (List.dropLast_sublist _)

theorem Kept.apply (h : Kept w) {t : TxnId} (hok : CommitOk w (.apply t)) :
    Ready ((w.sys.atoms t).foldl objectApply w.sys.deque, w.popped) := by
  obtain ⟨mid, hrep⟩ := h.layout
  rw [foldl_objectApply]
  refine ⟨⟨h.distinct.nodup, h.distinct.fresh⟩, mid, hrep.congr rfl rfl, fun h0 => ?_, fun h0 h1 => ?_⟩
  · by_cases hm : End.front ∈ w.sys.atoms t
    · exact hrep.keepsCursor h.distinct (hok.1 hm)
    · have hfree : w.sys.deque.txnId .front = 0 := by simpa [hm] using h0
      exact h.settled.keepsCursor hrep hfree (h.settled _ hfree).1
  · by_cases hm : End.back ∈ w.sys.atoms t
    · have hfront : End.front ∉ w.sys.atoms t := fun hc => h1 (if_pos hc)
      exact hrep.keepsCursor h.distinct (hok.2 hm hfront)
    · have hfree : w.sys.deque.txnId .back = 0 := by simpa [hm] using h0
      exact h.settled.keepsCursor hrep hfree (h.settled _ hfree).1

theorem objectRevert_clears (d : State α) (e : End) :
    (objectRevert d e).pending e = [] ∨ (objectRevert d e).removed e.other = none := by
  by_cases he : revertEnd d e = e
  · left
    simp [objectRevert, he]
  · right
    simp [objectRevert, eq_other_of_ne he]

theorem foldl_objectRevert_data (d : State α) (es : List End) : (es.foldl objectRevert d).data = d.data := by
  induction es generalizing d with
  | nil => rfl
  | cons e es ih => rw [List.foldl_cons, ih, objectRevert]

theorem foldl_objectRevert_removed {e : End} (hr : d.removed e = none) (es : List End) :
    (es.foldl objectRevert d).removed e = none := by
  induction es generalizing d with
  | nil => exact hr
  | cons e' es ih =>
    rw [List.foldl_cons]
    refine ih ?_
    by_cases he : e = revertEnd d e'
    · simp [objectRevert, he]
    · simp [objectRevert, Function.update_of_ne he, hr]

theorem foldl_objectRevert_clears (d : State α) {es : List End} {e : End} (he : e ∈ es) :
    (es.foldl objectRevert d).pending e = [] ∨ (es.foldl objectRevert d).removed e.other = none := by
  induction es generalizing d with
  | nil => cases he
  | cons e' es ih =>
    rw [List.foldl_cons]
    obtain rfl | he := List.mem_cons.mp he
    · refine (objectRevert_clears d e).imp (fun hpend => ?_) (fun hr => foldl_objectRevert_removed hr es)
      refine List.eq_nil_iff_forall_not_mem.mpr (fun y hy => ?_)
      have hmem := (releases_revert (objectRevert d e) es).pending e y hy
      rw [hpend] at hmem
      cases hmem
    · exact ih (objectRevert d e') he

theorem Rep.givenUp (h : Rep d L) (es : List End) (hdata : d'.data = d.data)
    (hremoved : ∀ e, d'.removed e = if e ∈ es then none else d.removed e) :
    ∃ mid, Rep d' { taken := fun e => if e ∈ es then [] else L.taken e, mid := mid } := by
  have hmark : Rep { d with txnId := fun e => if e ∈ es then 1 else 0 } L := h.congr rfl rfl
  have hrep : Rep d' _ := (hmark.abandon 1).congr hdata (funext fun e => by rw [hremoved]; simp [Deque.abandon])
  have htaken : (fun e => if (if e ∈ es then 1 else 0) = 1 then [] else L.taken e) =
      fun e => if e ∈ es then [] else L.taken e := funext fun e => by simp
  refine ⟨(L.abandoned { d with txnId := fun e => if e ∈ es then 1 else 0 } 1).mid, ?_⟩
  rw [← htaken]
  exact hrep

theorem Kept.revert (h : Kept w) {t : TxnId} (hok : CommitOk w (.revert t)) :
    Ready ((w.sys.atoms t).foldl objectRevert w.sys.deque, fun e => if e ∈ w.sys.atoms t then [] else w.popped e) := by
  obtain ⟨mid, hrep⟩ := h.layout
  obtain ⟨mid', hrep'⟩ := hrep.givenUp (w.sys.atoms t) (foldl_objectRevert_data _ _) hok
  have hreleases := releases_revert w.sys.deque (w.sys.atoms t)
  have hkeeps (e : End) (h0 : ((w.sys.atoms t).foldl objectRevert w.sys.deque).txnId e = 0) :
      KeepsCursor ((w.sys.atoms t).foldl objectRevert w.sys.deque)
        { taken := fun e => if e ∈ w.sys.atoms t then [] else w.popped e, mid := mid' } e := by
    intro hother
    right
    by_cases hm : e ∈ w.sys.atoms t
    · refine ⟨if_pos hm, ?_⟩
      obtain hpend | hr := foldl_objectRevert_clears w.sys.deque hm
      · exact hpend
      · exact absurd (hrep'.taken_of_removed hr) hother
    · rw [hreleases.txnId, if_neg hm] at h0
      refine ⟨(if_neg hm).trans (hrep.taken_of_removed (h.settled e h0).2), ?_⟩
      refine List.eq_nil_iff_forall_not_mem.mpr (fun y hy => ?_)
      have hmem := hreleases.pending e y hy
      rw [(h.settled e h0).1] at hmem
      cases hmem
  exact ⟨hreleases.distinct h.distinct, mid', hrep', hkeeps .front, fun h0 _ => hkeeps .back h0⟩

/-- Every request leaves what an exact commit needs. -/
theorem Kept.performed (h : Kept w) (req : Request α) (hok : CommitOk w req) :
    ∃ c, Deque.performed w req = some c ∧ Ready c := by
  cases req with
  | push t e x =>
    refine ⟨_, rfl, ?_⟩
    split_ifs
    · exact h.ready
    · exact h.push x hok
  | pop t e =>
    rw [Deque.performed]
    split_ifs with hopen
    · exact ⟨_, rfl, h.ready⟩
    · obtain ⟨r, hpop, hready⟩ := h.pop hok hopen
      exact ⟨_, by rw [hpop]; rfl, hready⟩
  | apply t =>
    refine ⟨_, rfl, ?_⟩
    split_ifs
    · exact h.ready
    · exact h.apply hok
  | revert t =>
    refine ⟨_, rfl, ?_⟩
    split_ifs
    · exact h.ready
    · exact h.revert hok

/-- A served request ends in the commit of what it left. -/
theorem serve_of_performed (hs : Settled w.sys.deque) {req : Request α} {c : State α × (End → List (Entry α))}
    (hc : Deque.performed w req = some c) (hcommit : objectCommit c.1 = some d) :
    ∃ r, serve w.sys req = some r ∧ r.1.deque = d := by
  have hidle (heq : c.1 = w.sys.deque) : w.sys.deque = d := by
    rw [heq, hs.commit] at hcommit
    exact Option.some.inj hcommit
  cases req with
  | push t e x =>
    obtain rfl := Option.some.inj hc
    rw [serve]
    by_cases hended : t ∈ w.sys.ended
    · exact ⟨_, if_pos hended, hidle (if_pos hended)⟩
    · simp only [if_neg hended] at hcommit
      exact ⟨_, by rw [if_neg hended, hcommit]; rfl, rfl⟩
  | pop t e =>
    rw [Deque.performed] at hc
    rw [serve]
    split_ifs at hc ⊢
    · exact ⟨_, rfl, hidle (by rw [← Option.some.inj hc])⟩
    · obtain ⟨r, hr, rfl⟩ := Option.map_eq_some_iff.mp hc
      exact ⟨_, by rw [hr, Option.bind_some, hcommit]; rfl, rfl⟩
  | apply t =>
    obtain rfl := Option.some.inj hc
    rw [serve]
    split_ifs with hended
    · exact ⟨_, rfl, hidle (if_pos hended)⟩
    · simp only [if_neg hended] at hcommit
      exact ⟨_, by rw [finish_eq hs, hcommit]; rfl, rfl⟩
  | revert t =>
    obtain rfl := Option.some.inj hc
    rw [serve]
    split_ifs with hended
    · exact ⟨_, rfl, hidle (by rw [if_pos hended])⟩
    · simp only [if_neg hended] at hcommit
      exact ⟨_, by rw [finish_eq hs, hcommit]; rfl, rfl⟩

/-! ### Runs -/

theorem Kept.watch (h : Kept w) (req : Request α) (hok : CommitOk w req) :
    ∃ w' c, Deque.watch w req = some (w', c) ∧ Kept w' ∧ CommitExact c.1 c.2 := by
  obtain ⟨c, hc, hd, mid, hrep, hf, hb⟩ := h.performed req hok
  obtain ⟨d, hcommit, hrep', -⟩ := hrep.objectCommit hd hf hb
  obtain ⟨r, hserve, rfl⟩ := serve_of_performed h.settled hc hcommit
  refine ⟨_, c, by rw [Deque.watch, hc, Option.bind_some, hserve]; rfl, ⟨hd.objectCommit hcommit, ?_, _, hrep'⟩,
    hrep.commitExact hd hf hb⟩
  exact (objectCommit_settled hcommit).2.2.2

theorem kept_init (hq : Quiet d) : Kept (Watched.init d) where
  distinct := hq.distinct
  settled := fun e _ => ⟨hq.pending e, hq.removed e⟩
  layout := ⟨d.data, rep_whole_iff.mpr ⟨rfl, hq.removed⟩⟩

/-- In every run of requests that keep the cursors, each removal loop ends and frees exactly the entries
popped at its end. -/
theorem commits_exact (hq : Quiet d) {reqs : List (Request α)} (hok : Meets Deque.watch CommitOk (Watched.init d) reqs) :
    ∃ w h, exec Deque.watch (Watched.init d) reqs = some (w, h) ∧ ∀ c ∈ h, CommitExact c.1 c.2 := by
  obtain ⟨w, h, hrun, -, hexact⟩ := exec_history (C := CommitOk) (I := fun w h => Kept w ∧ ∀ c ∈ h, CommitExact c.1 c.2)
    (fun w h req hI hok => by
      obtain ⟨w', c, hwatch, hkept, hexact⟩ := hI.1.watch req hok
      refine ⟨w', c, hwatch, hkept, fun c' hc' => ?_⟩
      obtain hc' | hc' := List.mem_append.mp hc'
      · exact hI.2 c' hc'
      · exact List.mem_singleton.mp hc' ▸ hexact)
    ⟨kept_init hq, fun _ hc => absurd hc List.not_mem_nil⟩ hok
  exact ⟨w, h, hrun, by simpa using hexact⟩

/-- Two entries are popped at the two ends, one of them by a transaction, and both are removed. -/
theorem commits_exact_both_ends : ∃ w h, exec Deque.watch (Watched.init (create : State Nat))
    [.push 0 .back 1, .push 0 .back 2, .push 0 .back 3, .push 1 .front 4, .pop 1 .front, .pop 1 .front, .pop 0 .back,
      .apply 1] = some (w, h) ∧ ∀ c ∈ h, CommitExact c.1 c.2 :=
  commits_exact create_quiet (by decide)

/-- The entry under the cursor of a transaction is popped at the other end: the loop frees the entry
before it and then the list head. -/
theorem removal_meets_list_head : ∃ w h c, exec Deque.watch (Watched.init (create : State Nat))
    [.push 0 .back 1, .push 0 .back 2, .push 1 .front 3, .pop 1 .front, .pop 1 .front, .pop 0 .back] = some (w, h) ∧
      performed w (.apply 1) = some c ∧ ¬ CommitExact c.1 c.2 := by
  refine ⟨_, _, _, rfl, rfl, ?_⟩
  rintro ⟨d₁, d₂, -, -, hcommit, -⟩
  cases hcommit

end RaleighSL.Objects.Deque
