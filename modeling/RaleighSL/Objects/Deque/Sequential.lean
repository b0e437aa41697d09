import RaleighSL.Library.Run
import RaleighSL.Objects.Deque.Layout

/-!
# The deque without transactions

Every call is followed by `__object_commit`, so between two calls nothing is
pending and no cursor is set. From such a state a push or a pop with its commit
is one operation of a double-ended sequence, and so is every run of them.
-/
namespace RaleighSL.Objects.Deque
open RaleighSL.Core RaleighSL.Library

variable {α : Type*}

inductive Op (α : Type*) where
  | push (e : End) (x : α)
  | pop (e : End)

/-- One call without a transaction and the commit that follows it. -/
def step (d : State α) : Op α → Option (State α × Errno × Option α)
  | .push e x => (objectCommit (push d 0 e x).1).map (fun d' => (d', (push d 0 e x).2.1, none))
  | .pop e => (pop d 0 e).bind (fun r =>
      (objectCommit r.1).map (fun d' => (d', r.2.1, r.2.2.map Entry.data)))

/-- The double-ended sequence that the deque stands for. -/
def seqStep (l : List α) : Op α → List α × Errno × Option α
  | .push e x => (addAt e x l, .none, none)
  | .pop e =>
    match view e l with
    | [] => (l, .dataNoItems, none)
    | x :: rest => (view e rest, .none, some x)

/-- Between calls the pending lists, the cursors and the locks are all clear. -/
structure Quiet (d : State α) : Prop where
  distinct : Distinct d
  pending : ∀ e, d.pending e = []
  removed : ∀ e, d.removed e = none
  txnId : ∀ e, d.txnId e = 0

theorem create_quiet : Quiet (create : State α) :=
  ⟨create_distinct, fun _ => rfl, fun _ => rfl, fun _ => rfl⟩

theorem commitEnd_idle {d : State α} {e : End} (hp : d.pending e = []) (hr : d.removed e = none) :
    commitEnd d e = some d := by
  have hp' : Function.update d.pending e [] = d.pending := hp ▸ Function.update_eq_self e d.pending
  have hr' : Function.update d.removed e none = d.removed := hr ▸ Function.update_eq_self e d.removed
  simp [commitEnd, kept, hp, hr, hp', hr']

theorem commitEnd_frame {d d' : State α} {e : End} (h : commitEnd d e = some d') :
    d'.txnId = d.txnId ∧ d'.pending e.other = d.pending e.other ∧
      d'.removed e.other = d.removed e.other := by
  simp only [commitEnd, Option.map_eq_some_iff] at h
  obtain ⟨l, -, rfl⟩ := h
  simp [Function.update_of_ne (other_ne e)]

/-- Committing a state in which only one end has something to settle. -/
theorem objectCommit_one {d : State α} (e : End) (hp : d.pending e.other = [])
    (hr : d.removed e.other = none) (ht : ∀ e, d.txnId e = 0) :
    objectCommit d = commitEnd d e := by
  cases e with
  | front =>
    simp only [objectCommit, ht, if_true]
    cases hc : commitEnd d .front with
    | none => rfl
    | some d' =>
      obtain ⟨ht', hp', hr'⟩ := commitEnd_frame hc
      rw [Option.bind_some, ht', if_pos (ht _)]
      exact commitEnd_idle (hp'.trans hp) (hr'.trans hr)
  | back =>
    have hid : commitEnd d .front = some d := commitEnd_idle hp hr
    simp only [objectCommit, ht, if_true]
    rw [hid, Option.bind_some, if_pos (ht _)]

/-- A commit after a call at one end leaves a quiet deque with that end settled. -/
theorem settle_one {d : State α} {L : Layout α} (hd : Distinct d) (h : Rep d L) (e : End)
    (hp : d.pending e.other = []) (hL : L.taken e.other = []) (ht : ∀ e, d.txnId e = 0) :
    ∃ d', objectCommit d = some d' ∧ Quiet d' ∧ d'.data = view e (d.pending e ++ view e L.mid) := by
  have hr : d.removed e.other = none := by simp [h.removed, Layout.cursor, hL]
  obtain ⟨d', hc, hrep, hp', ht', -⟩ := h.commitEnd hd (e := e) (fun hne => absurd hL hne)
  have hw : L.settle e (d.pending e) = Layout.whole (view e (d.pending e ++ view e L.mid)) := by
    rw [Layout.eq_whole (L := L.settle e (d.pending e))]
    · rfl
    · intro e'
      by_cases he : e' = e
      · simp [he]
      · simp [eq_other_of_ne he, hL]
  rw [hw, rep_whole_iff] at hrep
  refine ⟨d', (objectCommit_one e hp hr ht).trans hc, ⟨hd.commitEnd hc, ?_, hrep.2, ?_⟩, hrep.1⟩
  · intro e'
    by_cases he : e' = e
    · simp [he, hp']
    · rw [eq_other_of_ne he, hp', Function.update_of_ne (other_ne e), hp]
  · intro e'
    rw [ht', ht]

theorem push_step {d : State α} (h : Quiet d) (e : End) (x : α) :
    ∃ d', objectCommit (push d 0 e x).1 = some d' ∧ Quiet d' ∧
      d'.data = addAt e ⟨d.nextAddr, x⟩ d.data := by
  have hc : (push d 0 e x).1 = addPending d 0 e x := by
    simp [push, h.txnId]
  have hrep : Rep (addPending d 0 e x) (Layout.whole d.data) := by
    rw [rep_whole_iff]
    exact ⟨rfl, h.removed⟩
  obtain ⟨d', h₁, h₂, h₃⟩ := settle_one (h.distinct.addPending 0 e x) hrep e
    (by simp [addPending, Function.update_of_ne (other_ne e), h.pending]) rfl
    (by intro e'; by_cases he : e' = e <;> simp [addPending, Function.update_apply, h.txnId])
  refine ⟨d', hc ▸ h₁, h₂, h₃.trans ?_⟩
  cases e <;> simp [addPending, h.pending, Layout.whole, view, addAt]

theorem pop_empty {d : State α} (h : Quiet d) (e : End) (hd : d.data = []) :
    pop d 0 e = some (d, .dataNoItems, none) := by
  simp [pop, h.txnId, h.pending, hd]

theorem pop_step {d : State α} (h : Quiet d) (e : End) {x : Entry α} {l : List (Entry α)}
    (hv : view e d.data = x :: l) :
    ∃ d₁ d', pop d 0 e = some (d₁, .none, some x) ∧ objectCommit d₁ = some d' ∧ Quiet d' ∧
      d'.data = view e l := by
  have hrep : Rep d (Layout.whole d.data) := rep_whole_iff.mpr ⟨rfl, h.removed⟩
  have hne : d.data ≠ [] := by
    intro hc
    simp [hc] at hv
  obtain ⟨d₁, h₁, hrep₁, hdata, hpend, htxn⟩ := hrep.popData h.distinct 0 (e := e) hv
  have hpop : pop d 0 e = some (d₁, .none, some x) := by
    simp [pop, h.txnId, h.pending, h.removed, hne, h₁]
  obtain ⟨d', h₂, h₃, h₄⟩ := settle_one (h.distinct.pop hpop) hrep₁ e (by rw [hpend, h.pending])
    (by simp [Layout.take, Layout.whole, Function.update_of_ne (other_ne e)])
    (by intro e'; by_cases he : e' = e <;> simp [htxn, Function.update_apply, h.txnId])
  exact ⟨d₁, d', hpop, h₂, h₃, by simpa [hpend, h.pending, Layout.take] using h₄⟩

/-- One call and its commit is one operation of the sequence. -/
theorem step_seqStep {d : State α} (h : Quiet d) (op : Op α) :
    ∃ d', step d op = some (d', (seqStep (d.data.map Entry.data) op).2) ∧ Quiet d' ∧
      d'.data.map Entry.data = (seqStep (d.data.map Entry.data) op).1 := by
  cases op with
  | push e x =>
    obtain ⟨d', h₁, h₂, h₃⟩ := push_step h e x
    have hr : (push d 0 e x).2.1 = .none := by simp [push, h.txnId]
    exact ⟨d', by simp [step, seqStep, h₁, hr], h₂, by rw [h₃, addAt_map]; rfl⟩
  | pop e =>
    cases hv : view e d.data with
    | nil =>
      have hd := view_eq_nil.mp hv
      have hc : objectCommit d = some d := by
        rw [objectCommit_one e (h.pending _) (h.removed _) h.txnId, commitEnd_idle (h.pending _) (h.removed _)]
      exact ⟨d, by simp [step, pop_empty h e hd, hc, seqStep, hd], h, by simp [seqStep, hd]⟩
    | cons x l =>
      obtain ⟨d₁, d', h₁, h₂, h₃, h₄⟩ := pop_step h e hv
      have hm : view e (d.data.map Entry.data) = x.data :: l.map Entry.data := by
        rw [view_map, hv, List.map_cons]
      exact ⟨d', by simp [step, h₁, h₂, seqStep, hm], h₃, by simp [seqStep, hm, h₄, view_map]⟩

/-- Every run of calls without transactions returns, call by call, what the double-ended
sequence returns, and leaves the sequence in the data list. -/
theorem run_refines_sequence (ops : List (Op α)) :
    ∃ d : State α, exec step create ops = some (d, (specExec seqStep [] ops).2) ∧
      d.data.map Entry.data = (specExec seqStep [] ops).1 := by
  obtain ⟨d, h₁, h₂⟩ := exec_simulates (C := fun _ _ => True)
    (R := fun d l => Quiet d ∧ d.data.map Entry.data = l) (A := seqStep)
    (fun d l op hR _ => by
      obtain ⟨hq, rfl⟩ := hR
      exact step_seqStep hq op)
    ⟨create_quiet, rfl⟩ (meets_of_forall (fun _ _ => trivial) create ops)
  exact ⟨d, h₁, h₂.2⟩

end RaleighSL.Objects.Deque
