import RaleighSL.Objects.Number.Model

/-!
# The number under transactions

The ledger of a run is read off its requests and responses alone: the last
committed value, and for each open transaction the last value it wrote. In every
state a run reaches, the three fields of the number show its ledger.
-/
namespace RaleighSL.Objects.Number
open RaleighSL.Core RaleighSL.Library

structure Ledger where
  committed : Value
  pending : TxnId → Option Value

/-- The value a successful write leaves for its caller. -/
def Request.wrote (r : Request) (e : Response) : Option Value :=
  if e.errno = .none then
    match r with
    | .set _ v => some v
    | .cas _ _ new => some new
    | .add _ _ => e.current
    | .mul _ _ => e.current
    | .div _ _ => e.current
    | _ => none
  else none

def Request.isWrite : Request → Bool
  | .get _ => false
  | .apply _ => false
  | .revert _ => false
  | _ => true

def Request.dividesByZero : Request → Bool
  | .div _ divy => decide (divy = .zero)
  | _ => false

namespace Ledger

def init : Ledger := { committed := .zero, pending := fun _ => none }

/-- What a caller sees: its own last value, else the committed one. -/
def visible (A : Ledger) (t : TxnId) : Value := (A.pending t).getD A.committed

/-- Somebody else has written and not ended. -/
def Closed (A : Ledger) (t : TxnId) : Prop := ∃ t', t' ≠ t ∧ (A.pending t').isSome

def post (A : Ledger) (t : TxnId) (v : Value) : Ledger :=
  if t = 0 then { A with committed := v } else { A with pending := Function.update A.pending t (some v) }

def settle (A : Ledger) (t : TxnId) : Ledger :=
  { committed := A.visible t, pending := Function.update A.pending t none }

def forget (A : Ledger) (t : TxnId) : Ledger := { A with pending := Function.update A.pending t none }

def step (A : Ledger) : Request × Response → Ledger
  | (.apply t, e) => if e.errno = .none then A.settle t else A
  | (.revert t, e) => if e.errno = .none then A.forget t else A
  | (r, e) =>
    match r.wrote e with
    | some v => A.post r.user v
    | none => A

def ofHistory (h : List (Request × Response)) : Ledger := h.foldl step init

theorem ofHistory_append (h : List (Request × Response)) (r : Request) (e : Response) :
    ofHistory (h ++ [(r, e)]) = (ofHistory h).step (r, e) := by
  simp [ofHistory]

/-- What a write returns to a caller that nobody else keeps out. -/
def result (A : Ledger) : Request → Option Response
  | .set _ _ => some { errno := .none }
  | .cas t old _ => some { errno := if A.visible t = old then .none else .dataCas, current := some (A.visible t) }
  | .add t v => (Value.add (A.visible t) v).map (fun r => { errno := .none, current := some r })
  | .mul t v => (Value.mul (A.visible t) v).map (fun r => { errno := .none, current := some r })
  | .div t divy =>
    if divy = .zero then some { errno := .numberDivmodByzero }
    else
      (Value.div (A.visible t) divy).bind (fun q =>
        (Value.mod (A.visible t) divy).map (fun m => { errno := .none, current := some q, mody := some m }))
  | _ => none

end Ledger

/-- The fields of the number and the registered atoms show a ledger. -/
structure Shows (s : System) (A : Ledger) : Prop where
  committed : s.number.readValue = A.committed
  pending : ∀ t v, A.pending t = some v ↔ t ≠ 0 ∧ s.number.txnId = t ∧ s.number.writeValue = v
  idle : s.number.txnId = 0 → s.number.writeValue = s.number.readValue
  atoms : ∀ t, s.atoms t = if t ≠ 0 ∧ s.number.txnId = t then 1 else 0
  opened : s.number.txnId ∉ s.ended
  nobody : 0 ∉ s.ended

variable {s s' : System} {A : Ledger} {t t' : TxnId} {v : Value} {r : Request} {e : Response}

theorem init_shows : Shows System.init Ledger.init where
  committed := rfl
  pending t v := by
    simp only [Ledger.init, System.init, create, reduceCtorEq, false_iff, not_and]
    intro h0 hc
    exact absurd hc.symm h0
  idle _ := rfl
  atoms t := by
    have hne : ¬ (t ≠ 0 ∧ create.txnId = t) := fun hc => hc.1 hc.2.symm
    exact (if_neg hne).symm
  opened := List.not_mem_nil
  nobody := List.not_mem_nil

theorem Shows.pending_eq (h : Shows s A) (t : TxnId) :
    A.pending t = if t ≠ 0 ∧ s.number.txnId = t then some s.number.writeValue else none := by
  split_ifs with ht
  · exact (h.pending t _).mpr ⟨ht.1, ht.2, rfl⟩
  · cases hp : A.pending t with
    | none => rfl
    | some v =>
      obtain ⟨h0, hown, -⟩ := (h.pending t v).mp hp
      exact absurd ⟨h0, hown⟩ ht

theorem Shows.get (h : Shows s A) (t : TxnId) : Number.get s.number t = A.visible t := by
  rw [Number.get, Ledger.visible, h.pending_eq]
  split_ifs
  · rfl
  · exact h.committed

theorem Shows.closed_iff (h : Shows s A) (t : TxnId) : A.Closed t ↔ locked s.number t := by
  constructor
  · rintro ⟨t', hne, hp⟩
    rw [h.pending_eq] at hp
    split_ifs at hp with hown
    · rw [locked, hown.2]
      exact ⟨Nat.pos_of_ne_zero hown.1, hne⟩
    · exact absurd hp (by simp)
  · rintro ⟨hpos, hne⟩
    refine ⟨s.number.txnId, hne, ?_⟩
    rw [h.pending_eq, if_pos ⟨Nat.pos_iff_ne_zero.mp hpos, rfl⟩]
    rfl

/-- The value under work is what a caller sees that nobody keeps out. -/
theorem Shows.working (h : Shows s A) (hl : ¬ locked s.number t) : s.number.writeValue = A.visible t := by
  rw [Ledger.visible, h.pending_eq]
  split_ifs with hown
  · rfl
  · have h0 : s.number.txnId = 0 := by
      by_contra hne
      apply hl
      refine ⟨Nat.pos_of_ne_zero hne, ?_⟩
      rintro rfl
      exact hown ⟨hne, rfl⟩
    rw [h.idle h0, h.committed]
    rfl

theorem txnId_of_not_locked {n : State} (hl : ¬ locked n t) : n.txnId = 0 ∨ n.txnId = t := by
  by_cases h0 : n.txnId = 0
  · exact Or.inl h0
  · exact Or.inr (not_not.mp fun hc => hl ⟨Nat.pos_of_ne_zero h0, hc⟩)

theorem Shows.store (h : Shows s A) (hl : ¬ locked s.number t) (hopen : t ∉ s.ended) (current mody : Option Value) :
    Shows (write s t (Number.store s.number t v current mody)).1 (A.post t v) := by
  have hfree := txnId_of_not_locked hl
  by_cases h0 : t = 0
  · subst h0
    have hz : s.number.txnId = 0 := hfree.elim id id
    simp only [write, Number.store, objectCommit, Ledger.post, if_true, ne_eq, not_true_eq_false, false_and,
      decide_false, Bool.false_eq_true, if_false]
    refine ⟨rfl, ?_, fun _ => rfl, ?_, h.nobody, h.nobody⟩
    · intro t' v'
      have hp := h.pending t' v'
      rw [hz] at hp
      rw [hp]
      constructor
      · rintro ⟨hne, hc, -⟩
        exact absurd hc.symm hne
      · rintro ⟨hne, hc, -⟩
        exact absurd hc.symm hne
    · intro t'
      rw [h.atoms, hz]
  · simp only [write, Number.store, objectCommit, Ledger.post, if_true, h0, if_false]
    refine ⟨h.committed, ?_, fun hc => absurd hc h0, ?_, hopen, h.nobody⟩
    · intro t' v'
      by_cases htt : t' = t
      · subst htt
        simp [h0]
      · simp only [Function.update_of_ne htt, h.pending]
        constructor
        · rintro ⟨hne, hown, -⟩
          rcases hfree with hz | hz
          · exact absurd (hown.symm.trans hz) hne
          · exact absurd (hown.symm.trans hz) htt
        · rintro ⟨-, hown, -⟩
          exact absurd hown.symm htt
    · intro t'
      by_cases htt : t' = t
      · subst htt
        by_cases hown : s.number.txnId = t'
        · simp [h0, hown, h.atoms]
        · simp [h0, hown, h.atoms]
      · have hne : s.number.txnId ≠ t' ∨ t' = 0 := by
          rcases hfree with hz | hz
          · by_cases h0' : t' = 0
            · exact Or.inr h0'
            · exact Or.inl (fun hc => h0' (hc.symm.trans hz))
          · exact Or.inl (fun hc => htt (hc.symm.trans hz))
        have hold : s.atoms t' = 0 := by
          rw [h.atoms, if_neg]
          rintro ⟨h0', hown⟩
          rcases hne with hne | hne
          · exact hne hown
          · exact h0' hne
        have hnew : ¬ (t' ≠ 0 ∧ t = t') := fun hc => htt hc.2.symm
        simp only [if_neg hnew]
        by_cases hown : s.number.txnId = t
        · simp [hown, hold]
        · simp [h0, hown, hold, htt]

theorem Shows.finish (h : Shows s A) (ht : t ≠ 0) {f : State → State} {B : Ledger}
    (hB : B.pending = Function.update A.pending t none) (hother : s.number.txnId ≠ t → B.committed = A.committed)
    (hown : s.number.txnId = t → f s.number = { readValue := B.committed, writeValue := B.committed, txnId := 0 }) :
    Shows (Number.finish s t f) B := by
  have hnobody : 0 ∉ t :: s.ended := by
    rw [List.mem_cons, not_or]
    exact ⟨ht.symm, h.nobody⟩
  by_cases hto : s.number.txnId = t
  · have hone : s.atoms t = 1 := by rw [h.atoms, if_pos ⟨ht, hto⟩]
    have hnum : (Number.finish s t f).number = { readValue := B.committed, writeValue := B.committed, txnId := 0 } := by
      simp [Number.finish, hone, hown hto, objectCommit]
    refine ⟨by rw [hnum], ?_, fun _ => by rw [hnum], ?_, by rw [hnum]; exact hnobody, hnobody⟩
    · intro t' v'
      rw [hnum, hB]
      by_cases htt : t' = t
      · subst htt
        simp only [Function.update_self, reduceCtorEq, false_iff]
        exact fun hc => ht hc.2.1.symm
      · rw [Function.update_of_ne htt, h.pending]
        constructor
        · rintro ⟨-, hc, -⟩
          exact absurd (hc.symm.trans hto) htt
        · rintro ⟨hne, hc, -⟩
          exact absurd hc.symm hne
    · intro t'
      have hnew : ¬ (t' ≠ 0 ∧ (Number.finish s t f).number.txnId = t') := by
        rw [hnum]
        exact fun hc => hc.1 hc.2.symm
      rw [if_neg hnew]
      by_cases htt : t' = t
      · simp [Number.finish, htt]
      · have hne : ¬ (t' ≠ 0 ∧ s.number.txnId = t') := fun hc => htt (hc.2.symm.trans hto)
        simp only [Number.finish, Function.update_of_ne htt, h.atoms, if_neg hne]
  · have hzero : s.atoms t = 0 := by
      rw [h.atoms, if_neg]
      exact fun hc => hto hc.2
    have hnum : (Number.finish s t f).number = s.number := by simp [Number.finish, hzero]
    refine ⟨by rw [hnum, hother hto]; exact h.committed, ?_, by rw [hnum]; exact h.idle, ?_, ?_, hnobody⟩
    · intro t' v'
      rw [hnum, hB]
      by_cases htt : t' = t
      · subst htt
        simp [hto]
      · rw [Function.update_of_ne htt, h.pending]
    · intro t'
      rw [hnum]
      by_cases htt : t' = t
      · subst htt
        simp [Number.finish, hto]
      · simp only [Number.finish, Function.update_of_ne htt, h.atoms]
    · rw [hnum]
      simp only [Number.finish, List.mem_cons, not_or]
      exact ⟨hto, h.opened⟩

theorem Shows.apply (h : Shows s A) (ht : t ≠ 0) : Shows (Number.finish s t objectApply) (A.settle t) := by
  apply h.finish ht rfl
  · intro hto
    simp [Ledger.settle, Ledger.visible, h.pending_eq, hto]
  · intro hto
    simp [Ledger.settle, Ledger.visible, h.pending_eq, hto, ht, objectApply]

theorem Shows.revert (h : Shows s A) (ht : t ≠ 0) : Shows (Number.finish s t objectRevert) (A.forget t) := by
  apply h.finish ht rfl
  · intro _
    rfl
  · intro _
    simp [Ledger.forget, objectRevert, h.committed]

/-! ### Requests -/

theorem Request.run_cases {n : State} {o : Outcome} (hrun : r.run n = some o) :
    (o.state = n ∧ o.add = false ∧ o.errno ≠ .none) ∨
      (¬ locked n r.user ∧ ∃ v c m, o = Number.store n r.user v c m ∧
        r.wrote { errno := .none, current := c, mody := m } = some v) := by
  have hrefuse {c : Errno} (hc : c ≠ .none) (ho : refuse n c = o) : o.state = n ∧ o.add = false ∧ o.errno ≠ .none := by
    rw [← ho]
    exact ⟨rfl, rfl, hc⟩
  cases r with
  | get t => simp [Request.run] at hrun
  | apply t => simp [Request.run] at hrun
  | revert t => simp [Request.run] at hrun
  | set t v =>
    simp only [Request.run, Number.set, Option.some.injEq] at hrun
    split_ifs at hrun with hl
    · exact Or.inl (hrefuse (by simp) hrun)
    · exact Or.inr ⟨hl, v, none, none, hrun.symm, rfl⟩
  | cas t old new =>
    simp only [Request.run, Number.cas, Option.some.injEq] at hrun
    split_ifs at hrun with hl hv
    · exact Or.inl (hrefuse (by simp) hrun)
    · rw [← hrun]
      exact Or.inl ⟨rfl, rfl, by simp [refuse]⟩
    · exact Or.inr ⟨hl, new, _, none, hrun.symm, rfl⟩
  | add t v =>
    simp only [Request.run, Number.add, arith] at hrun
    split_ifs at hrun with hl
    · exact Or.inl (hrefuse (by simp) (Option.some.inj hrun))
    · rw [Option.map_eq_some_iff] at hrun
      obtain ⟨x, -, ho⟩ := hrun
      exact Or.inr ⟨hl, x, _, none, ho.symm, rfl⟩
  | mul t v =>
    simp only [Request.run, Number.mul, arith] at hrun
    split_ifs at hrun with hl
    · exact Or.inl (hrefuse (by simp) (Option.some.inj hrun))
    · rw [Option.map_eq_some_iff] at hrun
      obtain ⟨x, -, ho⟩ := hrun
      exact Or.inr ⟨hl, x, _, none, ho.symm, rfl⟩
  | div t divy =>
    simp only [Request.run, Number.div] at hrun
    split_ifs at hrun with h0 hl
    · exact Or.inl (hrefuse (by simp) (Option.some.inj hrun))
    · exact Or.inl (hrefuse (by simp) (Option.some.inj hrun))
    · rw [Option.bind_eq_some_iff] at hrun
      obtain ⟨q, -, hm⟩ := hrun
      rw [Option.map_eq_some_iff] at hm
      obtain ⟨m, -, ho⟩ := hm
      exact Or.inr ⟨hl, q, _, _, ho.symm, rfl⟩

theorem serve_write (hw : r.isWrite = true) (hopen : r.user ∉ s.ended) :
    serve s r = (r.run s.number).map (write s r.user) := by
  cases r with
  | get t => simp [Request.isWrite] at hw
  | apply t => simp [Request.isWrite] at hw
  | revert t => simp [Request.isWrite] at hw
  | _ => exact if_neg hopen

theorem Ledger.step_write (hw : r.isWrite = true) :
    A.step (r, e) = match r.wrote e with
      | some v => A.post r.user v
      | none => A := by
  cases r with
  | get t => simp [Request.isWrite] at hw
  | apply t => simp [Request.isWrite] at hw
  | revert t => simp [Request.isWrite] at hw
  | _ => rfl

theorem wrote_error (he : e.errno ≠ .none) : r.wrote e = none := if_neg he

theorem write_failed {o : Outcome} (hstate : o.state = s.number) (hadd : o.add = false) (he : o.errno ≠ .none) :
    (write s t o).1 = s := by
  simp [write, hstate, hadd, he]

theorem Ledger.step_failed (he : e.errno ≠ .none) : A.step (r, e) = A := by
  cases r with
  | apply t => exact if_neg he
  | revert t => exact if_neg he
  | _ =>
    simp only [Ledger.step]
    rw [wrote_error he]

theorem Shows.serve (h : Shows s A) (hserve : Number.serve s r = some (s', e)) : Shows s' (A.step (r, e)) := by
  by_cases hopen : r.user ∈ s.ended
  · have hclosed : Number.serve s r = some (s, { errno := .txnNotFound }) := if_pos hopen
    rw [hclosed] at hserve
    obtain ⟨rfl, rfl⟩ := Prod.mk.inj (Option.some.inj hserve)
    rw [Ledger.step_failed (by simp)]
    exact h
  by_cases hw : r.isWrite = true
  · rw [serve_write hw hopen, Option.map_eq_some_iff] at hserve
    obtain ⟨o, hrun, heq⟩ := hserve
    rcases Request.run_cases hrun with ⟨hstate, hadd, herr⟩ | ⟨hl, v, c, m, rfl, hwrote⟩
    · obtain ⟨rfl, rfl⟩ := Prod.mk.inj (heq.symm.trans (Prod.ext (write_failed hstate hadd herr) rfl))
      rw [Ledger.step_failed herr]
      exact h
    · have hs' := h.store (v := v) hl hopen c m
      obtain ⟨rfl, rfl⟩ := Prod.mk.inj heq
      have hstep : A.step (r, (write s r.user (Number.store s.number r.user v c m)).2) = A.post r.user v := by
        rw [Ledger.step_write hw]
        simp only [write, Number.store]
        rw [hwrote]
      rwa [← hstep] at hs'
  · cases r with
    | get t =>
      rw [Number.serve, if_neg hopen] at hserve
      obtain ⟨rfl, rfl⟩ := Prod.mk.inj (Option.some.inj hserve)
      exact h
    | apply t =>
      rw [Number.serve, if_neg hopen] at hserve
      split_ifs at hserve with h0
      · obtain ⟨rfl, rfl⟩ := Prod.mk.inj (Option.some.inj hserve)
        exact h
      · obtain ⟨rfl, rfl⟩ := Prod.mk.inj (Option.some.inj hserve)
        exact h.apply h0
    | revert t =>
      rw [Number.serve, if_neg hopen] at hserve
      split_ifs at hserve with h0
      · obtain ⟨rfl, rfl⟩ := Prod.mk.inj (Option.some.inj hserve)
        exact h
      · obtain ⟨rfl, rfl⟩ := Prod.mk.inj (Option.some.inj hserve)
        exact h.revert h0
    | _ => simp [Request.isWrite] at hw

theorem run_shows {reqs : List Request} {es : List Response} (he : exec serve System.init reqs = some (s, es)) :
    Shows s (Ledger.ofHistory (reqs.zip es)) := by
  have hrun := exec_trace (I := fun s h => Shows s (Ledger.ofHistory h)) (C := fun _ _ => True)
    (fun s h r s' e hs _ hserve => by
      rw [Ledger.ofHistory_append]
      exact hs.serve hserve)
    (h := []) init_shows (meets_of_forall (fun _ _ => trivial) _ _) he
  simpa using hrun

theorem serve_get (hopen : t ∉ s.ended) :
    serve s (.get t) = some (s, { errno := .none, current := some (get s.number t) }) := if_neg hopen

/-- What a write operation returns on a number that shows a ledger, if nobody keeps its caller out. -/
theorem Shows.result (h : Shows s A) (hu : r.user = t) (hl : ¬ locked s.number t) :
    (r.run s.number).map (fun o => { errno := o.errno, current := o.current, mody := o.mody }) = A.result r := by
  have hv := h.working hl
  cases r with
  | get t' => rfl
  | apply t' => rfl
  | revert t' => rfl
  | set t' v =>
    obtain rfl : t' = t := hu
    rw [Request.run, Number.set, if_neg hl]
    rfl
  | cas t' old new =>
    obtain rfl : t' = t := hu
    rw [Request.run, Number.cas, if_neg hl, hv, Ledger.result]
    by_cases hold : A.visible t' = old
    · simp [Number.store, hold]
    · simp [refuse, hold]
  | add t' v =>
    obtain rfl : t' = t := hu
    rw [Request.run, Number.add, arith, if_neg hl, hv, Ledger.result, Option.map_map]
    rfl
  | mul t' v =>
    obtain rfl : t' = t := hu
    rw [Request.run, Number.mul, arith, if_neg hl, hv, Ledger.result, Option.map_map]
    rfl
  | div t' divy =>
    obtain rfl : t' = t := hu
    rw [Request.run, Number.div, if_neg hl, hv, Ledger.result]
    split_ifs
    · rfl
    · simp only [Option.map_bind, Option.map_map, Function.comp_def]
      rfl

/-- A write of a caller that is kept out, unless it divides by zero. -/
theorem locked_run (hw : r.isWrite = true) (hu : r.user = t) {n : State} (hl : locked n t) (hz : r.dividesByZero = false) :
    r.run n = some (refuse n .txnLockedOperation) := by
  cases r with
  | get t' => simp [Request.isWrite] at hw
  | apply t' => simp [Request.isWrite] at hw
  | revert t' => simp [Request.isWrite] at hw
  | set t' v =>
    obtain rfl : t' = t := hu
    rw [Request.run, Number.set, if_pos hl]
  | cas t' old new =>
    obtain rfl : t' = t := hu
    rw [Request.run, Number.cas, if_pos hl]
  | add t' v =>
    obtain rfl : t' = t := hu
    rw [Request.run, Number.add, arith, if_pos hl]
  | mul t' v =>
    obtain rfl : t' = t := hu
    rw [Request.run, Number.mul, arith, if_pos hl]
  | div t' divy =>
    obtain rfl : t' = t := hu
    have hne : divy ≠ .zero := of_decide_eq_false hz
    rw [Request.run, Number.div, if_neg hne, if_pos hl]

theorem serve_apply (ht : t ≠ 0) (hopen : t ∉ s.ended) :
    serve s (.apply t) = some (finish s t objectApply, { errno := .none }) := by
  rw [serve, if_neg (show (Request.apply t).user ∉ s.ended from hopen), if_neg ht]

theorem serve_revert (ht : t ≠ 0) (hopen : t ∉ s.ended) :
    serve s (.revert t) = some (finish s t objectRevert, { errno := .none }) := by
  rw [serve, if_neg (show (Request.revert t).user ∉ s.ended from hopen), if_neg ht]

/-- In every state a run reaches at most one transaction has written and not ended; every caller
reads its own last value or else the committed one; every write of the others is refused, a
division by zero with its own error, and changes nothing; a write nobody keeps out works on the
value its caller sees; apply publishes the value of its transaction and revert drops it. -/
theorem run_shows_ledger {reqs : List Request} {es : List Response}
    (he : exec serve System.init reqs = some (s, es)) :
    let A := Ledger.ofHistory (reqs.zip es)
    (∀ t t', (A.pending t).isSome → (A.pending t').isSome → t = t') ∧
      (∀ t, t ∉ s.ended → serve s (.get t) = some (s, { errno := .none, current := some (A.visible t) })) ∧
      (∀ r, r.isWrite = true → r.user ∉ s.ended → A.Closed r.user → serve s r = some (s,
        { errno := if r.dividesByZero then .numberDivmodByzero else .txnLockedOperation })) ∧
      (∀ r, r.isWrite = true → r.user ∉ s.ended → ¬ A.Closed r.user → (serve s r).map Prod.snd = A.result r) ∧
      (∀ t old new, t ∉ s.ended → ¬ A.Closed t →
        ((∃ s' c, serve s (.cas t old new) = some (s', { errno := .none, current := c })) ↔ A.visible t = old)) ∧
      (∀ t, t ≠ 0 → t ∉ s.ended → ∃ s', serve s (.apply t) = some (s', { errno := .none }) ∧
        ∀ t', t' ∉ s'.ended → get s'.number t' = (A.settle t).visible t') ∧
      ∀ t, t ≠ 0 → t ∉ s.ended → ∃ s', serve s (.revert t) = some (s', { errno := .none }) ∧
        ∀ t', t' ∉ s'.ended → get s'.number t' = (A.forget t).visible t' := by
  intro A
  have h : Shows s A := run_shows he
  have hresult (r : Request) (hw : r.isWrite = true) (hopen : r.user ∉ s.ended) (hc : ¬ A.Closed r.user) :
      (serve s r).map Prod.snd = A.result r := by
    rw [h.closed_iff] at hc
    rw [serve_write hw hopen, Option.map_map, ← h.result rfl hc]
    rfl
  refine ⟨?_, ?_, ?_, hresult, ?_, ?_, ?_⟩
  · intro t t' hp hp'
    rw [h.pending_eq] at hp hp'
    split_ifs at hp hp' with hown hown'
    · exact hown.2.symm.trans hown'.2
    · exact absurd hp' (by simp)
    · exact absurd hp (by simp)
    · exact absurd hp (by simp)
  · intro t hopen
    rw [serve_get hopen, h.get]
  · intro r hw hopen hc
    rw [h.closed_iff] at hc
    cases hz : r.dividesByZero with
    | true =>
      cases r with
      | div t divy =>
        obtain rfl : divy = .zero := of_decide_eq_true hz
        rw [serve_write hw hopen]
        simp [Request.run, Number.div, write, refuse]
      | _ => simp [Request.dividesByZero] at hz
    | false =>
      rw [serve_write hw hopen, locked_run hw rfl hc hz, Option.map_some]
      simp [write, refuse]
  · intro t old new hopen hc
    have hres := hresult (.cas t old new) rfl hopen hc
    rw [Ledger.result, Option.map_eq_some_iff] at hres
    obtain ⟨⟨s', e⟩, hserve, rfl⟩ := hres
    constructor
    · rintro ⟨s'', c, hs''⟩
      by_contra hne
      rw [hserve] at hs''
      simp [hne] at hs''
    · intro hv
      exact ⟨s', some (A.visible t), by simpa [hv] using hserve⟩
  · intro t ht hopen
    exact ⟨_, serve_apply ht hopen, fun t' _ => (h.apply ht).get t'⟩
  · intro t ht hopen
    exact ⟨_, serve_revert ht hopen, fun t' _ => (h.revert ht).get t'⟩

/-- Transaction 1 writes, reads its value back and is reverted; nobody else saw it. -/
theorem run_shows_ledger_revert : ∃ s es,
    exec serve System.init [.set 0 ⟨3, by decide⟩, .add 1 ⟨4, by decide⟩, .revert 1] = some (s, es) ∧
      serve s (.get 2) = some (s, { errno := .none, current := some ⟨3, by decide⟩ }) := by
  obtain ⟨⟨s, es⟩, he⟩ := Option.isSome_iff_exists.mp (show (exec serve System.init
    [.set 0 ⟨3, by decide⟩, .add 1 ⟨4, by decide⟩, .revert 1]).isSome by decide)
  have hget := (run_shows_ledger he).2.1 2
  have hrest : (exec serve System.init [.set 0 ⟨3, by decide⟩, .add 1 ⟨4, by decide⟩, .revert 1]).map
      (fun p => (decide (2 ∈ p.1.ended), p.2)) = some (false, [{ errno := .none },
        { errno := .none, current := some ⟨7, by decide⟩ }, { errno := .none }]) := by decide
  simp only [he, Option.map_some, Option.some.injEq, Prod.mk.injEq, decide_eq_false_iff_not] at hrest
  refine ⟨s, es, he, ?_⟩
  rw [hget hrest.1, hrest.2]
  rfl

/-- The divisor is checked before the lock: a caller that is kept out gets another error. -/
theorem locked_division_by_zero : ∃ s es,
    exec serve System.init [.set 1 ⟨5, by decide⟩] = some (s, es) ∧
      (Ledger.ofHistory ([Request.set 1 ⟨5, by decide⟩].zip es)).Closed 2 ∧
      serve s (.div 2 .zero) = some (s, { errno := .numberDivmodByzero }) := by
  exact ⟨_, _, rfl, ⟨1, by decide, rfl⟩, rfl⟩

end RaleighSL.Objects.Number
