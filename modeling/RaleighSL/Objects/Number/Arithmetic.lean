import RaleighSL.Objects.Number.Transactions

/-!
# The arithmetic of the number

An arithmetic request that is accepted stores and returns the exact sum, product
or quotient of the value its caller sees; one that is refused changes nothing.
This holds of exactly the requests whose exact result fits, or that are refused
for another reason: a result that does not fit is not refused, it overflows.
-/
namespace RaleighSL.Objects.Number
open RaleighSL.Core RaleighSL.Library

def Request.isArithmetic : Request → Bool
  | .add _ _ => true
  | .mul _ _ => true
  | .div _ _ => true
  | _ => false

/-- The sum, product or quotient over the integers. A division by zero has none. -/
def Request.exact (x : Int) : Request → Option Int
  | .add _ v => some (x + v.1)
  | .mul _ v => some (x * v.1)
  | .div _ divy => if divy = .zero then none else some (x.tdiv divy.1)
  | _ => none

/-- The request is answered. Accepted, it stores and returns the exact result, and a division returns
the remainder that belongs to it; refused, it leaves the number and its owner. -/
def Exact (s : System) (r : Request) : Prop :=
  ∃ s' e, serve s r = some (s', e) ∧
    ((e.errno = .none ∧ ∃ v, r.exact (get s.number r.user).1 = some v.1 ∧ e.current = some v ∧
        s'.number.writeValue = v ∧ get s'.number r.user = v ∧
        ∀ divy, r = .div r.user divy → ∃ m, e.mody = some m ∧
          v.1 * divy.1 + m.1 = (get s.number r.user).1 ∧ m.1.natAbs < divy.1.natAbs) ∨
      (e.errno ≠ .none ∧ s' = s))

/-- The caller's transaction has ended, or another one has the number, or the exact result fits. -/
def Request.Fits (s : System) (r : Request) : Prop :=
  r.user ∈ s.ended ∨ locked s.number r.user ∨ ∀ x, r.exact (Number.get s.number r.user).1 = some x → InRange x

theorem Value.exact_eq_some {x : Int} {v : Value} : Value.exact x = some v ↔ x = v.1 := by
  constructor
  · intro h
    rw [Value.exact] at h
    split_ifs at h with hx
    rw [← Option.some.inj h]
  · rintro rfl
    exact dif_pos v.2

theorem Value.exact_of_inRange {x : Int} (h : InRange x) : ∃ v : Value, Value.exact x = some v ∧ v.1 = x :=
  ⟨⟨x, h⟩, dif_pos h, rfl⟩

theorem Value.ne_zero {v : Value} (h : v ≠ .zero) : v.1 ≠ 0 := fun h0 => h (Subtype.ext h0)

theorem natAbs_tmod_lt (x : Int) {y : Int} (hy : y ≠ 0) : (x.tmod y).natAbs < y.natAbs := by
  rw [Int.natAbs_tmod]
  exact Nat.mod_lt _ (Int.natAbs_pos.mpr hy)

theorem tmod_inRange (x : Int) {y : Int} (hy : InRange y) (hne : y ≠ 0) : InRange (x.tmod y) := by
  have hlt := natAbs_tmod_lt x hne
  obtain ⟨hlow, hhigh⟩ := hy
  exact ⟨by omega, by omega⟩

variable {s s' : System} {A : Ledger} {t : TxnId} {r : Request}

theorem Exact.of_refused {e : Response} (hserve : serve s r = some (s, e)) (he : e.errno ≠ .none) : Exact s r :=
  ⟨s, e, hserve, Or.inr ⟨he, rfl⟩⟩

theorem get_write_store (hl : ¬ locked s.number t) (v : Value) (current mody : Option Value) :
    let s' := (write s t (store s.number t v current mody)).1
    s'.number.writeValue = v ∧ get s'.number t = v := by
  by_cases h0 : t = 0
  · subst h0
    simp [write, store, objectCommit, get]
  · simp [write, store, objectCommit, get, h0]

theorem serve_arith (hw : r.isWrite = true) (hopen : r.user ∉ s.ended) {x : Int}
    (hrun : r.run s.number =
      (Value.exact x).map (fun v => store s.number r.user v (some v) none)) :
    serve s r = (Value.exact x).map (fun v => write s r.user (store s.number r.user v (some v) none)) := by
  rw [serve_write hw hopen, hrun, Option.map_map]
  rfl

theorem arith_exact_iff (hw : r.isWrite = true) (hdiv : ∀ divy, r ≠ .div r.user divy) (hopen : r.user ∉ s.ended)
    (hl : ¬ locked s.number r.user) {x : Int} (hx : r.exact (get s.number r.user).1 = some x)
    (hrun : r.run s.number = (Value.exact x).map (fun v => store s.number r.user v (some v) none)) :
    Exact s r ↔ InRange x := by
  have hserve := serve_arith hw hopen hrun
  constructor
  · rintro ⟨s', e, hs', -⟩
    rw [hserve, Option.map_eq_some_iff] at hs'
    obtain ⟨v, hv, -⟩ := hs'
    rw [Value.exact_eq_some.mp hv]
    exact v.2
  · intro hfit
    obtain ⟨v, hv, hvx⟩ := Value.exact_of_inRange hfit
    rw [hv, Option.map_some] at hserve
    have hget := get_write_store hl v (some v) none
    refine ⟨_, _, hserve, Or.inl ⟨rfl, v, ?_, rfl, hget.1, hget.2, ?_⟩⟩
    · rw [hx, hvx]
    · exact fun divy hc => absurd hc (hdiv divy)

theorem div_exact_iff {divy : Value} (hz : divy ≠ .zero) (hopen : t ∉ s.ended) (hl : ¬ locked s.number t)
    (hold : s.number.writeValue = get s.number t) :
    Exact s (.div t divy) ↔ InRange ((get s.number t).1.tdiv divy.1) := by
  have hserve : serve s (.div t divy) = (Value.div (get s.number t) divy).bind (fun q =>
      (Value.mod (get s.number t) divy).map (fun m => write s t (store s.number t q (some q) (some m)))) := by
    rw [serve_write rfl hopen, Request.run, div, if_neg hz, if_neg hl, hold]
    simp only [Option.map_bind, Option.map_map, Function.comp_def]
    rfl
  constructor
  · rintro ⟨s', e, hs', -⟩
    rw [hserve, Option.bind_eq_some_iff] at hs'
    obtain ⟨q, hq, -⟩ := hs'
    rw [Value.exact_eq_some.mp hq]
    exact q.2
  · intro hfit
    have hne := Value.ne_zero hz
    obtain ⟨q, hq, hqx⟩ := Value.exact_of_inRange hfit
    obtain ⟨m, hm, hmx⟩ := Value.exact_of_inRange (tmod_inRange (get s.number t).1 divy.2 hne)
    rw [Value.div, hq, Option.bind_some, Value.mod, hm, Option.map_some] at hserve
    have hget := get_write_store hl q (some q) (some m)
    refine ⟨_, _, hserve, Or.inl ⟨rfl, q, ?_, rfl, hget.1, hget.2, ?_⟩⟩
    · simp [Request.exact, Request.user, hz, hqx]
    · rintro divy' heq
      obtain ⟨-, rfl⟩ := Request.div.inj heq
      refine ⟨m, rfl, ?_, ?_⟩
      · rw [hqx, hmx]
        exact Int.tdiv_mul_add_tmod _ _
      · rw [hmx]
        exact natAbs_tmod_lt _ hne

theorem Exact.of_locked (hr : r.isArithmetic = true) (hopen : r.user ∉ s.ended) (hl : locked s.number r.user) :
    Exact s r := by
  have hw : r.isWrite = true := by cases r <;> simp_all [Request.isArithmetic, Request.isWrite]
  cases hz : r.dividesByZero with
  | true =>
    cases r with
    | div t divy =>
      have hzero : divy = .zero := of_decide_eq_true hz
      refine Exact.of_refused (e := { errno := .numberDivmodByzero }) ?_ (by simp)
      rw [serve_write hw hopen, Request.run, Number.div, if_pos hzero, Option.map_some]
      simp [write, refuse]
    | _ => simp [Request.dividesByZero] at hz
  | false =>
    refine Exact.of_refused (e := { errno := .txnLockedOperation }) ?_ (by simp)
    rw [serve_write hw hopen, locked_run hw rfl hl hz, Option.map_some]
    simp [write, refuse]

theorem Exact.iff_fits (h : Shows s A) (hr : r.isArithmetic = true) : Exact s r ↔ r.Fits s := by
  by_cases hopen : r.user ∈ s.ended
  · have hclosed : serve s r = some (s, { errno := .txnNotFound }) := if_pos hopen
    exact iff_of_true (Exact.of_refused hclosed (by simp)) (Or.inl hopen)
  by_cases hl : locked s.number r.user
  · exact iff_of_true (Exact.of_locked hr hopen hl) (Or.inr (Or.inl hl))
  have hold : s.number.writeValue = get s.number r.user := (h.working hl).trans (h.get _).symm
  rw [Request.Fits, or_iff_right hopen, or_iff_right hl]
  cases r with
  | add t v =>
    rw [arith_exact_iff (x := (get s.number t).1 + v.1) rfl (by simp) hopen hl rfl ?_]
    · simp only [Request.exact, Option.some.injEq, forall_eq']
      rfl
    · have hrun : (Request.add t v).run s.number = (Value.add s.number.writeValue v).map
          (fun w => store s.number t w (some w) none) := if_neg hl
      rw [hrun, hold]
      rfl
  | mul t v =>
    rw [arith_exact_iff (x := (get s.number t).1 * v.1) rfl (by simp) hopen hl rfl ?_]
    · simp only [Request.exact, Option.some.injEq, forall_eq']
      rfl
    · have hrun : (Request.mul t v).run s.number = (Value.mul s.number.writeValue v).map
          (fun w => store s.number t w (some w) none) := if_neg hl
      rw [hrun, hold]
      rfl
  | div t divy =>
    by_cases hz : divy = .zero
    · subst hz
      refine iff_of_true (Exact.of_refused (e := { errno := .numberDivmodByzero }) ?_ (by simp)) ?_
      · rw [serve_write rfl hopen, Request.run, Number.div, if_pos rfl, Option.map_some]
        simp [write, refuse]
      · simp [Request.exact]
    · have hdiv : Exact s (.div t divy) ↔ _ := div_exact_iff hz hopen hl hold
      simp only [hdiv, Request.exact, if_neg hz, Option.some.injEq, forall_eq']
      rfl
  | _ => simp [Request.isArithmetic] at hr

/-- In every state a run reaches, an arithmetic request is answered exactly or refused without effect
iff it is refused for its caller, or its exact result fits. -/
theorem run_arithmetic_iff {reqs : List Request} {es : List Response}
    (he : exec serve System.init reqs = some (s, es)) (r : Request) (hr : r.isArithmetic = true) :
    Exact s r ↔ r.Fits s :=
  Exact.iff_fits (run_shows he) hr

/-- 17 divided by minus 5 in a transaction. -/
theorem run_arithmetic_iff_quotient : ∃ s es,
    exec serve System.init [.set 0 ⟨17, by decide⟩] = some (s, es) ∧ Exact s (.div 1 ⟨-5, by decide⟩) := by
  refine ⟨_, _, rfl, (run_arithmetic_iff (show exec serve System.init [.set 0 ⟨17, by decide⟩] = _ from rfl) (.div 1 ⟨-5, by decide⟩) rfl).mpr ?_⟩
  refine Or.inr (Or.inr ?_)
  rintro x hx
  obtain rfl : (-3 : Int) = x := Option.some.inj hx
  decide

/-- One more than the largest value, twice that value, and the smallest value divided by minus one. -/
theorem overflow_not_refused : ∃ s s' es es',
    exec serve System.init [.set 0 ⟨2 ^ 63 - 1, by decide⟩] = some (s, es) ∧
      exec serve System.init [.set 0 ⟨-2 ^ 63, by decide⟩] = some (s', es') ∧
      ¬ Exact s (.add 0 ⟨1, by decide⟩) ∧ ¬ Exact s (.mul 0 ⟨2, by decide⟩) ∧
      ¬ Exact s' (.div 0 ⟨-1, by decide⟩) := by
  refine ⟨_, _, _, _, rfl, rfl, ?_, ?_, ?_⟩
  · rintro ⟨s', e, hserve, -⟩
    exact Option.some_ne_none _ (hserve.symm.trans rfl)
  · rintro ⟨s', e, hserve, -⟩
    exact Option.some_ne_none _ (hserve.symm.trans rfl)
  · rintro ⟨s', e, hserve, -⟩
    exact Option.some_ne_none _ (hserve.symm.trans rfl)

end RaleighSL.Objects.Number
