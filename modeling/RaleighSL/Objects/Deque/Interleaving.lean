import RaleighSL.Objects.Deque.Transactions

/-!
# Every interleaving of the deque's requests

One step lemma for each request: served from a state that agrees with its history
and under `RequestOk`, it has a result and that agrees with the longer history.
Over a whole run the deliveries are then unique, no pop reads an open
transaction's push, and a run without open transactions ends in the sequence of
its ledger.
-/
namespace RaleighSL.Objects.Deque
open RaleighSL.Core RaleighSL.Library

variable {α : Type*} {l₀ : List (Entry α)} {s : System α} {h : List (Event α)} {L : Layout α}

@[simp] theorem release_zero (d : State α) : release d 0 = d := by
  have ht : (fun e => if d.txnId e = 0 then 0 else d.txnId e) = d.txnId := by
    funext e
    split_ifs with h0
    · exact h0.symm
    · rfl
  rw [release, ht]

/-- The commit that settles a caller, with what it does to the data and the pending lists. -/
theorem Core.settle_all {d : State α} {led : Ledger α} (hc : Core d L led) {t : TxnId}
    (hi : ∀ e, d.txnId e = 0 → t ≠ 0 → Idle d L e)
    (hf : (release d t).txnId .front = 0 → KeepsCursor d L .front)
    (hb : (release d t).txnId .back = 0 → (release d t).txnId .front ≠ 0 → KeepsCursor d L .back) :
    ∃ d' L', objectCommit (release d t) = some d' ∧ Core d' L' (led.settle t) ∧
      (∀ e, d'.txnId e = 0 → Idle d' L' e) ∧ d'.txnId = (release d t).txnId ∧
      d'.nextAddr = d.nextAddr ∧
      (∀ y ∈ d'.data, y ∈ d.data ∨ ∃ e, y ∈ d.pending e ∧ d.txnId e = t) ∧
      ∀ e, ∀ y ∈ d'.pending e, y ∈ d.pending e ∧ d'.txnId e = d.txnId e := by
  obtain ⟨d', hcom, hc', hp', ht'⟩ := hc.settle hi hf hb
  refine ⟨d', _, hcom, hc', ?_, ht', ?_, ?_, ?_⟩
  · intro e h0
    rw [ht'] at h0
    exact ⟨by simp [hp', h0], by simp [Layout.settled, h0]⟩
  · have hrep : Rep (release d t) L := ⟨hc.rep.data, hc.rep.removed⟩
    obtain ⟨d'', hcom', -, -, -, hn⟩ := hrep.objectCommit ⟨hc.distinct.nodup, hc.distinct.fresh⟩ hf hb
    obtain rfl : d' = d'' := Option.some.inj (hcom.symm.trans hcom')
    exact hn
  · intro y hy
    rw [← hc'.seq, Ledger.settle, hc.seq, hc.effect_data] at hy
    have hsub (e : End) (hye : y ∈ if d.txnId e = t then d.pending e else L.taken e) :
        y ∈ d.data ∨ ∃ e, y ∈ d.pending e ∧ d.txnId e = t := by
      split_ifs at hye with he
      · exact Or.inr ⟨e, hye, he⟩
      · left
        rw [hc.rep.data]
        cases e <;> simp [Layout.walk, End.other, hye]
    rcases List.mem_append.mp hy with hy | hy
    · exact hsub .front hy
    · rcases List.mem_append.mp hy with hy | hy
      · exact Or.inl (hc.rep.mem_mid hy)
      · exact hsub .back (List.mem_reverse.mp hy)
  · intro e y hy
    rw [hp'] at hy
    simp only at hy
    split_ifs at hy with h0
    · simp at hy
    · refine ⟨hy, ?_⟩
      rw [ht']
      by_cases he : d.txnId e = t
      · simp [release, he] at h0
      · simp [release, he]

theorem Idle.keepsCursor {d : State α} {e : End} (hi : Idle d L e) : KeepsCursor d L e :=
  fun _ => Or.inr ⟨hi.2, hi.1⟩

theorem Agree.push_txn (ha : Agree l₀ s h L) {t : TxnId} (ht : t ≠ 0) (hne : t ∉ s.ended) {e : End}
    (he : s.deque.txnId e = 0 ∨ s.deque.txnId e = t) (x : α) :
    Agree l₀ { s with
        deque := addPending s.deque t e x
        atoms := if t ≠ s.deque.txnId e then Function.update s.atoms t (s.atoms t ++ [e]) else s.atoms }
      (h ++ [.pushed t e ⟨s.deque.nextAddr, x⟩]) L := by
  have hown : s.deque.txnId e = t ∨ Idle s.deque L e := he.symm.imp_right (ha.idle e)
  refine ⟨?_, ?_, ha.locks.push ht hne he _, ?_, ha.clean.append (fun _ _ _ hc => by cases hc)⟩
  · rw [Ledger.ofHistory_append, Ledger.step, Ledger.post, if_neg ht]
    exact ha.core.addPending hown x
  · intro e' h0
    by_cases hee : e' = e
    · simp [addPending, hee, ht] at h0
    · simp only [addPending, Function.update_of_ne hee] at h0
      exact ⟨by simpa [addPending, Function.update_of_ne hee] using (ha.idle e' h0).1, (ha.idle e' h0).2⟩
  · exact ha.origin.addPending ha.core.distinct x (hown.imp_right And.left)

theorem Agree.of_call {d : State α} {led : Ledger α} (hc : Core d L led)
    (hled : led.settle 0 = Ledger.ofHistory l₀ h) (hk : ∀ e, d.txnId e = 0 → KeepsCursor d L e)
    (hl : Locks d.txnId s.atoms s.ended h) (ho : Origin h d) (hclean : PopsClean h) :
    ∃ d' L', objectCommit d = some d' ∧ Agree l₀ { s with deque := d' } h L' := by
  obtain ⟨d', L', hcom, hc', hi', ht', hn', hd', hp'⟩ := hc.settle_all (t := 0)
    (fun _ _ h0 => absurd rfl h0) (fun h0 => hk _ (by simpa using h0)) (fun h0 _ => hk _ (by simpa using h0))
  rw [release_zero] at hcom ht'
  refine ⟨d', L', hcom, hled ▸ hc', hi', ?_, ?_, hclean⟩
  · rw [ht']
    exact hl
  · refine ho.settle (fun _ _ _ hx => hx) (fun _ hx => hx) hn' ?_ hp'
    intro y hy
    refine (hd' y hy).imp_right ?_
    rintro ⟨e, hy, h0⟩
    exact ⟨e, hy, Or.inl h0⟩

theorem Agree.push_call (ha : Agree l₀ s h L) {e : End} (he : s.deque.txnId e = 0) (x : α)
    (hok : s.deque.removed e.other ≠ some .head) :
    ∃ d' L', objectCommit (addPending s.deque 0 e x) = some d' ∧
      Agree l₀ { s with deque := d' } (h ++ [.pushed 0 e ⟨s.deque.nextAddr, x⟩]) L' := by
  have hu : (addPending s.deque 0 e x).txnId = s.deque.txnId := he ▸ Function.update_eq_self e s.deque.txnId
  refine Agree.of_call (ha.core.addPending (Or.inl he) x) ?_ ?_ ?_
    (ha.origin.addPending ha.core.distinct x (Or.inl he)) (ha.clean.append (fun _ _ _ hc => by cases hc))
  · rw [Ledger.ofHistory_append, Ledger.step, Ledger.post, if_pos rfl]
  · intro e' h0
    rw [hu] at h0
    by_cases hee : e' = e
    · subst hee
      intro ht
      left
      intro hm
      apply hok
      rw [ha.core.rep.removed, Layout.cursor, if_neg ht, hm, other_other, (ha.idle e' he).2]
      simp [cursorOf]
    · refine Idle.keepsCursor ⟨?_, (ha.idle e' h0).2⟩
      simpa [addPending, Function.update_of_ne hee] using (ha.idle e' h0).1
  · rw [hu]
    exact ha.locks.keep (by simp)

theorem Agree.serve_push (ha : Agree l₀ s h L) {t : TxnId} {e : End} {x : α}
    (hok : RequestOk s (.push t e x)) :
    ∃ s' ev L', serve s (.push t e x) = some (s', ev) ∧ Agree l₀ s' (h ++ [ev]) L' := by
  rw [serve]
  by_cases hne : t ∈ s.ended
  · exact ⟨s, _, L, if_pos hne, ha.refused _⟩
  rw [if_neg hne]
  by_cases hlock : 0 < s.deque.txnId e ∧ s.deque.txnId e ≠ t
  · refine ⟨s, _, L, ?_, ha.refused .txnLockedOperation⟩
    simp [push, hlock, ha.commit_idle]
  have he : s.deque.txnId e = 0 ∨ s.deque.txnId e = t := by
    by_cases h0 : s.deque.txnId e = 0
    · exact Or.inl h0
    · exact Or.inr (not_not.mp fun hc => hlock ⟨Nat.pos_of_ne_zero h0, hc⟩)
  have hpush : push s.deque t e x = (addPending s.deque t e x, .none, decide (t ≠ 0 ∧ t ≠ s.deque.txnId e)) :=
    if_neg hlock
  rw [hpush]
  by_cases ht : t = 0
  · subst ht
    have h0 : s.deque.txnId e = 0 := he.elim id id
    obtain ⟨d', L', hcom, ha'⟩ := ha.push_call h0 x (hok rfl h0)
    exact ⟨{ s with deque := d' }, _, L', by simp [hcom], ha'⟩
  · have ha' := ha.push_txn ht hne he x
    refine ⟨_, _, L, ?_, ha'⟩
    have hcom := ha'.commit_idle
    simp only at hcom
    simp [hcom, ht]

/-- The entry of a pop was not pushed by another open transaction. -/
def Readable (h : List (Event α)) (t : TxnId) (x : Entry α) : Prop :=
  ∀ t' e' x', .pushed t' e' x' ∈ h → x'.addr = x.addr → t' = 0 ∨ t' = t ∨ .applied t' ∈ h

theorem PopsClean.popped (hc : PopsClean h) {t : TxnId} {x : Entry α} (hx : Readable h t x) (e : End) :
    PopsClean (h ++ [.popped t e x]) := by
  refine hc.append ?_
  intro t₁ e₁ x₁ heq
  obtain ⟨rfl, rfl, rfl⟩ := Event.popped.inj heq
  exact hx

theorem Origin.readable_data {d : State α} (ho : Origin h d) {x : Entry α} (hx : x ∈ d.data) (t : TxnId) :
    Readable h t x :=
  fun t' e' x' hx' hxx => (ho.data t' e' x' hx' x hx hxx.symm).imp_right Or.inr

theorem Origin.readable_pending {d : State α} (ho : Origin h d) {e : End} {x : Entry α}
    (hx : x ∈ d.pending e) : Readable h (d.txnId e) x :=
  fun t' e' x' hx' hxx => Or.inr (Or.inl (ho.pending t' e' x' hx' e x hx hxx.symm))

theorem Agree.of_pop (ha : Agree l₀ s h L) {t : TxnId} (ht : t ≠ 0) (e : End) {x : Entry α}
    {d : State α} {L' : Layout α} (hc : Core d L' ((Ledger.ofHistory l₀ h).record t (.pop x)))
    (hdata : d.data = s.deque.data) (htxn : d.txnId = s.deque.txnId)
    (hnext : d.nextAddr = s.deque.nextAddr)
    (hpend : ∀ e, ∀ y ∈ d.pending e, y ∈ s.deque.pending e)
    (htaken : ∀ e, s.deque.txnId e ≠ t → L'.taken e = L.taken e) (hx : Readable h t x) :
    Agree l₀ { s with deque := d } (h ++ [.popped t e x]) L' := by
  refine ⟨?_, ?_, ?_, ?_, ha.clean.popped hx e⟩
  · rw [Ledger.ofHistory_append, Ledger.step, Ledger.post, if_neg ht]
    exact hc
  · intro e' h0
    rw [htxn] at h0
    have hi := ha.idle e' h0
    refine ⟨?_, ?_⟩
    · rw [List.eq_nil_iff_forall_not_mem]
      intro y hy
      simpa [hi.1] using hpend e' y hy
    · rw [htaken e' (fun hc => ht (hc.symm.trans h0))]
      exact hi.2
  · simp only [htxn]
    exact ha.locks.keep (by simp)
  · exact ha.origin.settle (by simp) (by simp) hnext (fun y hy => Or.inl (hdata ▸ hy))
      (fun e y hy => ⟨hpend e y hy, by rw [htxn]⟩)

theorem Agree.pop_pending (ha : Agree l₀ s h L) {t : TxnId} {e : End} (e' : End) {x : Entry α}
    {l l₁ l₂ : List (Entry α)} (hown : s.deque.txnId e = t)
    (hp : s.deque.pending e = l₁ ++ x :: l₂) (hl : l = l₁ ++ l₂) :
    objectCommit { s.deque with pending := Function.update s.deque.pending e l } =
        some { s.deque with pending := Function.update s.deque.pending e l } ∧
      Agree l₀ { s with deque := { s.deque with pending := Function.update s.deque.pending e l } }
        (h ++ [.popped t e' x]) L := by
  subst hl
  have ht : t ≠ 0 := by
    intro h0
    simpa [hp] using (ha.idle e (hown.trans h0)).1
  have hsub (e'' : End) (y : Entry α) (hy : y ∈ Function.update s.deque.pending e (l₁ ++ l₂) e'') :
      y ∈ s.deque.pending e'' := by
    by_cases hee : e'' = e
    · subst hee
      simp only [Function.update_self, List.mem_append] at hy
      simp only [hp, List.mem_append, List.mem_cons]
      tauto
    · simpa [Function.update_of_ne hee] using hy
  have ha' := ha.of_pop ht e' (ha.core.popPending hown hp) rfl rfl rfl hsub (fun _ _ => rfl)
    (hown ▸ ha.origin.readable_pending (by simp [hp]))
  exact ⟨ha'.commit_idle, ha'⟩

/-- A pop from the data, settled at once or kept by its transaction. -/
theorem Agree.pop_data (ha : Agree l₀ s h L) {t : TxnId} {e : End} (hown : s.deque.txnId e = t)
    {x : Entry α} {m : List (Entry α)} (hm : view e L.mid = x :: m)
    (hok : t = 0 → s.deque.removed e.other ≠ some (.node x.addr)) :
    ∃ d d' L', popData s.deque t e = some (d, x) ∧ objectCommit d = some d' ∧
      Agree l₀ { s with deque := d' } (h ++ [.popped t e x]) L' := by
  obtain ⟨d, hpop, hc, hpend, htxn⟩ := ha.core.popTake hown hm
  have hx : x ∈ s.deque.data := by
    apply ha.core.rep.mem_mid
    rw [← mem_view (e := e), hm]
    exact List.mem_cons_self
  have hfields : d.data = s.deque.data ∧ d.nextAddr = s.deque.nextAddr := by
    simp only [popData, Option.map_eq_some_iff] at hpop
    obtain ⟨r, -, hr⟩ := hpop
    cases hr
    exact ⟨rfl, rfl⟩
  have hother (e' : End) (hne : e' ≠ e) : (L.take e x m).taken e' = L.taken e' := by
    simp [Layout.take, Function.update_of_ne hne]
  by_cases ht : t = 0
  · subst ht
    have ho : Origin (h ++ [.popped 0 e x]) d :=
      ha.origin.settle (by simp) (by simp) hfields.2 (fun y hy => Or.inl (hfields.1 ▸ hy))
        (fun e' y hy => ⟨hpend ▸ hy, by rw [htxn]⟩)
    have hk (e' : End) (h0 : d.txnId e' = 0) : KeepsCursor d (L.take e x m) e' := by
      rw [htxn] at h0
      by_cases hee : e' = e
      · subst hee
        intro htk
        rw [hother _ (other_ne e')] at htk
        left
        intro hmid
        apply hok rfl
        have hnil : m = [] := view_eq_nil.mp hmid
        rw [ha.core.rep.removed, Layout.cursor, if_neg htk, other_other, (ha.idle e' hown).2, view_other,
          hm, hnil]
        simp [cursorOf]
      · refine Idle.keepsCursor ⟨hpend ▸ (ha.idle e' h0).1, ?_⟩
        rw [hother e' hee]
        exact (ha.idle e' h0).2
    obtain ⟨d', L', hcom, ha'⟩ := Agree.of_call (s := s) hc
      (by rw [Ledger.ofHistory_append, Ledger.step, Ledger.post, if_pos rfl]) hk
      (htxn ▸ ha.locks.keep (by simp)) ho (ha.clean.popped (ha.origin.readable_data hx 0) e)
    exact ⟨d, d', L', hpop, hcom, ha'⟩
  · have ha' := ha.of_pop ht e hc hfields.1 htxn hfields.2 (fun e' y hy => hpend ▸ hy)
      (fun e' hne => hother e' (fun hee => hne (hee ▸ hown))) (ha.origin.readable_data hx t)
    exact ⟨d, d, _, hpop, ha'.commit_idle, ha'⟩

theorem Agree.serve_pop (ha : Agree l₀ s h L) {t : TxnId} {e : End} (hok : RequestOk s (.pop t e)) :
    ∃ s' ev L', serve s (.pop t e) = some (s', ev) ∧ Agree l₀ s' (h ++ [ev]) L' := by
  rw [serve]
  by_cases hne : t ∈ s.ended
  · exact ⟨s, _, L, if_pos hne, ha.refused _⟩
  rw [if_neg hne]
  by_cases hlock : 0 < s.deque.txnId e ∧ s.deque.txnId e ≠ t
  · refine ⟨s, _, L, ?_, ha.refused .txnLockedOperation⟩
    simp [pop, hlock, ha.commit_idle]
  have he : s.deque.txnId e = 0 ∨ s.deque.txnId e = t := by
    by_cases h0 : s.deque.txnId e = 0
    · exact Or.inl h0
    · exact Or.inr (not_not.mp fun hc => hlock ⟨Nat.pos_of_ne_zero h0, hc⟩)
  rw [pop, if_neg hlock]
  cases hp : s.deque.pending e with
  | cons x l =>
    have hown : s.deque.txnId e = t := by
      refine he.resolve_left (fun h0 => ?_)
      simpa [hp] using (ha.idle e h0).1
    obtain ⟨hcom, ha'⟩ := ha.pop_pending e hown (hp.trans (List.nil_append (x :: l)).symm) (List.nil_append l).symm
    refine ⟨_, _, L, ?_, ha'⟩
    simpa using hcom
  | nil =>
    have hok' := hok he hp
    by_cases hd : s.deque.removed e ≠ some .head ∧ s.deque.data ≠ []
    · rw [if_pos hd] at hok'
      have hown : s.deque.txnId e = t := by
        by_cases ht : t = 0
        · exact ht ▸ he.elim id (fun hc => hc.trans ht)
        · exact hok'.1 ht
      obtain ⟨x, m, hm, hstart⟩ := ha.core.rep.available ha.core.distinct hd.1 hd.2 (fun a ha => (hok'.2 a ha).1)
      obtain ⟨d, d', L', hpop, hcom, ha'⟩ := ha.pop_data hown hm (hok'.2 _ hstart).2
      exact ⟨_, _, L', by simp [hd, hpop, hcom], ha'⟩
    · rw [if_neg hd] at hok'
      rcases List.eq_nil_or_concat' (s.deque.pending e.other) with ho | ⟨l, x, ho⟩
      · exact ⟨s, _, L, by simp [hd, ho, ha.commit_idle], ha.refused .dataNoItems⟩
      · have hown : s.deque.txnId e.other = t := hok' (by simp [ho])
        obtain ⟨hcom, ha'⟩ := ha.pop_pending e hown ho (List.append_nil l).symm
        refine ⟨_, _, L, ?_, ha'⟩
        simpa [hd, ho] using hcom

theorem foldl_objectApply (d : State α) (es : List End) :
    es.foldl objectApply d = { d with txnId := fun e => if e ∈ es then 0 else d.txnId e } := by
  induction es generalizing d with
  | nil => simp
  | cons e es ih =>
    rw [List.foldl_cons, ih]
    simp only [objectApply, State.mk.injEq, true_and, and_true]
    funext e'
    by_cases he : e' = e
    · simp [he]
    · simp [he]

/-- Applying the atoms of a transaction releases its ends. -/
theorem Agree.apply_atoms (ha : Agree l₀ s h L) {t : TxnId} (ht : t ≠ 0) :
    (s.atoms t).foldl objectApply s.deque = release s.deque t := by
  rw [foldl_objectApply, release]
  simp [ha.locks.mem, ht]

/-- Reverting the atoms of a transaction gives up its ends, unless the back atom comes before the
front one and the back end has something to give up. -/
theorem foldl_objectRevert {d : State α} {es : List End} {t : TxnId} (ht : t ≠ 0)
    (hmem : ∀ e, e ∈ es ↔ d.txnId e = t) (hnd : es.Nodup)
    (hok : es = [.back, .front] → d.pending .back = [] ∧ d.removed .back = none) :
    es.foldl objectRevert d = abandon d t := by
  have hf := hmem .front
  have hb := hmem .back
  match es with
  | [] =>
    simp only [List.not_mem_nil, false_iff] at hf hb
    have hne (e : End) : d.txnId e ≠ t := by cases e <;> assumption
    simp [abandon, hne]
  | [.front] =>
    simp at hf hb
    simp only [List.foldl_cons, List.foldl_nil, objectRevert, revertEnd, if_true, abandon, State.mk.injEq,
      true_and, and_true]
    refine ⟨?_, ?_, ?_⟩ <;> funext e <;> cases e <;> simp [hf, hb]
  | [.back] =>
    simp at hf hb
    have hne : d.txnId .back ≠ d.txnId .front := fun hc => hf (hc ▸ hb)
    simp only [List.foldl_cons, List.foldl_nil, objectRevert, revertEnd, if_neg hne, abandon, State.mk.injEq,
      true_and, and_true]
    refine ⟨?_, ?_, ?_⟩ <;> funext e <;> cases e <;> simp [hf, hb]
  | [.front, .back] =>
    simp at hf hb
    simp only [List.foldl_cons, List.foldl_nil, objectRevert, revertEnd, if_true, abandon, State.mk.injEq,
      true_and, and_true]
    refine ⟨?_, ?_, ?_⟩ <;> funext e <;> cases e <;> simp [hf, hb, ht]
  | [.back, .front] =>
    simp at hf hb
    obtain ⟨hp, hr⟩ := hok rfl
    simp only [List.foldl_cons, List.foldl_nil, objectRevert, revertEnd, if_true, abandon, State.mk.injEq,
      true_and, and_true]
    refine ⟨?_, ?_, ?_⟩ <;> funext e <;> cases e <;> simp [hf, hb, hp, hr]
  | [.front, .front] => simp at hnd
  | [.back, .back] => simp at hnd
  | e₁ :: e₂ :: e₃ :: es =>
    cases e₁ <;> cases e₂ <;> cases e₃ <;> simp at hnd

theorem Agree.revert_atoms (ha : Agree l₀ s h L) {t : TxnId} (ht : t ≠ 0)
    (hok : s.atoms t = [.back, .front] → s.deque.pending .back = [] ∧ s.deque.removed .back = none) :
    (s.atoms t).foldl objectRevert s.deque = abandon s.deque t := by
  apply foldl_objectRevert ht _ (ha.locks.nodup t) hok
  simp [ha.locks.mem, ht]

theorem Agree.release_eq_self (ha : Agree l₀ s h L) {t : TxnId} (ht : t ≠ 0) (hat : s.atoms t = []) :
    release s.deque t = s.deque := by
  rw [← ha.apply_atoms ht, hat]
  rfl

theorem Agree.serve_apply (ha : Agree l₀ s h L) {t : TxnId} (hok : RequestOk s (.apply t)) :
    ∃ s' ev L', serve s (.apply t) = some (s', ev) ∧ Agree l₀ s' (h ++ [ev]) L' := by
  rw [serve]
  by_cases hne : t = 0 ∨ t ∈ s.ended
  · exact ⟨s, _, L, if_pos hne, ha.refused _⟩
  rw [if_neg hne]
  have ht : t ≠ 0 := fun hc => hne (Or.inl hc)
  have hk (e : End) (hcur : e ∈ s.atoms t → CursorKept s.deque e)
      (h0 : (release s.deque t).txnId e = 0) : KeepsCursor s.deque L e := by
    by_cases he : s.deque.txnId e = t
    · exact ha.core.rep.keepsCursor ha.core.distinct (hcur ((ha.locks.mem t e).mpr ⟨ht, he⟩))
    · simp only [release, he, if_false] at h0
      exact (ha.idle e h0).keepsCursor
  have hfree (h0 : (release s.deque t).txnId .front ≠ 0) : .front ∉ s.atoms t := by
    intro hm
    simp [release, ((ha.locks.mem t _).mp hm).2] at h0
  obtain ⟨d', L', hcom, hc', hi', ht', hn', hd', hp'⟩ := ha.core.settle_all (t := t)
    (fun e h0 _ => ha.idle e h0) (hk .front hok.1) (fun h0 h1 => hk .back (fun hm => hok.2 hm (hfree h1)) h0)
  have hfin : (if s.atoms t = [] then some s.deque
      else objectCommit ((s.atoms t).foldl objectApply s.deque)) = some d' := by
    split_ifs with hat
    · rw [ha.release_eq_self ht hat, ha.commit_idle] at hcom
      exact hcom
    · rw [ha.apply_atoms ht]
      exact hcom
  refine ⟨_, _, L', by rw [finish, hfin]; rfl, ?_, hi', ?_, ?_, ha.clean.append (fun _ _ _ hc => by cases hc)⟩
  · rw [Ledger.ofHistory_append]
    exact hc'
  · simp only [ht']
    exact ha.locks.finish ht (Or.inl rfl)
  · refine ha.origin.settle (by simp) (by simp +contextual) hn' ?_ hp'
    intro y hy
    refine (hd' y hy).imp_right ?_
    rintro ⟨e, hy, he⟩
    exact ⟨e, hy, Or.inr (by simp [he])⟩

theorem Agree.serve_revert (ha : Agree l₀ s h L) {t : TxnId} (hok : RequestOk s (.revert t)) :
    ∃ s' ev L', serve s (.revert t) = some (s', ev) ∧ Agree l₀ s' (h ++ [ev]) L' := by
  rw [serve]
  by_cases hne : t = 0 ∨ t ∈ s.ended
  · exact ⟨s, _, L, if_pos hne, ha.refused _⟩
  rw [if_neg hne]
  have ht : t ≠ 0 := fun hc => hne (Or.inl hc)
  have ha' : Agree l₀
      { deque := abandon s.deque t, atoms := Function.update s.atoms t [], ended := t :: s.ended }
      (h ++ [.reverted t]) (L.abandoned s.deque t) := by
    refine ⟨?_, ?_, ha.locks.finish ht (Or.inr rfl), ?_, ha.clean.append (fun _ _ _ hc => by cases hc)⟩
    · rw [Ledger.ofHistory_append]
      exact ha.core.abandon ht
    · intro e h0
      by_cases he : s.deque.txnId e = t
      · simp [Idle, abandon, Layout.abandoned, he]
      · simp only [abandon, he, if_false] at h0
        simpa [Idle, abandon, Layout.abandoned, he] using ha.idle e h0
    · refine ha.origin.settle (by simp) (by simp) rfl (fun y hy => Or.inl hy) ?_
      intro e y hy
      by_cases he : s.deque.txnId e = t
      · simp [abandon, he] at hy
      · simpa [abandon, he] using hy
  have hfin : (if s.atoms t = [] then some s.deque
      else objectCommit ((s.atoms t).foldl objectRevert s.deque)) = some (abandon s.deque t) := by
    rw [ha.revert_atoms ht hok, show objectCommit (abandon s.deque t) = _ from ha'.commit_idle]
    split_ifs with hat
    · rw [← ha.revert_atoms ht hok, hat]
      rfl
    · rfl
  exact ⟨_, _, _, by rw [finish, hfin]; rfl, ha'⟩

theorem Agree.serve (ha : Agree l₀ s h L) (req : Request α) (hok : RequestOk s req) :
    ∃ s' ev L', serve s req = some (s', ev) ∧ Agree l₀ s' (h ++ [ev]) L' := by
  cases req with
  | push t e x => exact ha.serve_push hok
  | pop t e => exact ha.serve_pop hok
  | apply t => exact ha.serve_apply hok
  | revert t => exact ha.serve_revert hok

theorem agree_init {d : State α} (hq : Quiet d) : Agree d.data (System.init d) [] (Layout.whole d.data) where
  core :=
    { distinct := hq.distinct
      rep := rep_whole_iff.mpr ⟨rfl, hq.removed⟩
      seq := rfl
      net := by
        intro t m _
        have hn (f : End → List (Entry α)) (hf : ∀ e, f e = []) (e : End) :
            owned (System.init d).deque t f e = [] := by
          simp [owned, hf]
        rw [hn (Layout.whole d.data).taken (fun _ => rfl), hn (Layout.whole d.data).taken (fun _ => rfl),
          hn (System.init d).deque.pending hq.pending, hn (System.init d).deque.pending hq.pending]
        rfl
      nodup := List.nodup_nil
      gone := by simp [Ledger.ofHistory, Ledger.init]
      taken := by simp [Layout.whole]
      acts := by simp [Ledger.ofHistory, Ledger.init, pops]
      old := by simp [Ledger.ofHistory, Ledger.init] }
  idle e _ := ⟨hq.pending e, rfl⟩
  locks :=
    { mem := by simp [System.init, hq.txnId, eq_comm]
      nodup := fun _ => List.nodup_nil
      free := by simp [System.init]
      closed := by simp
      active := fun e he => absurd (hq.txnId e) he }
  origin := ⟨by simp, by simp, by simp⟩
  clean := by
    intro pre post t e x hh
    simp at hh

def AllEnded (h : List (Event α)) : Prop :=
  ∀ t e x, t ≠ 0 → .pushed t e x ∈ h ∨ .popped t e x ∈ h → .applied t ∈ h ∨ .reverted t ∈ h

/-- What a deque with transactions promises of a run: an entry is delivered by at most one pop that
is not rolled back, no pop reads the push of another open transaction, and without open
transactions the deque holds the initial sequence with the committed pushes and pops. -/
structure Safe (l₀ : List (Entry α)) (s : System α) (h : List (Event α)) : Prop where
  once : ((Ledger.ofHistory l₀ h).delivered.map Prod.snd).Nodup
  clean : PopsClean h
  final : AllEnded h → Quiet s.deque ∧ s.deque.data = (Ledger.ofHistory l₀ h).seq

theorem Agree.safe (ha : Agree l₀ s h L) : Safe l₀ s h where
  once := ha.core.nodup
  clean := ha.clean
  final hall := by
    have hfree (e : End) : s.deque.txnId e = 0 := by
      by_contra h0
      obtain ⟨e', x, hx⟩ := ha.locks.active e h0
      have hend := ha.locks.closed _ (hall _ e' x h0 (Or.inl hx))
      have hmem := (ha.locks.mem _ e).mpr ⟨h0, rfl⟩
      simp [ha.locks.free _ hend] at hmem
    exact ⟨⟨ha.core.distinct, fun e => (ha.idle e (hfree e)).1,
      fun e => ha.core.rep.removed_of_idle (ha.idle e (hfree e)), hfree⟩, ha.core.seq.symm⟩

/-- Every interleaving of requests that avoid the faulty branches is safe in every state it
reaches. -/
theorem interleaving_safe {d : State α} (hq : Quiet d) (reqs : List (Request α))
    (hok : Meets serve RequestOk (System.init d) reqs) :
    ∃ s h, exec serve (System.init d) reqs = some (s, h) ∧ Safe d.data s h := by
  obtain ⟨s, h, hrun, L, ha⟩ := exec_history (C := RequestOk)
    (I := fun s h => ∃ L, Agree d.data s h L)
    (fun s h req hI hok => by
      obtain ⟨L, ha⟩ := hI
      obtain ⟨s', ev, L', hs, ha'⟩ := ha.serve req hok
      exact ⟨s', ev, hs, L', ha'⟩)
    ⟨_, agree_init hq⟩ hok
  exact ⟨s, h, hrun, by simpa using ha.safe⟩

def single (x : α) : State α := { (create : State α) with data := [⟨1, x⟩], nextAddr := 2 }

theorem single_quiet (x : α) : Quiet (single x) :=
  ⟨⟨by simp [stock, single, create], by simp [stock, single, create]⟩, fun _ => rfl, fun _ => rfl, fun _ => rfl⟩

/-- A transaction pushes and pops at the front, another caller pops at the back, the transaction
is applied. -/
theorem interleaving_safe_push_pop :
    ∃ s h, exec serve (System.init (single 7)) [.push 1 .front 8, .pop 1 .front, .pop 0 .back, .apply 1] =
      some (s, h) ∧ Safe (single 7).data s h := by
  exact interleaving_safe (single_quiet 7) _ (by decide)

/-- A transaction and a plain caller both get the only entry, each from its end. -/
theorem interleaving_delivers_twice :
    ¬ ∀ (d : State Nat) (reqs : List (Request Nat)) (s : System Nat) (h : List (Event Nat)), Quiet d →
      exec serve (System.init d) reqs = some (s, h) → Safe d.data s h := by
  intro hall
  have hsafe := hall (single 7) [.pop 1 .front, .pop 0 .back, .apply 1] _ _ (single_quiet 7) rfl
  exact absurd hsafe.once (by decide)

end RaleighSL.Objects.Deque
