import RaleighSL.Objects.Deque.Ledger

/-!
# Agreement of the deque with its ledger

The actions a caller has not settled amount to what it took and what it has
pending at the ends it owns. Each push and pop by an owner keeps this, the
commit of released ends settles exactly the actions of their owner, and giving
up the ends of an owner forgets them.
-/
namespace RaleighSL.Objects.Deque
open RaleighSL.Core RaleighSL.Library

variable {α : Type*} {d : State α} {L : Layout α} {led : Ledger α}

theorem effect_append (as : List (Act α)) (a : Act α) (l : List (Entry α)) :
    effect (as ++ [a]) l = a.run (effect as l) := by
  simp [effect]

@[simp] theorem pops_append_push (as : List (Act α)) (e : End) (x : Entry α) :
    pops (as ++ [.push e x]) = pops as := by
  induction as with
  | nil => rfl
  | cons a as ih => cases a <;> simp [pops, ih]

@[simp] theorem pops_append_pop (as : List (Act α)) (x : Entry α) :
    pops (as ++ [.pop x]) = pops as ++ [x.addr] := by
  induction as with
  | nil => rfl
  | cons a as ih => cases a <;> simp [pops, ih]

@[simp] theorem run_pop_append (x : Entry α) (l m : List (Entry α)) :
    (Act.pop x).run (l ++ m) = (Act.pop x).run l ++ (Act.pop x).run m := by
  simp [Act.run]

@[simp] theorem run_pop_reverse (x : Entry α) (l : List (Entry α)) :
    (Act.pop x).run l.reverse = ((Act.pop x).run l).reverse := by
  simp [Act.run]

@[simp] theorem run_pop_self (x : Entry α) (l : List (Entry α)) :
    (Act.pop x).run (x :: l) = (Act.pop x).run l := by
  simp [Act.run]

theorem run_pop_of_not_mem {x : Entry α} {l : List (Entry α)} (h : ∀ y ∈ l, y.addr ≠ x.addr) :
    (Act.pop x).run l = l := by
  simpa [Act.run] using h

/-- Owning an idle end or not makes no difference. -/
theorem owned_retag {e : End} {t : TxnId} {f : End → List (Entry α)} (hf : d.txnId e = t ∨ f e = [])
    (t' : TxnId) (e' : End) :
    owned { d with txnId := Function.update d.txnId e t } t' f e' = owned d t' f e' := by
  by_cases he : e' = e
  · subst he
    rcases hf with hf | hf <;> simp [owned, hf]
  · simp [owned, Function.update_of_ne he]

theorem Core.retag (h : Core d L led) {e : End} {t : TxnId} (hi : d.txnId e = t ∨ Idle d L e) :
    Core { d with txnId := Function.update d.txnId e t } L led where
  distinct := ⟨h.distinct.nodup, h.distinct.fresh⟩
  rep := ⟨h.rep.data, h.rep.removed⟩
  seq := h.seq
  net t' m hm := by
    simp only [owned_retag (hi.imp_right And.right), owned_retag (hi.imp_right And.left)]
    exact h.net t' m hm
  nodup := h.nodup
  gone := h.gone
  taken e' y hy := by
    by_cases he : e' = e
    · subst he
      rcases hi with hi | hi
      · simpa [hi] using h.taken e' y hy
      · simp [hi.2] at hy
    · simpa [Function.update_of_ne he] using h.taken e' y hy
  acts := h.acts
  old := h.old

theorem Core.addPending (h : Core d L led) {e : End} {t : TxnId} (hi : d.txnId e = t ∨ Idle d L e)
    (x : α) : Core (addPending d t e x) L (led.record t (.push e ⟨d.nextAddr, x⟩)) where
  distinct := h.distinct.addPending t e x
  rep := ⟨h.rep.data, h.rep.removed⟩
  seq := h.seq
  net t' m hm := by
    have hr := h.retag hi
    by_cases htt : t' = t
    · subst htt
      simp only [Ledger.record, Function.update_self, pops_append_push] at hm ⊢
      rw [effect_append]
      refine (congrArg (fun l => Act.run l _) (hr.net t' m hm)).trans ?_
      cases e <;> simp [owned, Deque.addPending, Act.run, addAt]
    · simp only [Ledger.record, Function.update_of_ne htt] at hm ⊢
      refine (hr.net t' m hm).trans ?_
      cases e <;> simp [owned, Deque.addPending, Ne.symm htt]
  nodup := h.nodup
  gone p hp := by
    refine ⟨(h.gone p hp).1, ?_⟩
    intro e' y hy
    by_cases he : e' = e
    · subst he
      simp only [Deque.addPending, Function.update_self, List.mem_cons] at hy
      rcases hy with rfl | hy
      · exact (h.old p hp).ne'
      · exact (h.gone p hp).2 e' y hy
    · simp only [Deque.addPending, Function.update_of_ne he] at hy
      exact (h.gone p hp).2 e' y hy
  taken := (h.retag hi).taken
  acts t' a ha := by
    by_cases htt : t' = t
    · subst htt
      simp only [Ledger.record, Function.update_self, pops_append_push] at ha
      exact h.acts t' a ha
    · simp only [Ledger.record, Function.update_of_ne htt] at ha
      exact h.acts t' a ha
  old p hp := (h.old p hp).trans (Nat.lt_succ_self _)

/-- What a pop by the owner `t` of an available entry has to change, and nothing else. -/
structure PopStep (d : State α) (L : Layout α) (t : TxnId) (x : Entry α) (d' : State α)
    (L' : Layout α) : Prop where
  rep : Rep d' L'
  data : d'.data = d.data
  txnId : d'.txnId = d.txnId
  nextAddr : d'.nextAddr = d.nextAddr
  available : x ∈ L.mid ∨ ∃ e, x ∈ d.pending e
  mid : ∀ y ∈ L'.mid, y ∈ L.mid ∧ y.addr ≠ x.addr
  pending : ∀ e, ∀ y ∈ d'.pending e, y ∈ d.pending e ∧ y.addr ≠ x.addr
  taken : ∀ e, ∀ y ∈ L'.taken e, y ∈ L.taken e ∨ y = x ∧ d.txnId e = t
  others : ∀ e, d.txnId e ≠ t → L'.taken e = L.taken e ∧ d'.pending e = d.pending e

theorem PopStep.not_delivered {t : TxnId} {x : Entry α} {d' : State α} {L' : Layout α}
    (hs : PopStep d L t x d' L') (h : Core d L led) {p : TxnId × Addr} (hp : p ∈ led.delivered) :
    x.addr ≠ p.2 := by
  rcases hs.available with hx | ⟨e, hx⟩
  · exact (h.gone p hp).1 x hx
  · exact (h.gone p hp).2 e x hx

theorem Core.popOwned (h : Core d L led) {t : TxnId} {x : Entry α} {d' : State α} {L' : Layout α}
    (hd : Distinct d') (hs : PopStep d L t x d' L')
    (hnet : ∀ m, (∀ y ∈ m, y.addr ∉ pops (led.acts t) ∧ y.addr ≠ x.addr) →
      (Act.pop x).run (effect (led.acts t)
        (owned d' t L'.taken .front ++ (m ++ (owned d' t L'.taken .back).reverse))) =
        owned d' t d'.pending .front ++ (m ++ (owned d' t d'.pending .back).reverse)) :
    Core d' L' (led.record t (.pop x)) where
  distinct := hd
  rep := hs.rep
  seq := h.seq.trans hs.data.symm
  net t' m hm := by
    by_cases htt : t' = t
    · subst htt
      simp only [Ledger.record, Function.update_self, pops_append_pop, List.mem_append,
        List.mem_singleton, not_or] at hm ⊢
      rw [effect_append]
      exact hnet m hm
    · simp only [Ledger.record, Function.update_of_ne htt] at hm ⊢
      have ho (e : End) : owned d' t' L'.taken e = owned d t' L.taken e ∧
          owned d' t' d'.pending e = owned d t' d.pending e := by
        simp only [owned, hs.txnId]
        by_cases he : d.txnId e = t'
        · simp [hs.others e (fun hc => htt (he.symm.trans hc))]
        · simp [he]
      rw [(ho _).1, (ho _).1, (ho _).2, (ho _).2]
      exact h.net t' m hm
  nodup := by
    simp only [Ledger.record, List.map_append, List.map_cons, List.map_nil]
    rw [List.nodup_append]
    refine ⟨h.nodup, by simp, ?_⟩
    intro a ha b hb
    obtain ⟨p, hp, rfl⟩ := List.mem_map.mp ha
    rw [List.mem_singleton.mp hb]
    exact (hs.not_delivered h hp).symm
  gone p hp := by
    simp only [Ledger.record, List.mem_append, List.mem_singleton] at hp
    rcases hp with hp | rfl
    · exact ⟨fun y hy => (h.gone p hp).1 y (hs.mid y hy).1,
        fun e y hy => (h.gone p hp).2 e y (hs.pending e y hy).1⟩
    · exact ⟨fun y hy => (hs.mid y hy).2, fun e y hy => (hs.pending e y hy).2⟩
  taken e y hy := by
    simp only [Ledger.record, List.mem_append, List.mem_singleton, hs.txnId]
    rcases hs.taken e y hy with hy | ⟨rfl, ht⟩
    · exact Or.inl (h.taken e y hy)
    · exact Or.inr (by rw [ht])
  acts t' a ha := by
    simp only [Ledger.record, List.mem_append, List.mem_singleton]
    by_cases htt : t' = t
    · subst htt
      simp only [Ledger.record, Function.update_self, pops_append_pop, List.mem_append,
        List.mem_singleton] at ha
      rcases ha with ha | rfl
      · exact Or.inl (h.acts t' a ha)
      · exact Or.inr rfl
    · simp only [Ledger.record, Function.update_of_ne htt] at ha
      exact Or.inl (h.acts t' a ha)
  old p hp := by
    simp only [Ledger.record, List.mem_append, List.mem_singleton] at hp
    rw [hs.nextAddr]
    rcases hp with hp | rfl
    · exact h.old p hp
    · apply h.distinct.fresh
      rcases hs.available with hx | ⟨e, hx⟩
      · exact List.mem_append_left _ (h.rep.mem_mid hx)
      · cases e <;> simp [stock, hx]

theorem Distinct.pending_cut (h : Distinct d) {e : End} {x : Entry α} {l₁ l₂ : List (Entry α)}
    (hp : d.pending e = l₁ ++ x :: l₂) :
    (∀ y ∈ l₁ ++ l₂, y.addr ≠ x.addr) ∧ (∀ y ∈ d.pending e.other, y.addr ≠ x.addr) ∧
      ∀ y ∈ d.data, y.addr ≠ x.addr := by
  have hnd : ((x :: (l₁ ++ l₂ ++ d.pending e.other ++ d.data)).map Entry.addr).Nodup := by
    refine ((List.Perm.map Entry.addr ?_).nodup_iff).mp h.nodup
    refine (stock_perm d e).trans (List.perm_append_comm.trans ?_)
    rw [hp]
    simp only [List.append_assoc, List.cons_append]
    exact List.perm_middle
  rw [List.map_cons, List.nodup_cons] at hnd
  have key (y : Entry α) (hy : y ∈ l₁ ++ l₂ ++ d.pending e.other ++ d.data) : y.addr ≠ x.addr :=
    fun hc => hnd.1 (List.mem_map.mpr ⟨y, hy, hc⟩)
  exact ⟨fun y hy => key y (by simp only [List.mem_append] at hy ⊢; tauto),
    fun y hy => key y (by simp [hy]), fun y hy => key y (by simp [hy])⟩

theorem Core.popPending (h : Core d L led) {e : End} {t : TxnId} (ht : d.txnId e = t) {x : Entry α}
    {l₁ l₂ : List (Entry α)} (hp : d.pending e = l₁ ++ x :: l₂) :
    Core { d with pending := Function.update d.pending e (l₁ ++ l₂) } L (led.record t (.pop x)) := by
  obtain ⟨hl, ho, hdata⟩ := h.distinct.pending_cut hp
  have hsub : (l₁ ++ l₂).Sublist (d.pending e) := by
    rw [hp]
    exact (List.Sublist.refl l₁).append (List.sublist_cons_self x l₂)
  refine h.popOwned (h.distinct.shrink e hsub) ⟨⟨h.rep.data, h.rep.removed⟩, rfl, rfl, rfl,
    Or.inr ⟨e, by simp [hp]⟩, ?_, ?_, fun _ y hy => Or.inl hy, ?_⟩ ?_
  · intro y hy
    exact ⟨hy, hdata y (h.rep.mem_mid hy)⟩
  · intro e' y hy
    by_cases he : e' = e
    · subst he
      simp only [Function.update_self] at hy
      exact ⟨hsub.subset hy, hl y hy⟩
    · obtain rfl := eq_other_of_ne he
      simp only [Function.update_of_ne he] at hy
      exact ⟨hy, ho y hy⟩
  · intro e' he'
    have he : e' ≠ e := fun hc => he' (hc ▸ ht)
    simp [Function.update_of_ne he]
  · intro m hm
    have hn := h.net t m (fun y hy => (hm y hy).1)
    simp only [owned] at hn ⊢
    rw [hn]
    have hl₁ := run_pop_of_not_mem (x := x) (l := l₁) (fun y hy => hl y (by simp [hy]))
    have hl₂ := run_pop_of_not_mem (x := x) (l := l₂) (fun y hy => hl y (by simp [hy]))
    have hm' := run_pop_of_not_mem (x := x) (l := m) (fun y hy => (hm y hy).2)
    have ho' := run_pop_of_not_mem ho
    have hn : (Act.pop x).run ([] : List (Entry α)) = [] := rfl
    cases e
    · by_cases hb : d.txnId .back = t
      · simp_all [End.other]
      · simp_all [End.other]
    · by_cases hb : d.txnId .front = t
      · simp_all [End.other]
      · simp_all [End.other]

theorem Core.popTake (h : Core d L led) {e : End} {t : TxnId} (ht : d.txnId e = t) {x : Entry α}
    {m : List (Entry α)} (hm : view e L.mid = x :: m) :
    ∃ d', popData d t e = some (d', x) ∧ Core d' (L.take e x m) (led.record t (.pop x)) ∧
      d'.pending = d.pending ∧ d'.txnId = d.txnId := by
  obtain ⟨d', hpop, hrep, hdata, hpend, htxn⟩ := h.rep.popData h.distinct t hm
  have htxn' : d'.txnId = d.txnId := by
    rw [htxn, ← ht, Function.update_eq_self]
  have hnext : d'.nextAddr = d.nextAddr := by
    simp only [Deque.popData, Option.map_eq_some_iff] at hpop
    obtain ⟨r, -, hr⟩ := hpop
    cases hr
    rfl
  have hstock : stock d' = stock d := by
    simp [stock, hdata, hpend]
  have hd : Distinct d' := ⟨hstock ▸ h.distinct.nodup, hstock ▸ hnext ▸ h.distinct.fresh⟩
  have hmem (y : Entry α) : y ∈ L.mid ↔ y = x ∨ y ∈ m := by
    rw [← mem_view (e := e), hm, List.mem_cons]
  have hx : x ∈ L.mid := (hmem x).mpr (Or.inl rfl)
  have hnd : x.addr ∉ m.map Entry.addr ∧ ∀ e, ∀ y ∈ d.pending e, y.addr ≠ x.addr := by
    have hs := h.distinct.nodup
    rw [stock, List.map_append, List.nodup_append] at hs
    constructor
    · have hv := h.distinct.nodup_view e
      rw [h.rep.view_data, Layout.walk, hm] at hv
      simp only [List.map_append, List.map_cons, List.cons_append, List.nodup_append,
        List.nodup_cons, List.mem_append, not_or] at hv
      exact hv.2.1.1.1
    · intro e' y hy hc
      refine hs.2.2 x.addr (List.mem_map_of_mem (h.rep.mem_mid hx)) y.addr ?_ hc.symm
      exact List.mem_map_of_mem (by cases e' <;> simp [hy])
  refine ⟨d', hpop, h.popOwned hd ⟨hrep, hdata, htxn', hnext, Or.inl hx, ?_, ?_, ?_, ?_⟩ ?_, hpend, htxn'⟩
  · intro y hy
    have hy' : y ∈ m := mem_view.mp hy
    exact ⟨(hmem y).mpr (Or.inr hy'), fun hc => hnd.1 (hc ▸ List.mem_map_of_mem hy')⟩
  · intro e' y hy
    rw [hpend] at hy
    exact ⟨hy, hnd.2 e' y hy⟩
  · intro e' y hy
    by_cases he : e' = e
    · subst he
      simp only [Layout.take, Function.update_self, List.mem_append, List.mem_singleton] at hy
      exact hy.imp_right (fun hy => ⟨hy, ht⟩)
    · simp only [Layout.take, Function.update_of_ne he] at hy
      exact Or.inl hy
  · intro e' he'
    have he : e' ≠ e := fun hc => he' (hc ▸ ht)
    simp [Layout.take, Function.update_of_ne he, hpend]
  · intro k hk
    have hxp : x.addr ∉ pops (led.acts t) := fun hc => (h.gone _ (h.acts t _ hc)).1 x hx rfl
    have hk' := run_pop_of_not_mem (x := x) (l := k) (fun y hy => (hk y hy).2)
    have hp' (e' : End) := run_pop_of_not_mem (x := x) (l := d.pending e') (hnd.2 e')
    have hnil : (Act.pop x).run ([] : List (Entry α)) = [] := rfl
    cases e with
    | front =>
      have hn := h.net t (x :: k) (by
        intro y hy
        rcases List.mem_cons.mp hy with rfl | hy
        · exact hxp
        · exact (hk y hy).1)
      by_cases hb : d.txnId .back = t <;>
        simp_all [owned, Layout.take]
    | back =>
      have hn := h.net t (k ++ [x]) (by
        intro y hy
        rcases List.mem_append.mp hy with hy | hy
        · exact (hk y hy).1
        · exact List.mem_singleton.mp hy ▸ hxp)
      by_cases hb : d.txnId .front = t <;>
        simp_all [owned, Layout.take]

def release (d : State α) (t : TxnId) : State α :=
  { d with txnId := fun e => if d.txnId e = t then 0 else d.txnId e }

theorem Core.owner_unique (h : Core d L led) {t t' : TxnId} {a : Addr}
    (ht : (t, a) ∈ led.delivered) (ht' : (t', a) ∈ led.delivered) : t = t' :=
  congrArg Prod.fst (List.inj_on_of_nodup_map h.nodup ht ht' rfl)

theorem Core.not_popped_of_taken (h : Core d L led) {t : TxnId} {e : End} (hne : d.txnId e ≠ t)
    {y : Entry α} (hy : y ∈ L.taken e) : y.addr ∉ pops (led.acts t) :=
  fun hc => hne (h.owner_unique (h.taken e y hy) (h.acts t _ hc))

theorem Core.not_popped_of_mid (h : Core d L led) {t : TxnId} {y : Entry α} (hy : y ∈ L.mid) :
    y.addr ∉ pops (led.acts t) :=
  fun hc => (h.gone _ (h.acts t _ hc)).1 y hy rfl

/-- The actions of a caller, replayed on the whole sequence. -/
theorem Core.effect_data (h : Core d L led) (t : TxnId) :
    effect (led.acts t) d.data =
      (if d.txnId .front = t then d.pending .front else L.taken .front) ++
        (L.mid ++ (if d.txnId .back = t then d.pending .back else L.taken .back).reverse) := by
  have hw : d.data = L.taken .front ++ (L.mid ++ (L.taken .back).reverse) := h.rep.data
  have hmid {y : Entry α} (hy : y ∈ L.mid) := h.not_popped_of_mid (t := t) hy
  rw [hw]
  by_cases hf : d.txnId .front = t <;> by_cases hb : d.txnId .back = t
  · have hn := h.net t L.mid (fun y hy => hmid hy)
    simpa [owned, hf, hb] using hn
  · have hn := h.net t (L.mid ++ (L.taken .back).reverse) (by
      intro y hy
      rcases List.mem_append.mp hy with hy | hy
      · exact hmid hy
      · exact h.not_popped_of_taken hb (List.mem_reverse.mp hy))
    simpa [owned, hf, hb] using hn
  · have hn := h.net t (L.taken .front ++ L.mid) (by
      intro y hy
      rcases List.mem_append.mp hy with hy | hy
      · exact h.not_popped_of_taken hf hy
      · exact hmid hy)
    simpa [owned, hf, hb] using hn
  · have hn := h.net t (L.taken .front ++ (L.mid ++ (L.taken .back).reverse)) (by
      intro y hy
      rcases List.mem_append.mp hy with hy | hy
      · exact h.not_popped_of_taken hf hy
      · rcases List.mem_append.mp hy with hy | hy
        · exact hmid hy
        · exact h.not_popped_of_taken hb (List.mem_reverse.mp hy))
    simpa [owned, hf, hb] using hn

theorem Core.settle (h : Core d L led) {t : TxnId}
    (hi : ∀ e, d.txnId e = 0 → t ≠ 0 → Idle d L e)
    (hf : (release d t).txnId .front = 0 → KeepsCursor d L .front)
    (hb : (release d t).txnId .back = 0 → (release d t).txnId .front ≠ 0 → KeepsCursor d L .back) :
    ∃ d', objectCommit (release d t) = some d' ∧
      Core d' (L.settled (release d t)) (led.settle t) ∧
      d'.pending = (fun e => if (release d t).txnId e = 0 then [] else d.pending e) ∧
      d'.txnId = (release d t).txnId := by
  have hrep : Rep (release d t) L := ⟨h.rep.data, h.rep.removed⟩
  have hdis : Distinct (release d t) := ⟨h.distinct.nodup, h.distinct.fresh⟩
  obtain ⟨d', hc, hr', hp', ht', hn'⟩ := hrep.objectCommit hdis hf hb
  have hend (e : End) : (if d.txnId e = t then d.pending e else L.taken e) =
      (if (release d t).txnId e = 0 then d.pending e else L.taken e) := by
    by_cases he : d.txnId e = t
    · simp [release, he]
    · by_cases h0 : d.txnId e = 0
      · have hidle := hi e h0 (fun hc => he (h0.trans hc.symm))
        simp [release, h0, hidle.1, hidle.2]
      · simp [release, he, h0]
  refine ⟨d', hc, ⟨hdis.objectCommit hc, hr', ?_, ?_, h.nodup, ?_, ?_, ?_, ?_⟩, hp', ht'⟩
  · rw [hr'.data, Ledger.settle, h.seq, h.effect_data, hend, hend]
    simp only [Layout.walk, Layout.settled, view, End.other]
    have hb' : (release d t).pending = d.pending := rfl
    rw [hb']
    by_cases hf0 : (release d t).txnId .front = 0 <;>
      by_cases hb0 : (release d t).txnId .back = 0 <;> simp [hf0, hb0]
  · intro t' m hm
    by_cases htt : t' = t
    · subst htt
      have ho (f : End → List (Entry α)) (hf : ∀ e, (release d t').txnId e = 0 → f e = []) (e : End) :
          owned d' t' f e = [] := by
        rw [owned, ht']
        split_ifs with he
        · apply hf
          by_contra hc
          simp only [release] at he hc
          split_ifs at he hc with hq
          · exact hc rfl
          · exact hq he
        · rfl
      rw [ho _ (fun e h0 => by simp [Layout.settled, h0]), ho _ (fun e h0 => by simp [Layout.settled, h0]),
        ho _ (fun e h0 => by simp [hp', h0]), ho _ (fun e h0 => by simp [hp', h0])]
      simp [Ledger.settle, effect]
    · simp only [Ledger.settle, Function.update_of_ne htt] at hm ⊢
      have hn := h.net t' m hm
      have ho (e : End) : owned d' t' (L.settled (release d t)).taken e = owned d t' L.taken e ∧
          owned d' t' d'.pending e = owned d t' d.pending e := by
        simp only [owned, ht', hp', Layout.settled, release]
        by_cases he : d.txnId e = t
        · simp [he, Ne.symm htt]
        · by_cases h0 : d.txnId e = 0
          · have hidle := hi e h0 (fun hc => he (h0.trans hc.symm))
            simp [h0, hidle.1, hidle.2]
          · simp [he, h0]
      rw [(ho _).1, (ho _).1, (ho _).2, (ho _).2]
      exact hn
  · intro p hp
    refine ⟨?_, ?_⟩
    · intro y hy
      simp only [Layout.settled, List.mem_append, List.mem_reverse] at hy
      rcases hy with hy | hy | hy
      · split_ifs at hy
        · exact (h.gone p hp).2 _ y hy
        · simp at hy
      · exact (h.gone p hp).1 y hy
      · split_ifs at hy
        · exact (h.gone p hp).2 _ y hy
        · simp at hy
    · intro e y hy
      rw [hp'] at hy
      simp only at hy
      split_ifs at hy
      · simp at hy
      · exact (h.gone p hp).2 e y hy
  · intro e y hy
    simp only [Layout.settled] at hy
    split_ifs at hy with h0
    · simp at hy
    · have he : d.txnId e ≠ t := fun hc => h0 (by simp [release, hc])
      rw [ht']
      simpa [release, he, Ledger.settle] using h.taken e y hy
  · intro t' a ha
    by_cases htt : t' = t
    · simp [Ledger.settle, htt, pops] at ha
    · simp only [Ledger.settle, Function.update_of_ne htt] at ha
      exact h.acts t' a ha
  · intro p hp
    exact hn' ▸ h.old p hp

/-- Every end of a caller is given up. -/
def abandon (d : State α) (t : TxnId) : State α :=
  { d with
      pending := fun e => if d.txnId e = t then [] else d.pending e
      removed := fun e => if d.txnId e = t then none else d.removed e
      txnId := fun e => if d.txnId e = t then 0 else d.txnId e }

/-- The layout with what a caller took made available again. -/
def Layout.abandoned (L : Layout α) (d : State α) (t : TxnId) : Layout α :=
  { taken := fun e => if d.txnId e = t then [] else L.taken e
    mid := (if d.txnId .front = t then L.taken .front else []) ++
      (L.mid ++ (if d.txnId .back = t then L.taken .back else []).reverse) }

theorem Rep.abandon (h : Rep d L) (t : TxnId) : Rep (abandon d t) (L.abandoned d t) := by
  constructor
  · have hw : d.data = L.taken .front ++ (L.mid ++ (L.taken .back).reverse) := h.data
    by_cases hf : d.txnId .front = t <;> by_cases hb : d.txnId .back = t <;>
      simp [Deque.abandon, Layout.walk, Layout.abandoned, view, End.other, hf, hb, hw]
  · intro e
    by_cases he : d.txnId e = t
    · simp [Deque.abandon, Layout.cursor, Layout.abandoned, he]
    · simp only [Deque.abandon, he, if_false, h.removed, Layout.cursor, Layout.abandoned]
      cases e with
      | front =>
        by_cases ho : d.txnId .back = t <;> simp [End.other, view, he, ho]
      | back =>
        by_cases ho : d.txnId .front = t <;> simp [End.other, view, he, ho]

theorem Core.abandon (h : Core d L led) {t : TxnId} (ht : t ≠ 0) :
    Core (abandon d t) (L.abandoned d t) (led.forget t) where
  distinct := by
    refine h.distinct.of_subperm (List.Sublist.subperm ?_) le_rfl
    refine (List.Sublist.refl _).append ?_
    by_cases hf : d.txnId .front = t <;> by_cases hb : d.txnId .back = t <;>
      simp [Deque.abandon, hf, hb]
  rep := h.rep.abandon t
  seq := h.seq
  net t' m hm := by
    by_cases htt : t' = t
    · subst htt
      have ho (f : End → List (Entry α)) (e : End) : owned (Deque.abandon d t') t' f e = [] := by
        simp only [owned, Deque.abandon]
        by_cases he : d.txnId e = t' <;> simp [he, Ne.symm ht]
      simp [ho, Ledger.forget, effect]
    · simp only [Ledger.forget, Function.update_of_ne htt] at hm ⊢
      have ho (e : End) :
          owned (Deque.abandon d t) t' (L.abandoned d t).taken e = owned d t' L.taken e ∧
          owned (Deque.abandon d t) t' (Deque.abandon d t).pending e = owned d t' d.pending e := by
        simp only [owned, Deque.abandon, Layout.abandoned]
        by_cases he : d.txnId e = t
        · simp [he, Ne.symm htt]
        · simp [he]
      rw [(ho _).1, (ho _).1, (ho _).2, (ho _).2]
      exact h.net t' m hm
  nodup := (List.filter_sublist.map Prod.snd).nodup h.nodup
  gone p hp := by
    simp only [Ledger.forget, List.mem_filter, decide_eq_true_eq] at hp
    have htaken (e : End) (y : Entry α) (he : d.txnId e = t) (hy : y ∈ L.taken e) : y.addr ≠ p.2 := by
      intro hc
      have hd := h.taken e y hy
      rw [hc] at hd
      exact hp.2 ((h.owner_unique hd hp.1).symm.trans he)
    refine ⟨?_, ?_⟩
    · intro y hy
      simp only [Layout.abandoned, List.mem_append, List.mem_reverse] at hy
      rcases hy with hy | hy | hy
      · split_ifs at hy with he
        · exact htaken _ y he hy
        · simp at hy
      · exact (h.gone p hp.1).1 y hy
      · split_ifs at hy with he
        · exact htaken _ y he hy
        · simp at hy
    · intro e y hy
      simp only [Deque.abandon] at hy
      split_ifs at hy
      · simp at hy
      · exact (h.gone p hp.1).2 e y hy
  taken e y hy := by
    simp only [Layout.abandoned] at hy
    split_ifs at hy with he
    · simp at hy
    · simp only [Ledger.forget, Deque.abandon, he, if_false, List.mem_filter, decide_eq_true_eq]
      exact ⟨h.taken e y hy, he⟩
  acts t' a ha := by
    by_cases htt : t' = t
    · simp [Ledger.forget, htt, pops] at ha
    · simp only [Ledger.forget, Function.update_of_ne htt] at ha
      simp only [Ledger.forget, List.mem_filter, decide_eq_true_eq]
      exact ⟨h.acts t' a ha, htt⟩
  old p hp := h.old p (List.mem_of_mem_filter hp)

end RaleighSL.Objects.Deque
