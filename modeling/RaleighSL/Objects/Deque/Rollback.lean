import RaleighSL.Objects.Deque.Interleaving

/-!
# Rollback of a deque transaction

A transaction that only pops at ends it already holds has an atom for every end
it holds. Its requests never touch the data list, and its rollback gives up both
ends, unless the back atom was registered first and the back still holds something.
Nothing is asked of the requests of the others, except that the run has a result.
-/
namespace RaleighSL.Objects.Deque
open RaleighSL.Core RaleighSL.Library

variable {α : Type*}

def Request.user : Request α → TxnId
  | .push t _ _ => t
  | .pop t _ => t
  | .apply t => t
  | .revert t => t

/-- A pop of the transaction from the data happens at an end that it holds already, and its rollback
does not meet the back atom first while the back holds something. -/
def RollbackOk (t : TxnId) (s : System α) : Request α → Prop
  | .pop t' e => t' = t → s.deque.pending e = [] → s.deque.removed e ≠ some .head → s.deque.data ≠ [] →
      s.deque.txnId e ≠ 0
  | .revert t' => t' = t → s.atoms t = [.back, .front] → s.deque.pending .back = [] ∧ s.deque.removed .back = none
  | _ => True

instance (t : TxnId) (s : System α) : (req : Request α) → Decidable (RollbackOk t s req)
  | .push _ _ _ => .isTrue trivial
  | .pop t' e => inferInstanceAs (Decidable (t' = t → s.deque.pending e = [] → _ → _ → _))
  | .apply _ => .isTrue trivial
  | .revert t' => inferInstanceAs (Decidable (t' = t → s.atoms t = _ → _))

/-- An end that nobody holds has nothing pending and no cursor. -/
def Settled (d : State α) : Prop := ∀ e, d.txnId e = 0 → d.pending e = [] ∧ d.removed e = none

variable {d d' : State α} {s s' : System α} {h h' : List (Event α)} {t t' : TxnId} {e : End} {ev : Event α}

theorem commitEnd_self (hc : commitEnd d e = some d') : d'.pending e = [] ∧ d'.removed e = none := by
  simp only [commitEnd, Option.map_eq_some_iff] at hc
  obtain ⟨l, -, rfl⟩ := hc
  simp

/-- One half of the commit, whether it settles its end or not. -/
theorem commitEnd_if (hc : (if d.txnId e = 0 then commitEnd d e else some d) = some d') :
    d'.txnId = d.txnId ∧ d'.nextAddr = d.nextAddr ∧ (∀ e' y, y ∈ d'.pending e' → y ∈ d.pending e') ∧
      (d.txnId e = 0 → d'.pending e = [] ∧ d'.removed e = none) ∧
      (d'.pending e.other = d.pending e.other ∧ d'.removed e.other = d.removed e.other) := by
  split_ifs at hc with h0
  · obtain ⟨htxn, hother⟩ := commitEnd_frame hc
    have hself := commitEnd_self hc
    have hnext : d'.nextAddr = d.nextAddr := by
      simp only [commitEnd, Option.map_eq_some_iff] at hc
      obtain ⟨l, -, rfl⟩ := hc
      rfl
    refine ⟨htxn, hnext, ?_, fun _ => hself, hother⟩
    intro e' y hy
    by_cases he : e' = e
    · rw [he, hself.1] at hy
      exact absurd hy List.not_mem_nil
    · rw [eq_other_of_ne he] at hy ⊢
      rwa [← hother.1]
  · obtain rfl := Option.some.inj hc
    exact ⟨rfl, rfl, fun _ _ hy => hy, fun hc => absurd hc h0, rfl, rfl⟩

theorem objectCommit_settled (hc : objectCommit d = some d') :
    d'.txnId = d.txnId ∧ d'.nextAddr = d.nextAddr ∧ (∀ e y, y ∈ d'.pending e → y ∈ d.pending e) ∧ Settled d' := by
  rw [objectCommit, Option.bind_eq_some_iff] at hc
  obtain ⟨d₁, h₁, h₂⟩ := hc
  obtain ⟨htxn₁, hnext₁, hsub₁, hself₁, hother₁⟩ := commitEnd_if h₁
  obtain ⟨htxn₂, hnext₂, hsub₂, hself₂, hother₂⟩ := commitEnd_if h₂
  refine ⟨htxn₂.trans htxn₁, hnext₂.trans hnext₁, fun e y hy => hsub₁ e y (hsub₂ e y hy), ?_⟩
  intro e h0
  rw [htxn₂] at h0
  cases e with
  | front =>
    have hf := hself₁ (htxn₁ ▸ h0)
    exact ⟨hother₂.1.trans hf.1, hother₂.2.trans hf.2⟩
  | back => exact hself₂ h0

theorem Settled.commit (hs : Settled d) : objectCommit d = some d := objectCommit_idle hs

/-- What is known of a transaction between two requests: its atoms are its ends, and what it pushed
is pending at an end it holds or not pending at all. -/
structure Tracked (t : TxnId) (s : System α) (h : List (Event α)) : Prop where
  distinct : Distinct s.deque
  mem : ∀ e, e ∈ s.atoms t ↔ s.deque.txnId e = t
  nodup : (s.atoms t).Nodup
  own : ∀ t' e, e ∈ s.atoms t' → t' ≠ 0 ∧ s.deque.txnId e = t'
  opened : t ∉ s.ended
  pushed : ∀ e x, .pushed t e x ∈ h → x.addr < s.deque.nextAddr ∧
    ∀ e', ∀ y ∈ s.deque.pending e', y.addr = x.addr → s.deque.txnId e' = t

/-- A change that gives the transaction no end, takes none from it and adds nothing pending. -/
theorem Tracked.change (ht : Tracked t s h) (hd : Distinct s'.deque) (hnext : s'.deque.nextAddr = s.deque.nextAddr)
    (hpend : ∀ e y, y ∈ s'.deque.pending e → y ∈ s.deque.pending e)
    (hkeep : ∀ e, s'.deque.txnId e = t ↔ s.deque.txnId e = t) (hatoms : s'.atoms t = s.atoms t)
    (hown : ∀ t' e, e ∈ s'.atoms t' → t' ≠ 0 ∧ s'.deque.txnId e = t') (hopen : t ∉ s'.ended)
    (hev : ∀ e x, .pushed t e x ∈ h' → .pushed t e x ∈ h) : Tracked t s' h' where
  distinct := hd
  mem e := by rw [hatoms, ht.mem, hkeep]
  nodup := hatoms ▸ ht.nodup
  own := hown
  opened := hopen
  pushed e x hx := by
    obtain ⟨hlt, hpending⟩ := ht.pushed e x (hev e x hx)
    refine ⟨hnext ▸ hlt, ?_⟩
    intro e' y hy hxy
    exact (hkeep e').mpr (hpending e' y (hpend e' y hy) hxy)

theorem Tracked.commit {atoms : TxnId → List End} {ended : List TxnId}
    (ht : Tracked t { deque := d, atoms := atoms, ended := ended } h) (hc : objectCommit d = some d') :
    Tracked t { deque := d', atoms := atoms, ended := ended } h := by
  obtain ⟨htxn, hnext, hsub, -⟩ := objectCommit_settled hc
  refine ht.change (ht.distinct.objectCommit hc) hnext hsub (fun e => by rw [htxn]) rfl ?_ ht.opened (fun _ _ hx => hx)
  intro t' e he
  have hown := ht.own t' e he
  exact ⟨hown.1, by rw [htxn]; exact hown.2⟩

theorem Tracked.event (ht : Tracked t s h) (hev : ∀ e x, ev ≠ .pushed t e x) : Tracked t s (h ++ [ev]) := by
  refine ht.change ht.distinct rfl (fun _ _ hy => hy) (fun _ => Iff.rfl) rfl ht.own ht.opened ?_
  intro e x hx
  exact (List.mem_append.mp hx).resolve_right (fun hc => hev e x (List.mem_singleton.mp hc).symm)

/-! ### Pushes and pops -/

theorem pop_cases {r : Errno} {x : Option (Entry α)} (hp : pop d t e = some (d', r, x)) :
    d' = d ∨ (∃ y l, d.pending e = y :: l ∧ d' = { d with pending := Function.update d.pending e l }) ∨
      (d.pending e = [] ∧ d.removed e ≠ some .head ∧ d.data ≠ [] ∧ (d.txnId e = 0 ∨ d.txnId e = t) ∧
        ∃ c, d' = { d with removed := Function.update d.removed e (some c), txnId := Function.update d.txnId e t }) ∨
      (d.pending e.other ≠ [] ∧
        d' = { d with pending := Function.update d.pending e.other (d.pending e.other).dropLast }) := by
  rw [pop] at hp
  split_ifs at hp with hlock hdata
  · exact Or.inl (Prod.mk.inj (Option.some.inj hp)).1.symm
  · cases hpend : d.pending e with
    | cons y l =>
      rw [hpend] at hp
      exact Or.inr (Or.inl ⟨y, l, rfl, (Prod.mk.inj (Option.some.inj hp)).1.symm⟩)
    | nil =>
      simp only [hpend, popData, Option.map_map, Option.map_eq_some_iff] at hp
      obtain ⟨q, -, hq⟩ := hp
      have hown : d.txnId e = 0 ∨ d.txnId e = t := by
        by_cases h0 : d.txnId e = 0
        · exact Or.inl h0
        · exact Or.inr (not_not.mp fun hc => hlock ⟨Nat.pos_of_ne_zero h0, hc⟩)
      exact Or.inr (Or.inr (Or.inl ⟨rfl, hdata.1, hdata.2, hown, q.2, (Prod.mk.inj hq).1.symm⟩))
  · cases hpend : d.pending e with
    | cons y l =>
      rw [hpend] at hp
      exact Or.inr (Or.inl ⟨y, l, rfl, (Prod.mk.inj (Option.some.inj hp)).1.symm⟩)
    | nil =>
      simp only [hpend] at hp
      cases hlast : (d.pending e.other).getLast? with
      | none =>
        rw [hlast] at hp
        exact Or.inl (Prod.mk.inj (Option.some.inj hp)).1.symm
      | some y =>
        rw [hlast] at hp
        refine Or.inr (Or.inr (Or.inr ⟨?_, (Prod.mk.inj (Option.some.inj hp)).1.symm⟩))
        intro hc
        simp [hc] at hlast

theorem mem_update_pending {p : End → List (Entry α)} {l : List (Entry α)} (hl : ∀ y ∈ l, y ∈ p e) (e' : End)
    (y : Entry α) (hy : y ∈ Function.update p e l e') : y ∈ p e' := by
  by_cases he : e' = e
  · subst he
    rw [Function.update_self] at hy
    exact hl y hy
  · rwa [Function.update_of_ne he] at hy

theorem Tracked.pop (ht : Tracked t s h) (h0 : t ≠ 0) {r : Errno} {x : Option (Entry α)}
    (hok : RollbackOk t s (.pop t' e)) (hp : Deque.pop s.deque t' e = some (d, r, x)) :
    Tracked t { s with deque := d } h := by
  have hd := ht.distinct.pop hp
  rcases pop_cases hp with rfl | ⟨y, l, hpend, rfl⟩ | ⟨hpend, hr, hdata, hown, c, rfl⟩ | ⟨hne, rfl⟩
  · exact ht
  · refine ht.change hd rfl (mem_update_pending ?_) (fun _ => Iff.rfl) rfl ht.own ht.opened (fun _ _ hx => hx)
    intro z hz
    rw [hpend]
    exact List.mem_cons_of_mem _ hz
  · have hkeep (e' : End) : Function.update s.deque.txnId e t' e' = t ↔ s.deque.txnId e' = t := by
      by_cases he : e' = e
      · subst he
        rw [Function.update_self]
        rcases hown with hzero | hown
        · have hne : t' ≠ t := fun hc => hok hc hpend hr hdata hzero
          rw [hzero]
          exact ⟨fun hc => absurd hc hne, fun hc => absurd hc.symm h0⟩
        · rw [hown]
      · rw [Function.update_of_ne he]
    refine ht.change hd rfl (fun _ _ hy => hy) hkeep rfl ?_ ht.opened (fun _ _ hx => hx)
    intro t'' e' he'
    obtain ⟨hne, htxn⟩ := ht.own t'' e' he'
    refine ⟨hne, ?_⟩
    show Function.update s.deque.txnId e t' e' = t''
    by_cases he : e' = e
    · subst he
      rw [Function.update_self, ← htxn]
      exact ((hown.resolve_left (htxn.trans_ne hne)).symm)
    · rwa [Function.update_of_ne he]
  · exact ht.change hd rfl (mem_update_pending (fun z hz => List.dropLast_subset _ hz)) (fun _ => Iff.rfl) rfl ht.own
      ht.opened (fun _ _ hx => hx)

theorem Settled.pop (hs : Settled s.deque) (h0 : t ≠ 0) {r : Errno} {x : Option (Entry α)}
    (hok : RollbackOk t s (.pop t e)) (hp : Deque.pop s.deque t e = some (d, r, x)) :
    Settled d ∧ d.data = s.deque.data := by
  rcases pop_cases hp with rfl | ⟨y, l, hpend, rfl⟩ | ⟨hpend, hr, hdata, hown, c, rfl⟩ | ⟨hne, rfl⟩
  · exact ⟨hs, rfl⟩
  · refine ⟨?_, rfl⟩
    intro e' he'
    have hee : e' ≠ e := by
      rintro rfl
      simp [(hs e' he').1] at hpend
    simpa [Function.update_of_ne hee] using hs e' he'
  · refine ⟨?_, rfl⟩
    intro e' he'
    have hee : e' ≠ e := by
      rintro rfl
      exact h0 (by simpa using he')
    simp only [Function.update_of_ne hee] at he' ⊢
    exact hs e' he'
  · refine ⟨?_, rfl⟩
    intro e' he'
    have hee : e' ≠ e.other := by
      rintro rfl
      exact hne (hs _ he').1
    simpa [Function.update_of_ne hee] using hs e' he'

/-- The atoms after a push that registers its end if the caller did not hold it. -/
def registered (s : System α) (t : TxnId) (e : End) : TxnId → List End :=
  if t ≠ 0 ∧ t ≠ s.deque.txnId e then Function.update s.atoms t (s.atoms t ++ [e]) else s.atoms

theorem mem_registered (e' : End) : e' ∈ registered s t' e t ↔
    e' ∈ s.atoms t ∨ (e' = e ∧ t = t' ∧ t' ≠ 0 ∧ t' ≠ s.deque.txnId e) := by
  rw [registered]
  split_ifs with hr
  · by_cases htt : t = t'
    · subst htt
      simp [hr.1, hr.2]
    · simp [htt]
  · simp only [not_and, not_not] at hr
    constructor
    · exact Or.inl
    · rintro (hm | ⟨-, -, hne, hc⟩)
      · exact hm
      · exact absurd (hr hne) hc

theorem Tracked.push (ht : Tracked t s h) (h0 : t ≠ 0) (he : s.deque.txnId e = 0 ∨ s.deque.txnId e = t') (x : α) :
    Tracked t { s with deque := addPending s.deque t' e x, atoms := registered s t' e }
      (h ++ [.pushed t' e ⟨s.deque.nextAddr, x⟩]) where
  distinct := ht.distinct.addPending t' e x
  mem e' := by
    rw [mem_registered, ht.mem]
    simp only [addPending]
    by_cases hee : e' = e
    · subst hee
      rw [Function.update_self]
      rcases he with he | he
      · simp [he, h0.symm, eq_comm]
        rintro rfl
        exact h0
      · simp [he]
    · simp [hee]
  nodup := by
    simp only [registered]
    split_ifs with hr
    · by_cases htt : t = t'
      · subst htt
        rw [Function.update_self, List.nodup_append]
        refine ⟨ht.nodup, by simp, ?_⟩
        intro a ha b hb hab
        rw [List.mem_singleton.mp hb] at hab
        exact hr.2 ((ht.mem e).mp (hab ▸ ha)).symm
      · rw [Function.update_of_ne htt]
        exact ht.nodup
    · exact ht.nodup
  own t'' e' he' := by
    rw [mem_registered] at he'
    simp only [addPending]
    rcases he' with he' | ⟨rfl, rfl, hne, -⟩
    · obtain ⟨hne, htxn⟩ := ht.own t'' e' he'
      refine ⟨hne, ?_⟩
      by_cases hee : e' = e
      · subst hee
        rw [Function.update_self, ← htxn]
        exact (he.resolve_left (htxn.trans_ne hne)).symm
      · rwa [Function.update_of_ne hee]
    · exact ⟨hne, Function.update_self ..⟩
  opened := ht.opened
  pushed e₁ x₁ hx₁ := by
    have hstock {e' : End} {y : Entry α} (hy : y ∈ s.deque.pending e') : y.addr < s.deque.nextAddr := by
      apply ht.distinct.fresh
      cases e' <;> simp [stock, hy]
    simp only [addPending]
    rcases List.mem_append.mp hx₁ with hx₁ | hx₁
    · obtain ⟨hlt, hpend⟩ := ht.pushed e₁ x₁ hx₁
      refine ⟨hlt.trans (Nat.lt_succ_self _), ?_⟩
      intro e' y hy hxy
      by_cases hee : e' = e
      · subst hee
        rw [Function.update_self, List.mem_cons] at hy
        rw [Function.update_self]
        rcases hy with rfl | hy
        · exact absurd hxy hlt.ne'
        · have hown := hpend e' y hy hxy
          rcases he with he | he
          · exact absurd (hown.symm.trans he) h0
          · exact he.symm.trans hown
      · rw [Function.update_of_ne hee] at hy ⊢
        exact hpend e' y hy hxy
    · obtain ⟨rfl, rfl, rfl⟩ := Event.pushed.inj (List.mem_singleton.mp hx₁)
      refine ⟨Nat.lt_succ_self _, ?_⟩
      intro e' y hy hxy
      by_cases hee : e' = e₁
      · rw [hee, Function.update_self]
      · rw [Function.update_of_ne hee] at hy
        exact absurd hxy (hstock hy).ne

/-! ### The end of a transaction -/

structure Releases (d : State α) (es : List End) (d' : State α) : Prop where
  distinct : Distinct d → Distinct d'
  nextAddr : d'.nextAddr = d.nextAddr
  pending : ∀ e y, y ∈ d'.pending e → y ∈ d.pending e
  txnId : ∀ e, d'.txnId e = if e ∈ es then 0 else d.txnId e

theorem releases_apply (d : State α) (es : List End) : Releases d es (es.foldl objectApply d) := by
  rw [foldl_objectApply]
  exact ⟨fun hd => ⟨hd.nodup, hd.fresh⟩, rfl, fun _ _ hy => hy, fun _ => rfl⟩

theorem releases_revert (d : State α) (es : List End) : Releases d es (es.foldl objectRevert d) := by
  induction es generalizing d with
  | nil => exact ⟨id, rfl, fun _ _ hy => hy, by simp⟩
  | cons e es ih =>
    rw [List.foldl_cons]
    have hrest := ih (objectRevert d e)
    refine ⟨fun hd => hrest.distinct (hd.objectRevert e), hrest.nextAddr, ?_, ?_⟩
    · intro e' y hy
      exact mem_update_pending (by simp) e' y (hrest.pending e' y hy)
    · intro e'
      rw [hrest.txnId e']
      by_cases he : e' = e
      · subst he
        simp [objectRevert]
      · simp [objectRevert, he]

theorem Tracked.finish (ht : Tracked t s h) (h0 : t ≠ 0) (hne : t' ≠ t) (hr : Releases s.deque (s.atoms t') d)
    (ev : Event α) (hev : ∀ e x, ev ≠ .pushed t e x) :
    Tracked t { deque := d, atoms := Function.update s.atoms t' [], ended := t' :: s.ended } (h ++ [ev]) := by
  have hopen : t ∉ t' :: s.ended := by
    rw [List.mem_cons, not_or]
    exact ⟨hne.symm, ht.opened⟩
  refine (ht.event hev).change (hr.distinct ht.distinct) hr.nextAddr hr.pending ?_ (Function.update_of_ne hne.symm _ _)
    ?_ hopen (fun _ _ hx => hx)
  · intro e
    simp only [hr.txnId e]
    split_ifs with hm
    · rw [(ht.own t' e hm).2]
      exact ⟨fun hc => absurd hc.symm h0, fun hc => absurd hc hne⟩
    · exact Iff.rfl
  · intro t'' e he
    by_cases htt : t'' = t'
    · simp [htt] at he
    · simp only [Function.update_of_ne htt] at he
      obtain ⟨hz, htxn⟩ := ht.own t'' e he
      have hm : e ∉ s.atoms t' := fun hc => htt (htxn.symm.trans (ht.own t' e hc).2)
      refine ⟨hz, ?_⟩
      simp only [hr.txnId e, if_neg hm]
      exact htxn

theorem finish_eq (hs : Settled s.deque) (f : State α → End → State α) :
    finish s t f = (objectCommit ((s.atoms t).foldl f s.deque)).map (fun d =>
      { deque := d, atoms := Function.update s.atoms t [], ended := t :: s.ended }) := by
  rw [finish]
  split_ifs with hat
  · rw [hat, List.foldl_nil, hs.commit]
  · rfl

/-! ### Runs -/

theorem serve_push_eq {x : α} (hne : t' ∉ s.ended) (hlock : ¬ (0 < s.deque.txnId e ∧ s.deque.txnId e ≠ t')) :
    serve s (.push t' e x) = (objectCommit (addPending s.deque t' e x)).map (fun d =>
      ({ s with deque := d, atoms := registered s t' e }, .pushed t' e ⟨s.deque.nextAddr, x⟩)) := by
  simp [serve, hne, push, hlock, registered]

theorem Tracked.serve (ht : Tracked t s h) (hs : Settled s.deque) (h0 : t ≠ 0) {r : Request α}
    (hopen : r ≠ .apply t ∧ r ≠ .revert t) (hok : RollbackOk t s r) (hserve : Deque.serve s r = some (s', ev)) :
    (Tracked t s' (h ++ [ev]) ∧ Settled s'.deque) ∧ (r.user = t → s'.deque.data = s.deque.data) := by
  have hsame {c : Errno} (hc : some (s, Event.refused c) = some (s', ev)) :
      (Tracked t s' (h ++ [ev]) ∧ Settled s'.deque) ∧ (r.user = t → s'.deque.data = s.deque.data) := by
    obtain ⟨rfl, rfl⟩ := Prod.mk.inj (Option.some.inj hc)
    exact ⟨⟨ht.event (by simp), hs⟩, fun _ => rfl⟩
  cases r with
  | push t' e x =>
    by_cases hne : t' ∈ s.ended
    · rw [Deque.serve, if_pos hne] at hserve
      exact hsame hserve
    by_cases hlock : 0 < s.deque.txnId e ∧ s.deque.txnId e ≠ t'
    · simp only [Deque.serve, hne, if_false, Deque.push, hlock, and_self, ne_eq, not_false_eq_true, if_true, hs.commit,
        Option.map_some, Bool.false_eq_true, reduceCtorEq] at hserve
      exact hsame hserve
    rw [serve_push_eq hne hlock, Option.map_eq_some_iff] at hserve
    obtain ⟨d, hc, heq⟩ := hserve
    obtain ⟨rfl, rfl⟩ := Prod.mk.inj heq
    have he : s.deque.txnId e = 0 ∨ s.deque.txnId e = t' := by
      by_cases hz : s.deque.txnId e = 0
      · exact Or.inl hz
      · exact Or.inr (not_not.mp fun hc => hlock ⟨Nat.pos_of_ne_zero hz, hc⟩)
    refine ⟨⟨(ht.push h0 he x).commit hc, (objectCommit_settled hc).2.2.2⟩, ?_⟩
    rintro rfl
    have hset : Settled (addPending s.deque t' e x) := by
      intro e' he'
      have hee : e' ≠ e := by
        rintro rfl
        exact h0 (by simpa [addPending, Request.user] using he')
      simp only [addPending, Function.update_of_ne hee] at he' ⊢
      exact hs e' he'
    rw [hset.commit] at hc
    rw [← Option.some.inj hc]
    rfl
  | pop t' e =>
    by_cases hne : t' ∈ s.ended
    · rw [Deque.serve, if_pos hne] at hserve
      exact hsame hserve
    rw [Deque.serve, if_neg hne, Option.bind_eq_some_iff] at hserve
    obtain ⟨⟨d, c, x⟩, hp, hserve⟩ := hserve
    rw [Option.map_eq_some_iff] at hserve
    obtain ⟨d', hc, heq⟩ := hserve
    obtain ⟨rfl, rfl⟩ := Prod.mk.inj heq
    refine ⟨⟨?_, (objectCommit_settled hc).2.2.2⟩, ?_⟩
    · apply Tracked.event ((ht.pop h0 hok hp).commit hc)
      intro e' x'
      cases x <;> simp
    · rintro rfl
      obtain ⟨hset, hdata⟩ := hs.pop h0 hok hp
      rw [hset.commit] at hc
      rw [← Option.some.inj hc]
      exact hdata
  | apply t' =>
    have hne : t' ≠ t := fun hc => hopen.1 (hc ▸ rfl)
    rw [Deque.serve] at hserve
    split_ifs at hserve
    · exact hsame hserve
    rw [finish_eq hs, Option.map_map, Option.map_eq_some_iff] at hserve
    obtain ⟨d, hc, heq⟩ := hserve
    obtain ⟨rfl, rfl⟩ := Prod.mk.inj heq
    have hfin := ht.finish h0 hne (releases_apply s.deque (s.atoms t')) (.applied t') (by simp)
    exact ⟨⟨hfin.commit hc, (objectCommit_settled hc).2.2.2⟩, fun hc => absurd hc hne⟩
  | revert t' =>
    have hne : t' ≠ t := fun hc => hopen.2 (hc ▸ rfl)
    rw [Deque.serve] at hserve
    split_ifs at hserve
    · exact hsame hserve
    rw [finish_eq hs, Option.map_map, Option.map_eq_some_iff] at hserve
    obtain ⟨d, hc, heq⟩ := hserve
    obtain ⟨rfl, rfl⟩ := Prod.mk.inj heq
    have hfin := ht.finish h0 hne (releases_revert s.deque (s.atoms t')) (.reverted t') (by simp)
    exact ⟨⟨hfin.commit hc, (objectCommit_settled hc).2.2.2⟩, fun hc => absurd hc hne⟩

theorem tracked_init (hq : Quiet d) (h0 : t ≠ 0) : Tracked t (System.init d) [] where
  distinct := hq.distinct
  mem e := by simp [System.init, hq.txnId, h0.symm]
  nodup := List.nodup_nil
  own := by simp [System.init]
  opened := by simp [System.init]
  pushed := by simp

theorem Tracked.run (hq : Quiet d) (h0 : t ≠ 0) {reqs : List (Request α)}
    (hopen : ∀ r ∈ reqs, r ≠ .apply t ∧ r ≠ .revert t) (hok : Meets Deque.serve (RollbackOk t) (System.init d) reqs)
    (he : exec Deque.serve (System.init d) reqs = some (s, h)) : Tracked t s h ∧ Settled s.deque := by
  have hrun := exec_events (I := fun s h => Tracked t s h ∧ Settled s.deque)
    (fun s h r s' ev hI hok hserve => (hI.1.serve hI.2 h0 hok.1 hok.2 hserve).1)
    ⟨tracked_init hq h0, fun e _ => ⟨hq.pending e, hq.removed e⟩⟩ (hok.and_forall hopen) he
  simpa using hrun

/-- The requests of an open transaction leave the data list as it is, and so does its rollback, which
leaves none of its entries pending and none of its ends locked. -/
theorem revert_restores (hq : Quiet d) (h0 : t ≠ 0) {reqs : List (Request α)}
    (hopen : ∀ r ∈ reqs, r ≠ .apply t ∧ r ≠ .revert t)
    (hok : Meets serve (RollbackOk t) (System.init d) (reqs ++ [.revert t]))
    (he : exec serve (System.init d) reqs = some (s, h)) :
    (∀ pre r post s₁ h₁ s₂ ev, reqs = pre ++ r :: post → r.user = t →
        exec serve (System.init d) pre = some (s₁, h₁) → serve s₁ r = some (s₂, ev) →
          s₂.deque.data = s₁.deque.data) ∧
      ∃ s', serve s (.revert t) = some (s', .reverted t) ∧ s'.deque.data = s.deque.data ∧
        (∀ e, s'.deque.txnId e = if s.deque.txnId e = t then 0 else s.deque.txnId e) ∧
        (∀ e x, .pushed t e x ∈ h → ∀ e', ∀ y ∈ s'.deque.pending e', y.addr ≠ x.addr) ∧
        ∀ e, s.deque.txnId e ≠ t →
          s'.deque.pending e = s.deque.pending e ∧ s'.deque.removed e = s.deque.removed e := by
  constructor
  · intro pre r post s₁ h₁ s₂ ev hreqs huser hpre hserve
    subst hreqs
    rw [List.append_assoc] at hok
    obtain ⟨hokpre, hokr⟩ := hok.of_append hpre
    obtain ⟨ht, hs⟩ := Tracked.run hq h0 (fun q hq => hopen q (List.mem_append_left _ hq)) hokpre hpre
    exact (ht.serve hs h0 (hopen r (by simp)) hokr.1 hserve).2 huser
  · obtain ⟨hokreqs, hokrev⟩ := hok.of_append he
    obtain ⟨ht, hs⟩ := Tracked.run hq h0 hopen hokreqs he
    have hfold := foldl_objectRevert h0 ht.mem ht.nodup (hokrev.1 rfl)
    have hset : Settled (abandon s.deque t) := by
      intro e hz
      by_cases hown : s.deque.txnId e = t
      · simp [abandon, hown]
      · simp only [abandon, hown, if_false] at hz ⊢
        exact hs e hz
    refine ⟨{ deque := abandon s.deque t, atoms := Function.update s.atoms t [], ended := t :: s.ended }, ?_, rfl,
      fun e => rfl, ?_, ?_⟩
    · rw [serve, if_neg (by simp [h0, ht.opened]), finish_eq hs, hfold, hset.commit]
      rfl
    · intro e x hx e' y hy hxy
      by_cases hown : s.deque.txnId e' = t
      · simp [abandon, hown] at hy
      · simp only [abandon, hown, if_false] at hy
        exact hown ((ht.pushed e x hx).2 e' y hy hxy)
    · intro e hown
      simp [abandon, hown]

/-- A transaction pushes at both ends and pops at the front, another caller pops at the back. -/
theorem revert_restores_both_ends : ∃ s h s',
    exec serve (System.init (single 7)) [.push 1 .front 8, .pop 0 .back, .push 1 .back 9, .pop 1 .front] = some (s, h) ∧
      serve s (.revert 1) = some (s', .reverted 1) ∧ s'.deque.data = s.deque.data ∧ s'.deque.txnId .front = 0 := by
  obtain ⟨⟨s, h⟩, he⟩ := Option.isSome_iff_exists.mp (show (exec serve (System.init (single 7))
    [.push 1 .front 8, .pop 0 .back, .push 1 .back 9, .pop 1 .front]).isSome by decide)
  obtain ⟨-, s', hserve, hdata, htxn, -, -⟩ := revert_restores (t := 1) (single_quiet 7) (by decide)
    (by simp) (by decide) he
  refine ⟨s, h, s', he, hserve, hdata, ?_⟩
  rw [htxn]
  have hlock : (exec serve (System.init (single 7)) [.push 1 .front 8, .pop 0 .back, .push 1 .back 9, .pop 1 .front]).map
      (fun p => p.1.deque.txnId .front) = some 1 := by decide
  rw [he] at hlock
  rw [if_pos (Option.some.inj hlock)]

/-- A transaction that only pops has no atom: after its rollback the end is still its own. -/
theorem popped_end_stays_locked : ∃ s h s' s'',
    exec serve (System.init (single 7)) [.pop 1 .front] = some (s, h) ∧ serve s (.revert 1) = some (s', .reverted 1) ∧
      serve s' (.pop 2 .front) = some (s'', .refused .txnLockedOperation) := by
  exact ⟨_, _, _, _, rfl, rfl, rfl⟩

end RaleighSL.Objects.Deque
