import RaleighSL.Objects.SSet.Simulation
import RaleighSL.Objects.SSet.Store

/-!
# Key locks

Which transaction holds a key is read off the history of a run: it wrote the key
with success and has not ended since. In a run that keeps track of its atoms this
is the pending write that the layers have for the key, so a key has one holder, it
is closed to everybody else, and it is open when there is none.
-/
namespace RaleighSL.Objects.SSet
open RaleighSL.Core RaleighSL.Library RaleighSL.Zcl

def Response.succeeded : Response → Prop
  | .code r _ => r = .none
  | .entries _ => True

/-- In a history a transaction wrote a key with success and has not ended since. -/
def Holds (h : List (Request × Response)) (t : TxnId) (k : Bytes) : Prop :=
  t ≠ 0 ∧ ∃ h₁ r e h₂, h = h₁ ++ (r, e) :: h₂ ∧ r.target = some (t, k) ∧ e.succeeded ∧
    ∀ q ∈ h₂, q.1.ends ≠ some t

theorem holds_nil (t : TxnId) (k : Bytes) : ¬ Holds [] t k := by
  rintro ⟨-, h₁, r, e, h₂, heq, -⟩
  simp at heq

theorem holds_append_iff {h : List (Request × Response)} {r : Request} {e : Response} {t : TxnId} {k : Bytes} :
    Holds (h ++ [(r, e)]) t k ↔
      (Holds h t k ∧ r.ends ≠ some t) ∨ (t ≠ 0 ∧ r.target = some (t, k) ∧ e.succeeded) := by
  constructor
  · rintro ⟨ht, h₁, r', e', h₂, heq, htarget, hsucc, hopen⟩
    rcases List.eq_nil_or_concat h₂ with rfl | ⟨h₃, q, rfl⟩
    · obtain ⟨rfl, hlast⟩ := List.append_inj' heq rfl
      obtain ⟨rfl, rfl⟩ := Prod.mk.inj (List.cons.inj hlast).1
      exact Or.inr ⟨ht, htarget, hsucc⟩
    · have heq' : h ++ [(r, e)] = (h₁ ++ (r', e') :: h₃) ++ [q] := by simpa using heq
      obtain ⟨rfl, hlast⟩ := List.append_inj' heq' rfl
      obtain rfl := (List.cons.inj hlast).1
      refine Or.inl ⟨⟨ht, h₁, r', e', h₃, rfl, htarget, hsucc, ?_⟩, hopen (r, e) (by simp)⟩
      intro q hq
      exact hopen q (by simp [hq])
  · rintro (⟨⟨ht, h₁, r', e', h₂, rfl, htarget, hsucc, hopen⟩, hr⟩ | ⟨ht, htarget, hsucc⟩)
    · refine ⟨ht, h₁, r', e', h₂ ++ [(r, e)], by simp, htarget, hsucc, ?_⟩
      intro q hq
      rcases List.mem_append.mp hq with hq | hq
      · exact hopen q hq
      · rw [List.mem_singleton.mp hq]
        exact hr
    · exact ⟨ht, h, r, e, [], rfl, htarget, hsucc, by simp⟩

/-- What a write that succeeds leaves of its key. -/
def Request.leaves : Request → Option Bytes
  | .insert _ _ _ v => some v
  | .update _ _ v => some v
  | _ => none

/-- In a history a transaction that has not ended since left a key so with its last success on it. -/
def LastWrote (h : List (Request × Response)) (t : TxnId) (k : Bytes) (x : Option Bytes) : Prop :=
  t ≠ 0 ∧ ∃ h₁ r e h₂, h = h₁ ++ (r, e) :: h₂ ∧ r.target = some (t, k) ∧ e.succeeded ∧ r.leaves = x ∧
    ∀ q ∈ h₂, q.1.ends ≠ some t ∧ (q.1.target = some (t, k) → ¬ q.2.succeeded)

theorem lastWrote_nil (t : TxnId) (k : Bytes) (x : Option Bytes) : ¬ LastWrote [] t k x := by
  rintro ⟨-, h₁, r, e, h₂, heq, -⟩
  simp at heq

theorem lastWrote_append {h : List (Request × Response)} {r : Request} {e : Response} {t : TxnId} {k : Bytes}
    {x : Option Bytes} (hw : LastWrote (h ++ [(r, e)]) t k x) :
    (LastWrote h t k x ∧ r.ends ≠ some t ∧ (r.target = some (t, k) → ¬ e.succeeded)) ∨
      (t ≠ 0 ∧ r.target = some (t, k) ∧ e.succeeded ∧ r.leaves = x) := by
  obtain ⟨ht, h₁, r', e', h₂, heq, htarget, hsucc, hx, hopen⟩ := hw
  rcases List.eq_nil_or_concat h₂ with rfl | ⟨h₃, q, rfl⟩
  · obtain ⟨rfl, hlast⟩ := List.append_inj' heq rfl
    obtain ⟨rfl, rfl⟩ := Prod.mk.inj (List.cons.inj hlast).1
    exact Or.inr ⟨ht, htarget, hsucc, hx⟩
  · have heq' : h ++ [(r, e)] = (h₁ ++ (r', e') :: h₃) ++ [q] := by simpa using heq
    obtain ⟨rfl, hlast⟩ := List.append_inj' heq' rfl
    obtain rfl := (List.cons.inj hlast).1
    refine Or.inl ⟨⟨ht, h₁, r', e', h₃, rfl, htarget, hsucc, hx, ?_⟩, hopen (r, e) (by simp)⟩
    intro q hq
    exact hopen q (by simp [hq])

/-! ### What a request does to the pending writes -/

variable {L L' : Layers} {t : TxnId} {k v : Bytes} {r : Request} {e : Response}

/-- The pending write of a successful request of a transaction. -/
def Request.writes (r : Request) (t : TxnId) (k : Bytes) (w : Write) : Prop :=
  (∃ u v, r = .insert t u k v ∧ w = { txnId := t, type := .insert, item := ⟨v, false⟩ }) ∨
    (r = .remove t k ∧ w = { txnId := t, type := .remove, item := ⟨[], true⟩ })

/-- A request adds one pending write, releases those of a transaction, or leaves them all. -/
inductive PendingStep (L : Layers) (r : Request) (e : Response) (L' : Layers) : Prop where
  | adds (t : TxnId) (k : Bytes) (w : Write) (ht : t ≠ 0) (hend : t ∉ L.ended) (hr : r.writes t k w)
      (he : e.succeeded) (hk : L.pending.lookup k = none) (hL : L' = { L with pending := L.pending.insert k w })
  | releases (t : TxnId) (ht : t ≠ 0) (hend : t ∉ L.ended) (hr : r.ends = some t)
      (hp : L'.pending = (L.release t).pending) (hended : L'.ended = t :: L.ended)
  | keeps (hp : L'.pending = L.pending) (hended : L'.ended = L.ended)
      (hw : ∀ t k, r.target = some (t, k) → e.succeeded → t = 0)
      (hends : ∀ t, r.ends = some t → t = 0 ∨ t ∈ L.ended)

theorem PendingStep.unchanged (he : ¬ e.succeeded) (hends : r.ends = none) : PendingStep L r e L :=
  .keeps rfl rfl (fun _ _ _ hs => absurd hs he) (by simp [hends])

theorem Layers.insert_pending {u : Bool} (hend : t ∉ L.ended) (h : L.insert t u k v = some (L', e)) :
    PendingStep L (.insert t u k v) e L' := by
  rw [Layers.insert, Option.bind_eq_some_iff] at h
  obtain ⟨p, -, h⟩ := h
  cases hk : L.pending.lookup k with
  | some w =>
    simp only [hk] at h
    split_ifs at h
    · obtain ⟨rfl, rfl⟩ := Prod.mk.inj (Option.some.inj h)
      exact .unchanged (by simp [Response.succeeded]) rfl
    · obtain ⟨rfl, rfl⟩ := Prod.mk.inj (Option.some.inj h)
      exact .unchanged (by simp [Response.succeeded]) rfl
  | none =>
    simp only [hk] at h
    split_ifs at h
    · obtain ⟨rfl, rfl⟩ := Prod.mk.inj (Option.some.inj h)
      exact .unchanged (by simp [Response.succeeded]) rfl
    · obtain ⟨rfl, rfl⟩ := Prod.mk.inj (Option.some.inj h)
      by_cases ht : t = 0
      · refine .keeps (by simp [Layers.write, ht]) (by simp [Layers.write, ht]) ?_ (by simp [Request.ends])
        intro t' k' htarget _
        obtain ⟨rfl, -⟩ := Prod.mk.inj (Option.some.inj htarget)
        exact ht
      · exact .adds t k _ ht hend (Or.inl ⟨u, v, rfl, rfl⟩) rfl hk (by simp [Layers.write, ht])

theorem Layers.remove_pending (hend : t ∉ L.ended) (h : L.remove t k = some (L', e)) :
    PendingStep L (.remove t k) e L' := by
  rw [Layers.remove, Option.bind_eq_some_iff] at h
  obtain ⟨p, -, h⟩ := h
  cases hk : L.pending.lookup k with
  | some w =>
    simp only [hk] at h
    split_ifs at h
    obtain ⟨rfl, rfl⟩ := Prod.mk.inj (Option.some.inj h)
    exact .unchanged (by simp [Response.succeeded]) rfl
  | none =>
    simp only [hk] at h
    cases hs : p.2.search k with
    | none =>
      simp only [hs] at h
      obtain ⟨rfl, rfl⟩ := Prod.mk.inj (Option.some.inj h)
      exact .unchanged (by simp [Response.succeeded]) rfl
    | some old =>
      simp only [hs] at h
      obtain ⟨rfl, rfl⟩ := Prod.mk.inj (Option.some.inj h)
      by_cases ht : t = 0
      · refine .keeps (by simp [Layers.write, ht]) (by simp [Layers.write, ht]) ?_ (by simp [Request.ends])
        intro t' k' htarget _
        obtain ⟨rfl, -⟩ := Prod.mk.inj (Option.some.inj htarget)
        exact ht
      · exact .adds t k _ ht hend (Or.inr ⟨rfl, rfl⟩) rfl hk (by simp [Layers.write, ht])

theorem Layers.update_pending (h : L.update t k v = some (L', e)) : PendingStep L (.update t k v) e L' := by
  rw [Layers.update, Option.bind_eq_some_iff] at h
  obtain ⟨p, -, h⟩ := h
  cases hk : L.pending.lookup k with
  | some w =>
    simp only [hk] at h
    split_ifs at h
    obtain ⟨rfl, rfl⟩ := Prod.mk.inj (Option.some.inj h)
    exact .unchanged (by simp [Response.succeeded]) rfl
  | none =>
    simp only [hk] at h
    cases hs : p.2.search k with
    | none =>
      simp only [hs] at h
      obtain ⟨rfl, rfl⟩ := Prod.mk.inj (Option.some.inj h)
      exact .unchanged (by simp [Response.succeeded]) rfl
    | some old =>
      simp only [hs] at h
      split_ifs at h with ht
      obtain ⟨rfl, rfl⟩ := Prod.mk.inj (Option.some.inj h)
      refine .keeps (by simp [Layers.write]) (by simp [Layers.write]) ?_ (by simp [Request.ends])
      intro t' k' htarget _
      obtain ⟨rfl, -⟩ := Prod.mk.inj (Option.some.inj htarget)
      exact ht

theorem Layers.serve_pending (h : L.serve r = some (L', e)) : PendingStep L r e L' := by
  have hrejected (hr : r.ends = none) (h : some (L, Response.code .txnNotFound none) = some (L', e)) :
      PendingStep L r e L' := by
    obtain ⟨rfl, rfl⟩ := Prod.mk.inj (Option.some.inj h)
    exact .unchanged (by simp [Response.succeeded]) hr
  cases r with
  | insert t u k v =>
    simp only [Layers.serve] at h
    split_ifs at h with hend
    · exact hrejected rfl h
    · exact Layers.insert_pending hend h
  | update t k v =>
    simp only [Layers.serve] at h
    split_ifs at h with hend
    · exact hrejected rfl h
    · exact Layers.update_pending h
  | remove t k =>
    simp only [Layers.serve] at h
    split_ifs at h with hend
    · exact hrejected rfl h
    · exact Layers.remove_pending hend h
  | get t k =>
    simp only [Layers.serve] at h
    split_ifs at h
    · exact hrejected rfl h
    · rw [Option.map_eq_some_iff] at h
      obtain ⟨c, -, heq⟩ := h
      obtain ⟨rfl, rfl⟩ := Prod.mk.inj heq
      exact .keeps rfl rfl (by simp [Request.target]) (by simp [Request.ends])
  | scan t key i count seek =>
    simp only [Layers.serve] at h
    split_ifs at h
    · exact hrejected rfl h
    · rw [Option.map_eq_some_iff] at h
      obtain ⟨c, -, heq⟩ := h
      obtain ⟨rfl, rfl⟩ := Prod.mk.inj heq
      exact .keeps rfl rfl (by simp [Request.target]) (by simp [Request.ends])
  | apply t =>
    simp only [Layers.serve] at h
    split_ifs at h with hend
    · obtain ⟨rfl, rfl⟩ := Prod.mk.inj (Option.some.inj h)
      refine .keeps rfl rfl (by simp [Request.target]) ?_
      rintro t' ⟨⟩
      exact hend
    · obtain ⟨rfl, rfl⟩ := Prod.mk.inj (Option.some.inj h)
      rw [not_or] at hend
      exact .releases t hend.1 hend.2 rfl rfl rfl
  | revert t =>
    simp only [Layers.serve] at h
    split_ifs at h with hend
    · obtain ⟨rfl, rfl⟩ := Prod.mk.inj (Option.some.inj h)
      refine .keeps rfl rfl (by simp [Request.target]) ?_
      rintro t' ⟨⟩
      exact hend
    · obtain ⟨rfl, rfl⟩ := Prod.mk.inj (Option.some.inj h)
      rw [not_or] at hend
      exact .releases t hend.1 hend.2 rfl rfl rfl
  | balance =>
    simp only [Layers.serve, Option.map_eq_some_iff] at h
    obtain ⟨L₁, hb, heq⟩ := h
    obtain ⟨rfl, rfl⟩ := Prod.mk.inj heq
    rw [Layers.balance, Option.map_eq_some_iff] at hb
    obtain ⟨bs, -, rfl⟩ := hb
    exact .keeps rfl rfl (by simp [Request.target]) (by simp [Request.ends])

/-! ### Holders over a run -/

variable {s s' : State} {h : List (Request × Response)} {rs : List Request} {es : List Response}

/-- The pending writes are those of the holders, which are all open. -/
structure Held (L : Layers) (h : List (Request × Response)) : Prop where
  holds : ∀ t k, Holds h t k ↔ (L.pending.lookup k).map Write.txnId = some t
  opened : ∀ k w, L.pending.lookup k = some w → w.txnId ≠ 0 ∧ w.txnId ∉ L.ended
  sound : ∀ k w, L.pending.lookup k = some w → w.Sound
  wrote : ∀ t k x, LastWrote h t k x → ∃ w, L.pending.lookup k = some w ∧ w.txnId = t ∧ w.effect = x

theorem Layers.init_held : Held Layers.init [] where
  holds t k := by simp [holds_nil, Layers.init]
  opened k w hw := by simp [Layers.init] at hw
  sound k w hw := by simp [Layers.init] at hw
  wrote t k x hw := absurd hw (lastWrote_nil t k x)

theorem Layers.release_lookup (L : Layers) (t : TxnId) (k : Bytes) :
    (L.release t).pending.lookup k = (L.pending.lookup k).filter (fun w => w.txnId ≠ t) :=
  SortedMap.lookup_filter ..

theorem Request.writes_target {w : Write} (hw : r.writes t k w) : r.target = some (t, k) ∧ r.ends = none ∧ w.txnId = t := by
  rcases hw with ⟨u, v, rfl, rfl⟩ | ⟨rfl, rfl⟩
  · exact ⟨rfl, rfl, rfl⟩
  · exact ⟨rfl, rfl, rfl⟩

theorem Request.writes_sound {w : Write} (hw : r.writes t k w) : w.Sound := by
  rcases hw with ⟨u, v, rfl, rfl⟩ | ⟨rfl, rfl⟩
  · exact Or.inl ⟨rfl, rfl⟩
  · exact Or.inr ⟨rfl, rfl⟩

theorem Request.writes_leaves {w : Write} (hw : r.writes t k w) : w.effect = r.leaves := by
  rcases hw with ⟨u, v, rfl, rfl⟩ | ⟨rfl, rfl⟩
  · rfl
  · rfl

theorem Request.target_of_ends (hr : r.ends = some t) : r.target = none := by
  cases r with
  | apply t => rfl
  | revert t => rfl
  | _ => simp [Request.ends] at hr

theorem Held.step (hh : Held L h) (hstep : PendingStep L r e L') : Held L' (h ++ [(r, e)]) := by
  cases hstep with
  | adds t k w ht hend hr he hk hL =>
    obtain ⟨htarget, hends, hw⟩ := Request.writes_target hr
    subst hL
    constructor
    · intro t' k'
      rw [holds_append_iff, hh.holds t' k', hends, htarget, SortedMap.lookup_insert]
      by_cases hkk : k' = k
      · subst hkk
        simp only [hk, Option.map_none, reduceCtorEq, false_and, false_or, if_true, Option.map_some,
          Option.some.injEq, Prod.mk.injEq, and_true, hw]
        constructor
        · exact fun hc => hc.2.1
        · rintro rfl
          exact ⟨ht, rfl, he⟩
      · simp [hkk, Ne.symm hkk]
    · intro k' w' hw'
      rw [SortedMap.lookup_insert] at hw'
      split_ifs at hw'
      · rw [← Option.some.inj hw', hw]
        exact ⟨ht, hend⟩
      · exact hh.opened k' w' hw'
    · intro k' w' hw'
      rw [SortedMap.lookup_insert] at hw'
      split_ifs at hw'
      · rw [← Option.some.inj hw']
        exact Request.writes_sound hr
      · exact hh.sound k' w' hw'
    · intro t' k' x hx
      rcases lastWrote_append hx with ⟨hx, -⟩ | ⟨-, htarget', -, rfl⟩
      · obtain ⟨w', hw', ht'⟩ := hh.wrote t' k' x hx
        have hkk : k' ≠ k := by
          rintro rfl
          rw [hk] at hw'
          exact absurd hw' (by simp)
        exact ⟨w', by rw [SortedMap.lookup_insert_of_ne _ _ hkk, hw'], ht'⟩
      · rw [htarget] at htarget'
        obtain ⟨rfl, rfl⟩ := Prod.mk.inj (Option.some.inj htarget')
        exact ⟨w, SortedMap.lookup_insert_self .., hw, Request.writes_leaves hr⟩
  | releases t ht hend hr hp hended =>
    constructor
    · intro t' k'
      rw [holds_append_iff, hh.holds t' k', Request.target_of_ends hr, hr, hp, Layers.release_lookup]
      cases hk : L.pending.lookup k' with
      | none => simp
      | some w =>
        by_cases hw : w.txnId = t
        · subst hw
          simp [Option.filter_some]
        · simp only [Option.filter_some, Option.map_some, Option.some.injEq, ne_eq, hw, not_false_eq_true,
            decide_true, if_true, reduceCtorEq, false_and, and_false, or_false, and_iff_left_iff_imp]
          rintro rfl
          exact Ne.symm hw
    · intro k' w hw
      rw [hp, Layers.release_lookup, Option.filter_eq_some_iff] at hw
      obtain ⟨hnz, hopen⟩ := hh.opened k' w hw.1
      refine ⟨hnz, ?_⟩
      rw [hended, List.mem_cons, not_or]
      exact ⟨of_decide_eq_true hw.2, hopen⟩
    · intro k' w hw
      rw [hp, Layers.release_lookup, Option.filter_eq_some_iff] at hw
      exact hh.sound k' w hw.1
    · intro t' k' x hx
      rcases lastWrote_append hx with ⟨hx, hne, -⟩ | ⟨-, htarget, -⟩
      · obtain ⟨w, hw, ht', he'⟩ := hh.wrote t' k' x hx
        refine ⟨w, ?_, ht', he'⟩
        rw [hp, Layers.release_lookup, hw, Option.filter_some, if_pos]
        rw [hr] at hne
        simpa [ht'] using fun hc => hne (congrArg some hc.symm)
      · rw [Request.target_of_ends hr] at htarget
        exact absurd htarget (by simp)
  | keeps hp hended hw hends =>
    constructor
    · intro t' k'
      rw [holds_append_iff, hp, ← hh.holds t' k']
      constructor
      · rintro (hc | ⟨ht, htarget, he⟩)
        · exact hc.1
        · exact absurd (hw t' k' htarget he) ht
      · intro hc
        refine Or.inl ⟨hc, ?_⟩
        intro hr
        have hlock := (hh.holds t' k').mp hc
        rw [Option.map_eq_some_iff] at hlock
        obtain ⟨w, hk, rfl⟩ := hlock
        obtain ⟨hnz, hopen⟩ := hh.opened k' w hk
        rcases hends _ hr with hz | hin
        · exact hnz hz
        · exact hopen hin
    · intro k' w hk
      rw [hended]
      exact hh.opened k' w (hp ▸ hk)
    · intro k' w hk
      exact hh.sound k' w (hp ▸ hk)
    · intro t' k' x hx
      rw [hp]
      rcases lastWrote_append hx with ⟨hx, -⟩ | ⟨ht, htarget, he, -⟩
      · exact hh.wrote t' k' x hx
      · exact absurd (hw t' k' htarget he) ht

theorem Embeds.follows (hs : Embeds s L) (hok : LockOk s r) (hserve : SSet.serve s r = some (s', e)) :
    ∃ L', L.serve r = some (L', e) ∧ Embeds s' L' := by
  rcases hs.serve hok with ⟨hnone, -⟩ | ⟨s₁, L₁, e₁, h₁, hL, hs₁⟩
  · rw [hnone] at hserve
    exact absurd hserve (by simp)
  · rw [h₁] at hserve
    obtain ⟨rfl, rfl⟩ := Prod.mk.inj (Option.some.inj hserve)
    exact ⟨L₁, hL, hs₁⟩

theorem run_held (hm : Meets serve LockOk create rs) (he : exec serve create rs = some (s, es)) :
    ∃ L, Embeds s L ∧ Held L (rs.zip es) := by
  have hstep (s : State) (h : List (Request × Response)) (r : Request) (s' : State) (e : Response)
      (hI : ∃ L, Embeds s L ∧ Held L h) (hok : LockOk s r) (hserve : serve s r = some (s', e)) :
      ∃ L, Embeds s' L ∧ Held L (h ++ [(r, e)]) := by
    obtain ⟨L, hs, hh⟩ := hI
    obtain ⟨L', hL, hs'⟩ := hs.follows hok hserve
    exact ⟨L', hs', hh.step (Layers.serve_pending hL)⟩
  simpa using exec_trace (h := []) hstep ⟨Layers.init, create_embeds, Layers.init_held⟩ hm he

theorem Embeds.refuses (hs : Embeds s L) {t' : TxnId} (ho : Owns s t k) (hr : r.target = some (t', k)) (ht : t' ≠ t)
    (hend : t' ∉ s.ended) : SSet.serve s r = some (s, .code .txnLockedKey none) := by
  obtain ⟨f, id, n, hroute⟩ := hs.route k
  rw [Owns, pendingAt_eq hroute.routes hroute.node] at ho
  rcases hs.lock_cases hroute with ⟨hl, -⟩ | ⟨a, txn, hl, ha, -⟩
  · simp [hl] at ho
  have htxn : txn.txnId ≠ t' := by
    rw [hl, Option.bind_some, ha, Option.map_some, Option.some.injEq] at ho
    exact fun hc => ht (hc.symm.trans ho)
  cases r with
  | insert t₁ u k₁ v =>
    obtain ⟨rfl, rfl⟩ := Prod.mk.inj (Option.some.inj hr)
    simp [SSet.serve, hend, insert_locked u hroute hl ha, htxn, committed_error]
  | update t₁ k₁ v =>
    obtain ⟨rfl, rfl⟩ := Prod.mk.inj (Option.some.inj hr)
    simp [SSet.serve, hend, SSet.update, remove_locked hroute hl ha htxn, committed_error]
  | remove t₁ k₁ =>
    obtain ⟨rfl, rfl⟩ := Prod.mk.inj (Option.some.inj hr)
    simp [SSet.serve, hend, remove_locked hroute hl ha htxn, committed_error]
  | _ => simp [Request.target] at hr

theorem Embeds.accepts (hs : Embeds s L) (hk : L.pending.lookup k = none) (hend : t ∉ s.ended) (v : Bytes) :
    ∃ s', SSet.serve s (.insert t true k v) = some (s', .code .none none) := by
  obtain ⟨f, id, n, hroute⟩ := hs.route k
  rcases hs.lock_cases hroute with ⟨hl, -⟩ | ⟨a, txn, -, -, hp⟩
  · obtain ⟨s', hw, -⟩ := hs.write hroute hl t .insert ⟨v, false⟩
    rw [Option.bind_eq_some_iff] at hw
    obtain ⟨s₁, h₁, h₂⟩ := hw
    exact ⟨s', by simp [SSet.serve, hend, insert_unlocked true hroute hl, h₁, committed_none, h₂]⟩
  · rw [hk] at hp
    exact absurd hp (by simp)

/-- In a run that keeps track of its atoms a key has one holder, is closed to everybody else, and is
open when nobody holds it. -/
theorem run_locks_keys (hm : Meets serve LockOk create rs) (he : exec serve create rs = some (s, es)) :
    (∀ k t, Holds (rs.zip es) t k ↔ Owns s t k) ∧
      (∀ k t t', Holds (rs.zip es) t k → Holds (rs.zip es) t' k → t' = t) ∧
      (∀ k t t' r, Holds (rs.zip es) t k → r.target = some (t', k) → t' ≠ t → t' ∉ s.ended →
        serve s r = some (s, .code .txnLockedKey none)) ∧
      ∀ k t v, (∀ t', ¬ Holds (rs.zip es) t' k) → t ∉ s.ended →
        ∃ s', serve s (.insert t true k v) = some (s', .code .none none) := by
  obtain ⟨L, hs, hh⟩ := run_held hm he
  have howns (k : Bytes) (t : TxnId) : Holds (rs.zip es) t k ↔ Owns s t k := by rw [hh.holds, hs.owns_iff]
  refine ⟨howns, ?_, ?_, ?_⟩
  · intro k t t' ht ht'
    rw [hh.holds] at ht ht'
    exact Option.some.inj (ht'.symm.trans ht)
  · intro k t t' r hk hr ht hend
    exact hs.refuses ((howns k t).mp hk) hr ht hend
  · intro k t v hfree hend
    apply hs.accepts _ hend v
    cases hk : L.pending.lookup k with
    | none => rfl
    | some w => exact absurd ((hh.holds w.txnId k).mpr (by rw [hk]; rfl)) (hfree w.txnId)

theorem run_locks_keys_balanced : ∃ s es,
    exec serve create [.insert 1 false [1] [9], .insert 2 false [2] [9], .balance, .apply 2] = some (s, es) ∧
      Holds ([.insert 1 false [1] [9], .insert 2 false [2] [9], .balance, .apply 2].zip es) 1 [1] ∧
      serve s (.remove 0 [1]) = some (s, .code .txnLockedKey none) := by
  obtain ⟨⟨s, es⟩, he⟩ := Option.isSome_iff_exists.mp (show (exec serve create
    [.insert 1 false [1] [9], .insert 2 false [2] [9], .balance, .apply 2]).isSome by decide +kernel)
  have hrun := run_locks_keys (by decide +kernel) he
  have hrest : (exec serve create [.insert 1 false [1] [9], .insert 2 false [2] [9], .balance, .apply 2]).map
      (fun p => (decide (Owns p.1 1 [1]), decide (0 ∈ p.1.ended))) = some (true, false) := by decide +kernel
  simp only [he, Option.map_some, Option.some.injEq, Prod.mk.injEq, decide_eq_true_eq, decide_eq_false_iff_not] at hrest
  have hholds := (hrun.1 [1] 1).mpr hrest.1
  exact ⟨s, es, he, hholds, hrun.2.2.1 [1] 1 0 (.remove 0 [1]) hholds rfl (by decide) hrest.2⟩

/-- The second write of a transaction to a key takes the lock of the first one away. -/
theorem second_write_unlocks : ∃ s es,
    exec serve create [.insert 1 false [1] [2], .insert 1 true [1] [3]] = some (s, es) ∧
      Holds ([.insert 1 false [1] [2], .insert 1 true [1] [3]].zip es) 1 [1] ∧ 2 ∉ s.ended ∧
      ∃ s', serve s (.insert 2 true [1] [4]) = some (s', .code .none none) := by
  have hrun : (exec serve create [.insert 1 false [1] [2], .insert 1 true [1] [3]]).map (fun p =>
      (p.2, decide (2 ∈ p.1.ended), (serve p.1 (.insert 2 true [1] [4])).map Prod.snd)) =
        some ([.code .none none, .code .none none], false, some (.code .none none)) := by decide +kernel
  rw [Option.map_eq_some_iff] at hrun
  obtain ⟨⟨s, es⟩, he, hs⟩ := hrun
  simp only [Prod.mk.injEq, decide_eq_false_iff_not, Option.map_eq_some_iff] at hs
  obtain ⟨rfl, hend, ⟨s', e⟩, hserve, rfl⟩ := hs
  refine ⟨s, _, he, ⟨by decide, [], .insert 1 false [1] [2], .code .none none, _, rfl, rfl, rfl, ?_⟩, hend, s', hserve⟩
  simp [Request.ends]

end RaleighSL.Objects.SSet
