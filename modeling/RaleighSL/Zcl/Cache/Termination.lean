import RaleighSL.Zcl.Cache.Runs

/-!
# When the loop of 2Q ends

A round that does something takes an entry from a list, and the usage falls by one for each
entry that is freed. So the loop ends when enough entries can be freed, and otherwise it comes
to a state in which its body does nothing. With no entry that came in it does not even start.
-/
namespace RaleighSL.Zcl.Cache

open Library

variable {ε κ : Type*} [DecidableEq ε] {hash : κ → Nat} {s s' : State ε κ} {e : ε}

/-- The loop of `__q2_reclaim` ends, and then the usage is not above the capacity or nothing can be evicted. -/
def Reclaims (hash : κ → Nat) (s : State ε κ) : Prop :=
  ∃ n s', q2Loop hash n s = some (true, s') ∧ (s'.usage ≤ s'.capacity ∨ ¬ Evictable s')

/-- The usage is small enough; or there is no entry that came in, and none that was used again; or what is too much
can be freed. -/
def Settles (s : State ε κ) : Prop :=
  s.usage ≤ s.capacity ∨
    if s.lists .a1in = [] then s.lists .am = [] else s.usage ≤ s.capacity + s.spare

omit [DecidableEq ε] in
theorem settles_of_ne (h : s.lists .a1in ≠ []) : Settles s ↔ s.usage ≤ s.capacity + s.spare := by
  rw [Settles, if_neg h]
  omega

/-! ### Rounds -/

theorem reclaims_ended (h : ¬ (s.capacity < s.usage ∧ 0 < s.sizes .a1in)) :
    Reclaims hash s ↔ s.usage ≤ s.capacity ∨ ¬ Evictable s := by
  constructor
  · rintro ⟨n, s', hloop, hend⟩
    rw [q2Loop_ended h] at hloop
    obtain ⟨-, rfl⟩ := Prod.mk.inj (Option.some.inj hloop)
    exact hend
  · intro hend
    exact ⟨0, s, q2Loop_ended h 0, hend⟩

theorem reclaims_round (h : s.capacity < s.usage ∧ 0 < s.sizes .a1in) (hs : q2Round hash s = some (s', true)) :
    Reclaims hash s ↔ Reclaims hash s' := by
  have hsucc (n : Nat) : q2Loop hash (n + 1) s = q2Loop hash n s' := by
    rw [q2Loop_succ h, hs]
    rfl
  constructor
  · rintro ⟨n, s₁, hloop, hend⟩
    cases n with
    | zero =>
      rw [q2Loop_zero h] at hloop
      exact absurd (Prod.mk.inj (Option.some.inj hloop)).1 Bool.false_ne_true
    | succ n =>
      rw [hsucc] at hloop
      exact ⟨n, s₁, hloop, hend⟩
  · rintro ⟨n, s₁, hloop, hend⟩
    exact ⟨n + 1, s₁, (hsucc n).trans hloop, hend⟩

theorem not_reclaims_stuck (h : s.capacity < s.usage ∧ 0 < s.sizes .a1in) (hev : ¬ Evictable s) :
    ¬ Reclaims hash s := by
  rintro ⟨n, s', hloop, -⟩
  rw [q2Loop_stuck h hev] at hloop
  exact absurd (Prod.mk.inj (Option.some.inj hloop)).1 Bool.false_ne_true

/-- From books that are right the loop does what it is for exactly when enough of the entries that it can evict are not
held. The measure is the length of the two lists that it takes entries from. -/
theorem Good.reclaims_iff (h : Good hash s) (hkind : s.kind = .q2) (hkin : 1 ≤ s.kin)
    (hout : (s.lists .a1out).length ≤ s.kout) : Reclaims hash s ↔ Settles s := by
  induction hn : (s.lists .a1in).length + (s.lists .am).length using Nat.strong_induction_on generalizing s with
  | _ n ih =>
    have hsize : s.sizes .a1in = (s.lists .a1in).length := h.sizes .a1in (by decide)
    by_cases hguard : s.capacity < s.usage ∧ 0 < s.sizes .a1in
    · have hne : s.lists .a1in ≠ [] := List.ne_nil_of_length_pos (hsize ▸ hguard.2)
      rw [settles_of_ne hne]
      by_cases hev : Evictable s
      · obtain ⟨s', hs', hturn⟩ := h.turn hkind hout hev
        have hpos := List.length_pos_of_ne_nil hne
        have hstays := hturn.stays
        have hexact := hturn.exact
        have hne' : s'.lists .a1in ≠ [] := by
          apply List.ne_nil_of_length_pos
          omega
        have hrest := ih _ (hn ▸ hturn.less) hturn.good (hturn.round.kind.trans hkind) (hturn.round.kin ▸ hkin) hturn.out rfl
        rw [reclaims_round hguard hs', hrest, settles_of_ne hne', hturn.round.capacity]
        omega
      · have hspare := h.spare_eq_zero hout hev
        refine iff_of_false (not_reclaims_stuck hguard hev) ?_
        omega
    · rw [reclaims_ended hguard, Settles]
      refine or_congr_right' ?_
      intro hmore
      have hin : s.lists .a1in = [] := by
        rw [← List.length_eq_zero_iff]
        omega
      rw [if_pos hin, h.evictable_iff, hin, List.length_nil, not_or, not_not]
      exact and_iff_right (Nat.not_lt_zero s.kin)

/-! ### The loop and the call -/

theorem q2Loop_of_q2Reclaim {n : Nat} (h : Good hash s) (hkind : s.kind = .q2)
    (hout : (s.lists .a1out).length ≤ s.kout) (hs : q2Reclaim hash n s = some s') : q2Loop hash n s = some (true, s') := by
  induction n generalizing s with
  | zero => simp [q2Reclaim] at hs
  | succ n ih =>
    rw [q2Reclaim_succ] at hs
    by_cases hguard : s.capacity < s.usage ∧ 0 < s.sizes .a1in
    · rw [if_pos hguard] at hs
      by_cases hev : Evictable s
      · obtain ⟨s₁, hs₁, hturn⟩ := h.turn hkind hout hev
        rw [if_pos hev, hs₁] at hs
        rw [q2Loop_succ hguard, hs₁]
        exact ih hturn.good (hturn.round.kind.trans hkind) hturn.out hs
      · rw [if_neg hev] at hs
        exact absurd hs (by simp)
    · rw [if_neg hguard] at hs
      obtain rfl := Option.some.inj hs
      exact q2Loop_ended hguard _

theorem q2Reclaim_of_q2Loop {m n : Nat} (h : Good hash s) (hkind : s.kind = .q2)
    (hout : (s.lists .a1out).length ≤ s.kout) (hn : (s.lists .a1in).length + (s.lists .am).length < n)
    (hloop : q2Loop hash m s = some (true, s')) : q2Reclaim hash n s = some s' := by
  obtain ⟨n, rfl⟩ := Nat.exists_eq_add_of_lt (Nat.zero_lt_of_lt hn)
  rw [Nat.zero_add] at hn ⊢
  rw [q2Reclaim_succ]
  induction m generalizing s n with
  | zero =>
    by_cases hguard : s.capacity < s.usage ∧ 0 < s.sizes .a1in
    · rw [q2Loop_zero hguard] at hloop
      exact absurd (Prod.mk.inj (Option.some.inj hloop)).1 Bool.false_ne_true
    · rw [q2Loop_ended hguard] at hloop
      rw [if_neg hguard, (Prod.mk.inj (Option.some.inj hloop)).2]
  | succ m ih =>
    by_cases hguard : s.capacity < s.usage ∧ 0 < s.sizes .a1in
    · by_cases hev : Evictable s
      · obtain ⟨s₁, hs₁, hturn⟩ := h.turn hkind hout hev
        rw [q2Loop_succ hguard, hs₁] at hloop
        rw [if_pos hguard, if_pos hev, hs₁]
        have hless := hturn.less
        obtain ⟨n, rfl⟩ := Nat.exists_eq_add_of_lt (by omega : 0 < n)
        rw [Option.bind_some, if_pos rfl, Nat.zero_add, q2Reclaim_succ]
        exact ih hturn.good (hturn.round.kind.trans hkind) hturn.out hloop n (by omega)
      · rw [q2Loop_stuck hguard hev] at hloop
        exact absurd (Prod.mk.inj (Option.some.inj hloop)).1 Bool.false_ne_true
    · rw [q2Loop_ended hguard] at hloop
      rw [if_neg hguard, (Prod.mk.inj (Option.some.inj hloop)).2]

/-- The call has a result exactly when the loop ends after some number of rounds, and it is the state at the end. -/
theorem Good.policyReclaim_eq_some_iff (h : Good hash s) (hkind : s.kind = .q2)
    (hout : (s.lists .a1out).length ≤ s.kout) (evict : Nat → ε → Bool) :
    policyReclaim hash evict s = some s' ↔ ∃ n, q2Loop hash n s = some (true, s') := by
  rw [policyReclaim, hkind]
  dsimp only
  constructor
  · intro hs
    exact ⟨_, q2Loop_of_q2Reclaim h hkind hout hs⟩
  · rintro ⟨n, hloop⟩
    exact q2Reclaim_of_q2Loop h hkind hout (Nat.lt_succ_self _) hloop

/-! ### Runs -/

/-- What every run of a 2Q cache keeps. -/
structure TwoQueues (hash : κ → Nat) (s : State ε κ) : Prop extends Inv hash s where
  kind : s.kind = .q2
  kin : s.kin = 1

theorem TwoQueues.reclaims_iff (h : TwoQueues hash s) : Reclaims hash s ↔ Settles s :=
  h.good.reclaims_iff h.kind h.kin.ge h.out

theorem TwoQueues.policyReclaim {evict : Nat → ε → Bool} (h : TwoQueues hash s)
    (hs : Cache.policyReclaim hash evict s = some s') : TwoQueues hash s' := by
  have hinv := h.toInv.policyReclaim hs
  rw [Cache.policyReclaim, h.kind] at hs
  obtain ⟨-, hround, -⟩ := q2Reclaim_spec h.good h.kind h.out hs
  exact ⟨hinv, hround.kind.trans h.kind, hround.kin.trans h.kin⟩

theorem TwoQueues.capacity (h : TwoQueues hash s) (capacity : Nat) :
    TwoQueues hash { s with capacity := capacity } :=
  ⟨h.toInv.capacity capacity, h.kind, h.kin⟩

theorem release_kept (h : release s e = some s') : s'.kind = s.kind ∧ s'.kin = s.kin := by
  rw [release] at h
  split_ifs at h
  · obtain rfl := Option.some.inj h
    exact ⟨rfl, rfl⟩
  · obtain rfl := Option.some.inj h
    exact ⟨rfl, rfl⟩

theorem policyUpdate_kept (s : State ε κ) (e : ε) :
    (policyUpdate s e).kind = s.kind ∧ (policyUpdate s e).kin = s.kin := by
  rw [policyUpdate]
  split_ifs
  · exact ⟨rfl, rfl⟩
  · split
    · rw [lruInsert]
      split_ifs <;> exact ⟨rfl, rfl⟩
    · rw [q2Insert]
      split <;> exact ⟨rfl, rfl⟩

theorem policyRemove_kept (h : policyRemove s e = some s') : s'.kind = s.kind ∧ s'.kin = s.kin := by
  rw [policyRemove] at h
  obtain ⟨hkind, hkin⟩ := release_kept h
  rw [hkind, hkin]
  cases counted s e <;> exact ⟨rfl, rfl⟩

variable [DecidableEq κ]

theorem lookup_kept (s : State ε κ) (k : κ) : (lookup hash s k).1.kind = s.kind ∧ (lookup hash s k).1.kin = s.kin := by
  rw [lookup]
  cases s.table.find hash s.oid k with
  | none => exact ⟨rfl, rfl⟩
  | some e => exact policyUpdate_kept _ e

theorem remove_kept {k : κ} {out : Option ε} (h : remove hash s k = some (s', out)) :
    s'.kind = s.kind ∧ s'.kin = s.kin := by
  rw [remove] at h
  cases hfind : s.table.find hash s.oid k with
  | none =>
    rw [hfind] at h
    obtain ⟨rfl, -⟩ := Prod.mk.inj (Option.some.inj h)
    exact ⟨rfl, rfl⟩
  | some e =>
    rw [hfind] at h
    obtain ⟨s₁, hs₁, h⟩ := Option.bind_eq_some_iff.mp h
    split_ifs at h
    obtain ⟨rfl, -⟩ := Prod.mk.inj (Option.some.inj h)
    have hkept := policyRemove_kept hs₁
    exact hkept

theorem TwoQueues.step {op : Op ε κ} {out : Option ε} (h : TwoQueues hash s)
    (hok : Allowed s op ∧ Sound hash s op) (hs : Cache.step hash s op = some (s', out)) : TwoQueues hash s' := by
  have hinv := h.toInv.step hok hs
  have hkept (hsame : s'.kind = s.kind ∧ s'.kin = s.kin) : TwoQueues hash s' :=
    ⟨hinv, hsame.1.trans h.kind, hsame.2.trans h.kin⟩
  cases op with
  | tryInsert e k evict =>
    obtain ⟨t, heq, haccept⟩ := h.toInv.tryInsert_eq hok.1.1 hok.2.1 hok.2.2 evict
    rw [Cache.step, heq, Option.map_eq_some_iff] at hs
    obtain ⟨s₁, hs₁, hs⟩ := hs
    obtain ⟨rfl, -⟩ := Prod.mk.inj hs
    have hentered : TwoQueues hash (s.accept e k t) := ⟨haccept, h.kind, h.kin⟩
    exact hentered.policyReclaim hs₁
  | lookup k =>
    obtain ⟨rfl, -⟩ := Prod.mk.inj (Option.some.inj hs)
    exact hkept (lookup_kept s k)
  | remove k => exact hkept (remove_kept hs)
  | release e =>
    obtain ⟨s₁, hs₁, hs⟩ := Option.map_eq_some_iff.mp hs
    obtain ⟨rfl, -⟩ := Prod.mk.inj hs
    have hsame := release_kept hs₁
    exact hkept hsame
  | reclaim capacity evict =>
    obtain ⟨s₁, hs₁, hs⟩ := Option.map_eq_some_iff.mp hs
    obtain ⟨rfl, -⟩ := Prod.mk.inj hs
    exact (h.capacity capacity).policyReclaim hs₁
  | drop e =>
    obtain ⟨rfl, -⟩ := Prod.mk.inj (Option.some.inj hs)
    exact hkept ⟨rfl, rfl⟩

/-- The states in which a call enters the loop: of `z_cache_reclaim` with any capacity, or of `z_cache_try_insert` with
a new entry in the table and in a list. -/
inductive Enters (hash : κ → Nat) (s : State ε κ) : State ε κ → Prop
  | reclaim (capacity : Nat) : Enters hash s { s with capacity := capacity }
  | tryInsert (e : ε) (k : κ) (t : Table ε) (hnew : e ∉ s.inserted) (hfind : s.table.find hash s.oid k = none)
      (hroom : s.usage < 2 ^ 31) (ht : s.table.insert hash (Function.update s.oid e k) e = some t) :
      Enters hash s (s.accept e k t)

theorem TwoQueues.enters (h : TwoQueues hash s) (hs : Enters hash s s') : TwoQueues hash s' := by
  cases hs with
  | reclaim capacity => exact h.capacity capacity
  | tryInsert e k t hnew hfind hroom ht =>
    obtain ⟨t', ht', hinv⟩ := h.toInv.insert hnew hfind hroom
    obtain rfl := Option.some.inj (ht'.symm.trans ht)
    exact ⟨hinv, h.kind, h.kin⟩

omit [DecidableEq κ] in
theorem twoQueues_alloc {capacity : Nat} {oid : ε → κ} {s₀ : State ε κ} (h : alloc .q2 capacity oid = some s₀) :
    TwoQueues hash s₀ := by
  have hinv : Inv hash s₀ := inv_alloc h
  obtain ⟨size, -, rfl⟩ := Option.map_eq_some_iff.mp h
  exact ⟨hinv, rfl, rfl⟩

/-- One entry has come in, another one was used again, and nobody holds them. -/
def usedRun : List (Op Nat Nat) :=
  [.tryInsert 0 10 always, .release 0, .tryInsert 1 11 always, .release 1, .tryInsert 2 12 always, .release 2,
    .lookup 11, .release 1]

theorem usedRun_isSome : (exec (step id) smallCache usedRun).isSome := by decide +kernel

def usedOutcome : State Nat Nat × List (Option Nat) := (exec (step id) smallCache usedRun).get usedRun_isSome

/-- One entry has come in, and nobody holds it. -/
def oneRun : List (Op Nat Nat) := [.tryInsert 0 10 always, .release 0]

theorem oneRun_isSome : (exec (step id) smallCache oneRun).isSome := by decide +kernel

def oneOutcome : State Nat Nat × List (Option Nat) := (exec (step id) smallCache oneRun).get oneRun_isSome

end RaleighSL.Zcl.Cache
