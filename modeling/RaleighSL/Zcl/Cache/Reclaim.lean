import RaleighSL.Zcl.Cache.Books

/-!
# Eviction

The body of the loop of `__q2_reclaim` has a branch that does nothing, and its guard reads the
usage and the number of entries that came in.

The loops of the two policies keep the books. The loop of LRU always ends. The loop of 2Q
ends when enough of the entries it can evict are not held, for those that are held stay in
memory and are still counted.
-/
namespace RaleighSL.Zcl.Cache

open Library
open scoped List

/-! ### The loop of 2Q -/

section

variable {ε κ : Type*} [DecidableEq ε]

/-- The body of the loop does something: one of its two tests is met. -/
def Evictable (s : State ε κ) : Prop := s.kin < s.sizes .a1in ∨ 0 < s.sizes .am

instance (s : State ε κ) : Decidable (Evictable s) := inferInstanceAs (Decidable (_ ∨ _))

variable (hash : κ → Nat)

/-- The body of the loop of `__q2_reclaim`, and whether it goes on. -/
def q2Round (s : State ε κ) : Option (State ε κ × Bool) :=
  if s.kin < s.sizes .a1in then
    (pageOut s).bind (fun s => if s.kout < s.sizes .a1out then reclaimLast hash s .a1out else some (s, true))
  else if 0 < s.sizes .am then reclaimLast hash s .am
  else some (s, true)

/-- The loop of `__q2_reclaim` for a number of rounds, and whether it has ended. -/
def q2Loop : Nat → State ε κ → Option (Bool × State ε κ)
  | n, s =>
    if s.capacity < s.usage ∧ 0 < s.sizes .a1in then
      match n with
      | 0 => some (false, s)
      | n + 1 => (q2Round hash s).bind (fun r => if r.2 then q2Loop n r.1 else some (true, r.1))
    else some (true, s)

variable {hash} {s s' : State ε κ} {n : Nat}

theorem q2Loop_ended (h : ¬ (s.capacity < s.usage ∧ 0 < s.sizes .a1in)) (n : Nat) : q2Loop hash n s = some (true, s) := by
  cases n <;> rw [q2Loop, if_neg h]

theorem q2Loop_zero (h : s.capacity < s.usage ∧ 0 < s.sizes .a1in) : q2Loop hash 0 s = some (false, s) := by
  rw [q2Loop, if_pos h]

theorem q2Loop_succ (h : s.capacity < s.usage ∧ 0 < s.sizes .a1in) (n : Nat) : q2Loop hash (n + 1) s =
    (q2Round hash s).bind (fun r => if r.2 then q2Loop hash n r.1 else some (true, r.1)) := by
  rw [q2Loop, if_pos h]

theorem q2Round_stuck (h : ¬ Evictable s) : q2Round hash s = some (s, true) := by
  rw [Evictable, not_or] at h
  rw [q2Round, if_neg h.1, if_neg h.2]

/-- A loop that can do nothing goes on for ever. -/
theorem q2Loop_stuck (hguard : s.capacity < s.usage ∧ 0 < s.sizes .a1in) (h : ¬ Evictable s) (n : Nat) :
    q2Loop hash n s = some (false, s) := by
  induction n with
  | zero => exact q2Loop_zero hguard
  | succ n ih => rw [q2Loop_succ hguard, q2Round_stuck h, Option.bind_some, if_pos rfl, ih]

/-- The loop that has no result where it goes on for ever has the same rounds. -/
theorem q2Reclaim_succ (n : Nat) (s : State ε κ) : q2Reclaim hash (n + 1) s =
    if s.capacity < s.usage ∧ 0 < s.sizes .a1in then
      if Evictable s then (q2Round hash s).bind (fun r => if r.2 then q2Reclaim hash n r.1 else some r.1) else none
    else some s := by
  rw [q2Reclaim]
  by_cases hguard : s.capacity < s.usage ∧ 0 < s.sizes .a1in
  · rw [if_pos hguard, if_pos hguard, q2Round]
    by_cases hin : s.kin < s.sizes .a1in
    · have hev : Evictable s := Or.inl hin
      rw [if_pos hin, if_pos hin, if_pos hev, Option.bind_assoc]
      apply Option.bind_congr
      intro t _
      split_ifs <;> rfl
    · by_cases ham : 0 < s.sizes .am
      · have hev : Evictable s := Or.inr ham
        rw [if_neg hin, if_neg hin, if_pos ham, if_pos ham, if_pos hev]
      · have hev : ¬ Evictable s := fun hev => hev.elim hin ham
        rw [if_neg hin, if_neg ham, if_neg hev]
  · rw [if_neg hguard, if_neg hguard]

end

/-! ### The books -/

variable {ε κ : Type*} [DecidableEq ε] {hash : κ → Nat} {s s' : State ε κ} {e : ε} {q : Queue} {l : List ε}

/-- The books between two calls. -/
structure Good (hash : κ → Nat) (s : State ε κ) : Prop where
  core : Core hash none s
  sizes : ∀ q, q ≠ .lru → s.sizes q = (s.lists q).length
  latest : ∀ e ∈ s.table.entries, s.latest (s.oid e) = some e
  home : ∀ q, ∀ e ∈ s.lists q, q.kind = s.kind
  few : s.usage ≤ 2 ^ 31

theorem Good.length_le (h : Good hash s) (q : Queue) : (s.lists q).length ≤ 2 ^ 31 := by
  have hsub : (s.lists q).length ≤ s.table.entries.length :=
    (h.core.placed.nodup q).length_le_of_subset (fun _ ha => h.core.entry_of_list ha)
  have hle := h.core.entries_le
  have husage := h.core.usage
  have hfew := h.few
  omega

theorem Evicted.mem (h : Evicted s s' e) {a : ε} (ha : a ∈ s'.table.entries) : a ∈ s.table.entries :=
  h.entries.mem_iff.mp (List.mem_cons_of_mem e ha)

theorem Evicted.latest_eq (h : Evicted s s' e) (hlatest : ∀ e ∈ s.table.entries, s.latest (s.oid e) = some e) :
    ∀ e ∈ s'.table.entries, s'.latest (s'.oid e) = some e := by
  intro a ha
  rw [h.latest, h.oid]
  exact hlatest a (h.mem ha)

theorem Evicted.home_eq (h : Evicted s s' e) (hhome : ∀ q, ∀ e ∈ s.lists q, q.kind = s.kind) :
    ∀ q, ∀ e ∈ s'.lists q, q.kind = s'.kind := by
  intro q a ha
  rw [h.lists] at ha
  rw [h.kind]
  exact hhome q a (List.mem_of_mem_erase ha)

theorem Evicted.usage_le (h : Evicted s s' e) : s'.usage ≤ s.usage := by
  have := h.usage
  omega

/-! ### LRU -/

theorem Good.evict_lru (h : Good hash s) (he : e ∈ s.lists .lru) :
    ∃ s', entryReclaim hash s e = some (s', true) ∧ Good hash s' ∧ Evicted s s' e := by
  obtain ⟨s', hs, hcore, hev⟩ := h.core.evict (h.core.entry_of_list he)
  refine ⟨s', hs, ⟨hcore, ?_, hev.latest_eq h.latest, hev.home_eq h.home, hev.usage_le.trans h.few⟩, hev⟩
  intro q hq
  rw [hev.lists, hev.sizes, h.core.unlinked he hq]
  exact h.sizes q hq

theorem lruReclaim_spec (h : Good hash s) (evict : Nat → ε → Bool) (hl : ∀ a ∈ l, a ∈ s.lists .lru) (hnodup : l.Nodup)
    (usage : Nat) : ∃ s', lruReclaim hash evict l usage s = some s' ∧ Good hash s' ∧ s'.kind = s.kind ∧
      s'.kout = s.kout ∧ ∀ q, q ≠ .lru → s'.lists q = s.lists q := by
  induction l generalizing s usage with
  | nil => exact ⟨s, rfl, h, rfl, rfl, fun _ _ => rfl⟩
  | cons e l ih =>
    obtain ⟨hel, hnodup⟩ := List.nodup_cons.mp hnodup
    have he := hl e List.mem_cons_self
    rw [lruReclaim]
    split_ifs
    · obtain ⟨s₁, hs, hgood, hev⟩ := h.evict_lru he
      have hrest (a : ε) (ha : a ∈ l) : a ∈ s₁.lists .lru := by
        rw [hev.lists, (h.core.placed.nodup .lru).mem_erase_iff]
        refine ⟨?_, hl a (List.mem_cons_of_mem e ha)⟩
        rintro rfl
        exact hel ha
      obtain ⟨s₂, hs₂, hgood₂, hkind, hkout, hlists⟩ := ih hgood hrest hnodup (usage - 1)
      refine ⟨s₂, ?_, hgood₂, hkind.trans hev.kind, hkout.trans hev.kout, ?_⟩
      · rw [hs]
        exact hs₂
      · intro q hq
        rw [hlists q hq, hev.lists, h.core.unlinked he hq]
    · exact ⟨s, rfl, h, rfl, rfl, fun _ _ => rfl⟩
    · exact ⟨s, rfl, h, rfl, rfl, fun _ _ => rfl⟩

/-! ### 2Q -/

/-- What the rounds of the loop do not change. -/
structure Round (s s' : State ε κ) : Prop where
  capacity : s'.capacity = s.capacity
  kind : s'.kind = s.kind
  kin : s'.kin = s.kin
  kout : s'.kout = s.kout
  held : s'.held = s.held

omit [DecidableEq ε] in
theorem Round.trans {s₁ s₂ : State ε κ} (h : Round s s₁) (h' : Round s₁ s₂) : Round s s₂ :=
  ⟨h'.capacity.trans h.capacity, h'.kind.trans h.kind, h'.kin.trans h.kin, h'.kout.trans h.kout, h'.held.trans h.held⟩

theorem erase_last (hnodup : (l ++ [e]).Nodup) : (l ++ [e]).erase e = l := by
  have hel : e ∉ l := fun he => (List.nodup_append.mp hnodup).2.2 e he e (List.mem_singleton_self e) rfl
  rw [List.erase_append_right _ hel, List.erase_cons_head, List.append_nil]

theorem Good.reclaimLast (h : Good hash s) (hq : q ≠ .lru) (hlist : s.lists q = l ++ [e]) :
    ∃ s', Cache.reclaimLast hash s q = some (s', true) ∧ Good hash s' ∧ Round s s' ∧ s'.lists q = l ∧
      (∀ r, r ≠ q → s'.lists r = s.lists r) ∧ s'.usage + (if s.held e = 0 then 1 else 0) = s.usage := by
  have he : e ∈ s.lists q := by simp [hlist]
  have hnodup := h.core.placed.nodup q
  rw [hlist] at hnodup
  obtain ⟨s', hs, hcore, hev⟩ := (h.core.recount (Function.update s.sizes q (dec (s.sizes q))) s.latest).evict (h.core.entry_of_list he)
  have hother (r : Queue) (hr : r ≠ q) : s'.lists r = s.lists r := by
    rw [hev.lists]
    exact h.core.unlinked he hr
  have hthis : s'.lists q = l := by
    rw [hev.lists]
    show (s.lists q).erase e = l
    rw [hlist, erase_last hnodup]
  have hsizes : s'.sizes = Function.update s.sizes q (dec (s.sizes q)) := hev.sizes
  refine ⟨s', ?_, ⟨hcore, ?_, hev.latest_eq h.latest, hev.home_eq h.home, hev.usage_le.trans h.few⟩,
    ⟨hev.capacity, hev.kind, hev.kin, hev.kout, hev.held⟩, hthis, hother, hev.usage⟩
  · rw [Cache.reclaimLast, hlist, List.getLast?_concat]
    exact hs
  · intro r hr
    rw [hsizes]
    by_cases hrq : r = q
    · subst hrq
      rw [Function.update_self, hthis, h.sizes r hr, hlist, List.length_append, List.length_singleton, dec_succ]
    · rw [Function.update_of_ne hrq, hother r hrq]
      exact h.sizes r hr

/-- An entry goes from a list that is counted to the head of another one. -/
theorem Good.transfer {q' : Queue} (h : Good hash s) (he : e ∈ s.lists q) (hq : q ≠ q') (hq' : q'.kind = s.kind) :
    Good hash (s.transfer q q' e) ∧ (s.transfer q q' e).lists q = (s.lists q).erase e ∧
      (s.transfer q q' e).lists q' = e :: s.lists q' ∧ ∀ r, r ≠ q → r ≠ q' → (s.transfer q q' e).lists r = s.lists r := by
  have hlists (r : Queue) : (s.transfer q q' e).lists r =
      if r = q' then e :: (s.lists q').erase e else (s.lists r).erase e := relink_lists s e q' r
  have hfrom : (s.transfer q q' e).lists q = (s.lists q).erase e := by rw [hlists, if_neg hq]
  have hto : (s.transfer q q' e).lists q' = e :: s.lists q' := by
    rw [hlists, if_pos rfl, h.core.unlinked he (Ne.symm hq)]
  have hother (r : Queue) (hr : r ≠ q) (hr' : r ≠ q') : (s.transfer q q' e).lists r = s.lists r := by
    rw [hlists, if_neg hr', h.core.unlinked he hr]
  refine ⟨⟨(h.core.relink he q').recount _ s.latest, ?_, h.latest, ?_, h.few⟩, hfrom, hto, hother⟩
  · intro r hr
    show Function.update (Function.update s.sizes q' (inc (s.sizes q'))) q (dec (s.sizes q)) r = _
    by_cases hrq : r = q
    · subst hrq
      have hlen := List.length_erase_add_one he
      rw [Function.update_self, hfrom, h.sizes r hr, ← hlen, dec_succ]
    · rw [Function.update_of_ne hrq]
      by_cases hrq' : r = q'
      · subst hrq'
        have hle := h.length_le r
        rw [Function.update_self, hto, h.sizes r hr, List.length_cons, inc_of_lt]
        omega
      · rw [Function.update_of_ne hrq', hother r hrq hrq']
        exact h.sizes r hr
  · intro r a ha
    by_cases hrq' : r = q'
    · rw [hrq']
      exact hq'
    · rw [hlists, if_neg hrq'] at ha
      exact h.home r a (List.mem_of_mem_erase ha)

theorem Good.pageOut (h : Good hash s) (hkind : s.kind = .q2) (hlist : s.lists .a1in = l ++ [e]) :
    ∃ s', Cache.pageOut s = some s' ∧ Good hash s' ∧ Round s s' ∧ s'.lists .a1in = l ∧
      s'.lists .a1out = e :: s.lists .a1out ∧ s'.lists .am = s.lists .am ∧ s'.usage = s.usage := by
  have he : e ∈ s.lists .a1in := by simp [hlist]
  have hnodup := h.core.placed.nodup .a1in
  rw [hlist] at hnodup
  have hvalid : s.Valid e := Or.inl (h.core.inserted_of_entry (h.core.entry_of_list he))
  obtain ⟨hgood, hin, hout, hother⟩ := h.transfer he (by decide : Queue.a1in ≠ .a1out) hkind.symm
  refine ⟨s.transfer .a1in .a1out e, ?_, hgood, ⟨rfl, rfl, rfl, rfl, rfl⟩, ?_, hout,
    hother .am (by decide) (by decide), rfl⟩
  · rw [Cache.pageOut, hlist, List.getLast?_concat, Option.bind_some, if_pos hvalid]
  · rw [hin, hlist, erase_last hnodup]

/-- The entries that the loop evicts if it goes on to its end. -/
def victims (kin kout : Nat) (a1in a1out am : List ε) : List ε := (a1in.drop kin ++ a1out).drop kout ++ am

omit [DecidableEq ε] in
theorem victims_pageOut {kin kout : Nat} {a1out am : List ε} (hkin : kin ≤ l.length) :
    victims kin kout (l ++ [e]) a1out am = victims kin kout l (e :: a1out) am := by
  rw [victims, victims, List.drop_append_of_le_length hkin, List.append_assoc]
  rfl

omit [DecidableEq ε] in
theorem victims_a1out {kin kout : Nat} {a1in am : List ε} (hkout : kout ≤ l.length) :
    victims kin kout a1in (l ++ [e]) am ~ e :: victims kin kout a1in l am := by
  have hlen : kout ≤ (a1in.drop kin ++ l).length := by
    rw [List.length_append]
    omega
  rw [victims, victims, ← List.append_assoc, List.drop_append_of_le_length hlen, List.append_assoc]
  exact List.perm_middle

omit [DecidableEq ε] in
theorem victims_am {kin kout : Nat} {a1in a1out : List ε} :
    victims kin kout a1in a1out (l ++ [e]) ~ e :: victims kin kout a1in a1out l := by
  rw [victims, victims, ← List.append_assoc]
  exact List.perm_append_singleton e _

omit [DecidableEq ε] in
theorem exists_concat (hne : l ≠ []) : ∃ l' a, l = l' ++ [a] := ⟨l.dropLast, l.getLast hne, (List.dropLast_append_getLast hne).symm⟩

/-- The entries that the loop can still evict and that are not held. -/
def State.spare (s : State ε κ) : Nat :=
  (victims s.kin s.kout (s.lists .a1in) (s.lists .a1out) (s.lists .am)).countP (fun e => s.held e = 0)

/-- What a round of the loop does when it is not stuck: it takes an entry from a list, and frees one for each spare
entry that is gone. -/
structure Advance (hash : κ → Nat) (s s' : State ε κ) : Prop where
  good : Good hash s'
  round : Round s s'
  out : (s'.lists .a1out).length ≤ s'.kout
  less : (s'.lists .a1in).length + (s'.lists .am).length < (s.lists .a1in).length + (s.lists .am).length
  spare : s'.usage + s.spare ≤ s.usage + s'.spare

omit [DecidableEq ε] in
theorem countP_cons_held (held : ε → Nat) (e : ε) (l : List ε) :
    (e :: l).countP (fun a => held a = 0) = l.countP (fun a => held a = 0) + if held e = 0 then 1 else 0 := by
  rw [List.countP_cons]
  simp

/-- What a round of the loop does exactly: the usage falls by the spare entries that are gone, and no more entries
leave the list of those that came in than `kin` allows. -/
structure Turn (hash : κ → Nat) (s s' : State ε κ) : Prop extends Advance hash s s' where
  exact : s.usage + s'.spare = s'.usage + s.spare
  stays : min s.kin (s.lists .a1in).length ≤ (s'.lists .a1in).length

theorem Good.turn_out (h : Good hash s) (hkind : s.kind = .q2) (hout : (s.lists .a1out).length ≤ s.kout)
    (hin : s.kin < (s.lists .a1in).length) : ∃ s', q2Round hash s = some (s', true) ∧ Turn hash s s' := by
  have hsize : s.sizes .a1in = (s.lists .a1in).length := h.sizes .a1in (by decide)
  obtain ⟨l, e, hlist⟩ := exists_concat (List.ne_nil_of_length_pos (by omega : 0 < (s.lists .a1in).length))
  have hlen : (s.lists .a1in).length = l.length + 1 := by rw [hlist, List.length_append, List.length_singleton]
  obtain ⟨s₁, hs₁, hgood, hround, hin₁, hout₁, ham₁, husage⟩ := h.pageOut hkind hlist
  have hsize₁ : s₁.sizes .a1out = (s.lists .a1out).length + 1 := by
    rw [hgood.sizes .a1out (by decide), hout₁, List.length_cons]
  have hspare : s₁.spare = s.spare := by
    rw [State.spare, State.spare, hin₁, hout₁, ham₁, hround.kin, hround.kout, hround.held, hlist,
      victims_pageOut (by omega)]
  have hstep : q2Round hash s =
      if s.kout < (s.lists .a1out).length + 1 then Cache.reclaimLast hash s₁ .a1out else some (s₁, true) := by
    rw [q2Round, if_pos (by omega), hs₁, Option.bind_some, hround.kout, hsize₁]
  rw [hstep]
  split_ifs with hfull
  · obtain ⟨m, v, hm⟩ := exists_concat (List.cons_ne_nil e (s.lists .a1out))
    have hmlen : m.length = (s.lists .a1out).length := by
      have := congrArg List.length hm
      rw [List.length_append, List.length_singleton, List.length_cons] at this
      omega
    rw [hm] at hout₁
    obtain ⟨s₂, hs₂, hgood₂, hround₂, hthis, hother, husage₂⟩ := hgood.reclaimLast (by decide) hout₁
    have hin₂ := hother .a1in (by decide)
    have ham₂ := hother .am (by decide)
    have hcount : s₁.spare = s₂.spare + if s₁.held v = 0 then 1 else 0 := by
      rw [State.spare, State.spare, hthis, hin₂, ham₂, hround₂.kin, hround₂.kout, hround₂.held, hout₁,
        ← countP_cons_held]
      apply List.Perm.countP_eq
      apply victims_a1out
      rw [hround.kout]
      omega
    refine ⟨s₂, hs₂, ⟨hgood₂, hround.trans hround₂, ?_, ?_, by omega⟩, by omega, ?_⟩
    · rw [hthis, hround₂.kout, hround.kout]
      omega
    · rw [hin₂, ham₂, hin₁, ham₁]
      omega
    · rw [hin₂, hin₁]
      omega
  · refine ⟨s₁, rfl, ⟨hgood, hround, ?_, ?_, by omega⟩, by omega, ?_⟩
    · rw [hout₁, hround.kout, List.length_cons]
      omega
    · rw [hin₁, ham₁]
      omega
    · rw [hin₁]
      omega

theorem Good.turn_am (h : Good hash s) (hout : (s.lists .a1out).length ≤ s.kout)
    (hin : ¬ s.kin < (s.lists .a1in).length) (ham : s.lists .am ≠ []) :
    ∃ s', q2Round hash s = some (s', true) ∧ Turn hash s s' := by
  have hsize : s.sizes .a1in = (s.lists .a1in).length := h.sizes .a1in (by decide)
  have hsizeAm : s.sizes .am = (s.lists .am).length := h.sizes .am (by decide)
  obtain ⟨l, e, hlist⟩ := exists_concat ham
  have hlen : (s.lists .am).length = l.length + 1 := by rw [hlist, List.length_append, List.length_singleton]
  obtain ⟨s₁, hs₁, hgood, hround, hthis, hother, husage⟩ := h.reclaimLast (by decide) hlist
  have hin₁ := hother .a1in (by decide)
  have hout₁ := hother .a1out (by decide)
  have hcount : s.spare = s₁.spare + if s.held e = 0 then 1 else 0 := by
    rw [State.spare, State.spare, hthis, hin₁, hout₁, hround.kin, hround.kout, hround.held, hlist, ← countP_cons_held]
    exact List.Perm.countP_eq _ victims_am
  refine ⟨s₁, ?_, ⟨hgood, hround, ?_, ?_, by omega⟩, by omega, ?_⟩
  · rw [q2Round, if_neg (by omega), if_pos (by omega), hs₁]
  · rwa [hout₁, hround.kout]
  · rw [hin₁, hthis]
    omega
  · rw [hin₁]
    omega

theorem Good.evictable_iff (h : Good hash s) :
    Evictable s ↔ s.kin < (s.lists .a1in).length ∨ s.lists .am ≠ [] := by
  rw [Evictable, h.sizes .a1in (by decide), h.sizes .am (by decide), List.length_pos_iff]

/-- As long as something can be evicted a round evicts it. -/
theorem Good.turn (h : Good hash s) (hkind : s.kind = .q2) (hout : (s.lists .a1out).length ≤ s.kout)
    (hev : Evictable s) : ∃ s', q2Round hash s = some (s', true) ∧ Turn hash s s' := by
  by_cases hin : s.kin < (s.lists .a1in).length
  · exact h.turn_out hkind hout hin
  · exact h.turn_am hout hin ((h.evictable_iff.mp hev).resolve_left hin)

theorem Good.spare_eq_zero (h : Good hash s) (hout : (s.lists .a1out).length ≤ s.kout) (hev : ¬ Evictable s) :
    s.spare = 0 := by
  rw [h.evictable_iff, not_or, not_lt, not_not] at hev
  rw [State.spare, victims, hev.2, List.append_nil, List.drop_eq_nil_of_le hev.1, List.nil_append,
    List.drop_eq_nil_of_le hout, List.countP_nil]

/-- One round: the loop is over, or it is stuck, or it advances. -/
theorem Good.round (h : Good hash s) (hkind : s.kind = .q2) (hout : (s.lists .a1out).length ≤ s.kout) (n : Nat) :
    q2Reclaim hash (n + 1) s = some s ∨
      (q2Reclaim hash (n + 1) s = none ∧ s.capacity < s.usage ∧ s.lists .a1in ≠ [] ∧ s.spare = 0) ∨
      ∃ s', q2Reclaim hash (n + 1) s = q2Reclaim hash n s' ∧ Advance hash s s' := by
  have hsize : s.sizes .a1in = (s.lists .a1in).length := h.sizes .a1in (by decide)
  rw [q2Reclaim_succ]
  by_cases hcond : s.capacity < s.usage ∧ 0 < s.sizes .a1in
  · rw [if_pos hcond]
    by_cases hev : Evictable s
    · obtain ⟨s', hs', hturn⟩ := h.turn hkind hout hev
      right
      right
      refine ⟨s', ?_, hturn.toAdvance⟩
      rw [if_pos hev, hs']
      rfl
    · right
      left
      rw [hsize] at hcond
      exact ⟨if_neg hev, hcond.1, List.ne_nil_of_length_pos hcond.2, h.spare_eq_zero hout hev⟩
  · left
    rw [if_neg hcond]

theorem q2Reclaim_spec {n : Nat} (h : Good hash s) (hkind : s.kind = .q2) (hout : (s.lists .a1out).length ≤ s.kout)
    (hs : q2Reclaim hash n s = some s') : Good hash s' ∧ Round s s' ∧ (s'.lists .a1out).length ≤ s'.kout := by
  induction n generalizing s with
  | zero => simp [q2Reclaim] at hs
  | succ n ih =>
    obtain hend | ⟨hstuck, -⟩ | ⟨s₁, hnext, hadv⟩ := h.round hkind hout n
    · obtain rfl := Option.some.inj (hend.symm.trans hs)
      exact ⟨h, ⟨rfl, rfl, rfl, rfl, rfl⟩, hout⟩
    · rw [hstuck] at hs
      exact absurd hs (by simp)
    · rw [hnext] at hs
      obtain ⟨hgood, hround, hout'⟩ := ih hadv.good (hadv.round.kind.trans hkind) hadv.out hs
      exact ⟨hgood, hadv.round.trans hround, hout'⟩

/-- The loop ends when enough entries are not held. -/
theorem q2Reclaim_isSome {n : Nat} (h : Good hash s) (hkind : s.kind = .q2) (hout : (s.lists .a1out).length ≤ s.kout)
    (hn : (s.lists .a1in).length + (s.lists .am).length < n) (henough : s.usage ≤ s.capacity + s.spare) :
    (q2Reclaim hash n s).isSome := by
  induction n generalizing s with
  | zero => omega
  | succ n ih =>
    obtain hend | ⟨-, hmore, -, hzero⟩ | ⟨s₁, hnext, hadv⟩ := h.round hkind hout n
    · rw [hend]
      rfl
    · omega
    · rw [hnext]
      refine ih hadv.good (hadv.round.kind.trans hkind) hadv.out ?_ ?_
      · have := hadv.less
        omega
      · have := hadv.spare
        rw [hadv.round.capacity]
        omega

end RaleighSL.Zcl.Cache
