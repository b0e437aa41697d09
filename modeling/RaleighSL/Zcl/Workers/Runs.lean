import RaleighSL.Zcl.Workers.Steps

/-!
# Runs of the worker threads

No thread is left asleep, whatever the order of the steps. With turns for everybody the threads begin
all tasks that were submitted, and leave when the context is closed.
-/
namespace RaleighSL.Zcl.Workers

open Library
open Dispatcher (Op Board Rep Allowed Fresh Few)

variable {n : Nat} {τ ω : Type*} [DecidableEq τ] [DecidableEq ω] {s s' : State n τ ω} {b b' : Board τ ω}

theorem run_inv {acts : List (Act n τ ω)} (hm : Meets step Fits (State.init n) acts) :
    ∃ s es, exec step (State.init n) acts = some (s, es) ∧ ∃ b, Inv s b :=
  exec_history (I := fun s _ => ∃ b, Inv s b)
    (fun s _ _ ⟨_, h⟩ hfits => by
      obtain ⟨s', e, b', hs, hsteps⟩ := h.step hfits
      exact ⟨s', e, hs, b', hsteps.inv⟩) ⟨Board.init, inv_init⟩ hm (h := [])

omit [DecidableEq τ] [DecidableEq ω] in
theorem Inv.ready_eq_nil_iff (h : Inv s b) : ready b = [] ↔ s.tasks.pending.toList = [] ∧ s.tasks.queue = none := by
  have hpending := (h.rep.stored .pending).2
  have hqueue := (h.rep.stored .queue).chain.head?
  rw [ready, List.append_eq_nil_iff, hpending, hqueue, List.head?_eq_none_iff]

/-- The threads and the thread that closes the context, whatever the order of their steps and whoever is woken up: as
long as there is a task not all threads sleep, no thread sleeps any more once the context is being closed, the closing
thread does not sleep on when all threads are gone, and the context is freed after all threads are gone. -/
theorem run_serves (acts : List (Act n τ ω)) (hm : Meets step Fits (State.init n) acts) :
    ∃ s es, exec step (State.init n) acts = some (s, es) ∧
      (0 < n → (∀ t, s.place t = .asleep) → s.tasks.pending.toList = [] ∧ s.tasks.queue = none) ∧
      (s.closer ≠ .out → ∀ t, s.place t ≠ .asleep) ∧
      ((∀ t, s.place t = .gone) → s.closer ≠ .asleep) ∧
      (s.closer = .done → ∀ t, s.place t = .gone) := by
  obtain ⟨s, es, he, b, h⟩ := run_inv hm
  refine ⟨s, es, he, fun hn hall => ?_, fun hout t ht => ?_, fun hall => ?_, fun hdone t => ?_⟩
  · exact h.ready_eq_nil_iff.mp (h.idle hn fun t => Place.isAsleep_iff.mpr (hall t))
  · have hawake := (h.closed hout).2 t
    rw [ht] at hawake
    cases hawake
  · exact h.not_asleep fun t => Place.isGone_iff.mpr (hall t)
  · have hjoined := h.joined
    rw [hdone] at hjoined
    exact Place.isGone_iff.mp (hjoined t)

/-! ### Rounds -/

theorem IsOpen.exec {acts : List (Act n τ ω)} {es : List (Option τ)} (hkeeps : ∀ act ∈ acts, KeepsOpen act)
    (hm : Meets step Fits (State.init n) acts) (he : exec step (State.init n) acts = some (s, es)) : IsOpen s := by
  have hstep (s : State n τ ω) (act : Act n τ ω) (s' : State n τ ω) (e : Option τ) (h : (∃ b, Inv s b) ∧ IsOpen s)
      (hok : KeepsOpen act ∧ Fits s act) (hs : Workers.step s act = some (s', e)) : (∃ b, Inv s' b) ∧ IsOpen s' := by
    obtain ⟨⟨b, hinv⟩, hopen⟩ := h
    obtain ⟨s₁, e₁, b', h₁, hsteps⟩ := hinv.step hok.2
    obtain ⟨rfl, rfl⟩ := Prod.mk.inj (Option.some.inj (h₁.symm.trans hs))
    exact ⟨⟨b', hsteps.inv⟩, hsteps.opens hok.1 hopen⟩
  exact (exec_invariant hstep ⟨⟨Board.init, inv_init⟩, rfl, fun _ => rfl⟩ (hm.and_forall hkeeps) he).2

omit [DecidableEq τ] [DecidableEq ω] in
theorem tally_place_le {w : Place τ → Nat} {k : Nat} {place : Fin n → Place τ} (hw : ∀ t, w (place t) ≤ k) :
    tally w place ≤ k * n := by
  calc tally w place ≤ ∑ _t : Fin n, k := Finset.sum_le_sum fun t _ => hw t
    _ = k * n := by simp [Nat.mul_comm]

omit [DecidableEq τ] [DecidableEq ω] in
theorem Place.turns_le (place : Place τ) : place.turns ≤ 3 := by
  cases place <;> simp [turns]

omit [DecidableEq τ] [DecidableEq ω] in
theorem Place.weight_woken_le (place : Place τ) : place.woken.weight ≤ 4 := by
  cases place <;> simp [woken, weight]

/-- The threads begin the first tasks that can be fetched, and the others are still there. -/
theorem exec_hands {acts : List (Act n τ ω)} (h : Inv s b) (hquiet : ∀ act ∈ acts, Quiet act) (hm : Meets step Fits s acts) :
    ∃ s' es, exec step s acts = some (s', es) ∧ ∃ b', Inv s' b' ∧ ready b = es.reduceOption ++ ready b' := by
  refine exec_history (I := fun s' es => ∃ b', Inv s' b' ∧ ready b = es.reduceOption ++ ready b') (h := [])
    (fun s₁ es act ⟨b₁, h₁, hready⟩ hok => ?_) ⟨b, h, rfl⟩ (hm.and_forall hquiet)
  obtain ⟨s₂, e, b₂, hs, hsteps⟩ := h₁.step hok.2
  refine ⟨s₂, e, hs, b₂, hsteps.inv, ?_⟩
  rw [hready, hsteps.handed hok.1, List.reduceOption_append, List.append_assoc]
  cases e <;> rfl

/-- In rounds in which every thread has a turn all tasks are begun. -/
theorem exec_unserved {rounds : List (List (Act n τ ω))} (h : Inv s b) (hopen : IsOpen s) (hn : 0 < n)
    (hquiet : ∀ act ∈ rounds.flatten, Quiet act) (hm : Meets step Fits s rounds.flatten)
    (hturns : ∀ round ∈ rounds, ∀ t, .run t ∈ round) (hlen : 3 * (ready b).length + 3 * n ≤ rounds.length) :
    ∃ s' es b', exec step s rounds.flatten = some (s', es) ∧ Inv s' b' ∧ ready b' = [] := by
  have hstep (s : State n τ ω) (k : (Fin n → Place τ) × List τ) (act : Act n τ ω)
      (h : ∃ b, Inv s b ∧ IsOpen s ∧ k = (s.place, ready b)) (hok : Quiet act ∧ Fits s act) :
      ∃ s' e k', step s act = some (s', e) ∧ (∃ b, Inv s' b ∧ IsOpen s' ∧ k' = (s'.place, ready b)) ∧
        (unserved k' ≤ unserved k - 1 ∨ k' = k) := by
    obtain ⟨b, hinv, hopen, rfl⟩ := h
    obtain ⟨s', e, b', hs, hsteps⟩ := hinv.step hok.2
    exact ⟨s', e, _, hs, ⟨b', hsteps.inv, hsteps.opens hok.1.keepsOpen hopen, rfl⟩, hsteps.serves hok.1 hopen⟩
  have hturn (s : State n τ ω) (k : (Fin n → Place τ) × List τ) (h : ∃ b, Inv s b ∧ IsOpen s ∧ k = (s.place, ready b))
      (hpos : 0 < unserved k) : ∃ act ∈ (List.finRange n).map Act.run, ∀ s₁ : State n τ ω,
        (∃ b, Inv s₁ b ∧ IsOpen s₁ ∧ k = (s₁.place, ready b)) → Quiet act ∧ Fits s₁ act →
        ∃ s₂ e k', step s₁ act = some (s₂, e) ∧ (∃ b, Inv s₂ b ∧ IsOpen s₂ ∧ k' = (s₂.place, ready b)) ∧
          unserved k' ≤ unserved k - 1 := by
    obtain ⟨b, hinv, hopen, rfl⟩ := h
    have hready : ready b ≠ [] := by
      intro hnone
      rw [unserved, if_pos hnone] at hpos
      exact Nat.lt_irrefl 0 hpos
    obtain ⟨t, ht⟩ : ∃ t, (s.place t).isAsleep = false := by
      by_contra hall
      refine hready (hinv.idle hn fun t => ?_)
      exact Bool.of_not_eq_false fun ht => hall ⟨t, ht⟩
    refine ⟨.run t, List.mem_map_of_mem (List.mem_finRange t), ?_⟩
    rintro s₁ ⟨b₁, h₁, hopen₁, hk⟩ hok
    obtain ⟨s₂, e, b₂, hs, hadvances⟩ := h₁.advance hok.2
    obtain ⟨hplace, hsame⟩ := Prod.mk.inj hk
    rw [hplace] at ht
    rw [hsame] at hready
    rw [hk]
    exact ⟨s₂, e, _, hs, ⟨b₂, hadvances.inv, hadvances.opens hopen₁, rfl⟩, Nat.le_pred_of_lt (hadvances.serves hopen₁ ht hready)⟩
  have hrounds : ∀ round ∈ rounds, (List.finRange n).map Act.run ⊆ round := by
    intro round hround act hact
    obtain ⟨t, -, rfl⟩ := List.mem_map.mp hact
    exact hturns round hround t
  obtain ⟨s', es, k, he, ⟨b', h', -, rfl⟩, hless⟩ :=
    exec_rounds hstep hturn ⟨b, h, hopen, rfl⟩ hrounds (hm.and_forall hquiet)
  refine ⟨s', es, b', he, h', ?_⟩
  have hbound : unserved (s.place, ready b) ≤ 3 * (ready b).length + 3 * n := by
    rw [unserved]
    split_ifs
    · exact Nat.zero_le _
    · exact Nat.add_le_add_left (tally_place_le fun t => Place.turns_le _) _
  by_contra hnone
  have hpos := List.length_pos_iff.mpr hnone
  rw [unserved, if_neg hnone] at hless
  dsimp only at hless
  omega

/-- While the context is neither stopped nor closed and nothing is submitted, the threads begin all tasks that were
submitted, the pending ones first, in rounds in which every thread has a turn, however often they are woken up for no
reason. -/
theorem rounds_begin (acts : List (Act n τ ω)) (rounds : List (List (Act n τ ω))) (hn : 0 < n)
    (hm : Meets step Fits (State.init n) (acts ++ rounds.flatten)) (hkeeps : ∀ act ∈ acts, KeepsOpen act)
    (hquiet : ∀ act ∈ rounds.flatten, Quiet act) (hturns : ∀ round ∈ rounds, ∀ t, .run t ∈ round) :
    ∃ s es queued, exec step (State.init n) acts = some (s, es) ∧ Chain s.tasks.links.child0 s.tasks.queue queued ∧
      (3 * (s.tasks.pending.toList ++ queued).length + 3 * n ≤ rounds.length →
        ∃ s' es', exec step s rounds.flatten = some (s', es') ∧ es'.reduceOption = s.tasks.pending.toList ++ queued ∧
          s'.tasks.pending.toList = [] ∧ s'.tasks.queue = none) := by
  obtain ⟨s, es, he, b, h⟩ := run_inv hm.front
  obtain ⟨hfirst, hrest⟩ := hm.of_append he
  have hready : s.tasks.pending.toList ++ b.tasks .queue = ready b := by
    rw [ready, ← (h.rep.stored .pending).2]
  refine ⟨s, es, b.tasks .queue, he, (h.rep.stored .queue).chain, fun hlen => ?_⟩
  rw [hready] at hlen ⊢
  obtain ⟨s', es', b', he', h', hnone⟩ := exec_unserved h (IsOpen.exec hkeeps hfirst he) hn hquiet hrest hturns hlen
  obtain ⟨s₁, es₁, h₁, b₁, hinv, hhands⟩ := exec_hands h hquiet hrest
  obtain ⟨rfl, rfl⟩ := Prod.mk.inj (Option.some.inj (h₁.symm.trans he'))
  have hempty := h'.ready_eq_nil_iff.mp hnone
  rw [hinv.ready_eq_nil_iff.mpr hempty, List.append_nil] at hhands
  exact ⟨s₁, es₁, he', hhands.symm, hempty⟩

omit [DecidableEq τ] [DecidableEq ω] in
theorem remaining_eq_zero (h : remaining s.control = 0) (hout : s.closer ≠ .out) :
    s.closer = .done ∧ ∀ t, s.place t = .gone := by
  obtain ⟨hthreads, hcloser⟩ := Nat.add_eq_zero_iff.mp h
  refine ⟨?_, fun t => ?_⟩
  · cases hc : s.closer with
    | out => exact absurd hc hout
    | done => rfl
    | _ =>
      rw [State.control, hc] at hcloser
      cases hcloser
  · have ht : (s.place t).weight = 0 := tally_eq_zero.mp hthreads t
    cases hp : s.place t with
    | gone => rfl
    | _ =>
      rw [hp] at ht
      cases ht

omit [DecidableEq τ] [DecidableEq ω] in
theorem Inv.remaining_close (h : Inv s b) (hout : s.closer = .out) :
    remaining ((fun t => (s.place t).woken), (if s.waitingThreads < s.ncpus then Closer.asleep else .next), s.ncpus) ≤ 6 * n + 3 := by
  have hncpus : s.ncpus = n := by
    have hjoined := h.joined
    rwa [hout] at hjoined
  have hthreads : tally Place.weight (fun t => (s.place t).woken) ≤ 4 * n := tally_place_le fun t => Place.weight_woken_le _
  have hcloser : (if s.waitingThreads < s.ncpus then Closer.asleep else .next).weight n s.ncpus ≤ 2 * n + 3 := by
    split_ifs
    · exact le_rfl
    · show 2 * s.ncpus + 1 ≤ 2 * n + 3
      omega
  rw [remaining]
  dsimp only
  omega

/-- In rounds in which everybody has a turn all threads leave and the closing thread gets to the end. -/
theorem exec_closing {rounds : List (List (Act n τ ω))} (h : Inv s b) (hout : s.closer ≠ .out) (hm : Meets step Fits s rounds.flatten)
    (hturns : ∀ round ∈ rounds, .closer ∈ round ∧ ∀ t, .run t ∈ round) (hlen : remaining s.control ≤ rounds.length) :
    ∃ s' es, exec step s rounds.flatten = some (s', es) ∧ s'.closer = .done ∧ ∀ t, s'.place t = .gone := by
  have hstep (s : State n τ ω) (k : (Fin n → Place τ) × Closer × Nat) (act : Act n τ ω)
      (h : s.closer ≠ .out ∧ (∃ b, Inv s b) ∧ k = s.control) (hok : Fits s act) :
      ∃ s' e k', step s act = some (s', e) ∧ (s'.closer ≠ .out ∧ (∃ b, Inv s' b) ∧ k' = s'.control) ∧
        (remaining k' ≤ remaining k - 1 ∨ k' = k) := by
    obtain ⟨hout, ⟨b, hinv⟩, rfl⟩ := h
    obtain ⟨s', e, b', hs, hsteps⟩ := hinv.step hok
    obtain ⟨hout', hless⟩ := hsteps.approaches hout
    exact ⟨s', e, _, hs, ⟨hout', ⟨b', hsteps.inv⟩, rfl⟩, hless.imp_left Nat.le_pred_of_lt⟩
  have hturn (s : State n τ ω) (k : (Fin n → Place τ) × Closer × Nat) (h : s.closer ≠ .out ∧ (∃ b, Inv s b) ∧ k = s.control)
      (hpos : 0 < remaining k) : ∃ act ∈ Act.closer :: (List.finRange n).map Act.run, ∀ s₁ : State n τ ω,
        s₁.closer ≠ .out ∧ (∃ b, Inv s₁ b) ∧ k = s₁.control → Fits s₁ act →
        ∃ s₂ e k', step s₁ act = some (s₂, e) ∧ (s₂.closer ≠ .out ∧ (∃ b, Inv s₂ b) ∧ k' = s₂.control) ∧
          remaining k' ≤ remaining k - 1 := by
    obtain ⟨-, -, rfl⟩ := h
    by_cases hall : ∀ t, (s.place t).isGone = true
    · refine ⟨.closer, List.mem_cons_self, fun s₁ ⟨hout₁, ⟨b₁, h₁⟩, hk⟩ _ => ?_⟩
      have hcloses := h₁.advanceCloser
      have hplace : s.place = s₁.place := congrArg Prod.fst hk
      rw [hplace] at hall
      rw [hk] at hpos ⊢
      exact ⟨_, none, _, rfl, ⟨(hcloses.approaches hout₁).1, ⟨b₁, hcloses.inv⟩, rfl⟩, Nat.le_pred_of_lt (hcloses.less hpos hall)⟩
    · obtain ⟨t, ht⟩ := not_forall.mp hall
      refine ⟨.run t, List.mem_cons_of_mem _ (List.mem_map_of_mem (List.mem_finRange t)), fun s₁ ⟨hout₁, ⟨b₁, h₁⟩, hk⟩ hok => ?_⟩
      obtain ⟨s₂, e, b₂, hs, hadvances⟩ := h₁.advance hok
      have hplace : s.place = s₁.place := congrArg Prod.fst hk
      rw [hplace, Bool.not_eq_true] at ht
      rw [hk]
      exact ⟨s₂, e, _, hs, ⟨(hadvances.approaches hout₁).1, ⟨b₂, hadvances.inv⟩, rfl⟩,
        Nat.le_pred_of_lt (hadvances.less hout₁ ht)⟩
  have hrounds : ∀ round ∈ rounds, Act.closer :: (List.finRange n).map Act.run ⊆ round := by
    intro round hround act hact
    obtain ⟨hcloser, hrun⟩ := hturns round hround
    obtain rfl | hact := List.mem_cons.mp hact
    · exact hcloser
    · obtain ⟨t, -, rfl⟩ := List.mem_map.mp hact
      exact hrun t
  obtain ⟨s', es, k, he, ⟨hout', -, rfl⟩, hless⟩ := exec_rounds hstep hturn ⟨hout, ⟨b, h⟩, rfl⟩ hrounds hm
  exact ⟨s', es, he, remaining_eq_zero (by omega) hout'⟩

/-- When the context is closed, all threads leave and the closing thread gets to the end, in rounds in which everybody
has a turn, whatever is submitted meanwhile. -/
theorem rounds_close (acts : List (Act n τ ω)) (rounds : List (List (Act n τ ω)))
    (hm : Meets step Fits (State.init n) (acts ++ .close :: rounds.flatten))
    (hturns : ∀ round ∈ rounds, .closer ∈ round ∧ ∀ t, .run t ∈ round) (hlen : 6 * n + 3 ≤ rounds.length) :
    ∃ s es, exec step (State.init n) (acts ++ .close :: rounds.flatten) = some (s, es) ∧ s.closer = .done ∧
      ∀ t, s.place t = .gone := by
  obtain ⟨s, es, he, b, h⟩ := run_inv hm.front
  obtain ⟨-, hclose, hrest⟩ := hm.of_append he
  have hout : s.closer = .out := hclose
  have hfirst : step s .close = some ({ s with
      isClosed := true
      place := fun t => (s.place t).woken
      closer := if s.waitingThreads < s.ncpus then .asleep else .next }, none) := by
    rw [step, hout]
  obtain ⟨s', es', he', hdone⟩ := exec_closing (h.close hout) (by split_ifs <;> simp) (hrest _ _ hfirst) hturns
    ((h.remaining_close hout).trans hlen)
  refine ⟨s', es ++ none :: es', ?_, hdone⟩
  rw [exec_append, he, Option.bind_some, exec_cons, hfirst, Option.bind_some, he']
  rfl

/-- Both threads go to sleep, one is woken up by a signal and the other one for no reason, and two tasks are left. -/
def sleepersActs (t u : Fin n) : List (Act n Nat Unit) :=
  [.post (.add 7) t, .run t, .run t, .run u, .run u, .run t, .run t, .run t, .post (.add 8) u, .wakeUp t, .run u,
    .post (.add 9) t, .post (.add 5) u]

theorem run_serves_sleepers :
    ∃ s es, exec step (State.init 2) (sleepersActs 0 1) = some (s, es) ∧
      (0 < 2 → (∀ t, s.place t = .asleep) → s.tasks.pending.toList = [] ∧ s.tasks.queue = none) ∧
      (s.closer ≠ .out → ∀ t, s.place t ≠ .asleep) ∧
      ((∀ t, s.place t = .gone) → s.closer ≠ .asleep) ∧
      (s.closer = .done → ∀ t, s.place t = .gone) :=
  run_serves (sleepersActs 0 1) (by decide)

theorem rounds_begin_sleepers :
    ∃ s es queued, exec step (State.init 2) (sleepersActs 0 1) = some (s, es) ∧ Chain s.tasks.links.child0 s.tasks.queue queued ∧
      (3 * (s.tasks.pending.toList ++ queued).length + 3 * 2 ≤ 12 →
        ∃ s' es', exec step s (List.replicate 12 [.run 0, .run 1]).flatten = some (s', es') ∧
          es'.reduceOption = s.tasks.pending.toList ++ queued ∧ s'.tasks.pending.toList = [] ∧ s'.tasks.queue = none) :=
  rounds_begin (sleepersActs 0 1) (List.replicate 12 [.run 0, .run 1]) (by decide) (by decide) (by decide) (by decide) (by decide)

theorem rounds_close_sleepers :
    ∃ s es, exec step (State.init 2) (sleepersActs 0 1 ++ .close :: (List.replicate 15 [.closer, .run 0, .run 1]).flatten) = some (s, es) ∧
      s.closer = .done ∧ ∀ t, s.place t = .gone :=
  rounds_close (sleepersActs 0 1) (List.replicate 15 [.closer, .run 0, .run 1]) (by decide) (by decide) (by decide)

end RaleighSL.Zcl.Workers
