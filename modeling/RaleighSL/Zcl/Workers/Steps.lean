import RaleighSL.Library.Places
import RaleighSL.Zcl.Workers.Model

/-!
# What a step of the worker threads keeps

While there is a task not all threads sleep, and when the context is being closed none does. A number
goes down with every step that counts: the way of the threads and of the closing thread to the end,
and the way to the next task while nothing is submitted.
-/
namespace RaleighSL.Zcl.Workers

open Library
open Dispatcher (Op Board Rep Allowed Fresh Few)

variable {n : Nat} {τ ω : Type*}

namespace Place

def goneWeight (place : Place τ) : Nat := if place.isGone then 1 else 0

theorem goneWeight_of_not_gone {place : Place τ} (h : place.isGone = false) : place.goneWeight = 0 := by
  rw [goneWeight, h]
  rfl

end Place

/-- The threads that the closing thread has waited for are gone. -/
def Joined (ncpus : Nat) (place : Fin n → Place τ) : Closer → Prop
  | .out | .asleep | .awake => ncpus = n
  | .next => ∀ t : Fin n, ncpus ≤ t.val → (place t).isGone = true
  | .join i => ncpus = i ∧ ∀ t : Fin n, i < t.val → (place t).isGone = true
  | .done => ∀ t : Fin n, (place t).isGone = true

/-- The tasks that the threads can fetch, in the order in which they do. -/
def ready (b : Board τ ω) : List τ := b.tasks .pending ++ b.tasks .queue

/-- Not all threads sleep while there is a task, and none does when the context is being closed. The closing
thread sleeps only as long as a thread has still to be counted. -/
structure Inv (s : State n τ ω) (b : Board τ ω) : Prop where
  rep : Rep s.tasks b
  idle : 0 < n → (∀ t, (s.place t).isAsleep = true) → ready b = []
  closed : s.closer ≠ .out → s.isClosed = true ∧ ∀ t, (s.place t).isAsleep = false
  counted : (tally Place.goneWeight s.place : Int) ≤ s.waitingThreads
  waits : s.closer = .asleep → s.waitingThreads < s.ncpus
  joined : Joined s.ncpus s.place s.closer

variable {s s' : State n τ ω} {b b' : Board τ ω} {t : Fin n} {q p : Place τ} {e : Option τ} {op : Op τ ω}
variable {place place' : Fin n → Place τ}
variable {closer closer' : Closer} {ncpus : Nat}

theorem Joined.mono (h : Joined ncpus place closer) (hgone : ∀ t, (place t).isGone = true → (place' t).isGone = true) :
    Joined ncpus place' closer := by
  cases closer with
  | out | asleep | awake => exact h
  | next => exact fun t ht => hgone t (h t ht)
  | join i => exact ⟨h.1, fun t ht => hgone t (h.2 t ht)⟩
  | done => exact fun t => hgone t (h t)

theorem Joined.woken (h : Joined ncpus place closer) : Joined ncpus place closer.woken := by
  cases closer with
  | asleep => exact h
  | _ => exact h

theorem inv_init : Inv (State.init n : State n τ ω) Board.init where
  rep := Dispatcher.rep_init
  idle _ _ := rfl
  closed h := absurd rfl h
  counted := by
    have hzero : tally Place.goneWeight (State.init n : State n τ ω).place = 0 := tally_eq_zero.mpr fun _ => rfl
    rw [hzero]
    exact le_rfl
  waits h := by cases h
  joined := rfl

theorem Inv.goto (h : Inv s b) {tasks : Dispatcher.State τ ω} {w : Int} {c : Closer} (hrep : Rep tasks b')
    (hsleep : p.isAsleep = true → s.closer = .out ∧ ready b' = [])
    (hgone : (s.place t).isGone = false) (hw : s.waitingThreads + p.goneWeight ≤ w)
    (hc : c = s.closer ∨ c = s.closer.woken) (hwait : c = .asleep → w < s.ncpus) :
    Inv { s with tasks := tasks, waitingThreads := w, closer := c, place := Function.update s.place t p } b' where
  rep := hrep
  idle hn hall := by
    have ht := hall t
    dsimp only at ht
    rw [Function.update_self] at ht
    exact (hsleep ht).2
  closed hclosing := by
    have hout : s.closer ≠ .out := by
      rintro hout
      rcases hc with rfl | rfl
      · exact hclosing hout
      · exact hclosing (by rw [hout]; rfl)
    obtain ⟨hclosed, hawake⟩ := h.closed hout
    refine ⟨hclosed, fun u => ?_⟩
    show (Function.update s.place t p u).isAsleep = false
    by_cases hut : u = t
    · rw [hut, Function.update_self]
      exact Bool.eq_false_iff.mpr fun hp => hout (hsleep hp).1
    · rw [Function.update_of_ne hut]
      exact hawake u
  counted := by
    have htally := tally_update Place.goneWeight s.place t p
    rw [Place.goneWeight_of_not_gone hgone, Nat.add_zero] at htally
    have hcounted := h.counted
    show (tally Place.goneWeight (Function.update s.place t p) : Int) ≤ w
    omega
  waits := hwait
  joined := by
    have hsame : Joined s.ncpus s.place c := by
      rcases hc with rfl | rfl
      · exact h.joined
      · exact h.joined.woken
    refine hsame.mono fun u hu => ?_
    have hut : u ≠ t := by
      rintro rfl
      rw [hgone] at hu
      cases hu
    show (Function.update s.place t p u).isGone = true
    rwa [Function.update_of_ne hut]

theorem Inv.count (h : Inv s b) {tasks : Dispatcher.State τ ω} (hrep : Rep tasks b')
    (hsleep : p.isAsleep = true → s.closer = .out ∧ ready b' = [])
    (hgone : (s.place t).isGone = false) (hfits : s.waitingThreads + 1 < 2 ^ 31) :
    ∃ s', ({ s with tasks := tasks }.goto t p).count = some s' ∧ Inv s' b' ∧ s'.place = Function.update s.place t p ∧
      s'.ncpus = s.ncpus ∧ s'.isClosed = s.isClosed ∧ (s'.closer = s.closer ∨ s'.closer = s.closer.woken) := by
  have hc : (if s.waitingThreads + 1 = s.ncpus then s.closer.woken else s.closer) = s.closer ∨
      (if s.waitingThreads + 1 = s.ncpus then s.closer.woken else s.closer) = s.closer.woken := by
    split_ifs
    · exact .inr rfl
    · exact .inl rfl
  refine ⟨_, if_pos hfits, h.goto hrep hsleep hgone ?_ hc fun hwait => ?_, rfl, rfl, rfl, hc⟩
  · show s.waitingThreads + p.goneWeight ≤ s.waitingThreads + 1
    have hone : p.goneWeight ≤ 1 := by
      rw [Place.goneWeight]
      split_ifs <;> omega
    omega
  · show s.waitingThreads + 1 < s.ncpus
    split_ifs at hwait with heq
    · cases hcloser : s.closer <;> rw [hcloser] at hwait <;> cases hwait
    · have hless : s.waitingThreads < s.ncpus := h.waits hwait
      have hne : ¬ s.waitingThreads + 1 = s.ncpus := heq
      omega

/-! ### The way to the end -/

def Place.weight : Place τ → Nat
  | .gone => 0
  | .leave => 1
  | .test => 2
  | .exec _ | .fetch => 3
  | .awake => 4
  | .asleep => 5

/-- How many steps it is at most until the thread fetches a task. -/
def Place.turns : Place τ → Nat
  | .leave | .gone => 0
  | .fetch => 1
  | .test | .awake => 2
  | .exec _ | .asleep => 3

def Closer.weight (n ncpus : Nat) : Closer → Nat
  | .out | .done => 0
  | .next => 2 * ncpus + 1
  | .join i => 2 * i + 2
  | .awake => 2 * n + 2
  | .asleep => 2 * n + 3

def State.control (s : State n τ ω) : (Fin n → Place τ) × Closer × Nat := (s.place, s.closer, s.ncpus)

/-- How far it is to the end. -/
def remaining (control : (Fin n → Place τ) × Closer × Nat) : Nat :=
  tally Place.weight control.1 + control.2.1.weight n control.2.2

/-- How far it is until there is no task to be fetched. -/
def unserved (control : (Fin n → Place τ) × List τ) : Nat :=
  if control.2 = [] then 0 else 3 * control.2.length + tally Place.turns control.1

/-- The context is neither stopped nor being closed, and no thread has left. -/
def IsOpen (s : State n τ ω) : Prop := s.isClosed = false ∧ ∀ t, (s.place t).hasLeft = false

theorem Closer.weight_woken (closer : Closer) : closer.woken.weight n ncpus ≤ closer.weight n ncpus := by
  cases closer with
  | asleep => exact Nat.le_succ _
  | _ => exact le_rfl

theorem Closer.woken_of_ne (h : closer ≠ .asleep) : closer.woken = closer := by
  cases closer with
  | asleep => exact absurd rfl h
  | _ => rfl

theorem Closer.woken_ne_out (h : closer ≠ .out) : closer.woken ≠ .out := by
  cases closer <;> first | exact h | nofun

/-- A thread goes on, and the closing thread may be woken up. -/
theorem remaining_goto (hp : p.weight < (s.place t).weight) (hplace : s'.place = Function.update s.place t p)
    (hncpus : s'.ncpus = s.ncpus) (hcloser : s'.closer = s.closer ∨ s'.closer = s.closer.woken) :
    remaining s'.control < remaining s.control := by
  have htally := tally_update Place.weight s.place t p
  have hless : s'.closer.weight n s.ncpus ≤ s.closer.weight n s.ncpus := by
    rcases hcloser with h | h
    · rw [h]
    · rw [h]
      exact Closer.weight_woken _
  rw [remaining, remaining, State.control, State.control, hplace, hncpus]
  dsimp only
  omega

/-- A thread goes on, with the task it begins to execute. -/
structure Goes (s : State n τ ω) (b : Board τ ω) (t : Fin n) (q p : Place τ) (b' : Board τ ω) (e : Option τ) : Prop where
  here : s.place t = q
  gone : q.isGone = false
  asleep : q.isAsleep = false
  handed : ready b = e.toList ++ ready b'
  closing : s.closer ≠ .out → p.weight < q.weight
  opens : IsOpen s → p.hasLeft = false
  serves : IsOpen s → ready b ≠ [] → p.turns < q.turns + 3 * e.toList.length

theorem Goes.unserved_lt (h : Goes s b t q p b' e) (hopen : IsOpen s) (hready : ready b ≠ []) :
    unserved (Function.update s.place t p, ready b') < unserved (s.place, ready b) := by
  have htally := tally_update Place.turns s.place t p
  rw [h.here] at htally
  have hless := h.serves hopen hready
  have hlength : (ready b).length = e.toList.length + (ready b').length := by
    rw [h.handed, List.length_append]
  have hpos := List.length_pos_iff.mpr hready
  rw [unserved, unserved, if_neg hready]
  split_ifs <;> dsimp only <;> omega

/-- What a step of a worker thread does. -/
structure Advances (s : State n τ ω) (b : Board τ ω) (t : Fin n) (s' : State n τ ω) (b' : Board τ ω) (e : Option τ) : Prop where
  inv : Inv s' b'
  handed : ready b = e.toList ++ ready b'
  closer : s'.closer = s.closer ∨ s'.closer = s.closer.woken
  stays : (s.place t).isGone = true → s'.control = s.control
  less : s.closer ≠ .out → (s.place t).isGone = false → remaining s'.control < remaining s.control
  opens : IsOpen s → IsOpen s'
  sleeps : (s.place t).isAsleep = true → (s'.place, ready b') = (s.place, ready b)
  serves : IsOpen s → (s.place t).isAsleep = false → ready b ≠ [] →
    unserved (s'.place, ready b') < unserved (s.place, ready b)

/-- A thread that sleeps or is gone does nothing. -/
theorem Inv.advances_stay (h : Inv s b) (hp : (s.place t).isAsleep = true ∨ (s.place t).isGone = true) : Advances s b t s b none where
  inv := h
  handed := rfl
  closer := .inl rfl
  stays _ := rfl
  less hout hgone := by
    have hasleep := hp.resolve_right (by rw [hgone]; exact Bool.false_ne_true)
    rw [(h.closed hout).2 t] at hasleep
    cases hasleep
  opens hopen := hopen
  sleeps _ := rfl
  serves hopen hasleep := by
    have hgone := hp.resolve_left (by rw [hasleep]; exact Bool.false_ne_true)
    have hleft := hopen.2 t
    cases hplace : s.place t <;> rw [hplace] at hgone hleft <;> cases hgone
    cases hleft

theorem Goes.advances (h : Goes s b t q p b' e) (hinv : Inv s' b') (hplace : s'.place = Function.update s.place t p)
    (hncpus : s'.ncpus = s.ncpus) (hclosed : s'.isClosed = s.isClosed) (hcloser : s'.closer = s.closer ∨ s'.closer = s.closer.woken) :
    Advances s b t s' b' e where
  inv := hinv
  handed := h.handed
  closer := hcloser
  stays hgone := by
    rw [h.here, h.gone] at hgone
    cases hgone
  less hout _ := remaining_goto (h.here ▸ h.closing hout) hplace hncpus hcloser
  opens hopen := by
    refine ⟨hclosed.trans hopen.1, fun u => ?_⟩
    rw [hplace]
    by_cases hut : u = t
    · rw [hut, Function.update_self]
      exact h.opens hopen
    · rw [Function.update_of_ne hut]
      exact hopen.2 u
  sleeps hasleep := by
    rw [h.here, h.asleep] at hasleep
    cases hasleep
  serves hopen _ hready := by
    rw [hplace]
    exact h.unserved_lt hopen hready

theorem Goes.advances_goto (hgoes : Goes s b t q p b' e) (h : Inv s b) {tasks : Dispatcher.State τ ω} (hrep : Rep tasks b')
    (hasleep : p.isAsleep = false) (hgone : p.isGone = false) : Advances s b t ({ s with tasks := tasks }.goto t p) b' e := by
  have hsleep (hp : p.isAsleep = true) : s.closer = .out ∧ ready b' = [] := by
    rw [hasleep] at hp
    cases hp
  have hw : s.waitingThreads + (p.goneWeight : Int) ≤ s.waitingThreads := by
    rw [Place.goneWeight_of_not_gone hgone]
    simp
  exact hgoes.advances (h.goto hrep hsleep (hgoes.here ▸ hgoes.gone) hw (.inl rfl) h.waits) rfl rfl rfl (.inl rfl)

theorem Goes.advances_count (hgoes : Goes s b t q p b' e) (h : Inv s b) {tasks : Dispatcher.State τ ω} (hrep : Rep tasks b')
    (hsleep : p.isAsleep = true → s.closer = .out ∧ ready b' = []) (hfits : s.waitingThreads + 1 < 2 ^ 31) :
    ∃ s', ({ s with tasks := tasks }.goto t p).count = some s' ∧ Advances s b t s' b' e := by
  obtain ⟨s', hcount, hinv, hplace, hncpus, hclosed, hcloser⟩ := h.count hrep hsleep (hgoes.here ▸ hgoes.gone) hfits
  exact ⟨s', hcount, hgoes.advances hinv hplace hncpus hclosed hcloser⟩

section

variable [DecidableEq τ] [DecidableEq ω]

theorem fetch_spec (h : Rep s.tasks b) (hfew : Few s.tasks .fetch) :
    ∃ tasks out b', Dispatcher.step s.tasks .fetch = some (tasks, out) ∧ Rep tasks b' ∧
      ready b = out.toList ++ ready b' ∧ (out = none → ready b = []) := by
  obtain ⟨⟨tasks, out⟩, hs⟩ := Option.isSome_iff_exists.mp (h.fetch_isSome hfew)
  obtain ⟨hout, hrep⟩ := h.fetch hs
  refine ⟨tasks, out, _, hs, hrep, ?_⟩
  subst hout
  rw [Dispatcher.boardStep]
  cases hpending : b.tasks .pending with
  | cons k l =>
    have hrest : (b.move .pending l .running (k :: b.tasks .running)).tasks .pending = l := b.move_from (by simp)
    have hqueue : (b.move .pending l .running (k :: b.tasks .running)).tasks .queue = b.tasks .queue := b.move_other (by simp) (by simp)
    refine ⟨?_, fun hnone => (Option.some_ne_none k hnone).elim⟩
    show ready b = k :: ready (b.move .pending l .running (k :: b.tasks .running))
    rw [ready, ready, hrest, hqueue, hpending, List.cons_append]
  | nil =>
    cases hqueue : b.tasks .queue with
    | cons k l =>
      have hrest : (b.move .queue l .running (k :: b.tasks .running)).tasks .queue = l := b.move_from (by simp)
      have hsame : (b.move .queue l .running (k :: b.tasks .running)).tasks .pending = b.tasks .pending := b.move_other (by simp) (by simp)
      refine ⟨?_, fun hnone => (Option.some_ne_none k hnone).elim⟩
      show ready b = k :: ready (b.move .queue l .running (k :: b.tasks .running))
      rw [ready, ready, hrest, hsame, hpending, hqueue, List.nil_append, List.nil_append]
    | nil =>
      have hnone : ready b = [] := by rw [ready, hpending, hqueue]; rfl
      exact ⟨rfl, fun _ => hnone⟩

theorem Inv.advance (h : Inv s b) (hfits : Fits s (.run t)) :
    ∃ s' e b', Workers.advance s t = some (s', e) ∧ Advances s b t s' b' e := by
  obtain ⟨hfew, hcount⟩ := hfits
  have hclosed (hout : s.closer ≠ .out) : s.isClosed = true := (h.closed hout).1
  cases hp : s.place t with
  | asleep => exact ⟨s, none, b, by rw [Workers.advance, hp], h.advances_stay (.inl (by rw [hp]; rfl))⟩
  | gone => exact ⟨s, none, b, by rw [Workers.advance, hp], h.advances_stay (.inr (by rw [hp]; rfl))⟩
  | test =>
    have hto (p : Place τ) (hif : (if s.isClosed then Place.leave else .fetch) = p) : Workers.advance s t = some (s.goto t p, none) := by
      rw [Workers.advance, hp, ← hif]
    cases hclose : s.isClosed with
    | true =>
      have hopen (hopen : IsOpen s) : False := Bool.noConfusion (hclose.symm.trans hopen.1)
      have hgoes : Goes s b t .test .leave b none :=
        ⟨hp, rfl, rfl, rfl, fun _ => (by decide : 1 < 2), fun h => (hopen h).elim, fun h => (hopen h).elim⟩
      exact ⟨_, none, b, hto .leave (if_pos hclose), hgoes.advances_goto h h.rep rfl rfl⟩
    | false =>
      have hout (hout : s.closer ≠ .out) : False := Bool.noConfusion (hclose.symm.trans (hclosed hout))
      have hgoes : Goes s b t .test .fetch b none :=
        ⟨hp, rfl, rfl, rfl, fun h => (hout h).elim, fun _ => rfl, fun _ _ => (by decide : 1 < 2)⟩
      exact ⟨_, none, b, hto .fetch (if_neg (by rw [hclose]; exact Bool.false_ne_true)), hgoes.advances_goto h h.rep rfl rfl⟩
  | exec task =>
    have hgoes : Goes s b t (.exec task) .test b none :=
      ⟨hp, rfl, rfl, rfl, fun _ => (by decide : 2 < 3), fun _ => rfl, fun _ _ => (by decide : 2 < 3)⟩
    exact ⟨_, none, b, by rw [Workers.advance, hp], hgoes.advances_goto h h.rep rfl rfl⟩
  | leave =>
    have hopen (hopen : IsOpen s) : False := by
      have hleft := hopen.2 t
      rw [hp] at hleft
      cases hleft
    have hgoes : Goes s b t .leave .gone b none :=
      ⟨hp, rfl, rfl, rfl, fun _ => (by decide : 0 < 1), fun h => (hopen h).elim, fun h => (hopen h).elim⟩
    obtain ⟨s', hs', hadvances⟩ := hgoes.advances_count h h.rep nofun hcount
    exact ⟨s', none, b, by rw [Workers.advance, hp]; exact congrArg (Option.map _) hs', hadvances⟩
  | awake =>
    obtain ⟨tasks, out, b', hs, hrep, hready, hempty⟩ := fetch_spec h.rep hfew
    cases out with
    | some task =>
      have hgoes : Goes s b t .awake (.exec task) b' (some task) :=
        ⟨hp, rfl, rfl, hready, fun _ => (by decide : 3 < 4), fun _ => rfl, fun _ _ => (by decide : 3 < 5)⟩
      exact ⟨_, some task, b', by rw [Workers.advance, hp]; exact congrArg (Option.map _) hs, hgoes.advances_goto h hrep rfl rfl⟩
    | none =>
      have hgoes : Goes s b t .awake .test b' none :=
        ⟨hp, rfl, rfl, hready, fun _ => (by decide : 2 < 4), fun _ => rfl, fun _ hready => absurd (hempty rfl) hready⟩
      exact ⟨_, none, b', by rw [Workers.advance, hp]; exact congrArg (Option.map _) hs, hgoes.advances_goto h hrep rfl rfl⟩
  | fetch =>
    cases hclose : s.isClosed with
    | true =>
      have hopen (hopen : IsOpen s) : False := Bool.noConfusion (hclose.symm.trans hopen.1)
      have hgoes : Goes s b t .fetch .test b none :=
        ⟨hp, rfl, rfl, rfl, fun _ => (by decide : 2 < 3), fun _ => rfl, fun h => (hopen h).elim⟩
      exact ⟨_, none, b, by rw [Workers.advance, hp]; exact if_pos hclose, hgoes.advances_goto h h.rep rfl rfl⟩
    | false =>
      have hout (hout : s.closer ≠ .out) : False := Bool.noConfusion (hclose.symm.trans (hclosed hout))
      obtain ⟨tasks, out, b', hs, hrep, hready, hempty⟩ := fetch_spec h.rep hfew
      have hne : ¬ s.isClosed = true := by rw [hclose]; exact Bool.false_ne_true
      cases out with
      | some task =>
        have hgoes : Goes s b t .fetch (.exec task) b' (some task) :=
          ⟨hp, rfl, rfl, hready, fun h => (hout h).elim, fun _ => rfl, fun _ _ => (by decide : 3 < 4)⟩
        refine ⟨_, some task, b', ?_, hgoes.advances_goto h hrep rfl rfl⟩
        rw [Workers.advance, hp]
        exact (if_neg hne).trans (congrArg (Option.bind · _) hs)
      | none =>
        have hgoes : Goes s b t .fetch .asleep b' none :=
          ⟨hp, rfl, rfl, hready, fun h => (hout h).elim, fun _ => rfl, fun _ hready => absurd (hempty rfl) hready⟩
        have hidle : s.closer = .out ∧ ready b' = [] := ⟨not_not.mp hout, hready.symm.trans (hempty rfl)⟩
        obtain ⟨s', hs', hadvances⟩ := hgoes.advances_count h hrep (fun _ => hidle) hcount
        refine ⟨s', none, b', ?_, hadvances⟩
        rw [Workers.advance, hp]
        exact (if_neg hne).trans ((congrArg (Option.bind · _) hs).trans (congrArg (Option.map _) hs'))

end

/-! ### Threads that are woken up -/

/-- Some of the threads that sleep are woken up. -/
def Wakes (place place' : Fin n → Place τ) : Prop :=
  ∀ t, place' t = place t ∨ (place t).isAsleep = true ∧ place' t = .awake

theorem Wakes.isGone (h : Wakes place place') (t : Fin n) : (place' t).isGone = (place t).isGone := by
  rcases h t with hsame | ⟨hasleep, hawake⟩
  · rw [hsame]
  · rw [hawake]
    cases hp : place t <;> rw [hp] at hasleep <;> first | rfl | cases hasleep

theorem Wakes.hasLeft (h : Wakes place place') (t : Fin n) : (place' t).hasLeft = (place t).hasLeft := by
  rcases h t with hsame | ⟨hasleep, hawake⟩
  · rw [hsame]
  · rw [hawake]
    cases hp : place t <;> rw [hp] at hasleep <;> first | rfl | cases hasleep

theorem Wakes.isAsleep (h : Wakes place place') (t : Fin n) (ht : (place' t).isAsleep = true) : (place t).isAsleep = true := by
  rcases h t with hsame | ⟨hasleep, -⟩
  · rwa [← hsame]
  · exact hasleep

/-- Nobody is woken up when nobody sleeps. -/
theorem Wakes.eq (h : Wakes place place') (hawake : ∀ t, (place t).isAsleep = false) : place' = place := by
  funext t
  rcases h t with hsame | ⟨hasleep, -⟩
  · exact hsame
  · rw [hawake t] at hasleep
    cases hasleep

theorem Place.woken_cases (place : Place τ) : place.woken = place ∨ place.isAsleep = true ∧ place.woken = .awake := by
  cases place with
  | asleep => exact .inr ⟨rfl, rfl⟩
  | _ => exact .inl rfl

theorem Place.woken_isAsleep (place : Place τ) : place.woken.isAsleep = false := by
  cases place <;> rfl

theorem signal_wakes (place : Fin n → Place τ) (who : Fin n) : Wakes place (signal place who) := by
  intro u
  rw [signal]
  cases hfind : (who :: List.finRange n).find? (fun t => (place t).isAsleep) with
  | none => exact .inl rfl
  | some t =>
    by_cases hut : u = t
    · rw [hut]
      exact .inr ⟨List.find?_some (p := fun t => (place t).isAsleep) hfind, Function.update_self ..⟩
    · exact .inl (Function.update_of_ne hut _ _)

/-- After a signal not all threads sleep. -/
theorem exists_awake_signal (place : Fin n → Place τ) (who : Fin n) : ∃ t, (signal place who t).isAsleep = false := by
  rw [signal]
  cases hfind : (who :: List.finRange n).find? (fun t => (place t).isAsleep) with
  | none =>
    refine ⟨who, ?_⟩
    have hnone := List.find?_eq_none.mp hfind who List.mem_cons_self
    exact Bool.not_eq_true _ ▸ hnone
  | some t =>
    refine ⟨t, ?_⟩
    dsimp only
    rw [Function.update_self]
    rfl

/-- A call that brings a task. -/
def Submits : Op τ ω → Prop
  | .add _ => True
  | .addPending tasks => 0 < tasks.countP Option.isSome
  | _ => False

theorem wakes_wakes (place : Fin n → Place τ) (who : Fin n) (op : Op τ ω) : Wakes place (wakes place who op) := by
  cases op with
  | add k => exact signal_wakes place who
  | addPending tasks =>
    rw [wakes]
    split_ifs
    · exact fun t => (place t).woken_cases
    · exact signal_wakes place who
    · exact fun _ => .inl rfl
  | _ => exact fun _ => .inl rfl

/-- A call that brings a task wakes somebody up if all sleep. -/
theorem exists_awake_wakes (place : Fin n → Place τ) (who : Fin n) (hop : Submits op) :
    ∃ t, (wakes place who op t).isAsleep = false := by
  cases op with
  | add k => exact exists_awake_signal place who
  | addPending tasks =>
    rw [wakes]
    rw [if_pos (show 0 < tasks.countP Option.isSome from hop)]
    split_ifs
    · exact ⟨who, (place who).woken_isAsleep⟩
    · exact exists_awake_signal place who
  | _ => exact hop.elim

theorem wakes_of_not_submits (place : Fin n → Place τ) (who : Fin n) (hop : ¬ Submits op) : wakes place who op = place := by
  cases op with
  | add k => exact (hop trivial).elim
  | addPending tasks => exact if_neg hop
  | _ => rfl

/-- Other calls leave the tasks that can be fetched alone. -/
theorem ready_boardStep [DecidableEq τ] [DecidableEq ω] (b : Board τ ω) (hop : ¬ Submits op) (hfetch : op ≠ .fetch) :
    ready (Dispatcher.boardStep b op).1 = ready b := by
  cases op with
  | add k => exact (hop trivial).elim
  | fetch => exact (hfetch rfl).elim
  | wait w k => exact congrArg₂ _ (b.move_other (by simp) (by simp)) (b.move_other (by simp) (by simp))
  | drain w =>
    rw [Dispatcher.boardStep]
    cases b.tasks (.wait w) with
    | nil => rfl
    | cons k l => exact congrArg₂ _ (b.move_other (by simp) (by simp)) (b.move_other (by simp) (by simp))
  | finish k =>
    have hother {p : Dispatcher.Place τ ω} (hne : p ≠ .running) :
        (Dispatcher.boardStep b (.finish k)).1.tasks p = b.tasks p := Function.update_of_ne hne _ _
    exact congrArg₂ _ (hother (by simp)) (hother (by simp))
  | addPending tasks =>
    have hnone (tasks : List (Option τ)) (hzero : ¬ 0 < tasks.countP Option.isSome) : tasks.foldl Board.handOver b = b := by
      induction tasks with
      | nil => rfl
      | cons o tasks ih =>
        cases o with
        | some k =>
          rw [List.countP_cons_of_pos rfl] at hzero
          omega
        | none =>
          rw [List.countP_cons_of_neg (by simp)] at hzero
          exact ih hzero
    rw [Dispatcher.boardStep, hnone tasks hop]

theorem Inv.wakes (h : Inv s b) {tasks : Dispatcher.State τ ω} (hrep : Rep tasks b') (hwakes : Wakes s.place place')
    (hidle : 0 < n → (∀ t, (place' t).isAsleep = true) → ready b' = []) :
    Inv { s with tasks := tasks, place := place' } b' where
  rep := hrep
  idle := hidle
  closed hclosing := by
    obtain ⟨hclosed, hawake⟩ := h.closed hclosing
    refine ⟨hclosed, fun t => ?_⟩
    rw [hwakes.eq hawake]
    exact hawake t
  counted := by
    have hsame : tally Place.goneWeight place' = tally Place.goneWeight s.place :=
      Finset.sum_congr rfl fun t _ => by rw [Place.goneWeight, Place.goneWeight, hwakes.isGone t]
    rw [hsame]
    exact h.counted
  waits := h.waits
  joined := h.joined.mono fun t ht => (hwakes.isGone t).trans ht

/-! ### The closing thread -/

/-- What the step of another thread does for the end. -/
def Approaches (s s' : State n τ ω) : Prop :=
  s.closer ≠ .out → s'.closer ≠ .out ∧ (remaining s'.control < remaining s.control ∨ s'.control = s.control)

theorem Inv.close (h : Inv s b) (hout : s.closer = .out) :
    Inv { s with isClosed := true, place := fun t => (s.place t).woken,
                 closer := if s.waitingThreads < s.ncpus then .asleep else .next } b := by
  have hwakes : Wakes s.place fun t => (s.place t).woken := fun t => (s.place t).woken_cases
  have hncpus : s.ncpus = n := by
    have hjoined := h.joined
    rwa [hout] at hjoined
  have hwoken := h.wakes h.rep hwakes fun hn hall => by
    have hfirst := hall ⟨0, hn⟩
    rw [Place.woken_isAsleep] at hfirst
    cases hfirst
  exact {
    rep := hwoken.rep
    idle := hwoken.idle
    closed := fun _ => ⟨rfl, fun t => (s.place t).woken_isAsleep⟩
    counted := hwoken.counted
    waits := fun hasleep => by
      by_contra hless
      have hnext : (if s.waitingThreads < s.ncpus then Closer.asleep else .next) = .asleep := hasleep
      rw [if_neg hless] at hnext
      cases hnext
    joined := by
      show Joined s.ncpus _ (if s.waitingThreads < s.ncpus then Closer.asleep else .next)
      split_ifs
      · exact hncpus
      · exact fun t ht => absurd t.isLt (by omega) }

theorem Inv.setCloser (h : Inv s b) (hout : s.closer ≠ .out) (hasleep : closer ≠ .asleep) (hjoined : Joined ncpus s.place closer) :
    Inv { s with ncpus := ncpus, closer := closer } b where
  rep := h.rep
  idle := h.idle
  closed _ := h.closed hout
  counted := h.counted
  waits hwait := absurd hwait hasleep
  joined := hjoined

/-- When all threads are gone, nobody is left to count, and the way to the end is the one of the closing thread. -/
theorem remaining_gone (hgone : ∀ t, (s.place t).isGone = true) : remaining s.control = s.closer.weight n s.ncpus := by
  have hnone : tally Place.weight s.place = 0 := tally_eq_zero.mpr fun t => by
    have ht := hgone t
    cases hp : s.place t <;> rw [hp] at ht <;> first | rfl | cases ht
  rw [remaining, State.control, hnone, Nat.zero_add]

theorem Inv.not_asleep (h : Inv s b) (hgone : ∀ t, (s.place t).isGone = true) : s.closer ≠ .asleep := by
  intro hc
  have hncpus : s.ncpus = n := by
    have hjoined := h.joined
    rwa [hc] at hjoined
  have hone (t : Fin n) : (s.place t).goneWeight = 1 := by
    rw [Place.goneWeight, hgone t]
    rfl
  have hcount : tally Place.goneWeight s.place = n := by
    rw [tally, Finset.sum_congr rfl fun t _ => hone t]
    simp
  have hcounted := h.counted
  have hwaits := h.waits hc
  omega

/-- What a step of the closing thread does. -/
structure Closes (s s' : State n τ ω) (b : Board τ ω) : Prop where
  inv : Inv s' b
  approaches : Approaches s s'
  less : 0 < remaining s.control → (∀ t, (s.place t).isGone = true) → remaining s'.control < remaining s.control

theorem Inv.closes_setCloser (h : Inv s b) (hout : s.closer ≠ .out) (hclosing : closer ≠ .out) (hasleep : closer ≠ .asleep)
    (hjoined : Joined ncpus s.place closer) (hweight : closer.weight n ncpus < s.closer.weight n s.ncpus) :
    Closes s { s with ncpus := ncpus, closer := closer } b := by
  have hless : remaining ({ s with ncpus := ncpus, closer := closer } : State n τ ω).control < remaining s.control :=
    Nat.add_lt_add_left hweight _
  exact ⟨h.setCloser hout hasleep hjoined, fun _ => ⟨hclosing, .inl hless⟩, fun _ _ => hless⟩

/-- The closing thread goes on, unless it sleeps or waits for a thread that is not gone. -/
theorem Inv.advanceCloser (h : Inv s b) : Closes s (advanceCloser s) b := by
  have hjoined := h.joined
  have hstay : Approaches s s := fun hout => ⟨hout, .inr rfl⟩
  cases hc : s.closer with
  | out =>
    rw [Workers.advanceCloser, hc]
    refine ⟨h, hstay, fun hpos hgone => ?_⟩
    rw [remaining_gone hgone, hc] at hpos
    exact absurd hpos (Nat.lt_irrefl 0)
  | asleep =>
    rw [Workers.advanceCloser, hc]
    exact ⟨h, hstay, fun _ hgone => absurd hc (h.not_asleep hgone)⟩
  | awake =>
    rw [hc] at hjoined
    rw [Workers.advanceCloser, hc]
    have hncpus : s.ncpus = n := hjoined
    refine h.closes_setCloser (by rw [hc]; nofun) nofun nofun (fun t ht => absurd t.isLt (by omega)) ?_
    rw [hc]
    show 2 * s.ncpus + 1 < 2 * n + 2
    omega
  | next =>
    rw [hc] at hjoined
    rw [Workers.advanceCloser, hc]
    by_cases hzero : s.ncpus = 0
    · simp only [if_pos hzero]
      refine h.closes_setCloser (by rw [hc]; nofun) nofun nofun (fun t => hjoined t (by omega)) ?_
      rw [hc]
      exact Nat.succ_pos _
    · simp only [if_neg hzero]
      refine h.closes_setCloser (by rw [hc]; nofun) nofun nofun ⟨rfl, fun t ht => hjoined t (by omega)⟩ ?_
      rw [hc]
      show 2 * (s.ncpus - 1) + 2 < 2 * s.ncpus + 1
      omega
  | join i =>
    rw [hc] at hjoined
    obtain ⟨hncpus, hgone⟩ := hjoined
    rw [Workers.advanceCloser, hc]
    by_cases hi : ∀ t : Fin n, t.val = i → (s.place t).isGone = true
    · simp only [if_pos hi]
      refine h.closes_setCloser (by rw [hc]; nofun) nofun nofun (fun t ht => ?_) ?_
      · rcases Nat.lt_or_eq_of_le ht with hlt | heq
        · exact hgone t (by omega)
        · exact hi t (by omega)
      · rw [hc]
        show 2 * s.ncpus + 1 < 2 * i + 2
        omega
    · simp only [if_neg hi]
      exact ⟨h, hstay, fun _ hall => absurd (fun t _ => hall t) hi⟩
  | done =>
    rw [Workers.advanceCloser, hc]
    refine ⟨h, hstay, fun hpos hgone => ?_⟩
    rw [remaining_gone hgone, hc] at hpos
    exact absurd hpos (Nat.lt_irrefl 0)

/-! ### Steps -/

theorem Advances.approaches (h : Advances s b t s' b' e) : Approaches s s' := by
  intro hout
  refine ⟨?_, ?_⟩
  · rcases h.closer with hc | hc
    · rwa [hc]
    · rw [hc]
      exact Closer.woken_ne_out hout
  · cases hgone : (s.place t).isGone with
    | true => exact .inr (h.stays hgone)
    | false => exact .inl (h.less hout hgone)

/-- The context is neither stopped nor closed. -/
def KeepsOpen : Act n τ ω → Prop
  | .stop | .close => False
  | _ => True

/-- Nothing is submitted either. -/
def Quiet : Act n τ ω → Prop
  | .post op _ => ¬ Submits op
  | .stop | .close => False
  | _ => True

instance : (op : Op τ ω) → Decidable (Submits op)
  | .add _ => .isTrue trivial
  | .addPending _ => inferInstanceAs (Decidable (_ < _))
  | .fetch | .wait _ _ | .drain _ | .finish _ => .isFalse id

instance : (act : Act n τ ω) → Decidable (KeepsOpen act)
  | .stop | .close => .isFalse id
  | .run _ | .wakeUp _ | .post _ _ | .closer | .closerWakesUp => .isTrue trivial

instance : (act : Act n τ ω) → Decidable (Quiet act)
  | .post _ _ => inferInstanceAs (Decidable (¬ _))
  | .stop | .close => .isFalse id
  | .run _ | .wakeUp _ | .closer | .closerWakesUp => .isTrue trivial

theorem Quiet.keepsOpen {act : Act n τ ω} (h : Quiet act) : KeepsOpen act := by
  cases act with
  | stop | close => exact h
  | _ => trivial

structure Steps (s : State n τ ω) (b : Board τ ω) (act : Act n τ ω) (s' : State n τ ω) (b' : Board τ ω) (e : Option τ) :
    Prop where
  inv : Inv s' b'
  approaches : Approaches s s'
  opens : KeepsOpen act → IsOpen s → IsOpen s'
  handed : Quiet act → ready b = e.toList ++ ready b'
  serves : Quiet act → IsOpen s → unserved (s'.place, ready b') ≤ unserved (s.place, ready b) - 1 ∨
    (s'.place, ready b') = (s.place, ready b)

variable {act : Act n τ ω}

theorem Advances.steps (h : Advances s b t s' b' e) : Steps s b (.run t) s' b' e where
  inv := h.inv
  approaches := h.approaches
  opens _ := h.opens
  handed _ := h.handed
  serves _ hopen := by
    by_cases hnone : ready b = []
    · have hnone' : ready b' = [] := (List.append_eq_nil_iff.mp (h.handed.symm.trans hnone)).2
      refine .inl ?_
      rw [unserved, if_pos hnone']
      exact Nat.zero_le _
    · cases hasleep : (s.place t).isAsleep with
      | false => exact .inl (Nat.le_pred_of_lt (h.serves hopen hasleep hnone))
      | true => exact .inr (h.sleeps hasleep)

/-- A step that leaves the threads and the tasks alone. -/
theorem steps_of_same (hinv : Inv s' b) (happroaches : Approaches s s') (hplace : s'.place = s.place)
    (hclosed : s'.isClosed = s.isClosed) : Steps s b act s' b none where
  inv := hinv
  approaches := happroaches
  opens _ hopen := ⟨hclosed.trans hopen.1, fun u => by rw [hplace]; exact hopen.2 u⟩
  handed _ := rfl
  serves _ _ := .inr (by rw [hplace])

theorem advanceCloser_place (s : State n τ ω) : (advanceCloser s).place = s.place := by
  rw [advanceCloser]
  split <;> first | rfl | split_ifs <;> rfl

theorem advanceCloser_isClosed (s : State n τ ω) : (advanceCloser s).isClosed = s.isClosed := by
  rw [advanceCloser]
  split <;> first | rfl | split_ifs <;> rfl

theorem Inv.wakeUp (h : Inv s b) (hasleep : (s.place t).isAsleep = true) : Steps s b (.wakeUp t) (s.goto t .awake) b none := by
  have hp : s.place t = .asleep := by
    cases hp : s.place t <;> rw [hp] at hasleep <;> first | rfl | cases hasleep
  exact {
    inv := h.goto h.rep nofun (by rw [hp]; rfl) (le_of_eq (add_zero _)) (.inl rfl) h.waits
    approaches := fun hout => by
      rw [(h.closed hout).2 t] at hasleep
      cases hasleep
    opens := fun _ hopen => by
      refine ⟨hopen.1, fun u => ?_⟩
      show (Function.update s.place t .awake u).hasLeft = false
      by_cases hut : u = t
      · rw [hut, Function.update_self]
        rfl
      · rw [Function.update_of_ne hut]
        exact hopen.2 u
    handed := fun _ => rfl
    serves := fun _ _ => by
      have htally := tally_update Place.turns s.place t .awake
      rw [hp] at htally
      have hless : tally Place.turns (Function.update s.place t .awake) < tally Place.turns s.place :=
        Nat.lt_of_add_lt_add_right (htally.trans_lt (Nat.add_lt_add_left (by decide : 2 < 3) _))
      refine .inl ?_
      rw [unserved, unserved]
      split_ifs
      · exact Nat.zero_le _
      · exact Nat.le_pred_of_lt (Nat.add_lt_add_left hless _) }

theorem Inv.post [DecidableEq τ] [DecidableEq ω] (h : Inv s b) {tasks : Dispatcher.State τ ω} (hfetch : op ≠ .fetch)
    (hrep : Rep tasks (Dispatcher.boardStep b op).1) (who : Fin n) :
    Steps s b (.post op who) { s with tasks := tasks, place := Workers.wakes s.place who op } (Dispatcher.boardStep b op).1 none where
  inv := by
    refine h.wakes hrep (wakes_wakes s.place who op) fun hn hall => ?_
    by_cases hop : Submits op
    · obtain ⟨u, hu⟩ := exists_awake_wakes s.place who hop
      rw [hall u] at hu
      cases hu
    · rw [ready_boardStep b hop hfetch]
      exact h.idle hn fun u => (wakes_wakes s.place who op).isAsleep u (hall u)
  approaches hout := ⟨hout, .inr (by rw [State.control, (wakes_wakes s.place who op).eq (h.closed hout).2]; rfl)⟩
  opens _ hopen := ⟨hopen.1, fun u => ((wakes_wakes s.place who op).hasLeft u).trans (hopen.2 u)⟩
  handed hquiet := (ready_boardStep b hquiet hfetch).symm
  serves hquiet _ := by
    have hready := ready_boardStep b hquiet hfetch
    have hplace := wakes_of_not_submits s.place who hquiet
    exact .inr (Prod.ext hplace hready)

section

variable [DecidableEq τ] [DecidableEq ω]

theorem Inv.step (h : Inv s b) (hfits : Fits s act) : ∃ s' e b', Workers.step s act = some (s', e) ∧ Steps s b act s' b' e := by
  cases act with
  | run t =>
    obtain ⟨s', e, b', hs, hadvances⟩ := h.advance hfits
    exact ⟨s', e, b', hs, hadvances.steps⟩
  | wakeUp t =>
    refine ⟨_, none, b, rfl, ?_⟩
    split_ifs with hasleep
    · exact h.wakeUp hasleep
    · exact steps_of_same h (fun hout => ⟨hout, .inr rfl⟩) rfl rfl
  | post op who =>
    obtain ⟨⟨hfetch, hok, hfew⟩, hdone⟩ := hfits
    obtain ⟨⟨tasks, out⟩, hs⟩ := Option.isSome_iff_exists.mp (h.rep.step_isSome hok hfew)
    obtain ⟨-, hrep⟩ := h.rep.step hok hs
    refine ⟨_, none, _, ?_, h.post hfetch hrep who⟩
    rw [Workers.step]
    cases hc : s.closer with
    | done => exact absurd hc hdone
    | _ => exact congrArg (Option.map _) hs
  | stop =>
    have hinv : Inv { s with isClosed := true } b := ⟨h.rep, h.idle, fun hout => ⟨rfl, (h.closed hout).2⟩, h.counted, h.waits, h.joined⟩
    exact ⟨_, none, b, rfl, hinv, fun hout => ⟨hout, .inr rfl⟩, False.elim, False.elim, False.elim⟩
  | close =>
    have hc : s.closer = .out := hfits
    rw [Workers.step, hc]
    exact ⟨_, none, b, rfl, h.close hc, fun hout => absurd hc hout, False.elim, False.elim, False.elim⟩
  | closer =>
    have hcloses := h.advanceCloser
    exact ⟨_, none, b, rfl, steps_of_same hcloses.inv hcloses.approaches (advanceCloser_place s) (advanceCloser_isClosed s)⟩
  | closerWakesUp =>
    refine ⟨_, none, b, rfl, ?_⟩
    by_cases hc : s.closer = .asleep
    · have hout : s.closer ≠ .out := by
        rw [hc]
        nofun
      have hjoined : Joined s.ncpus s.place .awake := by
        have hasleep := h.joined
        rw [hc] at hasleep
        exact hasleep
      have hless : Closer.awake.weight n s.ncpus < s.closer.weight n s.ncpus := by
        rw [hc]
        exact Nat.lt_succ_self _
      have hcloses : Closes s { s with closer := .awake } b := h.closes_setCloser hout nofun nofun hjoined hless
      rw [hc]
      exact steps_of_same hcloses.inv hcloses.approaches rfl rfl
    · rw [Closer.woken_of_ne hc]
      exact steps_of_same h (fun hout => ⟨hout, .inr rfl⟩) rfl rfl

end

end RaleighSL.Zcl.Workers
