import RaleighSL.Library.Places
import RaleighSL.Library.Run
import Mathlib.Data.Fintype.Card
import Mathlib.Data.List.GetD

/-!
# The ticket lock

`threading/ticket.c`, with any number of threads that acquire and release the lock in any order. The
counters have 16 bits. Drawing a ticket is one atomic step, but the release reads the number that is
served and writes the next one.
-/
namespace RaleighSL.Zcl.Ticket
open Library

inductive Place
  | outside
  | spin (myTicket : Nat)
  | inside
  | serve (nowServing : Nat)

/-- `z_ticket_t`, and the places of the threads. -/
structure State (ι : Type*) where
  nextTicket : Nat
  nowServing : Nat
  place : ι → Place

/-- A thread calls `z_ticket_acquire` or `z_ticket_release`, or makes its next step. -/
inductive Act (ι : Type*)
  | acquire (t : ι)
  | release (t : ι)
  | run (t : ι)

/-- What a step means for the lock. -/
inductive Event (ι : Type*)
  | silent
  | drew (t : ι)
  | entered (t : ι)
  | left (t : ι)

def Place.Inside : Place → Prop
  | .inside | .serve _ => True
  | _ => False

variable {ι : Type*} [DecidableEq ι]

def init : State ι := { nextTicket := 0, nowServing := 0, place := fun _ => .outside }

def State.goto (s : State ι) (t : ι) (place : Place) : State ι := { s with place := Function.update s.place t place }

@[simp] theorem State.goto_place (s : State ι) (t : ι) (place : Place) :
    (s.goto t place).place = Function.update s.place t place := rfl

/-- One step. A thread acquires the lock only when it does not have it, and releases it only when it does. -/
def step (s : State ι) : Act ι → State ι × Event ι
  | .acquire t =>
    match s.place t with
    | .outside => ({ s.goto t (.spin s.nextTicket) with nextTicket := (s.nextTicket + 1) % 2 ^ 16 }, .drew t)
    | _ => (s, .silent)
  | .release t =>
    match s.place t with
    | .inside => (s.goto t (.serve s.nowServing), .silent)
    | _ => (s, .silent)
  | .run t =>
    match s.place t with
    | .spin myTicket => if s.nowServing ≠ myTicket then (s, .silent) else (s.goto t .inside, .entered t)
    | .serve nowServing => ({ s.goto t .outside with nowServing := (nowServing + 1) % 2 ^ 16 }, .left t)
    | _ => (s, .silent)

def after (acts : List (Act ι)) : State ι := (specExec step init acts).1

def events (acts : List (Act ι)) : List (Event ι) := (specExec step init acts).2

/-! ### A queue of threads -/

/-- A queue of threads: the first one may have the lock. -/
inductive Performs : List ι × Bool → Event ι → List ι × Bool → Prop
  | silent (l) : Performs l .silent l
  | drew (l busy t) (h : t ∉ l) : Performs (l, busy) (.drew t) (l ++ [t], busy)
  | entered (l t) : Performs (t :: l, false) (.entered t) (t :: l, true)
  | left (l t) : Performs (t :: l, true) (.left t) (l, false)

structure Inv (s : State ι) (queue : List ι) (busy : Bool) : Prop where
  nodup : queue.Nodup
  mem (t : ι) : t ∉ queue → s.place t = .outside
  serving : s.nowServing < 2 ^ 16
  next : s.nextTicket = (s.nowServing + queue.length) % 2 ^ 16
  waiting (i : Nat) (t : ι) : queue[i]? = some t → (i = 0 → busy = false) → s.place t = .spin ((s.nowServing + i) % 2 ^ 16)
  front (t : ι) : queue.head? = some t → busy = true → s.place t = .inside ∨ s.place t = .serve s.nowServing
  ne_nil : busy = true → queue ≠ []

variable {s : State ι} {queue : List ι} {busy : Bool} {t : ι} {p : Place}

omit [DecidableEq ι] in
theorem inv_init : Inv (init : State ι) [] false where
  nodup := List.nodup_nil
  mem _ _ := rfl
  serving := Nat.two_pow_pos 16
  next := rfl
  waiting _ _ h _ := by cases h
  front _ h _ := by cases h
  ne_nil h := by cases h

omit [DecidableEq ι] in
/-- A thread of the queue waits for its ticket, or has the lock as the first one. -/
theorem Inv.cases_mem (h : Inv s queue busy) (ht : t ∈ queue) :
    (∃ i < queue.length, queue[i]? = some t ∧ (i = 0 → busy = false) ∧ s.place t = .spin ((s.nowServing + i) % 2 ^ 16)) ∨
      busy = true ∧ ∃ rest, queue = t :: rest ∧ (s.place t = .inside ∨ s.place t = .serve s.nowServing) := by
  obtain ⟨i, hi⟩ := List.mem_iff_getElem?.mp ht
  by_cases hfront : i = 0 ∧ busy = true
  · obtain ⟨rfl, hbusy⟩ := hfront
    rw [← List.head?_eq_getElem?] at hi
    obtain ⟨rest, hrest⟩ := List.head?_eq_some_iff.mp hi
    exact .inr ⟨hbusy, rest, hrest, h.front t hi hbusy⟩
  · have hwait : i = 0 → busy = false := fun hzero => Bool.not_eq_true _ ▸ fun hbusy => hfront ⟨hzero, hbusy⟩
    exact .inl ⟨i, (List.getElem?_eq_some_iff.mp hi).1, hi, hwait, h.waiting i t hi hwait⟩

omit [DecidableEq ι] in
theorem Inv.not_mem (h : Inv s queue busy) (hp : s.place t = .outside) : t ∉ queue := by
  intro ht
  rcases h.cases_mem ht with ⟨i, -, -, -, hspin⟩ | ⟨-, rest, -, hin | hserve⟩
  · cases hp.symm.trans hspin
  · cases hp.symm.trans hin
  · cases hp.symm.trans hserve

omit [DecidableEq ι] in
theorem Inv.mem_of_place (h : Inv s queue busy) (hp : s.place t ≠ .outside) : t ∈ queue := by
  by_contra hnot
  exact hp (h.mem t hnot)

omit [DecidableEq ι] in
theorem Inv.eq_front (h : Inv s queue busy) (hp : (s.place t).Inside) :
    busy = true ∧ ∃ rest, queue = t :: rest ∧ (s.place t = .inside ∨ s.place t = .serve s.nowServing) := by
  have hmem : t ∈ queue := h.mem_of_place fun hout => by
    rw [hout] at hp
    exact hp
  rcases h.cases_mem hmem with ⟨i, -, -, -, hspin⟩ | hfront
  · rw [hspin] at hp
    exact hp.elim
  · exact hfront

omit [DecidableEq ι] in
theorem Inv.alone (h : Inv s queue busy) : Alone Place.Inside s.place := by
  intro t u ht hu
  obtain ⟨-, rest, hrest, -⟩ := h.eq_front ht
  obtain ⟨-, rest', hrest', -⟩ := h.eq_front hu
  exact (List.cons.inj (hrest.symm.trans hrest')).1

/-- A thread that draws a ticket goes behind the others. -/
theorem Inv.acquire (h : Inv s queue busy) (hp : s.place t = .outside) :
    Inv { s.goto t (.spin s.nextTicket) with nextTicket := (s.nextTicket + 1) % 2 ^ 16 } (queue ++ [t]) busy := by
  have hnot := h.not_mem hp
  have hother {u : ι} (hu : u ≠ t) : Function.update s.place t (.spin s.nextTicket) u = s.place u := Function.update_of_ne hu _ _
  exact {
    nodup := List.nodup_append.mpr ⟨h.nodup, List.nodup_singleton t, fun a ha b hb heq =>
      hnot (List.mem_singleton.mp hb ▸ heq ▸ ha)⟩
    mem := fun u hu => by
      rw [List.mem_append, List.mem_singleton, not_or] at hu
      exact (hother hu.2).trans (h.mem u hu.1)
    serving := h.serving
    next := by
      show (s.nextTicket + 1) % 2 ^ 16 = (s.nowServing + (queue ++ [t]).length) % 2 ^ 16
      rw [h.next, List.length_append, List.length_singleton]
      omega
    waiting := fun i u hi hfirst => by
      rw [List.getElem?_append] at hi
      split_ifs at hi with hlt
      · have hu : u ≠ t := fun heq => hnot (heq ▸ List.mem_of_getElem? hi)
        exact (hother hu).trans (h.waiting i u hi hfirst)
      · rw [List.getElem?_singleton] at hi
        split_ifs at hi with hzero
        obtain rfl := Option.some.inj hi
        have hlast : i = queue.length := by omega
        exact (Function.update_self ..).trans (congrArg Place.spin (hlast ▸ h.next))
    front := fun u hu hbusy => by
      rw [List.head?_append_of_ne_nil _ (h.ne_nil hbusy)] at hu
      have hne : u ≠ t := fun heq => hnot (heq ▸ List.mem_of_mem_head? hu)
      show Function.update s.place t _ u = _ ∨ Function.update s.place t _ u = _
      rw [hother hne]
      exact h.front u hu hbusy
    ne_nil := fun _ => List.append_ne_nil_of_right_ne_nil queue (List.cons_ne_nil t []) }

theorem Inv.release (h : Inv s queue busy) (hp : s.place t = .inside) : Inv (s.goto t (.serve s.nowServing)) queue busy := by
  obtain ⟨hbusy, rest, rfl, -⟩ := h.eq_front (t := t) (by rw [hp]; trivial)
  obtain ⟨hnot, -⟩ := List.nodup_cons.mp h.nodup
  have hother {u : ι} (hu : u ≠ t) : (s.goto t (.serve s.nowServing)).place u = s.place u := Function.update_of_ne hu _ _
  exact {
    nodup := h.nodup
    mem := fun u hu => (hother (List.ne_of_not_mem_cons hu)).trans (h.mem u hu)
    serving := h.serving
    next := h.next
    waiting := fun i u hi hfirst => by
      cases i with
      | zero => cases hbusy.symm.trans (hfirst rfl)
      | succ i =>
        have hu : u ≠ t := fun heq => hnot (heq ▸ List.mem_of_getElem? hi)
        exact (hother hu).trans (h.waiting (i + 1) u hi hfirst)
    front := fun u hu _ => by
      obtain rfl := Option.some.inj hu
      exact .inr (Function.update_self ..)
    ne_nil := h.ne_nil }

/-- The thread whose ticket is served is the first one of the queue, which is not longer than there are tickets. -/
theorem Inv.enter (h : Inv s queue busy) (hlen : queue.length ≤ 2 ^ 16) (hp : s.place t = .spin s.nowServing) :
    busy = false ∧ ∃ rest, queue = t :: rest ∧ Inv (s.goto t .inside) queue true := by
  have hmem : t ∈ queue := h.mem_of_place fun hout => by cases hp.symm.trans hout
  rcases h.cases_mem hmem with ⟨i, hlt, hi, hfirst, hspin⟩ | ⟨-, rest, -, hin | hserve⟩
  · have hticket : (s.nowServing + i) % 2 ^ 16 = s.nowServing := (Place.spin.inj (hp.symm.trans hspin)).symm
    have hserving := h.serving
    obtain rfl : i = 0 := by omega
    rw [← List.head?_eq_getElem?] at hi
    obtain ⟨rest, rfl⟩ := List.head?_eq_some_iff.mp hi
    obtain ⟨hnot, -⟩ := List.nodup_cons.mp h.nodup
    have hother {u : ι} (hu : u ≠ t) : (s.goto t .inside).place u = s.place u := Function.update_of_ne hu _ _
    exact ⟨hfirst rfl, rest, rfl, {
      nodup := h.nodup
      mem := fun u hu => (hother (List.ne_of_not_mem_cons hu)).trans (h.mem u hu)
      serving := h.serving
      next := h.next
      waiting := fun i u hi hbusy => by
        cases i with
        | zero => cases hbusy rfl
        | succ i =>
          have hu : u ≠ t := fun heq => hnot (heq ▸ List.mem_of_getElem? hi)
          exact (hother hu).trans (h.waiting (i + 1) u hi nofun)
      front := fun u hu _ => by
        obtain rfl := Option.some.inj hu
        exact .inl (Function.update_self ..)
      ne_nil := fun _ => List.cons_ne_nil t rest }⟩
  · cases hp.symm.trans hin
  · cases hp.symm.trans hserve

theorem Inv.serve {now : Nat} (h : Inv s queue busy) (hp : s.place t = .serve now) :
    busy = true ∧ ∃ rest, queue = t :: rest ∧
      Inv { s.goto t .outside with nowServing := (now + 1) % 2 ^ 16 } rest false := by
  obtain ⟨hbusy, rest, rfl, hfront⟩ := h.eq_front (t := t) (by rw [hp]; trivial)
  obtain rfl : now = s.nowServing := by
    rcases hfront with hin | hserve
    · cases hp.symm.trans hin
    · exact Place.serve.inj (hp.symm.trans hserve)
  obtain ⟨hnot, hnodup⟩ := List.nodup_cons.mp h.nodup
  have hother {u : ι} (hu : u ≠ t) : Function.update s.place t .outside u = s.place u := Function.update_of_ne hu _ _
  exact ⟨hbusy, rest, rfl, {
    nodup := hnodup
    mem := fun u hu => by
      by_cases hut : u = t
      · exact hut ▸ Function.update_self ..
      · exact (hother hut).trans (h.mem u fun hmem => (List.mem_cons.mp hmem).elim hut hu)
    serving := Nat.mod_lt _ (Nat.two_pow_pos 16)
    next := by
      show s.nextTicket = ((s.nowServing + 1) % 2 ^ 16 + rest.length) % 2 ^ 16
      rw [h.next, List.length_cons]
      omega
    waiting := fun i u hi _ => by
      have hu : u ≠ t := fun heq => hnot (heq ▸ List.mem_of_getElem? hi)
      refine (hother hu).trans ((h.waiting (i + 1) u hi nofun).trans (congrArg Place.spin ?_))
      show (s.nowServing + (i + 1)) % 2 ^ 16 = ((s.nowServing + 1) % 2 ^ 16 + i) % 2 ^ 16
      omega
    front := fun u _ hbusy => by cases hbusy
    ne_nil := fun hbusy => by cases hbusy }⟩

/-- A step does what a queue of threads does, when the queue is not longer than there are tickets. -/
theorem step_performs (h : Inv s queue busy) (hlen : queue.length ≤ 2 ^ 16) (act : Act ι) :
    ∃ queue' busy', Inv (step s act).1 queue' busy' ∧ Performs (queue, busy) (step s act).2 (queue', busy') := by
  cases act with
  | acquire t =>
    rw [step]
    cases hp : s.place t with
    | outside => exact ⟨_, _, h.acquire hp, .drew queue busy t (h.not_mem hp)⟩
    | _ => exact ⟨_, _, h, .silent _⟩
  | release t =>
    rw [step]
    cases hp : s.place t with
    | inside => exact ⟨_, _, h.release hp, .silent _⟩
    | _ => exact ⟨_, _, h, .silent _⟩
  | run t =>
    rw [step]
    cases hp : s.place t with
    | spin myTicket =>
      by_cases hturn : s.nowServing ≠ myTicket
      · simp only [if_pos hturn]
        exact ⟨_, _, h, .silent _⟩
      · simp only [if_neg hturn]
        rw [not_not] at hturn
        obtain ⟨rfl, rest, rfl, hinv⟩ := h.enter hlen (hturn ▸ hp)
        exact ⟨_, _, hinv, .entered rest t⟩
    | serve nowServing =>
      obtain ⟨rfl, rest, rfl, hinv⟩ := h.serve hp
      exact ⟨_, _, hinv, .left rest t⟩
    | _ => exact ⟨_, _, h, .silent _⟩

/-! ### Runs -/

theorem after_concat (acts : List (Act ι)) (act : Act ι) : after (acts ++ [act]) = (step (after acts) act).1 := by
  rw [after, specExec_append]
  rfl

theorem events_concat (acts : List (Act ι)) (act : Act ι) :
    events (acts ++ [act]) = events acts ++ [(step (after acts) act).2] := by
  rw [events, specExec_append]
  rfl

/-- Over a run the queue has the threads that are not outside. -/
theorem inv_after [Fintype ι] (hcard : Fintype.card ι ≤ 2 ^ 16) (acts : List (Act ι)) :
    ∃ queue busy, Inv (after acts) queue busy ∧ Allows Performs ([], false) (events acts) (queue, busy) := by
  induction acts using List.reverseRecOn with
  | nil => exact ⟨[], false, inv_init, .nil⟩
  | append_singleton acts act ih =>
    obtain ⟨queue, busy, hinv, hlaw⟩ := ih
    obtain ⟨queue', busy', hinv', hperf⟩ := step_performs hinv (hinv.nodup.length_le_card.trans hcard) act
    rw [after_concat, events_concat]
    exact ⟨queue', busy', hinv', hlaw.snoc hperf⟩

/-- Threads that only draw tickets, of which there may be more than numbers. -/
theorem inv_acquires (hnodup : queue.Nodup) :
    Inv (after (queue.map .acquire)) queue false ∧ (after (queue.map .acquire)).nowServing = 0 := by
  induction queue using List.reverseRecOn with
  | nil => exact ⟨inv_init, rfl⟩
  | append_singleton queue t ih =>
    obtain ⟨hqueue, -, happart⟩ := List.nodup_append.mp hnodup
    obtain ⟨hinv, hserving⟩ := ih hqueue
    have hout : (after (queue.map .acquire)).place t = .outside :=
      hinv.mem t fun hmem => happart t hmem t (List.mem_singleton_self t) rfl
    rw [List.map_append, List.map_singleton, after_concat, step]
    simp only [hout]
    exact ⟨hinv.acquire hout, hserving⟩

/-- A thread enters when its ticket is served. -/
theorem step_run (hp : s.place t = .spin s.nowServing) : step s (.run t) = (s.goto t .inside, .entered t) := by
  rw [step, hp]
  exact if_neg (not_not.mpr rfl)

/-- With one thread more than there are tickets two threads draw the same one. -/
theorem two_inside (hnodup : queue.Nodup) (hlen : queue.length = 2 ^ 16 + 1) :
    ∃ acts : List (Act ι), ¬ Alone Place.Inside (after acts).place := by
  obtain ⟨hinv, hserving⟩ := inv_acquires hnodup
  have hfirst : 0 < queue.length := by omega
  have hlast : 2 ^ 16 < queue.length := by omega
  have hne : queue[2 ^ 16] ≠ queue[0] := fun heq => absurd (hnodup.getElem_inj_iff.mp heq) (by decide)
  have ht : (after (queue.map .acquire)).place queue[0] = .spin (after (queue.map .acquire)).nowServing := by
    rw [hinv.waiting 0 queue[0] (List.getElem?_eq_getElem hfirst) fun _ => rfl, hserving, Nat.zero_add, Nat.zero_mod]
  have hu : (after (queue.map .acquire)).place queue[2 ^ 16] = .spin (after (queue.map .acquire)).nowServing := by
    rw [hinv.waiting (2 ^ 16) queue[2 ^ 16] (List.getElem?_eq_getElem hlast) fun _ => rfl, hserving, Nat.zero_add, Nat.mod_self]
  have hentered : after (queue.map .acquire ++ [.run queue[0]]) = (after (queue.map .acquire)).goto queue[0] .inside := by
    rw [after_concat, step_run ht]
  have hwaits : (after (queue.map .acquire ++ [.run queue[0]])).place queue[2 ^ 16] =
      .spin (after (queue.map .acquire ++ [.run queue[0]])).nowServing := by
    rw [hentered]
    exact (Function.update_of_ne hne _ _).trans hu
  refine ⟨queue.map .acquire ++ [.run queue[0]] ++ [.run queue[2 ^ 16]], fun halone => hne (halone _ _ ?_ ?_)⟩
  · rw [after_concat, step_run hwaits, State.goto_place, Function.update_self]
    trivial
  · rw [after_concat, step_run hwaits, hentered, State.goto_place, State.goto_place, Function.update_of_ne hne.symm,
      Function.update_self]
    trivial

/-- At most one thread has the lock, in all states of all runs, exactly if there are not more threads than tickets. -/
theorem alone_iff [Fintype ι] :
    (∀ acts : List (Act ι), Alone Place.Inside (after acts).place) ↔ Fintype.card ι ≤ 2 ^ 16 := by
  refine ⟨fun h => ?_, fun hcard acts => ?_⟩
  · by_contra hcard
    have huniv : (Finset.univ : Finset ι).toList.length = Fintype.card ι := Finset.length_toList _
    have hnodup : ((Finset.univ : Finset ι).toList.take (2 ^ 16 + 1)).Nodup := (Finset.nodup_toList _).take
    obtain ⟨acts, hacts⟩ := two_inside hnodup (by rw [List.length_take]; omega)
    exact hacts (h acts)
  · obtain ⟨queue, busy, hinv, -⟩ := inv_after hcard acts
    exact hinv.alone

/-- The threads enter in the order in which they have drawn their tickets, one after the other, and the first one
enters with its next step when nobody has the lock. -/
theorem events_fifo [Fintype ι] (hcard : Fintype.card ι ≤ 2 ^ 16) (acts : List (Act ι)) :
    ∃ queue busy, Allows Performs ([], false) (events acts) (queue, busy) ∧
      ∀ t, queue.head? = some t → busy = false → (step (after acts) (.run t)).2 = .entered t := by
  obtain ⟨queue, busy, hinv, hlaw⟩ := inv_after hcard acts
  refine ⟨queue, busy, hlaw, fun t ht hbusy => ?_⟩
  rw [List.head?_eq_getElem?] at ht
  have hspin := hinv.waiting 0 t ht fun _ => hbusy
  rw [Nat.add_zero, Nat.mod_eq_of_lt hinv.serving] at hspin
  rw [step_run hspin]

/-- Two threads draw tickets, the first one enters and leaves, and then the second one. -/
def twoThreads (t u : ι) : List (Act ι) := [.acquire u, .acquire t, .run t, .run u, .release u, .run t, .run u]

theorem events_fifo_two : ∃ queue busy, Allows Performs ([], false) (events (twoThreads (0 : Fin 2) 1)) (queue, busy) ∧
    ∀ t, queue.head? = some t → busy = false → (step (after (twoThreads (0 : Fin 2) 1)) (.run t)).2 = .entered t :=
  events_fifo (by rw [Fintype.card_fin]; decide) (twoThreads (0 : Fin 2) 1)

end RaleighSL.Zcl.Ticket
