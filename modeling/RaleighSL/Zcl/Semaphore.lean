import RaleighSL.Library.Places
import RaleighSL.Library.Run
import Mathlib.Algebra.Order.Ring.Int

/-!
# The semaphore

`threading/semaphore.c`, with any number of threads that acquire and release in any order, some of them
with a time limit. A thread that waits for the condition gives the mutex back, and is woken up by a
broadcast or for no reason; whether the time is over is an input. The result of an addition or a
subtraction that does not fit an `int` is not defined.
-/
namespace RaleighSL.Zcl.Semaphore
open Library

/-- `z_semaphore_acquire`, `z_semaphore_try_acquire` and `z_semaphore_try_acquire_timed`. -/
inductive Kind
  | acquire
  | tryAcquire
  | timed

inductive Place
  | outside
  | lock (kind : Kind) (n : Int)
  | test (kind : Kind) (n : Int)
  | sleep (kind : Kind) (n : Int)
  | subtract (n : Int)
  | lockRelease (n : Int)
  | add (n : Int)
  | broadcast
  | unlock

/-- `z_semaphore_t`, and the places of the threads. -/
structure State (ι : Type*) where
  available : Int
  mutex : Bool
  place : ι → Place

/-- A thread calls one of the functions, wakes up, or makes its next step, after its time is over or before. -/
inductive Act (ι : Type*)
  | call (t : ι) (kind : Kind) (n : Int)
  | release (t : ι) (n : Int)
  | wake (t : ι)
  | run (t : ι) (expired : Bool)

inductive Event
  | silent
  | acquired (n : Int)
  | failed (n : Int)
  | released (n : Int)

namespace Place

def InMutex : Place → Prop
  | .test _ _ | .subtract _ | .add _ | .broadcast | .unlock => True
  | _ => False

def change : Place → Int
  | .subtract n => -n
  | .add n => n
  | _ => 0

/-- A thread that is woken up has to take the mutex again. -/
def woken : Place → Place
  | .sleep kind n => .lock kind n
  | place => place

end Place

variable {ι : Type*} [DecidableEq ι]

/-- `z_semaphore_open`. -/
def init (available : Int) : State ι := { available := available, mutex := false, place := fun _ => .outside }

def State.goto (s : State ι) (t : ι) (place : Place) : State ι := { s with place := Function.update s.place t place }

def InRange (n : Int) : Prop := -2 ^ 31 ≤ n ∧ n < 2 ^ 31

instance (n : Int) : Decidable (InRange n) := inferInstanceAs (Decidable (_ ∧ _))

def advance (s : State ι) (t : ι) (expired : Bool) : Option (State ι × Event) :=
  match s.place t with
  | .lock kind n => if s.mutex then some (s, .silent) else some ({ s.goto t (.test kind n) with mutex := true }, .silent)
  | .test kind n =>
    if n ≤ s.available then some (s.goto t (.subtract n), .silent)
    else
      match kind, expired with
      | .acquire, _ | .timed, false => some ({ s.goto t (.sleep kind n) with mutex := false }, .silent)
      | _, _ => some (s.goto t .unlock, .failed n)
  | .subtract n =>
    if InRange (s.available - n) then some ({ s.goto t .unlock with available := s.available - n }, .acquired n) else none
  | .lockRelease n => if s.mutex then some (s, .silent) else some ({ s.goto t (.add n) with mutex := true }, .silent)
  | .add n =>
    if InRange (s.available + n) then some ({ s.goto t .broadcast with available := s.available + n }, .released n) else none
  | .broadcast => some ({ s with place := Function.update (fun u => (s.place u).woken) t .unlock }, .silent)
  | .unlock => some ({ s.goto t .outside with mutex := false }, .silent)
  | _ => some (s, .silent)

/-- A call, a thread that wakes up, or the next step of one. Nothing happens when the thread is at another place. -/
def step (s : State ι) : Act ι → Option (State ι × Event)
  | .call t kind n =>
    match s.place t with
    | .outside => some (s.goto t (.lock kind n), .silent)
    | _ => some (s, .silent)
  | .release t n =>
    match s.place t with
    | .outside => some (s.goto t (.lockRelease n), .silent)
    | _ => some (s, .silent)
  | .wake t =>
    match s.place t with
    | .sleep kind n => some (s.goto t (.lock kind n), .silent)
    | _ => some (s, .silent)
  | .run t expired => advance s t expired

/-- A counter that is never taken below zero. -/
inductive Performs : Int → Event → Int → Prop
  | silent (c) : Performs c .silent c
  | acquired (c n) (h : n ≤ c) : Performs c (.acquired n) (c - n)
  | failed (c n) (h : ¬ n ≤ c) : Performs c (.failed n) c
  | released (c n) : Performs c (.released n) (c + n)

def Knows (available : Int) : Place → Prop
  | .lock _ n | .test _ n | .sleep _ n => 0 ≤ n
  | .subtract n => 0 ≤ n ∧ n ≤ available
  | _ => True

/-- At most one thread has the mutex, and a thread that sleeps asks for more than there is, unless a broadcast is due. -/
structure Inv (s : State ι) : Prop where
  mutex : Guarded s.mutex Place.InMutex s.place
  knows (t : ι) : Knows s.available (s.place t)
  sleeps : (∀ u, s.place u ≠ .broadcast) → ∀ t kind n, s.place t = .sleep kind n → s.available < n

/-- Nobody asks for a negative number, and what a step computes fits an `int`. -/
def Fits (s : State ι) : Act ι → Prop
  | .call _ _ n => 0 ≤ n
  | .run t _ => InRange (s.available + (s.place t).change)
  | _ => True

instance (s : State ι) : (act : Act ι) → Decidable (Fits s act)
  | .call _ _ n => inferInstanceAs (Decidable (0 ≤ n))
  | .run t _ => inferInstanceAs (Decidable (InRange (s.available + (s.place t).change)))
  | .release _ _ | .wake _ => .isTrue trivial

variable {s : State ι} {t : ι} {p : Place} {held : Bool} {n : Int}

omit [DecidableEq ι] in
theorem inv_init (available : Int) : Inv (init available : State ι) where
  mutex := ⟨fun _ _ h => h, fun _ _ h => h.elim⟩
  knows _ := trivial
  sleeps _ _ _ _ h := by cases h

theorem Inv.goto (h : Inv s) (hmutex : Guarded held Place.InMutex (Function.update s.place t p)) (hknows : Knows s.available p)
    (hbroadcast : s.place t ≠ .broadcast) (hsleep : ∀ kind n, p = .sleep kind n → s.available < n) :
    Inv { s.goto t p with mutex := held } where
  mutex := hmutex
  knows u := by
    show Knows s.available (Function.update s.place t p u)
    by_cases hut : u = t
    · rw [hut, Function.update_self]
      exact hknows
    · rw [Function.update_of_ne hut]
      exact h.knows u
  sleeps hnone u kind n hu := by
    change ∀ v, Function.update s.place t p v ≠ .broadcast at hnone
    change Function.update s.place t p u = .sleep kind n at hu
    by_cases hut : u = t
    · rw [hut, Function.update_self] at hu
      exact hsleep kind n hu
    · rw [Function.update_of_ne hut] at hu
      refine h.sleeps (fun v hv => ?_) u kind n hu
      by_cases hvt : v = t
      · exact hbroadcast (hvt ▸ hv)
      · exact hnone v ((Function.update_of_ne hvt p s.place).trans hv)

/-- The thread that has the mutex changes the count, and nobody else knows anything about it. -/
theorem Inv.change {available : Int} (h : Inv s) (hin : (s.place t).InMutex) (hp : p.InMutex) (hknows : Knows available p)
    (hsleep : (∀ u, Function.update s.place t p u ≠ .broadcast) → ∀ u kind n, s.place u = .sleep kind n → available < n) :
    Inv { s.goto t p with available := available } where
  mutex := h.mutex.stay fun _ => hin
  knows u := by
    show Knows available (Function.update s.place t p u)
    by_cases hut : u = t
    · rw [hut, Function.update_self]
      exact hknows
    · rw [Function.update_of_ne hut]
      have hout : ¬ (s.place u).InMutex := fun hu => hut (h.mutex.alone u t hu hin)
      have hknows := h.knows u
      cases hu : s.place u with
      | subtract n => exact (hout (by rw [hu]; trivial)).elim
      | _ =>
        rw [hu] at hknows
        exact hknows
  sleeps hnone u kind n hu := by
    change Function.update s.place t p u = .sleep kind n at hu
    by_cases hut : u = t
    · rw [hut, Function.update_self] at hu
      rw [hu] at hp
      exact hp.elim
    · rw [Function.update_of_ne hut] at hu
      exact hsleep hnone u kind n hu

theorem Inv.broadcast (h : Inv s) (hp : s.place t = .broadcast) :
    Inv { s with place := Function.update (fun u => (s.place u).woken) t .unlock } := by
  have hwoken (u : ι) : (s.place u).woken.InMutex ↔ (s.place u).InMutex := by
    cases s.place u <;> rfl
  exact {
    mutex := (h.mutex.congr hwoken).stay fun _ => (hwoken t).mpr (by rw [hp]; trivial)
    knows := fun u => by
      show Knows s.available (Function.update (fun u => (s.place u).woken) t .unlock u)
      by_cases hut : u = t
      · rw [hut, Function.update_self]
        trivial
      · rw [Function.update_of_ne hut]
        have hknows := h.knows u
        cases hu : s.place u <;> rw [hu] at hknows <;> exact hknows
    sleeps := fun _ u kind n hu => by
      change Function.update (fun u => (s.place u).woken) t .unlock u = .sleep kind n at hu
      by_cases hut : u = t
      · rw [hut, Function.update_self] at hu
        cases hu
      · rw [Function.update_of_ne hut] at hu
        cases hplace : s.place u <;> rw [hplace] at hu <;> cases hu }

theorem Inv.test {kind : Kind} (h : Inv s) (expired : Bool) (hp : s.place t = .test kind n) (hn : 0 ≤ n) :
    ∃ s' e, advance s t expired = some (s', e) ∧ Inv s' ∧ Performs s.available e s'.available := by
  have hin : (s.place t).InMutex := by
    rw [hp]
    trivial
  have hbroadcast : s.place t ≠ .broadcast := by
    rw [hp]
    nofun
  have hsleep (kind : Kind) (hmore : ¬ n ≤ s.available) : Inv { s.goto t (.sleep kind n) with mutex := false } :=
    h.goto (h.mutex.leave hin id) hn hbroadcast fun _ m hm => by
      cases hm
      exact not_le.mp hmore
  have hfail : Inv (s.goto t .unlock) := h.goto (h.mutex.stay fun _ => hin) trivial hbroadcast nofun
  rw [advance, hp]
  by_cases henough : n ≤ s.available
  · simp only [if_pos henough]
    exact ⟨_, _, rfl, h.goto (h.mutex.stay fun _ => hin) ⟨hn, henough⟩ hbroadcast nofun, .silent _⟩
  · simp only [if_neg henough]
    cases kind with
    | acquire => exact ⟨_, _, rfl, hsleep .acquire henough, .silent _⟩
    | tryAcquire => exact ⟨_, _, rfl, hfail, .failed _ n henough⟩
    | timed =>
      cases expired with
      | false => exact ⟨_, _, rfl, hsleep .timed henough, .silent _⟩
      | true => exact ⟨_, _, rfl, hfail, .failed _ n henough⟩

theorem advance_spec (h : Inv s) (expired : Bool) (hfits : Fits s (.run t expired)) :
    ∃ s' e, advance s t expired = some (s', e) ∧ Inv s' ∧ Performs s.available e s'.available := by
  have hknows := h.knows t
  rw [Fits] at hfits
  cases hp : s.place t with
  | test kind n =>
    rw [hp] at hknows
    exact h.test expired hp hknows
  | outside | sleep kind n =>
    rw [advance, hp]
    exact ⟨s, _, rfl, h, .silent _⟩
  | lock kind n =>
    rw [hp] at hknows
    rw [advance, hp]
    cases hmutex : s.mutex with
    | true => exact ⟨s, _, rfl, h, .silent _⟩
    | false => exact ⟨_, _, rfl, h.goto (hmutex ▸ h.mutex).take hknows (by rw [hp]; nofun) nofun, .silent _⟩
  | lockRelease n =>
    rw [advance, hp]
    cases hmutex : s.mutex with
    | true => exact ⟨s, _, rfl, h, .silent _⟩
    | false => exact ⟨_, _, rfl, h.goto (hmutex ▸ h.mutex).take trivial (by rw [hp]; nofun) nofun, .silent _⟩
  | subtract n =>
    rw [hp] at hknows hfits
    obtain ⟨hn, henough⟩ := hknows
    have hfits' : InRange (s.available - n) := hfits
    rw [advance, hp]
    simp only [if_pos hfits']
    refine ⟨_, _, rfl, h.change (by rw [hp]; trivial) trivial trivial fun hnone u kind m hu => ?_, .acquired _ n henough⟩
    have hless := h.sleeps (fun v hv => ?_) u kind m hu
    · omega
    · by_cases hvt : v = t
      · cases hp.symm.trans (hvt ▸ hv)
      · exact hnone v ((Function.update_of_ne hvt _ s.place).trans hv)
  | add n =>
    rw [hp] at hfits
    have hfits' : InRange (s.available + n) := hfits
    rw [advance, hp]
    simp only [if_pos hfits']
    exact ⟨_, _, rfl, h.change (by rw [hp]; trivial) trivial trivial fun hnone => (hnone t (Function.update_self ..)).elim, .released _ n⟩
  | broadcast =>
    rw [advance, hp]
    exact ⟨_, _, rfl, h.broadcast hp, .silent _⟩
  | unlock =>
    rw [advance, hp]
    exact ⟨_, _, rfl, h.goto (h.mutex.leave (by rw [hp]; trivial) id) trivial (by rw [hp]; nofun) nofun, .silent _⟩

theorem step_spec (h : Inv s) {act : Act ι} (hfits : Fits s act) :
    ∃ s' e, step s act = some (s', e) ∧ Inv s' ∧ Performs s.available e s'.available := by
  cases act with
  | run t expired => exact advance_spec h expired hfits
  | call t kind n =>
    rw [step]
    cases hp : s.place t with
    | outside => exact ⟨_, _, rfl, h.goto (h.mutex.stay False.elim) hfits (by rw [hp]; nofun) nofun, .silent _⟩
    | _ => exact ⟨s, _, rfl, h, .silent _⟩
  | release t n =>
    rw [step]
    cases hp : s.place t with
    | outside => exact ⟨_, _, rfl, h.goto (h.mutex.stay False.elim) trivial (by rw [hp]; nofun) nofun, .silent _⟩
    | _ => exact ⟨s, _, rfl, h, .silent _⟩
  | wake t =>
    rw [step]
    cases hp : s.place t with
    | sleep kind n =>
      have hknows := h.knows t
      rw [hp] at hknows
      exact ⟨_, _, rfl, h.goto (h.mutex.stay False.elim) hknows (by rw [hp]; nofun) nofun, .silent _⟩
    | _ => exact ⟨s, _, rfl, h, .silent _⟩

/-! ### Runs -/

/-- The threads take from a counter what they ask for and put back what they release, no sooner than there is enough,
and whenever nobody has the mutex a thread that sleeps asks for more than there is. -/
theorem exec_counts {available : Int} {acts : List (Act ι)} (hfits : Meets step Fits (init available) acts) :
    ∃ s es, exec step (init available) acts = some (s, es) ∧ Allows Performs available es s.available ∧
      (s.mutex = false → ∀ t kind n, s.place t = .sleep kind n → s.available < n) := by
  have hstep (s : State ι) (c : Int) (act : Act ι) (hR : Inv s ∧ s.available = c) (hact : Fits s act) :
      ∃ s' e c', step s act = some (s', e) ∧ (Inv s' ∧ s'.available = c') ∧ Performs c e c' := by
    obtain ⟨hinv, rfl⟩ := hR
    obtain ⟨s', e, hs', hinv', hperf⟩ := step_spec hinv hact
    exact ⟨s', e, s'.available, hs', ⟨hinv', rfl⟩, hperf⟩
  obtain ⟨s, es, c, hexec, ⟨hinv, rfl⟩, hlaw⟩ := exec_allows hstep ⟨inv_init available, rfl⟩ hfits
  refine ⟨s, es, hexec, hlaw, fun hfree t kind n ht => hinv.sleeps (fun u hu => ?_) t kind n ht⟩
  exact hinv.mutex.free hfree u (by rw [hu]; trivial)

/-- A thread waits for two, and another one releases them. -/
def twoThreads (t u : ι) : List (Act ι) :=
  [.call t .acquire 2, .run t false, .run t false, .release u 2, .run u false, .run u false, .run u false, .run t false, .run u false,
    .run t false, .run t false, .run t false, .run t false]

theorem exec_counts_two : ∃ s es, exec step (init 0) (twoThreads (0 : Fin 2) 1) = some (s, es) ∧ Allows Performs 0 es s.available ∧
    (s.mutex = false → ∀ t kind n, s.place t = .sleep kind n → s.available < n) :=
  exec_counts (by decide)

end RaleighSL.Zcl.Semaphore
