import RaleighSL.Library.Places
import RaleighSL.Library.Links
import RaleighSL.Library.Run

/-!
# The queue with two locks

The queue of `system/atomic-lock.c`, with any number of threads that push and pop in any order. One
step of a thread is one access to what the threads share, so that another thread may come between
any two of them; in particular a node may be taken out before the push that linked it has moved the
tail. There is no result where memory that is not allocated is read or freed, or a link is read
that nothing has written: the first node gets its link from the first push.
-/
namespace RaleighSL.Zcl.AtomicQueue
open Library

/-- `struct atomic_node`, with the link once it is written. -/
structure Node (δ : Type*) where
  next : Option (Option Nat)
  data : Option δ

/-- The place of a thread in `z_atomic_queue_push` or `z_atomic_queue_pop`, with its variables: what it does next. -/
inductive Place (δ : Type*)
  | outside
  | lockTail (node : Nat) (data : Option δ)
  | link (node : Nat) (data : Option δ)
  | moveTail (node : Nat)
  | unlockTail
  | lockHead
  | readHead
  | readNext (node : Nat)
  | readData (node newHead : Nat)
  | moveHead (node newHead : Nat) (data : Option δ)
  | unlockHead (node : Nat) (data : Option δ)
  | free (node : Nat) (data : Option δ)

/-- `struct atomic_queue`, the memory of the nodes, and the places of the threads. -/
structure State (ι δ : Type*) where
  memory : Nat → Option (Node δ)
  head : Nat
  tail : Nat
  hlock : Bool
  tlock : Bool
  place : ι → Place δ

/-- A thread calls one of the functions, with what the allocator gives to it, or makes its next step. -/
inductive Act (ι δ : Type*)
  | push (t : ι) (data : Option δ) (node : Option Nat)
  | pop (t : ι)
  | run (t : ι)

inductive Event (ι δ : Type*)
  | silent
  | put (data : Option δ)
  | took (t : ι) (data : Option δ)
  | empty (t : ι)
  | returned (t : ι) (data : Option δ)

variable {ι δ : Type*} [DecidableEq ι]

def alloc (dummy : Nat) : State ι δ :=
  { memory := Function.update (fun _ => none) dummy (some { next := none, data := none })
    head := dummy
    tail := dummy
    hlock := false
    tlock := false
    place := fun _ => .outside }

namespace State

def goto (s : State ι δ) (t : ι) (place : Place δ) : State ι δ := { s with place := Function.update s.place t place }

@[simp] theorem goto_place (s : State ι δ) (t : ι) (place : Place δ) :
    (s.goto t place).place = Function.update s.place t place := rfl

def write (s : State ι δ) (node : Nat) (content : Option (Node δ)) : State ι δ :=
  { s with memory := Function.update s.memory node content }

def next (s : State ι δ) (node : Nat) : Option (Option Nat) := (s.memory node).bind Node.next

def data (s : State ι δ) (node : Nat) : Option (Option δ) := (s.memory node).map Node.data

end State

/-- The next step of a thread. A thread that waits for a lock, or is in no call, stays at its place. -/
def advance (s : State ι δ) (t : ι) : Option (State ι δ × Event ι δ) :=
  match s.place t with
  | .outside => some (s, .silent)
  | .lockTail node data => if s.tlock then some (s, .silent) else some ({ s.goto t (.link node data) with tlock := true }, .silent)
  | .link node data =>
    (s.memory s.tail).map fun last => ((s.goto t (.moveTail node)).write s.tail (some { last with next := some (some node) }), .put data)
  | .moveTail node => some ({ s.goto t .unlockTail with tail := node }, .silent)
  | .unlockTail => some ({ s.goto t .outside with tlock := false }, .silent)
  | .lockHead => if s.hlock then some (s, .silent) else some ({ s.goto t .readHead with hlock := true }, .silent)
  | .readHead => some (s.goto t (.readNext s.head), .silent)
  | .readNext node =>
    (s.next node).map fun newHead =>
      match newHead with
      | none => (s.goto t (.unlockHead node none), .empty t)
      | some newHead => (s.goto t (.readData node newHead), .silent)
  | .readData node newHead => (s.data newHead).map fun data => (s.goto t (.moveHead node newHead data), .silent)
  | .moveHead node newHead data => some ({ s.goto t (.unlockHead node data) with head := newHead }, .took t data)
  | .unlockHead node data => some ({ s.goto t (.free node data) with hlock := false }, .silent)
  | .free node data =>
    if data.isSome then (s.memory node).map fun _ => ((s.goto t .outside).write node none, .returned t data)
    else some (s.goto t .outside, .returned t data)

/-- A call, or the next step of a thread. Nothing happens when the thread is in a call already, or when
the allocator has no memory. -/
def step (s : State ι δ) : Act ι δ → Option (State ι δ × Event ι δ)
  | .push t data node =>
    match s.place t, node with
    | .outside, some node =>
      if (s.memory node).isNone then
        some ((s.goto t (.lockTail node data)).write node (some { next := some none, data := data }), .silent)
      else some (s, .silent)
    | _, _ => some (s, .silent)
  | .pop t =>
    match s.place t with
    | .outside => some (s.goto t .lockHead, .silent)
    | _ => some (s, .silent)
  | .run t => advance s t

/-! ### A queue -/

/-- The contents of a queue, and what the pops that have looked at it will return. -/
abbrev Queue (ι δ : Type*) := List (Option δ) × (ι → Option (Option δ))

/-- A queue takes data in behind and gives out the data in front, or nothing when there is none. -/
inductive Performs : Queue ι δ → Event ι δ → Queue ι δ → Prop
  | silent (q) : Performs q .silent q
  | put (l r data) : Performs (l, r) (.put data) (l ++ [data], r)
  | took (l r t data) (h : r t = none) : Performs (data :: l, r) (.took t data) (l, Function.update r t (some data))
  | empty (r t) (h : r t = none) : Performs ([], r) (.empty t) ([], Function.update r t (some none))
  | returned (l r t data) (h : r t = some data) : Performs (l, r) (.returned t data) (l, Function.update r t none)

/-! ### The invariant -/

namespace Place

def InHead : Place δ → Prop
  | .readHead | .readNext _ | .readData _ _ | .moveHead _ _ _ | .unlockHead _ _ => True
  | _ => False

def InTail : Place δ → Prop
  | .link _ _ | .moveTail _ | .unlockTail => True
  | _ => False

def owned : Place δ → Option Nat
  | .lockTail node _ | .link node _ | .unlockHead node (some _) | .free node (some _) => some node
  | _ => none

/-- What a pop that has looked at the queue will return. -/
def result : Place δ → Option (Option δ)
  | .unlockHead _ data | .free _ data => some data
  | _ => none

end Place

/-- What a thread knows at its place about a queue with nodes `rest` behind the head, and data `q`. -/
def Knows (memory : Nat → Option (Node δ)) (head : Nat) (rest : List Nat) (q : List (Option δ)) : Place δ → Prop
  | .lockTail node data | .link node data => memory node = some { next := some none, data := data } ∧ node ∉ head :: rest
  | .moveTail node => node = endOf id head rest
  | .readNext node => node = head
  | .readData node newHead => node = head ∧ rest.head? = some newHead
  | .moveHead node newHead data => node = head ∧ rest.head? = some newHead ∧ q.head? = some data
  | .unlockHead node (some _) | .free node (some _) => memory node ≠ none ∧ node ∉ head :: rest
  | _ => True

/-- The nodes `rest` behind the head have the data `q`. -/
structure Inv (s : State ι δ) (rest : List Nat) (q : List (Option δ)) : Prop where
  nodup : (s.head :: rest).Nodup
  live : s.memory s.head ≠ none
  linked : Linked id s.next s.head rest ∨ rest = [] ∧ s.next s.head = none
  carries : rest.map s.data = q.map some
  tail : (∀ t n, s.place t ≠ .moveTail n) → s.tail = endOf id s.head rest
  inHead : Guarded s.hlock Place.InHead s.place
  inTail : Guarded s.tlock Place.InTail s.place
  owned (n : Nat) : Alone (fun p => Place.owned p = some n) s.place
  knows (t : ι) : Knows s.memory s.head rest q (s.place t)

variable {s : State ι δ} {memory : Nat → Option (Node δ)} {head n m : Nat} {rest : List Nat} {q : List (Option δ)}
  {t u : ι} {p : Place δ} {content : Option (Node δ)} {data : Option δ} {hl tl : Bool}

omit [DecidableEq ι] in
theorem inv_alloc (dummy : Nat) : Inv (alloc (ι := ι) (δ := δ) dummy) [] [] := by
  have hmemory : (alloc (ι := ι) (δ := δ) dummy).memory dummy = some { next := none, data := none } := by
    simp only [alloc, Function.update_self]
  exact {
    nodup := List.nodup_singleton dummy
    live := hmemory ▸ Option.some_ne_none _
    linked := .inr ⟨rfl, congrArg (Option.bind · Node.next) hmemory⟩
    carries := rfl
    tail := fun _ => rfl
    inHead := ⟨fun _ _ h => h, fun _ _ h => h.elim⟩
    inTail := ⟨fun _ _ h => h, fun _ _ h => h.elim⟩
    owned := fun _ _ _ h => (Option.some_ne_none _ h.symm).elim
    knows := fun _ => trivial }

theorem Knows.not_mem (h : Knows memory head rest q p) (hp : p.owned = some n) : n ∉ head :: rest := by
  cases p with
  | lockTail node data | link node data =>
    obtain rfl := Option.some.inj hp
    exact h.2
  | unlockHead node data | free node data =>
    cases data with
    | none => cases hp
    | some data =>
      obtain rfl := Option.some.inj hp
      exact h.2
  | _ => cases hp

theorem Knows.live (h : Knows memory head rest q p) (hp : p.owned = some n) : memory n ≠ none := by
  cases p with
  | lockTail node data | link node data =>
    obtain rfl := Option.some.inj hp
    exact h.1 ▸ Option.some_ne_none _
  | unlockHead node data | free node data =>
    cases data with
    | none => cases hp
    | some data =>
      obtain rfl := Option.some.inj hp
      exact h.1
  | _ => cases hp

/-- A thread knows of no node but the one that it has for itself what the memory has there. -/
theorem Knows.write (h : Knows memory head rest q p) (hp : p.owned ≠ some n) :
    Knows (Function.update memory n content) head rest q p := by
  cases p with
  | lockTail node data | link node data =>
    exact ⟨(Function.update_of_ne (fun heq => hp (congrArg some heq)) _ _).trans h.1, h.2⟩
  | unlockHead node data | free node data =>
    cases data with
    | none => trivial
    | some data =>
      refine ⟨?_, h.2⟩
      rw [Function.update_of_ne fun heq => hp (congrArg some heq)]
      exact h.1
  | _ => exact h

theorem Knows.append (h : Knows memory head rest q p) (hp : p.owned ≠ some n) (hmove : ∀ m, p ≠ .moveTail m) :
    Knows memory head (rest ++ [n]) (q ++ [data]) p := by
  have hmem {node : Nat} (hnode : node ∉ head :: rest) (hne : node ≠ n) : node ∉ head :: (rest ++ [n]) := by
    rw [← List.cons_append, List.mem_append, List.mem_singleton]
    exact fun hor => hor.elim hnode hne
  cases p with
  | lockTail node data | link node data => exact ⟨h.1, hmem h.2 fun heq => hp (congrArg some heq)⟩
  | moveTail node => exact (hmove node rfl).elim
  | readData node newHead => exact ⟨h.1, by rw [List.head?_append, h.2, Option.some_or]⟩
  | moveHead node newHead data =>
    exact ⟨h.1, by rw [List.head?_append, h.2.1, Option.some_or], by rw [List.head?_append, h.2.2, Option.some_or]⟩
  | unlockHead node data | free node data =>
    cases data with
    | none => trivial
    | some data => exact ⟨h.1, hmem h.2 fun heq => hp (congrArg some heq)⟩
  | _ => exact h

/-- The first node behind the head becomes the head. -/
theorem Knows.tail (h : Knows memory head (m :: rest) (data :: q) p) (hp : ¬ p.InHead) : Knows memory m rest q p := by
  cases p with
  | lockTail node data | link node data => exact ⟨h.1, fun hmem => h.2 (List.mem_cons_of_mem head hmem)⟩
  | free node data =>
    cases data with
    | none => trivial
    | some data => exact ⟨h.1, fun hmem => h.2 (List.mem_cons_of_mem head hmem)⟩
  | readNext node | readData node newHead | moveHead node newHead data | unlockHead node data => exact (hp trivial).elim
  | moveTail node => exact h
  | _ => trivial

/-! ### Steps -/

omit [DecidableEq ι] in
theorem Inv.live_of_mem (h : Inv s rest q) (hn : n ∈ s.head :: rest) : s.memory n ≠ none := by
  rcases List.mem_cons.mp hn with heq | hrest
  · exact heq ▸ h.live
  · intro hnone
    have hdata : s.data n ∈ rest.map s.data := List.mem_map_of_mem hrest
    rw [h.carries, State.data, hnone] at hdata
    obtain ⟨d, -, hd⟩ := List.mem_map.mp hdata
    cases hd

theorem Inv.goto (h : Inv s rest q) (hknows : Knows s.memory s.head rest q p)
    (howned : ∀ n, p.owned = some n → (s.place t).owned = some n) (hmove : ∀ n, s.place t ≠ .moveTail n)
    (hhead : Guarded hl Place.InHead (Function.update s.place t p)) (htail : Guarded tl Place.InTail (Function.update s.place t p)) :
    Inv { s.goto t p with hlock := hl, tlock := tl } rest q where
  nodup := h.nodup
  live := h.live
  linked := h.linked
  carries := h.carries
  tail hnone := h.tail fun u n hu => by
    by_cases hut : u = t
    · exact hmove n (hut ▸ hu)
    · exact hnone u n ((Function.update_of_ne hut _ _).trans hu)
  inHead := hhead
  inTail := htail
  owned n := (h.owned n).update fun hp => .inl (howned n hp)
  knows u := by
    show Knows s.memory s.head rest q (Function.update s.place t p u)
    by_cases hut : u = t
    · rw [hut, Function.update_self]
      exact hknows
    · rw [Function.update_of_ne hut]
      exact h.knows u

/-- A thread goes to another place and writes to a node that is not in the queue and that no other thread has. -/
theorem Inv.write (h : Inv s rest q) (hn : n ∉ s.head :: rest) (hothers : ∀ u ≠ t, (s.place u).owned ≠ some n)
    (hknows : Knows (Function.update s.memory n content) s.head rest q p)
    (howned : ∀ m, p.owned = some m → (s.place t).owned = some m ∨ ∀ u, (s.place u).owned ≠ some m)
    (hmove : ∀ m, s.place t ≠ .moveTail m) (hhead : ¬ p.InHead) (htail : ¬ p.InTail) :
    Inv ((s.goto t p).write n content) rest q := by
  have hsame {m : Nat} (hm : m ∈ s.head :: rest) : Function.update s.memory n content m = s.memory m :=
    Function.update_of_ne (fun heq : m = n => hn (heq ▸ hm)) _ _
  have hnext {m : Nat} (hm : m ∈ s.head :: rest) : ((s.goto t p).write n content).next m = s.next m :=
    congrArg (Option.bind · Node.next) (hsame hm)
  exact {
    nodup := h.nodup
    live := fun hnone => h.live ((hsame List.mem_cons_self).symm.trans hnone)
    linked := by
      rcases h.linked with hlinked | ⟨hrest, hnone⟩
      · exact .inl (hlinked.of_link (hnext List.mem_cons_self) fun m hm => hnext (List.mem_cons_of_mem _ hm))
      · exact .inr ⟨hrest, (hnext List.mem_cons_self).trans hnone⟩
    carries := by
      rw [← h.carries]
      exact List.map_congr_left fun m hm => congrArg (Option.map Node.data) (hsame (List.mem_cons_of_mem _ hm))
    tail := fun hnone => h.tail fun u m hu => by
      by_cases hut : u = t
      · exact hmove m (hut ▸ hu)
      · exact hnone u m ((Function.update_of_ne hut _ _).trans hu)
    inHead := h.inHead.stay fun hp => (hhead hp).elim
    inTail := h.inTail.stay fun hp => (htail hp).elim
    owned := fun m => (h.owned m).update (howned m)
    knows := fun u => by
      show Knows (Function.update s.memory n content) s.head rest q (Function.update s.place t p u)
      by_cases hut : u = t
      · rw [hut, Function.update_self]
        exact hknows
      · rw [Function.update_of_ne hut]
        exact (h.knows u).write (hothers u hut) }

omit [DecidableEq ι] in
/-- While a thread is about to link a node, the tail is the last node. -/
theorem Inv.tail_eq (h : Inv s rest q) (hp : s.place t = .link n data) : s.tail = endOf id s.head rest :=
  h.tail fun u m hu => by
    obtain rfl := h.inTail.alone t u (by rw [hp]; trivial) (by rw [hu]; trivial)
    cases hp.symm.trans hu

theorem Inv.link (h : Inv s rest q) (hp : s.place t = .link n data) :
    ∃ last, s.memory s.tail = some last ∧
      Inv ((s.goto t (.moveTail n)).write s.tail (some { last with next := some (some n) })) (rest ++ [n]) (q ++ [data]) := by
  obtain ⟨hcell, hn⟩ : s.memory n = some { next := some none, data := data } ∧ n ∉ s.head :: rest := by
    have hknows := h.knows t
    rwa [hp] at hknows
  have htail := h.tail_eq hp
  have hmem : s.tail ∈ s.head :: rest := by
    have hend : endOf id s.head rest ∈ s.head :: rest.map id := endOf_mem
    rwa [List.map_id, ← htail] at hend
  have hin : (s.place t).InTail := by
    rw [hp]
    trivial
  have hne : n ≠ s.tail := fun heq => hn (heq ▸ hmem)
  obtain ⟨last, hlast⟩ := Option.ne_none_iff_exists'.mp (h.live_of_mem hmem)
  set s' := (s.goto t (.moveTail n)).write s.tail (some { last with next := some (some n) }) with hs'
  have hnew : s'.memory s.tail = some { last with next := some (some n) } := Function.update_self ..
  have hsame {k : Nat} (hk : k ≠ s.tail) : s'.memory k = s.memory k := Function.update_of_ne hk _ _
  have hdata (k : Nat) : s'.data k = s.data k := by
    by_cases hk : k = s.tail
    · rw [hk, State.data, State.data, hnew, hlast]
      rfl
    · rw [State.data, State.data, hsame hk]
  have hnext : s'.next s.tail = some (some n) := by
    rw [State.next, hnew]
    rfl
  have hnil : s'.next n = some none := by
    rw [State.next, hsame hne, hcell]
    rfl
  refine ⟨last, hlast, ?_⟩
  exact {
    nodup := by
      rw [← List.cons_append]
      exact List.nodup_append.mpr ⟨h.nodup, List.nodup_singleton n, fun a ha b hb heq =>
        hn (List.mem_singleton.mp hb ▸ heq ▸ ha)⟩
    live := by
      show s'.memory s.head ≠ none
      by_cases hhead : s.head = s.tail
      · rw [hhead, hnew]
        exact Option.some_ne_none _
      · rw [hsame hhead]
        exact h.live
    linked := by
      rcases h.linked with hlinked | ⟨rfl, -⟩
      · rw [← List.append_nil rest] at hlinked
        have hend : s.next (endOf id s.head rest) = some none := hlinked.suffix
        refine .inl (hlinked.insert ?_ (htail ▸ hnext) (hnil.trans hend.symm) fun k _ hk => ?_)
        · rw [List.append_nil, List.map_id]
          exact h.nodup
        · exact congrArg (Option.bind · Node.next) (hsame (htail ▸ hk))
      · exact .inl ⟨(congrArg s'.next (htail : s.tail = s.head).symm).trans hnext, hnil⟩
    carries := by
      have hlastData : s'.data n = some data := by
        rw [hdata, State.data, hcell]
        rfl
      rw [List.map_append, List.map_append, List.map_singleton, List.map_singleton, hlastData, ← h.carries]
      exact congrArg (· ++ _) (List.map_congr_left fun k _ => hdata k)
    tail := fun hnone => (hnone t n (Function.update_self ..)).elim
    inHead := h.inHead.stay fun hp => hp.elim
    inTail := h.inTail.stay fun _ => hin
    owned := fun k => (h.owned k).update fun hk => by cases hk
    knows := fun u => by
      show Knows s'.memory s.head (rest ++ [n]) (q ++ [data]) (Function.update s.place t (.moveTail n) u)
      by_cases hut : u = t
      · rw [hut, Function.update_self]
        show n = endOf id s.head (rest ++ [n])
        rw [endOf_concat, id]
      · rw [Function.update_of_ne hut]
        refine ((h.knows u).write fun hu => (h.knows u).not_mem hu hmem).append ?_ fun k hk => ?_
        · exact fun hu => hut (h.owned n u t hu (by rw [hp]; rfl))
        · exact hut (h.inTail.alone u t (by rw [hk]; trivial) hin) }

theorem Inv.moveHead (h : Inv s rest q) (hp : s.place t = .moveHead n m data) :
    ∃ rest' q', rest = m :: rest' ∧ q = data :: q' ∧ Inv { s.goto t (.unlockHead n data) with head := m } rest' q' := by
  obtain ⟨hn, hrest, hq⟩ : n = s.head ∧ rest.head? = some m ∧ q.head? = some data := by
    have hknows := h.knows t
    rwa [hp] at hknows
  obtain ⟨rest', rfl⟩ := List.head?_eq_some_iff.mp hrest
  obtain ⟨q', rfl⟩ := List.head?_eq_some_iff.mp hq
  obtain ⟨hdata, hcarries⟩ := List.cons.inj h.carries
  have hin : (s.place t).InHead := by
    rw [hp]
    trivial
  refine ⟨rest', q', rfl, rfl, ?_⟩
  exact {
    nodup := (List.nodup_cons.mp h.nodup).2
    live := fun hnone => by
      have hnodata : s.data m = none := congrArg (Option.map Node.data) hnone
      rw [hnodata] at hdata
      cases hdata
    linked := by
      rcases h.linked with hlinked | ⟨hnil, -⟩
      · exact .inl hlinked.2
      · cases hnil
    carries := hcarries
    tail := fun hnone => h.tail fun u k hu => by
      by_cases hut : u = t
      · rw [hut, hp] at hu
        cases hu
      · exact hnone u k ((Function.update_of_ne hut _ _).trans hu)
    inHead := h.inHead.stay fun _ => hin
    inTail := h.inTail.stay fun hp => hp.elim
    owned := fun k => (h.owned k).update fun hk => .inr fun u hu => by
      cases data with
      | none => cases hk
      | some data =>
        obtain rfl := Option.some.inj hk
        exact (h.knows u).not_mem hu (hn ▸ List.mem_cons_self)
    knows := fun u => by
      show Knows s.memory m rest' q' (Function.update s.place t (.unlockHead n data) u)
      by_cases hut : u = t
      · rw [hut, Function.update_self]
        cases data with
        | none => trivial
        | some data => exact ⟨hn ▸ h.live, hn ▸ (List.nodup_cons.mp h.nodup).1⟩
      · rw [Function.update_of_ne hut]
        exact (h.knows u).tail fun hu => hut (h.inHead.alone u t hu hin) }

theorem Inv.moveTail (h : Inv s rest q) (hp : s.place t = .moveTail n) :
    Inv { s.goto t .unlockTail with tail := n } rest q := by
  have hn : n = endOf id s.head rest := by
    have hknows := h.knows t
    rwa [hp] at hknows
  exact {
    nodup := h.nodup
    live := h.live
    linked := h.linked
    carries := h.carries
    tail := fun _ => hn
    inHead := h.inHead.stay fun hp => hp.elim
    inTail := h.inTail.stay fun _ => by
      rw [hp]
      trivial
    owned := fun k => (h.owned k).update fun hk => by cases hk
    knows := fun u => by
      show Knows s.memory s.head rest q (Function.update s.place t .unlockTail u)
      by_cases hut : u = t
      · rw [hut, Function.update_self]
        trivial
      · rw [Function.update_of_ne hut]
        exact h.knows u }

/-- The data that the pops that have looked at the queue will return. -/
def results (s : State ι δ) (t : ι) : Option (Option δ) := (s.place t).result

theorem results_goto (hp : s.place t = p) {p' : Place δ} (hsame : p'.result = p.result) :
    results (s.goto t p') = results s := by
  funext u
  by_cases hut : u = t
  · rw [results, results, State.goto_place, hut, Function.update_self, hp, hsame]
  · rw [results, results, State.goto_place, Function.update_of_ne hut]

theorem results_update (p' : Place δ) : results (s.goto t p') = Function.update (results s) t p'.result := by
  funext u
  by_cases hut : u = t
  · rw [results, State.goto_place, hut, Function.update_self, Function.update_self]
  · rw [results, State.goto_place, Function.update_of_ne hut, Function.update_of_ne hut, results]

/-- A step does what a queue with the same contents does, and keeps the invariant. -/
def Served (s : State ι δ) (q : List (Option δ)) (r : Option (State ι δ × Event ι δ)) : Prop :=
  ∃ s' e rest' q', r = some (s', e) ∧ Inv s' rest' q' ∧ Performs (q, results s) e (q', results s')

theorem Inv.served {s' : State ι δ} (h : Inv s' rest q) (hsame : results s' = results s) : Served s q (some (s', .silent)) :=
  ⟨s', .silent, rest, q, rfl, h, hsame ▸ .silent _⟩

/-- A link is not read before anything has been written there. -/
def Written (s : State ι δ) : Act ι δ → Prop
  | .run t => ∀ node, s.place t = .readNext node → s.next node ≠ none
  | _ => True

theorem Inv.readNext (h : Inv s rest q) (hp : s.place t = .readNext n) (hw : s.next n ≠ none) :
    Served s q ((s.next n).map fun newHead =>
      match newHead with
      | none => (s.goto t (.unlockHead n none), .empty t)
      | some newHead => (s.goto t (.readData n newHead), .silent)) := by
  have hn : n = s.head := by
    have hknows := h.knows t
    rwa [hp] at hknows
  have hlinked : Linked id s.next s.head rest := h.linked.resolve_right fun hvirgin => hw (hn ▸ hvirgin.2)
  have hstay (p' : Place δ) (hin : p'.InHead) : Guarded s.hlock Place.InHead (Function.update s.place t p') :=
    h.inHead.stay fun _ => by
      rw [hp]
      trivial
  rw [hn, hlinked.link_eq, Option.map_some]
  cases hrest : rest with
  | nil =>
    have hq : q = [] := by
      have hcarries := h.carries
      rw [hrest] at hcarries
      exact List.map_eq_nil_iff.mp hcarries.symm
    refine ⟨_, _, rest, q, rfl, h.goto trivial (fun _ hm => by cases hm) (fun m hm => ?_) (hstay _ trivial)
      (h.inTail.stay fun hin => hin.elim), ?_⟩
    · cases hp.symm.trans hm
    · rw [hq, results_update]
      exact .empty _ t (by rw [results, hp]; rfl)
  | cons m rest' =>
    have hgoto : Inv (s.goto t (.readData s.head m)) rest q :=
      h.goto ⟨rfl, hrest ▸ rfl⟩ (fun _ hm => by cases hm) (fun m hm => by cases hp.symm.trans hm) (hstay _ trivial)
        (h.inTail.stay fun hin => hin.elim)
    exact hgoto.served (results_goto hp rfl)

theorem Inv.readData (h : Inv s rest q) (hp : s.place t = .readData n m) :
    Served s q ((s.data m).map fun data => (s.goto t (.moveHead n m data), .silent)) := by
  obtain ⟨hn, hrest⟩ : n = s.head ∧ rest.head? = some m := by
    have hknows := h.knows t
    rwa [hp] at hknows
  obtain ⟨data, hdata, hq⟩ : ∃ data, s.data m = some data ∧ q.head? = some data := by
    obtain ⟨rest', rfl⟩ := List.head?_eq_some_iff.mp hrest
    obtain ⟨data, q', rfl, hdata, -⟩ := List.map_eq_cons_iff.mp h.carries.symm
    exact ⟨data, hdata.symm, rfl⟩
  rw [hdata, Option.map_some]
  have hgoto : Inv (s.goto t (.moveHead n m data)) rest q :=
    h.goto ⟨hn, hrest, hq⟩ (fun _ hm => by cases hm) (fun m hm => by cases hp.symm.trans hm)
      (h.inHead.stay fun _ => by rw [hp]; trivial) (h.inTail.stay fun hin => hin.elim)
  exact hgoto.served (results_goto hp rfl)

/-- A pop that has data frees the node that was the head, and returns the data. -/
theorem Inv.free (h : Inv s rest q) (hp : s.place t = .free n data) :
    Served s q (if data.isSome then (s.memory n).map fun _ => ((s.goto t .outside).write n none, .returned t data)
      else some (s.goto t .outside, .returned t data)) := by
  have hreturned (s' : State ι δ) (hs' : results s' = results (s.goto t .outside)) :
      Performs (q, results s) (.returned t data) (q, results s') := by
    rw [hs', results_update]
    exact .returned _ _ t data (by rw [results, hp]; rfl)
  have hmove (m : Nat) : s.place t ≠ .moveTail m := by
    rw [hp]
    exact nofun
  cases data with
  | none =>
    exact ⟨_, _, rest, q, rfl, h.goto trivial (fun _ hm => by cases hm) hmove (h.inHead.stay fun hin => hin.elim)
      (h.inTail.stay fun hin => hin.elim), hreturned _ rfl⟩
  | some data =>
    obtain ⟨hlive, hn⟩ : s.memory n ≠ none ∧ n ∉ s.head :: rest := by
      have hknows := h.knows t
      rwa [hp] at hknows
    obtain ⟨node, hnode⟩ := Option.ne_none_iff_exists'.mp hlive
    rw [Option.isSome_some, if_pos rfl, hnode, Option.map_some]
    have hothers (u : ι) (hu : u ≠ t) : (s.place u).owned ≠ some n := fun hown => hu (h.owned n u t hown (by rw [hp]; rfl))
    exact ⟨_, _, rest, q, rfl, h.write hn hothers trivial (fun _ hm => by cases hm) hmove id id, hreturned _ rfl⟩

theorem advance_served (h : Inv s rest q) (hw : Written s (.run t)) : Served s q (advance s t) := by
  have hknows := h.knows t
  rw [advance]
  cases hp : s.place t with
  | outside => exact h.served rfl
  | lockTail node data =>
    rw [hp] at hknows
    cases hlock : s.tlock with
    | true => exact h.served rfl
    | false =>
      have hgoto : Inv { s.goto t (.link node data) with tlock := true } rest q :=
        h.goto hknows (fun _ hm => hp ▸ hm) (fun m hm => by cases hp.symm.trans hm) (h.inHead.stay fun hin => hin.elim)
          (hlock ▸ h.inTail).take
      exact hgoto.served (results_goto hp rfl)
  | link node data =>
    obtain ⟨last, hlast, hinv⟩ := h.link hp
    rw [hlast]
    refine ⟨_, _, rest ++ [node], q ++ [data], rfl, hinv, ?_⟩
    rw [show results ((s.goto t (.moveTail node)).write s.tail _) = results s from results_goto hp rfl]
    exact .put _ _ _
  | moveTail node => exact (h.moveTail hp).served (results_goto hp rfl)
  | unlockTail =>
    have hgoto : Inv { s.goto t .outside with tlock := false } rest q :=
      h.goto trivial (fun _ hm => by cases hm) (fun m hm => by cases hp.symm.trans hm) (h.inHead.stay fun hin => hin.elim)
        (h.inTail.leave (by rw [hp]; trivial) id)
    exact hgoto.served (results_goto hp rfl)
  | lockHead =>
    cases hlock : s.hlock with
    | true => exact h.served rfl
    | false =>
      have hgoto : Inv { s.goto t .readHead with hlock := true } rest q :=
        h.goto trivial (fun _ hm => by cases hm) (fun m hm => by cases hp.symm.trans hm) (hlock ▸ h.inHead).take
          (h.inTail.stay fun hin => hin.elim)
      exact hgoto.served (results_goto hp rfl)
  | readHead =>
    have hgoto : Inv (s.goto t (.readNext s.head)) rest q :=
      h.goto rfl (fun _ hm => by cases hm) (fun m hm => by cases hp.symm.trans hm)
        (h.inHead.stay fun _ => by rw [hp]; trivial) (h.inTail.stay fun hin => hin.elim)
    exact hgoto.served (results_goto hp rfl)
  | readNext node => exact h.readNext hp (hw node hp)
  | readData node newHead => exact h.readData hp
  | moveHead node newHead data =>
    obtain ⟨rest', q', rfl, rfl, hinv⟩ := h.moveHead hp
    refine ⟨_, _, rest', q', rfl, hinv, ?_⟩
    rw [show results { s.goto t (.unlockHead node data) with head := newHead } = _ from results_update _]
    exact .took _ _ t data (by rw [results, hp]; rfl)
  | unlockHead node data =>
    have hgoto : Inv { s.goto t (.free node data) with hlock := false } rest q := by
      refine h.goto ?_ (fun m hm => ?_) (fun m hm => by cases hp.symm.trans hm) (h.inHead.leave (by rw [hp]; trivial) id)
        (h.inTail.stay fun hin => hin.elim)
      · rw [hp] at hknows
        cases data with
        | none => trivial
        | some data => exact hknows
      · rw [hp]
        cases data with
        | none => cases hm
        | some data => exact hm
    exact hgoto.served (results_goto hp rfl)
  | free node data => exact h.free hp

theorem step_served (h : Inv s rest q) {act : Act ι δ} (hw : Written s act) : Served s q (step s act) := by
  cases act with
  | run t => exact advance_served h hw
  | pop t =>
    rw [step]
    cases hp : s.place t with
    | outside =>
      have hgoto : Inv (s.goto t .lockHead) rest q :=
        h.goto trivial (fun _ hm => by cases hm) (fun m hm => by cases hp.symm.trans hm) (h.inHead.stay fun hin => hin.elim)
          (h.inTail.stay fun hin => hin.elim)
      exact hgoto.served (results_goto hp rfl)
    | _ => exact h.served rfl
  | push t data node =>
    cases hp : s.place t with
    | outside =>
      cases node with
      | none =>
        simp only [step, hp]
        exact h.served rfl
      | some node =>
        simp only [step, hp]
        split_ifs with hnone
        · rw [Option.isNone_iff_eq_none] at hnone
          have hfree {u : ι} : (s.place u).owned ≠ some node := fun hown => (h.knows u).live hown hnone
          have hmem : node ∉ s.head :: rest := fun hmem => h.live_of_mem hmem hnone
          have hwrite : Inv ((s.goto t (.lockTail node data)).write node (some { next := some none, data := data })) rest q :=
            h.write hmem (fun u _ => hfree) ⟨Function.update_self .., hmem⟩ (fun m hm => .inr fun u => Option.some.inj hm ▸ hfree)
              (fun m hm => by cases hp.symm.trans hm) id id
          exact hwrite.served (results_goto hp rfl)
        · exact h.served rfl
    | _ =>
      simp only [step, hp]
      exact h.served rfl

/-! ### Runs -/

/-- Any number of threads may push and pop in any order, with their steps in any order. As long as no link
is read before one has been written, no step reads memory that is not allocated, and the queue does what a
first-in first-out queue does. The first read of a link that has not been written has no result. -/
theorem exec_fifo (dummy : Nat) (acts : List (Act ι δ)) :
    Meets step Written (alloc dummy) acts ∧
        (∃ s es q, exec step (alloc dummy) acts = some (s, es) ∧ Allows Performs ([], fun _ => none) es q) ∨
      ¬ Meets step Written (alloc dummy) acts ∧ exec step (alloc dummy) acts = none := by
  by_cases hmeets : Meets step Written (alloc dummy) acts
  · refine .inl ⟨hmeets, ?_⟩
    have hstep (s : State ι δ) (q : Queue ι δ) (act : Act ι δ) (hR : ∃ rest, Inv s rest q.1 ∧ q.2 = results s) (hw : Written s act) :
        ∃ s' e q', step s act = some (s', e) ∧ (∃ rest, Inv s' rest q'.1 ∧ q'.2 = results s') ∧ Performs q e q' := by
      obtain ⟨l, r⟩ := q
      obtain ⟨rest, hinv, rfl⟩ := hR
      obtain ⟨s', e, rest', q', hstep, hinv', hperf⟩ := step_served hinv hw
      exact ⟨s', e, (q', results s'), hstep, ⟨rest', hinv', rfl⟩, hperf⟩
    have hrun := exec_allows (s := alloc dummy) (a := ([], fun _ => none)) hstep ⟨[], inv_alloc dummy, rfl⟩ hmeets
    obtain ⟨s, es, q, hexec, -, hlaw⟩ := hrun
    exact ⟨s, es, q, hexec, hlaw⟩
  · refine .inr ⟨hmeets, exec_eq_none (fun s act hact => ?_) hmeets⟩
    cases act with
    | run t =>
      obtain ⟨node, hp, hnone⟩ : ∃ node, s.place t = .readNext node ∧ s.next node = none := by
        by_contra hall
        exact hact fun node hp hnone => hall ⟨node, hp, hnone⟩
      rw [step, advance, hp]
      exact congrArg (Option.map _) hnone
    | push t data node => exact (hact trivial).elim
    | pop t => exact (hact trivial).elim

end RaleighSL.Zcl.AtomicQueue
