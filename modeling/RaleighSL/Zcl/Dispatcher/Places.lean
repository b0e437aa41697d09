import RaleighSL.Library.Placement
import RaleighSL.Zcl.Dispatcher.Links

/-!
# The places of the tasks

On the board of the dispatcher a task has one place: the work queue, the pending tasks in
the order of their times, a wait queue, a list that a thread has drained, or the tasks that
are run. The dispatcher does on the child pointers what the board says.
-/
namespace RaleighSL.Zcl.Dispatcher

open Library Avl
open scoped List

variable {τ ω : Type*}

inductive Place (τ ω : Type*) where
  | queue
  | pending
  | wait (w : ω)
  | drained (first : τ)
  | running
  deriving DecidableEq, Repr

structure Board (τ ω : Type*) where
  itime : τ → Nat
  reqId : Nat
  tasks : Place τ ω → List τ

def Board.init : Board τ ω := ⟨fun _ => 0, 0, fun _ => []⟩

section

variable [DecidableEq τ] [DecidableEq ω]

def Board.move (b : Board τ ω) (p : Place τ ω) (l : List τ) (q : Place τ ω) (l' : List τ) : Board τ ω :=
  { b with tasks := Function.update (Function.update b.tasks p l) q l' }

/-- Some tasks of a place become pending ones. -/
def Board.deliver (b : Board τ ω) (p : Place τ ω) (l rest : List τ) : Board τ ω :=
  b.move p rest .pending (l.foldl (insertTask b.itime) (b.tasks .pending))

/-- A task that is run, or a list that was drained, goes to the pending tasks. -/
def Board.handOver (b : Board τ ω) : Option τ → Board τ ω
  | none => b
  | some k =>
    if k ∈ b.tasks .running then b.deliver .running [k] ((b.tasks .running).erase k)
    else b.deliver (.drained k) (b.tasks (.drained k)) []

/-- A task is submitted at the end of the queue. The pending tasks are fetched first, by their times, and then
the queue in its order. -/
def boardStep (b : Board τ ω) : Op τ ω → Board τ ω × Option τ
  | .add k =>
    ({ itime := Function.update b.itime k b.reqId
       reqId := (b.reqId + 1) % 2 ^ 64
       tasks := Function.update b.tasks .queue (b.tasks .queue ++ [k]) }, none)
  | .fetch =>
    match b.tasks .pending with
    | k :: l => (b.move .pending l .running (k :: b.tasks .running), some k)
    | [] =>
      match b.tasks .queue with
      | k :: l => (b.move .queue l .running (k :: b.tasks .running), some k)
      | [] => (b, none)
  | .wait w k => (b.move .running ((b.tasks .running).erase k) (.wait w) (b.tasks (.wait w) ++ [k]), none)
  | .drain w =>
    match b.tasks (.wait w) with
    | [] => (b, none)
    | k :: l => (b.move (.wait w) [] (.drained k) (k :: l), some k)
  | .addPending tasks => (tasks.foldl Board.handOver b, none)
  | .finish k => ({ b with tasks := Function.update b.tasks .running ((b.tasks .running).erase k) }, none)

end

/-- How the tasks of a place are kept. -/
def Stored (s : State τ ω) : Place τ ω → List τ → Prop
  | .queue, l => Queued s.links s.queue l
  | .pending, l => Tended s ∧ s.pending.toList = l
  | .wait w, l => Queued s.links (s.waits w) l
  | .drained k, l => (k ∈ s.drained ↔ l ≠ []) ∧ (k ∈ s.drained → Chain s.links.child0 (some k) l)
  | .running, l => s.running = l ∧ ∀ k ∈ l, s.links.child0 k = none

structure Rep (s : State τ ω) (b : Board τ ω) : Prop where
  stored : ∀ p, Stored s p (b.tasks p)
  placed : Placed s.live b.tasks
  itime : b.itime = s.itime
  reqId : b.reqId = s.reqId
  times : ∀ j ∈ s.live, ∀ k ∈ s.live, s.itime j = s.itime k → j = k
  freed : s.freed = []

def SamePlace (s s' : State τ ω) : Place τ ω → Prop
  | .queue => s'.queue = s.queue
  | .pending => s'.pending = s.pending
  | .wait w => s'.waits w = s.waits w
  | .drained k => k ∈ s'.drained ↔ k ∈ s.drained
  | .running => s'.running = s.running

variable {s s' : State τ ω} {b : Board τ ω} {p q : Place τ ω} {l : List τ} {k : τ}

theorem Stored.frame (h : Stored s p l) (hplace : SamePlace s s' p) (hlinks : ∀ a ∈ l, Same s.links s'.links a)
    (hitime : ∀ a ∈ l, s'.itime a = s.itime a) : Stored s' p l := by
  cases p with
  | queue =>
    have hqueue : s'.queue = s.queue := hplace
    show Queued s'.links s'.queue l
    rw [hqueue]
    exact Queued.congr h hlinks
  | pending =>
    have hpending : s'.pending = s.pending := hplace
    obtain ⟨⟨hb, hsorted, hholds⟩, rfl⟩ := h
    refine ⟨⟨hpending ▸ hb, ?_, hpending ▸ hholds.congr hlinks⟩, by rw [hpending]⟩
    rw [hpending, Tree.Sorted]
    refine List.Pairwise.imp_of_mem ?_ hsorted
    intro a b ha hb hlt
    rwa [hitime a ha, hitime b hb]
  | wait w =>
    have hwait : s'.waits w = s.waits w := hplace
    show Queued s'.links (s'.waits w) l
    rw [hwait]
    exact Queued.congr h hlinks
  | drained first =>
    have hdrained : first ∈ s'.drained ↔ first ∈ s.drained := hplace
    obtain ⟨hne, hchain⟩ := h
    exact ⟨hdrained.trans hne, fun hd => (hchain (hdrained.mp hd)).congr (fun a ha => (hlinks a ha).1)⟩
  | running =>
    have hrunning : s'.running = s.running := hplace
    obtain ⟨rfl, hnext⟩ := h
    exact ⟨hrunning, fun a ha => (hlinks a ha).1.trans (hnext a ha)⟩

theorem Rep.disjoint (h : Rep s b) (hp : k ∈ b.tasks p) (hpq : p ≠ q) : k ∉ b.tasks q :=
  fun hq => hpq (h.placed.unique hp hq)

theorem Rep.live_of_mem (h : Rep s b) (hp : k ∈ b.tasks p) : k ∈ s.live := (h.placed.mem k).mpr ⟨p, hp⟩

variable [DecidableEq τ] [DecidableEq ω]

theorem Board.move_from {l' : List τ} (b : Board τ ω) (hpq : p ≠ q) : (b.move p l q l').tasks p = l := by
  show Function.update (Function.update b.tasks p l) q l' p = l
  rw [Function.update_of_ne hpq, Function.update_self]

theorem Board.move_to {l' : List τ} (b : Board τ ω) : (b.move p l q l').tasks q = l' := Function.update_self ..

theorem Board.move_other {l' : List τ} (b : Board τ ω) {r : Place τ ω} (hp : r ≠ p) (hq : r ≠ q) :
    (b.move p l q l').tasks r = b.tasks r := by
  show Function.update (Function.update b.tasks p l) q l' r = b.tasks r
  rw [Function.update_of_ne hq, Function.update_of_ne hp]

theorem Rep.move {rest : List τ} (h : Rep s b) (moved : List τ) (hpq : p ≠ q) (hmoved : (b.tasks p).Perm (moved ++ rest))
    (hl : l.Perm (moved ++ b.tasks q)) (hp : Stored s' p rest) (hq : Stored s' q l)
    (hplace : ∀ r, r ≠ p → r ≠ q → SamePlace s s' r)
    (hlinks : ∀ a, a ∉ b.tasks p → a ∉ b.tasks q → Same s.links s'.links a) (hitime : s'.itime = s.itime)
    (hreqId : s'.reqId = s.reqId) (hlive : s'.live = s.live) (hfreed : s'.freed = s.freed) :
    Rep s' (b.move p rest q l) := by
  refine ⟨?_, ?_, ?_, ?_, ?_, ?_⟩
  · intro r
    by_cases hrp : r = p
    · rwa [hrp, b.move_from hpq]
    · by_cases hrq : r = q
      · rwa [hrq, b.move_to]
      · rw [b.move_other hrp hrq]
        refine (h.stored r).frame (hplace r hrp hrq) (fun a ha => ?_) (fun a _ => congrFun hitime a)
        exact hlinks a (h.disjoint ha hrp) (h.disjoint ha hrq)
  · rw [hlive]
    refine h.placed.move hpq hmoved ?_ ?_ (fun r hrp hrq => b.move_other hrp hrq)
    · rw [b.move_from hpq]
    · rwa [b.move_to]
  · exact h.itime.trans hitime.symm
  · exact h.reqId.trans hreqId.symm
  · rw [hlive, hitime]
    exact h.times
  · exact hfreed.trans h.freed

/-! ### The calls -/

omit [DecidableEq ω] in
theorem Rep.times_add (h : Rep s b) (hk : k ∉ s.live) (hfresh : ∀ a ∈ s.live, s.itime a ≠ s.reqId) :
    ∀ i ∈ k :: s.live, ∀ j ∈ k :: s.live,
      Function.update s.itime k s.reqId i = Function.update s.itime k s.reqId j → i = j := by
  have hold (a : τ) (ha : a ∈ s.live) : Function.update s.itime k s.reqId a = s.itime a := by
    rw [Function.update_of_ne]
    rintro rfl
    exact hk ha
  intro i hi j hj heq
  rw [List.mem_cons] at hi hj
  obtain rfl | hi := hi
  · obtain rfl | hj := hj
    · rfl
    · rw [Function.update_self, hold j hj] at heq
      exact absurd heq.symm (hfresh j hj)
  · obtain rfl | hj := hj
    · rw [Function.update_self, hold i hi] at heq
      exact absurd heq (hfresh i hi)
    · rw [hold i hi, hold j hj] at heq
      exact h.times i hi j hj heq

theorem Rep.add (h : Rep s b) (hk : k ∉ s.live) (hfresh : ∀ a ∈ s.live, s.itime a ≠ s.reqId) :
    ∃ s', step s (.add k) = some (s', none) ∧ Rep s' (boardStep b (.add k)).1 := by
  have hnew (r : Place τ ω) : k ∉ b.tasks r := fun hr => hk (h.live_of_mem hr)
  have hne (r : Place τ ω) (a : τ) (ha : a ∈ b.tasks r) : a ≠ k := by
    rintro rfl
    exact hnew r ha
  obtain ⟨m, head, hpush, hqueued, hsame⟩ := Queued.push (h.stored .queue) (h.placed.nodup .queue) (hnew .queue)
  refine ⟨_, by rw [step, addTask, hpush]; rfl, ?_⟩
  refine ⟨?_, ?_, ?_, ?_, h.times_add hk hfresh, h.freed⟩
  · intro r
    by_cases hr : r = .queue
    · subst hr
      show Queued m head (Function.update b.tasks .queue (b.tasks .queue ++ [k]) .queue)
      rwa [Function.update_self]
    · show Stored _ r (Function.update b.tasks .queue (b.tasks .queue ++ [k]) r)
      rw [Function.update_of_ne hr]
      refine (h.stored r).frame ?_ (fun a ha => hsame a (h.disjoint ha hr) (hne r a ha))
        (fun a ha => Function.update_of_ne (hne r a ha) _ _)
      cases r with
      | queue => exact absurd rfl hr
      | drained first => exact Iff.rfl
      | pending => rfl
      | wait w => rfl
      | running => rfl
  · refine h.placed.put hk (p := .queue) ?_ ?_
    · show (Function.update b.tasks .queue (b.tasks .queue ++ [k]) .queue).Perm _
      rw [Function.update_self]
      exact List.perm_append_singleton k _
    · intro r hr
      exact Function.update_of_ne hr _ b.tasks
  · show Function.update b.itime k b.reqId = Function.update s.itime k s.reqId
    rw [h.itime, h.reqId]
  · show (b.reqId + 1) % 2 ^ 64 = (s.reqId + 1) % 2 ^ 64
    rw [h.reqId]

theorem Rep.wait {w : ω} (h : Rep s b) (hk : k ∈ s.running) :
    ∃ s', step s (.wait w k) = some (s', none) ∧ Rep s' (boardStep b (.wait w k)).1 := by
  obtain ⟨hrunning, hnext⟩ := h.stored .running
  have hkb : k ∈ b.tasks .running := hrunning ▸ hk
  have hne : (.running : Place τ ω) ≠ .wait w := by simp
  obtain ⟨m, head, hpush, hqueued, hsame⟩ :=
    Queued.push (h.stored (.wait w)) (h.placed.nodup (.wait w)) (h.disjoint hkb hne)
  refine ⟨_, by rw [step, hpush]; rfl, ?_⟩
  refine h.move [k] hne (List.perm_cons_erase hkb) (List.perm_append_singleton k _) ?_ ?_ ?_ ?_ rfl rfl rfl rfl
  · refine ⟨congrArg (fun l => l.erase k) hrunning, fun a ha => ?_⟩
    obtain ⟨hak, ha⟩ := (h.placed.nodup .running).mem_erase_iff.mp ha
    exact (hsame a (h.disjoint ha hne) hak).1.trans (hnext a ha)
  · show Queued m (Function.update s.waits w head w) _
    rwa [Function.update_self]
  · intro r hr hrw
    cases r with
    | queue => rfl
    | pending => rfl
    | wait w' =>
      refine Function.update_of_ne ?_ _ _
      rintro rfl
      exact hrw rfl
    | drained first => exact Iff.rfl
    | running => exact absurd rfl hr
  · intro a har haw
    refine hsame a haw ?_
    rintro rfl
    exact har hkb

theorem Rep.drain {w : ω} (h : Rep s b) :
    ∃ s', step s (.drain w) = some (s', (boardStep b (.drain w)).2) ∧ Rep s' (boardStep b (.drain w)).1 := by
  have hqueued : Queued s.links (s.waits w) (b.tasks (.wait w)) := h.stored (.wait w)
  have hhead := hqueued.chain.head?
  cases hl : b.tasks (.wait w) with
  | nil =>
    rw [hl] at hhead
    have hsame : Function.update s.waits w none = s.waits := by
      rw [← show s.waits w = none from hhead, Function.update_eq_self]
    refine ⟨s, ?_, ?_⟩
    · simp only [step, boardStep, hl, hhead, List.head?_nil, hsame, Option.toList_none, List.nil_append]
    · simp only [boardStep, hl]
      exact h
  | cons k l =>
    rw [hl] at hhead hqueued
    have hhead' : s.waits w = some k := hhead
    have hk : k ∈ b.tasks (.wait w) := hl ▸ List.mem_cons_self
    have hne : (.wait w : Place τ ω) ≠ .drained k := by simp
    have hnil : b.tasks (.drained k) = [] := by
      obtain ⟨hd, hchain⟩ := h.stored (.drained k)
      by_contra hnil
      have hmem := List.mem_of_head? (hchain (hd.mpr hnil)).head?.symm
      exact hne (h.placed.unique hk hmem)
    refine ⟨_, by simp only [step, boardStep, hl, hhead']; rfl, ?_⟩
    simp only [boardStep, hl]
    refine h.move (k :: l) hne (by rw [hl, List.append_nil]) (by rw [hnil, List.append_nil]) ?_ ?_ ?_ ?_ rfl rfl rfl rfl
    · show Queued s.links (Function.update s.waits w none w) []
      rw [Function.update_self]
      exact ⟨rfl, by simp⟩
    · refine ⟨by simp, fun _ => ?_⟩
      rw [← hhead']
      exact hqueued.chain
    · intro r hr hrk
      cases r with
      | queue => rfl
      | pending => rfl
      | wait w' =>
        refine Function.update_of_ne ?_ _ _
        rintro rfl
        exact hr rfl
      | drained first =>
        have hfirst : first ≠ k := by
          rintro rfl
          exact hrk rfl
        show first ∈ k :: s.drained ↔ first ∈ s.drained
        simp [hfirst]
      | running => rfl
    · intro a _ _
      exact ⟨rfl, rfl⟩

theorem Rep.finish (h : Rep s b) (hk : k ∈ s.running) :
    ∃ s', step s (.finish k) = some (s', none) ∧ Rep s' (boardStep b (.finish k)).1 := by
  obtain ⟨hrunning, hnext⟩ := h.stored .running
  have hkb : k ∈ b.tasks .running := hrunning ▸ hk
  refine ⟨_, rfl, ?_, ?_, h.itime, h.reqId, ?_, h.freed⟩
  · intro r
    by_cases hr : r = .running
    · subst hr
      show Stored _ .running (Function.update b.tasks .running ((b.tasks .running).erase k) .running)
      rw [Function.update_self]
      exact ⟨congrArg (fun l => l.erase k) hrunning, fun a ha => hnext a (List.mem_of_mem_erase ha)⟩
    · show Stored _ r (Function.update b.tasks .running ((b.tasks .running).erase k) r)
      rw [Function.update_of_ne hr]
      refine (h.stored r).frame ?_ (fun a _ => ⟨rfl, rfl⟩) (fun a _ => rfl)
      cases r with
      | queue => rfl
      | drained first => exact Iff.rfl
      | pending => rfl
      | wait w => rfl
      | running => exact absurd rfl hr
  · refine h.placed.take hkb ?_ (fun r hr => Function.update_of_ne hr _ _)
    show Function.update b.tasks .running ((b.tasks .running).erase k) .running = _
    rw [Function.update_self]
  · intro i hi j hj heq
    exact h.times i (List.mem_of_mem_erase hi) j (List.mem_of_mem_erase hj) heq

theorem Rep.fetch_pending {res : Option τ} (h : Rep s b) (hl : b.tasks .pending = k :: l)
    (hs : step s .fetch = some (s', res)) :
    res = some k ∧ Rep s' (b.move .pending l .running (k :: b.tasks .running)) := by
  obtain ⟨htended, hlist⟩ := h.stored .pending
  obtain ⟨hrunning, hnext⟩ := h.stored .running
  have hne : (.pending : Place τ ω) ≠ .running := by simp
  rw [step, fetchTask, Option.map_eq_some_iff] at hs
  obtain ⟨⟨s₁, found⟩, hpop, hs⟩ := hs
  obtain ⟨heq, htended', rfl, htail, hclear, hsame⟩ := htended.pop hpop
  obtain ⟨t, m, rfl⟩ : ∃ t m, s₁ = { s with pending := t, links := m } := ⟨_, _, heq⟩
  rw [hlist] at hs htail hclear hsame
  rw [hl] at hs htail hclear
  obtain ⟨rfl, rfl⟩ := Prod.mk.inj hs
  refine ⟨rfl, h.move [k] hne (by rw [hl]; rfl) (List.Perm.refl _) ?_ ?_ ?_ ?_ rfl rfl rfl rfl⟩
  · exact ⟨⟨htended'.balanced, htended'.sorted, htended'.holds⟩, htail⟩
  · refine ⟨congrArg (fun l => k :: l) hrunning, fun a ha => ?_⟩
    obtain rfl | ha := List.mem_cons.mp ha
    · exact hclear a rfl
    · exact (hsame a (h.disjoint ha hne.symm)).1.trans (hnext a ha)
  · intro r hr hr'
    cases r with
    | queue => rfl
    | pending => exact absurd rfl hr
    | wait w => rfl
    | drained first => exact Iff.rfl
    | running => exact absurd rfl hr'
  · intro a ha _
    exact hsame a ha

theorem Rep.fetch_queue (h : Rep s b) (hl : b.tasks .queue = k :: l) (hpop : treePop s = some (s, none)) :
    ∃ s', step s .fetch = some (s', some k) ∧ Rep s' (b.move .queue l .running (k :: b.tasks .running)) := by
  obtain ⟨hrunning, hnext⟩ := h.stored .running
  have hqueued : Queued s.links s.queue (k :: l) := hl ▸ h.stored .queue
  have hne : (.queue : Place τ ω) ≠ .running := by simp
  obtain ⟨m, head, hqpop, hqueued', hk, hsame⟩ := hqueued.pop (hl ▸ h.placed.nodup .queue)
  rw [← hl] at hsame
  refine ⟨{ s with links := m, queue := head, running := k :: s.running }, ?_, ?_⟩
  · rw [step, fetchTask, hpop, Option.map_some]
    simp only [hqpop]
    rfl
  refine h.move [k] hne (by rw [hl]; rfl) (List.Perm.refl _) hqueued' ?_ ?_ ?_ rfl rfl rfl rfl
  · refine ⟨congrArg (fun l => k :: l) hrunning, fun a ha => ?_⟩
    obtain rfl | ha := List.mem_cons.mp ha
    · exact hk
    · exact (hsame a (h.disjoint ha hne.symm)).1.trans (hnext a ha)
  · intro r hr hr'
    cases r with
    | queue => exact absurd rfl hr
    | pending => rfl
    | wait w => rfl
    | drained first => exact Iff.rfl
    | running => exact absurd rfl hr'
  · intro a ha _
    exact hsame a ha

omit [DecidableEq ω] in
theorem treePop_of_empty (hnil : s.pending.toList = []) : treePop s = some (s, none) := by
  rw [treePop]
  cases ht : s.pending with
  | nil => rfl
  | node l k b r => simp [ht, Tree.toList] at hnil

/-- A thread fetches the first pending task, and the first one of the queue when there is none. -/
theorem Rep.fetch {res : Option τ} (h : Rep s b) (hs : step s .fetch = some (s', res)) :
    res = (boardStep b .fetch).2 ∧ Rep s' (boardStep b .fetch).1 := by
  cases hl : b.tasks .pending with
  | cons k l =>
    obtain ⟨rfl, hrep⟩ := h.fetch_pending hl hs
    simp only [boardStep, hl]
    exact ⟨trivial, hrep⟩
  | nil =>
    have hpop := treePop_of_empty ((h.stored .pending).2.trans hl)
    cases hq : b.tasks .queue with
    | cons k l =>
      obtain ⟨s₁, h₁, hrep⟩ := h.fetch_queue hq hpop
      obtain ⟨rfl, rfl⟩ := Prod.mk.inj (Option.some.inj (h₁.symm.trans hs))
      simp only [boardStep, hl, hq]
      exact ⟨trivial, hrep⟩
    | nil =>
      have hqueued : Queued s.links s.queue (b.tasks .queue) := h.stored .queue
      rw [hq] at hqueued
      have hnone : s.queue = none := hqueued.chain
      rw [step, fetchTask, hpop, Option.map_some] at hs
      simp only [hnone, queuePop, Option.toList_none, List.nil_append] at hs
      obtain ⟨rfl, rfl⟩ := Prod.mk.inj (Option.some.inj hs)
      simp only [boardStep, hl, hq]
      refine ⟨trivial, ?_⟩
      rw [← hnone]
      exact h

theorem Rep.fetch_isSome (h : Rep s b) (hlen : s.live.length < minSize 32) : (step s .fetch).isSome := by
  obtain ⟨htended, hlist⟩ := h.stored .pending
  have hle : s.pending.toList.length ≤ s.live.length := by
    rw [hlist]
    exact (h.placed.nodup .pending).length_le_of_subset (fun a ha => h.live_of_mem ha)
  rw [step, fetchTask, Option.isSome_map]
  exact htended.pop_isSome (by omega)

/-! ### Tasks that are continued -/

omit [DecidableEq τ] [DecidableEq ω] in
theorem Rep.ready {first : Option τ} {rest : List τ} (h : Rep s b) (hp : p ≠ .pending) (hperm : b.tasks p ~ l ++ rest)
    (hchain : Chain s.links.child0 first l) : Ready s first l := by
  obtain ⟨-, hlist⟩ := h.stored .pending
  have hmem (a : τ) (ha : a ∈ l) : a ∈ b.tasks p := hperm.mem_iff.mpr (List.mem_append_left rest ha)
  refine ⟨hchain, (List.nodup_append.mp (hperm.nodup_iff.mp (h.placed.nodup p))).1, ?_, ?_⟩
  · intro a ha
    rw [hlist]
    exact h.disjoint (hmem a ha) hp
  · intro a ha c hc heq
    refine h.times a (h.live_of_mem (hmem a ha)) c ?_ heq
    obtain hc | hc := hc
    · exact h.live_of_mem (hmem c hc)
    · exact h.live_of_mem (hlist ▸ hc)

/-- A list in the hands of a thread goes to the tree. -/
theorem Rep.deliver {n : Nat} {rest : List τ} {s₁ : State τ ω} (h : Rep s b) (hp : p ≠ .pending)
    (hperm : b.tasks p ~ l ++ rest) (hchain : Chain s.links.child0 (some k) l)
    (hpush : treePush n s (some k) = some s₁)
    (hrest : (∀ a ∈ rest, Same s.links s₁.links a) → Stored (s₁.giveAway (some k)) p rest)
    (hplace : ∀ r, r ≠ p → r ≠ .pending → SamePlace s (s₁.giveAway (some k)) r) :
    Rep (s₁.giveAway (some k)) (b.deliver p l rest) := by
  obtain ⟨htended, hlist⟩ := h.stored .pending
  obtain ⟨heq, htended', hlist', hsame⟩ := htended.push (h.ready hp hperm hchain) hpush
  obtain ⟨t, m, rfl⟩ : ∃ t m, s₁ = { s with pending := t, links := m } := ⟨_, _, heq⟩
  rw [hlist] at hlist' hsame
  have hmem (a : τ) : a ∈ b.tasks p ↔ a ∈ l ∨ a ∈ rest := by rw [hperm.mem_iff, List.mem_append]
  have hnodup := List.nodup_append.mp (hperm.nodup_iff.mp (h.placed.nodup p))
  refine h.move l hp hperm (perm_insertTasks _ _) ?_ ?_ hplace ?_ rfl rfl rfl rfl
  · refine hrest (fun a ha => hsame a ?_ (h.disjoint ((hmem a).mpr (Or.inr ha)) hp))
    intro hal
    exact hnodup.2.2 a hal a ha rfl
  · rw [h.itime]
    exact ⟨⟨htended'.balanced, htended'.sorted, htended'.holds⟩, hlist'⟩
  · intro a ha hpending
    exact hsame a (fun hal => ha ((hmem a).mpr (Or.inl hal))) hpending

omit [DecidableEq τ] [DecidableEq ω] in
/-- A thread has the task, alone or at the head of a list. -/
theorem Rep.not_both (h : Rep s b) (hk : k ∈ s.running) : k ∉ s.drained := by
  intro hd
  obtain ⟨-, hchain⟩ := h.stored (.drained k)
  have hmem := List.mem_of_head? (hchain hd).head?.symm
  have hrunning : k ∈ b.tasks .running := (h.stored .running).1 ▸ hk
  exact absurd (h.placed.unique hmem hrunning) (by simp)

theorem Rep.hand_running {s₁ : State τ ω} {n : Nat} (h : Rep s b) (hk : k ∈ s.running)
    (hpush : treePush n s (some k) = some s₁) : Rep (s₁.giveAway (some k)) (b.handOver (some k)) := by
  obtain ⟨hrunning, hnext⟩ := h.stored .running
  have hkb : k ∈ b.tasks .running := hrunning ▸ hk
  have hchain : Chain s.links.child0 (some k) [k] := ⟨rfl, hnext k hkb⟩
  have hne : (.running : Place τ ω) ≠ .pending := by simp
  have hperm : b.tasks .running ~ [k] ++ (b.tasks .running).erase k := List.perm_cons_erase hkb
  obtain ⟨t, m, rfl⟩ : ∃ t m, s₁ = { s with pending := t, links := m } :=
    ⟨_, _, ((h.stored .pending).1.push (h.ready hne hperm hchain) hpush).1⟩
  rw [Board.handOver, if_pos hkb]
  refine h.deliver hne hperm hchain hpush ?_ ?_
  · intro hsame
    refine ⟨congrArg (fun l => l.erase k) hrunning, fun a ha => ?_⟩
    exact (hsame a ha).1.trans (hnext a (List.mem_of_mem_erase ha))
  · intro r hr hr'
    cases r with
    | queue => rfl
    | pending => exact absurd rfl hr'
    | wait w => rfl
    | drained first =>
      show first ∈ s.drained.filter (fun a => a ≠ k) ↔ first ∈ s.drained
      have hfirst (hd : first ∈ s.drained) : first ≠ k := by
        rintro rfl
        exact h.not_both hk hd
      rw [List.mem_filter, decide_eq_true_iff]
      exact ⟨fun hd => hd.1, fun hd => ⟨hd, hfirst hd⟩⟩
    | running => exact absurd rfl hr

theorem Rep.hand_drained {s₁ : State τ ω} {n : Nat} (h : Rep s b) (hk : k ∈ s.drained)
    (hpush : treePush n s (some k) = some s₁) : Rep (s₁.giveAway (some k)) (b.handOver (some k)) := by
  obtain ⟨hrunning, -⟩ := h.stored .running
  obtain ⟨-, hlinked⟩ := h.stored (.drained k)
  have hchain := hlinked hk
  have hkb : k ∉ b.tasks .running := fun hr => h.not_both (hrunning ▸ hr) hk
  have hne : (.drained k : Place τ ω) ≠ .pending := by simp
  have hperm : b.tasks (.drained k) ~ b.tasks (.drained k) ++ [] := by rw [List.append_nil]
  obtain ⟨t, m, rfl⟩ : ∃ t m, s₁ = { s with pending := t, links := m } :=
    ⟨_, _, ((h.stored .pending).1.push (h.ready hne hperm hchain) hpush).1⟩
  rw [Board.handOver, if_neg hkb]
  refine h.deliver hne hperm hchain hpush ?_ ?_
  · intro _
    have hgone : k ∉ s.drained.filter (fun a => a ≠ k) := by simp
    exact ⟨iff_of_false hgone (by simp), fun hd => absurd hd hgone⟩
  · intro r hr hr'
    cases r with
    | queue => rfl
    | pending => exact absurd rfl hr'
    | wait w => rfl
    | drained first =>
      show first ∈ s.drained.filter (fun a => a ≠ k) ↔ first ∈ s.drained
      have hfirst : first ≠ k := by
        rintro rfl
        exact hr rfl
      rw [List.mem_filter, decide_eq_true_iff, and_iff_left hfirst]
    | running => exact List.erase_of_not_mem (hrunning ▸ hkb)

/-- One argument of the call. -/
theorem Rep.pushList (h : Rep s b) {first : Option τ} (hheld : ∀ k, first = some k → k ∈ s.running ∨ k ∈ s.drained)
    (hs : Dispatcher.pushList s first = some s') : Rep s' (b.handOver first) := by
  rw [Dispatcher.pushList, Option.map_eq_some_iff] at hs
  obtain ⟨s₁, hpush, rfl⟩ := hs
  cases first with
  | none =>
    rw [treePush] at hpush
    obtain rfl := Option.some.inj hpush
    exact h
  | some k =>
    obtain hk | hk := hheld k rfl
    · exact h.hand_running hk hpush
    · exact h.hand_drained hk hpush

end RaleighSL.Zcl.Dispatcher
