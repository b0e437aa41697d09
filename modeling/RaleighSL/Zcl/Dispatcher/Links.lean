import RaleighSL.Library.Chain
import RaleighSL.Zcl.Avl.Contents
import RaleighSL.Zcl.Dispatcher.Model
import Mathlib.Data.List.Sort

/-!
# Queues and trees in the child pointers

What a function of a queue or of the tree does to the child pointers of the tasks it is
about, and that it leaves those of all other tasks alone.
-/
namespace RaleighSL.Zcl.Dispatcher

open Library Avl

variable {τ ω : Type*} {m m' : Links τ} {head head' : Option τ} {l : List τ} {k : τ} {t t' : Avl.Tree τ}

def Same (m m' : Links τ) (a : τ) : Prop := m'.child0 a = m.child0 a ∧ m'.child1 a = m.child1 a

theorem Same.trans {m'' : Links τ} {a : τ} (h : Same m m' a) (h' : Same m' m'' a) : Same m m'' a :=
  ⟨h'.1.trans h.1, h'.2.trans h.2⟩

/-- The tasks of a queue in order. The head knows the last one. -/
structure Queued (m : Links τ) (head : Option τ) (l : List τ) : Prop where
  chain : Chain m.child0 head l
  tail : ∀ a, head = some a → m.child1 a = l.getLast?

theorem Queued.congr (h : Queued m head l) (hsame : ∀ a ∈ l, Same m m' a) : Queued m' head l where
  chain := h.chain.congr (fun a ha => (hsame a ha).1)
  tail a ha := by
    have hmem : a ∈ l := List.mem_of_head? (h.chain.head?.symm.trans ha)
    rw [(hsame a hmem).2, h.tail a ha]

theorem Holds.congr (h : Holds m t) (hsame : ∀ a ∈ t.toList, Same m m' a) : Holds m' t := by
  induction t with
  | nil => trivial
  | node l k b r ihl ihr =>
    simp only [Tree.toList, List.mem_append, List.mem_cons] at hsame
    obtain ⟨h0, h1, hl, hr⟩ := h
    obtain ⟨hk0, hk1⟩ := hsame k (by simp)
    exact ⟨hk0.trans h0, hk1.trans h1, ihl hl (fun a ha => hsame a (Or.inl ha)),
      ihr hr (fun a ha => hsame a (Or.inr (Or.inr ha)))⟩

/-- The tree of pending tasks is ordered by the times and kept in the child pointers. -/
structure Tended (s : State τ ω) : Prop where
  balanced : s.pending.Balanced
  sorted : s.pending.Sorted s.itime
  holds : Holds s.links s.pending

variable {s s' : State τ ω} {first : Option τ} {n : Nat}

theorem nodup_of_sorted {itime : τ → Nat} (h : t.Sorted itime) : t.toList.Nodup := by
  refine List.Pairwise.imp ?_ h
  rintro a b hlt rfl
  exact lt_irrefl _ hlt

/-- A task goes before the ones that were submitted later. -/
def insertTask (itime : τ → Nat) (l : List τ) (k : τ) : List τ := l.orderedInsert (fun a b => itime a ≤ itime b) k

theorem insertTask_between {itime : τ → Nat} {left right : List τ} (hleft : ∀ a ∈ left, itime a < itime k)
    (hright : ∀ a ∈ right, itime k < itime a) : insertTask itime (left ++ right) k = left ++ k :: right := by
  induction left with
  | nil =>
    cases right with
    | nil => rfl
    | cons b right => exact List.orderedInsert_cons_of_le _ _ (hright b List.mem_cons_self).le
  | cons b left ih =>
    have hb : ¬ itime k ≤ itime b := not_le.mpr (hleft b List.mem_cons_self)
    have hrest := ih (fun a ha => hleft a (List.mem_cons_of_mem b ha))
    rw [insertTask] at hrest
    rw [List.cons_append, insertTask, List.orderedInsert_cons, if_neg hb, hrest]
    rfl

theorem perm_insertTask (itime : τ → Nat) (l : List τ) (k : τ) : (insertTask itime l k).Perm (k :: l) :=
  List.perm_orderedInsert _ _ _

theorem perm_insertTasks (itime : τ → Nat) (pending : List τ) : (l.foldl (insertTask itime) pending).Perm (l ++ pending) := by
  induction l generalizing pending with
  | nil => rfl
  | cons k l ih =>
    refine (ih _).trans (((perm_insertTask itime pending k).append_left l).trans ?_)
    exact List.perm_middle

variable [DecidableEq τ]

theorem Links.set_same {a : τ} (hne : a ≠ k) (c0 c1 : Option τ) : Same m (m.set k c0 c1) a :=
  ⟨Function.update_of_ne hne _ _, Function.update_of_ne hne _ _⟩

/-! ### Queues -/

theorem Queued.push (h : Queued m head l) (hl : l.Nodup) (hk : k ∉ l) :
    ∃ m' head', queuePush m head k = some (m', head') ∧ Queued m' head' (l ++ [k]) ∧
      ∀ a, a ∉ l → a ≠ k → Same m m' a := by
  cases l with
  | nil =>
    obtain rfl : head = none := h.chain
    refine ⟨m.set k none (some k), some k, rfl, ⟨⟨rfl, Function.update_self ..⟩, ?_⟩, ?_⟩
    · rintro a ha
      obtain rfl := Option.some.inj ha
      exact Function.update_self ..
    · intro a _ hne
      exact Links.set_same hne _ _
  | cons b l =>
    obtain rfl : head = some b := h.chain.head?
    obtain ⟨tail, htail⟩ : ∃ tail, (b :: l).getLast? = some tail := ⟨_, List.getLast?_eq_some_getLast (List.cons_ne_nil b l)⟩
    have hmem : tail ∈ b :: l := List.mem_of_getLast? htail
    have hbk : b ≠ k := fun heq => hk (heq ▸ List.mem_cons_self)
    refine ⟨_, some b, by rw [queuePush, h.tail b rfl, htail]; rfl, ⟨?_, ?_⟩, ?_⟩
    · exact h.chain.snoc hl hk htail
    · intro a ha
      obtain rfl := Option.some.inj ha
      show Function.update (Function.update m.child1 b (some k)) k none b = (b :: l ++ [k]).getLast?
      rw [Function.update_of_ne hbk, Function.update_self, List.getLast?_concat]
    · intro a ha hne
      have hat : a ≠ tail := fun heq => ha (heq ▸ hmem)
      have hab : a ≠ b := fun heq => ha (heq ▸ List.mem_cons_self)
      refine Same.trans ?_ (Links.set_same hne _ _)
      exact ⟨Function.update_of_ne hat _ _, Function.update_of_ne hab _ _⟩

theorem Queued.pop (h : Queued m head (k :: l)) (hl : (k :: l).Nodup) :
    ∃ m' head', queuePop m head = (m', head', some k) ∧ Queued m' head' l ∧ m'.child0 k = none ∧
      ∀ a, a ∉ k :: l → Same m m' a := by
  obtain ⟨hfirst, hrest⟩ := h.chain
  obtain rfl : head = some k := hfirst
  obtain ⟨hk, hl⟩ := List.nodup_cons.mp hl
  cases l with
  | nil =>
    have hnext : m.child0 k = none := hrest
    refine ⟨m.set k none none, none, by simp only [queuePop, hnext], ⟨rfl, by simp⟩, Function.update_self .., ?_⟩
    intro a ha
    have hak : a ≠ k := fun heq => ha (heq ▸ List.mem_cons_self)
    exact Links.set_same hak _ _
  | cons b l =>
    have hnext : m.child0 k = some b := hrest.1
    have hbk : b ≠ k := fun heq => hk (heq ▸ List.mem_cons_self)
    refine ⟨Links.set ⟨m.child0, Function.update m.child1 b (m.child1 k)⟩ k none none, some b,
      by simp only [queuePop, hnext], ⟨?_, ?_⟩, Function.update_self .., ?_⟩
    · refine Chain.update ?_ hk none
      rw [← hnext]
      exact hrest
    · intro a ha
      obtain rfl := Option.some.inj ha
      show Function.update (Function.update m.child1 b (m.child1 k)) k none b = _
      rw [Function.update_of_ne hbk, Function.update_self, h.tail k rfl, List.getLast?_cons_cons]
    · intro a ha
      have hak : a ≠ k := fun heq => ha (heq ▸ List.mem_cons_self)
      have hab : a ≠ b := fun heq => ha (heq ▸ List.mem_cons_of_mem k List.mem_cons_self)
      refine Same.trans ?_ (Links.set_same hak _ _)
      exact ⟨rfl, Function.update_of_ne hab _ _⟩

/-! ### The tree -/

theorem store_same {a : τ} (ha : a ∉ t.toList) : Same m (store m t) a := by
  induction t generalizing m with
  | nil => exact ⟨rfl, rfl⟩
  | node l k b r ihl ihr =>
    simp only [Tree.toList, List.mem_append, List.mem_cons, not_or] at ha
    exact ((Links.set_same ha.2.1 _ _).trans (ihl ha.1)).trans (ihr ha.2.2)

theorem store_holds (ht : t.toList.Nodup) : Holds (store m t) t := by
  induction t generalizing m with
  | nil => trivial
  | node l k b r ihl ihr =>
    simp only [Tree.toList, List.nodup_append, List.nodup_cons, List.mem_cons, ne_eq, forall_eq_or_imp] at ht
    obtain ⟨hl, ⟨hkr, hr⟩, hdisj⟩ := ht
    have hkl : k ∉ l.toList := fun hk => (hdisj k hk).1 rfl
    obtain ⟨h0, h1⟩ : Same (m.set k (root l) (root r)) (store m (.node l k b r)) k :=
      (store_same hkl).trans (store_same hkr)
    refine ⟨h0.trans (Function.update_self ..), h1.trans (Function.update_self ..), ?_, ihr hr⟩
    refine (ihl hl).congr (fun a ha => store_same ?_)
    intro har
    exact (hdisj a ha).2 a har rfl

theorem Tended.attach (h : Tended s) (hk : ∀ a ∈ s.pending.toList, s.itime a ≠ s.itime k)
    (hs : treeAttach s k = some s') :
    s' = { s with pending := s'.pending, links := store s.links s'.pending } ∧ Tended s' ∧
      s'.pending.toList = insertTask s.itime s.pending.toList k := by
  rw [treeAttach, if_pos h.holds, Option.map_eq_some_iff] at hs
  obtain ⟨⟨t, res, freed⟩, hattach, rfl⟩ := hs
  obtain ⟨left, right, hleft, hright, hb, hlist, hcases⟩ := attach_spec h.balanced h.sorted hattach
  obtain ⟨hold, -, rfl⟩ | ⟨p, hp, hold, -⟩ := hcases
  · have hsorted : t.Sorted s.itime := by
      have hall := h.sorted
      rw [Tree.Sorted, hold, List.pairwise_append] at hall
      rw [Tree.Sorted, hlist, List.pairwise_append, List.pairwise_cons]
      refine ⟨hall.1, ⟨hright, hall.2.1⟩, ?_⟩
      rintro a ha b (_ | ⟨_, hb⟩)
      · exact hleft a ha
      · exact hall.2.2 a ha b hb
    refine ⟨?_, ⟨hb, hsorted, store_holds (nodup_of_sorted hsorted)⟩, ?_⟩
    · simp
    · show t.toList = _
      rw [hlist, hold, insertTask_between hleft hright]
  · exact absurd hp (hk p (by simp [hold]))

theorem Tended.attach_isSome (h : Tended s) (hlen : s.pending.toList.length < minSize 32) (k : τ) :
    (treeAttach s k).isSome := by
  rw [treeAttach, if_pos h.holds, Option.isSome_map]
  have hheight := height_lt_of_length h.balanced hlen
  exact Avl.attach_isSome h.balanced h.sorted (hheight.trans (by decide)) k

/-- What a list of tasks needs to be put into the tree: the tasks are linked, not in it, and have times of their own. -/
structure Ready (s : State τ ω) (first : Option τ) (l : List τ) : Prop where
  chain : Chain s.links.child0 first l
  nodup : l.Nodup
  disjoint : ∀ a ∈ l, a ∉ s.pending.toList
  times : ∀ a ∈ l, ∀ b, b ∈ l ∨ b ∈ s.pending.toList → s.itime a = s.itime b → a = b

omit [DecidableEq τ] in
theorem Ready.time_ne (h : Ready s first (k :: l)) : ∀ a ∈ s.pending.toList, s.itime a ≠ s.itime k := by
  intro a ha heq
  obtain rfl := h.times k List.mem_cons_self a (Or.inr ha) heq.symm
  exact h.disjoint k List.mem_cons_self ha

/-- The tasks behind the first one are ready when it is in the tree. -/
theorem Ready.tail (h : Ready s first (k :: l)) (heq : s' = { s with pending := s'.pending, links := store s.links s'.pending })
    (hlist : s'.pending.toList = insertTask s.itime s.pending.toList k) : Ready s' (s.links.child0 k) l := by
  obtain ⟨hk, hl⟩ := List.nodup_cons.mp h.nodup
  have hitime : s'.itime = s.itime := by rw [heq]
  have hlinks : s'.links = store s.links s'.pending := congrArg State.links heq
  have hmem (a : τ) : a ∈ s'.pending.toList ↔ a = k ∨ a ∈ s.pending.toList := by
    rw [hlist, (perm_insertTask _ _ _).mem_iff, List.mem_cons]
  have hout (a : τ) (ha : a ∈ l) : a ∉ s'.pending.toList := by
    rw [hmem]
    rintro (rfl | hp)
    · exact hk ha
    · exact h.disjoint a (List.mem_cons_of_mem k ha) hp
  refine ⟨?_, hl, hout, ?_⟩
  · apply h.chain.2.congr
    intro a ha
    rw [hlinks]
    exact (store_same (hout a ha)).1
  · intro a ha b hb heq
    rw [hitime] at heq
    refine h.times a (List.mem_cons_of_mem k ha) b ?_ heq
    obtain hb | hb := hb
    · exact Or.inl (List.mem_cons_of_mem k hb)
    · obtain rfl | hb := (hmem b).mp hb
      · exact Or.inl List.mem_cons_self
      · exact Or.inr hb

/-- The loop puts all tasks of the list into the tree. -/
theorem Tended.push (h : Tended s) (hr : Ready s first l) (hs : treePush n s first = some s') :
    s' = { s with pending := s'.pending, links := s'.links } ∧ Tended s' ∧
      s'.pending.toList = l.foldl (insertTask s.itime) s.pending.toList ∧
      ∀ a, a ∉ l → a ∉ s.pending.toList → Same s.links s'.links a := by
  induction l generalizing s first n with
  | nil =>
    obtain rfl : first = none := hr.chain
    rw [treePush] at hs
    obtain rfl := Option.some.inj hs
    exact ⟨rfl, h, rfl, fun a _ _ => ⟨rfl, rfl⟩⟩
  | cons k l ih =>
    obtain rfl : first = some k := hr.chain.1
    cases n with
    | zero => simp [treePush] at hs
    | succ n =>
      rw [treePush, Option.bind_eq_some_iff] at hs
      obtain ⟨s₁, h₁, hs⟩ := hs
      obtain ⟨heq, htended, hlist⟩ := h.attach hr.time_ne h₁
      obtain ⟨heq', htended', hlist', hsame⟩ := ih htended (hr.tail heq hlist) hs
      have hitime : s₁.itime = s.itime := by rw [heq]
      have hlinks : s₁.links = store s.links s₁.pending := congrArg State.links heq
      refine ⟨?_, htended', ?_, ?_⟩
      · rw [heq', heq]
      · rw [hlist', hitime, hlist]
        rfl
      · intro a ha hp
        rw [List.mem_cons, not_or] at ha
        have hout : a ∉ s₁.pending.toList := by
          rw [hlist, (perm_insertTask _ _ _).mem_iff, List.mem_cons, not_or]
          exact ⟨ha.1, hp⟩
        refine Same.trans ?_ (hsame a ha.2 hout)
        rw [hlinks]
        exact store_same hout

theorem Tended.push_isSome (h : Tended s) (hr : Ready s first l) (hn : l.length ≤ n)
    (hlen : s.pending.toList.length + l.length ≤ minSize 32) : (treePush n s first).isSome := by
  induction l generalizing s first n with
  | nil =>
    obtain rfl : first = none := hr.chain
    rw [treePush]
    rfl
  | cons k l ih =>
    obtain rfl : first = some k := hr.chain.1
    rw [List.length_cons] at hn hlen
    cases n with
    | zero => omega
    | succ n =>
      obtain ⟨s₁, h₁⟩ := Option.isSome_iff_exists.mp (h.attach_isSome (by omega) k)
      obtain ⟨heq, htended, hlist⟩ := h.attach hr.time_ne h₁
      rw [treePush, h₁, Option.bind_some]
      refine ih htended (hr.tail heq hlist) (by omega) ?_
      rw [hlist, (perm_insertTask _ _ _).length_eq, List.length_cons]
      omega

theorem Tended.pop (h : Tended s) {res : Option τ} (hs : treePop s = some (s', res)) :
    s' = { s with pending := s'.pending, links := s'.links } ∧ Tended s' ∧ res = s.pending.toList.head? ∧
      s'.pending.toList = s.pending.toList.tail ∧ (∀ k, res = some k → s'.links.child0 k = none) ∧
      ∀ a ∉ s.pending.toList, Same s.links s'.links a := by
  have hnodup := nodup_of_sorted h.sorted
  have hsorted := h.sorted
  cases ht : s.pending with
  | nil =>
    rw [treePop, ht] at hs
    obtain ⟨rfl, rfl⟩ := Prod.mk.inj (Option.some.inj hs)
    refine ⟨rfl, h, rfl, by rw [ht]; rfl, by simp, fun a _ => ⟨rfl, rfl⟩⟩
  | node l k b r =>
    have hholds := h.holds
    have hb := h.balanced
    rw [ht] at hnodup hsorted hholds hb
    rw [treePop, ht] at hs
    simp only [if_pos hholds] at hs
    rw [Option.map_eq_some_iff] at hs
    obtain ⟨⟨t, found⟩, hmin, hs⟩ := hs
    obtain ⟨rfl, rfl⟩ := Prod.mk.inj hs
    obtain ⟨hbal, p, right, rfl, hlist, hright⟩ := detachMin_spec hb hmin
    rw [Tree.Sorted, hlist, List.pairwise_cons] at hsorted
    rw [hlist, List.nodup_cons] at hnodup
    have hp : p ∉ t.toList := hright ▸ hnodup.1
    have hclear (a : τ) (hne : a ≠ p) : Same (store s.links t) ((store s.links t).clear (some p)) a :=
      Links.set_same hne _ _
    refine ⟨rfl, ⟨hbal, ?_, ?_⟩, ?_, ?_, ?_, ?_⟩
    · show t.Sorted s.itime
      rw [Tree.Sorted, hright]
      exact hsorted.2
    · refine Holds.congr (store_holds (hright ▸ hnodup.2)) (fun a ha => hclear a ?_)
      rintro rfl
      exact hp ha
    · rw [hlist]
      rfl
    · show t.toList = _
      rw [hlist, hright]
      rfl
    · intro a ha
      obtain rfl := Option.some.inj ha
      exact Function.update_self ..
    · intro a ha
      rw [hlist, List.mem_cons, not_or, ← hright] at ha
      exact (store_same ha.2).trans (hclear a ha.1)

theorem Tended.pop_isSome (h : Tended s) (hlen : s.pending.toList.length < minSize 32) : (treePop s).isSome := by
  have hheight := height_lt_of_length h.balanced hlen
  have hholds := h.holds
  have hb := h.balanced
  rw [treePop]
  cases ht : s.pending with
  | nil => rfl
  | node l k b r =>
    rw [ht] at hholds hb hheight
    simp only [if_pos hholds, Option.isSome_map]
    exact detachMin_isSome hb (by simp) (Nat.succ_lt_succ hheight)

end RaleighSL.Zcl.Dispatcher
