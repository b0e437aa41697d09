import RaleighSL.Library.Run
import RaleighSL.Zcl.SkipList.Runs

/-!
# Clearing the skip list

A clear of the skip list frees the nodes and sets the number of levels. The links of the head stay,
so that the next search comes to a node that was freed.
-/
namespace RaleighSL.Zcl.SkipList

open Library

variable {δ κ : Type*}

/-- The loop of `z_skip_list_clear`. -/
def freeFrom : Nat → State δ → Option Nat → Option (State δ)
  | _, s, none => some s
  | 0, _, some _ => none
  | fuel + 1, s, some n => (s.link 0 (.node n)).bind (fun next => (s.freeNode n).bind (fun s => freeFrom fuel s next))

theorem freeFrom_none (fuel : Nat) (s : State δ) : freeFrom fuel s none = some s := by
  cases fuel <;> rfl

def clear (s : State δ) : Option (State δ × Unit) :=
  (s.link 0 .head).bind (fun next => (freeFrom s.count s next).map (fun s => ({ s with levels := 1 }, ())))

/-- The first node of the list was freed. -/
structure Dangling (s : State δ) : Prop where
  levels : s.levels = 1
  freed : ∃ n < s.count, s.link 0 .head = some (some n) ∧ s.nodes n = none

variable {s s' : State δ} {l : List (Entry δ)}

theorem freeNode_spec {n : Nat} {node : Node δ} (hnode : s.nodes n = some node) :
    ∃ s', s.freeNode n = some s' ∧ s'.head = s.head ∧ s'.count = s.count ∧ s'.frees = s.frees ∧
      s'.nodes = Function.update s.nodes n none := by
  rw [State.freeNode, hnode, Option.map_some]
  exact ⟨_, rfl, rfl, rfl, rfl, rfl⟩

/-- The loop frees the nodes of a chain. -/
theorem freeFrom_chain {ids : List Nat} {next : Option Nat} {fuel : Nat} (hhead : next = ids.head?)
    (hlinked : ∀ n l, n :: l <:+ ids → ∃ node, s.nodes n = some node ∧ node.next[0]? = some l.head?) (hnodup : ids.Nodup)
    (hlen : ids.length ≤ fuel) : ∃ s', freeFrom fuel s next = some s' ∧ s'.head = s.head ∧ s'.count = s.count ∧
      s'.frees = s.frees ∧ ∀ n, s'.nodes n = if n ∈ ids then none else s.nodes n := by
  induction ids generalizing s next fuel with
  | nil =>
    subst hhead
    exact ⟨s, freeFrom_none fuel s, rfl, rfl, rfl, fun n => by simp⟩
  | cons m l ih =>
    obtain ⟨fuel, rfl⟩ := Nat.exists_eq_succ_of_ne_zero (Nat.ne_of_gt (Nat.lt_of_lt_of_le (Nat.succ_pos _) hlen))
    obtain ⟨node, hnode, hnext⟩ := hlinked m l (List.suffix_refl _)
    obtain ⟨hm, hnodup⟩ := List.nodup_cons.mp hnodup
    obtain ⟨t, ht, hhead', hcount, hfrees, hnodes⟩ := freeNode_spec hnode
    have hrest (n : Nat) (l' : List Nat) (hl' : n :: l' <:+ l) :
        ∃ node, t.nodes n = some node ∧ node.next[0]? = some l'.head? := by
      have hn : n ≠ m := by
        rintro rfl
        exact hm (hl'.subset List.mem_cons_self)
      rw [hnodes, Function.update_of_ne hn]
      exact hlinked n l' (hl'.trans (List.suffix_cons m l))
    obtain ⟨s', hs', hhead'', hcount', hfrees', hnodes'⟩ := ih rfl hrest hnodup (Nat.le_of_succ_le_succ hlen)
    have hlink : s.link 0 (.node m) = some l.head? := by rw [State.link, hnode, Option.bind_some, hnext]
    refine ⟨s', ?_, hhead''.trans hhead', hcount'.trans hcount, hfrees'.trans hfrees, ?_⟩
    · rw [hhead, List.head?_cons, freeFrom, hlink, Option.bind_some, ht, Option.bind_some, hs']
    · intro n
      rw [hnodes', hnodes]
      by_cases hn : n = m
      · subst hn
        simp
      · rw [Function.update_of_ne hn]
        simp [hn]

variable [LinearOrder κ] {key : δ → κ} {m : Spec δ κ}

/-- After clearing a list that is not empty, its first node was freed. -/
theorem Inv.clear (h : Inv key s l) (hne : l ≠ []) :
    ∃ s', clear s = some (s', ()) ∧ Dangling s' ∧ s'.link 0 .head = s.link 0 .head := by
  have hall : onLevel 0 l = l := Holds.onLevel_zero (a := []) h.toHolds
  have hlinks := h.links 0 (by decide)
  have hnodup : (l.map Entry.id).Nodup := h.nodup
  rw [hall] at hlinks
  have hchain (n : Nat) (ids : List Nat) (hids : n :: ids <:+ l.map Entry.id) :
      ∃ node, s.nodes n = some node ∧ node.next[0]? = some ids.head? := by
    obtain ⟨c, hc⟩ := hids
    rw [← hc] at hlinks
    exact Option.bind_eq_some_iff.mp hlinks.suffix.2.link_eq
  obtain ⟨t, ht, hhead, hcount, -, hnodes⟩ := freeFrom_chain rfl hchain hnodup
    (show (l.map Entry.id).length ≤ s.count by rw [List.length_map]; exact h.length_le)
  have hsame : t.head[0]? = s.link 0 .head := by
    rw [hhead]
    rfl
  refine ⟨{ t with levels := 1 }, ?_, ⟨rfl, ?_⟩, hsame⟩
  · rw [SkipList.clear, hlinks.link_eq, Option.bind_some, ht, Option.map_some]
  · obtain ⟨e, l, rfl⟩ := List.exists_cons_of_ne_nil hne
    obtain ⟨next, hnode, -⟩ := h.stored e List.mem_cons_self
    refine ⟨e.id, ?_, ?_, ?_⟩
    · show e.id < t.count
      rw [hcount]
      exact h.fresh e List.mem_cons_self
    · exact hsame.trans hlinks.link_eq
    · show t.nodes e.id = none
      rw [hnodes, if_pos (by simp)]

theorem Dangling.link (h : Dangling s) : ∃ n, s.link 0 .head = some (some n) ∧ s.nodes n = none := by
  obtain ⟨-, n, -, hlink, hnode⟩ := h
  exact ⟨n, hlink, hnode⟩

/-- A search comes to the node that was freed. -/
theorem Dangling.walk (h : Dangling s) (goes : δ → Bool) (fuel : Nat) : s.walk goes 0 fuel .head = none := by
  obtain ⟨n, hlink, hnode⟩ := h.link
  cases fuel with
  | zero => rfl
  | succ fuel =>
    rw [State.walk, hlink, Option.bind_some]
    show (s.nodes n).bind _ = none
    rw [hnode]
    rfl

theorem Dangling.findPath (h : Dangling s) (k : κ) : s.findPath key k = none := by
  rw [State.findPath, h.levels, State.findPathFrom, h.walk]
  rfl

theorem Dangling.lookup (h : Dangling s) (eq less : Bool) (k : κ) : s.lookup key eq less k = none := by
  rw [State.lookup, h.levels, State.lookupFrom, h.walk]
  rfl

theorem Dangling.allocNode (h : Dangling s) (level : Nat) (d : δ) : Dangling (s.allocNode level d) := by
  obtain ⟨hlevels, n, hn, hlink, hnode⟩ := h
  refine ⟨hlevels, n, Nat.lt_succ_of_lt hn, hlink, ?_⟩
  exact (Function.update_of_ne (Nat.ne_of_lt hn) ..).trans hnode

/-- No call has a result after the first node was freed. -/
theorem Dangling.step (h : Dangling s) (op : Op δ κ) : step key s op = none := by
  cases op with
  | put d level =>
    have hnode : (s.allocNode level d).nodes s.count = some ⟨d, List.replicate level none⟩ := Function.update_self ..
    rw [SkipList.step, put, State.attach, hnode, Option.bind_some, (h.allocNode level d).findPath]
    rfl
  | remove k =>
    rw [SkipList.step, remove, h.findPath]
    rfl
  | get k =>
    rw [SkipList.step, get, h.lookup]
    rfl

theorem Dangling.clear (h : Dangling s) : clear s = none := by
  obtain ⟨-, n, hn, hlink, hnode⟩ := h
  obtain ⟨count, hcount⟩ := Nat.exists_eq_succ_of_ne_zero (Nat.ne_of_gt (Nat.lt_of_le_of_lt (Nat.zero_le n) hn))
  have hfreed : s.link 0 (.node n) = none := by rw [State.link, hnode, Option.bind_none]
  rw [SkipList.clear, hlink, Option.bind_some, hcount, freeFrom, hfreed]
  rfl

theorem Models.nil_iff (h : Models key s l m) : l = [] ↔ m.element = fun _ => none := by
  constructor
  · rintro rfl
    funext k
    exact h.element_none (by simp)
  · intro hnone
    rw [List.eq_nil_iff_forall_not_mem]
    intro e he
    have hsome := (h.elements (key e.data) e.data).mpr ⟨rfl, e, he, rfl⟩
    rw [hnone] at hsome
    simp at hsome

/-- A clear of an empty list sets the number of levels. -/
theorem Models.clear_nil (h : Models key s [] m) :
    clear s = some ({ s with levels := 1 }, ()) ∧ Models key { s with levels := 1 } [] m := by
  have hlink := h.links 0 (by decide)
  refine ⟨?_, ⟨⟨⟨h.head, h.stored, h.nodup, h.fresh, h.heights, h.links⟩, h.sorted, Nat.le_refl 1,
    (by decide : 1 ≤ maxHeight), by simp, Or.inl rfl, h.size⟩, h.elements, h.gone⟩⟩
  rw [SkipList.clear, hlink.link_eq, Option.bind_some]
  show (freeFrom s.count s none).map _ = _
  rw [freeFrom_none, Option.map_some]

/-- The list is in order, or its first node was freed. -/
def Reached (key : δ → κ) (s : State δ) : Prop := (∃ l m, Models key s l m) ∨ Dangling s

theorem Reached.callStep (h : Reached key s) {c : Call (Op δ κ)} {e : Result δ ⊕ Unit}
    (hs : callStep (step key) clear s c = some (s', e)) : Reached key s' := by
  rcases h with ⟨l, m, h⟩ | h
  · cases c with
    | op op =>
      obtain ⟨r, hr, hs⟩ := Option.map_eq_some_iff.mp hs
      obtain ⟨t, ht, -, l', hmodels⟩ := h.step op
      obtain rfl := Option.some.inj (ht.symm.trans hr)
      obtain ⟨rfl, -⟩ := Prod.mk.inj hs
      exact Or.inl ⟨l', _, hmodels⟩
    | clear =>
      obtain ⟨r, hr, hs⟩ := Option.map_eq_some_iff.mp hs
      obtain ⟨rfl, -⟩ := Prod.mk.inj hs
      by_cases hl : l = []
      · subst hl
        obtain ⟨ht, hmodels⟩ := h.clear_nil
        obtain rfl := Option.some.inj (ht.symm.trans hr)
        exact Or.inl ⟨[], m, hmodels⟩
      · obtain ⟨t, ht, hdangling, -⟩ := h.toInv.clear hl
        obtain rfl := Option.some.inj (ht.symm.trans hr)
        exact Or.inr hdangling
  · cases c with
    | op op =>
      rw [Library.callStep, h.step] at hs
      simp at hs
    | clear =>
      rw [Library.callStep, h.clear] at hs
      simp at hs

theorem callStep_same {t : State δ} (key : δ → κ)
    (h : (∃ l l' m m', Models key s l m ∧ Models key t l' m' ∧ m.element = m'.element) ∨ Dangling s ∧ Dangling t)
    (calls : List (Call (Op δ κ))) :
    (exec (callStep (step key) clear) s calls).map Prod.snd = (exec (callStep (step key) clear) t calls).map Prod.snd := by
  apply exec_bisimilar (R := fun s t => (∃ l l' m m', Models key s l m ∧ Models key t l' m' ∧ m.element = m'.element) ∨
    Dangling s ∧ Dangling t) ?_ h
  rintro s t c (⟨l, l', m, m', hs, ht, heq⟩ | ⟨hs, ht⟩)
  · right
    cases c with
    | op op =>
      obtain ⟨s₁, hs₁, -, l₁, hmodels⟩ := hs.step op
      obtain ⟨t₁, ht₁, -, l₁', hmodels'⟩ := ht.step op
      have hsame : (specStep key m op).2 = (specStep key m' op).2 ∧
          (specStep key m op).1.element = (specStep key m' op).1.element := by
        cases op <;> simp [specStep, heq]
      refine ⟨s₁, t₁, .inl (specStep key m op).2, ?_, ?_, Or.inl ⟨l₁, l₁', _, _, hmodels, hmodels', hsame.2⟩⟩
      · rw [Library.callStep, hs₁]
        rfl
      · rw [Library.callStep, ht₁, hsame.1]
        rfl
    | clear =>
      have hnil : l = [] ↔ l' = [] := by
        rw [hs.nil_iff, ht.nil_iff, heq]
      by_cases hl : l = []
      · obtain rfl := hnil.mp hl
        subst hl
        obtain ⟨hs₁, hmodels⟩ := hs.clear_nil
        obtain ⟨ht₁, hmodels'⟩ := ht.clear_nil
        refine ⟨_, _, .inr (), ?_, ?_, Or.inl ⟨[], [], m, m', hmodels, hmodels', heq⟩⟩
        · rw [Library.callStep, hs₁]
          rfl
        · rw [Library.callStep, ht₁]
          rfl
      · obtain ⟨s₁, hs₁, hdangling, -⟩ := hs.toInv.clear hl
        obtain ⟨t₁, ht₁, hdangling', -⟩ := ht.toInv.clear (fun hl' => hl (hnil.mpr hl'))
        refine ⟨s₁, t₁, .inr (), ?_, ?_, Or.inr ⟨hdangling, hdangling'⟩⟩
        · rw [Library.callStep, hs₁]
          rfl
        · rw [Library.callStep, ht₁]
          rfl
  · left
    cases c with
    | op op => simp [Library.callStep, hs.step, ht.step]
    | clear => simp [Library.callStep, hs.clear, ht.clear]

theorem reached_exec {frees : Bool} {calls : List (Call (Op δ κ))} {outs : List (Result δ ⊕ Unit)}
    (hs : exec (callStep (step key) clear) (alloc frees) calls = some (s, outs)) : Reached key s := by
  apply exec_invariant (C := fun _ _ => True) (fun s c s' e h _ he => h.callStep he) ?_
    (meets_of_forall (fun _ _ => trivial) _ _) hs
  exact Or.inl ⟨[], _, models_alloc frees⟩

/-- A list that can be reached is as new after a clear exactly when it was empty. -/
theorem Reached.asNew_iff (h : Reached key s) :
    AsNew (step key) clear (fun s => some (alloc s.frees)) s ↔ s.link 0 .head = some none := by
  rcases h with ⟨l, m, h⟩ | h
  · by_cases hl : l = []
    · subst hl
      obtain ⟨hs, hmodels⟩ := h.clear_nil
      refine iff_of_true ⟨_, (), _, hs, rfl, ?_⟩ (h.links 0 (by decide)).link_eq
      apply callStep_same
      refine Or.inl ⟨[], [], m, Spec.empty, hmodels, models_alloc s.frees, ?_⟩
      exact h.nil_iff.mp rfl
    · obtain ⟨s', hs', hdangling, hsame⟩ := h.toInv.clear hl
      obtain ⟨e, l, rfl⟩ := List.exists_cons_of_ne_nil hl
      have hget : step key (alloc s'.frees) (.get (key e.data)) = some (alloc s'.frees, .data none) := by
        rw [SkipList.step, (models_alloc s'.frees).get]
        rfl
      refine iff_of_false (not_asNew_of_none hs' rfl (hdangling.step (.get (key e.data))) hget) ?_
      intro hnone
      obtain ⟨n, hlink, -⟩ := hdangling.link
      rw [hsame, hnone] at hlink
      simp at hlink
  · refine iff_of_false ?_ ?_
    · rintro ⟨s', o, f, hs', -⟩
      rw [h.clear] at hs'
      simp at hs'
    · intro hnone
      obtain ⟨n, hlink, -⟩ := h.link
      rw [hnone] at hlink
      simp at hlink

end RaleighSL.Zcl.SkipList
