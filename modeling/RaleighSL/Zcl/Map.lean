import RaleighSL.Library.SortedMap
import Mathlib.Data.List.Lex
import Mathlib.Order.Fin.Basic
import Mathlib.Algebra.Order.Ring.Int

/-!
# Map iterators and their merge

`zcl/tools/map`: an iterator holds the entries from its current one on. A block
iterator may have a last entry that it cannot step over, because the next key
overruns its key buffer; stepping there is undefined behaviour and has no result.
The merger walks a list of iterators and returns the smallest key next, taking
the entry of the iterator that was added first and skipping the equal ones.
-/
namespace RaleighSL.Zcl
open RaleighSL.Library

abbrev Byte := Fin 256

instance Byte.neZero : NeZero 256 := ⟨by decide⟩

/-- The bytes of a slice. `z_byte_slice_compare` is their lexicographic order as long as the sizes are less than `2 ^ 31`
apart. -/
abbrev Bytes := List Byte

/-- The value of a map entry; a delete marker hides the entries below it. -/
structure MapItem where
  value : Bytes
  isDeleteMarker : Bool
  deriving DecidableEq, Repr

abbrev MapEntry := Bytes × MapItem

structure MapIterator where
  rest : List MapEntry
  fault : Bool
  deriving Repr

namespace MapIterator

def ofList (l : List MapEntry) : MapIterator := { rest := l, fault := false }

def next (it : MapIterator) : Option MapIterator :=
  if it.rest.length = 1 ∧ it.fault then none else some { it with rest := it.rest.tail }

@[simp] theorem next_ofList (l : List MapEntry) : (ofList l).next = some (ofList l.tail) := by
  simp [next, ofList]

end MapIterator

/-- The merge list in the order of addition, with the iterators named, and the one whose entry was
returned last. -/
structure MapMerger (ι : Type*) where
  iters : List (ι × MapIterator)
  smallest : Option ι

namespace MapMerger

variable {ι : Type*}

def «open» : MapMerger ι := { iters := [], smallest := none }

def add (m : MapMerger ι) (i : ι) (it : MapIterator) : MapMerger ι :=
  if it.rest = [] then m else { m with iters := m.iters ++ [(i, it)] }

def advance [DecidableEq ι] (i : ι) : List (ι × MapIterator) → Option (List (ι × MapIterator))
  | [] => some []
  | p :: l =>
    if p.1 = i then p.2.next.map (fun it => if it.rest = [] then l else (i, it) :: l)
    else (advance i l).map (p :: ·)

/-- The loop of `z_map_merger_next` with `skip_equals` set: `best` is the smallest entry so far. -/
def select : Option (ι × MapEntry) → List (ι × MapIterator) →
    Option (List (ι × MapIterator) × Option (ι × MapEntry))
  | best, [] => some ([], best)
  | best, p :: l =>
    match p.2.rest, best with
    | [], _ => none
    | e :: _, none => (select (some (p.1, e)) l).map (fun r => (p :: r.1, r.2))
    | e :: _, some b =>
      if e.1 < b.2.1 then (select (some (p.1, e)) l).map (fun r => (p :: r.1, r.2))
      else if e.1 = b.2.1 then
        p.2.next.bind (fun it => (select (some b) l).map (fun r =>
          (if it.rest = [] then r.1 else (p.1, it) :: r.1, r.2)))
      else (select (some b) l).map (fun r => (p :: r.1, r.2))

/-- The merge list after the entry returned last has been stepped over. -/
def stepped [DecidableEq ι] (m : MapMerger ι) : Option (List (ι × MapIterator)) :=
  match m.smallest with
  | none => some m.iters
  | some i => advance i m.iters

def next [DecidableEq ι] (m : MapMerger ι) : Option (MapMerger ι × Option MapEntry) :=
  if m.iters = [] then some (m, none)
  else
    m.stepped.bind (fun l => (select none l).map (fun r =>
      ({ iters := r.1, smallest := r.2.map Prod.fst }, r.2.map Prod.snd)))

/-- Up to `count` entries that are no delete markers. The first argument bounds the steps of the
merger; there are no more than the entries of its iterators. -/
def collect [DecidableEq ι] : Nat → Nat → MapMerger ι → Option (List (Bytes × Bytes))
  | 0, _, _ => some []
  | _, 0, _ => some []
  | fuel + 1, count + 1, m =>
    m.next.bind (fun r =>
      match r.2 with
      | none => some []
      | some e =>
        if e.2.isDeleteMarker then collect fuel (count + 1) r.1
        else (collect fuel count r.1).map ((e.1, e.2.value) :: ·))

def size (m : MapMerger ι) : Nat := (m.iters.map (fun p => p.2.rest.length)).sum

/-! ### What a merge of iterators without faults returns -/

/-- An iterator in the merge list: it has a current entry, its keys increase and it cannot fault. -/
structure Ready (it : MapIterator) : Prop where
  nonempty : it.rest ≠ []
  sorted : it.rest.Pairwise (fun p q => p.1 < q.1)
  fault : it.fault = false

def find (it : MapIterator) (k : Bytes) : Option MapItem :=
  (it.rest.find? (fun e => e.1 = k)).map Prod.snd

/-- The first iterator of the list that has a key decides. -/
def lookupIn : List (ι × MapIterator) → Bytes → Option MapItem
  | [], _ => none
  | p :: l, k => (find p.2 k).or (lookupIn l k)

theorem find_eq_none {it : MapIterator} {k : Bytes} : find it k = none ↔ ∀ e ∈ it.rest, e.1 ≠ k := by
  simp [find]

theorem find_cons {e : MapEntry} {r : List MapEntry} {b : Bool} (k : Bytes) :
    find { rest := e :: r, fault := b } k = if e.1 = k then some e.2 else find { rest := r, fault := b } k := by
  simp only [find, List.find?_cons]
  by_cases hk : e.1 = k <;> simp [hk]

theorem Ready.lt_of_mem {e : MapEntry} {r : List MapEntry} {b : Bool}
    (h : Ready { rest := e :: r, fault := b }) : ∀ x ∈ r, e.1 < x.1 :=
  (List.pairwise_cons.mp h.sorted).1

theorem Ready.next {e : MapEntry} {r : List MapEntry} {b : Bool} (h : Ready { rest := e :: r, fault := b }) :
    MapIterator.next { rest := e :: r, fault := b } = some { rest := r, fault := b } := by
  have hb : b = false := h.fault
  simp [MapIterator.next, hb]

theorem Ready.tail {e : MapEntry} {r : List MapEntry} {b : Bool} (h : Ready { rest := e :: r, fault := b })
    (hr : r ≠ []) : Ready { rest := r, fault := b } :=
  ⟨hr, (List.pairwise_cons.mp h.sorted).2, h.fault⟩

theorem lookupIn_eq_none {l : List (ι × MapIterator)} {k : Bytes} :
    lookupIn l k = none ↔ ∀ p ∈ l, ∀ e ∈ p.2.rest, e.1 ≠ k := by
  induction l with
  | nil => simp [lookupIn]
  | cons p l ih => rw [lookupIn, Option.or_eq_none_iff, find_eq_none, ih, List.forall_mem_cons]

theorem lookupIn_filter (l : List (ι × MapIterator)) (k : Bytes) :
    lookupIn (l.filter (fun p => p.2.rest ≠ [])) k = lookupIn l k := by
  induction l with
  | nil => rfl
  | cons p l ih =>
    by_cases hp : p.2.rest = []
    · have hf : find p.2 k = none := by simp [find, hp]
      simpa [hp, lookupIn, hf] using ih
    · rw [List.filter_cons_of_pos (by simpa using hp), lookupIn, lookupIn, ih]

/-- The outcome of the selection loop started with `best`: the list keeps its lookups, and either
`best` stays below everything left or a smaller entry was found that is below everything else. -/
structure Selected (best : Option (ι × MapEntry)) (l l' : List (ι × MapIterator))
    (best' : Option (ι × MapEntry)) : Prop where
  ready : ∀ p ∈ l', Ready p.2
  tags : (l'.map Prod.fst).Sublist (l.map Prod.fst)
  keeps : ∀ k, (∀ b, best = some b → b.2.1 ≠ k) → lookupIn l' k = lookupIn l k
  choice : (best' = best ∧ (best = none → l = []) ∧
      ∀ b, best = some b → ∀ q ∈ l', ∀ x ∈ q.2.rest, b.2.1 < x.1) ∨
    ∃ i it e r, best' = some (i, e) ∧ (i, it) ∈ l' ∧ it.rest = e :: r ∧
      (∀ b, best = some b → e.1 < b.2.1) ∧ lookupIn l e.1 = some e.2 ∧
      ∀ q ∈ l', q.1 ≠ i → ∀ x ∈ q.2.rest, e.1 < x.1

/-- The current entry of an iterator becomes the smallest one so far. -/
theorem Selected.take {best best' : Option (ι × MapEntry)} {l l' : List (ι × MapIterator)} {i : ι}
    {e : MapEntry} {r : List MapEntry} {b : Bool} (hr : Ready { rest := e :: r, fault := b })
    (hbest : ∀ b, best = some b → e.1 < b.2.1)
    (h : Selected (some (i, e)) l l' best') :
    Selected best ((i, { rest := e :: r, fault := b }) :: l) ((i, { rest := e :: r, fault := b }) :: l')
      best' where
  ready := by
    intro p hp
    rcases List.mem_cons.mp hp with rfl | hp
    · exact hr
    · exact h.ready p hp
  tags := h.tags.cons_cons _
  keeps k _ := by
    rw [lookupIn, lookupIn, find_cons]
    by_cases hk : e.1 = k
    · simp [hk]
    · rw [h.keeps k (by rintro _ ⟨⟩; exact hk)]
  choice := by
    right
    rcases h.choice with ⟨rfl, -, hlt⟩ | ⟨j, it, e', r', rfl, hm, hit, he', hl, hlt⟩
    · refine ⟨i, _, e, r, rfl, List.mem_cons_self, rfl, hbest, ?_, ?_⟩
      · simp [lookupIn, find_cons]
      · intro q hq hqi x hx
        rcases List.mem_cons.mp hq with rfl | hq
        · exact absurd rfl hqi
        · exact hlt _ rfl q hq x hx
    · have hee : e'.1 < e.1 := he' _ rfl
      have habove (x : MapEntry) (hx : x ∈ e :: r) : e'.1 < x.1 := by
        rcases List.mem_cons.mp hx with rfl | hx
        · exact hee
        · exact hee.trans (hr.lt_of_mem x hx)
      refine ⟨j, it, e', r', rfl, List.mem_cons_of_mem _ hm, hit, ?_, ?_, ?_⟩
      · intro b hb
        exact hee.trans (hbest b hb)
      · have hnone : find { rest := e :: r, fault := b } e'.1 = none :=
          find_eq_none.mpr (fun x hx => (habove x hx).ne')
        rw [lookupIn, hnone, Option.none_or, hl]
      · intro q hq hqj x hx
        rcases List.mem_cons.mp hq with rfl | hq
        · exact habove x hx
        · exact hlt q hq hqj x hx

/-- An iterator above the smallest entry so far is left alone. -/
theorem Selected.pass {best' : Option (ι × MapEntry)} {l l' : List (ι × MapIterator)} {b : ι × MapEntry}
    {p : ι × MapIterator} (hr : Ready p.2) (hp : ∀ x ∈ p.2.rest, b.2.1 < x.1)
    (h : Selected (some b) l l' best') : Selected (some b) (p :: l) (p :: l') best' where
  ready := by
    intro q hq
    rcases List.mem_cons.mp hq with rfl | hq
    · exact hr
    · exact h.ready q hq
  tags := h.tags.cons_cons _
  keeps k hk := by
    rw [lookupIn, lookupIn, h.keeps k hk]
  choice := by
    rcases h.choice with ⟨rfl, -, hlt⟩ | ⟨j, it, e', r', rfl, hm, hit, he', hl, hlt⟩
    · refine Or.inl ⟨rfl, by simp, ?_⟩
      rintro _ ⟨⟩ q hq x hx
      rcases List.mem_cons.mp hq with rfl | hq
      · exact hp x hx
      · exact hlt b rfl q hq x hx
    · have habove (x : MapEntry) (hx : x ∈ p.2.rest) : e'.1 < x.1 := (he' b rfl).trans (hp x hx)
      refine Or.inr ⟨j, it, e', r', rfl, List.mem_cons_of_mem _ hm, hit, he', ?_, ?_⟩
      · rw [lookupIn, find_eq_none.mpr (fun x hx => (habove x hx).ne'), Option.none_or, hl]
      · intro q hq hqj x hx
        rcases List.mem_cons.mp hq with rfl | hq
        · exact habove x hx
        · exact hlt q hq hqj x hx

/-- An iterator equal to the smallest entry so far is stepped, and dropped at its end. -/
theorem Selected.skip {best' : Option (ι × MapEntry)} {l l' : List (ι × MapIterator)} {b : ι × MapEntry}
    {i : ι} {e : MapEntry} {r : List MapEntry} {f : Bool} (hr : Ready { rest := e :: r, fault := f })
    (he : e.1 = b.2.1) (h : Selected (some b) l l' best') :
    Selected (some b) ((i, { rest := e :: r, fault := f }) :: l)
      (if r = [] then l' else (i, { rest := r, fault := f }) :: l') best' := by
  have hdrop : Selected (some b) ((i, { rest := r, fault := f }) :: l)
      (if r = [] then l' else (i, { rest := r, fault := f }) :: l') best' := by
    split_ifs with hnil
    · subst hnil
      refine ⟨h.ready, h.tags.cons _, h.keeps, ?_⟩
      rcases h.choice with hc | ⟨j, it, e', r', hj, hm, hit, he', hl, hlt⟩
      · exact Or.inl ⟨hc.1, fun hb => absurd hb (Option.some_ne_none b), hc.2.2⟩
      · exact Or.inr ⟨j, it, e', r', hj, hm, hit, he', hl, hlt⟩
    · exact Selected.pass (hr.tail hnil) (fun x hx => he ▸ hr.lt_of_mem x hx) h
  refine ⟨hdrop.ready, hdrop.tags, ?_, ?_⟩
  · intro k hk
    have hne : e.1 ≠ k := he ▸ hk b rfl
    rw [hdrop.keeps k hk, lookupIn, lookupIn, find_cons, if_neg hne]
  · rcases hdrop.choice with hc | ⟨j, it, e', r', rfl, hm, hit, he', hl, hlt⟩
    · exact Or.inl ⟨hc.1, by simp, hc.2.2⟩
    · refine Or.inr ⟨j, it, e', r', rfl, hm, hit, he', ?_, hlt⟩
      have hne : e.1 ≠ e'.1 := he ▸ (he' b rfl).ne'
      rw [lookupIn] at hl ⊢
      rw [find_cons, if_neg hne]
      exact hl

theorem select_selected (l : List (ι × MapIterator)) (hl : ∀ p ∈ l, Ready p.2) (ht : (l.map Prod.fst).Nodup)
    (best : Option (ι × MapEntry)) :
    ∃ l' best', select best l = some (l', best') ∧ Selected best l l' best' := by
  induction l generalizing best with
  | nil =>
    refine ⟨[], best, rfl, List.forall_mem_nil _, List.Sublist.refl _, fun _ _ => rfl, Or.inl ⟨rfl, fun _ => rfl, ?_⟩⟩
    exact fun _ _ => List.forall_mem_nil _
  | cons p l ih =>
    obtain ⟨i, it, f⟩ := p
    rw [List.map_cons, List.nodup_cons] at ht
    have ih := ih (fun p hp => hl p (List.mem_cons_of_mem _ hp)) ht.2
    have hr := hl _ List.mem_cons_self
    match it, hr with
    | [], hr => exact absurd rfl hr.nonempty
    | e :: r, hr =>
      match best with
      | none =>
        obtain ⟨l', best', hs, hsel⟩ := ih (some (i, e))
        exact ⟨_, best', by simp [select, hs], hsel.take hr (by simp)⟩
      | some b =>
        rcases lt_trichotomy e.1 b.2.1 with hlt | heq | hgt
        · obtain ⟨l', best', hs, hsel⟩ := ih (some (i, e))
          exact ⟨_, best', by simp [select, hs, hlt], hsel.take hr (by simpa using hlt)⟩
        · obtain ⟨l', best', hs, hsel⟩ := ih (some b)
          exact ⟨_, best', by simp [select, hs, heq, hr.next], hsel.skip hr heq⟩
        · obtain ⟨l', best', hs, hsel⟩ := ih (some b)
          refine ⟨_, best', by simp [select, hs, hgt.not_gt, hgt.ne'], hsel.pass hr ?_⟩
          intro x hx
          rcases List.mem_cons.mp hx with rfl | hx
          · exact hgt
          · exact hgt.trans (hr.lt_of_mem x hx)

/-- Stepping over an entry that is below all the others hides the keys up to it. -/
theorem advance_spec [DecidableEq ι] {i : ι} {it : MapIterator} {e : MapEntry} {r : List MapEntry}
    (hit : it.rest = e :: r) {l : List (ι × MapIterator)} (hl : ∀ p ∈ l, Ready p.2)
    (ht : (l.map Prod.fst).Nodup) (hm : (i, it) ∈ l)
    (hlt : ∀ q ∈ l, q.1 ≠ i → ∀ x ∈ q.2.rest, e.1 < x.1) :
    ∃ l', advance i l = some l' ∧ (∀ p ∈ l', Ready p.2) ∧ (l'.map Prod.fst).Sublist (l.map Prod.fst) ∧
      ∀ k, lookupIn l' k = if k ≤ e.1 then none else lookupIn l k := by
  induction l with
  | nil => simp at hm
  | cons p l ih =>
    rw [List.map_cons, List.nodup_cons] at ht
    by_cases hp : p.1 = i
    · have hpi : p = (i, it) := by
        rcases List.mem_cons.mp hm with rfl | hm
        · rfl
        · exact absurd (hp ▸ List.mem_map_of_mem hm) ht.1
      subst hpi
      obtain ⟨rest, f⟩ := it
      obtain rfl : rest = e :: r := hit
      have hr := hl _ List.mem_cons_self
      have hother (k : Bytes) (hk : k ≤ e.1) : lookupIn l k = none := by
        refine lookupIn_eq_none.mpr (fun q hq x hx => ?_)
        have hmem : q.1 ∈ l.map Prod.fst := List.mem_map_of_mem hq
        have hqi : q.1 ≠ i := fun hc => ht.1 (hc ▸ hmem)
        exact (hk.trans_lt (hlt q (List.mem_cons_of_mem _ hq) hqi x hx)).ne'
      have hself (k : Bytes) (hk : k ≤ e.1) : find { rest := r, fault := f } k = none :=
        find_eq_none.mpr (fun x hx => (hk.trans_lt (hr.lt_of_mem x hx)).ne')
      have hfind (k : Bytes) (hk : ¬ k ≤ e.1) :
          find { rest := e :: r, fault := f } k = find { rest := r, fault := f } k := by
        rw [find_cons, if_neg]
        rintro rfl
        exact hk le_rfl
      have hready (q : ι × MapIterator) (hq : q ∈ l) : Ready q.2 := hl q (List.mem_cons_of_mem _ hq)
      refine ⟨if r = [] then l else (i, { rest := r, fault := f }) :: l, by simp [advance, hr.next], ?_⟩
      split_ifs with hnil
      · refine ⟨hready, List.sublist_cons_self _ _, ?_⟩
        intro k
        split_ifs with hk
        · exact hother k hk
        · rw [lookupIn, hfind k hk, hnil]
          simp [find]
      · refine ⟨?_, List.Sublist.refl _, ?_⟩
        · intro q hq
          rcases List.mem_cons.mp hq with rfl | hq
          · exact hr.tail hnil
          · exact hready q hq
        · intro k
          split_ifs with hk
          · simp [lookupIn, hself k hk, hother k hk]
          · simp [lookupIn, hfind k hk]
    · have hm' : (i, it) ∈ l := by
        rcases List.mem_cons.mp hm with rfl | hm
        · exact absurd rfl hp
        · exact hm
      obtain ⟨l', ha, hr', hs', hk'⟩ := ih (fun q hq => hl q (List.mem_cons_of_mem _ hq)) ht.2 hm'
        (fun q hq => hlt q (List.mem_cons_of_mem _ hq))
      refine ⟨p :: l', by simp [advance, hp, ha], ?_, hs'.cons_cons _, ?_⟩
      · intro q hq
        rcases List.mem_cons.mp hq with rfl | hq
        · exact hl _ List.mem_cons_self
        · exact hr' q hq
      · intro k
        rw [lookupIn, lookupIn, hk' k]
        split_ifs with hk
        · have hnone : find p.2 k = none := find_eq_none.mpr (fun x hx =>
            (hk.trans_lt (hlt p List.mem_cons_self hp x hx)).ne')
          rw [hnone, Option.none_or]
        · rfl

/-- A merger whose remaining entries are those of a map. -/
structure Merging (m : MapMerger ι) (c : SortedMap Bytes MapItem) : Prop where
  ready : ∀ p ∈ m.iters, Ready p.2
  tags : (m.iters.map Prod.fst).Nodup
  fresh : m.smallest = none → ∀ k, lookupIn m.iters k = c.lookup k
  stepping : ∀ i, m.smallest = some i → ∃ it e r, (i, it) ∈ m.iters ∧ it.rest = e :: r ∧
    (∀ q ∈ m.iters, q.1 ≠ i → ∀ x ∈ q.2.rest, e.1 < x.1) ∧
    ∀ k, c.lookup k = if k ≤ e.1 then none else lookupIn m.iters k

variable {c : SortedMap Bytes MapItem}

/-- A new merger over iterators without faults. -/
theorem merging_of_ready {l : List (ι × MapIterator)} (hl : ∀ p ∈ l, Ready p.2)
    (ht : (l.map Prod.fst).Nodup) (hc : ∀ k, lookupIn l k = c.lookup k) :
    Merging { iters := l, smallest := none } c where
  ready := hl
  tags := ht
  fresh _ := hc
  stepping := by rintro i ⟨⟩

def three (i₁ i₂ i₃ : ι) (a b c : MapIterator) : MapMerger ι := ((MapMerger.open.add i₁ a).add i₂ b).add i₃ c

theorem three_iters (i₁ i₂ i₃ : ι) (a b c : MapIterator) :
    three i₁ i₂ i₃ a b c =
      { iters := [(i₁, a), (i₂, b), (i₃, c)].filter (fun p => p.2.rest ≠ []), smallest := none } := by
  by_cases h₁ : a.rest = [] <;> by_cases h₂ : b.rest = [] <;> by_cases h₃ : c.rest = [] <;>
    simp [three, MapMerger.add, MapMerger.open, h₁, h₂, h₃]

theorem three_size (i₁ i₂ i₃ : ι) (a b c : MapIterator) :
    (three i₁ i₂ i₃ a b c).size = a.rest.length + (b.rest.length + c.rest.length) := by
  rw [three_iters]
  by_cases h₁ : a.rest = [] <;> by_cases h₂ : b.rest = [] <;> by_cases h₃ : c.rest = [] <;>
    simp [MapMerger.size, h₁, h₂, h₃]

variable [DecidableEq ι] {m : MapMerger ι}

theorem Merging.stepped (h : Merging m c) :
    ∃ l, m.stepped = some l ∧ (∀ p ∈ l, Ready p.2) ∧ (l.map Prod.fst).Nodup ∧
      ∀ k, lookupIn l k = c.lookup k := by
  cases hs : m.smallest with
  | none => exact ⟨m.iters, by simp [MapMerger.stepped, hs], h.ready, h.tags, h.fresh hs⟩
  | some i =>
    obtain ⟨it, e, r, hm, hit, hlt, hk⟩ := h.stepping i hs
    obtain ⟨l, ha, hr, ht, hl⟩ := advance_spec hit h.ready h.tags hm hlt
    exact ⟨l, by simp [MapMerger.stepped, hs, ha], hr, ht.nodup h.tags, fun k => (hl k).trans (hk k).symm⟩

/-- One step of the merger returns the first remaining entry. -/
theorem Merging.next (h : Merging m c) :
    match c.entries with
    | [] => ∃ m', m.next = some (m', none)
    | e :: es => ∃ m', m.next = some (m', some e) ∧
        ∀ c' : SortedMap Bytes MapItem, c'.entries = es → Merging m' c' := by
  obtain ⟨l, hstep, hr, ht, hl⟩ := h.stepped
  obtain ⟨l', best', hsel, hs⟩ := select_selected l hr ht none
  by_cases hnil : m.iters = []
  · have hc : c = SortedMap.empty := by
      apply SortedMap.ext_lookup
      intro k
      rw [← hl k]
      cases hsm : m.smallest with
      | none =>
        simp only [MapMerger.stepped, hsm, hnil, Option.some.injEq] at hstep
        simp [← hstep, lookupIn]
      | some i =>
        simp only [MapMerger.stepped, hsm, hnil, advance, Option.some.injEq] at hstep
        simp [← hstep, lookupIn]
    subst hc
    exact ⟨m, by simp [MapMerger.next, hnil]⟩
  · have hnext : m.next = some ({ iters := l', smallest := best'.map Prod.fst }, best'.map Prod.snd) := by
      simp [MapMerger.next, hnil, hstep, hsel]
    have hkeep (k : Bytes) : lookupIn l' k = c.lookup k := (hs.keeps k (by simp)).trans (hl k)
    rcases hs.choice with ⟨rfl, hempty, -⟩ | ⟨i, it, e, r, rfl, hm, hit, -, he, hlt⟩
    · have hc : c = SortedMap.empty := by
        apply SortedMap.ext_lookup
        intro k
        rw [← hl k, hempty rfl]
        rfl
      subst hc
      exact ⟨_, hnext⟩
    · have hce : c.lookup e.1 = some e.2 := (hl e.1).symm.trans he
      have hbelow (k : Bytes) (hk : k < e.1) : c.lookup k = none := by
        rw [← hkeep k, lookupIn_eq_none]
        intro q hq x hx
        by_cases hqi : q.1 = i
        · have hq' : q = (i, it) := by
            have hinj := List.inj_on_of_nodup_map (hs.tags.nodup ht) hq hm hqi
            exact hinj
          have hready := (hs.ready _ hm).sorted
          simp only [hq', hit] at hx hready
          rcases List.mem_cons.mp hx with rfl | hx
          · exact hk.ne'
          · exact (hk.trans ((List.pairwise_cons.mp hready).1 x hx)).ne'
        · exact (hk.trans (hlt q hq hqi x hx)).ne'
      have hsorted := c.sorted
      have hmem := SortedMap.mem_entries.mpr hce
      match hent : c.entries with
      | [] => simp [hent] at hmem
      | e₀ :: es =>
        rw [hent] at hsorted hmem
        have he₀ : e₀ = e := by
          rcases List.mem_cons.mp hmem with heq | hm'
          · exact heq.symm
          · have h₀ : c.lookup e₀.1 = some e₀.2 := SortedMap.mem_entries.mp (by simp [hent])
            have hlt₀ := (List.pairwise_cons.mp hsorted).1 _ hm'
            simp [hbelow _ hlt₀] at h₀
        subst he₀
        refine ⟨_, hnext, ?_⟩
        intro c' hc'
        refine ⟨hs.ready, hs.tags.nodup ht, by simp, ?_⟩
        rintro _ ⟨⟩
        refine ⟨it, e₀, r, hm, hit, hlt, ?_⟩
        intro k
        rw [hkeep k]
        split_ifs with hk
        · rw [SortedMap.lookup_eq_none, hc']
          intro a ha
          exact absurd ((List.pairwise_cons.mp hsorted).1 _ ha) (not_lt.mpr hk)
        · ext a
          rw [← SortedMap.mem_entries, ← SortedMap.mem_entries, hc', hent, List.mem_cons]
          constructor
          · exact Or.inr
          · rintro (rfl | ha)
            · exact absurd le_rfl hk
            · exact ha

def live (l : List MapEntry) : List (Bytes × Bytes) :=
  (l.filter (fun e => !e.2.isDeleteMarker)).map (fun e => (e.1, e.2.value))

@[simp] theorem live_nil : live [] = [] := rfl

theorem live_cons_of_marker {e : MapEntry} (h : e.2.isDeleteMarker = true) (l : List MapEntry) :
    live (e :: l) = live l := by
  simp [live, h]

theorem live_cons_of_data {e : MapEntry} (h : e.2.isDeleteMarker = false) (l : List MapEntry) :
    live (e :: l) = (e.1, e.2.value) :: live l := by
  simp [live, h]

/-- The merger run to its end, or until enough entries are found, returns the live entries of its
map in key order. -/
theorem Merging.collect (h : Merging m c) {fuel : Nat} (hf : c.entries.length < fuel) (count : Nat) :
    collect fuel count m = some ((live c.entries).take count) := by
  induction fuel generalizing m c count with
  | zero => exact absurd hf (Nat.not_lt_zero _)
  | succ fuel ih =>
    cases count with
    | zero => simp [MapMerger.collect]
    | succ count =>
      have hnext := h.next
      match hent : c.entries with
      | [] =>
        rw [hent] at hnext
        obtain ⟨m', hm'⟩ := hnext
        simp [MapMerger.collect, hm']
      | e :: es =>
        rw [hent] at hnext
        obtain ⟨m', hm', hrest⟩ := hnext
        have hsorted := c.sorted
        rw [hent] at hsorted hf
        let c' : SortedMap Bytes MapItem := { entries := es, sorted := (List.pairwise_cons.mp hsorted).2 }
        have ih' (n : Nat) : MapMerger.collect fuel n m' = some ((live es).take n) :=
          ih (hrest c' rfl) (by simpa [c'] using hf) n
        cases hd : e.2.isDeleteMarker with
        | true => simp [MapMerger.collect, hm', hd, ih', live_cons_of_marker]
        | false => simp [MapMerger.collect, hm', hd, ih', live_cons_of_data]

/-! ### Mergers over lists in key order -/

def mapOf (l : List MapEntry) (h : l.Pairwise (fun p q => p.1 < q.1)) : SortedMap Bytes MapItem :=
  { entries := l, sorted := h }

theorem find_ofList (l : List MapEntry) (h : l.Pairwise (fun p q => p.1 < q.1)) (k : Bytes) :
    find (.ofList l) k = (mapOf l h).lookup k := by
  rw [find, SortedMap.lookup]
  congr!

/-- The union of three lists in key order that prefers the earlier ones. -/
def unionOf {a b c : List MapEntry} (ha : a.Pairwise (fun p q => p.1 < q.1))
    (hb : b.Pairwise (fun p q => p.1 < q.1)) (hc : c.Pairwise (fun p q => p.1 < q.1)) : SortedMap Bytes MapItem :=
  (mapOf a ha).union ((mapOf b hb).union (mapOf c hc))

theorem unionOf_length_le {a b c : List MapEntry} (ha : a.Pairwise (fun p q => p.1 < q.1))
    (hb : b.Pairwise (fun p q => p.1 < q.1)) (hc : c.Pairwise (fun p q => p.1 < q.1)) :
    (unionOf ha hb hc).entries.length ≤ a.length + (b.length + c.length) := by
  have hlen := SortedMap.length_union_le (mapOf a ha) ((mapOf b hb).union (mapOf c hc))
  have hlen' := SortedMap.length_union_le (mapOf b hb) (mapOf c hc)
  simp only [mapOf] at hlen hlen'
  simp only [unionOf, mapOf]
  omega

omit [DecidableEq ι] in
theorem three_merging {i₁ i₂ i₃ : ι} (hi : [i₁, i₂, i₃].Nodup) {a b c : List MapEntry}
    (ha : a.Pairwise (fun p q => p.1 < q.1)) (hb : b.Pairwise (fun p q => p.1 < q.1))
    (hc : c.Pairwise (fun p q => p.1 < q.1)) :
    Merging (three i₁ i₂ i₃ (.ofList a) (.ofList b) (.ofList c)) (unionOf ha hb hc) := by
  rw [three_iters]
  refine merging_of_ready ?_ ?_ ?_
  · intro p hp
    simp only [List.mem_filter, List.mem_cons, List.not_mem_nil, or_false, decide_eq_true_eq] at hp
    obtain ⟨rfl | rfl | rfl, hne⟩ := hp
    · exact ⟨hne, ha, rfl⟩
    · exact ⟨hne, hb, rfl⟩
    · exact ⟨hne, hc, rfl⟩
  · exact (List.filter_sublist.map Prod.fst).nodup hi
  · intro k
    rw [lookupIn_filter, unionOf, SortedMap.lookup_union, SortedMap.lookup_union]
    simp only [lookupIn, find_ofList a ha, find_ofList b hb, find_ofList c hc, Option.or_none]

/-- Three lists in key order are merged into their union. -/
theorem collect_three {i₁ i₂ i₃ : ι} (hi : [i₁, i₂, i₃].Nodup) {a b c : List MapEntry}
    (ha : a.Pairwise (fun p q => p.1 < q.1)) (hb : b.Pairwise (fun p q => p.1 < q.1))
    (hc : c.Pairwise (fun p q => p.1 < q.1)) (count : Nat) :
    MapMerger.collect ((three i₁ i₂ i₃ (.ofList a) (.ofList b) (.ofList c)).size + 1) count
      (three i₁ i₂ i₃ (.ofList a) (.ofList b) (.ofList c)) =
    some ((live (unionOf ha hb hc).entries).take count) := by
  rw [three_size]
  exact (three_merging hi ha hb hc).collect (Nat.lt_succ_of_le (unionOf_length_le ha hb hc)) count

/-! ### Iterators that may fault -/

def clear (m : MapMerger ι) : MapMerger ι :=
  { m with iters := m.iters.map (fun p => (p.1, .ofList p.2.rest)) }

end MapMerger

theorem MapIterator.next_ofList_rest {it it' : MapIterator} (h : it.next = some it') :
    (ofList it.rest).next = some (ofList it'.rest) := by
  rw [MapIterator.next] at h
  split_ifs at h
  rw [next_ofList, ← Option.some.inj h]

theorem MapIterator.next_fault {it it' : MapIterator} (h : it.next = some it') (hne : it.rest ≠ []) :
    it'.fault = it.fault ∧ it'.rest.length + 1 = it.rest.length ∧ (it.fault = true → it'.rest ≠ []) := by
  rw [MapIterator.next] at h
  split_ifs at h with hc
  obtain rfl := Option.some.inj h
  have hpos := List.length_pos_iff.mpr hne
  refine ⟨rfl, by simp only [List.length_tail]; omega, ?_⟩
  intro hf hnil
  have hlen := congrArg List.length hnil
  simp only [List.length_tail, List.length_nil] at hlen
  exact hc ⟨by omega, hf⟩

namespace MapMerger

variable {ι : Type*}

theorem advance_clear [DecidableEq ι] {i : ι} {l l' : List (ι × MapIterator)} (h : advance i l = some l') :
    advance i (l.map (fun p => (p.1, .ofList p.2.rest))) = some (l'.map (fun p => (p.1, .ofList p.2.rest))) := by
  induction l generalizing l' with
  | nil =>
    obtain rfl := Option.some.inj h
    rfl
  | cons p l ih =>
    rw [advance] at h
    rw [List.map_cons, advance]
    split_ifs at h ⊢
    · rw [Option.map_eq_some_iff] at h
      obtain ⟨it, hit, rfl⟩ := h
      rw [MapIterator.next_ofList_rest hit, Option.map_some]
      by_cases hr : it.rest = [] <;> simp [hr, MapIterator.ofList]
    · rw [Option.map_eq_some_iff] at h
      obtain ⟨l₁, hl₁, rfl⟩ := h
      simp [ih hl₁]

theorem select_clear {best best' : Option (ι × MapEntry)} {l l' : List (ι × MapIterator)}
    (h : select best l = some (l', best')) :
    select best (l.map (fun p => (p.1, .ofList p.2.rest))) =
      some (l'.map (fun p => (p.1, .ofList p.2.rest)), best') := by
  induction l generalizing best l' best' with
  | nil =>
    obtain ⟨rfl, rfl⟩ := Prod.mk.inj (Option.some.inj h)
    rfl
  | cons p l ih =>
    obtain ⟨i, rest, f⟩ := p
    simp only [MapIterator.ofList] at ih
    match rest, best with
    | [], _ => simp [select] at h
    | e :: r, none =>
      simp only [select, Option.map_eq_some_iff] at h
      obtain ⟨⟨l₁, b₁⟩, hl₁, h⟩ := h
      obtain ⟨rfl, rfl⟩ := Prod.mk.inj h
      simp only [List.map_cons, MapIterator.ofList, select]
      rw [ih hl₁]
      rfl
    | e :: r, some b =>
      simp only [select] at h
      simp only [List.map_cons, MapIterator.ofList, select]
      split_ifs at h ⊢ with hlt heq
      · rw [Option.map_eq_some_iff] at h
        obtain ⟨⟨l₁, b₁⟩, hl₁, h⟩ := h
        obtain ⟨rfl, rfl⟩ := Prod.mk.inj h
        rw [ih hl₁]
        rfl
      · rw [Option.bind_eq_some_iff] at h
        obtain ⟨it, hit, h⟩ := h
        rw [Option.map_eq_some_iff] at h
        obtain ⟨⟨l₁, b₁⟩, hl₁, h⟩ := h
        obtain ⟨rfl, rfl⟩ := Prod.mk.inj h
        have hnext := MapIterator.next_ofList_rest hit
        simp only [MapIterator.ofList] at hnext
        rw [hnext, Option.bind_some, ih hl₁]
        by_cases hr : it.rest = [] <;> simp [hr]
      · rw [Option.map_eq_some_iff] at h
        obtain ⟨⟨l₁, b₁⟩, hl₁, h⟩ := h
        obtain ⟨rfl, rfl⟩ := Prod.mk.inj h
        rw [ih hl₁]
        rfl

def left (l : List (ι × MapIterator)) : Nat := (l.map (fun p => p.2.rest.length)).sum

@[simp] theorem left_nil : left ([] : List (ι × MapIterator)) = 0 := rfl

@[simp] theorem left_cons (p : ι × MapIterator) (l : List (ι × MapIterator)) :
    left (p :: l) = p.2.rest.length + left l := by
  simp [left]

/-- Every iterator of a list has a current entry, and one of them will fault. -/
def Doomed (l : List (ι × MapIterator)) : Prop := (∀ p ∈ l, p.2.rest ≠ []) ∧ ∃ p ∈ l, p.2.fault = true

theorem Doomed.left_pos {l : List (ι × MapIterator)} (h : Doomed l) : 0 < left l := by
  obtain ⟨hne, p, hp, -⟩ := h
  have hpos := List.length_pos_iff.mpr (hne p hp)
  obtain ⟨l₁, l₂, rfl⟩ := List.append_of_mem hp
  simp only [left, List.map_append, List.map_cons, List.sum_append, List.sum_cons]
  omega

theorem advance_left [DecidableEq ι] {i : ι} {l l' : List (ι × MapIterator)} (hne : ∀ p ∈ l, p.2.rest ≠ [])
    (hi : i ∈ l.map Prod.fst) (h : advance i l = some l') :
    (∀ p ∈ l', p.2.rest ≠ []) ∧ ((∃ p ∈ l, p.2.fault = true) → ∃ p ∈ l', p.2.fault = true) ∧ left l' + 1 = left l := by
  induction l generalizing l' with
  | nil => simp at hi
  | cons p l ih =>
    have hp := hne p List.mem_cons_self
    have hl : ∀ q ∈ l, q.2.rest ≠ [] := fun q hq => hne q (List.mem_cons_of_mem _ hq)
    rw [advance] at h
    split_ifs at h with hpi
    · rw [Option.map_eq_some_iff] at h
      obtain ⟨it, hit, rfl⟩ := h
      obtain ⟨hfault, hlen, hkept⟩ := MapIterator.next_fault hit hp
      by_cases hnil : it.rest = []
      · rw [if_pos hnil]
        refine ⟨hl, ?_, by simp [← hlen, hnil, Nat.add_comm]⟩
        rintro ⟨q, hq, hf⟩
        rcases List.mem_cons.mp hq with rfl | hq
        · exact absurd hnil (hkept hf)
        · exact ⟨q, hq, hf⟩
      · rw [if_neg hnil]
        refine ⟨?_, ?_, by simp only [left_cons, ← hlen]; omega⟩
        · intro q hq
          rcases List.mem_cons.mp hq with rfl | hq
          · exact hnil
          · exact hl q hq
        · rintro ⟨q, hq, hf⟩
          rcases List.mem_cons.mp hq with rfl | hq
          · exact ⟨_, List.mem_cons_self, by rw [hfault, hf]⟩
          · exact ⟨q, List.mem_cons_of_mem _ hq, hf⟩
    · rw [Option.map_eq_some_iff] at h
      obtain ⟨l₁, hl₁, rfl⟩ := h
      have hmem : i ∈ l.map Prod.fst := (List.mem_cons.mp hi).resolve_left (Ne.symm hpi)
      obtain ⟨hne₁, hfault₁, hleft₁⟩ := ih hl hmem hl₁
      refine ⟨?_, ?_, by simp only [left_cons]; omega⟩
      · intro q hq
        rcases List.mem_cons.mp hq with rfl | hq
        · exact hp
        · exact hne₁ q hq
      · rintro ⟨q, hq, hf⟩
        rcases List.mem_cons.mp hq with rfl | hq
        · exact ⟨q, List.mem_cons_self, hf⟩
        · obtain ⟨r, hr, hfr⟩ := hfault₁ ⟨q, hq, hf⟩
          exact ⟨r, List.mem_cons_of_mem _ hr, hfr⟩

/-- The outcome of a selection, as far as the entries left are concerned. -/
structure Chosen (best : Option (ι × MapEntry)) (l l' : List (ι × MapIterator)) (best' : Option (ι × MapEntry)) :
    Prop where
  nonempty : ∀ p ∈ l', p.2.rest ≠ []
  fault : (∃ p ∈ l, p.2.fault = true) → ∃ p ∈ l', p.2.fault = true
  left : left l' ≤ left l
  choice : best' = best ∨ ∃ b ∈ best', b.1 ∈ l'.map Prod.fst
  some : l ≠ [] ∨ best ≠ none → best' ≠ none

theorem Chosen.keep {best b₁ best' : Option (ι × MapEntry)} {l l' : List (ι × MapIterator)} {p : ι × MapIterator}
    (hp : p.2.rest ≠ []) (hb : b₁ = best ∨ ∃ b ∈ b₁, b.1 = p.1) (hsome : b₁ ≠ none) (h : Chosen b₁ l l' best') :
    Chosen best (p :: l) (p :: l') best' where
  nonempty := by
    intro q hq
    rcases List.mem_cons.mp hq with rfl | hq
    · exact hp
    · exact h.nonempty q hq
  fault := by
    rintro ⟨q, hq, hf⟩
    rcases List.mem_cons.mp hq with rfl | hq
    · exact ⟨q, List.mem_cons_self, hf⟩
    · obtain ⟨r, hr, hfr⟩ := h.fault ⟨q, hq, hf⟩
      exact ⟨r, List.mem_cons_of_mem _ hr, hfr⟩
  left := by
    simp only [left_cons]
    exact Nat.add_le_add_left h.left _
  choice := by
    rcases h.choice with rfl | ⟨b, hb', hm⟩
    · rcases hb with rfl | ⟨b, hb', hp⟩
      · exact Or.inl rfl
      · exact Or.inr ⟨b, hb', by simp [hp]⟩
    · exact Or.inr ⟨b, hb', List.mem_cons_of_mem _ hm⟩
  some _ := h.some (Or.inr hsome)

theorem select_chosen {best best' : Option (ι × MapEntry)} {l l' : List (ι × MapIterator)}
    (hne : ∀ p ∈ l, p.2.rest ≠ []) (h : select best l = some (l', best')) : Chosen best l l' best' := by
  induction l generalizing best l' best' with
  | nil =>
    obtain ⟨rfl, rfl⟩ := Prod.mk.inj (Option.some.inj h)
    exact ⟨by simp, by simp, le_rfl, Or.inl rfl, by simp⟩
  | cons p l ih =>
    have hp := hne p List.mem_cons_self
    have hl : ∀ q ∈ l, q.2.rest ≠ [] := fun q hq => hne q (List.mem_cons_of_mem _ hq)
    obtain ⟨i, rest, f⟩ := p
    obtain ⟨e, r, rfl⟩ : ∃ e r, rest = e :: r := List.exists_cons_of_ne_nil hp
    have keep {b : Option (ι × MapEntry)} (hb : b = best ∨ ∃ x ∈ b, x.1 = i) (hsome : b ≠ none)
        (hs : (select b l).map (fun x => ((i, (⟨e :: r, f⟩ : MapIterator)) :: x.1, x.2)) = some (l', best')) :
        Chosen best ((i, ⟨e :: r, f⟩) :: l) l' best' := by
      rw [Option.map_eq_some_iff] at hs
      obtain ⟨⟨l₁, c⟩, hl₁, heq⟩ := hs
      obtain ⟨rfl, rfl⟩ := Prod.mk.inj heq
      exact (ih hl hl₁).keep hp hb hsome
    cases best with
    | none => exact keep (b := some (i, e)) (Or.inr ⟨_, rfl, rfl⟩) (by simp) h
    | some b =>
      simp only [select] at h
      split_ifs at h with hlt heq
      · exact keep (b := some (i, e)) (Or.inr ⟨_, rfl, rfl⟩) (by simp) h
      · rw [Option.bind_eq_some_iff] at h
        obtain ⟨it, hit, h⟩ := h
        obtain ⟨hfault, hlen, hkept⟩ := MapIterator.next_fault hit hp
        rw [Option.map_eq_some_iff] at h
        obtain ⟨⟨l₁, c⟩, hl₁, heq'⟩ := h
        obtain ⟨rfl, rfl⟩ := Prod.mk.inj heq'
        have hsel := ih hl hl₁
        dsimp only
        by_cases hnil : it.rest = []
        · rw [if_pos hnil]
          refine ⟨hsel.nonempty, ?_, ?_, hsel.choice, fun _ => hsel.some (by simp)⟩
          · rintro ⟨q, hq, hf⟩
            rcases List.mem_cons.mp hq with rfl | hq
            · exact absurd hnil (hkept hf)
            · exact hsel.fault ⟨q, hq, hf⟩
          · rw [left_cons]
            exact hsel.left.trans (Nat.le_add_left _ _)
        · rw [if_neg hnil]
          have hone := hsel.keep (p := (i, it)) hnil (Or.inl rfl) (by simp)
          refine ⟨hone.nonempty, ?_, ?_, hone.choice, fun _ => hone.some (by simp)⟩
          · rintro ⟨q, hq, hf⟩
            rcases List.mem_cons.mp hq with rfl | hq
            · exact hone.fault ⟨_, List.mem_cons_self, by rw [hfault, hf]⟩
            · exact hone.fault ⟨q, List.mem_cons_of_mem _ hq, hf⟩
          · refine hone.left.trans ?_
            simp only [left_cons, ← hlen]
            omega
      · exact keep (Or.inl rfl) (by simp) h

@[simp] theorem size_clear (m : MapMerger ι) : m.clear.size = m.size := by
  simp [clear, size, MapIterator.ofList, Function.comp_def]

@[simp] theorem clear_open : (MapMerger.open : MapMerger ι).clear = MapMerger.open := rfl

@[simp] theorem clear_add (m : MapMerger ι) (i : ι) (it : MapIterator) :
    (m.add i it).clear = m.clear.add i (.ofList it.rest) := by
  by_cases h : it.rest = [] <;> simp [MapMerger.add, clear, MapIterator.ofList, h]

variable [DecidableEq ι] {m : MapMerger ι}

theorem next_clear {r : MapMerger ι × Option MapEntry} (h : m.next = some r) :
    m.clear.next = some (r.1.clear, r.2) := by
  rw [MapMerger.next] at h
  split_ifs at h with hnil
  · obtain rfl := Option.some.inj h
    simp [MapMerger.next, clear, hnil]
  · rw [Option.bind_eq_some_iff] at h
    obtain ⟨l, hl, h⟩ := h
    rw [Option.map_eq_some_iff] at h
    obtain ⟨⟨l', b⟩, hsel, rfl⟩ := h
    have hstep : m.clear.stepped = some (l.map (fun p => (p.1, .ofList p.2.rest))) := by
      rw [MapMerger.stepped] at hl ⊢
      cases hs : m.smallest with
      | none =>
        simp only [hs, Option.some.injEq] at hl
        simp [clear, hs, hl]
      | some i =>
        simp only [hs] at hl
        simpa [clear, hs] using advance_clear hl
    rw [MapMerger.next, if_neg (by simpa [clear] using hnil), hstep, Option.bind_some, select_clear hsel]
    rfl

/-- What a merge returns in spite of faults it also returns without them. -/
theorem collect_clear {fuel count : Nat} {l : List (Bytes × Bytes)} (h : collect fuel count m = some l) :
    collect fuel count m.clear = some l := by
  induction fuel generalizing m count l with
  | zero => simpa [MapMerger.collect] using h
  | succ fuel ih =>
    cases count with
    | zero => simpa [MapMerger.collect] using h
    | succ count =>
      rw [MapMerger.collect, Option.bind_eq_some_iff] at h
      obtain ⟨⟨m', o⟩, hm', h⟩ := h
      rw [MapMerger.collect, next_clear hm', Option.bind_some]
      match o, h with
      | none, h => exact h
      | some e, h =>
        dsimp only at h ⊢
        split_ifs at h ⊢
        · exact ih h
        · rw [Option.map_eq_some_iff] at h
          obtain ⟨l', hl', rfl⟩ := h
          rw [ih hl', Option.map_some]

theorem collect_three_of_some {i₁ i₂ i₃ : ι} (hi : [i₁, i₂, i₃].Nodup) {a b c : MapIterator}
    (ha : a.rest.Pairwise (fun p q => p.1 < q.1)) (hb : b.rest.Pairwise (fun p q => p.1 < q.1))
    (hc : c.rest.Pairwise (fun p q => p.1 < q.1)) {count : Nat} {l : List (Bytes × Bytes)}
    (h : MapMerger.collect ((three i₁ i₂ i₃ a b c).size + 1) count (three i₁ i₂ i₃ a b c) = some l) :
    l = (live (unionOf ha hb hc).entries).take count := by
  have hclear : (three i₁ i₂ i₃ a b c).clear = three i₁ i₂ i₃ (.ofList a.rest) (.ofList b.rest) (.ofList c.rest) := by
    simp [three]
  have h' := collect_clear h
  rw [← size_clear, hclear, collect_three hi ha hb hc] at h'
  exact (Option.some.inj h').symm

/-- The steps that a merger takes to its end. -/
def due (m : MapMerger ι) : Nat := left m.iters + if m.smallest = none then 1 else 0

theorem next_doomed (h : Doomed m.iters) (hs : ∀ i ∈ m.smallest, i ∈ m.iters.map Prod.fst) {r : MapMerger ι × Option MapEntry}
    (hr : m.next = some r) :
    Doomed r.1.iters ∧ (∀ i ∈ r.1.smallest, i ∈ r.1.iters.map Prod.fst) ∧ r.2 ≠ none ∧ r.1.due < m.due := by
  have hnil : m.iters ≠ [] := by
    obtain ⟨-, p, hp, -⟩ := h
    exact List.ne_nil_of_mem hp
  rw [MapMerger.next, if_neg hnil, Option.bind_eq_some_iff] at hr
  obtain ⟨l, hl, hr⟩ := hr
  rw [Option.map_eq_some_iff] at hr
  obtain ⟨⟨l', best⟩, hsel, rfl⟩ := hr
  have hstep : Doomed l ∧ left l + 1 = m.due := by
    rw [MapMerger.stepped] at hl
    rw [due]
    cases hsm : m.smallest with
    | none =>
      simp only [hsm, Option.some.injEq] at hl
      subst hl
      exact ⟨h, rfl⟩
    | some i =>
      simp only [hsm] at hl
      obtain ⟨hne, hfault, hleft⟩ := advance_left h.1 (hs i hsm) hl
      exact ⟨⟨hne, hfault h.2⟩, by simpa using hleft⟩
  obtain ⟨hd, hleft⟩ := hstep
  have hch := select_chosen hd.1 hsel
  have hbest : best ≠ none := by
    obtain ⟨-, p, hp, -⟩ := hd
    exact hch.some (Or.inl (List.ne_nil_of_mem hp))
  obtain ⟨b, rfl⟩ := Option.ne_none_iff_exists'.mp hbest
  refine ⟨⟨hch.nonempty, hch.fault hd.2⟩, ?_, by simp, ?_⟩
  · intro i hi
    obtain rfl := Option.some.inj hi
    obtain ⟨b', hb', hm⟩ := hch.choice.resolve_left (by simp)
    obtain rfl := Option.some.inj hb'
    exact hm
  · have hle := hch.left
    simp only [due, Option.map_some, reduceCtorEq, if_false] at hleft ⊢
    omega

/-- A merger that is followed to its end meets the faults of its iterators. -/
theorem collect_doomed {fuel count : Nat} (h : Doomed m.iters) (hs : ∀ i ∈ m.smallest, i ∈ m.iters.map Prod.fst)
    (hfuel : m.due ≤ fuel) (hcount : m.due ≤ count) : collect fuel count m = none := by
  induction fuel generalizing count m with
  | zero =>
    have hpos := h.left_pos
    rw [due] at hfuel
    omega
  | succ fuel ih =>
    have hpos := h.left_pos
    cases count with
    | zero =>
      rw [due] at hcount
      omega
    | succ count =>
      rw [MapMerger.collect, Option.bind_eq_none_iff]
      rintro ⟨m', o⟩ hr
      obtain ⟨hd, hs', ho, hdue⟩ := next_doomed h hs hr
      obtain ⟨e, rfl⟩ := Option.ne_none_iff_exists'.mp ho
      dsimp only at hdue ⊢
      split_ifs
      · exact ih (m := m') hd hs' (by omega) (by omega)
      · rw [ih (m := m') hd hs' (by omega) (by omega), Option.map_none]

end MapMerger

/-! ### Merges that end before a fault -/

theorem MapIterator.next_suffix {it it' : MapIterator} (h : it.next = some it') : it'.rest <:+ it.rest := by
  rw [MapIterator.next] at h
  split_ifs at h
  rw [← Option.some.inj h]
  exact List.tail_suffix _

namespace MapMerger

variable {ι : Type*}

theorem select_append (best : Option (ι × MapEntry)) (l : List (ι × MapIterator)) (p : ι × MapIterator) :
    select best (l ++ [p]) =
      (select best l).bind (fun r => (select r.2 [p]).map (fun r' => (r.1 ++ r'.1, r'.2))) := by
  induction l generalizing best with
  | nil =>
    change select best [p] = (select best [p]).map (fun r' => ([] ++ r'.1, r'.2))
    cases select best [p] <;> rfl
  | cons q l ih =>
    obtain ⟨i, rest, f⟩ := q
    match rest, best with
    | [], _ => simp [select]
    | e :: r, none => simp [select, ih, Option.map_bind, Option.bind_map, Function.comp_def]
    | e :: r, some b =>
      simp only [List.cons_append, select, ih]
      split_ifs
      · simp [Option.map_bind, Option.bind_map, Function.comp_def]
      · simp only [Option.bind_assoc, Option.map_bind, Option.bind_map, Function.comp_def, Option.map_map]
        congr 1
        funext it
        split_ifs <;> simp
      · simp [Option.map_bind, Option.bind_map, Function.comp_def]

theorem advance_append [DecidableEq ι] {i j : ι} (h : j ≠ i) (l : List (ι × MapIterator)) (it : MapIterator) :
    advance i (l ++ [(j, it)]) = (advance i l).map (· ++ [(j, it)]) := by
  induction l with
  | nil => simp [advance, h]
  | cons p l ih =>
    by_cases hp : p.1 = i
    · simp only [List.cons_append, advance, hp, if_true, Option.map_map]
      congr 1
      funext it'
      by_cases hr : it'.rest = [] <;> simp [hr]
    · simp [advance, hp, ih, Function.comp_def]

theorem advance_append_self [DecidableEq ι] {i : ι} {l : List (ι × MapIterator)} (h : i ∉ l.map Prod.fst)
    (it : MapIterator) :
    advance i (l ++ [(i, it)]) = it.next.map (fun it' => l ++ if it'.rest = [] then [] else [(i, it')]) := by
  induction l with
  | nil => simp [advance]
  | cons p l ih =>
    rw [List.map_cons, List.mem_cons, not_or] at h
    simp [advance, Ne.symm h.1, ih h.2, Function.comp_def]

/-- The iterators of one list are those of another, further on. -/
def Within (l' l : List (ι × MapIterator)) : Prop := ∀ p ∈ l', ∃ q ∈ l, q.1 = p.1 ∧ p.2.rest <:+ q.2.rest

theorem Within.refl (l : List (ι × MapIterator)) : Within l l := fun p hp => ⟨p, hp, rfl, List.suffix_refl _⟩

theorem Within.cons {p q : ι × MapIterator} {l l' : List (ι × MapIterator)} (h : Within l' l) (hqp : q.1 = p.1)
    (hr : p.2.rest <:+ q.2.rest) : Within (p :: l') (q :: l) := by
  intro x hx
  rcases List.mem_cons.mp hx with rfl | hx
  · exact ⟨q, List.mem_cons_self, hqp, hr⟩
  · obtain ⟨y, hy, hyx⟩ := h x hx
    exact ⟨y, List.mem_cons_of_mem _ hy, hyx⟩

theorem Within.drop {q : ι × MapIterator} {l l' : List (ι × MapIterator)} (h : Within l' l) : Within l' (q :: l) := by
  intro x hx
  obtain ⟨y, hy, hyx⟩ := h x hx
  exact ⟨y, List.mem_cons_of_mem _ hy, hyx⟩

theorem Within.not_mem {i : ι} {l l' : List (ι × MapIterator)} (h : Within l' l) (hi : i ∉ l.map Prod.fst) :
    i ∉ l'.map Prod.fst := by
  intro hc
  obtain ⟨p, hp, rfl⟩ := List.mem_map.mp hc
  obtain ⟨q, hq, hqp, -⟩ := h p hp
  exact hi (hqp ▸ List.mem_map_of_mem hq)

theorem advance_within [DecidableEq ι] {i : ι} {l l' : List (ι × MapIterator)} (h : advance i l = some l') :
    Within l' l := by
  induction l generalizing l' with
  | nil =>
    obtain rfl := Option.some.inj h
    exact .refl _
  | cons p l ih =>
    rw [advance] at h
    split_ifs at h with hp
    · rw [Option.map_eq_some_iff] at h
      obtain ⟨it, hit, rfl⟩ := h
      split_ifs
      · exact (Within.refl l).drop
      · exact (Within.refl l).cons hp (MapIterator.next_suffix hit)
    · rw [Option.map_eq_some_iff] at h
      obtain ⟨l₁, hl₁, rfl⟩ := h
      exact (ih hl₁).cons rfl (List.suffix_refl _)

theorem Within.avoids {l₁ l₂ : List (ι × MapIterator)} (h : Within l₁ l₂) {k : Bytes}
    (hk : ∀ p ∈ l₂, ∀ e ∈ p.2.rest, e.1 ≠ k) : ∀ p ∈ l₁, ∀ e ∈ p.2.rest, e.1 ≠ k := by
  intro p hp e he
  obtain ⟨q, hq, -, hpq⟩ := h p hp
  exact hk q hq e (hpq.subset he)

theorem select_within {best best' : Option (ι × MapEntry)} {l l' : List (ι × MapIterator)}
    (h : select best l = some (l', best')) :
    Within l' l ∧ (best' = best ∨ ∃ b ∈ best', ∃ q ∈ l, q.1 = b.1 ∧ b.2 ∈ q.2.rest) := by
  induction l generalizing best l' best' with
  | nil =>
    obtain ⟨rfl, rfl⟩ := Prod.mk.inj (Option.some.inj h)
    exact ⟨.refl _, Or.inl rfl⟩
  | cons p l ih =>
    obtain ⟨i, rest, f⟩ := p
    obtain ⟨e, r, rfl⟩ : ∃ e r, rest = e :: r := List.exists_cons_of_ne_nil (by
      rintro rfl
      simp [select] at h)
    have behind {b : Option (ι × MapEntry)} {l₁ : List (ι × MapIterator)} (hb : b = best ∨ b = some (i, e))
        (hs : select b l = some (l₁, best')) :
        best' = best ∨ ∃ x ∈ best', ∃ q ∈ (i, (⟨e :: r, f⟩ : MapIterator)) :: l, q.1 = x.1 ∧ x.2 ∈ q.2.rest := by
      rcases (ih hs).2 with rfl | ⟨x, hx, q, hq, hqx⟩
      · rcases hb with rfl | rfl
        · exact Or.inl rfl
        · exact Or.inr ⟨_, rfl, _, List.mem_cons_self, rfl, List.mem_cons_self⟩
      · exact Or.inr ⟨x, hx, q, List.mem_cons_of_mem _ hq, hqx⟩
    have keep {b : Option (ι × MapEntry)} (hb : b = best ∨ b = some (i, e))
        (hs : (select b l).map (fun x => ((i, (⟨e :: r, f⟩ : MapIterator)) :: x.1, x.2)) = some (l', best')) :
        Within l' ((i, ⟨e :: r, f⟩) :: l) ∧
          (best' = best ∨ ∃ x ∈ best', ∃ q ∈ (i, (⟨e :: r, f⟩ : MapIterator)) :: l, q.1 = x.1 ∧ x.2 ∈ q.2.rest) := by
      rw [Option.map_eq_some_iff] at hs
      obtain ⟨⟨l₁, c⟩, hl₁, heq⟩ := hs
      obtain ⟨rfl, rfl⟩ := Prod.mk.inj heq
      exact ⟨(ih hl₁).1.cons rfl (List.suffix_refl _), behind hb hl₁⟩
    cases best with
    | none => exact keep (Or.inr rfl) h
    | some b =>
      simp only [select] at h
      split_ifs at h with hlt heq
      · exact keep (Or.inr rfl) h
      · rw [Option.bind_eq_some_iff] at h
        obtain ⟨it, hit, h⟩ := h
        rw [Option.map_eq_some_iff] at h
        obtain ⟨⟨l₁, c⟩, hl₁, heq'⟩ := h
        obtain ⟨rfl, rfl⟩ := Prod.mk.inj heq'
        refine ⟨?_, behind (Or.inl rfl) hl₁⟩
        dsimp only
        split_ifs
        · exact (ih hl₁).1.drop
        · exact (ih hl₁).1.cons rfl (MapIterator.next_suffix hit)
      · exact keep (Or.inl rfl) h

variable {i : ι} {last : Bytes} {alone : Prop} {c : SortedMap Bytes MapItem}

/-- The entries of a list in key order up to the last one of a beginning of it are that beginning. -/
theorem mem_of_le_last {l pre : List MapEntry} (hl : l.Pairwise (fun p q => p.1 < q.1)) (hpre : pre <+: l)
    (hlast : pre.getLast?.map Prod.fst = some last) {e : MapEntry} (he : e ∈ l) (hle : e.1 ≤ last) : e ∈ pre := by
  obtain ⟨post, rfl⟩ := hpre
  rw [Option.map_eq_some_iff] at hlast
  obtain ⟨x, hx, rfl⟩ := hlast
  refine (List.mem_append.mp he).resolve_right (fun hpost => ?_)
  exact ((List.pairwise_append.mp hl).2.2 x (List.mem_of_getLast? hx) e hpost).not_ge hle

theorem unionOf_below_length {a b c pre : List MapEntry} (ha : a.Pairwise (fun p q => p.1 < q.1))
    (hb : b.Pairwise (fun p q => p.1 < q.1)) (hc : c.Pairwise (fun p q => p.1 < q.1)) (hpre : pre <+: c)
    (hlast : pre.getLast?.map Prod.fst = some last) :
    ((unionOf ha hb hc).entries.filter (fun e => decide (e.1 ≤ last))).length ≤ a.length + (b.length + pre.length) := by
  have hnodup : (((unionOf ha hb hc).entries.filter (fun e => decide (e.1 ≤ last))).map Prod.fst).Nodup :=
    (unionOf ha hb hc).nodup_keys.sublist (List.filter_sublist.map Prod.fst)
  have hsub : ((unionOf ha hb hc).entries.filter (fun e => decide (e.1 ≤ last))).map Prod.fst ⊆
      (a ++ (b ++ pre)).map Prod.fst := by
    intro k hk
    obtain ⟨e, he, rfl⟩ := List.mem_map.mp hk
    rw [List.mem_filter, decide_eq_true_eq] at he
    obtain ⟨he, hle⟩ := he
    rw [SortedMap.mem_entries, unionOf, SortedMap.lookup_union, SortedMap.lookup_union] at he
    simp only [List.map_append, List.mem_append]
    rcases Option.or_eq_some_iff.mp he with he | ⟨-, he⟩
    · exact Or.inl (List.mem_map_of_mem (SortedMap.mem_entries.mpr he))
    rcases Option.or_eq_some_iff.mp he with he | ⟨-, he⟩
    · exact Or.inr (Or.inl (List.mem_map_of_mem (SortedMap.mem_entries.mpr he)))
    · exact Or.inr (Or.inr (List.mem_map_of_mem (mem_of_le_last hc hpre hlast (SortedMap.mem_entries.mpr he) hle)))
  simpa using (List.subperm_of_subset hnodup hsub).length_le

theorem three_of_ne_nil {i₁ i₂ i₃ : ι} {a b it : MapIterator} (hit : it.rest ≠ []) : three i₁ i₂ i₃ a b it =
    { iters := [(i₁, a), (i₂, b)].filter (fun p => p.2.rest ≠ []) ++ [(i₃, it)], smallest := none } := by
  have hsplit : [(i₁, a), (i₂, b), (i₃, it)] = [(i₁, a), (i₂, b)] ++ [(i₃, it)] := rfl
  have hone : [(i₃, it)].filter (fun p => decide (p.2.rest ≠ [])) = [(i₃, it)] := by simp [hit]
  rw [three_iters, hsplit, List.filter_append, hone]

variable [DecidableEq ι] {m m' : MapMerger ι}

/-- Two mergers that differ in their last iterator, `i`: that of the first one is cut short by a fault behind the key
`last`, and if this key is `alone`, no other iterator has it. The first merger has not returned it yet. -/
inductive Cut (i : ι) (last : Bytes) (alone : Prop) : MapMerger ι → MapMerger ι → Prop
  | mk {l : List (ι × MapIterator)} {r r' : List MapEntry} {s : Option ι} (hr : r <+: r')
      (hlast : r.getLast?.map Prod.fst = some last) (hi : i ∉ l.map Prod.fst)
      (halone : alone → ∀ p ∈ l, ∀ e ∈ p.2.rest, e.1 ≠ last) (hs : s = some i → r.length ≠ 1) :
      Cut i last alone { iters := l ++ [(i, { rest := r, fault := true })], smallest := s }
        { iters := l ++ [(i, .ofList r')], smallest := s }

theorem exists_cons_of_last {r r' : List MapEntry} (hr : r <+: r') (hlast : r.getLast?.map Prod.fst = some last) :
    ∃ a t t', r = a :: t ∧ r' = a :: t' := by
  obtain ⟨a, t, rfl⟩ : ∃ a t, r = a :: t := List.exists_cons_of_ne_nil (by
    rintro rfl
    simp at hlast)
  obtain ⟨t', rfl⟩ := hr
  exact ⟨a, t, t ++ t', rfl, rfl⟩

/-- A cut iterator that is not at its last key can be stepped, and so can the whole one. -/
theorem cut_next {e : MapEntry} {r r' : List MapEntry} (hr : e :: r <+: e :: r')
    (hlast : (e :: r).getLast?.map Prod.fst = some last) (hne : (e :: r).length ≠ 1) :
    r <+: r' ∧ r.getLast?.map Prod.fst = some last ∧ r ≠ [] ∧ r' ≠ [] := by
  have hnil : r ≠ [] := by
    rintro rfl
    exact hne rfl
  have hpre := (List.prefix_cons_inj e).mp hr
  refine ⟨hpre, ?_, hnil, ?_⟩
  · rwa [List.getLast?_cons_of_ne_nil hnil] at hlast
  · rintro rfl
    exact hnil (List.prefix_nil.mp hpre)

theorem Cut.stepped (h : Cut i last alone m m') {l' : List (ι × MapIterator)} (hl' : m'.stepped = some l') :
    ∃ l r r', m.stepped = some (l ++ [(i, { rest := r, fault := true })]) ∧ l' = l ++ [(i, .ofList r')] ∧ r <+: r' ∧
      r.getLast?.map Prod.fst = some last ∧ i ∉ l.map Prod.fst ∧ (alone → ∀ p ∈ l, ∀ e ∈ p.2.rest, e.1 ≠ last) := by
  obtain ⟨hr, hlast, hi, halone, hs⟩ := h
  rename_i l r r' s
  cases s with
  | none =>
    obtain rfl := Option.some.inj hl'
    exact ⟨l, r, r', rfl, rfl, hr, hlast, hi, halone⟩
  | some j =>
    dsimp only [MapMerger.stepped] at hl' ⊢
    by_cases hj : i = j
    · subst hj
      rw [advance_append_self hi, MapIterator.next_ofList, Option.map_some, Option.some.injEq] at hl'
      obtain ⟨e, r, r', rfl, rfl⟩ := exists_cons_of_last hr hlast
      have hlen := hs rfl
      obtain ⟨hpre, hlast', hnil, hnil'⟩ := cut_next hr hlast hlen
      have hnil'' : (MapIterator.ofList (e :: r').tail).rest ≠ [] := hnil'
      rw [if_neg hnil''] at hl'
      refine ⟨l, r, r', ?_, hl'.symm, hpre, hlast', hi, halone⟩
      rw [advance_append_self hi, MapIterator.next, if_neg (fun hc => hlen hc.1), Option.map_some, List.tail_cons,
        if_neg hnil]
    · rw [advance_append hj, Option.map_eq_some_iff] at hl'
      obtain ⟨l₁, hl₁, rfl⟩ := hl'
      have hw := advance_within hl₁
      exact ⟨l₁, r, r', by rw [advance_append hj, hl₁]; rfl, rfl, hr, hlast, hw.not_mem hi, fun ha => hw.avoids (halone ha)⟩

/-- As long as the whole merger does not come to the last key of the cut iterator, or to one that it has alone, the
other returns the same. -/
theorem Cut.next (h : Cut i last alone m m') {x' : MapMerger ι} {e : MapEntry} (hx : m'.next = some (x', some e))
    (he : e.1 = last → alone) : ∃ x, m.next = some (x, some e) ∧ (e.1 ≠ last → Cut i last alone x x') := by
  have hne : m.iters ≠ [] := by
    cases h
    simp
  have hne' : m'.iters ≠ [] := by
    cases h
    simp
  rw [MapMerger.next, if_neg hne', Option.bind_eq_some_iff] at hx
  obtain ⟨l', hl', hx⟩ := hx
  obtain ⟨l, r, r', hl, rfl, hr, hlast, hi, halone⟩ := h.stepped hl'
  obtain ⟨a, r, r', rfl, rfl⟩ := exists_cons_of_last hr hlast
  rw [Option.map_eq_some_iff] at hx
  obtain ⟨⟨l₂, best'⟩, hsel, hx⟩ := hx
  rw [select_append, Option.bind_eq_some_iff] at hsel
  obtain ⟨⟨l₁, best⟩, hl₁, hsel⟩ := hsel
  obtain ⟨hw, hbest⟩ := select_within hl₁
  have hi₁ := hw.not_mem hi
  have halone₁ (ha : alone) := hw.avoids (halone ha)
  have hone : a.1 ≠ last → (a :: r).length ≠ 1 := by
    intro hne hlen
    obtain rfl := List.eq_nil_of_length_eq_zero (Nat.succ.inj hlen)
    exact hne (Option.some.inj hlast)
  rw [MapMerger.next, if_neg hne, hl, Option.bind_some, select_append, hl₁, Option.bind_some]
  rw [Option.map_eq_some_iff] at hsel
  obtain ⟨⟨p, b⟩, hp, hsel⟩ := hsel
  obtain ⟨rfl, rfl⟩ := Prod.mk.inj hsel
  obtain ⟨rfl, hb⟩ := Prod.mk.inj hx
  cases best with
  | none =>
    simp only [select, MapIterator.ofList, Option.map_some, Option.some.injEq, Prod.mk.injEq] at hp
    obtain ⟨rfl, rfl⟩ := hp
    obtain rfl := Option.some.inj hb
    exact ⟨_, rfl, fun hae => .mk hr hlast hi₁ halone₁ (fun _ => hone hae)⟩
  | some b₁ =>
    obtain ⟨q, hq, hqb, hbq⟩ : ∃ q ∈ l, q.1 = b₁.1 ∧ b₁.2 ∈ q.2.rest := by simpa using hbest
    have hbi : b₁.1 ≠ i := by
      rintro rfl
      exact hi (hqb ▸ List.mem_map_of_mem hq)
    simp only [select, MapIterator.ofList] at hp ⊢
    split_ifs at hp ⊢ with hlt heq
    · simp only [Option.map_some, Option.some.injEq, Prod.mk.injEq] at hp
      obtain ⟨rfl, rfl⟩ := hp
      obtain rfl := Option.some.inj hb
      exact ⟨_, rfl, fun hae => .mk hr hlast hi₁ halone₁ (fun _ => hone hae)⟩
    · simp only [MapIterator.next, Bool.false_eq_true, and_false, if_false, List.tail_cons, Option.bind_some,
        Option.map_some, Option.some.injEq, Prod.mk.injEq] at hp
      obtain ⟨rfl, rfl⟩ := hp
      obtain rfl := Option.some.inj hb
      -- the key of the cut iterator is skipped, so it is not its last one
      have hlen : (a :: r).length ≠ 1 := hone (fun hal => halone (he (heq ▸ hal)) q hq _ hbq (heq ▸ hal))
      obtain ⟨hpre, hlast', hnil, hnil'⟩ := cut_next hr hlast hlen
      rw [MapIterator.next, if_neg (fun hc => hlen hc.1)]
      simp only [List.tail_cons, Option.bind_some, Option.map_some, if_neg hnil, if_neg hnil']
      exact ⟨_, rfl, fun _ => .mk hpre hlast' hi₁ halone₁ (fun hc => absurd (Option.some.inj hc) hbi)⟩
    · simp only [Option.map_some, Option.some.injEq, Prod.mk.injEq] at hp
      obtain ⟨rfl, rfl⟩ := hp
      obtain rfl := Option.some.inj hb
      exact ⟨_, rfl, fun _ => .mk hr hlast hi₁ halone₁ (fun hc => absurd (Option.some.inj hc) hbi)⟩

/-- The keys that a merge returns before it steps over the last one of the cut iterator. -/
def Before (last : Bytes) (alone : Prop) (k : Bytes) : Prop := k < last ∨ (alone ∧ k = last)

instance [Decidable alone] (k : Bytes) : Decidable (Before last alone k) := inferInstanceAs (Decidable (_ ∨ _))

theorem Before.le {k : Bytes} (h : Before last alone k) : k ≤ last := h.elim le_of_lt (fun h => h.2.le)

theorem Before.of_le {k k' : Bytes} (h : Before last alone k) (hk : k' ≤ k) : Before last alone k' := by
  rcases h with h | ⟨ha, rfl⟩
  · exact Or.inl (hk.trans_lt h)
  · exact hk.lt_or_eq.imp id (fun heq => ⟨ha, heq⟩)

theorem collect_zero (fuel : Nat) (m : MapMerger ι) : MapMerger.collect fuel 0 m = some [] := by
  cases fuel <;> rfl

theorem before_of_live [Decidable alone] {e : MapEntry} {es : List MapEntry}
    (hsorted : (e :: es).Pairwise (fun p q => p.1 < q.1))
    (hlive : 0 < (live ((e :: es).filter (fun x => decide (Before last alone x.1)))).length) : Before last alone e.1 := by
  by_contra hc
  have hnone : (e :: es).filter (fun x => decide (Before last alone x.1)) = [] := by
    rw [List.filter_eq_nil_iff]
    intro x hx hb
    have hle : e.1 ≤ x.1 := by
      rcases List.mem_cons.mp hx with rfl | hx
      · exact le_rfl
      · exact (List.rel_of_pairwise_cons hsorted hx).le
    exact hc ((of_decide_eq_true hb).of_le hle)
  rw [hnone] at hlive
  exact Nat.lt_irrefl 0 hlive

theorem filter_before_of_last [Decidable alone] {e : MapEntry} {es : List MapEntry}
    (hsorted : (e :: es).Pairwise (fun p q => p.1 < q.1)) (hlast : e.1 = last) :
    es.filter (fun x => decide (Before last alone x.1)) = [] := by
  rw [List.filter_eq_nil_iff]
  intro x hx hb
  exact (hlast ▸ List.rel_of_pairwise_cons hsorted hx).not_ge (of_decide_eq_true hb).le

/-- A merge of which the fault comes after enough live entries returns them. -/
theorem Cut.collect [Decidable alone] (h : Cut i last alone m m') (hm : Merging m' c) {fuel count : Nat}
    (hf : (c.entries.filter (fun e => decide (e.1 ≤ last))).length < fuel)
    (hcount : count ≤ (live (c.entries.filter (fun e => decide (Before last alone e.1)))).length) :
    collect fuel count m = some ((live c.entries).take count) := by
  induction fuel generalizing m m' c count with
  | zero => exact absurd hf (Nat.not_lt_zero _)
  | succ fuel ih =>
    cases count with
    | zero => rfl
    | succ count =>
      have hnext := hm.next
      match hent : c.entries with
      | [] => simp [hent] at hcount
      | e :: es =>
        rw [hent] at hnext hf hcount
        obtain ⟨x', hx', hrest⟩ := hnext
        have hsorted : (e :: es).Pairwise (fun p q => p.1 < q.1) := hent ▸ c.sorted
        have hbefore : Before last alone e.1 := before_of_live hsorted (Nat.zero_lt_of_lt hcount)
        obtain ⟨x, hx, hcut⟩ := h.next hx' (fun heq => (hbefore.resolve_left heq.not_lt).1)
        by_cases hlast : e.1 = last
        · -- the last entry that can be returned
          rw [List.filter_cons_of_pos (by simpa using hbefore), filter_before_of_last hsorted hlast] at hcount
          cases hd : e.2.isDeleteMarker with
          | true => simp [live_cons_of_marker hd] at hcount
          | false =>
            obtain rfl : count = 0 := by
              rw [live_cons_of_data hd, live_nil, List.length_singleton] at hcount
              omega
            simp [MapMerger.collect, hx, hd, collect_zero, live_cons_of_data]
        · let c' : SortedMap Bytes MapItem := { entries := es, sorted := hsorted.of_cons }
          rw [List.filter_cons_of_pos (by simpa using hbefore)] at hcount
          rw [List.filter_cons_of_pos (by simpa using hbefore.le), List.length_cons] at hf
          have ih' {n : Nat} (hn : n ≤ (live (es.filter (fun e => decide (Before last alone e.1)))).length) :
              MapMerger.collect fuel n x = some ((live es).take n) :=
            ih (hcut hlast) (hrest c' rfl) (by simpa [c'] using hf) hn
          cases hd : e.2.isDeleteMarker with
          | true =>
            rw [live_cons_of_marker hd] at hcount
            rw [live_cons_of_marker hd, ← ih' hcount]
            simp [MapMerger.collect, hx, hd]
          | false =>
            rw [live_cons_of_data hd, List.length_cons] at hcount
            simp [MapMerger.collect, hx, hd, live_cons_of_data hd, ih' (Nat.le_of_succ_le_succ hcount)]

/-- Three lists in key order, the last one with a fault in it, are merged into their union up to that fault. -/
theorem collect_three_cut {i₁ i₂ i₃ : ι} (hi : [i₁, i₂, i₃].Nodup) {a b c pre : List MapEntry}
    (ha : a.Pairwise (fun p q => p.1 < q.1)) (hb : b.Pairwise (fun p q => p.1 < q.1))
    (hc : c.Pairwise (fun p q => p.1 < q.1)) (hpre : pre <+: c) (hlast : pre.getLast?.map Prod.fst = some last)
    [Decidable alone] (halone : alone → (∀ e ∈ a, e.1 ≠ last) ∧ ∀ e ∈ b, e.1 ≠ last) {count : Nat}
    (hcount : count ≤ (live ((unionOf ha hb hc).entries.filter (fun e => decide (Before last alone e.1)))).length) :
    MapMerger.collect ((three i₁ i₂ i₃ (.ofList a) (.ofList b) { rest := pre, fault := true }).size + 1) count
      (three i₁ i₂ i₃ (.ofList a) (.ofList b) { rest := pre, fault := true }) =
    some ((live (unionOf ha hb hc).entries).take count) := by
  have hne : pre ≠ [] := by
    rintro rfl
    simp at hlast
  have hne' : c ≠ [] := by
    rintro rfl
    exact hne (List.prefix_nil.mp hpre)
  have hcut : Cut i₃ last alone (three i₁ i₂ i₃ (.ofList a) (.ofList b) { rest := pre, fault := true })
      (three i₁ i₂ i₃ (.ofList a) (.ofList b) (.ofList c)) := by
    rw [three_of_ne_nil hne, three_of_ne_nil hne']
    refine .mk hpre hlast ?_ ?_ (by simp)
    · simp only [List.nodup_cons, List.mem_cons, List.not_mem_nil, or_false, not_or] at hi
      intro hc
      obtain ⟨p, hp, rfl⟩ := List.mem_map.mp hc
      have hp := List.mem_of_mem_filter hp
      simp only [List.mem_cons, List.not_mem_nil, or_false] at hp
      rcases hp with rfl | rfl
      · exact hi.1.2 rfl
      · exact hi.2.1 rfl
    · intro h p hp
      have hp := List.mem_of_mem_filter hp
      simp only [List.mem_cons, List.not_mem_nil, or_false] at hp
      rcases hp with rfl | rfl
      · exact (halone h).1
      · exact (halone h).2
  rw [three_size]
  exact hcut.collect (three_merging hi ha hb hc) (Nat.lt_succ_of_le (unionOf_below_length ha hb hc hpre hlast)) hcount

end MapMerger

end RaleighSL.Zcl
