import RaleighSL.Zcl.ByteSlice
import RaleighSL.Library.Run
import Mathlib.Data.List.Perm.Basic

/-!
# The merger of any iterators

`zcl/tools/map/map-merger.c` with its flag `skip_equals`. An iterator is what it has left from
its current entry on. One pass over the merge list chooses the smallest current entry, and with
the flag it steps the iterators whose entry is equal to the smallest one so far.

The keys are compared by `z_byte_slice_compare`. As long as it does not mistake a key for a
greater one because that is much shorter, the merger gives the sorted union of its iterators, and
with the flag every key once, with the entry of the iterator that was added first.
-/
namespace RaleighSL.Zcl
open RaleighSL.Library

/-- `z_map_merger_t`, with the iterators named. -/
structure Merger (ι : Type*) where
  mergeList : List (ι × List MapEntry)
  smallestIter : Option ι
  skipEquals : Bool

namespace Merger

variable {ι : Type*}

/-- `z_map_merger_open`, with the flag as its owner sets it. -/
def «open» (skipEquals : Bool) : Merger ι := { mergeList := [], smallestIter := none, skipEquals := skipEquals }

/-- `z_map_merger_add`. An iterator without a current entry is refused. -/
def add (m : Merger ι) (i : ι) (iter : List MapEntry) : Merger ι :=
  if iter = [] then m else { m with mergeList := m.mergeList ++ [(i, iter)] }

def advance [DecidableEq ι] (i : ι) : List (ι × List MapEntry) → List (ι × List MapEntry)
  | [] => []
  | p :: l =>
    if p.1 = i then if p.2.tail = [] then l else (i, p.2.tail) :: l
    else p :: advance i l

def stepped [DecidableEq ι] (m : Merger ι) : List (ι × List MapEntry) :=
  match m.smallestIter with
  | none => m.mergeList
  | some i => advance i m.mergeList

/-- The pass over the merge list, with the smallest entry so far. An iterator without an entry does not pass the
assertion. -/
def select (skipEquals : Bool) : Option (ι × MapEntry) → List (ι × List MapEntry) →
    Option (List (ι × List MapEntry) × Option (ι × MapEntry))
  | best, [] => some ([], best)
  | _, (_, []) :: _ => none
  | none, (i, e :: r) :: l => (select skipEquals (some (i, e)) l).map (fun q => ((i, e :: r) :: q.1, q.2))
  | some b, (i, e :: r) :: l =>
    if sliceCompare e.1 b.2.1 < 0 then (select skipEquals (some (i, e)) l).map (fun q => ((i, e :: r) :: q.1, q.2))
    else if sliceCompare e.1 b.2.1 = 0 ∧ skipEquals then
      (select skipEquals (some b) l).map (fun q => (if r = [] then q.1 else (i, r) :: q.1, q.2))
    else (select skipEquals (some b) l).map (fun q => ((i, e :: r) :: q.1, q.2))

/-- `z_map_merger_next`. -/
def next [DecidableEq ι] (m : Merger ι) : Option (Merger ι × Option MapEntry) :=
  if m.mergeList = [] then some (m, none)
  else
    (select m.skipEquals none m.stepped).map (fun q =>
      ({ mergeList := q.1, smallestIter := q.2.map Prod.fst, skipEquals := m.skipEquals }, q.2.map Prod.snd))

/-- A merger with the iterators, added in their order and named by it. -/
def ofLists (skipEquals : Bool) (lists : List (List MapEntry)) : Merger Nat :=
  lists.zipIdx.foldl (fun m p => m.add p.2 p.1) (.open skipEquals)

/-! ### What is to be returned -/

/-- The entry of the iterator that was added first of those with the key. -/
def firstWith (lists : List (List MapEntry)) (k : Bytes) : Option MapItem :=
  lists.findSome? (fun l => (l.find? (fun e => e.1 = k)).map Prod.snd)

/-- Every key once, in order, with the entry of the first iterator that has it. -/
structure Union (lists : List (List MapEntry)) (out : List MapEntry) : Prop where
  sorted : out.Pairwise (fun e f => e.1 < f.1)
  mem : ∀ k v, (k, v) ∈ out ↔ firstWith lists k = some v

/-- All entries of all iterators, in order. -/
structure MultisetUnion (lists : List (List MapEntry)) (out : List MapEntry) : Prop where
  sorted : out.Pairwise (fun e f => e.1 ≤ f.1)
  perm : out.Perm lists.flatten

/-- The calls of `next` return the entries one after the other, and nothing from then on. -/
def Drains [DecidableEq ι] (m : Merger ι) (out : List MapEntry) : Prop :=
  ∀ n, ∃ m', exec (fun m (_ : Unit) => next m) m (List.replicate n ()) =
    some (m', (out.map some ++ List.replicate n none).take n)

def Merges (skipEquals : Bool) (lists : List (List MapEntry)) : Prop :=
  ∃ out, Drains (ofLists skipEquals lists) out ∧ if skipEquals then Union lists out else MultisetUnion lists out

/-- The comparisons of one pass, each of an entry with the smallest one so far, are not mistaken. -/
def Compared : Option Bytes → List (ι × List MapEntry) → Prop
  | _, [] => True
  | best, (_, []) :: l => Compared best l
  | none, (_, e :: _) :: l => Compared (some e.1) l
  | some b, (_, e :: _) :: l => Comparable e.1 b ∧ Compared (some (min e.1 b)) l

/-- No comparison of any call is mistaken. -/
def Fair [DecidableEq ι] (m : Merger ι) : Prop :=
  ∀ n, Meets (fun m (_ : Unit) => next m) (fun m _ => Compared none m.stepped) m (List.replicate n ())

/-! ### Runs of calls -/

variable [DecidableEq ι] {m m' : Merger ι} {e : MapEntry} {out : List MapEntry} {o : Option MapEntry}

theorem Drains.of_empty (h : m.mergeList = []) : Drains m [] := by
  intro n
  refine ⟨m, ?_⟩
  rw [List.map_nil, List.nil_append, List.take_of_length_le (by simp)]
  induction n with
  | zero => rfl
  | succ n ih => rw [List.replicate_succ, exec_cons, next, if_pos h, Option.bind_some, ih]; rfl

theorem exec_next (h : next m = some (m', o)) (n : Nat) :
    exec (fun m (_ : Unit) => next m) m (List.replicate (n + 1) ()) =
      (exec (fun m (_ : Unit) => next m) m' (List.replicate n ())).map (fun q => (q.1, o :: q.2)) := by
  rw [List.replicate_succ, exec_cons, h, Option.bind_some]

theorem take_replicate_succ (l : List (Option MapEntry)) (n : Nat) :
    (l ++ List.replicate (n + 1) none).take n = (l ++ List.replicate n none).take n := by
  rw [List.replicate_succ', ← List.append_assoc, List.take_append_of_le_length (by simp)]

theorem Drains.cons (h : next m = some (m', some e)) (hd : Drains m' out) : Drains m (e :: out) := by
  intro n
  cases n with
  | zero => exact ⟨m, rfl⟩
  | succ n =>
    obtain ⟨m₁, hexec⟩ := hd n
    refine ⟨m₁, ?_⟩
    rw [exec_next h, hexec, List.map_cons, List.cons_append, List.take_succ_cons, take_replicate_succ]
    rfl

theorem Drains.last (h : next m = some (m', none)) (hempty : m'.mergeList = []) : Drains m [] := by
  intro n
  cases n with
  | zero => exact ⟨m, rfl⟩
  | succ n =>
    obtain ⟨m₁, hexec⟩ := Drains.of_empty hempty n
    refine ⟨m₁, ?_⟩
    rw [exec_next h, hexec]
    simp [List.replicate_succ]

theorem Fair.compared (h : Fair m) : Compared none m.stepped := (h 1).1

theorem Fair.next (h : Fair m) (hnext : Merger.next m = some (m', o)) : Fair m' := by
  intro n
  exact (h (n + 1)).2 m' o hnext

/-! ### What a pass keeps -/

variable {skip : Bool} {l l' : List (ι × List MapEntry)} {best best' : Option (ι × MapEntry)} {i : ι} {r : List MapEntry}

/-- The iterators of a merge list are distinct, have a current entry and increase in their keys, which are slices. -/
structure Listed (l : List (ι × List MapEntry)) : Prop where
  tags : (l.map Prod.fst).Nodup
  nonempty : ∀ p ∈ l, p.2 ≠ []
  sorted : ∀ p ∈ l, p.2.Pairwise (fun e f => e.1 < f.1)
  short : ∀ p ∈ l, ∀ e ∈ p.2, e.1.length < 2 ^ 32

omit [DecidableEq ι] in
theorem Listed.tail {p : ι × List MapEntry} (h : Listed (p :: l)) : Listed l where
  tags := (List.nodup_cons.mp h.tags).2
  nonempty q hq := h.nonempty q (List.mem_cons_of_mem _ hq)
  sorted q hq := h.sorted q (List.mem_cons_of_mem _ hq)
  short q hq := h.short q (List.mem_cons_of_mem _ hq)

theorem advance_sublist (i : ι) (l : List (ι × List MapEntry)) : ((advance i l).map Prod.fst).Sublist (l.map Prod.fst) := by
  induction l with
  | nil => exact List.Sublist.refl _
  | cons p l ih =>
    rw [advance]
    split_ifs with hi htail
    · exact List.sublist_cons_self _ _
    · rw [List.map_cons, List.map_cons, hi]
    · exact ih.cons_cons _

theorem mem_advance {p : ι × List MapEntry} (h : p ∈ advance i l) : ∃ q ∈ l, p.2 <:+ q.2 ∧ (q.2 ≠ [] → p.2 ≠ []) := by
  induction l with
  | nil => cases h
  | cons q l ih =>
    rw [advance] at h
    split_ifs at h with hi htail
    · exact ⟨p, List.mem_cons_of_mem _ h, List.suffix_refl _, id⟩
    · rcases List.mem_cons.mp h with rfl | h
      · exact ⟨q, List.mem_cons_self, List.tail_suffix _, fun _ => htail⟩
      · exact ⟨p, List.mem_cons_of_mem _ h, List.suffix_refl _, id⟩
    · rcases List.mem_cons.mp h with rfl | h
      · exact ⟨p, List.mem_cons_self, List.suffix_refl _, id⟩
      · obtain ⟨q', hq', hp⟩ := ih h
        exact ⟨q', List.mem_cons_of_mem _ hq', hp⟩

theorem Listed.advance (h : Listed l) (i : ι) : Listed (Merger.advance i l) where
  tags := (advance_sublist i l).nodup h.tags
  nonempty p hp := by
    obtain ⟨q, hq, -, hne⟩ := mem_advance hp
    exact hne (h.nonempty q hq)
  sorted p hp := by
    obtain ⟨q, hq, hsuffix, -⟩ := mem_advance hp
    exact (h.sorted q hq).sublist hsuffix.sublist
  short p hp e he := by
    obtain ⟨q, hq, hsuffix, -⟩ := mem_advance hp
    exact h.short q hq e (hsuffix.subset he)

theorem advance_perm (h : Listed l) (hm : (i, e :: r) ∈ l) :
    (l.flatMap Prod.snd).Perm (e :: (Merger.advance i l).flatMap Prod.snd) := by
  induction l with
  | nil => cases hm
  | cons p l ih =>
    rw [Merger.advance]
    by_cases hi : p.1 = i
    · have hp : p = (i, e :: r) := by
        rcases List.mem_cons.mp hm with hm | hm
        · exact hm.symm
        · have hmem : p.1 ∈ l.map Prod.fst := hi ▸ List.mem_map_of_mem hm
          exact absurd hmem (List.nodup_cons.mp h.tags).1
      subst hp
      rw [if_pos rfl]
      split_ifs with htail
      · have hr : r = [] := htail
        rw [hr]
        exact List.Perm.refl _
      · exact List.Perm.refl _
    · have hm' : (i, e :: r) ∈ l := by
        rcases List.mem_cons.mp hm with rfl | hm
        · exact absurd rfl hi
        · exact hm
      rw [if_neg hi, List.flatMap_cons, List.flatMap_cons]
      exact ((ih h.tail hm').append_left p.2).trans List.perm_middle

/-! ### Without the flag -/

omit [DecidableEq ι] in
/-- The pass changes nothing and chooses a smallest entry. -/
theorem select_keep (best : Option (ι × MapEntry)) (h : Listed l) (hbest : ∀ b ∈ best, b.2.1.length < 2 ^ 32)
    (hc : Compared (best.map (fun b => b.2.1)) l) :
    ∃ best', select false best l = some (l, best') ∧
      (best' = best ∨ ∃ i e r, best' = some (i, e) ∧ (i, e :: r) ∈ l) ∧
      (best' = none → best = none ∧ l = []) ∧
      ∀ b ∈ best', (∀ b₀ ∈ best, b.2.1 ≤ b₀.2.1) ∧ ∀ p ∈ l, ∀ e ∈ p.2.head?, b.2.1 ≤ e.1 := by
  induction l generalizing best with
  | nil =>
    refine ⟨best, by cases best <;> rfl, Or.inl rfl, fun hb => ⟨hb, rfl⟩, fun b hb => ⟨?_, by simp⟩⟩
    rintro b₀ hb₀
    rw [Option.mem_unique hb hb₀]
  | cons p l ih =>
    obtain ⟨i, it⟩ := p
    cases it with
    | nil => exact absurd rfl (h.nonempty _ List.mem_cons_self)
    | cons e r =>
      have hshort := h.short _ List.mem_cons_self e List.mem_cons_self
      have hchoose (hle : ∀ b₀ ∈ best, e.1 ≤ b₀.2.1) (hc : Compared (some e.1) l) :
          ∃ best', (select false (some (i, e)) l).map (fun q => ((i, e :: r) :: q.1, q.2)) = some ((i, e :: r) :: l, best') ∧
            (best' = best ∨ ∃ j f s, best' = some (j, f) ∧ (j, f :: s) ∈ (i, e :: r) :: l) ∧
            (best' = none → best = none ∧ (i, e :: r) :: l = []) ∧
            ∀ b ∈ best', (∀ b₀ ∈ best, b.2.1 ≤ b₀.2.1) ∧ ∀ p ∈ (i, e :: r) :: l, ∀ f ∈ p.2.head?, b.2.1 ≤ f.1 := by
        obtain ⟨best', hsel, hfrom, hnone, hmin⟩ := ih (some (i, e)) h.tail (by simpa using hshort) hc
        refine ⟨best', by rw [hsel]; rfl, Or.inr ?_, fun hb => absurd (hnone hb).1 (by simp), fun b hb => ?_⟩
        · rcases hfrom with rfl | ⟨j, f, s, rfl, hm⟩
          · exact ⟨i, e, r, rfl, List.mem_cons_self⟩
          · exact ⟨j, f, s, rfl, List.mem_cons_of_mem _ hm⟩
        · obtain ⟨hless, hheads⟩ := hmin b hb
          have hbe : b.2.1 ≤ e.1 := hless (i, e) rfl
          refine ⟨fun b₀ hb₀ => hbe.trans (hle b₀ hb₀), fun p hp f hf => ?_⟩
          rcases List.mem_cons.mp hp with rfl | hp
          · rw [← Option.some.inj hf]
            exact hbe
          · exact hheads p hp f hf
      cases best with
      | none => exact hchoose (by simp) hc
      | some b =>
        obtain ⟨hcomp, hrest⟩ := hc
        have hneg := hcomp.neg_iff hshort (hbest b rfl)
        rcases lt_or_ge e.1 b.2.1 with hlt | hge
        · rw [select, if_pos (hneg.mpr hlt)]
          rw [min_eq_left hlt.le] at hrest
          exact hchoose (by simpa using hlt.le) hrest
        · rw [min_eq_right hge] at hrest
          obtain ⟨best', hsel, hfrom, hnone, hmin⟩ := ih (some b) h.tail hbest hrest
          rw [select, if_neg (fun hc => hge.not_gt (hneg.mp hc)), if_neg (by simp), hsel]
          refine ⟨best', rfl, ?_, fun hb => absurd (hnone hb).1 (by simp), fun b₁ hb₁ => ?_⟩
          · rcases hfrom with rfl | ⟨j, f, s, rfl, hm⟩
            · exact Or.inl rfl
            · exact Or.inr ⟨j, f, s, rfl, List.mem_cons_of_mem _ hm⟩
          · obtain ⟨hless, hheads⟩ := hmin b₁ hb₁
            refine ⟨hless, fun p hp f hf => ?_⟩
            rcases List.mem_cons.mp hp with rfl | hp
            · rw [← Option.some.inj hf]
              exact (hless b rfl).trans hge
            · exact hheads p hp f hf

/-- The iterator whose entry was returned last is in the list. -/
def Stepping (m : Merger ι) : Prop := ∀ i ∈ m.smallestIter, ∃ e r, (i, e :: r) ∈ m.mergeList

theorem stepped_of_empty (h : m.mergeList = []) : m.stepped = [] := by
  rw [stepped, h]
  cases m.smallestIter <;> rfl

theorem Listed.stepped (h : Listed m.mergeList) : Listed m.stepped := by
  rw [Merger.stepped]
  split
  · exact h
  · exact h.advance _

theorem drains_of_stepped (h : m.stepped = []) : Drains m [] := by
  by_cases hlist : m.mergeList = []
  · exact Drains.of_empty hlist
  · have hnext : Merger.next m = some ({ mergeList := [], smallestIter := none, skipEquals := m.skipEquals }, none) := by
      rw [Merger.next, if_neg hlist, h]
      rfl
    exact Drains.last hnext rfl

/-- All entries of the iterators are returned in order. -/
theorem drains_multiset (m : Merger ι) {n : Nat} (hn : (m.stepped.flatMap Prod.snd).length = n) (h : Listed m.mergeList)
    (hskip : m.skipEquals = false) (hfair : Fair m) :
    ∃ out, Drains m out ∧ out.Pairwise (fun e f => e.1 ≤ f.1) ∧ out.Perm (m.stepped.flatMap Prod.snd) := by
  induction n using Nat.strong_induction_on generalizing m with
  | _ n ih =>
    by_cases hempty : m.stepped = []
    · refine ⟨[], drains_of_stepped hempty, List.Pairwise.nil, ?_⟩
      rw [hempty]
      exact List.Perm.refl _
    · obtain ⟨best', hsel, hfrom, hnone, hmin⟩ := select_keep none h.stepped (by simp) hfair.compared
      rcases hfrom with rfl | ⟨i, e, r, rfl, hm⟩
      · exact absurd (hnone rfl).2 hempty
      have hlist : m.mergeList ≠ [] := fun hc => hempty (stepped_of_empty hc)
      have hnext : Merger.next m = some ({ mergeList := m.stepped, smallestIter := some i, skipEquals := m.skipEquals }, some e) := by
        rw [Merger.next, if_neg hlist, hskip, hsel]
        rfl
      have hperm := advance_perm h.stepped hm
      have hlen := hperm.length_eq
      rw [hn, List.length_cons] at hlen
      obtain ⟨out, hdrains, hsorted, hout⟩ := ih ((Merger.advance i m.stepped).flatMap Prod.snd).length (by omega)
        { mergeList := m.stepped, smallestIter := some i, skipEquals := m.skipEquals } rfl h.stepped hskip
        (hfair.next hnext)
      refine ⟨e :: out, Drains.cons hnext hdrains, List.pairwise_cons.mpr ⟨fun f hf => ?_, hsorted⟩,
        (hout.cons e).trans hperm.symm⟩
      have hmem : f ∈ m.stepped.flatMap Prod.snd := hperm.symm.subset (List.mem_cons_of_mem _ (hout.subset hf))
      obtain ⟨p, hp, hfp⟩ := List.mem_flatMap.mp hmem
      obtain ⟨g, s, hg⟩ := List.exists_cons_of_ne_nil (h.stepped.nonempty p hp)
      have hle : e.1 ≤ g.1 := (hmin (i, e) rfl).2 p hp g (by rw [hg]; rfl)
      have hps := h.stepped.sorted p hp
      rw [hg] at hfp hps
      rcases List.mem_cons.mp hfp with rfl | hfs
      · exact hle
      · exact hle.trans ((List.pairwise_cons.mp hps).1 f hfs).le

/-! ### With the flag -/

/-- The merge list as one of iterators that do not fault. -/
def lift (l : List (ι × List MapEntry)) : List (ι × MapIterator) := l.map (fun p => (p.1, .ofList p.2))

def toMap (m : Merger ι) : MapMerger ι := { iters := lift m.mergeList, smallest := m.smallestIter }

theorem advance_lift (i : ι) (l : List (ι × List MapEntry)) : MapMerger.advance i (lift l) = some (lift (advance i l)) := by
  induction l with
  | nil => rfl
  | cons p l ih =>
    rw [lift, List.map_cons, MapMerger.advance, advance]
    by_cases hi : p.1 = i
    · rw [if_pos hi, if_pos hi, MapIterator.next_ofList, Option.map_some]
      have hrest : (MapIterator.ofList p.2.tail).rest = p.2.tail := rfl
      rw [hrest]
      by_cases htail : p.2.tail = []
      · rw [if_pos htail, if_pos htail]
        rfl
      · rw [if_neg htail, if_neg htail]
        rfl
    · rw [if_neg hi, if_neg hi]
      have ih' : MapMerger.advance i (l.map (fun p => (p.1, MapIterator.ofList p.2))) = some (lift (advance i l)) := ih
      rw [ih']
      rfl

omit [DecidableEq ι] in
theorem lift_cons (i : ι) (it : List MapEntry) (l : List (ι × List MapEntry)) :
    lift ((i, it) :: l) = (i, .ofList it) :: lift l := rfl

omit [DecidableEq ι] in
theorem select_ofList (b : ι × MapEntry) (i : ι) (e : MapEntry) (r : List MapEntry) (l : List (ι × MapIterator)) :
    MapMerger.select (some b) ((i, .ofList (e :: r)) :: l) =
      if e.1 < b.2.1 then (MapMerger.select (some (i, e)) l).map (fun q => ((i, .ofList (e :: r)) :: q.1, q.2))
      else if e.1 = b.2.1 then
        (MapMerger.select (some b) l).map (fun q => (if r = [] then q.1 else (i, .ofList r) :: q.1, q.2))
      else (MapMerger.select (some b) l).map (fun q => ((i, .ofList (e :: r)) :: q.1, q.2)) := by
  have hnext : MapIterator.next { rest := e :: r, fault := false } = some { rest := r, fault := false } :=
    MapIterator.next_ofList (e :: r)
  rw [MapMerger.select.eq_def]
  dsimp only [MapIterator.ofList]
  rw [hnext, Option.bind_some]

omit [DecidableEq ι] in
/-- A pass in which no comparison is mistaken is the one by the order of the keys. -/
theorem select_lift (best : Option (ι × MapEntry)) (h : ∀ p ∈ l, ∀ e ∈ p.2, e.1.length < 2 ^ 32)
    (hbest : ∀ b ∈ best, b.2.1.length < 2 ^ 32) (hc : Compared (best.map (fun b => b.2.1)) l) :
    MapMerger.select best (lift l) = (select true best l).map (fun q => (lift q.1, q.2)) := by
  induction l generalizing best with
  | nil => cases best <;> rfl
  | cons p l ih =>
    obtain ⟨i, it⟩ := p
    cases it with
    | nil => cases best <;> rfl
    | cons e r =>
      have hrest : ∀ p ∈ l, ∀ e ∈ p.2, e.1.length < 2 ^ 32 := fun p hp => h p (List.mem_cons_of_mem _ hp)
      have hshort := h _ List.mem_cons_self e List.mem_cons_self
      have hchoose (hc : Compared (some e.1) l) :
          (MapMerger.select (some (i, e)) (lift l)).map (fun q => ((i, MapIterator.ofList (e :: r)) :: q.1, q.2)) =
            ((select true (some (i, e)) l).map (fun q => ((i, e :: r) :: q.1, q.2))).map (fun q => (lift q.1, q.2)) := by
        rw [ih (some (i, e)) hrest (by simpa using hshort) hc, Option.map_map, Option.map_map]
        rfl
      cases best with
      | none => exact hchoose hc
      | some b =>
        obtain ⟨hcomp, hc⟩ := hc
        have hb := hbest b rfl
        have hneg := hcomp.neg_iff hshort hb
        have hzero := sliceCompare_eq_zero hshort hb
        have hkeep (hc : Compared (some b.2.1) l) := ih (some b) hrest hbest hc
        rw [lift_cons, select_ofList, select]
        rcases lt_trichotomy e.1 b.2.1 with hlt | heq | hgt
        · rw [if_pos hlt, if_pos (hneg.mpr hlt)]
          rw [min_eq_left hlt.le] at hc
          exact hchoose hc
        · have hge : ¬ e.1 < b.2.1 := heq.not_lt
          rw [min_eq_right heq.ge] at hc
          rw [if_neg hge, if_pos heq, if_neg (fun hc => hge (hneg.mp hc)), if_pos ⟨hzero.mpr heq, rfl⟩, hkeep hc,
            Option.map_map, Option.map_map]
          congr 1
          funext q
          by_cases hr : r = []
          · simp [hr]
          · simp [hr, lift_cons]
        · rw [min_eq_right hgt.le] at hc
          rw [if_neg hgt.not_gt, if_neg hgt.ne', if_neg (fun hc => hgt.not_gt (hneg.mp hc)),
            if_neg (fun hc => hgt.ne' (hzero.mp hc.1)), hkeep hc, Option.map_map, Option.map_map]
          rfl

omit [DecidableEq ι] in
/-- What is left in the iterators behind a pass was there before. -/
theorem select_forall {P : MapEntry → Prop} (best : Option (ι × MapEntry)) (h : ∀ p ∈ l, ∀ e ∈ p.2, P e)
    (hsel : select skip best l = some (l', best')) : ∀ p ∈ l', ∀ e ∈ p.2, P e := by
  induction l generalizing best l' best' with
  | nil =>
    have hl' : l' = [] := by
      cases best <;> exact (Prod.mk.inj (Option.some.inj hsel)).1.symm
    rw [hl']
    simp
  | cons p l ih =>
    obtain ⟨i, it⟩ := p
    have hrest : ∀ p ∈ l, ∀ e ∈ p.2, P e := fun p hp => h p (List.mem_cons_of_mem _ hp)
    have hit : ∀ e ∈ it, P e := h _ List.mem_cons_self
    have hcons {it' : List MapEntry} {best₁ : Option (ι × MapEntry)} (hit' : ∀ e ∈ it', P e)
        (hmap : (select skip best₁ l).map (fun q => ((i, it') :: q.1, q.2)) = some (l', best')) :
        ∀ p ∈ l', ∀ e ∈ p.2, P e := by
      obtain ⟨⟨l₁, b₁⟩, h₁, heq⟩ := Option.map_eq_some_iff.mp hmap
      rw [← (Prod.mk.inj heq).1]
      intro p hp
      rcases List.mem_cons.mp hp with rfl | hp
      · exact hit'
      · exact ih best₁ hrest h₁ p hp
    cases it with
    | nil => cases best <;> cases hsel
    | cons e r =>
      cases best with
      | none => exact hcons hit hsel
      | some b =>
        rw [select] at hsel
        split_ifs at hsel with hlt heq hr
        · exact hcons hit hsel
        · obtain ⟨⟨l₁, b₁⟩, h₁, hl₁⟩ := Option.map_eq_some_iff.mp hsel
          rw [← (Prod.mk.inj hl₁).1]
          exact ih (some b) hrest h₁
        · exact hcons (fun f hf => hit f (List.mem_cons_of_mem _ hf)) hsel
        · exact hcons hit hsel

omit [DecidableEq ι] in
theorem select_some (b : ι × MapEntry) (hsel : select skip (some b) l = some (l', best')) : best' ≠ none := by
  induction l generalizing b l' best' with
  | nil =>
    rw [← (Prod.mk.inj (Option.some.inj hsel)).2]
    simp
  | cons p l ih =>
    obtain ⟨i, it⟩ := p
    have hmap {b₁ : ι × MapEntry}
        {f : List (ι × List MapEntry) × Option (ι × MapEntry) → List (ι × List MapEntry) × Option (ι × MapEntry)}
        (h : (select skip (some b₁) l).map f = some (l', best')) (hf : ∀ q, (f q).2 = q.2) : best' ≠ none := by
      obtain ⟨⟨l₁, b₂⟩, h₁, heq⟩ := Option.map_eq_some_iff.mp h
      have hb : b₂ = best' := (hf (l₁, b₂)).symm.trans (congrArg Prod.snd heq)
      rw [← hb]
      exact ih b₁ h₁
    cases it with
    | nil => cases hsel
    | cons e r =>
      rw [select] at hsel
      split_ifs at hsel
      all_goals exact hmap hsel (fun _ => rfl)

omit [DecidableEq ι] in
theorem select_none (hsel : select skip none l = some (l', none)) : l' = [] := by
  cases l with
  | nil => exact (Prod.mk.inj (Option.some.inj hsel)).1.symm
  | cons p l =>
    obtain ⟨i, it⟩ := p
    cases it with
    | nil => cases hsel
    | cons e r =>
      obtain ⟨⟨l₁, b₁⟩, h₁, heq⟩ := Option.map_eq_some_iff.mp hsel
      exact absurd (Prod.mk.inj heq).2 (select_some (i, e) h₁)

theorem stepped_forall {P : MapEntry → Prop} (h : ∀ p ∈ m.mergeList, ∀ e ∈ p.2, P e) :
    ∀ p ∈ m.stepped, ∀ e ∈ p.2, P e := by
  rw [stepped]
  split
  · exact h
  · intro p hp e he
    obtain ⟨q, hq, hsuffix, -⟩ := mem_advance hp
    exact h q hq e (hsuffix.subset he)

theorem next_forall {P : MapEntry → Prop} (h : ∀ p ∈ m.mergeList, ∀ e ∈ p.2, P e) (hnext : Merger.next m = some (m', o)) :
    ∀ p ∈ m'.mergeList, ∀ e ∈ p.2, P e := by
  rw [Merger.next] at hnext
  split_ifs at hnext
  · rw [← (Prod.mk.inj (Option.some.inj hnext)).1]
    exact h
  · obtain ⟨⟨l₁, b₁⟩, hsel, heq⟩ := Option.map_eq_some_iff.mp hnext
    rw [← (Prod.mk.inj heq).1]
    exact select_forall none (stepped_forall h) hsel

theorem next_skipEquals (hnext : Merger.next m = some (m', o)) : m'.skipEquals = m.skipEquals := by
  rw [Merger.next] at hnext
  split_ifs at hnext
  · rw [← (Prod.mk.inj (Option.some.inj hnext)).1]
  · obtain ⟨⟨l₁, b₁⟩, hsel, heq⟩ := Option.map_eq_some_iff.mp hnext
    rw [← (Prod.mk.inj heq).1]

theorem Drains.of_none (hnext : Merger.next m = some (m', none)) : Drains m [] := by
  have hstep := hnext
  rw [Merger.next] at hnext
  split_ifs at hnext with hempty
  · exact Drains.of_empty hempty
  · obtain ⟨⟨l₁, b₁⟩, hsel, heq⟩ := Option.map_eq_some_iff.mp hnext
    obtain ⟨hm', hb⟩ := Prod.mk.inj heq
    obtain rfl : b₁ = none := Option.map_eq_none_iff.mp hb
    refine Drains.last hstep ?_
    rw [← hm']
    exact select_none hsel

/-- A call in which no comparison is mistaken is the one by the order of the keys. -/
theorem next_lift (hskip : m.skipEquals = true) (h : ∀ p ∈ m.mergeList, ∀ e ∈ p.2, e.1.length < 2 ^ 32)
    (hc : Compared none m.stepped) : (toMap m).next = (Merger.next m).map (fun r => (toMap r.1, r.2)) := by
  have hstepped : (toMap m).stepped = some (lift m.stepped) := by
    rw [MapMerger.stepped, stepped]
    show (match m.smallestIter with | none => some (lift m.mergeList) | some i => MapMerger.advance i (lift m.mergeList)) = _
    cases m.smallestIter with
    | none => rfl
    | some i => exact advance_lift i m.mergeList
  have hselect := select_lift none (stepped_forall h) (by simp) hc
  rw [MapMerger.next, Merger.next]
  by_cases hempty : m.mergeList = []
  · have hiters : (toMap m).iters = [] := by
      show lift m.mergeList = []
      rw [hempty]
      rfl
    rw [if_pos hempty, if_pos hiters]
    rfl
  · have hiters : (toMap m).iters ≠ [] := fun hc => hempty (List.map_eq_nil_iff.mp hc)
    rw [if_neg hempty, if_neg hiters, hstepped, Option.bind_some, hselect, Option.map_map, Option.map_map, hskip]
    rfl

/-- Every key is returned once, with the entry of the first iterator that has it. -/
theorem drains_union (es : List MapEntry) (m : Merger ι) (c : SortedMap Bytes MapItem) (hes : c.entries = es)
    (hm : MapMerger.Merging (toMap m) c) (h : ∀ p ∈ m.mergeList, ∀ e ∈ p.2, e.1.length < 2 ^ 32)
    (hskip : m.skipEquals = true) (hfair : Fair m) : Drains m es := by
  induction es generalizing m c with
  | nil =>
    have hnext := hm.next
    rw [hes] at hnext
    obtain ⟨m₁, hnext⟩ := hnext
    rw [next_lift hskip h hfair.compared] at hnext
    obtain ⟨⟨m', o⟩, hnext, heq⟩ := Option.map_eq_some_iff.mp hnext
    obtain rfl : o = none := (Prod.mk.inj heq).2
    exact Drains.of_none hnext
  | cons e es ih =>
    have hnext := hm.next
    have hsorted := c.sorted
    rw [hes] at hnext hsorted
    obtain ⟨m₁, hlift, hmerging⟩ := hnext
    rw [next_lift hskip h hfair.compared] at hlift
    obtain ⟨⟨m', o⟩, hcall, heq⟩ := Option.map_eq_some_iff.mp hlift
    obtain ⟨rfl, rfl⟩ := Prod.mk.inj heq
    exact Drains.cons hcall (ih m' { entries := es, sorted := (List.pairwise_cons.mp hsorted).2 } rfl (hmerging _ rfl)
      (next_forall h hcall) ((next_skipEquals hcall).trans hskip) (hfair.next hcall))

/-! ### Mergers of lists -/

theorem ofLists_mergeList (skip : Bool) (lists : List (List MapEntry)) : (ofLists skip lists).mergeList =
    (lists.zipIdx.map Prod.swap).filter (fun p => p.2 ≠ []) ∧ (ofLists skip lists).smallestIter = none ∧
      (ofLists skip lists).skipEquals = skip := by
  have hfold (l : List (List MapEntry × Nat)) (m : Merger Nat) :
      l.foldl (fun m p => m.add p.2 p.1) m =
        { m with mergeList := m.mergeList ++ (l.map Prod.swap).filter (fun p => p.2 ≠ []) } := by
    induction l generalizing m with
    | nil => simp
    | cons p l ih =>
      rw [List.foldl_cons, ih, add, List.map_cons]
      by_cases hp : p.1 = []
      · simp [hp]
      · simp [hp]
        rfl
  rw [ofLists, hfold]
  exact ⟨rfl, rfl, rfl⟩

theorem ofLists_listed (skip : Bool) {lists : List (List MapEntry)} (hsort : ∀ l ∈ lists, l.Pairwise (fun e f => e.1 < f.1))
    (hshort : ∀ l ∈ lists, ∀ e ∈ l, e.1.length < 2 ^ 32) : Listed (ofLists skip lists).mergeList := by
  have hmem (p : Nat × List MapEntry) (hp : p ∈ (ofLists skip lists).mergeList) : p.2 ∈ lists ∧ p.2 ≠ [] := by
    rw [(ofLists_mergeList skip lists).1] at hp
    obtain ⟨hp, hne⟩ := List.mem_filter.mp hp
    obtain ⟨q, hq, rfl⟩ := List.mem_map.mp hp
    exact ⟨List.fst_mem_of_mem_zipIdx hq, by simpa using hne⟩
  refine ⟨?_, fun p hp => (hmem p hp).2, fun p hp => hsort _ (hmem p hp).1, fun p hp => hshort _ (hmem p hp).1⟩
  have hnodup : ((lists.zipIdx.map Prod.swap).map Prod.fst).Nodup := by
    rw [List.map_map]
    have hsnd : (Prod.fst ∘ Prod.swap : List MapEntry × Nat → Nat) = Prod.snd := rfl
    rw [hsnd, List.zipIdx_map_snd]
    exact List.nodup_range'
  rw [(ofLists_mergeList skip lists).1]
  exact (List.filter_sublist.map _).nodup hnodup

theorem ofLists_flatMap (skip : Bool) (lists : List (List MapEntry)) :
    (ofLists skip lists).stepped.flatMap Prod.snd = lists.flatten := by
  obtain ⟨hlist, hsmallest, -⟩ := ofLists_mergeList skip lists
  have hfilter (l : List (Nat × List MapEntry)) :
      (l.filter (fun p => p.2 ≠ [])).flatMap Prod.snd = (l.map Prod.snd).flatten := by
    induction l with
    | nil => rfl
    | cons p l ih =>
      by_cases hp : p.2 = []
      · simpa [hp] using ih
      · simpa [hp] using ih
  rw [stepped, hsmallest, hlist, hfilter, List.map_map]
  have hfst : (Prod.snd ∘ Prod.swap : List MapEntry × Nat → List MapEntry) = Prod.fst := rfl
  rw [hfst, List.zipIdx_map_fst]

theorem firstWith_cons (l : List MapEntry) (lists : List (List MapEntry)) (k : Bytes) :
    firstWith (l :: lists) k = (MapMerger.find (.ofList l) k).or (firstWith lists k) := by
  have hfind : MapMerger.find (.ofList l) k = (l.find? (fun e => e.1 = k)).map Prod.snd := rfl
  rw [firstWith, List.findSome?_cons, ← hfind]
  cases MapMerger.find (.ofList l) k <;> rfl

theorem lookupIn_ofLists (skip : Bool) (lists : List (List MapEntry)) (k : Bytes) :
    MapMerger.lookupIn (lift (ofLists skip lists).mergeList) k = firstWith lists k := by
  have hlift (l : List (Nat × List MapEntry)) :
      MapMerger.lookupIn (lift (l.filter (fun p => p.2 ≠ []))) k = firstWith (l.map Prod.snd) k := by
    induction l with
    | nil => rfl
    | cons p l ih =>
      rw [List.map_cons, firstWith_cons, ← ih]
      by_cases hp : p.2 = []
      · have hnone : MapMerger.find (.ofList p.2) k = none := by
          rw [hp]
          rfl
        rw [List.filter_cons_of_neg (by simpa using hp), hnone, Option.none_or]
      · rw [List.filter_cons_of_pos (by simpa using hp)]
        rfl
  have hfst : (Prod.snd ∘ Prod.swap : List MapEntry × Nat → List MapEntry) = Prod.fst := rfl
  rw [(ofLists_mergeList skip lists).1, hlift, List.map_map, hfst, List.zipIdx_map_fst]

/-- There is a map with the entries to be returned. -/
theorem exists_union {lists : List (List MapEntry)} (hsort : ∀ l ∈ lists, l.Pairwise (fun e f => e.1 < f.1)) :
    ∃ c : SortedMap Bytes MapItem, ∀ k, c.lookup k = firstWith lists k := by
  induction lists with
  | nil => exact ⟨.empty, fun k => rfl⟩
  | cons l lists ih =>
    obtain ⟨c, hc⟩ := ih fun l hl => hsort l (List.mem_cons_of_mem _ hl)
    have hl := hsort l List.mem_cons_self
    refine ⟨(MapMerger.mapOf l hl).union c, fun k => ?_⟩
    rw [SortedMap.lookup_union, hc, ← MapMerger.find_ofList l hl, firstWith_cons]

/-! ### Keys that are never mistaken -/

omit [DecidableEq ι] in
theorem compared_of_short (best : Option Bytes) (hbest : ∀ b ∈ best, b.length < 2 ^ 31)
    (h : ∀ p ∈ l, ∀ e ∈ p.2, e.1.length < 2 ^ 31) : Compared best l := by
  induction l generalizing best with
  | nil => cases best <;> trivial
  | cons p l ih =>
    obtain ⟨i, it⟩ := p
    have hrest : ∀ p ∈ l, ∀ e ∈ p.2, e.1.length < 2 ^ 31 := fun p hp => h p (List.mem_cons_of_mem _ hp)
    cases it with
    | nil => cases best <;> exact ih _ hbest hrest
    | cons e r =>
      have he := h _ List.mem_cons_self e List.mem_cons_self
      cases best with
      | none => exact ih (some e.1) (by simpa using he) hrest
      | some b =>
        have hb := hbest b rfl
        refine ⟨⟨fun hc => ?_, fun hc => ?_⟩, ih _ ?_ hrest⟩
        · have hfar := hc.2
          omega
        · have hfar := hc.2
          omega
        · rintro _ ⟨⟩
          rcases le_total e.1 b with hle | hle
          · rw [min_eq_left hle]
            exact he
          · rw [min_eq_right hle]
            exact hb

/-- Keys of less than `2 ^ 31` bytes are never mistaken. -/
theorem fair_of_short (m : Merger ι) (h : ∀ p ∈ m.mergeList, ∀ e ∈ p.2, e.1.length < 2 ^ 31) : Fair m := by
  intro n
  induction n generalizing m with
  | zero => trivial
  | succ n ih => exact ⟨compared_of_short none (by simp) (stepped_forall h), fun m' o hnext => ih m' (next_forall h hnext)⟩

/-- The merger of iterators that increase in their keys returns their sorted union, if it is asked to skip equal
keys with the entry of the iterator that was added first, as long as no comparison takes a key for a greater one
because it is much shorter. -/
theorem merges_of_fair (skip : Bool) {lists : List (List MapEntry)} (hsort : ∀ l ∈ lists, l.Pairwise (fun e f => e.1 < f.1))
    (hshort : ∀ l ∈ lists, ∀ e ∈ l, e.1.length < 2 ^ 32) (hfair : Fair (ofLists skip lists)) : Merges skip lists := by
  have hlisted := ofLists_listed skip hsort hshort
  obtain ⟨-, hsmallest, hskip⟩ := ofLists_mergeList skip lists
  cases skip with
  | false =>
    obtain ⟨out, hdrains, hsorted, hperm⟩ := drains_multiset _ rfl hlisted hskip hfair
    rw [ofLists_flatMap] at hperm
    exact ⟨out, hdrains, hsorted, hperm⟩
  | true =>
    obtain ⟨c, hc⟩ := exists_union hsort
    have hmap : toMap (ofLists true lists) = { iters := lift (ofLists true lists).mergeList, smallest := none } := by
      rw [toMap, hsmallest]
    have hmerging : MapMerger.Merging (toMap (ofLists true lists)) c := by
      rw [hmap]
      refine MapMerger.merging_of_ready (fun p hp => ?_) ?_ (fun k => (lookupIn_ofLists true lists k).trans (hc k).symm)
      · obtain ⟨q, hq, rfl⟩ := List.mem_map.mp hp
        exact ⟨hlisted.nonempty q hq, hlisted.sorted q hq, rfl⟩
      · have htags := hlisted.tags
        rw [lift, List.map_map]
        exact htags
    exact ⟨c.entries, drains_union c.entries _ c rfl hmerging hlisted.short hskip hfair, c.sorted,
      fun k v => SortedMap.mem_entries.trans (by rw [hc])⟩

/-- Three iterators with keys in common. -/
theorem merges_of_fair_three : Merges true
    [[([1], ⟨[10], false⟩), ([3], ⟨[30], false⟩)], [([1], ⟨[11], true⟩), ([2], ⟨[21], false⟩)], [([3], ⟨[32], true⟩)]] :=
  merges_of_fair true (by decide) (by decide) (fair_of_short _ (by decide +kernel))

theorem next_greater {a b : MapEntry} (h : sliceCompare b.1 a.1 < 0) :
    ∃ m' : Merger Nat, next (ofLists true [[a], [b]]) = some (m', some b) := by
  refine ⟨{ mergeList := [(0, [a]), (1, [b])], smallestIter := some 1, skipEquals := true }, ?_⟩
  simp [ofLists, add, Merger.open, next, stepped, select, h]

/-- The empty key, and one of more than `2 ^ 31` bytes, which is returned in front of it. -/
theorem longer_key_first : ¬ Merges true [[([], ⟨[], false⟩)], [(List.replicate (2 ^ 31 + 1) 0, ⟨[], false⟩)]] := by
  have hneg : sliceCompare (List.replicate (2 ^ 31 + 1) 0) [] < 0 := by
    rw [sliceCompare_neg (by rw [List.length_replicate]; decide) (by decide), List.length_replicate]
    exact Or.inr ⟨List.nil_prefix, by decide⟩
  generalize hb : List.replicate (2 ^ 31 + 1) (0 : Byte) = b at hneg ⊢
  rintro ⟨out, hdrains, hunion⟩
  obtain ⟨m', hnext⟩ := @next_greater ([], ⟨[], false⟩) (b, ⟨[], false⟩) hneg
  obtain ⟨m₁, hexec⟩ := hdrains 1
  rw [exec_next hnext, List.replicate_zero, exec_nil, Option.map_some] at hexec
  have hhead := (Prod.mk.inj (Option.some.inj hexec)).2
  cases out with
  | nil => simp at hhead
  | cons e out =>
    have he : (b, ⟨[], false⟩) = e := by simpa using hhead
    have hmem := (hunion.mem [] ⟨[], false⟩).mpr (by simp [firstWith])
    rcases List.mem_cons.mp hmem with hmem | hmem
    · rw [← he] at hmem
      rw [← (Prod.mk.inj hmem).1] at hb
      have hlen := congrArg List.length hb
      rw [List.length_replicate, List.length_nil] at hlen
      exact absurd hlen (Nat.succ_ne_zero _)
    · have hlt := (List.pairwise_cons.mp hunion.sorted).1 _ hmem
      exact List.not_lt_nil _ hlt

end Merger
end RaleighSL.Zcl
