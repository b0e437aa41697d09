import RaleighSL.Library.Run
import RaleighSL.Library.SortedMap
import RaleighSL.Zcl.Avl.Shape

/-!
# The balanced tree is a finite map

In a tree whose nodes are in the order of their keys the lookups end at the node with
the key, or at the place between the smaller and the larger ones. The functions of the
plug do what a finite map does, with the bindings listed in key order, and a tree with
fewer nodes than the smallest balanced tree of height 32 never needs more of a stack
than there is.
-/
namespace RaleighSL.Zcl.Avl
open RaleighSL.Library

variable {κ α : Type*} [LinearOrder κ] {key : α → κ}

def Tree.Sorted (key : α → κ) (t : Tree α) : Prop := t.toList.Pairwise (fun a b => key a < key b)

/-- A key belongs to the place of the stack. -/
structure Around (key : α → κ) (k : κ) (stack : List (Frame α)) : Prop where
  left : ∀ a ∈ lefts stack, key a < k
  right : ∀ a ∈ rights stack, k < key a

variable {t t' l r : Tree α} {p x : α} {b : Int} {k : κ} {stack : List (Frame α)}

theorem sorted_node (h : (Tree.node l p b r).Sorted key) :
    l.Sorted key ∧ r.Sorted key ∧ (∀ a ∈ l.toList, key a < key p) ∧ ∀ a ∈ r.toList, key p < key a := by
  rw [Tree.Sorted, Tree.toList, List.pairwise_append, List.pairwise_cons] at h
  obtain ⟨hl, ⟨hpr, hr⟩, hlp⟩ := h
  exact ⟨hl, hr, fun a ha => hlp a ha p List.mem_cons_self, hpr⟩

theorem sorted_split {left right : List α} (h : t.Sorted key) (hlist : t.toList = left ++ p :: right) :
    (∀ a ∈ left, key a < key p) ∧ ∀ a ∈ right, key p < key a := by
  rw [Tree.Sorted, hlist, List.pairwise_append, List.pairwise_cons] at h
  obtain ⟨-, ⟨hright, -⟩, hleft⟩ := h
  exact ⟨fun a ha => hleft a ha p List.mem_cons_self, hright⟩

theorem Around.goRight (h : Around key k stack) (hl : ∀ a ∈ l.toList, key a < key p) (hlt : key p < k) :
    Around key k (⟨p, b, true, l⟩ :: stack) where
  left a ha := by
    simp only [lefts, if_true, List.mem_append, List.mem_singleton] at ha
    obtain ha | ha | rfl := ha
    · exact h.left a ha
    · exact (hl a ha).trans hlt
    · exact hlt
  right a ha := by
    simp only [rights, if_true, List.nil_append] at ha
    exact h.right a ha

theorem Around.goLeft (h : Around key k stack) (hr : ∀ a ∈ r.toList, key p < key a) (hlt : k < key p) :
    Around key k (⟨p, b, false, r⟩ :: stack) where
  left a ha := by
    simp only [lefts, Bool.false_eq_true, if_false, List.append_nil] at ha
    exact h.left a ha
  right a ha := by
    simp only [rights, Bool.false_eq_true, if_false, List.mem_append, List.mem_cons] at ha
    obtain (rfl | ha) | ha := ha
    · exact hlt
    · exact hlt.trans (hr a ha)
    · exact h.right a ha

/-! ### Insertion -/

def Lookup.Found (key : α → κ) (x : α) (t : Tree α) : Lookup α → Prop
  | .equal path l p b r => key p = key x ∧ plugAll path (.node l p b r) = t
  | .slot above below => Counted above below ∧ Around key (key x) (below ++ above) ∧ plugAll (below ++ above) .nil = t

theorem Counted.next {above below : List (Frame α)} (hc : Counted above below) (f : Frame α) :
    Counted (if f.balance ≠ 0 then below ++ above else above) (f :: if f.balance ≠ 0 then [] else below) := by
  by_cases hb : f.balance = 0
  · rw [if_neg (not_not.mpr hb), if_neg (not_not.mpr hb)]
    refine ⟨?_, ?_, by simp⟩
    · intro g hg
      cases below with
      | nil => simp at hg
      | cons g' below =>
        rw [List.dropLast_cons_cons] at hg
        rcases List.mem_cons.mp hg with rfl | hg
        · exact hb
        · exact hc.zero g hg
    · intro g hg
      cases below with
      | nil => exact fun _ => hc.start rfl
      | cons g' below =>
        rw [List.getLast?_cons_cons] at hg
        exact hc.last g hg
  · rw [if_pos hb, if_pos hb]
    refine ⟨by simp, ?_, by simp⟩
    intro g hg hz
    obtain rfl : f = g := by simpa using hg
    exact absurd hz hb

theorem insertLookup_spec {above below : List (Frame α)} {found : Lookup α} (hc : Counted above below)
    (ha : Around key (key x) (below ++ above)) (ht : t.Sorted key) (hs : insertLookup key x t above below = some found) :
    found.Found key x (plugAll (below ++ above) t) := by
  induction t generalizing above below with
  | nil =>
    obtain rfl := Option.some.inj hs
    exact ⟨hc, ha, rfl⟩
  | node l p b r ihl ihr =>
    obtain ⟨hl, hr, hlp, hpr⟩ := sorted_node ht
    rw [insertLookup] at hs
    by_cases heq : key p = key x
    · rw [if_pos heq] at hs
      obtain rfl := Option.some.inj hs
      exact ⟨heq, rfl⟩
    · rw [if_neg heq] at hs
      dsimp only at hs
      have hsame : (if b ≠ 0 then [] else below) ++ (if b ≠ 0 then below ++ above else above) = below ++ above := by
        split_ifs
        · rfl
        · rfl
      have hright := hc.next ⟨p, b, true, l⟩
      have hleft := hc.next ⟨p, b, false, r⟩
      dsimp only at hright hleft
      generalize (if b ≠ 0 then below ++ above else above) = above' at hs hsame hright hleft
      generalize (if b ≠ 0 then [] else below) = below' at hs hsame hright hleft
      split_ifs at hs with hroom hlt
      · have hnext := ihr hright (by rw [List.cons_append, hsame]; exact ha.goRight hlp hlt) hr hs
        rwa [List.cons_append, hsame] at hnext
      · have hgt : key x < key p := lt_of_le_of_ne (not_lt.mp hlt) (Ne.symm heq)
        have hnext := ihl hleft (by rw [List.cons_append, hsame]; exact ha.goLeft hpr hgt) hl hs
        rwa [List.cons_append, hsame] at hnext

theorem insertLookup_isSome {above below : List (Frame α)} (hroom : below.length + t.height < maxHeight) :
    (insertLookup key x t above below).isSome := by
  induction t generalizing above below with
  | nil => rfl
  | node l p b r ihl ihr =>
    simp only [Tree.height] at hroom
    have hle : (if b ≠ 0 then [] else below).length ≤ below.length := by
      split_ifs
      · exact Nat.zero_le _
      · exact le_rfl
    rw [insertLookup]
    by_cases heq : key p = key x
    · rw [if_pos heq]
      rfl
    · rw [if_neg heq]
      dsimp only
      generalize (if b ≠ 0 then below ++ above else above) = above'
      generalize (if b ≠ 0 then [] else below) = below' at hle
      rw [if_pos (by omega)]
      split_ifs
      · exact ihr (by rw [List.length_cons]; omega)
      · exact ihl (by rw [List.length_cons]; omega)

theorem counted_nil : Counted ([] : List (Frame α)) [] := ⟨by simp, by simp, fun _ => rfl⟩

theorem around_nil (key : α → κ) (k : κ) : Around key k [] := ⟨by simp [lefts], by simp [rights]⟩

section

variable [DecidableEq α]

/-- A node is put between the smaller and the larger ones, or in the place of the one with its key. -/
theorem attach_spec {res : Nat} {freed : Option α} (hb : t.Balanced) (ht : t.Sorted key)
    (h : attach key t x = some (t', res, freed)) :
    ∃ left right, (∀ a ∈ left, key a < key x) ∧ (∀ a ∈ right, key x < key a) ∧ t'.Balanced ∧
      t'.toList = left ++ x :: right ∧
      (t.toList = left ++ right ∧ res = 0 ∧ freed = none ∨
        ∃ p, key p = key x ∧ t.toList = left ++ p :: right ∧ res = 1 ∧ freed = if p ≠ x then some p else none) := by
  rw [attach, Option.bind_eq_some_iff] at h
  obtain ⟨found, hfound, h⟩ := h
  have hspec := insertLookup_spec counted_nil (around_nil key (key x)) ht hfound
  cases found with
  | equal path l p b r =>
    obtain ⟨heq, hplug⟩ := hspec
    obtain ⟨rfl, hout⟩ := Prod.mk.inj (Option.some.inj h)
    obtain ⟨rfl, rfl⟩ := Prod.mk.inj hout
    rw [List.nil_append, plugAll] at hplug
    have hlist : t.toList = lefts path ++ l.toList ++ p :: (r.toList ++ rights path) := by
      rw [← hplug, toList_plugAll]
      simp [Tree.toList]
    obtain ⟨hleft, hright⟩ := sorted_split ht hlist
    rw [heq] at hleft hright
    refine ⟨_, _, hleft, hright, ?_, ?_, Or.inr ⟨p, heq, hlist, rfl, rfl⟩⟩
    · rw [← hplug, balanced_plugAll] at hb
      exact balanced_plugAll.mpr hb
    · rw [toList_plugAll]
      simp [Tree.toList]
  | slot above below =>
    obtain ⟨hcount, haround, hplug⟩ := hspec
    rw [Option.map_eq_some_iff] at h
    obtain ⟨t₁, hins, h⟩ := h
    obtain ⟨rfl, hout⟩ := Prod.mk.inj h
    obtain ⟨rfl, rfl⟩ := Prod.mk.inj hout
    rw [List.nil_append, plugAll] at hplug
    have hfits : Fits (below ++ above) 0 := by
      rw [← hplug, balanced_plugAll] at hb
      exact hb.2
    obtain ⟨t₂, hins', hb', hlist'⟩ := doInsert_spec hcount hfits x
    rw [hins] at hins'
    obtain rfl := Option.some.inj hins'
    refine ⟨_, _, haround.left, haround.right, hb', hlist', Or.inl ⟨?_, rfl, rfl⟩⟩
    rw [← hplug, toList_plugAll]
    simp [Tree.toList]

theorem attach_isSome (hb : t.Balanced) (ht : t.Sorted key) (hroom : t.height < maxHeight) (x : α) :
    (attach key t x).isSome := by
  have hsome : (insertLookup key x t [] []).isSome := insertLookup_isSome (by simpa using hroom)
  obtain ⟨found, hfound⟩ := Option.isSome_iff_exists.mp hsome
  have hspec := insertLookup_spec counted_nil (around_nil key (key x)) ht hfound
  rw [attach, hfound, Option.bind_some]
  cases found with
  | equal path l p b r => rfl
  | slot above below =>
    obtain ⟨hcount, -, hplug⟩ := hspec
    rw [List.nil_append, plugAll] at hplug
    have hfits : Fits (below ++ above) 0 := by
      rw [← hplug, balanced_plugAll] at hb
      exact hb.2
    obtain ⟨t₂, hins, -, -⟩ := doInsert_spec hcount hfits x
    dsimp only
    rw [hins]
    rfl

end

/-! ### Removal -/

def KeyFound (key : α → κ) (k : κ) (t : Tree α) : Option (List (Frame α) × Tree α × α × Int × Tree α) → Prop
  | none => ∀ a ∈ t.toList, key a ≠ k
  | some (stack, l, p, b, r) => key p = k ∧ plugAll stack (.node l p b r) = t

theorem detachLookup_spec {found : Option (List (Frame α) × Tree α × α × Int × Tree α)} (ha : Around key k stack)
    (ht : t.Sorted key) (hs : detachLookup key k t stack = some found) : KeyFound key k (plugAll stack t) found := by
  induction t generalizing stack with
  | nil =>
    obtain rfl := Option.some.inj hs
    intro a hmem
    rw [toList_plugAll, Tree.toList, List.append_nil, List.mem_append] at hmem
    rcases hmem with hmem | hmem
    · exact (ha.left a hmem).ne
    · exact (ha.right a hmem).ne'
  | node l p b r ihl ihr =>
    obtain ⟨hl, hr, hlp, hpr⟩ := sorted_node ht
    rw [detachLookup] at hs
    split_ifs at hs with heq hlt
    · obtain rfl := Option.some.inj hs
      exact ⟨heq, rfl⟩
    · rw [Option.bind_eq_some_iff] at hs
      obtain ⟨stack', hp, hs⟩ := hs
      obtain rfl := push_eq hp
      exact ihr (ha.goRight hlp hlt) hr hs
    · rw [Option.bind_eq_some_iff] at hs
      obtain ⟨stack', hp, hs⟩ := hs
      obtain rfl := push_eq hp
      exact ihl (ha.goLeft hpr (lt_of_le_of_ne (not_lt.mp hlt) (Ne.symm heq))) hl hs

theorem detachLookup_isSome (hroom : stack.length + t.height + 1 ≤ maxHeight) : (detachLookup key k t stack).isSome := by
  induction t generalizing stack with
  | nil => rfl
  | node l p b r ihl ihr =>
    simp only [Tree.height] at hroom
    rw [detachLookup]
    split_ifs
    · rfl
    · rw [push_isSome (by omega), Option.bind_some]
      exact ihr (by rw [List.length_cons]; omega)
    · rw [push_isSome (by omega), Option.bind_some]
      exact ihl (by rw [List.length_cons]; omega)

/-- A place in a balanced tree: the stack fits, and it is no longer than the tree is high. -/
theorem place_spec (hb : t.Balanced) (hplug : plugAll stack (.node l p b r) = t) :
    (Tree.node l p b r).Balanced ∧ Fits stack (Tree.node l p b r).height ∧
      stack.length + (Tree.node l p b r).height ≤ t.height ∧
      t.toList = lefts stack ++ (l.toList ++ p :: r.toList) ++ rights stack := by
  subst hplug
  obtain ⟨hnode, hfits⟩ := balanced_plugAll.mp hb
  refine ⟨hnode, hfits, ?_, ?_⟩
  · rw [height_plugAll]
    exact length_add_le_grow stack _
  · rw [toList_plugAll]
    rfl

theorem detach_spec {res : Option α} (hb : t.Balanced) (ht : t.Sorted key) (h : detach key t k = some (t', res)) :
    t'.Balanced ∧ (res = none ∧ t' = t ∧ (∀ a ∈ t.toList, key a ≠ k) ∨
      ∃ p left right, res = some p ∧ key p = k ∧ t.toList = left ++ p :: right ∧ t'.toList = left ++ right) := by
  rw [detach, Option.bind_eq_some_iff] at h
  obtain ⟨found, hfound, h⟩ := h
  have hspec := detachLookup_spec (around_nil key k) ht hfound
  cases found with
  | none =>
    obtain ⟨rfl, rfl⟩ := Prod.mk.inj (Option.some.inj h)
    exact ⟨hb, Or.inl ⟨rfl, rfl, hspec⟩⟩
  | some found =>
    obtain ⟨stack, l, p, b, r⟩ := found
    obtain ⟨heq, hplug⟩ := hspec
    rw [Option.map_eq_some_iff] at h
    obtain ⟨t₁, hrem, h⟩ := h
    obtain ⟨rfl, rfl⟩ := Prod.mk.inj h
    obtain ⟨hnode, hfits, -, hlist⟩ := place_spec hb hplug
    obtain ⟨hb', hlist'⟩ := doRemove_spec hnode hfits hrem
    refine ⟨hb', Or.inr ⟨p, lefts stack ++ l.toList, r.toList ++ rights stack, rfl, heq, ?_, ?_⟩⟩
    · rw [hlist]
      simp
    · rw [hlist']
      simp

theorem detach_isSome (hb : t.Balanced) (ht : t.Sorted key) (hroom : t.height + 1 < maxHeight) (k : κ) :
    (detach key t k).isSome := by
  have hsome : (detachLookup key k t []).isSome := detachLookup_isSome (by simp only [List.length_nil]; omega)
  obtain ⟨found, hfound⟩ := Option.isSome_iff_exists.mp hsome
  have hspec := detachLookup_spec (around_nil key k) ht hfound
  rw [detach, hfound, Option.bind_some]
  cases found with
  | none => rfl
  | some found =>
    obtain ⟨stack, l, p, b, r⟩ := found
    obtain ⟨hnode, hfits, hlen, -⟩ := place_spec hb hspec.2
    dsimp only
    rw [Option.isSome_map]
    exact doRemove_isSome hnode hfits (by omega)

omit [LinearOrder κ] in
theorem detachEdgeLookup_spec {found : List (Frame α) × α × Int × Tree α} (hleft : lefts stack = [])
    (hs : detachEdgeLookup t stack = some found) :
    lefts found.1 = [] ∧ plugAll found.1 (.node .nil found.2.1 found.2.2.1 found.2.2.2) = plugAll stack t := by
  induction t generalizing stack with
  | nil => simp [detachEdgeLookup] at hs
  | node left p b r ih _ =>
    cases left with
    | nil =>
      obtain rfl := Option.some.inj hs
      exact ⟨hleft, rfl⟩
    | node l' v b' r' =>
      rw [detachEdgeLookup, Option.bind_eq_some_iff] at hs
      obtain ⟨stack', hp, hs⟩ := hs
      obtain rfl := push_eq hp
      exact ih (by simp [lefts, hleft]) hs

omit [LinearOrder κ] in
theorem detachEdgeLookup_isSome (hne : t ≠ .nil) (hroom : stack.length + t.height + 1 ≤ maxHeight) :
    (detachEdgeLookup t stack).isSome := by
  induction t generalizing stack with
  | nil => exact absurd rfl hne
  | node left p b r ih _ =>
    cases left with
    | nil => rfl
    | node l' v b' r' =>
      simp only [Tree.height] at hroom
      rw [detachEdgeLookup, push_isSome (by omega), Option.bind_some]
      apply ih (by simp)
      rw [List.length_cons]
      simp only [Tree.height]
      omega

omit [LinearOrder κ] in
theorem detachMin_spec {res : Option α} (hb : t.Balanced) (h : detachMin t = some (t', res)) :
    t'.Balanced ∧ ∃ p right, res = some p ∧ t.toList = p :: right ∧ t'.toList = right := by
  rw [detachMin, Option.bind_eq_some_iff] at h
  obtain ⟨⟨stack, p, b, r⟩, hfound, h⟩ := h
  have hnil : lefts ([] : List (Frame α)) = [] := rfl
  obtain ⟨hleft, hplug⟩ := detachEdgeLookup_spec hnil hfound
  rw [Option.map_eq_some_iff] at h
  obtain ⟨t₁, hrem, h⟩ := h
  obtain ⟨rfl, rfl⟩ := Prod.mk.inj h
  obtain ⟨hnode, hfits, -, hlist⟩ := place_spec hb hplug
  obtain ⟨hb', hlist'⟩ := doRemove_spec hnode hfits hrem
  refine ⟨hb', p, r.toList ++ rights stack, rfl, ?_, ?_⟩
  · dsimp only at hleft
    rw [hlist, hleft]
    simp [Tree.toList]
  · dsimp only at hleft
    rw [hlist', hleft]
    simp [Tree.toList]

omit [LinearOrder κ] in
theorem detachMin_isSome (hb : t.Balanced) (hne : t ≠ .nil) (hroom : t.height + 1 < maxHeight) : (detachMin t).isSome := by
  have hsome : (detachEdgeLookup t []).isSome := detachEdgeLookup_isSome hne (by simp only [List.length_nil]; omega)
  obtain ⟨⟨stack, p, b, r⟩, hfound⟩ := Option.isSome_iff_exists.mp hsome
  have hnil : lefts ([] : List (Frame α)) = [] := rfl
  obtain ⟨-, hplug⟩ := detachEdgeLookup_spec hnil hfound
  obtain ⟨hnode, hfits, hlen, -⟩ := place_spec hb hplug
  rw [detachMin, hfound, Option.bind_some, Option.isSome_map]
  exact doRemove_isSome hnode hfits (by dsimp only at hlen ⊢; omega)

/-! ### Runs -/

def Tree.bindings (key : α → κ) (t : Tree α) : List (κ × α) := t.toList.map (fun a => (key a, a))

/-- The calls on a finite map: insert or replace, delete, and delete the first binding. -/
def mapStep [DecidableEq α] (key : α → κ) (m : SortedMap κ α) : Op κ α → Option (SortedMap κ α × Out α)
  | .attach x => some (m.insert (key x) x, .attached (if (m.lookup (key x)).isSome then 1 else 0)
      ((m.lookup (key x)).filter (fun p => p ≠ x)))
  | .detach k => some (m.erase k, .detached (m.lookup k))
  | .detachMin => m.entries.head?.map (fun p => (m.erase p.1, .detached (some p.2)))

/-- Fewer nodes than in the smallest balanced tree of height 32, and a least node for whoever asks for it. -/
def Small (t : Tree α) : Op κ α → Prop
  | .detachMin => t ≠ .nil ∧ t.toList.length < minSize 32
  | _ => t.toList.length < minSize 32

instance [DecidableEq α] (t : Tree α) : (op : Op κ α) → Decidable (Small t op)
  | .detachMin => inferInstanceAs (Decidable (_ ∧ _))
  | .attach _ => inferInstanceAs (Decidable (_ < _))
  | .detach _ => inferInstanceAs (Decidable (_ < _))

structure Represents (key : α → κ) (t : Tree α) (m : SortedMap κ α) : Prop where
  balanced : t.Balanced
  entries : m.entries = t.bindings key

variable {m : SortedMap κ α}

theorem Represents.sorted (h : Represents key t m) : t.Sorted key := by
  have hsorted := m.sorted
  rw [h.entries, Tree.bindings, List.pairwise_map] at hsorted
  exact hsorted

theorem Represents.lookup_some (h : Represents key t m) (hp : p ∈ t.toList) : m.lookup (key p) = some p := by
  rw [← SortedMap.mem_entries, h.entries]
  exact List.mem_map_of_mem hp

theorem Represents.lookup_none (h : Represents key t m) (hk : ∀ a ∈ t.toList, key a ≠ k) : m.lookup k = none := by
  rw [SortedMap.lookup_eq_none, h.entries]
  intro a ha
  obtain ⟨a', ha', heq⟩ := List.mem_map.mp ha
  exact hk a' ha' (congrArg Prod.fst heq)

theorem Represents.erase {left right : List α} (h : Represents key t m) (hlist : t.toList = left ++ p :: right)
    (hb : t'.Balanced) (hlist' : t'.toList = left ++ right) : Represents key t' (m.erase (key p)) := by
  obtain ⟨hleft, hright⟩ := sorted_split h.sorted hlist
  refine ⟨hb, ?_⟩
  show m.entries.filter (fun q => q.1 ≠ key p) = t'.bindings key
  have hkeepLeft : (left.map (fun a => (key a, a))).filter (fun q => q.1 ≠ key p) = left.map (fun a => (key a, a)) := by
    rw [List.filter_eq_self]
    intro q hq
    obtain ⟨a, ha, rfl⟩ := List.mem_map.mp hq
    simpa using (hleft a ha).ne
  have hkeepRight : (right.map (fun a => (key a, a))).filter (fun q => q.1 ≠ key p) = right.map (fun a => (key a, a)) := by
    rw [List.filter_eq_self]
    intro q hq
    obtain ⟨a, ha, rfl⟩ := List.mem_map.mp hq
    simpa using (hright a ha).ne'
  rw [h.entries, Tree.bindings, Tree.bindings, hlist, hlist', List.map_append, List.filter_append, List.map_cons,
    List.filter_cons_of_neg (by simp), hkeepLeft, hkeepRight, List.map_append]

variable [DecidableEq α] {op : Op κ α} {out : Out α}

theorem Represents.attach {res : Nat} {freed : Option α} (h : Represents key t m)
    (hs : Avl.attach key t x = some (t', res, freed)) :
    mapStep key m (.attach x) = some (m.insert (key x) x, .attached res freed) ∧
      Represents key t' (m.insert (key x) x) := by
  obtain ⟨left, right, hleft, hright, hb, hlist', hcases⟩ := attach_spec h.balanced h.sorted hs
  have hbelow (q : κ × α) (hq : q ∈ left.map (fun a => (key a, a))) : q.1 < key x := by
    obtain ⟨a, ha, rfl⟩ := List.mem_map.mp hq
    exact hleft a ha
  have habove (q : κ × α) (hq : q ∈ right.map (fun a => (key a, a))) : key x < q.1 := by
    obtain ⟨a, ha, rfl⟩ := List.mem_map.mp hq
    exact hright a ha
  have hentries : t'.bindings key = left.map (fun a => (key a, a)) ++ (key x, x) :: right.map (fun a => (key a, a)) := by
    rw [Tree.bindings, hlist', List.map_append, List.map_cons]
  rcases hcases with ⟨hlist, rfl, rfl⟩ | ⟨p, heq, hlist, rfl, rfl⟩
  · have hnone : m.lookup (key x) = none := by
      apply h.lookup_none
      intro a ha
      rw [hlist] at ha
      rcases List.mem_append.mp ha with ha | ha
      · exact (hleft a ha).ne
      · exact (hright a ha).ne'
    refine ⟨by simp [mapStep, hnone], hb, ?_⟩
    show SortedMap.insertList (key x) x m.entries = t'.bindings key
    rw [h.entries, Tree.bindings, hlist, List.map_append, SortedMap.insertList_between hbelow habove, hentries]
  · have hsome : m.lookup (key x) = some p := by
      rw [← heq]
      exact h.lookup_some (by simp [hlist])
    refine ⟨?_, hb, ?_⟩
    · by_cases hpx : p = x
      · simp [mapStep, hsome, Option.filter, hpx]
      · simp [mapStep, hsome, Option.filter, hpx]
    · show SortedMap.insertList (key x) x m.entries = t'.bindings key
      rw [h.entries, Tree.bindings, hlist, List.map_append, List.map_cons, heq, SortedMap.insertList_replace hbelow, hentries]

/-- Every call does what it does on the finite map. -/
theorem Represents.step (h : Represents key t m) (hs : Avl.step key t op = some (t', out)) :
    ∃ m', mapStep key m op = some (m', out) ∧ Represents key t' m' := by
  cases op with
  | attach x =>
    rw [Avl.step, Option.map_eq_some_iff] at hs
    obtain ⟨⟨t₁, res, freed⟩, hattach, hs⟩ := hs
    obtain ⟨rfl, rfl⟩ := Prod.mk.inj hs
    exact ⟨_, h.attach hattach⟩
  | detach k =>
    rw [Avl.step, Option.map_eq_some_iff] at hs
    obtain ⟨⟨t₁, res⟩, hdetach, hs⟩ := hs
    obtain ⟨rfl, rfl⟩ := Prod.mk.inj hs
    obtain ⟨hb, ⟨rfl, rfl, hno⟩ | ⟨p, left, right, rfl, rfl, hlist, hlist'⟩⟩ := detach_spec h.balanced h.sorted hdetach
    · have hnone := h.lookup_none hno
      refine ⟨m, ?_, h⟩
      rw [mapStep, hnone, SortedMap.erase_eq_self hnone]
    · refine ⟨m.erase (key p), ?_, h.erase hlist hb hlist'⟩
      rw [mapStep, h.lookup_some (by simp [hlist])]
  | detachMin =>
    rw [Avl.step, Option.map_eq_some_iff] at hs
    obtain ⟨⟨t₁, res⟩, hdetach, hs⟩ := hs
    obtain ⟨rfl, rfl⟩ := Prod.mk.inj hs
    obtain ⟨hb, p, right, rfl, hlist, hlist'⟩ := detachMin_spec h.balanced hdetach
    have hfirst : t.toList = [] ++ p :: right := hlist
    have hhead : m.entries.head? = some (key p, p) := by
      rw [h.entries, Tree.bindings, hlist]
      rfl
    refine ⟨m.erase (key p), ?_, h.erase hfirst hb hlist'⟩
    rw [mapStep, hhead]
    rfl

omit [LinearOrder κ] [DecidableEq α] in
theorem height_lt_of_length {n : Nat} (hb : t.Balanced) (hlen : t.toList.length < minSize n) : t.height < n := by
  by_contra hhigh
  have hmin := minSize_height_le hb
  have hmono := minSize_mono (not_lt.mp hhigh)
  omega

theorem Represents.isSome (h : Represents key t m) (hsmall : Small t op) : (Avl.step key t op).isSome := by
  have hlen : t.toList.length < minSize 32 := by
    cases op with
    | attach x => exact hsmall
    | detach k => exact hsmall
    | detachMin => exact hsmall.2
  have hroom : t.height + 1 < maxHeight := Nat.succ_lt_succ (height_lt_of_length h.balanced hlen)
  cases op with
  | attach x =>
    rw [Avl.step, Option.isSome_map]
    exact attach_isSome h.balanced h.sorted (by omega) x
  | detach k =>
    rw [Avl.step, Option.isSome_map]
    exact detach_isSome h.balanced h.sorted hroom k
  | detachMin =>
    rw [Avl.step, Option.isSome_map]
    exact detachMin_isSome h.balanced hsmall.1 hroom

omit [DecidableEq α] in
theorem represents_nil (key : α → κ) : Represents key .nil SortedMap.empty := ⟨trivial, rfl⟩

/-- After every run the stored balances are right and the nodes in order, and the calls have done and returned
what they do on a finite map. A run on trees with fewer nodes than the smallest balanced tree of height 32, in
which the least node is not taken from an empty tree, is defined to its end. -/
theorem tree_run_refines_map (key : α → κ) (ops : List (Op κ α)) :
    (∀ t outs, exec (step key) .nil ops = some (t, outs) → t.Balanced ∧ t.Sorted key ∧
      ∃ m, exec (mapStep key) .empty ops = some (m, outs) ∧ m.entries = t.bindings key) ∧
    (Meets (step key) Small .nil ops → ∃ t outs, exec (step key) .nil ops = some (t, outs)) := by
  refine ⟨?_, ?_⟩
  · intro t outs he
    obtain ⟨m, hm, h⟩ := exec_follows (R := Represents key) (A := mapStep key)
      (fun t m op t' out h _ hs => Represents.step h hs) (represents_nil key) (meets_of_forall (fun _ _ => trivial) _ _) he
    exact ⟨h.balanced, h.sorted, m, hm, h.entries⟩
  · intro hm
    obtain ⟨t, outs, he, -⟩ := exec_history (I := fun t _ => ∃ m, Represents key t m) (h := [])
      (fun t _ op h hsmall => by
        obtain ⟨m, h⟩ := h
        obtain ⟨⟨t', out⟩, hs⟩ := Option.isSome_iff_exists.mp (h.isSome hsmall)
        obtain ⟨m', -, h'⟩ := h.step hs
        exact ⟨t', out, hs, m', h'⟩) ⟨_, represents_nil key⟩ hm
    exact ⟨t, outs, he⟩

/-- Seven nodes of which the second replaces the first, and then one is taken out by its key and two as the least. -/
def smallRun : List (Op Nat (Nat × Nat)) :=
  [.attach (4, 0), .attach (4, 1), .attach (2, 0), .attach (6, 0), .attach (1, 0), .attach (3, 0), .attach (7, 0),
    .detach 4, .detachMin, .detachMin]

theorem tree_run_refines_map_small : ∃ t outs, exec (step Prod.fst) .nil smallRun = some (t, outs) ∧ t.Balanced ∧
    t.Sorted Prod.fst ∧ ∃ m, exec (mapStep Prod.fst) .empty smallRun = some (m, outs) ∧ m.entries = t.bindings Prod.fst := by
  have hm : Meets (step Prod.fst) Small .nil smallRun := by decide +kernel
  obtain ⟨t, outs, he⟩ := (tree_run_refines_map Prod.fst smallRun).2 hm
  exact ⟨t, outs, he, (tree_run_refines_map Prod.fst smallRun).1 t outs he⟩

/-- The least node of an empty tree: the place of the root is read as a node. -/
theorem detachMin_empty_undefined :
    (Tree.nil : Tree Nat).toList.length < minSize 32 ∧ exec (step id) (.nil : Tree Nat) [(.detachMin : Op Nat Nat)] = none := by
  refine ⟨?_, rfl⟩
  exact lt_of_lt_of_le Nat.one_pos (minSize_mono (by decide : 1 ≤ 32))

end RaleighSL.Zcl.Avl
