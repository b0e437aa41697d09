import RaleighSL.Zcl.SkipList.Levels

/-!
# Insertion and removal

A new node is linked on its levels behind the places that the search has found, and a node that
is removed is left out behind them. A node whose key is there already gives its data to the old
one.
-/
namespace RaleighSL.Zcl.SkipList

open Library

variable {δ κ : Type*} {s s' : State δ} {l a b : List (Entry δ)} {e : Entry δ} {level n : Nat} {prev : Nat → Option Place}

/-! ### The nodes of a state -/

theorem Rewired.stored (h : Rewired s s') (hs : ∃ next, s.nodes e.id = some ⟨e.data, next⟩ ∧ next.length = e.height) :
    ∃ next, s'.nodes e.id = some ⟨e.data, next⟩ ∧ next.length = e.height := by
  obtain ⟨next, hnode, hlen⟩ := hs
  have hmap := h.nodes e.id
  rw [hnode, Option.map_some, Option.map_eq_some_iff] at hmap
  obtain ⟨⟨d, next'⟩, hnode', heq⟩ := hmap
  obtain ⟨rfl, hlen'⟩ := Prod.mk.inj heq
  exact ⟨next', hnode', hlen'.trans hlen⟩

theorem onLevel_sublist : (onLevel level l).Sublist l := List.filter_sublist

theorem Holds.places_nodup (h : Holds s l) (level : Nat) :
    (Place.head :: ((onLevel level l).map Entry.id).map Place.node).Nodup := by
  rw [List.nodup_cons]
  refine ⟨by simp, ?_⟩
  apply List.Nodup.map (fun m n hmn => Place.node.inj hmn)
  exact h.nodup.sublist (onLevel_sublist.map Entry.id)

theorem front_ne (hn : ∀ c ∈ a, c.id ≠ n) (level : Nat) : front level a ≠ .node n := by
  intro heq
  have hmem : front level a ∈ Place.head :: ((onLevel level a).map Entry.id).map Place.node := endOf_mem
  rw [heq] at hmem
  rcases List.mem_cons.mp hmem with hmem | hmem
  · exact absurd hmem (by simp)
  · obtain ⟨m, hm, hplace⟩ := List.mem_map.mp hmem
    obtain ⟨c, hc, rfl⟩ := List.mem_map.mp hm
    exact hn c (mem_of_onLevel hc) (Place.node.inj hplace)

/-- Behind the place in front of a key comes the first node that is not in front of it. -/
theorem Holds.link_front (h : Holds s (a ++ b)) (hlevel : level < maxHeight) :
    s.link level (front level a) = some ((onLevel level b).map Entry.id).head? := by
  have hlinked := h.links level hlevel
  rw [onLevel_append, List.map_append] at hlinked
  exact hlinked.suffix.link_eq

theorem Holds.congr (h : Holds s l) (hhead : s'.head = s.head) (hnodes : ∀ e ∈ l, s'.nodes e.id = s.nodes e.id)
    (hcount : s.count ≤ s'.count) : Holds s' l where
  head := (congrArg List.length hhead).trans h.head
  stored e he := by
    rw [hnodes e he]
    exact h.stored e he
  nodup := h.nodup
  fresh e he := Nat.lt_of_lt_of_le (h.fresh e he) hcount
  heights := h.heights
  links level hlevel := by
    apply (h.links level hlevel).of_link
    · rw [State.link, State.link, hhead]
    · intro n hn
      obtain ⟨e, he, rfl⟩ := List.mem_map.mp hn
      rw [State.link, State.link, hnodes e (mem_of_onLevel he)]

/-! ### The loops over the levels -/

theorem ne_of_mem_places {q : Place}
    (hq : q ∈ Place.head :: ((onLevel level a ++ onLevel level b).map Entry.id).map Place.node)
    (hn : ∀ c ∈ a ++ b, c.id ≠ n) : q ≠ .node n := by
  rintro rfl
  rw [← onLevel_append] at hq
  rcases List.mem_cons.mp hq with hq | hq
  · exact absurd hq (by simp)
  · obtain ⟨m, hm, hplace⟩ := List.mem_map.mp hq
    obtain ⟨c, hc, rfl⟩ := List.mem_map.mp hm
    exact hn c (mem_of_onLevel hc) (Place.node.inj hplace)

def linkedAt (s : State δ) (a : List (Entry δ)) (n level : Nat) : Place → Option (Option Nat) :=
  Function.update (Function.update (s.link level) (.node n) (s.link level (front level a))) (front level a)
    (some (some n))

/-- The links of a level without the node behind some entries, if it is as high as the level. -/
def unlinkedAt (s : State δ) (a : List (Entry δ)) (e : Entry δ) (level : Nat) : Place → Option (Option Nat) :=
  if level < e.height then Function.update (s.link level) (front level a) (s.link level (.node e.id)) else s.link level

/-- The loop of `z_skip_list_attach`. -/
theorem Holds.insert (h : Holds s (a ++ b)) (hnode : s.nodes e.id = some ⟨e.data, List.replicate e.height none⟩)
    (hnew : ∀ c ∈ a ++ b, c.id ≠ e.id) (hcount : e.id < s.count) (hheight : 1 ≤ e.height ∧ e.height ≤ maxHeight)
    (hprev : ∀ i < e.height, prev i = some (front i a)) :
    ∃ s', (List.range e.height).foldlM (fun (s : State δ) i => s.linkAt prev e.id i) s = some s' ∧ Rewired s s' ∧
      Holds s' (a ++ e :: b) := by
  have hne (i : Nat) : front i a ≠ .node e.id := front_ne (fun c hc => hnew c (List.mem_append_left b hc)) i
  have hstep : ∀ i, i < e.height → ∀ s₁ : State δ, Rewired s s₁ → s₁.link i = s.link i →
      ∃ s₂, s₁.linkAt prev e.id i = some s₂ ∧ OnLevel s₁ s₂ i (linkedAt s a e.id i) := by
    intro i hi s₁ hrewired hsame
    have hfront := h.link_front (Nat.lt_of_lt_of_le hi hheight.2)
    have hlink : (s.link i (.node e.id)).isSome := by
      rw [State.link, hnode, Option.bind_some, List.getElem?_replicate, if_pos hi]
      rfl
    rw [linkedAt, hfront, ← hsame]
    rw [← hsame] at hfront hlink
    exact linkAt_spec (hprev i hi) hfront hlink (hne i)
  obtain ⟨s', hs', hrewired, hlinks⟩ := foldlM_levels e.height hstep
  have hmem {c : Entry δ} (hc : c ∈ a ++ e :: b) : c = e ∨ c ∈ a ++ b := by
    rw [List.mem_append, List.mem_cons] at hc
    rw [List.mem_append]
    tauto
  refine ⟨s', hs', hrewired, hrewired.head.trans h.head, ?_, ?_, ?_, ?_, ?_⟩
  · intro c hc
    apply hrewired.stored
    rcases hmem hc with rfl | hc
    · exact ⟨_, hnode, List.length_replicate⟩
    · exact h.stored c hc
  · rw [List.map_append, List.map_cons, List.nodup_middle, List.nodup_cons, ← List.map_append]
    refine ⟨?_, h.nodup⟩
    intro hid
    obtain ⟨c, hc, heq⟩ := List.mem_map.mp hid
    exact hnew c hc heq
  · intro c hc
    rw [hrewired.count]
    rcases hmem hc with rfl | hc
    · exact hcount
    · exact h.fresh c hc
  · intro c hc
    rcases hmem hc with rfl | hc
    · exact hheight
    · exact h.heights c hc
  · intro i hi
    have hlinked := h.links i hi
    have hnodup := h.places_nodup i
    rw [onLevel_append, List.map_append] at hlinked hnodup ⊢
    rw [hlinks]
    by_cases hie : i < e.height
    · have hcons : onLevel i (e :: b) = e :: onLevel i b := List.filter_cons_of_pos (decide_eq_true hie)
      rw [if_pos hie, hcons]
      apply hlinked.insert hnodup
      · exact Function.update_self ..
      · rw [linkedAt, Function.update_of_ne (Ne.symm (hne i)), Function.update_self]
        rfl
      · intro q hq hqf
        have hfront : q ≠ front i a := hqf
        rw [← List.map_append] at hq
        rw [linkedAt, Function.update_of_ne hfront, Function.update_of_ne (ne_of_mem_places hq hnew)]
    · have hcons : onLevel i (e :: b) = onLevel i b := List.filter_cons_of_neg (by simpa using hie)
      rw [if_neg hie, hcons]
      exact hlinked

/-- The loop of `__skip_list_detach`. -/
theorem Holds.remove {levels : Nat} (h : Holds s (a ++ e :: b)) (hlevels : levels ≤ maxHeight) (hheight : e.height ≤ levels)
    (hprev : ∀ i < levels, prev i = some (front i a)) :
    ∃ s', (List.range levels).foldlM (fun (s : State δ) i => s.unlinkAt prev e.id i) s = some s' ∧ Rewired s s' ∧
      Holds s' (a ++ b) := by
  have hnodup := h.nodup
  rw [List.map_append, List.map_cons, List.nodup_middle, List.nodup_cons, ← List.map_append] at hnodup
  have hne (c : Entry δ) (hc : c ∈ a ++ b) : c.id ≠ e.id := fun heq => hnodup.1 (heq ▸ List.mem_map_of_mem hc)
  have hsub {c : Entry δ} (hc : c ∈ a ++ b) : c ∈ a ++ e :: b := by
    rw [List.mem_append] at hc
    rw [List.mem_append, List.mem_cons]
    tauto
  have hhigh (i : Nat) (hi : i < e.height) : onLevel i (e :: b) = e :: onLevel i b :=
    List.filter_cons_of_pos (decide_eq_true hi)
  have hlow (i : Nat) (hi : ¬ i < e.height) : onLevel i (e :: b) = onLevel i b :=
    List.filter_cons_of_neg (by simpa using hi)
  have hstep : ∀ i, i < levels → ∀ s₁ : State δ, Rewired s s₁ → s₁.link i = s.link i →
      ∃ s₂, s₁.unlinkAt prev e.id i = some s₂ ∧ OnLevel s₁ s₂ i (unlinkedAt s a e i) := by
    intro i hi s₁ hrewired hsame
    have hfront := h.link_front (Nat.lt_of_lt_of_le hi hlevels)
    rw [unlinkedAt, ← hsame]
    rw [← hsame] at hfront
    by_cases hie : i < e.height
    · have hlinked := h.links i (Nat.lt_of_lt_of_le hi hlevels)
      rw [onLevel_append, hhigh i hie, List.map_append] at hlinked
      have hnext := hlinked.suffix.2.link_eq
      rw [← hsame] at hnext
      rw [hhigh i hie] at hfront
      rw [if_pos hie, hnext]
      exact unlinkAt_linked (hprev i hi) hfront hnext
    · rw [hlow i hie] at hfront
      rw [if_neg hie]
      refine ⟨s₁, unlinkAt_other (hprev i hi) hfront ?_, Rewired.refl s₁, rfl, fun _ _ => rfl⟩
      intro heq
      obtain ⟨c, hc, hid⟩ := List.mem_map.mp (List.mem_of_head? heq)
      exact hne c (List.mem_append_right a (mem_of_onLevel hc)) hid
  obtain ⟨s', hs', hrewired, hlinks⟩ := foldlM_levels levels hstep
  refine ⟨s', hs', hrewired, hrewired.head.trans h.head, fun c hc => hrewired.stored (h.stored c (hsub hc)), hnodup.2, ?_,
    fun c hc => h.heights c (hsub hc), ?_⟩
  · intro c hc
    rw [hrewired.count]
    exact h.fresh c (hsub hc)
  · intro i hi
    have hlinked := h.links i hi
    rw [onLevel_append, List.map_append] at hlinked ⊢
    rw [hlinks]
    by_cases hie : i < e.height
    · rw [hhigh i hie] at hlinked
      have hplaces : (Place.head :: ((onLevel i a ++ onLevel i b).map Entry.id).map Place.node).Nodup := by
        rw [List.nodup_cons]
        refine ⟨by simp, List.Nodup.map (fun m n hmn => Place.node.inj hmn) (hnodup.2.sublist ?_)⟩
        rw [← onLevel_append]
        exact onLevel_sublist.map Entry.id
      rw [List.map_append] at hplaces
      rw [if_pos (Nat.lt_of_lt_of_le hie hheight), unlinkedAt, if_pos hie]
      apply hlinked.remove hplaces
      · exact Function.update_self ..
      · intro q _ hqf
        exact Function.update_of_ne hqf ..
    · rw [hlow i hie] at hlinked
      split_ifs
      · rw [unlinkedAt, if_neg hie]
        exact hlinked
      · exact hlinked

end RaleighSL.Zcl.SkipList
