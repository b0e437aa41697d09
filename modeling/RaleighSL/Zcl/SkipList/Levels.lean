import RaleighSL.Zcl.SkipList.Search

/-!
# Changes of the links

An insertion and a removal write links level by level, and what they do on one level does not
depend on the other levels. Everything but the links stays.
-/
namespace RaleighSL.Zcl.SkipList

open Library

variable {δ : Type*} {s s' s₁ s₂ : State δ} {level n : Nat} {p : Place}

structure Rewired (s s' : State δ) : Prop where
  head : s'.head.length = s.head.length
  nodes : ∀ n, (s'.nodes n).map (fun node => (node.data, node.next.length)) =
    (s.nodes n).map (fun node => (node.data, node.next.length))
  count : s'.count = s.count
  levels : s'.levels = s.levels
  size : s'.size = s.size
  frees : s'.frees = s.frees
  freed : s'.freed = s.freed

theorem Rewired.refl (s : State δ) : Rewired s s := ⟨rfl, fun _ => rfl, rfl, rfl, rfl, rfl, rfl⟩

theorem Rewired.trans (h : Rewired s s₁) (h' : Rewired s₁ s₂) : Rewired s s₂ where
  head := h'.head.trans h.head
  nodes n := (h'.nodes n).trans (h.nodes n)
  count := h'.count.trans h.count
  levels := h'.levels.trans h.levels
  size := h'.size.trans h.size
  frees := h'.frees.trans h.frees
  freed := h'.freed.trans h.freed

structure OnLevel (s s' : State δ) (level : Nat) (link : Place → Option (Option Nat)) : Prop extends Rewired s s' where
  here : s'.link level = link
  there : ∀ i, i ≠ level → s'.link i = s.link i

theorem link_update_self (s : State δ) (n i : Nat) (node : Option (Node δ)) :
    { s with nodes := Function.update s.nodes n node }.link i (.node n) = node.bind (fun node => node.next[i]?) := by
  show (Function.update s.nodes n node n).bind _ = _
  rw [Function.update_self]

theorem link_update_of_ne (s : State δ) {n : Nat} (i : Nat) (node : Option (Node δ)) (hp : p ≠ .node n) :
    { s with nodes := Function.update s.nodes n node }.link i p = s.link i p := by
  cases p with
  | head => rfl
  | node m =>
    have hm : m ≠ n := fun heq => hp (heq ▸ rfl)
    show (Function.update s.nodes n node m).bind _ = _
    rw [Function.update_of_ne hm]
    rfl

theorem setLink_spec (h : (s.link level p).isSome) (next : Option Nat) :
    ∃ s', s.setLink level p next = some s' ∧ OnLevel s s' level (Function.update (s.link level) p (some next)) := by
  cases p with
  | head =>
    have hlt : level < s.head.length := by simpa [State.link] using h
    refine ⟨_, if_pos hlt, ⟨List.length_set, fun _ => rfl, rfl, rfl, rfl, rfl, rfl⟩, ?_, ?_⟩
    · funext q
      cases q with
      | head =>
        rw [Function.update_self]
        exact List.getElem?_set_self hlt
      | node n =>
        rw [Function.update_of_ne (by simp)]
        rfl
    · intro i hi
      funext q
      cases q with
      | head => exact List.getElem?_set_ne (Ne.symm hi)
      | node n => rfl
  | node n =>
    cases hnode : s.nodes n with
    | none => simp [State.link, hnode] at h
    | some node =>
      have hlink (i : Nat) : s.link i (.node n) = node.next[i]? := by rw [State.link, hnode, Option.bind_some]
      rw [hlink] at h
      have hlt : level < node.next.length := by simpa using h
      refine ⟨{ s with nodes := Function.update s.nodes n (some { node with next := node.next.set level next }) }, ?_,
        ⟨rfl, ?_, rfl, rfl, rfl, rfl, rfl⟩, ?_, ?_⟩
      · show (s.nodes n).bind _ = _
        rw [hnode, Option.bind_some, if_pos hlt]
      · intro m
        show (Function.update s.nodes n _ m).map _ = _
        by_cases hm : m = n
        · subst hm
          simp [hnode]
        · rw [Function.update_of_ne hm]
      · funext q
        by_cases hq : q = .node n
        · subst hq
          rw [Function.update_self, link_update_self]
          exact List.getElem?_set_self hlt
        · rw [Function.update_of_ne hq, link_update_of_ne s level _ hq]
      · intro i hi
        funext q
        by_cases hq : q = .node n
        · subst hq
          rw [hlink, link_update_self]
          exact List.getElem?_set_ne (Ne.symm hi)
        · rw [link_update_of_ne s i _ hq]

theorem OnLevel.trans {link link' : Place → Option (Option Nat)} (h : OnLevel s s₁ level link)
    (h' : OnLevel s₁ s₂ level link') : OnLevel s s₂ level link' :=
  ⟨h.toRewired.trans h'.toRewired, h'.here, fun i hi => (h'.there i hi).trans (h.there i hi)⟩

theorem linkAt_spec {prev : Nat → Option Place} {next : Option Nat} (hprev : prev level = some p)
    (hnext : s.link level p = some next) (hn : (s.link level (.node n)).isSome) (hne : p ≠ .node n) :
    ∃ s', s.linkAt prev n level = some s' ∧ OnLevel s s' level
      (Function.update (Function.update (s.link level) (.node n) (some next)) p (some (some n))) := by
  obtain ⟨s₁, hs₁, hone⟩ := setLink_spec hn next
  have hp : (s₁.link level p).isSome := by
    rw [hone.here, Function.update_of_ne hne, hnext]
    rfl
  obtain ⟨s₂, hs₂, htwo⟩ := setLink_spec hp (some n)
  rw [hone.here] at htwo
  refine ⟨s₂, ?_, hone.trans htwo⟩
  rw [State.linkAt, hprev, Option.bind_some, hnext, Option.bind_some, hs₁, Option.bind_some, hs₂]

/-- A node that is linked behind the place is left out. -/
theorem unlinkAt_linked {prev : Nat → Option Place} {next : Option Nat} (hprev : prev level = some p)
    (hp : s.link level p = some (some n)) (hn : s.link level (.node n) = some next) :
    ∃ s', s.unlinkAt prev n level = some s' ∧ OnLevel s s' level (Function.update (s.link level) p (some next)) := by
  obtain ⟨s', hs', hone⟩ := setLink_spec (hp ▸ rfl : (s.link level p).isSome) next
  refine ⟨s', ?_, hone⟩
  rw [State.unlinkAt, hprev, Option.bind_some, hp, Option.bind_some, if_pos rfl, hn, Option.bind_some, hs']

theorem unlinkAt_other {prev : Nat → Option Place} {next : Option Nat} (hprev : prev level = some p)
    (hp : s.link level p = some next) (hne : next ≠ some n) : s.unlinkAt prev n level = some s := by
  rw [State.unlinkAt, hprev, Option.bind_some, hp, Option.bind_some, if_neg hne]

/-- A loop that on each level does what the links of this level say. -/
theorem foldlM_levels {f : State δ → Nat → Option (State δ)} {link : Nat → Place → Option (Option Nat)} (levels : Nat)
    (hf : ∀ i, i < levels → ∀ s₁, Rewired s s₁ → s₁.link i = s.link i → ∃ s₂, f s₁ i = some s₂ ∧ OnLevel s₁ s₂ i (link i)) :
    ∃ s', (List.range levels).foldlM f s = some s' ∧ Rewired s s' ∧
      ∀ i, s'.link i = if i < levels then link i else s.link i := by
  induction levels with
  | zero => exact ⟨s, rfl, Rewired.refl s, fun i => (if_neg (Nat.not_lt_zero i)).symm⟩
  | succ levels ih =>
    obtain ⟨s₁, hs₁, hrewired, hlinks⟩ := ih (fun i hi => hf i (Nat.lt_succ_of_lt hi))
    have hsame : s₁.link levels = s.link levels := by rw [hlinks, if_neg (Nat.lt_irrefl levels)]
    obtain ⟨s₂, hs₂, hone⟩ := hf levels (Nat.lt_succ_self levels) s₁ hrewired hsame
    refine ⟨s₂, ?_, hrewired.trans hone.toRewired, ?_⟩
    · rw [List.range_succ, List.foldlM_append, hs₁]
      show ([levels].foldlM f s₁) = _
      rw [List.foldlM_cons, hs₂]
      rfl
    · intro i
      by_cases hi : i = levels
      · subst hi
        rw [hone.here, if_pos (Nat.lt_succ_self i)]
      · rw [hone.there i hi, hlinks]
        split_ifs with h₁ h₂ h₂
        · rfl
        · omega
        · omega
        · rfl

/-- The number of levels after a removal. -/
theorem lower_spec (hlink : ∀ i < level, (s.link i .head).isSome) (hpos : 1 ≤ level) :
    ∃ r, s.lower level = some r ∧ 1 ≤ r ∧ r ≤ level ∧ (∀ i, r ≤ i → i < level → s.link i .head = some none) ∧
      (r = 1 ∨ ∃ n, s.link (r - 1) .head = some (some n)) := by
  induction level with
  | zero => omega
  | succ level ih =>
    cases level with
    | zero => exact ⟨1, rfl, Nat.le_refl 1, Nat.le_refl 1, fun i h₁ h₂ => by omega, Or.inl rfl⟩
    | succ level =>
      obtain ⟨next, hnext⟩ := Option.isSome_iff_exists.mp (hlink (level + 1) (by omega))
      rw [State.lower, hnext, Option.bind_some]
      cases next with
      | none =>
        obtain ⟨r, hr, hr₁, hrle, hempty, hlast⟩ := ih (fun i hi => hlink i (by omega)) (by omega)
        refine ⟨r, by rw [if_pos rfl, hr], hr₁, by omega, ?_, hlast⟩
        intro i hri hi
        by_cases heq : i = level + 1
        · rw [heq, hnext]
        · exact hempty i hri (by omega)
      | some n => exact ⟨level + 2, if_neg (by simp), by omega, Nat.le_refl _, fun i h₁ h₂ => by omega, Or.inr ⟨n, hnext⟩⟩

end RaleighSL.Zcl.SkipList
