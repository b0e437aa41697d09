import RaleighSL.Zcl.SkipList.Changes

/-!
# The calls

What the calls do to the list of entries, with the order of the keys, the number of levels and
the size.
-/
namespace RaleighSL.Zcl.SkipList

open Library

variable {δ κ : Type*} [LinearOrder κ] {key : δ → κ} {k : κ} {s s' : State δ} {l a b : List (Entry δ)} {e : Entry δ} {d : δ}
  {n : Nat} {prev : Nat → Option Place}

/-- The state between two calls: the number of levels is the height of the highest entry, and the size is counted
with 32 bits. -/
structure Inv (key : δ → κ) (s : State δ) (l : List (Entry δ)) : Prop extends Holds s l where
  sorted : Sorted key l
  pos : 1 ≤ s.levels
  le : s.levels ≤ maxHeight
  low : ∀ e ∈ l, e.height ≤ s.levels
  high : s.levels = 1 ∨ ∃ e ∈ l, s.levels ≤ e.height
  size : s.size = l.length % 2 ^ 32

theorem inv_alloc (frees : Bool) : Inv key (alloc frees) [] := by
  refine ⟨⟨rfl, by simp, List.nodup_nil, by simp, by simp, ?_⟩, List.Pairwise.nil, Nat.le_refl 1,
    (by decide : 1 ≤ maxHeight), by simp, Or.inl rfl, rfl⟩
  intro level hlevel
  show (List.replicate maxHeight none)[level]? = some none
  rw [List.getElem?_replicate, if_pos hlevel]

omit [LinearOrder κ] in
/-- On the levels above the highest entry everything ends at the head. -/
theorem front_above {level : Nat} (h : ∀ e ∈ a, e.height ≤ level) : front level a = .head := by
  have hnil : onLevel level a = [] := by
    rw [onLevel, List.filter_eq_nil_iff]
    intro e he
    have hle := h e he
    simpa using hle
  rw [front, hnil]
  rfl

theorem Cut.strict (hcut : Cut key k a b) (hsort : Sorted key (a ++ b)) (hnew : (pathEnd key k a b).2 = false) :
    ∀ e ∈ b, k < key e.data := by
  cases b with
  | nil => simp
  | cons e b =>
    have hne : key e.data ≠ k := of_decide_eq_false hnew
    have hlt := lt_of_le_of_ne (hcut.above e List.mem_cons_self) (Ne.symm hne)
    intro c hc
    rcases List.mem_cons.mp hc with rfl | hc
    · exact hlt
    · exact lt_trans hlt ((List.pairwise_cons.mp (List.pairwise_append.mp hsort).2.1).1 c hc)

theorem Cut.sorted (hcut : Cut key (key e.data) a b) (hsort : Sorted key (a ++ b)) (hb : ∀ c ∈ b, key e.data < key c.data) :
    Sorted key (a ++ e :: b) := by
  obtain ⟨ha, hbs, hab⟩ := List.pairwise_append.mp hsort
  refine List.pairwise_append.mpr ⟨ha, List.pairwise_cons.mpr ⟨hb, hbs⟩, ?_⟩
  intro c hc c' hc'
  rcases List.mem_cons.mp hc' with rfl | hc'
  · exact hcut.below c hc
  · exact hab c hc c' hc'

omit [LinearOrder κ] in
theorem Holds.allocNode (h : Holds s l) (level : Nat) (d : δ) : Holds (s.allocNode level d) l := by
  refine Holds.congr h rfl ?_ (Nat.le_succ s.count)
  intro e he
  exact Function.update_of_ne (Nat.ne_of_lt (h.fresh e he)) ..

def raised (s : State δ) (prev : Nat → Option Place) (levels level : Nat) : Option Place :=
  if s.levels ≤ level ∧ level < levels then some .head else prev level

theorem attach_new {levels : Nat} {node : Node δ} {p : Place} (hnode : s.nodes n = some node)
    (hpath : s.findPath key (key node.data) = some (prev, p, false)) : s.attach key levels n =
      ((List.range levels).foldlM (fun (t : State δ) level => t.linkAt (raised s prev levels) n level)
        { s with levels := max s.levels levels }).map (fun t => { t with size := (t.size + 1) % 2 ^ 32 }) := by
  rw [State.attach, hnode, Option.bind_some, hpath, Option.bind_some]
  cases p <;> rfl

theorem attach_same {levels m : Nat} {node : Node δ} (hnode : s.nodes n = some node)
    (hpath : s.findPath key (key node.data) = some (prev, .node m, true)) : s.attach key levels n = s.replace m n := by
  rw [State.attach, hnode, Option.bind_some, hpath, Option.bind_some]

def path (s : State δ) (a : List (Entry δ)) (level : Nat) : Option Place :=
  if level < s.levels then some (front level a) else none

omit [LinearOrder κ] in
theorem raised_path {levels level : Nat} (hlow : ∀ e ∈ a, e.height ≤ s.levels) (hlevel : level < levels) :
    raised s (path s a) levels level = some (front level a) := by
  rw [raised, path]
  by_cases h : s.levels ≤ level
  · rw [if_pos ⟨h, hlevel⟩, front_above (fun e he => Nat.le_trans (hlow e he) h)]
  · rw [if_neg (fun hc => h hc.1), if_pos (Nat.lt_of_not_le h)]

theorem Inv.put_new (h : Inv key s (a ++ b)) (hcut : Cut key (key d) a b) (hnew : (pathEnd key (key d) a b).2 = false)
    (level : Height) : ∃ s', put key s d level = some (s', 0) ∧ Inv key s' (a ++ ⟨s.count, d, level⟩ :: b) ∧
      s'.frees = s.frees ∧ s'.freed = s.freed := by
  let s₁ := s.allocNode level.1 d
  have hnode : s₁.nodes s.count = some ⟨d, List.replicate level.1 none⟩ := Function.update_self ..
  have hholds : Holds s₁ (a ++ b) := h.toHolds.allocNode level.1 d
  have hpath : s₁.findPath key (key d) = some (path s a, (pathEnd key (key d) a b).1, false) := by
    rw [hholds.findPath hcut h.pos h.le, ← hnew]
    rfl
  have hlevels : Holds { s₁ with levels := max s.levels level.1 } (a ++ b) :=
    hholds.congr rfl (fun _ _ => rfl) (Nat.le_refl s₁.count)
  have hprev : ∀ i < level.1, raised s (path s a) level.1 i = some (front i a) := fun i hi =>
    raised_path (fun e he => h.low e (List.mem_append_left b he)) hi
  let e : Entry δ := ⟨s.count, d, level.1⟩
  have hfresh (c : Entry δ) (hc : c ∈ a ++ b) : c.id ≠ e.id := Nat.ne_of_lt (h.fresh c hc)
  obtain ⟨s₂, hs₂, hrewired, hinsert⟩ := Holds.insert (e := e) hlevels hnode hfresh (Nat.lt_succ_self s.count) level.2 hprev
  have hmem {c : Entry δ} (hc : c ∈ a ++ e :: b) : c = e ∨ c ∈ a ++ b := by
    rw [List.mem_append, List.mem_cons] at hc
    rw [List.mem_append]
    tauto
  have hraised : s₂.levels = max s.levels level.1 := hrewired.levels
  refine ⟨{ s₂ with size := (s₂.size + 1) % 2 ^ 32 }, ?_,
    ⟨hinsert.congr rfl (fun _ _ => rfl) (Nat.le_refl _), Cut.sorted (e := e) hcut h.sorted (hcut.strict h.sorted hnew),
      ?_, ?_, ?_, ?_, ?_⟩, hrewired.frees, hrewired.freed⟩
  · have hloop : (List.range level.1).foldlM (fun (t : State δ) i => t.linkAt (raised s₁ (path s a) level.1) s.count i)
        { s₁ with levels := max s₁.levels level.1 } = some s₂ := hs₂
    rw [put, attach_new hnode hpath, hloop]
    rfl
  · show 1 ≤ s₂.levels
    rw [hraised]
    exact Nat.le_trans h.pos (Nat.le_max_left ..)
  · show s₂.levels ≤ maxHeight
    rw [hraised]
    exact Nat.max_le.mpr ⟨h.le, level.2.2⟩
  · intro c hc
    show c.height ≤ s₂.levels
    rw [hraised]
    rcases hmem hc with rfl | hc
    · exact Nat.le_max_right ..
    · exact Nat.le_trans (h.low c hc) (Nat.le_max_left ..)
  · show s₂.levels = 1 ∨ ∃ c ∈ a ++ e :: b, s₂.levels ≤ c.height
    rw [hraised]
    by_cases hle : s.levels ≤ level.1
    · right
      exact ⟨e, by simp, Nat.le_of_eq (Nat.max_eq_right hle)⟩
    · rw [Nat.max_eq_left (Nat.le_of_not_le hle)]
      apply h.high.imp_right
      rintro ⟨c, hc, hcle⟩
      refine ⟨c, ?_, hcle⟩
      rw [List.mem_append] at hc
      rw [List.mem_append, List.mem_cons]
      tauto
  · show (s₂.size + 1) % 2 ^ 32 = (a ++ e :: b).length % 2 ^ 32
    have hsize : s₂.size = s.size := hrewired.size
    rw [hsize, h.size, List.length_append, List.length_append, List.length_cons]
    omega

omit [LinearOrder κ] in
theorem Holds.freeNode {node : Node δ} (h : Holds s l) (hnode : s.nodes n = some node) (hn : ∀ e ∈ l, e.id ≠ n) :
    ∃ s', s.freeNode n = some s' ∧ Holds s' l ∧ s'.levels = s.levels ∧ s'.size = s.size ∧ s'.frees = s.frees ∧
      s'.freed = if s.frees then s.freed ++ [node.data] else s.freed := by
  refine ⟨{ s with
      nodes := Function.update s.nodes n none
      freed := if s.frees then s.freed ++ [node.data] else s.freed }, ?_, h.congr rfl ?_ (Nat.le_refl _), rfl, rfl, rfl, rfl⟩
  · rw [State.freeNode, hnode, Option.map_some]
  · intro e he
    exact Function.update_of_ne (hn e he) ..

omit [LinearOrder κ] in
theorem Holds.other_id (h : Holds s (a ++ e :: b)) : ∀ c ∈ a ++ b, c.id ≠ e.id := by
  have hnodup := h.nodup
  rw [List.map_append, List.map_cons, List.nodup_middle, List.nodup_cons, ← List.map_append] at hnodup
  intro c hc heq
  exact hnodup.1 (heq ▸ List.mem_map_of_mem hc)

omit [LinearOrder κ] in
theorem chain_setData (level : Nat) (d : δ) :
    (onLevel level (a ++ { e with data := d } :: b)).map Entry.id = (onLevel level (a ++ e :: b)).map Entry.id := by
  rw [onLevel, onLevel, List.filter_append, List.filter_append, List.filter_cons, List.filter_cons]
  split_ifs <;> simp

omit [LinearOrder κ] in
theorem Holds.setData {next : List (Option Nat)} (h : Holds s (a ++ e :: b)) (hnode : s.nodes e.id = some ⟨e.data, next⟩)
    (d : δ) : Holds { s with nodes := Function.update s.nodes e.id (some ⟨d, next⟩) } (a ++ { e with data := d } :: b) := by
  have he : e ∈ a ++ e :: b := List.mem_append_right a List.mem_cons_self
  have hmem {c : Entry δ} (hc : c ∈ a ++ { e with data := d } :: b) : c = { e with data := d } ∨ c ∈ a ++ b := by
    rw [List.mem_append, List.mem_cons] at hc
    rw [List.mem_append]
    tauto
  have hsub {c : Entry δ} (hc : c ∈ a ++ b) : c ∈ a ++ e :: b := by
    rw [List.mem_append] at hc
    rw [List.mem_append, List.mem_cons]
    tauto
  have hids : (a ++ { e with data := d } :: b).map Entry.id = (a ++ e :: b).map Entry.id := by
    rw [List.map_append, List.map_cons, List.map_append, List.map_cons]
  have hlink (i : Nat) (p : Place) :
      { s with nodes := Function.update s.nodes e.id (some ⟨d, next⟩) }.link i p = s.link i p := by
    by_cases hp : p = .node e.id
    · rw [hp, link_update_self, State.link, hnode]
      rfl
    · exact link_update_of_ne s i _ hp
  refine ⟨h.head, ?_, hids ▸ h.nodup, ?_, ?_, ?_⟩
  · intro c hc
    rcases hmem hc with rfl | hc
    · obtain ⟨next', hnode', hlen⟩ := h.stored e he
      obtain rfl := (Node.mk.inj (Option.some.inj (hnode'.symm.trans hnode))).2
      exact ⟨next', Function.update_self .., hlen⟩
    · obtain ⟨next', hnode', hlen⟩ := h.stored c (hsub hc)
      exact ⟨next', (Function.update_of_ne (h.other_id c hc) ..).trans hnode', hlen⟩
  · intro c hc
    rcases hmem hc with rfl | hc
    · exact h.fresh e he
    · exact h.fresh c (hsub hc)
  · intro c hc
    rcases hmem hc with rfl | hc
    · exact h.heights e he
    · exact h.heights c (hsub hc)
  · intro i hi
    rw [chain_setData]
    exact (h.links i hi).of_link (hlink i .head) (fun n _ => hlink i (.node n))

theorem sorted_iff : Sorted key l ↔ (l.map (fun e => key e.data)).Pairwise (· < ·) := List.pairwise_map.symm

theorem Inv.put_same (h : Inv key s (a ++ e :: b)) (hcut : Cut key (key d) a (e :: b)) (hk : key e.data = key d)
    (level : Height) : ∃ s', put key s d level = some (s', 0) ∧ Inv key s' (a ++ { e with data := d } :: b) ∧
      s'.frees = s.frees ∧ s'.freed = if s.frees then s.freed ++ [e.data] else s.freed := by
  have he : e ∈ a ++ e :: b := List.mem_append_right a List.mem_cons_self
  let s₁ := s.allocNode level.1 d
  have hne : e.id ≠ s.count := Nat.ne_of_lt (h.fresh e he)
  have hnode : s₁.nodes s.count = some ⟨d, List.replicate level.1 none⟩ := Function.update_self ..
  obtain ⟨next, hold, -⟩ := h.stored e he
  have hold₁ : s₁.nodes e.id = some ⟨e.data, next⟩ := (Function.update_of_ne hne ..).trans hold
  have hholds : Holds s₁ (a ++ e :: b) := h.toHolds.allocNode level.1 d
  have hpath : s₁.findPath key (key d) = some (path s a, .node e.id, true) := by
    rw [hholds.findPath hcut h.pos h.le, pathEnd, decide_eq_true hk]
    rfl
  let s₂ : State δ := { s₁ with nodes := Function.update s₁.nodes s.count (some ⟨e.data, List.replicate level.1 none⟩) }
  have hholds₂ : Holds s₂ (a ++ e :: b) :=
    hholds.congr rfl (fun c hc => Function.update_of_ne (Nat.ne_of_lt (h.fresh c hc)) ..) (Nat.le_refl _)
  have hold₂ : s₂.nodes e.id = some ⟨e.data, next⟩ := (Function.update_of_ne hne ..).trans hold₁
  have hset := hholds₂.setData hold₂ d
  have hfree : (Function.update s₂.nodes e.id (some ⟨d, next⟩)) s.count = some ⟨e.data, List.replicate level.1 none⟩ :=
    (Function.update_of_ne (Ne.symm hne) ..).trans (Function.update_self ..)
  have hids : ∀ c ∈ a ++ { e with data := d } :: b, c.id ≠ s.count := by
    intro c hc
    rw [List.mem_append, List.mem_cons] at hc
    rcases hc with hc | rfl | hc
    · exact Nat.ne_of_lt (h.fresh c (List.mem_append_left _ hc))
    · exact hne
    · exact Nat.ne_of_lt (h.fresh c (List.mem_append_right a (List.mem_cons_of_mem e hc)))
  obtain ⟨s', hs', hholds', hlevels, hsize, hfrees, hfreed⟩ := hset.freeNode hfree hids
  have hlevels' : s'.levels = s.levels := hlevels
  have hheights (m : Nat) : (∃ c ∈ a ++ { e with data := d } :: b, c.height = m) ↔ ∃ c ∈ a ++ e :: b, c.height = m := by
    simp only [List.mem_append, List.mem_cons]
    grind
  refine ⟨s', ?_, ⟨hholds', ?_, hlevels' ▸ h.pos, hlevels' ▸ h.le, ?_, ?_, ?_⟩, hfrees, hfreed⟩
  · rw [put, attach_same hnode hpath, State.replace, hold₁, Option.bind_some, hnode, Option.bind_some]
    exact congrArg (Option.map (fun s => (s, 0))) hs'
  · have hsorted := h.sorted
    rw [sorted_iff, List.map_append, List.map_cons] at hsorted ⊢
    rwa [← hk]
  · intro c hc
    obtain ⟨c', hc', heq⟩ := (hheights c.height).mp ⟨c, hc, rfl⟩
    rw [← heq, hlevels']
    exact h.low c' hc'
  · rw [hlevels']
    apply h.high.imp_right
    rintro ⟨c, hc, hle⟩
    obtain ⟨c', hc', heq⟩ := (hheights c.height).mpr ⟨c, hc, rfl⟩
    exact ⟨c', hc', heq ▸ hle⟩
  · rw [hsize, List.length_append, List.length_cons]
    exact h.size.trans (by rw [List.length_append, List.length_cons])

omit [LinearOrder κ] in
theorem Holds.head_link (h : Holds s l) {level : Nat} (hlevel : level < maxHeight) :
    s.link level .head = some ((onLevel level l).map Entry.id).head? := (h.links level hlevel).link_eq

theorem Inv.remove_same (h : Inv key s (a ++ e :: b)) (hcut : Cut key k a (e :: b)) (hk : key e.data = k) :
    ∃ s', remove key s k = some (s', 0) ∧ Inv key s' (a ++ b) ∧ s'.frees = s.frees ∧
      s'.freed = if s.frees then s.freed ++ [e.data] else s.freed := by
  have he : e ∈ a ++ e :: b := List.mem_append_right a List.mem_cons_self
  have hsub {c : Entry δ} (hc : c ∈ a ++ b) : c ∈ a ++ e :: b := by
    rw [List.mem_append] at hc
    rw [List.mem_append, List.mem_cons]
    tauto
  have hpath : s.findPath key k = some (path s a, .node e.id, true) := by
    rw [h.findPath hcut h.pos h.le, pathEnd, decide_eq_true hk]
    rfl
  have hprev : ∀ i < s.levels, path s a i = some (front i a) := fun i hi => if_pos hi
  obtain ⟨s₁, hs₁, hrewired, hholds⟩ := h.toHolds.remove h.le (h.low e he) hprev
  have hlevels : s₁.levels = s.levels := hrewired.levels
  have hheads : ∀ i < s₁.levels, (s₁.link i .head).isSome := by
    intro i hi
    rw [hholds.head_link (Nat.lt_of_lt_of_le (hlevels ▸ hi) h.le)]
    rfl
  obtain ⟨r, hr, hpos, hle, hempty, hlast⟩ := lower_spec hheads (hlevels ▸ h.pos)
  obtain ⟨next, hnode, -⟩ := hrewired.stored (h.stored e he)
  let s₂ : State δ := { s₁ with levels := r, size := (s₁.size + (2 ^ 32 - 1)) % 2 ^ 32 }
  have hholds₂ : Holds s₂ (a ++ b) := hholds.congr rfl (fun _ _ => rfl) (Nat.le_refl _)
  have hnode₂ : s₂.nodes e.id = some ⟨e.data, next⟩ := hnode
  obtain ⟨s₃, hs₃, hholds₃, hlevels₃, hsize₃, hfrees, hfreed⟩ := hholds₂.freeNode hnode₂ h.toHolds.other_id
  have hr₃ : s₃.levels = r := hlevels₃
  have hrmax : r ≤ maxHeight := Nat.le_trans hle (hlevels ▸ h.le)
  refine ⟨s₃, ?_, ⟨hholds₃, ?_, hr₃ ▸ hpos, hr₃ ▸ hrmax, ?_, ?_, ?_⟩, ?_, ?_⟩
  · have hdetach : s.detach (path s a) e.id = some s₂ := by
      rw [State.detach, hs₁, Option.bind_some, hr]
      rfl
    rw [remove, hpath, Option.bind_some]
    dsimp only
    rw [hdetach, Option.bind_some, hs₃]
    rfl
  · exact h.sorted.sublist ((List.sublist_cons_self e b).append_left a)
  · intro c hc
    rw [hr₃]
    by_contra hlt
    have hlow : c.height ≤ s₁.levels := hlevels ▸ h.low c (hsub hc)
    have hi : c.height - 1 < maxHeight := by
      have := (h.heights c (hsub hc)).2
      omega
    have hnone := hempty (c.height - 1) (by omega) (by omega)
    rw [hholds.head_link hi] at hnone
    have hnil : onLevel (c.height - 1) (a ++ b) = [] := by simpa using hnone
    have hmem : c ∈ onLevel (c.height - 1) (a ++ b) :=
      List.mem_filter.mpr ⟨hc, decide_eq_true (by omega : c.height - 1 < c.height)⟩
    rw [hnil] at hmem
    exact List.not_mem_nil hmem
  · rw [hr₃]
    apply hlast.imp_right
    rintro ⟨m, hm⟩
    rw [hholds.head_link (by omega)] at hm
    obtain ⟨c, hc, -⟩ := List.mem_map.mp (List.mem_of_head? (Option.some.inj hm))
    obtain ⟨hc, hheight⟩ := List.mem_filter.mp hc
    refine ⟨c, hc, ?_⟩
    have := of_decide_eq_true hheight
    omega
  · have hsize₁ : s₁.size = s.size := hrewired.size
    have hsize₂ : s₂.size = (s₁.size + (2 ^ 32 - 1)) % 2 ^ 32 := rfl
    have hlen : (a ++ e :: b).length = (a ++ b).length + 1 := by
      rw [List.length_append, List.length_append, List.length_cons, Nat.add_assoc]
    rw [hsize₃, hsize₂, hsize₁, h.size, hlen]
    omega
  · exact hfrees.trans hrewired.frees
  · have hfrees₂ : s₂.frees = s.frees := hrewired.frees
    have hfreed₂ : s₂.freed = s.freed := hrewired.freed
    rw [hfreed, hfrees₂, hfreed₂]

theorem Inv.remove_absent (h : Inv key s (a ++ b)) (hcut : Cut key k a b) (hnew : (pathEnd key k a b).2 = false) :
    remove key s k = some (s, 1) := by
  have hpath : s.findPath key k = some (path s a, (pathEnd key k a b).1, false) := by
    rw [h.findPath hcut h.pos h.le, ← hnew]
    rfl
  rw [remove, hpath, Option.bind_some]
  cases (pathEnd key k a b).1 <;> rfl

theorem Inv.get_same (h : Inv key s (a ++ e :: b)) (hcut : Cut key k a (e :: b)) (hk : key e.data = k) :
    get key s k = some (some e.data) := by
  obtain ⟨next, hnode, -⟩ := h.stored e (List.mem_append_right a List.mem_cons_self)
  rw [get, h.lookup h.sorted hcut h.pos h.le, pathEnd, decide_eq_true hk, if_pos rfl, Option.bind_some]
  dsimp only
  rw [hnode, Option.map_some]

theorem Inv.get_absent (h : Inv key s (a ++ b)) (hcut : Cut key k a b) (hnew : (pathEnd key k a b).2 = false) :
    get key s k = some none := by
  rw [get, h.lookup h.sorted hcut h.pos h.le, hnew, if_neg Bool.false_ne_true, Option.bind_some]

end RaleighSL.Zcl.SkipList
