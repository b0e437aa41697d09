import RaleighSL.Zcl.SkipList.Runs

/-!
# Navigation in the skip list

`z_skip_node_less` and `z_skip_node_less_eq` use the search of `z_skip_node_lookup` with other
flags, and the iterator uses them to go back. The search steps over a node with the key itself
when it does not look for it, and in front of the first node it returns the head.
-/
namespace RaleighSL.Zcl.SkipList

open Library

variable {δ κ : Type*}

/-! ### The iterator -/

/-- The data of the node where an iterator stands; the head has none. -/
def State.data (s : State δ) : Option Place → Option (Option δ)
  | some (.node n) => (s.nodes n).map (fun node => some node.data)
  | _ => some none

def State.current (s : State δ) (p : Option Place) : Option (Option Place × Option δ) := (s.data p).map (fun d => (p, d))

/-- `__skip_node_max`, from a level down. -/
def State.maxFrom (s : State δ) : Nat → Place → Option (Option Place)
  | 0, p => some (if p = .head then none else some p)
  | level + 1, p => (s.walk (fun _ => true) level (s.count + 1) p).bind (fun r => s.maxFrom level r.1)

def iterEnd (s : State δ) : Option (Option Place × Option δ) := (s.maxFrom s.levels .head).bind s.current

def iterNext (s : State δ) : Option Place → Option (Option Place × Option δ)
  | none => some (none, none)
  | some p => (s.link 0 p).bind (fun next => s.current (next.map .node))

inductive Seek where
  | eq
  | lt
  | le
  | gt
  deriving DecidableEq, Repr

variable [LinearOrder κ] (key : δ → κ)

/-- `z_skip_node_less`. -/
def less (s : State δ) (k : κ) : Option (Option Place) := (s.lookup key false true k).map Prod.fst

/-- `z_skip_node_less_eq`, and `found`. -/
def lessEq (s : State δ) (k : κ) : Option (Option Place × Bool) := s.lookup key true true k

/-- `__skip_list_prev`. At the head there is no data to compare with. -/
def iterPrev (s : State δ) : Option Place → Option (Option Place × Option δ)
  | none => some (none, none)
  | some .head => none
  | some (.node n) => (s.nodes n).bind (fun node => (less key s (key node.data)).bind s.current)

def iterSeek (s : State δ) (k : κ) : Seek → Option (Option Place × Option δ)
  | .eq => (s.lookup key true false k).bind (fun r => s.current r.1)
  | .lt => (less key s k).bind s.current
  | .le => (lessEq key s k).bind (fun r => s.current r.1)
  | .gt => (lessEq key s k).bind (fun r =>
      match r.1 with
      | none => s.current none
      | some p => (s.link 0 p).bind (fun next => s.current (next.map .node)))

/-- What `__skip_list_prev` returns until it returns nothing. -/
def descend (s : State δ) : Nat → Option Place → Option (List δ)
  | 0, _ => none
  | fuel + 1, p => (iterPrev key s p).bind (fun r =>
      match r.2 with
      | none => some []
      | some d => (descend s fuel r.1).map (List.cons d))

/-- What the iterator returns from `__skip_list_end` on. -/
def backward (s : State δ) (fuel : Nat) : Option (List δ) :=
  (iterEnd s).bind (fun r =>
    match r.2 with
    | none => some []
    | some d => (descend key s fuel r.1).map (List.cons d))

/-! ### What navigation has to do -/

/-- The last entry of those that are in front of a key, or at it. -/
def lastBelow (k : κ) (l : List (Entry δ)) : Option (Entry δ) := (l.filter (fun e => key e.data < k)).getLast?

def lastUpTo (k : κ) (l : List (Entry δ)) : Option (Entry δ) := (l.filter (fun e => key e.data ≤ k)).getLast?

/-- The entry for a relation to a key. -/
def sought (k : κ) (l : List (Entry δ)) : Seek → Option (Entry δ)
  | .eq => l.find? (fun e => key e.data = k)
  | .lt => lastBelow key k l
  | .le => lastUpTo key k l
  | .gt => l.find? (fun e => k < key e.data)

def LessRight (s : State δ) (l : List (Entry δ)) (k : κ) : Prop :=
  less key s k = some ((lastBelow key k l).map (fun e => .node e.id))

def LessEqRight (s : State δ) (l : List (Entry δ)) (k : κ) : Prop :=
  lessEq key s k = some ((lastUpTo key k l).map (fun e => .node e.id), decide (∃ e ∈ l, key e.data = k))

def SeekRight (s : State δ) (l : List (Entry δ)) (k : κ) (seek : Seek) : Prop :=
  (iterSeek key s k seek).map Prod.snd = some ((sought key k l seek).map Entry.data)

/-- From an entry the iterator goes to the one behind it, and back. -/
def Undone (s : State δ) (e e' : Entry δ) : Prop :=
  iterNext s (some (.node e.id)) = some (some (.node e'.id), some e'.data) ∧
    iterPrev key s (some (.node e'.id)) = some (some (.node e.id), some e.data)

/-- The iterator returns everything in descending order and stops. -/
def Descends (s : State δ) (l : List (Entry δ)) : Prop := ∃ fuel, backward key s fuel = some (l.reverse.map Entry.data)

structure Navigates (s : State δ) (l : List (Entry δ)) (k : κ) : Prop where
  less : LessRight key s l k
  lessEq : LessEqRight key s l k
  seek : ∀ seek, SeekRight key s l k seek
  undone : ∀ a e e' b, l = a ++ e :: e' :: b → Undone key s e e'
  descends : Descends key s l

variable {key} {k : κ} {s : State δ} {l a b : List (Entry δ)} {e : Entry δ} {level : Nat} {p : Place}

/-! ### The search for a place in front of a key -/

@[simp] theorem front_nil (level : Nat) : front level ([] : List (Entry δ)) = .head := rfl

theorem Holds.front_zero (h : Holds s (a ++ e :: b)) : front 0 (a ++ [e]) = .node e.id := by
  have hall : onLevel 0 [e] = [e] := by
    have hpos : 0 < e.height := (h.heights e (by simp)).1
    simp [onLevel, hpos]
  rw [front, onLevel_append, hall, List.map_append, List.map_singleton, endOf_concat]

theorem Holds.front_zero_last (h : Holds s (a ++ [e] ++ b)) : front 0 (a ++ [e]) = .node e.id := by
  rw [List.append_assoc] at h
  exact h.front_zero

/-- What the search with `ITEM_CMP_LESS` returns. -/
def reached (key : δ → κ) (k : κ) (a : List (Entry δ)) : List (Entry δ) → Option Place × Bool
  | [] => (if front 0 a = .head then none else some (front 0 a), false)
  | e :: _ => if key e.data = k then (some (.node e.id), true) else (some (front 0 a), false)

theorem Holds.lookupFrom_less {eq : Bool} (h : Holds s (a ++ b)) (hsort : Sorted key (a ++ b))
    (ha : ∀ e ∈ a, key e.data < k ∨ (key e.data = k ∧ ¬ eq)) (hb : ∀ e ∈ b, k ≤ key e.data ∧ (key e.data = k → eq))
    {c x : List (Entry δ)} (hlevel : level < maxHeight) (hcx : onLevel level a = c ++ x)
    (hp : p = endOf .node .head (c.map Entry.id)) :
    s.lookupFrom key eq true k (level + 1) p = some (reached key k a b) := by
  have hgoes : ∀ e ∈ a, decide (key e.data < k ∨ (key e.data = k ∧ ¬ eq)) = true := fun e he => decide_eq_true (ha e he)
  have hstops : ∀ e ∈ b, ¬ decide (key e.data < k ∨ (key e.data = k ∧ ¬ eq)) = true := by
    intro e he
    rw [decide_eq_true_eq]
    rintro (hlt | ⟨hk, hne⟩)
    · exact absurd (hb e he).1 (not_le.mpr hlt)
    · exact hne ((hb e he).2 hk)
  induction level generalizing p c x with
  | zero =>
    rw [State.lookupFrom, h.walk hgoes hstops hlevel hcx hp, h.onLevel_zero, Option.bind_some]
    cases b with
    | nil =>
      by_cases hfront : front 0 a = .head
      · simp [reached, State.lookupFrom, hfront]
      · simp [reached, State.lookupFrom, hfront]
    | cons e b =>
      by_cases hk : key e.data = k
      · simp [reached, hk]
      · simp [reached, hk]
  | succ level ih =>
    obtain ⟨c', x', hcx', hfront⟩ := front_succ level a
    have hrest := ih (Nat.lt_of_succ_lt hlevel) hcx' hfront
    rw [State.lookupFrom, h.walk hgoes hstops hlevel hcx hp, Option.bind_some]
    cases hhead : (onLevel (level + 1) b).head? with
    | none => exact hrest
    | some e =>
      have he : e ∈ b := mem_of_onLevel (List.mem_of_mem_head? hhead)
      by_cases hk : key e.data = k
      · cases b with
        | nil => exact absurd he List.not_mem_nil
        | cons e' b =>
          have hfirst : e = e' := by
            rcases List.mem_cons.mp he with heq | he
            · exact heq
            · have hlt := (List.pairwise_cons.mp (List.pairwise_append.mp hsort).2.1).1 e he
              rw [hk] at hlt
              exact absurd (hb e' List.mem_cons_self).1 (not_le.mpr hlt)
          subst hfirst
          simp [reached, hk]
      · simpa [hk] using hrest

theorem Inv.lookup_less {q : Bool} (h : Inv key s (a ++ b))
    (ha : ∀ e ∈ a, key e.data < k ∨ (key e.data = k ∧ ¬ q)) (hb : ∀ e ∈ b, k ≤ key e.data ∧ (key e.data = k → q)) :
    s.lookup key q true k = some (reached key k a b) := by
  obtain ⟨level, hlevels⟩ : ∃ level, s.levels = level + 1 := ⟨s.levels - 1, by have := h.pos; omega⟩
  have hle := h.le
  rw [State.lookup, hlevels]
  exact h.lookupFrom_less h.sorted ha hb (by omega) (List.nil_append (onLevel level a)).symm rfl

theorem Inv.lookup_less_absent {eq : Bool} (h : Inv key s (a ++ b)) (hcut : Cut key k a b) (hb : ∀ e ∈ b, k < key e.data) :
    s.lookup key eq true k = some (if b = [] then a.getLast?.map (fun e => .node e.id) else some (front 0 a), false) := by
  rw [h.lookup_less (fun e he => Or.inl (hcut.below e he))
    (fun e he => ⟨hcut.above e he, fun hk => absurd hk (ne_of_gt (hb e he))⟩)]
  cases b with
  | nil =>
    rcases List.eq_nil_or_concat a with rfl | ⟨a, e, rfl⟩
    · rfl
    · rw [List.concat_eq_append] at h ⊢
      simp [reached, h.front_zero_last]
  | cons e b => simp [reached, ne_of_gt (hb e List.mem_cons_self)]

theorem Inv.less_same (h : Inv key s (a ++ e :: b)) (hcut : Cut key k a (e :: b)) (hk : key e.data = k) :
    less key s k = some (some (.node e.id)) := by
  have hfront := h.front_zero
  have hother := hcut.other_cons h.sorted hk
  rw [← List.singleton_append, ← List.append_assoc] at h
  rw [less, h.lookup_less (q := false)]
  · cases b with
    | nil => simp [reached, hfront]
    | cons c b => simp [reached, hfront, hother c (by simp)]
  · intro c hc
    rcases List.mem_append.mp hc with hc | hc
    · exact Or.inl (hcut.below c hc)
    · rw [List.mem_singleton.mp hc]
      exact Or.inr ⟨hk, by simp⟩
  · intro c hc
    exact ⟨hcut.above c (List.mem_cons_of_mem e hc), fun heq => absurd heq (hother c (List.mem_append_right a hc))⟩

theorem Inv.lessEq_same (h : Inv key s (a ++ e :: b)) (hcut : Cut key k a (e :: b)) (hk : key e.data = k) :
    lessEq key s k = some (some (.node e.id), true) := by
  rw [lessEq, h.lookup_less (fun c hc => Or.inl (hcut.below c hc)) (fun c hc => ⟨hcut.above c hc, fun _ => rfl⟩)]
  simp [reached, hk]

/-! ### The entries around a key -/

theorem filter_split {P : Entry δ → Bool} (ha : ∀ e ∈ a, P e) (hb : ∀ e ∈ b, ¬ P e) : (a ++ b).filter P = a := by
  rw [List.filter_append, List.filter_eq_self.mpr ha, List.filter_eq_nil_iff.mpr hb, List.append_nil]

theorem Cut.lastBelow (hcut : Cut key k a b) : lastBelow key k (a ++ b) = a.getLast? := by
  rw [SkipList.lastBelow, filter_split]
  · exact fun e he => decide_eq_true (hcut.below e he)
  · exact fun e he => by simpa using hcut.above e he

theorem Cut.lastUpTo_absent (hcut : Cut key k a b) (hb : ∀ e ∈ b, k < key e.data) :
    lastUpTo key k (a ++ b) = a.getLast? := by
  rw [SkipList.lastUpTo, filter_split]
  · exact fun e he => decide_eq_true (le_of_lt (hcut.below e he))
  · exact fun e he => by simpa using hb e he

theorem Cut.lastUpTo_same (hsort : Sorted key (a ++ e :: b)) (hcut : Cut key k a (e :: b)) (hk : key e.data = k) :
    lastUpTo key k (a ++ e :: b) = some e := by
  have hb : ∀ c ∈ b, k < key c.data := by
    rw [← hk]
    exact (List.pairwise_cons.mp (List.pairwise_append.mp hsort).2.1).1
  rw [SkipList.lastUpTo, ← List.singleton_append, ← List.append_assoc, filter_split, List.getLast?_concat]
  · intro c hc
    rcases List.mem_append.mp hc with hc | hc
    · exact decide_eq_true (le_of_lt (hcut.below c hc))
    · rw [List.mem_singleton.mp hc]
      exact decide_eq_true (le_of_eq hk)
  · exact fun c hc => by simpa using hb c hc

/-! ### The searches -/

theorem Inv.lessRight_iff (h : Inv key s l) (k : κ) :
    LessRight key s l k ↔ (∀ e ∈ l, key e.data ≠ k) ∧ (l = [] ∨ ∃ e ∈ l, key e.data < k) := by
  rcases exists_place h.sorted k with ⟨a, b, rfl, hcut, hnew⟩ | ⟨a, e, b, rfl, hcut, hk⟩
  · have hstrict := hcut.strict h.sorted hnew
    rw [LessRight, less, h.lookup_less_absent hcut hstrict, hcut.lastBelow]
    simp only [Option.map_some]
    rw [and_iff_right (hcut.other hstrict)]
    rcases List.eq_nil_or_concat a with rfl | ⟨a, e, rfl⟩
    · cases b with
      | nil => simp
      | cons c b =>
        have hc : ∀ e ∈ c :: b, ¬ key e.data < k := fun e he => not_lt.mpr (le_of_lt (hstrict e he))
        simpa using hc
    · rw [List.concat_eq_append] at h hcut ⊢
      have hmem : ∃ c ∈ a ++ [e] ++ b, key c.data < k := ⟨e, by simp, hcut.below e (by simp)⟩
      simp only [h.front_zero_last, hmem, or_true, iff_true]
      split_ifs <;> simp
  · rw [LessRight, h.less_same hcut hk, hcut.lastBelow]
    refine iff_of_false ?_ (fun hne => hne.1 e (by simp) hk)
    intro heq
    cases hlast : a.getLast? with
    | none => simp [hlast] at heq
    | some c =>
      have hc := h.other_id c (List.mem_append_left b (List.mem_of_getLast? hlast))
      simp only [hlast, Option.map_some, Option.some.injEq, Place.node.injEq] at heq
      exact hc heq.symm

theorem Inv.lessEqRight_iff (h : Inv key s l) (k : κ) :
    LessEqRight key s l k ↔ l = [] ∨ ∃ e ∈ l, key e.data ≤ k := by
  rcases exists_place h.sorted k with ⟨a, b, rfl, hcut, hnew⟩ | ⟨a, e, b, rfl, hcut, hk⟩
  · have hstrict := hcut.strict h.sorted hnew
    have hnone : ¬ ∃ e ∈ a ++ b, key e.data = k := by
      rintro ⟨e, he, hk⟩
      exact hcut.other hstrict e he hk
    rw [LessEqRight, lessEq, h.lookup_less_absent hcut hstrict, hcut.lastUpTo_absent hstrict, decide_eq_false hnone]
    rcases List.eq_nil_or_concat a with rfl | ⟨a, e, rfl⟩
    · cases b with
      | nil => simp
      | cons c b =>
        have hc : ∀ e ∈ c :: b, ¬ key e.data ≤ k := fun e he => not_le.mpr (hstrict e he)
        simpa using hc
    · rw [List.concat_eq_append] at h hcut ⊢
      have hmem : ∃ c ∈ a ++ [e] ++ b, key c.data ≤ k := ⟨e, by simp, le_of_lt (hcut.below e (by simp))⟩
      simp only [h.front_zero_last, hmem, or_true, iff_true]
      split_ifs <;> simp
  · have hsome : ∃ c ∈ a ++ e :: b, key c.data = k := ⟨e, by simp, hk⟩
    rw [LessEqRight, h.lessEq_same hcut hk, hcut.lastUpTo_same h.sorted hk, decide_eq_true hsome]
    exact iff_of_true rfl (Or.inr ⟨e, by simp, le_of_eq hk⟩)

/-! ### The moves of the iterator -/

theorem Holds.current (h : Holds s l) {o : Option (Entry δ)} (ho : ∀ e ∈ o, e ∈ l) :
    s.current (o.map (fun e => .node e.id)) = some (o.map (fun e => .node e.id), o.map Entry.data) := by
  cases o with
  | none => rfl
  | some e =>
    obtain ⟨next, hnode, -⟩ := h.stored e (ho e rfl)
    show ((s.nodes e.id).map _).map _ = _
    rw [hnode]
    rfl

theorem Holds.behind (h : Holds s (a ++ b)) :
    (s.link 0 (front 0 a)).bind (fun next => s.current (next.map .node)) =
      some (b.head?.map (fun e => .node e.id), b.head?.map Entry.data) := by
  rw [h.link_front (by decide), h.onLevel_zero, Option.bind_some, List.head?_map, Option.map_map]
  exact h.current (fun e he => List.mem_append_right a (List.mem_of_mem_head? he))

theorem Holds.iterNext (h : Holds s (a ++ e :: b)) :
    iterNext s (some (.node e.id)) = some (b.head?.map (fun e => .node e.id), b.head?.map Entry.data) := by
  have hfront := h.front_zero
  rw [← List.singleton_append, ← List.append_assoc] at h
  rw [SkipList.iterNext, ← hfront]
  exact h.behind

/-- `__skip_list_prev` stays where it is. -/
theorem Inv.iterPrev (h : Inv key s (a ++ e :: b)) :
    iterPrev key s (some (.node e.id)) = some (some (.node e.id), some e.data) := by
  obtain ⟨hab, hsort, hlt⟩ := List.pairwise_append.mp h.sorted
  have hcut : Cut key (key e.data) a (e :: b) := by
    refine ⟨fun c hc => hlt c hc e List.mem_cons_self, ?_⟩
    intro c hc
    rcases List.mem_cons.mp hc with rfl | hc
    · exact le_refl _
    · exact le_of_lt ((List.pairwise_cons.mp hsort).1 c hc)
  have hcurrent := h.toHolds.current (o := some e) (by simp)
  obtain ⟨next, hnode, -⟩ := h.stored e (by simp)
  show (s.nodes e.id).bind _ = _
  rw [hnode, Option.bind_some, h.less_same hcut rfl]
  exact hcurrent

theorem Holds.maxFrom (h : Holds s l) {c x : List (Entry δ)} (hlevel : level < maxHeight)
    (hcx : onLevel level l = c ++ x) (hp : p = endOf .node .head (c.map Entry.id)) :
    s.maxFrom (level + 1) p = some (l.getLast?.map (fun e => .node e.id)) := by
  induction level generalizing p c x with
  | zero =>
    have h' : Holds s (l ++ []) := by rwa [List.append_nil]
    rw [State.maxFrom, h'.walk (fun _ _ => rfl) (by simp) hlevel hcx hp, Option.bind_some, State.maxFrom]
    rcases List.eq_nil_or_concat l with rfl | ⟨l, e, rfl⟩
    · rfl
    · rw [List.concat_eq_append] at h ⊢
      simp [h.front_zero]
  | succ level ih =>
    have h' : Holds s (l ++ []) := by rwa [List.append_nil]
    obtain ⟨c', x', hcx', hfront⟩ := front_succ level l
    rw [State.maxFrom, h'.walk (fun _ _ => rfl) (by simp) hlevel hcx hp, Option.bind_some]
    exact ih (Nat.lt_of_succ_lt hlevel) hcx' hfront

theorem Inv.iterEnd (h : Inv key s l) :
    iterEnd s = some (l.getLast?.map (fun e => .node e.id), l.getLast?.map Entry.data) := by
  obtain ⟨level, hlevels⟩ : ∃ level, s.levels = level + 1 := ⟨s.levels - 1, by have := h.pos; omega⟩
  have hle := h.le
  have hmax := h.toHolds.maxFrom (p := .head) (c := []) (by omega) (List.nil_append (onLevel level l)).symm rfl
  rw [SkipList.iterEnd, hlevels, hmax, Option.bind_some]
  exact h.toHolds.current (fun e he => List.mem_of_mem_getLast? he)

/-! ### What holds of navigation -/

theorem find_split {P : Entry δ → Bool} (ha : ∀ e ∈ a, ¬ P e) (hb : ∀ e ∈ b, P e) : (a ++ b).find? P = b.head? := by
  rw [List.find?_append, List.find?_eq_none.mpr ha, Option.none_or]
  cases b with
  | nil => rfl
  | cons e b => exact List.find?_cons_of_pos (hb e List.mem_cons_self)

/-- At the place in front of a key that is not there the iterator returns the last entry below it, and goes on with
the first one above it. -/
theorem Holds.around (h : Holds s (a ++ b)) {p : Option Place}
    (hp : p = if b = [] then a.getLast?.map (fun e => .node e.id) else some (front 0 a)) :
    (s.current p).map Prod.snd = some (a.getLast?.map Entry.data) ∧
      (match p with
        | none => s.current none
        | some p => (s.link 0 p).bind (fun next => s.current (next.map .node))).map Prod.snd =
          some (b.head?.map Entry.data) := by
  rcases List.eq_nil_or_concat a with rfl | ⟨a, e, rfl⟩
  · cases b with
    | nil =>
      subst hp
      exact ⟨rfl, rfl⟩
    | cons c b =>
      rw [if_neg (by simp)] at hp
      subst hp
      refine ⟨rfl, ?_⟩
      dsimp only
      rw [h.behind]
      rfl
  · rw [List.concat_eq_append] at h hp ⊢
    have hplace : p = some (front 0 (a ++ [e])) := by
      rw [hp, h.front_zero_last]
      split_ifs <;> simp
    subst hplace
    refine ⟨?_, ?_⟩
    · have hcurrent := h.current (o := some e) (by simp)
      rw [h.front_zero_last]
      simpa using congrArg (Option.map Prod.snd) hcurrent
    · dsimp only
      rw [h.behind]
      rfl

theorem Inv.seek_absent (h : Inv key s (a ++ b)) (hcut : Cut key k a b) (hnew : (pathEnd key k a b).2 = false) (seek : Seek) :
    SeekRight key s (a ++ b) k seek := by
  have hstrict := hcut.strict h.sorted hnew
  have haround := h.toHolds.around rfl
  cases seek with
  | eq =>
    have hnone : (a ++ b).find? (fun e => key e.data = k) = none := by
      rw [List.find?_eq_none]
      intro e he
      simpa using hcut.other hstrict e he
    rw [SeekRight, sought, hnone, iterSeek, h.lookup h.sorted hcut h.pos h.le, hnew]
    rfl
  | lt =>
    rw [SeekRight, sought, hcut.lastBelow, iterSeek, less, h.lookup_less_absent hcut hstrict]
    exact haround.1
  | le =>
    rw [SeekRight, sought, hcut.lastUpTo_absent hstrict, iterSeek, lessEq, h.lookup_less_absent hcut hstrict]
    exact haround.1
  | gt =>
    have hfind : (a ++ b).find? (fun e => k < key e.data) = b.head? := by
      apply find_split
      · exact fun e he => by simpa using le_of_lt (hcut.below e he)
      · exact fun e he => decide_eq_true (hstrict e he)
    rw [SeekRight, sought, hfind, iterSeek, lessEq, h.lookup_less_absent hcut hstrict]
    exact haround.2

theorem Inv.seek_same (h : Inv key s (a ++ e :: b)) (hcut : Cut key k a (e :: b)) (hk : key e.data = k) (seek : Seek) :
    SeekRight key s (a ++ e :: b) k seek ↔ seek ≠ .lt := by
  have hcurrent := h.toHolds.current (o := some e) (by simp)
  simp only [Option.map_some] at hcurrent
  have hb : ∀ c ∈ b, k < key c.data := by
    rw [← hk]
    exact (List.pairwise_cons.mp (List.pairwise_append.mp h.sorted).2.1).1
  cases seek with
  | eq =>
    have hfind : (a ++ e :: b).find? (fun e => key e.data = k) = some e := by
      rw [List.find?_append, List.find?_eq_none.mpr (fun c hc => by simpa using ne_of_lt (hcut.below c hc)), Option.none_or,
        List.find?_cons_of_pos (by simpa using hk)]
    rw [SeekRight, sought, hfind, iterSeek, h.lookup h.sorted hcut h.pos h.le, pathEnd, decide_eq_true hk, if_pos rfl,
      Option.bind_some]
    simp [hcurrent]
  | lt =>
    rw [SeekRight, sought, hcut.lastBelow, iterSeek, h.less_same hcut hk, Option.bind_some, hcurrent]
    refine iff_of_false ?_ (by simp)
    intro heq
    cases hlast : a.getLast? with
    | none => simp [hlast] at heq
    | some c =>
      have hlt := hcut.below c (List.mem_of_getLast? hlast)
      simp only [hlast, Option.map_some, Option.some.injEq] at heq
      rw [← heq, hk] at hlt
      exact absurd hlt (lt_irrefl k)
  | le =>
    rw [SeekRight, sought, hcut.lastUpTo_same h.sorted hk, iterSeek, h.lessEq_same hcut hk, Option.bind_some]
    simp [hcurrent]
  | gt =>
    have hfind : (a ++ e :: b).find? (fun e => k < key e.data) = b.head? := by
      rw [← List.singleton_append, ← List.append_assoc]
      apply find_split
      · intro c hc
        rcases List.mem_append.mp hc with hc | hc
        · simpa using le_of_lt (hcut.below c hc)
        · rw [List.mem_singleton.mp hc]
          simpa using le_of_eq hk
      · exact fun c hc => decide_eq_true (hb c hc)
    have hnext := h.toHolds.iterNext
    rw [SkipList.iterNext] at hnext
    rw [SeekRight, sought, hfind, iterSeek, h.lessEq_same hcut hk, Option.bind_some]
    simp [hnext]

theorem Inv.seekRight_iff (h : Inv key s l) (k : κ) (seek : Seek) :
    SeekRight key s l k seek ↔ (seek = .lt → ∀ e ∈ l, key e.data ≠ k) := by
  rcases exists_place h.sorted k with ⟨a, b, rfl, hcut, hnew⟩ | ⟨a, e, b, rfl, hcut, hk⟩
  · exact iff_of_true (h.seek_absent hcut hnew seek) (fun _ => hcut.other (hcut.strict h.sorted hnew))
  · rw [h.seek_same hcut hk]
    constructor
    · intro hne heq
      exact absurd heq hne
    · rintro hall rfl
      exact hall rfl e (by simp) hk

theorem Inv.undone_iff (h : Inv key s l) : (∀ a e e' b, l = a ++ e :: e' :: b → Undone key s e e') ↔ l.length ≤ 1 := by
  constructor
  · intro hundone
    match l, hundone, h with
    | [], _, _ => simp
    | [e], _, _ => simp
    | e :: e' :: b, hundone, h =>
      have hprev := (hundone [] e e' b rfl).2
      have hne : e.id ≠ e'.id := Holds.other_id (a := [e]) (e := e') h.toHolds e (by simp)
      rw [Inv.iterPrev (a := [e]) h] at hprev
      simp only [Option.some.injEq, Prod.mk.injEq, Place.node.injEq] at hprev
      exact absurd hprev.1.symm hne
  · rintro hlen a e e' b rfl
    simp only [List.length_append, List.length_cons] at hlen
    omega

theorem Inv.descend_none (h : Inv key s (a ++ e :: b)) (fuel : Nat) : descend key s fuel (some (.node e.id)) = none := by
  induction fuel with
  | zero => rfl
  | succ fuel ih =>
    rw [descend, h.iterPrev, Option.bind_some]
    simp [ih]

theorem Inv.descends_iff (h : Inv key s l) : Descends key s l ↔ l = [] := by
  rcases List.eq_nil_or_concat l with rfl | ⟨l, e, rfl⟩
  · refine iff_of_true ⟨0, ?_⟩ rfl
    rw [backward, h.iterEnd]
    rfl
  · rw [List.concat_eq_append] at h ⊢
    refine iff_of_false ?_ (by simp)
    rintro ⟨fuel, hfuel⟩
    rw [backward, h.iterEnd] at hfuel
    simp [h.descend_none] at hfuel

theorem Inv.navigates_iff (h : Inv key s l) (k : κ) : Navigates key s l k ↔ l = [] := by
  constructor
  · intro hnav
    exact h.descends_iff.mp hnav.descends
  · rintro rfl
    exact ⟨(h.lessRight_iff k).mpr ⟨by simp, Or.inl rfl⟩, (h.lessEqRight_iff k).mpr (Or.inl rfl),
      fun seek => (h.seekRight_iff k seek).mpr (fun _ => by simp), h.undone_iff.mpr (by simp), h.descends_iff.mpr rfl⟩

/-- In a list that any calls have built, `z_skip_node_less` is right for keys that are not there and not below all others,
`z_skip_node_less_eq` for keys that are not below all others, and seeking fails only with `Z_ITERATOR_SEEK_LT` for a key
that is there. Going back never leaves an element, so all of navigation is right for the empty list alone. -/
theorem run_navigates_iff (key : δ → κ) (frees : Bool) (ops : List (Op δ κ)) (k : κ) :
    ∃ s l, exec (SkipList.step key) (alloc frees) ops = some (s, (specExec (specStep key) Spec.empty ops).2) ∧
      Models key s l (specExec (specStep key) Spec.empty ops).1 ∧
      (LessRight key s l k ↔ (∀ e ∈ l, key e.data ≠ k) ∧ (l = [] ∨ ∃ e ∈ l, key e.data < k)) ∧
      (LessEqRight key s l k ↔ l = [] ∨ ∃ e ∈ l, key e.data ≤ k) ∧
      (∀ seek, SeekRight key s l k seek ↔ (seek = .lt → ∀ e ∈ l, key e.data ≠ k)) ∧
      ((∀ a e e' b, l = a ++ e :: e' :: b → Undone key s e e') ↔ l.length ≤ 1) ∧
      (Descends key s l ↔ l = []) ∧ (Navigates key s l k ↔ l = []) := by
  obtain ⟨s, l, hs, -, hmodels⟩ := run_models key frees ops
  have hinv := hmodels.toInv
  exact ⟨s, l, hs, hmodels, hinv.lessRight_iff k, hinv.lessEqRight_iff k, hinv.seekRight_iff k, hinv.undone_iff,
    hinv.descends_iff, hinv.navigates_iff k⟩

/-- A list with the key 5 alone: below 5 the search finds 5, below 3 the head, and the way back from 5 ends at 5. -/
theorem less_finds_equal : ∃ s l outs, exec (SkipList.step id) (alloc true) [.put 5 ⟨1, by decide⟩] = some (s, outs) ∧
    Models id s l (specExec (specStep id) Spec.empty [.put 5 ⟨1, by decide⟩]).1 ∧ ¬ Navigates id s l 5 ∧
    less id s 5 = some (some (.node 0)) ∧ less id s 3 = some (some .head) ∧
    iterPrev id s (some (.node 0)) = some (some (.node 0), some 5) := by
  have hless : (exec (SkipList.step id) (alloc true) [.put 5 ⟨1, by decide⟩]).map (fun r => (less id r.1 5, less id r.1 3,
      iterPrev id r.1 (some (.node 0)))) =
        some (some (some (.node 0)), some (some .head), some (some (.node 0), some 5)) := by
    decide
  obtain ⟨s, l, hs, -, hmodels⟩ := run_models id true [.put 5 ⟨1, by decide⟩]
  simp only [hs, Option.map_some, Option.some.injEq, Prod.mk.injEq] at hless
  refine ⟨s, l, _, hs, hmodels, ?_, hless.1, hless.2.1, hless.2.2⟩
  rw [hmodels.navigates_iff]
  rintro rfl
  have hmem := (hmodels.elements 5 5).mp rfl
  simp at hmem

end RaleighSL.Zcl.SkipList
