import RaleighSL.Library.Precedence

/-!
# Eager climbing

Precedence climbing that goes on with the right operand of an operator whenever the next operator
is above the least precedence of the call, whatever the precedence of the operator it belongs to.
The call for the right operand takes the operators from that next one's precedence on. The tree is
grouped exactly when the operators are spaced.
-/
namespace RaleighSL.Library.OpTree

variable {α β : Type*} {prec : β → Nat}

/-- What eager climbing with a least precedence gives. An operand alone is followed by an operator that is not above the
least precedence, a right operand with operators by one that is lower than the first of these. -/
def Eager (prec : β → Nat) (min : Nat) : OpTree α β → Option β → Prop
  | leaf _, _ => True
  | node l b r, next =>
    l.Eager prec min (some b) ∧ min ≤ prec b ∧ (r.ops = [] → ∀ c ∈ next, prec c ≤ min) ∧
      ∀ p ∈ r.ops.head?, min < prec p ∧ r.Eager prec (prec p) next ∧ ∀ c ∈ next, prec c < prec p

/-- An operator with higher ones directly behind it is not followed by one between it and these. -/
def Stepped (prec : β → Nat) (l : List β) : Prop :=
  ∀ xs b ys c zs, l = xs ++ b :: (ys ++ c :: zs) → prec b < prec c → (∀ y ∈ ys, prec c < prec y) → ys = []

/-- An operator with no lower one before it is followed by a higher one, or one that is not above the least
precedence. -/
def Opened (prec : β → Nat) (min : Nat) (l : List β) : Prop :=
  ∀ xs b c zs, l = xs ++ b :: c :: zs → (∀ x ∈ xs, prec b ≤ prec x) → min < prec c → prec b < prec c

/-- The operators of a chain that eager climbing groups. -/
def Spaced (prec : β → Nat) (min : Nat) (l : List β) : Prop := Stepped prec l ∧ Opened prec min l

theorem Stepped.of_append {xs l ys : List β} (h : Stepped prec (xs ++ l ++ ys)) : Stepped prec l := by
  rintro as b bs c cs rfl hlt hbs
  exact h (xs ++ as) b bs c (cs ++ ys) (by simp) hlt hbs

theorem Opened.of_append {min : Nat} {l ys : List β} (h : Opened prec min (l ++ ys)) : Opened prec min l := by
  rintro as b c cs rfl has hlt
  exact h as b c (cs ++ ys) (by simp) has hlt

theorem spaced_nil (min : Nat) : Spaced prec min ([] : List β) :=
  ⟨fun xs b ys c zs heq => by simp at heq, fun xs b c zs heq => by simp at heq⟩

theorem spaced_singleton (min : Nat) (b : β) : Spaced prec min [b] := by
  have hlength {xs zs : List β} {b' : β} (heq : [b] = xs ++ b' :: zs) : zs = [] := by
    have hsum := congrArg List.length heq
    rw [List.length_singleton, List.length_append, List.length_cons] at hsum
    exact List.eq_nil_of_length_eq_zero (by omega)
  refine ⟨fun xs b' ys c zs heq => ?_, fun xs b' c zs heq => ?_⟩
  · have hnil := hlength heq
    simp at hnil
  · have hnil := hlength heq
    simp at hnil

/-- Where the least precedence is that of the first operator, the operators are opened. -/
theorem opened_head (p : β) (l : List β) : Opened prec (prec p) (p :: l) := by
  intro xs b c zs heq hxs hlt
  cases xs with
  | nil =>
    obtain ⟨rfl, -⟩ := List.cons.inj heq
    exact hlt
  | cons x xs =>
    obtain ⟨rfl, -⟩ := List.cons.inj heq
    exact Nat.lt_of_le_of_lt (hxs p List.mem_cons_self) hlt

theorem Eager.le {min : Nat} {t : OpTree α β} {next : Option β} (h : t.Eager prec min next) :
    ∀ c ∈ t.ops, min ≤ prec c := by
  induction t generalizing min next with
  | leaf a => simp
  | node l b r ihl ihr =>
    obtain ⟨hl, hb, -, hright⟩ := h
    intro c hc
    rw [ops_node, List.mem_append, List.mem_cons] at hc
    obtain hc | rfl | hc := hc
    · exact ihl hl c hc
    · exact hb
    · obtain ⟨p, hp⟩ := Option.isSome_iff_exists.mp (List.isSome_head?.mpr (List.ne_nil_of_mem hc))
      obtain ⟨hlt, hr, -⟩ := hright p hp
      exact Nat.le_trans (Nat.le_of_lt hlt) (ihr hr c hc)

theorem Eager.grouped {min : Nat} {t : OpTree α β} {next : Option β} (h : t.Eager prec min next)
    (hspaced : Spaced prec min t.ops) : t.Grouped prec := by
  induction t generalizing min next with
  | leaf a => trivial
  | node l b r ihl ihr =>
    obtain ⟨hl, hb, -, hright⟩ := h
    obtain ⟨hstepped, hopened⟩ := hspaced
    rw [ops_node] at hstepped hopened
    have hlg : l.Grouped prec :=
      ihl hl ⟨Stepped.of_append (show Stepped prec ([] ++ l.ops ++ b :: r.ops) from hstepped), hopened.of_append⟩
    have hleft : ∀ c ∈ l.ops, prec b ≤ prec c := by
      intro c hc
      cases l with
      | leaf a => simp at hc
      | node l' b' r' =>
        obtain ⟨-, hb', hnone, hsome⟩ := hl
        obtain ⟨-, -, hleft', hright'⟩ := hlg
        have hle : prec b ≤ prec b' := by
          by_contra hlt
          cases hops : r'.ops with
          | nil => exact hlt (Nat.le_trans (hnone hops b rfl) hb')
          | cons p ps =>
            obtain ⟨-, hr', hnext⟩ := hsome p (by rw [hops]; rfl)
            have hys : ∀ y ∈ r'.ops, prec b < prec y := fun y hy => Nat.lt_of_lt_of_le (hnext b rfl) (hr'.le y hy)
            have hnil := hstepped l'.ops b' r'.ops b r.ops (by simp) (Nat.lt_of_not_le hlt) hys
            rw [hops] at hnil
            cases hnil
        rw [ops_node, List.mem_append, List.mem_cons] at hc
        obtain hc | rfl | hc := hc
        · exact Nat.le_trans hle (hleft' c hc)
        · exact hle
        · exact Nat.le_trans hle (Nat.le_of_lt (hright' c hc))
    cases hops : r.ops with
    | nil =>
      have hr : r.Grouped prec := by
        cases r with
        | leaf a => trivial
        | node l' b' r' => simp at hops
      exact ⟨hlg, hr, hleft, by simp [hops]⟩
    | cons p ps =>
      obtain ⟨hlt, hr, -⟩ := hright p (by rw [hops]; rfl)
      have hrstepped : Stepped prec r.ops :=
        Stepped.of_append (show Stepped prec (l.ops ++ [b] ++ r.ops ++ []) by simpa using hstepped)
      have hrg : r.Grouped prec := ihr hr ⟨hrstepped, hops ▸ opened_head p ps⟩
      have hbp : prec b < prec p := hopened l.ops b p ps (by rw [hops]) hleft hlt
      exact ⟨hlg, hrg, hleft, fun c hc => Nat.lt_of_lt_of_le hbp (hr.le c hc)⟩

theorem Eager.stepped {min : Nat} {t : OpTree α β} {next : Option β} (h : t.Eager prec min next)
    (hg : t.Grouped prec) : Stepped prec t.ops := by
  induction t generalizing min next with
  | leaf a =>
    intro xs b ys c zs hops
    simp at hops
  | node l o r ihl ihr =>
    obtain ⟨hl, -, -, hright⟩ := h
    obtain ⟨hlg, hrg, hleft, -⟩ := hg
    intro xs b ys c zs hops hlt hys
    rw [ops_node, List.append_eq_append_iff] at hops
    obtain ⟨as, -, hops⟩ | ⟨cs, hlops, hops⟩ := hops
    · cases as with
      | nil =>
        obtain ⟨rfl, hrops⟩ := List.cons.inj hops
        cases ys with
        | nil => rfl
        | cons p ys =>
          obtain ⟨-, hr, -⟩ := hright p (by rw [hrops]; rfl)
          have hle : prec p ≤ prec c := hr.le c (by rw [hrops]; simp)
          exact absurd (hys p List.mem_cons_self) (Nat.not_lt.mpr hle)
      | cons a as =>
        obtain ⟨-, hrops⟩ := List.cons.inj hops
        obtain ⟨p, hp⟩ := Option.isSome_iff_exists.mp
          (List.isSome_head?.mpr (show r.ops ≠ [] by rw [hrops]; simp))
        exact ihr (hright p hp).2.1 hrg as b ys c zs hrops hlt hys
    · cases cs with
      | nil =>
        obtain ⟨rfl, hrops⟩ := List.cons.inj hops
        cases ys with
        | nil => rfl
        | cons p ys =>
          obtain ⟨-, hr, -⟩ := hright p (by rw [← hrops]; rfl)
          have hle : prec p ≤ prec c := hr.le c (by rw [← hrops]; simp)
          exact absurd (hys p List.mem_cons_self) (Nat.not_lt.mpr hle)
      | cons a cs =>
        obtain ⟨rfl, htail⟩ := List.cons.inj hops
        have hob : prec o ≤ prec b := hleft b (by rw [hlops]; simp)
        change ys ++ c :: zs = cs ++ o :: r.ops at htail
        rw [List.append_eq_append_iff] at htail
        obtain ⟨es, hcs, htail⟩ | ⟨es, hysc, htail⟩ := htail
        · cases es with
          | nil =>
            obtain ⟨rfl, -⟩ := List.cons.inj htail
            exact absurd hlt (Nat.not_lt.mpr hob)
          | cons e es =>
            obtain ⟨rfl, -⟩ := List.cons.inj htail
            exact ihl hl hlg xs b ys c es (by rw [hlops, hcs]) hlt hys
        · cases es with
          | nil =>
            obtain ⟨rfl, -⟩ := List.cons.inj htail
            exact absurd hlt (Nat.not_lt.mpr hob)
          | cons e es =>
            obtain ⟨rfl, -⟩ := List.cons.inj htail
            have hco : prec c < prec o := hys o (by rw [hysc]; simp)
            omega

theorem Eager.opened {min : Nat} {t : OpTree α β} {next : Option β} (h : t.Eager prec min next)
    (hg : t.Grouped prec) : Opened prec min t.ops := by
  induction t generalizing min next with
  | leaf a =>
    intro xs b c zs hops
    simp at hops
  | node l o r ihl ihr =>
    obtain ⟨hl, hmin, hnone, hright⟩ := h
    obtain ⟨hlg, hrg, hleft, hhigher⟩ := hg
    intro xs b c zs hops hxs hlt
    rw [ops_node, List.append_eq_append_iff] at hops
    obtain ⟨as, hxsl, hops⟩ | ⟨cs, hlops, hops⟩ := hops
    · cases as with
      | nil =>
        obtain ⟨rfl, hrops⟩ := List.cons.inj hops
        exact hhigher c (by rw [hrops]; exact List.mem_cons_self)
      | cons a as =>
        obtain ⟨rfl, hrops⟩ := List.cons.inj hops
        have hbo : prec b ≤ prec o := hxs o (by rw [hxsl]; simp)
        have hob : prec o < prec b := hhigher b (by rw [hrops]; simp)
        omega
    · cases cs with
      | nil =>
        obtain ⟨rfl, hrops⟩ := List.cons.inj hops
        exact hhigher c (by rw [← hrops]; exact List.mem_cons_self)
      | cons a cs =>
        obtain ⟨rfl, htail⟩ := List.cons.inj hops
        change c :: zs = cs ++ o :: r.ops at htail
        cases cs with
        | cons d ds =>
          obtain ⟨rfl, -⟩ := List.cons.inj htail
          exact ihl hl hlg xs b c ds hlops hxs hlt
        | nil =>
          obtain ⟨rfl, -⟩ := List.cons.inj htail
          cases l with
          | leaf a => simp at hlops
          | node l' b' r' =>
            obtain ⟨-, hb', hnone', -⟩ := hl
            obtain ⟨-, -, -, hhigher'⟩ := hlg
            cases hr : r'.ops with
            | nil =>
              have hle := hnone' hr c rfl
              omega
            | cons p ps =>
              rw [ops_node, hr] at hlops
              obtain ⟨ps', q, hps⟩ := List.eq_nil_or_concat (p :: ps) |>.resolve_left (by simp)
              rw [hps, List.concat_eq_append, ← List.cons_append, ← List.append_assoc] at hlops
              obtain ⟨hxs', hq⟩ := List.append_inj' hlops rfl
              obtain rfl := (List.cons.inj hq).1
              have hle : prec q ≤ prec b' := hxs b' (by rw [← hxs']; simp)
              have hgt : prec b' < prec q := hhigher' q (by rw [hr, hps]; simp)
              omega

/-- A tree that eager climbing gives is grouped exactly when its operators are spaced. -/
theorem Eager.grouped_iff {min : Nat} {t : OpTree α β} {next : Option β} (h : t.Eager prec min next) :
    t.Grouped prec ↔ Spaced prec min t.ops :=
  ⟨fun hg => ⟨h.stepped hg, h.opened hg⟩, h.grouped⟩

end RaleighSL.Library.OpTree
