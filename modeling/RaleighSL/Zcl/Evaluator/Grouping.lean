import RaleighSL.Zcl.Evaluator.Reading

/-!
# The grouping of expressions

The parser reads the terms of a predicate one after the other. It builds the tree that is grouped by
precedence unless two operators of equal precedence have higher ones between them.
-/
namespace RaleighSL.Zcl.Evaluator

open Library

section

variable {φ : Type*} {env : Environment φ}

/-! ### Chains -/

def render (xs : List (BinaryToken × Term × Expr φ)) : List Token :=
  xs.flatMap (fun x => x.1.token :: x.2.1.tokens)

def parsed (xs : List (BinaryToken × Term × Expr φ)) : List (BinaryToken × Expr φ) := xs.map (fun x => (x.1, x.2.2))

@[simp] theorem render_nil : render ([] : List (BinaryToken × Term × Expr φ)) = [] := rfl

@[simp] theorem render_cons (x : BinaryToken × Term × Expr φ) (xs : List (BinaryToken × Term × Expr φ)) :
    render (x :: xs) = x.1.token :: (x.2.1.tokens ++ render xs) := rfl

@[simp] theorem render_append (xs ys : List (BinaryToken × Term × Expr φ)) :
    render (xs ++ ys) = render xs ++ render ys := List.flatMap_append

theorem ends_lastOf_render {last : Token} (h : Ends 0 last) (xs : List (BinaryToken × Term × Expr φ)) :
    Ends 0 (lastOf last (render xs)) := by
  induction xs generalizing last with
  | nil => exact h
  | cons x xs ih =>
    rw [render_cons, lastOf_cons, lastOf_append]
    exact ih (x.2.1.ends_lastOf x.1.token)

/-- No operator of expressions comes behind a term that ends with a bound. -/
def Bounded (t : Term) (xs : List (BinaryToken × Term × Expr φ)) : Prop :=
  t.endsBetween = true → ∀ x ∈ xs.head?, x.1.prec < expressionPrecedence

variable (env) in
/-- Terms that are parsed, each with an operator of a least precedence before it. -/
def Listed (least : Nat) : List (BinaryToken × Term × Expr φ) → Prop
  | [] => True
  | x :: xs => least ≤ x.1.prec ∧ TermParses env x.2.1 x.2.2 ∧ Bounded x.2.1 xs ∧ Listed least xs

theorem Listed.of_append {least : Nat} {xs ys : List (BinaryToken × Term × Expr φ)} (h : Listed env least (xs ++ ys)) :
    Listed env least ys := by
  induction xs with
  | nil => exact h
  | cons x xs ih => exact ih h.2.2.2

/-- No string literal is copied when the terms are joined to an expression one after the other. -/
def Flows : Expr φ → List (BinaryToken × Term × Expr φ) → Prop
  | _, [] => True
  | e, x :: xs => e.Copies ∧ x.2.1.Copied ∧ Flows x.2.2 xs

/-- What comes behind joined terms is joined to all of them. -/
theorem flows_append {e d : Expr φ} {xs : List (BinaryToken × Term × Expr φ)}
    (hd : d.Copies ↔ e.Copies ∧ ∀ x ∈ xs, x.2.2.Copies) (ys : List (BinaryToken × Term × Expr φ)) :
    Flows e (xs ++ ys) ↔ Flows e xs ∧ Flows d ys := by
  induction xs generalizing e with
  | nil =>
    have hcopies : d.Copies ↔ e.Copies := by simpa using hd
    cases ys with
    | nil => simp [Flows]
    | cons y ys => simp [Flows, hcopies]
  | cons x xs ih =>
    rw [List.cons_append, Flows, Flows, and_assoc, and_assoc]
    refine and_congr_right (fun he => and_congr_right (fun _ => ih ?_))
    rw [hd, and_iff_right he, List.forall_mem_cons]

theorem copies_treeExpr {t : OpTree (Expr φ) BinaryToken} {e : Expr φ} {xs : List (BinaryToken × Term × Expr φ)}
    (hhead : t.head = e) (hrest : t.rest = parsed xs) :
    (treeExpr t).Copies ↔ e.Copies ∧ ∀ x ∈ xs, x.2.2.Copies := by
  have hall : ∀ t : OpTree (Expr φ) BinaryToken,
      (treeExpr t).Copies ↔ t.head.Copies ∧ ∀ p ∈ t.rest, p.2.Copies := by
    intro t
    induction t with
    | leaf a => simp [treeExpr, OpTree.head, OpTree.rest]
    | node l b r ihl ihr =>
      rw [treeExpr, Expr.copies_binary, ihl, ihr, OpTree.head, OpTree.rest, List.forall_mem_append, List.forall_mem_cons,
        and_assoc]
  rw [hall, hhead, hrest, parsed, List.forall_mem_map]

/-- The operator the parser sees is one of the terms, or of those behind them. -/
theorem precedence_lt {least min : Nat} {last : Token} {tail : List Token} (hlast : Ends 0 last) (htail : Stop least tail)
    (hle : least ≤ min) {xs : List (BinaryToken × Term × Expr φ)} (h : ∀ x ∈ xs.head?, x.1.prec < min) :
    ∀ p ∈ binaryPrecedence (Lexer.at last (render xs ++ tail)).token.text, p.2 < min := by
  cases xs with
  | nil => exact ((htail.ends hlast).mono hle).operator
  | cons x xs =>
    intro p hp
    obtain rfl := Option.some.inj (x.1.operator.symm.trans hp)
    exact h x rfl

theorem precedence_cons (last : Token) (tail : List Token) (x : BinaryToken × Term × Expr φ)
    (xs : List (BinaryToken × Term × Expr φ)) :
    binaryPrecedence (Lexer.at last (render (x :: xs) ++ tail)).token.text = some (x.1.type, x.1.prec) := x.1.operator

/-- What comes behind a term does not go on with it. -/
theorem Bounded.follow {least : Nat} {t : Term} {xs : List (BinaryToken × Term × Expr φ)} {tail : List Token}
    (h : Bounded t xs) (htail : Stop least tail) (hleast : least ≤ expressionPrecedence) :
    Follow t (render xs ++ tail) := by
  cases xs with
  | nil => exact ⟨fun u hu => (htail u hu).toPlain, fun _ u hu => (htail u hu).mono hleast⟩
  | cons x xs =>
    refine ⟨?_, fun hends => stop_cons ⟨x.1.plain, ?_⟩ _⟩
    · rintro u ⟨⟩
      exact x.1.plain
    · intro p hp
      obtain rfl := Option.some.inj (x.1.operator.symm.trans hp)
      exact h hends x rfl

theorem parseBinary_stops {lex : Lexer} {min : Nat} (h : ∀ p ∈ binaryPrecedence lex.token.text, p.2 < min)
    (e : Expr φ) : Yields (fun n => parseBinary env n lex e min) (e, lex) := by
  refine Yields.step (fun n => ?_) (Yields.of_forall (fun _ => rfl))
  rw [parseBinary]
  cases hprec : binaryPrecedence lex.token.text with
  | none => rfl
  | some p => exact if_neg (Nat.not_le.mpr (h p hprec))

theorem parseRight_stops {lex : Lexer} {min : Nat} (h : ∀ p ∈ binaryPrecedence lex.token.text, p.2 < min + 1)
    (e : Expr φ) : Yields (fun n => parseRight env n lex e min) (e, lex) := by
  refine Yields.step (fun n => ?_) (Yields.of_forall (fun _ => rfl))
  rw [parseRight]
  cases hprec : binaryPrecedence lex.token.text with
  | none => rfl
  | some p => exact if_neg (Nat.not_lt.mpr (Nat.le_of_lt_succ (h p hprec)))

variable (env) in
/-- What `__parse_binary` makes of a tree and what comes behind it. It stops at an operator of lower precedence. -/
def Climbs (least : Nat) (xs : List (BinaryToken × Term × Expr φ)) : Prop :=
  ∀ lhs min, least ≤ min → lhs.Climbed BinaryToken.prec (xs.head?.map Prod.fst) →
    (∀ x ∈ xs.head?, min ≤ x.1.prec → ∀ c ∈ lhs.ops, x.1.prec ≤ c.prec) →
    ∃ t ys zs, xs = ys ++ zs ∧ t.head = lhs.head ∧ t.rest = lhs.rest ++ parsed ys ∧
      t.Climbed BinaryToken.prec (zs.head?.map Prod.fst) ∧ (∀ y ∈ ys, min ≤ y.1.prec) ∧
      (∀ z ∈ zs.head?, z.1.prec < min) ∧
      ∀ last tail, Ends 0 last → Stop least tail →
        YieldsIf (Flows (treeExpr lhs) ys)
          (fun n => parseBinary env n (Lexer.at last (render xs ++ tail)) (treeExpr lhs) min)
          (treeExpr t, Lexer.at (lastOf last (render ys)) (render zs ++ tail))

/-- What the inner loop makes of an operand and what comes behind it. If it takes an operator, the first is higher. -/
theorem parseRight_spec {least : Nat} {xs : List (BinaryToken × Term × Expr φ)} (hclimbs : Climbs env least xs)
    (e : Expr φ) {p : Nat} (hle : least ≤ p) :
    ∃ r ys zs, xs = ys ++ zs ∧ r.head = e ∧ r.rest = parsed ys ∧
      r.Climbed BinaryToken.prec (zs.head?.map Prod.fst) ∧ (∀ y ∈ ys, p ≤ y.1.prec) ∧
      (∀ y ∈ ys.head?, p < y.1.prec) ∧ (ys ≠ [] → ∀ z ∈ zs.head?, z.1.prec < p) ∧ (∀ z ∈ zs.head?, z.1.prec ≤ p) ∧
      ∀ last tail, Ends 0 last → Stop least tail →
        YieldsIf (Flows e ys) (fun n => parseRight env n (Lexer.at last (render xs ++ tail)) e p)
          (treeExpr r, Lexer.at (lastOf last (render ys)) (render zs ++ tail)) := by
  by_cases hstop : ∀ x ∈ xs.head?, x.1.prec ≤ p
  · refine ⟨.leaf e, [], xs, rfl, rfl, rfl, trivial, by simp, by simp, by simp, hstop, ?_⟩
    intro last tail hlast htail
    exact (parseRight_stops (precedence_lt hlast htail (Nat.le_succ_of_le hle)
      (fun x hx => Nat.lt_succ_of_le (hstop x hx))) e).yieldsIf
  · cases xs with
    | nil => simp at hstop
    | cons x xs =>
      have hlt : p < x.1.prec := by simpa using hstop
      obtain ⟨t, ys, zs, hxs, hhead, hrest, hclimbed, hys, hzs, hyields⟩ := hclimbs (.leaf e) p hle trivial (by simp)
      have hfirst : ∀ y ∈ ys.head?, p < y.1.prec := by
        cases ys with
        | nil => simp
        | cons y ys =>
          obtain ⟨rfl, -⟩ := List.cons.inj hxs
          rintro _ ⟨⟩
          exact hlt
      refine ⟨t, ys, zs, hxs, hhead, hrest, hclimbed, hys, hfirst, fun _ => hzs,
        fun z hz => Nat.le_of_lt (hzs z hz), ?_⟩
      intro last tail hlast htail
      have hright : Yields (fun n => parseRight env n (Lexer.at (lastOf last (render ys)) (render zs ++ tail)) (treeExpr t) p)
          _ := parseRight_stops (precedence_lt (ends_lastOf_render hlast ys) htail (Nat.le_succ_of_le hle)
            (fun z hz => Nat.lt_succ_of_lt (hzs z hz))) (treeExpr t)
      refine YieldsIf.step (fun n => ?_) (YieldsIf.congr ((hyields last tail hlast htail).bind
        (g := fun n r => parseRight env n r.2 r.1 p) (fun _ => hright.yieldsIf)) (iff_of_eq (and_true _)))
      rw [parseRight, precedence_cons]
      exact if_pos hlt

theorem ops_of_parsed {t : OpTree (Expr φ) BinaryToken} {ys : List (BinaryToken × Term × Expr φ)}
    (h : t.rest = parsed ys) : t.ops = ys.map Prod.fst := by
  rw [OpTree.ops, h, parsed, List.map_map]
  rfl

theorem climbed_node {lhs r : OpTree (Expr φ) BinaryToken} {b : BinaryToken} {ys zs : List (BinaryToken × Term × Expr φ)}
    (hclimbed : lhs.Climbed BinaryToken.prec (some b)) (hlow : ∀ c ∈ lhs.ops, b.prec ≤ c.prec)
    (hright : r.Climbed BinaryToken.prec (zs.head?.map Prod.fst)) (hops : r.ops = ys.map Prod.fst)
    (hys : ∀ y ∈ ys, b.prec ≤ y.1.prec) (hfirst : ∀ y ∈ ys.head?, b.prec < y.1.prec)
    (hnext : ys ≠ [] → ∀ z ∈ zs.head?, z.1.prec < b.prec) :
    (OpTree.node lhs b r).Climbed BinaryToken.prec (zs.head?.map Prod.fst) := by
  refine ⟨hclimbed, hright, hlow, ?_, ?_, ?_⟩
  · rw [hops]
    intro c hc
    obtain ⟨y, hy, rfl⟩ := List.mem_map.mp hc
    exact hys y hy
  · rw [hops, List.head?_map]
    intro c hc
    obtain ⟨y, hy, rfl⟩ := Option.map_eq_some_iff.mp hc
    exact hfirst y hy
  · rw [hops]
    intro hne c hc
    obtain ⟨z, hz, rfl⟩ := Option.map_eq_some_iff.mp hc
    exact hnext (fun hnil => hne (by rw [hnil]; rfl)) z hz

/-- `__parse_binary` climbs. -/
theorem climbs {least : Nat} (hleast : least ≤ expressionPrecedence) {xs : List (BinaryToken × Term × Expr φ)}
    (h : Listed env least xs) : Climbs env least xs := by
  induction hn : xs.length using Nat.strongRecOn generalizing xs with
  | ind n ih =>
    intro lhs min hlemin hclimbed hle
    cases xs with
    | nil =>
      refine ⟨lhs, [], [], rfl, rfl, (List.append_nil _).symm, hclimbed, by simp, by simp, ?_⟩
      intro last tail hlast htail
      have hnil : ∀ x ∈ ([] : List (BinaryToken × Term × Expr φ)).head?, x.1.prec < min := by simp
      exact (parseBinary_stops (precedence_lt hlast htail hlemin hnil) _).yieldsIf
    | cons x xs =>
      obtain ⟨hprec, hterm, hbounded, hlisted⟩ := h
      by_cases hmin : min ≤ x.1.prec
      · obtain ⟨r, ys, zs, rfl, hhead, hrest, hright, hys, hfirst, hnext, hzs, hyields⟩ :=
          parseRight_spec (ih xs.length (by rw [← hn]; exact Nat.lt_succ_self _) hlisted rfl) x.2.2 hprec
        have hops := ops_of_parsed hrest
        have hlow : ∀ c ∈ lhs.ops, x.1.prec ≤ c.prec := hle x rfl hmin
        have hnode := climbed_node hclimbed hlow hright hops hys hfirst hnext
        have hnodeLe : ∀ z ∈ zs.head?, min ≤ z.1.prec → ∀ c ∈ (OpTree.node lhs x.1 r).ops, z.1.prec ≤ c.prec := by
          intro z hz _ c hc
          rw [OpTree.ops_node, List.mem_append, List.mem_cons] at hc
          obtain hc | rfl | hc := hc
          · exact Nat.le_trans (hzs z hz) (hlow c hc)
          · exact hzs z hz
          · exact Nat.le_trans (hzs z hz) (hnode.2.2.2.1 c hc)
        have hlen : zs.length < n := by
          rw [← hn, List.length_cons, List.length_append]
          omega
        obtain ⟨t, ys', zs', rfl, hhead', hrest', hclimbed', hys', hzs', hyields'⟩ :=
          ih zs.length hlen hlisted.of_append rfl (.node lhs x.1 r) min hlemin hnode hnodeLe
        refine ⟨t, x :: (ys ++ ys'), zs', by simp, hhead', ?_, hclimbed', ?_, hzs', ?_⟩
        · rw [hrest', OpTree.rest, hrest, hhead]
          simp [parsed]
        · intro y hy
          rw [List.mem_cons, List.mem_append] at hy
          obtain rfl | hy | hy := hy
          · exact hmin
          · exact Nat.le_trans hmin (hys y hy)
          · exact hys' y hy
        · intro last tail hlast htail
          have hends : Ends 0 (lastOf x.1.token x.2.1.tokens) := x.2.1.ends_lastOf x.1.token
          have hunary := hterm.reads x.1.token (render (ys ++ (ys' ++ zs')) ++ tail) env.expr
            (hbounded.follow htail hleast)
          have hbinary := hyields' _ tail (ends_lastOf_render hends ys) htail
          -- The left operand is copied before the right one is read.
          have hflows : (treeExpr lhs).Copies ∧ x.2.1.Copied ∧ Flows x.2.2 ys ∧ Flows (treeExpr (.node lhs x.1 r)) ys' ↔
              Flows (treeExpr lhs) (x :: (ys ++ ys')) := by
            refine and_congr_right (fun hlhs => and_congr_right (fun _ => (flows_append ?_ ys').symm))
            rw [treeExpr, Expr.copies_binary, and_iff_right hlhs]
            exact copies_treeExpr hhead hrest
          refine YieldsIf.congr (YieldsIf.step (fun n => ?_) (yieldsIf_copy
            (g := fun n d => (parseUnary env n (Lexer.at x.1.token
                (x.2.1.tokens ++ (render (ys ++ (ys' ++ zs')) ++ tail))) env.expr).bind
              (fun s => (parseRight env n s.2.1 s.1 x.1.prec).bind
                (fun s => parseBinary env n s.2 (.binary x.1.type d s.1) min)))
            (fun _ => hunary.bind (g := fun n s => (parseRight env n s.2.1 s.1 x.1.prec).bind
              (fun s => parseBinary env n s.2 (.binary x.1.type (treeExpr lhs) s.1) min))
            (fun _ => (hyields _ tail hends htail).bind
              (g := fun n s => parseBinary env n s.2 (.binary x.1.type (treeExpr lhs) s.1) min) (fun _ => ?_))))) hflows
          · have hlex : (Lexer.at last (render (x :: (ys ++ (ys' ++ zs'))) ++ tail)).next =
                Lexer.at x.1.token (x.2.1.tokens ++ (render (ys ++ (ys' ++ zs')) ++ tail)) := by
              rw [render_cons, List.cons_append, Lexer.at_cons_next, List.append_assoc]
            rw [parseBinary, precedence_cons, hlex]
            exact if_pos hmin
          · have hlast' : lastOf last (render (x :: (ys ++ ys'))) =
                lastOf (lastOf (lastOf x.1.token x.2.1.tokens) (render ys)) (render ys') := by simp
            rw [hlast']
            exact hbinary
      · have hstop : ∀ y ∈ (x :: xs).head?, y.1.prec < min := by
          rintro y ⟨⟩
          exact Nat.lt_of_not_le hmin
        refine ⟨lhs, [], x :: xs, rfl, rfl, (List.append_nil _).symm, hclimbed, by simp, hstop, ?_⟩
        intro last tail hlast htail
        exact (parseBinary_stops (precedence_lt hlast htail hlemin hstop) _).yieldsIf

/-! ### Sizes -/

def sized (p : BinaryToken × Expr φ) : BinaryToken × Nat := (p.1, p.2.size)

theorem treeExpr_size (t : OpTree (Expr φ) BinaryToken) :
    (treeExpr t).size = t.head.size + ((t.rest.map sized).map (fun p => p.2 + 1)).sum := by
  induction t with
  | leaf e => rfl
  | node l b r ihl ihr =>
    rw [treeExpr, Expr.size, ihl, ihr, OpTree.head, OpTree.rest]
    simp [sized]
    omega

theorem prefix_eq_of_sum {γ : Type*} {w : γ → Nat} (hw : ∀ z, 0 < w z) {xs ys us vs : List γ}
    (h : xs ++ us = ys ++ vs) (hsum : (xs.map w).sum = (ys.map w).sum) : xs = ys := by
  have hnil (zs : List γ) (hzs : (zs.map w).sum = 0) : zs = [] := by
    cases zs with
    | nil => rfl
    | cons z zs =>
      have hpos := hw z
      rw [List.map_cons, List.sum_cons] at hzs
      omega
  rw [List.append_eq_append_iff] at h
  obtain ⟨zs, rfl, -⟩ | ⟨zs, rfl, -⟩ := h
  · rw [List.map_append, List.sum_append] at hsum
    rw [hnil zs (by omega), List.append_nil]
  · rw [List.map_append, List.sum_append] at hsum
    rw [hnil zs (by omega), List.append_nil]

/-- Trees with operands of the same sizes and with the same expression are equal. -/
theorem treeExpr_inj {t t' : OpTree (Expr φ) BinaryToken} (hhead : t.head.size = t'.head.size)
    (hrest : t.rest.map sized = t'.rest.map sized) (h : treeExpr t = treeExpr t') : t = t' := by
  induction t generalizing t' with
  | leaf e =>
    cases t' with
    | leaf e' => exact congrArg OpTree.leaf h
    | node l b r => simp [OpTree.rest] at hrest
  | node l b r ihl ihr =>
    cases t' with
    | leaf e' => simp [OpTree.rest] at hrest
    | node l' b' r' =>
      obtain ⟨-, hl, hr⟩ := Expr.binary.inj h
      have hsize := congrArg Expr.size hl
      rw [treeExpr_size, treeExpr_size] at hsize
      change l.head.size = l'.head.size at hhead
      rw [OpTree.rest, OpTree.rest, List.map_append, List.map_append, List.map_cons, List.map_cons] at hrest
      have hleft : l.rest.map sized = l'.rest.map sized :=
        prefix_eq_of_sum (w := fun p => p.2 + 1) (fun _ => Nat.succ_pos _) hrest (by omega)
      obtain ⟨hop, hright⟩ := List.cons.inj (List.append_cancel_left (hleft ▸ hrest))
      obtain ⟨rfl, hhead'⟩ := Prod.mk.inj hop
      rw [ihl hhead hleft hl, ihr hhead' hright hr]

/-! ### Predicates -/

variable (env) in
/-- The terms of a predicate are parsed, and to their expressions exactly when they are clean. -/
structure ItemsParse (least : Nat) (c : Chain) (t : Term) (e : Expr φ) (xs : List (BinaryToken × Term × Expr φ)) :
    Prop where
  tokens : c.tokens = t.tokens ++ render xs
  ops : xs.map Prod.fst = c.ops
  first : TermParses env t e
  bounded : Bounded t xs
  listed : Listed env least xs
  copied : t.Copied ∧ Flows e xs ↔ c.Copied
  copies : (e.Copies ∧ ∀ x ∈ xs, x.2.2.Copies) ↔ c.StringFree
  size : e.size = (c.items env).1.size
  sizes : (parsed xs).map sized = (c.items env).2.map sized
  grouped : (e, parsed xs) = c.items env ↔ c.CleanTerms

theorem TermParses.lastItem {t : Term} {e : Expr φ} (h : TermParses env t e) (least : Nat) :
    ItemsParse env least (.last t) t e [] where
  tokens := (List.append_nil _).symm
  ops := rfl
  first := h
  bounded := by simp [Bounded]
  listed := trivial
  copied := and_iff_left trivial
  copies := by simpa [Chain.StringFree] using h.copies
  size := h.size
  sizes := rfl
  grouped := by
    rw [Chain.items, Chain.CleanTerms, ← h.grouped]
    exact ⟨fun heq => (Prod.mk.inj heq).1, fun heq => by rw [heq]; rfl⟩

theorem TermParses.moreItems {t : Term} {e : Expr φ} (h : TermParses env t e) {least : Nat} {c : Chain} {t' : Term}
    {e' : Expr φ} {xs : List (BinaryToken × Term × Expr φ)} (hitems : ItemsParse env least c t' e' xs) {b : BinaryToken}
    (hle : least ≤ b.prec) (hbounded : t.endsBetween = true → b.prec < expressionPrecedence) :
    ItemsParse env least (.more t b c) t e ((b, t', e') :: xs) where
  tokens := by rw [Chain.tokens, hitems.tokens, render_cons]
  ops := by rw [List.map_cons, hitems.ops, Chain.ops]
  first := h
  bounded := by
    rintro hends x ⟨⟩
    exact hbounded hends
  listed := ⟨hle, hitems.first, hitems.bounded, hitems.listed⟩
  copied := by
    rw [Flows, Chain.Copied, ← hitems.copied, h.copies]
    exact ⟨fun hall => hall.2, fun hall => ⟨hall.1.copied, hall⟩⟩
  copies := by rw [Chain.StringFree, ← h.copies, ← hitems.copies, List.forall_mem_cons]
  size := h.size
  sizes := by
    have hsizes := hitems.sizes
    rw [Chain.items]
    simp only [parsed, List.map_cons, sized, hitems.size] at hsizes ⊢
    rw [hsizes]
  grouped := by
    rw [Chain.items, Chain.CleanTerms, ← h.grouped, ← hitems.grouped, Prod.mk.injEq, parsed, List.map_cons,
      List.cons.injEq, Prod.mk.injEq, Prod.ext_iff]
    simp [parsed]

/-- A predicate is parsed, and to the grouped expression exactly when it is clean. -/
theorem ItemsParse.chain {least : Nat} (hleast : least ≤ expressionPrecedence) {c : Chain} {t : Term} {e : Expr φ}
    {xs : List (BinaryToken × Term × Expr φ)} (h : ItemsParse env least c t e xs) : ∃ e', ChainParses env least c e' := by
  obtain ⟨r, ys, zs, hxs, hhead, hrest, hclimbed, -, hzs, hyields⟩ :=
    climbs hleast h.listed (.leaf e) least (Nat.le_refl least) trivial (by simp)
  obtain rfl : zs = [] := by
    have hlisted : Listed env least zs := (hxs ▸ h.listed).of_append
    cases zs with
    | nil => rfl
    | cons z zs => exact absurd hlisted.1 (Nat.not_le.mpr (hzs z rfl))
  obtain rfl : xs = ys := by rw [hxs, List.append_nil]
  have hrest' : r.rest = parsed xs := hrest
  have hhead' : r.head = e := hhead
  have hrops : r.ops = c.ops := by rw [ops_of_parsed hrest, h.ops]
  refine ⟨treeExpr r, ?_, ?_, ?_, ?_⟩
  · intro last rest slot hstop
    have hunary := h.first.reads last (render xs ++ rest) slot (h.bounded.follow hstop hleast)
    have hbinary := hyields (lastOf last t.tokens) rest (t.ends_lastOf last) hstop
    have hfinal : lastOf last c.tokens = lastOf (lastOf last t.tokens) (render xs) := by rw [h.tokens, lastOf_append]
    rw [hfinal, h.tokens, List.append_assoc]
    exact (hunary.bind (g := fun n r => parseBinary env n r.2.1 r.1 least) (fun _ => hbinary)).congr h.copied
  · rw [copies_treeExpr hhead' hrest', h.copies]
  · rw [Chain.expr, groupedExpr, treeExpr_size, treeExpr_size, hrest', hhead', OpTree.group_head, OpTree.group_rest,
      h.size, h.sizes]
  · have hgroup := @OpTree.group_grouped _ _ BinaryToken.prec (c.items env).1 (c.items env).2
    constructor
    · intro heq
      have htree : r = OpTree.group BinaryToken.prec (c.items env).1 (c.items env).2 := by
        refine treeExpr_inj ?_ ?_ heq
        · rw [hhead', OpTree.group_head]
          exact h.size
        · rw [hrest', OpTree.group_rest]
          exact h.sizes
      have hitems : (e, parsed xs) = c.items env := by
        refine Prod.ext ?_ ?_
        · rw [← @OpTree.group_head _ _ BinaryToken.prec (c.items env).1 (c.items env).2, ← htree, hhead']
        · rw [← @OpTree.group_rest _ _ BinaryToken.prec (c.items env).1 (c.items env).2, ← htree, hrest']
      rw [← htree] at hgroup
      exact ⟨hrops ▸ hclimbed.clean hgroup, h.grouped.mp hitems⟩
    · rintro ⟨hcleanOps, hcleanTerms⟩
      have hitems := h.grouped.mpr hcleanTerms
      have hgrouped := hclimbed.grouped (hrops.symm ▸ hcleanOps)
      have htree : r = OpTree.group BinaryToken.prec (c.items env).1 (c.items env).2 := by
        refine hgrouped.unique hgroup ?_ ?_
        · rw [hhead', OpTree.group_head, ← hitems]
        · rw [hrest', OpTree.group_rest, ← hitems]
      rw [Chain.expr, groupedExpr, ← htree]

mutual

theorem Primary.parses (p : Primary) (h : p.WellFormed) (hcalls : p.CallFree) : ∃ e, PrimaryParses env p e :=
  match p, h, hcalls with
  | .operand o, _, _ => ⟨o.expr env, primaryParses_operand o⟩
  | .group c, h, hcalls => by
    obtain ⟨t, e, xs, hitems⟩ := c.parses 0 h hcalls
    obtain ⟨e', hparses⟩ := hitems.chain (Nat.zero_le _)
    exact ⟨e', hparses.group⟩

theorem Term.parses (t : Term) (h : t.WellFormed) (hcalls : t.CallFree) : ∃ e, TermParses env t e :=
  match t, h, hcalls with
  | .primary p, h, hcalls => by
    obtain ⟨e, hparses⟩ := p.parses h hcalls
    exact ⟨e, hparses.term⟩
  | .within p negate xs, h, hcalls => by
    obtain ⟨e, hparses⟩ := p.parses h.1 hcalls.1
    obtain ⟨es, helements⟩ := xs.parses h.2 hcalls.2
    exact ⟨_, hparses.within helements negate⟩
  | .between p negate low high, h, hcalls => by
    obtain ⟨e, hparses⟩ := p.parses h.1 hcalls.1
    obtain ⟨t, a, xs, hlow⟩ := low.parses expressionPrecedence h.2.1 hcalls.2.1
    obtain ⟨t', b, ys, hhigh⟩ := high.parses expressionPrecedence h.2.2 hcalls.2.2
    obtain ⟨a', hlow⟩ := hlow.chain (Nat.le_refl _)
    obtain ⟨b', hhigh⟩ := hhigh.chain (Nat.le_refl _)
    exact ⟨_, hparses.between hlow hhigh negate⟩
  | .unary u t, h, hcalls => by
    obtain ⟨e, hparses⟩ := t.parses h hcalls
    exact ⟨_, hparses.unary u⟩

theorem Chain.parses (c : Chain) (least : Nat) (h : c.WellFormed least) (hcalls : c.CallFree) :
    ∃ (t : Term) (e : Expr φ) (xs : _), ItemsParse env least c t e xs :=
  match c, h, hcalls with
  | .last t, h, hcalls => by
    obtain ⟨e, hparses⟩ := t.parses h hcalls
    exact ⟨t, e, [], hparses.lastItem least⟩
  | .more t b c, h, hcalls => by
    obtain ⟨e, hparses⟩ := t.parses h.1 hcalls.1
    obtain ⟨t', e', xs, hitems⟩ := c.parses least h.2.2.2 hcalls.2
    exact ⟨t, e, (b, t', e') :: xs, hparses.moreItems hitems h.2.1 h.2.2.1⟩

theorem Elements.parses (xs : Elements) (h : xs.WellFormed) (hcalls : xs.CallFree) : ∃ es, ElementsParse env xs es :=
  match xs, h, hcalls with
  | .last c, h, hcalls => by
    obtain ⟨t, e, ys, hitems⟩ := c.parses 0 h hcalls
    obtain ⟨e', hparses⟩ := hitems.chain (Nat.zero_le _)
    exact ⟨_, hparses.lastElement⟩
  | .more c xs, h, hcalls => by
    obtain ⟨t, e, ys, hitems⟩ := c.parses 0 h.1 hcalls.1
    obtain ⟨e', hparses⟩ := hitems.chain (Nat.zero_le _)
    obtain ⟨es, helements⟩ := xs.parses h.2 hcalls.2
    exact ⟨_, hparses.moreElements helements⟩

end

variable (env) in
/-- The parser reads a predicate without calls to its end if it copies no string literal, and gives an expression. -/
theorem parsePredicate_reads (slot : Expr φ) {c : Chain} (h : c.WellFormed 0) (hcalls : c.CallFree) :
    ∃ e lex, (e = c.expr env ↔ c.Clean) ∧
      YieldsIf c.Copied (fun n => parsePredicate env n (Lexer.start c.tokens) slot) (e, lex) := by
  obtain ⟨t, e, xs, hitems⟩ := @Chain.parses _ env c 0 h hcalls
  obtain ⟨e', hparses⟩ := hitems.chain (Nat.zero_le _)
  have hyields := hparses.predicate ⟨.unknown, ""⟩ [] slot (by simp [Stop])
  rw [List.append_nil] at hyields
  exact ⟨e', _, hparses.grouped, hyields⟩

end

/-- For a well-formed predicate the parser builds the expression that is grouped by precedence exactly when, at the top
and in every part of it, no two operators of equal precedence have only higher ones between them, and no string
literal is copied. -/
theorem predicate_grouped_iff {φ : Type*} (env : Environment φ) (slot : Expr φ) (c : Chain) (h : c.WellFormed 0)
    (hcalls : c.CallFree) :
    (∃ lex, Yields (fun n => parsePredicate env n (Lexer.start c.tokens) slot) (c.expr env, lex)) ↔
      c.Clean ∧ c.Copied := by
  obtain ⟨e, lex, hclean, hyields⟩ := parsePredicate_reads env slot h hcalls
  simp only [hyields.yields_iff, Prod.mk.injEq]
  rw [← hclean]
  constructor
  · rintro ⟨lex', hcopied, heq, -⟩
    exact ⟨heq.symm, hcopied⟩
  · rintro ⟨heq, hcopied⟩
    exact ⟨lex, hcopied, heq.symm, rfl⟩

def emptyEnvironment : Environment Unit := ⟨fun _ => (), .integer 0, 0⟩

def operandPrimary (type : TokenType) (text : String) (htype : type ∈ [TokenType.int, .float, .boolean, .string, .identifier])
    (word : binaryPrecedence text = none ∧ text ≠ "NOT" ∧ text ≠ "IN" ∧ text ≠ "BETWEEN")
    (parenthesis : text.toList.head? ≠ some '(') : Primary :=
  .operand ⟨⟨type, text⟩, htype, ⟨word.1, word.2⟩, by simpa [Token.begins] using parenthesis⟩

def numberPrimary (text : String) (word : binaryPrecedence text = none ∧ text ≠ "NOT" ∧ text ≠ "IN" ∧ text ≠ "BETWEEN")
    (parenthesis : text.toList.head? ≠ some '(') : Primary :=
  operandPrimary .int text (by decide) word parenthesis

def onePrimary : Primary := numberPrimary "1" (by decide) (by decide)

def twoPrimary : Primary := numberPrimary "2" (by decide) (by decide)

def threePrimary : Primary := numberPrimary "3" (by decide) (by decide)

def fourPrimary : Primary := numberPrimary "4" (by decide) (by decide)

def fivePrimary : Primary := numberPrimary "5" (by decide) (by decide)

def minusToken : BinaryToken := ⟨⟨.operator, "-"⟩, .sub, 4, rfl⟩

def timesToken : BinaryToken := ⟨⟨.operator, "*"⟩, .mul, 5, rfl⟩

def equalToken : BinaryToken := ⟨⟨.operator, "="⟩, .eq, 3, rfl⟩

/-- `5 - 1 = 'a'`. -/
def stringChain : Chain :=
  .more (.primary fivePrimary) minusToken
    (.more (.primary onePrimary) equalToken
      (.last (.primary (operandPrimary .string "'a'" (by decide) (by decide) (by decide)))))

theorem stringChain_grouped :
    ∃ lex, Yields (fun n => parsePredicate emptyEnvironment n (Lexer.start stringChain.tokens) (.integer 0))
      (.binary .eq (.binary .sub (.integer 5) (.integer 1)) (.string none), lex) := by
  have hwf : stringChain.WellFormed 0 :=
    ⟨trivial, Nat.zero_le _, by simp [Term.endsBetween], trivial, Nat.zero_le _, by simp [Term.endsBetween], trivial⟩
  have hcalls : stringChain.CallFree := ⟨trivial, trivial, trivial⟩
  have hnumber : TokenType.int ≠ .string := by decide
  have hcopied : stringChain.Copied := ⟨hnumber, hnumber, trivial⟩
  have hclean : stringChain.Clean := ⟨OpTree.clean_of_length_le (Nat.le_refl 2), trivial, trivial, trivial⟩
  have hexpr : stringChain.expr emptyEnvironment =
      .binary .eq (.binary .sub (.integer 5) (.integer 1)) (.string none) := by decide +kernel
  have hread := (predicate_grouped_iff emptyEnvironment (.integer 0) stringChain hwf hcalls).mpr ⟨hclean, hcopied⟩
  rwa [hexpr] at hread

/-- `1 - 2 * 3 - 4`. -/
def minusTimesMinus : Chain :=
  .more (.primary onePrimary) minusToken
    (.more (.primary twoPrimary) timesToken
      (.more (.primary threePrimary) minusToken
        (.last (.primary fourPrimary))))

/-- The second of two operators of equal precedence is taken for the right operand of the first, when there is a higher
one between them. -/
theorem equal_precedence_swallowed :
    (parsePredicate emptyEnvironment 20 (Lexer.start minusTimesMinus.tokens) (.integer 0)).map Prod.fst =
        some (.binary .sub (.integer 1) (.binary .sub (.binary .mul (.integer 2) (.integer 3)) (.integer 4))) ∧
      minusTimesMinus.expr emptyEnvironment =
        .binary .sub (.binary .sub (.integer 1) (.binary .mul (.integer 2) (.integer 3))) (.integer 4) ∧
      ¬ ∃ lex, Yields (fun n => parsePredicate emptyEnvironment n (Lexer.start minusTimesMinus.tokens) (.integer 0))
        (minusTimesMinus.expr emptyEnvironment, lex) := by
  refine ⟨by decide +kernel, by decide +kernel, ?_⟩
  rintro ⟨lex, hyields⟩
  have hwf : minusTimesMinus.WellFormed 0 := by simp [minusTimesMinus, Chain.WellFormed, Term.WellFormed, Term.endsBetween,
    onePrimary, twoPrimary, threePrimary, fourPrimary, numberPrimary, operandPrimary, Primary.WellFormed]
  have hcalls : minusTimesMinus.CallFree := ⟨trivial, trivial, trivial, trivial⟩
  obtain ⟨e, lex', hclean, hreads⟩ := parsePredicate_reads emptyEnvironment (.integer 0) hwf hcalls
  have heq : e = minusTimesMinus.expr emptyEnvironment := (congrArg Prod.fst (hreads.yields_iff.mp hyields).2).symm
  have hops := (hclean.mp heq).1
  have hnil := hops [] minusToken [timesToken] minusToken [] rfl rfl (by decide)
  exact absurd hnil (by simp)

end RaleighSL.Zcl.Evaluator
