import RaleighSL.Client.Rql.Balance

/-!
# What can be read

A well-formed chain has as many opening as closing parentheses. When its expression has no string
of an opening parenthesis and no call of it begins with the string of a closing one, it is
readable.
-/
namespace RaleighSL.Client.Rql

open Library

variable {ν φ : Type} {float : ν → Option φ}

theorem traps_append_right {ts us : List (Token ν)} (h : traps (ts ++ us) = 0) : traps us = 0 := by
  induction ts with
  | nil => exact h
  | cons t ts ih => exact ih (Nat.eq_zero_of_add_eq_zero h).2

theorem traps_tail {t : Token ν} {ts : List (Token ν)} (h : traps (t :: ts) = 0) : traps ts = 0 :=
  (Nat.eq_zero_of_add_eq_zero h).2

theorem head?_ne_of_traps {name : String} (hname : name ∉ grammarWords) {ts us : List (Token ν)}
    (h : traps (.identifier name :: .punctuation "(" :: (ts ++ us)) = 0) : ts.head? ≠ some (.string ")") := by
  intro hhead
  cases ts with
  | nil => cases hhead
  | cons t ts =>
    obtain rfl := Option.some.inj hhead
    have htrap : (Token.identifier name : Token ν).isTrap (.punctuation "(" :: .string ")" :: (ts ++ us)) = true :=
      decide_eq_true ⟨hname, rfl, rfl⟩
    rw [List.cons_append, traps, htrap, if_pos rfl] at h
    omega

theorem treeExpr_plain {t : OpTree (Expr φ) String} (h : (treeExpr t).Plain) : ∀ e ∈ operands t, e.Plain := by
  induction t with
  | leaf e => exact List.forall_mem_singleton.mpr h
  | node l op r ihl ihr =>
    rw [operands_node]
    intro e he
    obtain he | he := List.mem_append.mp he
    · exact ihl (fun hc => h (.left hc)) e he
    · exact ihr (fun hc => h (.right hc)) e he

theorem groupedExpr_plain {table : Table} {items : Expr φ × List (String × Expr φ)} (h : (groupedExpr table items).Plain) :
    items.1.Plain ∧ ∀ p ∈ items.2, p.2.Plain := by
  have hall := treeExpr_plain h
  rw [operands, OpTree.group_head, OpTree.group_rest] at hall
  exact ⟨hall _ List.mem_cons_self, fun p hp => hall _ (List.mem_cons_of_mem _ (List.mem_map_of_mem hp))⟩

/-- Tokens in which every parenthesis is closed, and which can be read when there is no trap in them. -/
structure Closed (ts : List (Token ν)) (readable : Prop) : Prop where
  even : ∀ rest, balance (ts ++ rest) = balance rest
  readable : ∀ rest, traps (ts ++ rest) = 0 → readable

theorem Closed.neutral {ts : List (Token ν)} {readable : Prop} (h : Closed ts readable) {t : Token ν}
    (ht : ∀ us, Neutral t us) : Closed (t :: ts) readable where
  even rest := (ht _).balance.trans (h.even rest)
  readable rest htraps := h.readable rest (traps_tail htraps)

theorem Closed.append {ts us : List (Token ν)} {p q : Prop} (hts : Closed ts p) (hus : Closed us q) :
    Closed (ts ++ us) (p ∧ q) where
  even rest := by rw [List.append_assoc, hts.even, hus.even]
  readable rest htraps := by
    rw [List.append_assoc] at htraps
    exact ⟨hts.readable _ htraps, hus.readable _ (traps_append_right htraps)⟩

theorem Closed.imp {ts : List (Token ν)} {p q : Prop} (h : Closed ts p) (hpq : p → q) : Closed ts q where
  even := h.even
  readable rest htraps := hpq (h.readable rest htraps)

theorem closed_nil {p : Prop} (h : p) : Closed ([] : List (Token ν)) p := ⟨fun _ => rfl, fun _ _ => h⟩

theorem Closed.enclosed {ts : List (Token ν)} {p : Prop} (h : Closed ts p) :
    Closed (.punctuation "(" :: (ts ++ [.punctuation ")"])) p where
  even rest := by
    have hclosing : balance ((.punctuation ")" : Token ν) :: rest) = -1 + balance rest := balance_closing rfl rest
    rw [List.cons_append, balance_open rfl, List.append_assoc, h.even, List.singleton_append, hclosing]
    omega
  readable rest htraps := by
    rw [List.cons_append, List.append_assoc] at htraps
    exact h.readable _ (traps_tail htraps)

theorem balance_identifier {name : String} (h : name ≠ "(") (ts : List (Token ν)) :
    balance (.identifier name :: ts) = balance ts := by
  have hweight : (Token.identifier name : Token ν).weight = 0 := if_neg h
  rw [balance_cons rfl, hweight, Int.zero_add]

theorem ne_opening_of_not_word {name : String} (h : name ∉ grammarWords) : name ≠ "(" := by
  rintro rfl
  exact h (by decide)

theorem Closed.named {ts : List (Token ν)} {p : Prop} (h : Closed ts p) {name : String} (hname : name ≠ "(") :
    Closed (.identifier name :: ts) p where
  even rest := (balance_identifier hname _).trans (h.even rest)
  readable rest htraps := h.readable rest (traps_tail htraps)

theorem Name.closed (name : Name) : Closed (name.tokens : List (Token ν)) True where
  even rest := by
    have hparts (parts : List NamePart) :
        balance (parts.flatMap (NamePart.tokens (ν := ν)) ++ rest) = balance rest := by
      induction parts with
      | nil => rfl
      | cons part parts ih => exact ih
    rw [Name.tokens, List.cons_append, balance_identifier name.parenthesis.1, hparts]
  readable _ _ := trivial

theorem Operand.closed (o : Operand float) (hplain : o.expr.Plain) : Closed o.tokens (Primary.operand o).Readable := by
  cases o with
  | number value result converts =>
    have hneutral : ∀ us, Neutral (.number value) us := fun us =>
      neutral_of_constant (t := .number value) (show "" ≠ "(" by decide) (fun s => ⟨nofun, nofun, nofun⟩) us
    exact (closed_nil (p := True) trivial).neutral hneutral
  | boolean value =>
    have hneutral : ∀ us, Neutral (.boolean value : Token ν) us := fun us =>
      neutral_of_constant (t := .boolean value) (show "" ≠ "(" by decide) (fun s => ⟨nofun, nofun, nofun⟩) us
    exact (closed_nil (p := True) trivial).neutral hneutral
  | string value =>
    have hvalue : value ≠ "(" := by
      rintro rfl
      exact hplain .string
    have hneutral : ∀ us, Neutral (.string value : Token ν) us := fun us =>
      neutral_of_constant (t := .string value) hvalue (fun s => ⟨nofun, nofun, nofun⟩) us
    exact (closed_nil (p := value ≠ "(") hvalue).neutral hneutral
  | identifier name => exact name.closed
  | wildcard =>
    exact (closed_nil (p := True) trivial).neutral (t := .operator "*") (fun us => neutral_of_text "*" (by decide) (by decide) rfl us)

mutual

theorem Primary.closed (p : Primary float) (hwell : p.WellFormed) (hplain : p.expr.Plain) :
    Closed p.tokens p.Readable :=
  match p with
  | .operand o => o.closed hplain
  | .group a => (a.closed hwell hplain).enclosed
  | .call name => (closed_nil (p := True) trivial).enclosed.named (ne_opening_of_not_word hwell)
  | .callWith name args => by
    have hargs : ∀ e ∈ args.exprs, e.Plain := fun e he hc => hplain (.argument he hc)
    have hcall := (args.closed hwell.2 hargs).enclosed.named (ne_opening_of_not_word hwell.1)
    refine ⟨hcall.even, fun rest htraps => ⟨?_, hcall.readable rest htraps⟩⟩
    have htokens : (Primary.callWith name args).tokens ++ rest =
        .identifier name :: .punctuation "(" :: (args.tokens ++ (.punctuation ")" :: rest)) := by simp [Primary.tokens]
    rw [htokens] at htraps
    exact head?_ne_of_traps hwell.1 htraps

theorem Term.closed (t : Term float) (hwell : t.WellFormed) (hplain : t.expr.Plain) : Closed t.tokens t.Readable :=
  match t with
  | .primary p => p.closed hwell hplain
  | .between p negated low high => by
    obtain ⟨hp, hlow, hhigh⟩ := hwell
    have hbetween : (betweenExpr p.expr (low.expr .expression) (high.expr .expression)).Plain := by
      cases negated with
      | false => exact hplain
      | true => exact fun h => hplain (.unary h)
    have hpPlain : p.expr.Plain := fun h => hbetween (.left (.left h))
    have hlowPlain : (low.expr .expression).Plain := fun h => hbetween (.left (.right h))
    have hhighPlain : (high.expr .expression).Plain := fun h => hbetween (.right (.right h))
    have hbounds := ((low.closed hlow (groupedExpr_plain hlowPlain)).append
      ((high.closed hhigh (groupedExpr_plain hhighPlain)).neutral (t := .operator "AND")
        (fun us => neutral_of_text "AND" (by decide) (by decide) rfl us))).neutral (t := .identifier "BETWEEN")
        (fun us => neutral_of_text "BETWEEN" (by decide) (by decide) rfl us)
    cases negated with
    | false => exact (p.closed hp hpPlain).append hbounds
    | true =>
      exact (p.closed hp hpPlain).append (hbounds.neutral (t := .operator "NOT")
        (fun us => neutral_of_text "NOT" (by decide) (by decide) rfl us))
  | .unary op t => by
    have hall : ∀ op ∈ unaryOperators, op ∈ grammarWords ∧ op ≠ "(" ∧ op ≠ ")" ∧ op ≠ "." := by decide
    have hop := hall op hwell.1
    have hneutral : ∀ us, Neutral (.operator op : Token ν) us := neutral_of_word hop.1 hop.2
    exact (t.closed hwell.2 (fun h => hplain (.unary h))).neutral hneutral

theorem Chain.closed (c : Chain float) {table : Table} (hwell : c.WellFormed table)
    (hplain : c.items.1.Plain ∧ ∀ p ∈ c.items.2, p.2.Plain) : Closed c.tokens c.Readable :=
  match c with
  | .last t => t.closed hwell hplain.1
  | .more t op c => by
    obtain ⟨ht, hop, -, hc⟩ := hwell
    obtain ⟨hitem, hitems⟩ := List.forall_mem_cons.mp hplain.2
    have hneutral : ∀ us, Neutral (.operator op : Token ν) us := neutral_of_word hop.word.1 hop.word.2
    exact (t.closed ht hplain.1).append ((c.closed hc ⟨hitem, hitems⟩).neutral hneutral)

theorem Assignment.closed (a : Assignment float) (hwell : a.WellFormed) (hplain : a.expr.Plain) :
    Closed a.tokens a.Readable :=
  match a with
  | .predicate c => c.closed hwell (groupedExpr_plain hplain)
  | .assign name a => by
    have hvalue := (a.closed hwell (fun h => hplain (.assignment h))).neutral (t := .operator "=")
      (fun us => neutral_of_text "=" (by decide) (by decide) rfl us)
    exact (name.closed.append hvalue).imp And.right

theorem Arguments.closed (args : Arguments float) (hwell : args.WellFormed) (hplain : ∀ e ∈ args.exprs, e.Plain) :
    Closed args.tokens args.Readable :=
  match args with
  | .last c => c.closed hwell (groupedExpr_plain (hplain _ List.mem_cons_self))
  | .more c args => by
    obtain ⟨hfirst, hrest⟩ := List.forall_mem_cons.mp hplain
    have hargs := (args.closed hwell.2 hrest).neutral (t := .punctuation ",")
      (fun us => neutral_of_text "," (by decide) (by decide) rfl us)
    exact (c.closed hwell.1 (groupedExpr_plain hfirst)).append hargs

end

end RaleighSL.Client.Rql
