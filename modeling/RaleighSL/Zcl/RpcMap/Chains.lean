import RaleighSL.Library.Buckets
import RaleighSL.Zcl.RpcMap.Model

/-!
# The chains of the map

Every bucket starts a chain of calls. A walk over a chain ends at the place that has the first call
with an identifier, a pointer written there replaces what comes behind, and a resize takes the calls
one by one from the old chains and puts each in front of its new one.
-/
namespace RaleighSL.Zcl.RpcMap

open Library
open scoped List

variable {γ : Type*} {s : State γ} {lists : Nat → List γ} {oid : UInt64} {e : Place γ} {l m : List γ} {i n : Nat}

/-! ### Walks -/

/-- The place behind some calls of a chain that starts at a place. -/
def behind (e : Place γ) : List γ → Place γ
  | [] => e
  | a :: l => behind (.link a) l

theorem behind_concat (e : Place γ) (l : List γ) (a : γ) : behind e (l ++ [a]) = .link a := by
  induction l generalizing e with
  | nil => rfl
  | cons b l ih => exact ih (.link b)

theorem read_behind (h : Chain s.hash (s.read e) (l ++ m)) : s.read (behind e l) = m.head? := by
  induction l generalizing e with
  | nil => exact h.head?
  | cons a l ih => exact ih h.2

theorem find_absent (h : Chain s.hash (s.read e) l) (hl : ∀ a ∈ l, s.reqId a ≠ oid) (hn : l.length < n) :
    s.find oid n e = some (behind e l) := by
  induction l generalizing e n with
  | nil =>
    obtain ⟨n, rfl⟩ := Nat.exists_eq_add_of_lt hn
    have hnone : s.read e = none := h
    rw [State.find, hnone]
    rfl
  | cons a l ih =>
    cases n with
    | zero => exact absurd hn (Nat.not_lt_zero _)
    | succ n =>
      rw [State.find, h.1]
      dsimp only
      rw [if_neg (hl a List.mem_cons_self)]
      exact ih h.2 (fun b hb => hl b (List.mem_cons_of_mem a hb)) (Nat.lt_of_succ_lt_succ hn)

theorem findEntry_absent (h : Chain s.hash (s.read e) l) (hl : ∀ a ∈ l, s.reqId a ≠ oid) (hn : l.length < n) :
    s.findEntry oid n e = some none := by
  induction l generalizing e n with
  | nil =>
    obtain ⟨n, rfl⟩ := Nat.exists_eq_add_of_lt hn
    have hnone : s.read e = none := h
    rw [State.findEntry, hnone]
  | cons a l ih =>
    cases n with
    | zero => exact absurd hn (Nat.not_lt_zero _)
    | succ n =>
      rw [State.findEntry, h.1]
      dsimp only
      rw [if_neg (hl a List.mem_cons_self)]
      exact ih h.2 (fun b hb => hl b (List.mem_cons_of_mem a hb)) (Nat.lt_of_succ_lt_succ hn)

theorem findEntry_present {q : γ} (h : Chain s.hash (s.read e) (l ++ q :: m)) (hl : ∀ a ∈ l, s.reqId a ≠ oid)
    (hq : s.reqId q = oid) (hn : l.length < n) : s.findEntry oid n e = some (some (behind e l)) := by
  induction l generalizing e n with
  | nil =>
    obtain ⟨n, rfl⟩ := Nat.exists_eq_add_of_lt hn
    rw [State.findEntry, h.1]
    exact if_pos hq
  | cons a l ih =>
    cases n with
    | zero => exact absurd hn (Nat.not_lt_zero _)
    | succ n =>
      rw [State.findEntry, h.1]
      dsimp only
      rw [if_neg (hl a List.mem_cons_self)]
      exact ih h.2 (fun b hb => hl b (List.mem_cons_of_mem a hb)) (Nat.lt_of_succ_lt_succ hn)

variable [DecidableEq γ]

/-! ### Writes -/

theorem chain_write (hchain : Chain s.hash (s.buckets i) (l ++ m)) (hnodup : (l ++ m).Nodup) {p : Option γ}
    {m' : List γ} (hm : Chain (s.write (behind (.bucket i) l) p).hash p m') :
    Chain (s.write (behind (.bucket i) l) p).hash ((s.write (behind (.bucket i) l) p).buckets i) (l ++ m') := by
  rcases List.eq_nil_or_concat l with rfl | ⟨l, r, rfl⟩
  · show Chain s.hash (Function.update s.buckets i p i) m'
    rw [Function.update_self]
    exact hm
  · rw [List.concat_eq_append] at hchain hnodup hm ⊢
    rw [behind_concat] at hm ⊢
    rw [List.append_assoc, List.singleton_append] at hchain hnodup ⊢
    have hr : r ∉ l := by
      intro hmem
      exact (List.disjoint_of_nodup_append hnodup) hmem List.mem_cons_self
    refine hchain.relink (fun a ha => Function.update_of_ne (ne_of_mem_of_not_mem ha hr) _ _) ?_
    show Chain (Function.update s.hash r p) (Function.update s.hash r p r) m'
    rw [Function.update_self]
    exact hm

/-- A pointer written to the chain of one bucket leaves the others. -/
theorem chain_write_other {j : Nat} {k : List γ} (hchain : Chain s.hash (s.buckets j) k) (hij : j ≠ i)
    (hk : ∀ a ∈ l, a ∉ k) (p : Option γ) :
    Chain (s.write (behind (.bucket i) l) p).hash ((s.write (behind (.bucket i) l) p).buckets j) k := by
  rcases List.eq_nil_or_concat l with rfl | ⟨l, r, rfl⟩
  · show Chain s.hash (Function.update s.buckets i p j) k
    rw [Function.update_of_ne hij]
    exact hchain
  · rw [List.concat_eq_append] at hk ⊢
    rw [behind_concat]
    exact hchain.update (hk r (by simp)) p

/-! ### Relinking -/

section

variable (index : γ → Nat) {size : Nat} {b : Nat → Option γ} {h : γ → Option γ}

/-- The calls of a chain are put in front of the chains of their buckets. -/
theorem relink_spec {p : Option γ} (hp : Chain h p l) (hlists : ∀ i < size, Chain h (b i) (lists i)) (hl : l.Nodup)
    (hdisjoint : ∀ a ∈ l, ∀ i, a ∉ lists i) (hn : l.length < n) :
    ∃ b' h', relink index n p (b, h) = some (b', h') ∧
      (∀ i < size, Chain h' (b' i) (l.foldl (push index) lists i)) ∧ ∀ a ∉ l, h' a = h a := by
  induction l generalizing p lists b h n with
  | nil =>
    obtain ⟨n, rfl⟩ := Nat.exists_eq_add_of_lt hn
    have hnone : p = none := hp
    rw [hnone]
    exact ⟨b, h, rfl, hlists, fun _ _ => rfl⟩
  | cons a l ih =>
    obtain ⟨rfl, hrest⟩ := hp
    obtain ⟨ha, hl⟩ := List.nodup_cons.mp hl
    cases n with
    | zero => exact absurd hn (Nat.not_lt_zero _)
    | succ n =>
      have hout : ∀ i, a ∉ lists i := hdisjoint a List.mem_cons_self
      have hlists' : ∀ i < size, Chain (Function.update h a (b (index a)))
          (Function.update b (index a) (some a) i) (push index lists a i) := by
        intro i hi
        by_cases hia : i = index a
        · subst hia
          rw [push, Function.update_self, Function.update_self]
          refine ⟨rfl, ?_⟩
          rw [Function.update_self]
          exact (hlists _ hi).update (hout _) _
        · rw [push, Function.update_of_ne hia, Function.update_of_ne hia]
          exact (hlists i hi).update (hout i) _
      have hdisjoint' : ∀ c ∈ l, ∀ i, c ∉ push index lists a i := by
        intro c hc i hmem
        obtain rfl | hmem := mem_push hmem
        · exact ha hc
        · exact hdisjoint c (List.mem_cons_of_mem a hc) i hmem
      obtain ⟨b', h', hstep, hchains, hsame⟩ := ih (hrest.update ha (b (index a))) hlists' hl hdisjoint'
        (Nat.lt_of_succ_lt_succ hn)
      refine ⟨b', h', hstep, hchains, ?_⟩
      intro c hc
      rw [hsame c (fun hmem => hc (List.mem_cons_of_mem a hmem))]
      exact Function.update_of_ne (ne_of_mem_of_not_mem List.mem_cons_self hc).symm _ _

theorem relinkAll_spec {old : Nat → Option γ} {oldLists : Nat → List γ} {is : List Nat}
    (hold : ∀ i ∈ is, Chain h (old i) (oldLists i)) (hlists : ∀ i < size, Chain h (b i) (lists i))
    (hnodup : (is.flatMap oldLists).Nodup) (hdisjoint : ∀ a ∈ is.flatMap oldLists, ∀ i, a ∉ lists i)
    (hn : (is.flatMap oldLists).length < n) :
    ∃ b' h', is.foldlM (fun t i => relink index n (old i) t) (b, h) = some (b', h') ∧
      (∀ i < size, Chain h' (b' i) ((is.flatMap oldLists).foldl (push index) lists i)) ∧
      ∀ a ∉ is.flatMap oldLists, h' a = h a := by
  induction is generalizing lists b h with
  | nil => exact ⟨b, h, rfl, hlists, fun _ _ => rfl⟩
  | cons i is ih =>
    rw [List.flatMap_cons] at hnodup hdisjoint hn ⊢
    rw [List.length_append] at hn
    obtain ⟨hi, his, hcross⟩ := List.nodup_append.mp hnodup
    have hfirst : Chain h (old i) (oldLists i) := hold i List.mem_cons_self
    obtain ⟨b₁, h₁, hstep, hchains, hsame⟩ := relink_spec index hfirst hlists hi
      (fun a ha => hdisjoint a (List.mem_append_left _ ha)) (show (oldLists i).length < n by omega)
    have hold' : ∀ j ∈ is, Chain h₁ (old j) (oldLists j) := by
      intro j hj
      refine (hold j (List.mem_cons_of_mem i hj)).congr (fun a ha => hsame a (fun hmem => ?_))
      exact hcross a hmem a (List.mem_flatMap.mpr ⟨j, hj, ha⟩) rfl
    have hdisjoint' : ∀ a ∈ is.flatMap oldLists, ∀ j, a ∉ (oldLists i).foldl (push index) lists j := by
      intro a ha j hmem
      rcases mem_foldl_push hmem with hfirst | hlist
      · exact hcross a hfirst a ha rfl
      · exact hdisjoint a (List.mem_append_right _ ha) j hlist
    obtain ⟨b₂, h₂, hrest, hchains₂, hsame₂⟩ := ih hold' hchains his hdisjoint' (by omega)
    refine ⟨b₂, h₂, ?_, ?_, ?_⟩
    · rw [List.foldlM_cons, hstep]
      exact hrest
    · rw [List.foldl_append]
      exact hchains₂
    · intro a ha
      rw [hsame₂ a (fun hmem => ha (List.mem_append_right _ hmem)), hsame a (fun hmem => ha (List.mem_append_left _ hmem))]

end

end RaleighSL.Zcl.RpcMap
