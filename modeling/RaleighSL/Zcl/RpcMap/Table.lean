import RaleighSL.Zcl.RpcMap.Chains
import Mathlib.Algebra.Order.Ring.Nat

/-!
# The table of pending calls

The size is a power of two, there are fewer calls than twice the size, and every call is in the
chain of its bucket. The table doubles when the calls are twice as many as the buckets. A new
table is cleared as long as its bytes can be counted with 32 bits.
-/
namespace RaleighSL.Zcl.RpcMap

open Library
open scoped List

variable {γ : Type*}

/-- The calls are in the chains of their buckets. -/
structure Linked (hash64 : UInt64 → UInt64) (s : State γ) (lists : Nat → List γ) : Prop where
  size_pos : 0 < s.size
  mask : s.mask = s.size - 1
  chains : ∀ i < s.size, Chain s.hash (s.buckets i) (lists i)
  bucketed : Bucketed (fun p => slot hash64 s.mask (s.reqId p)) lists
  nodup : (contents s.size lists).Nodup

/-- The calls are counted, and there are fewer than twice the size. -/
structure Inv (hash64 : UInt64 → UInt64) (s : State γ) (lists : Nat → List γ) : Prop extends Linked hash64 s lists where
  power : ∃ k, 5 ≤ k ∧ k < 28 ∧ s.size = 2 ^ k
  used : s.used = (contents s.size lists).length
  room : s.used < 2 * s.size

variable {hash64 : UInt64 → UInt64} {s : State γ} {lists : Nat → List γ} {n : Nat} {oid : UInt64} {p : γ}

theorem slot_lt {k : Nat} (hk : 0 < k) (oid : UInt64) : slot hash64 (k - 1) oid < k := by
  have hle : slot hash64 (k - 1) oid ≤ k - 1 := Nat.and_le_right
  omega

theorem Linked.slot_lt (h : Linked hash64 s lists) (oid : UInt64) : slot hash64 s.mask oid < s.size := by
  rw [h.mask]
  exact RpcMap.slot_lt h.size_pos oid

theorem Linked.mem_iff (h : Linked hash64 s lists) :
    p ∈ contents s.size lists ↔ p ∈ lists (slot hash64 s.mask (s.reqId p)) :=
  mem_contents h.bucketed (h.slot_lt _)

theorem Linked.mem_of_list (h : Linked hash64 s lists) {i : Nat} (hp : p ∈ lists i) : p ∈ contents s.size lists := by
  have hi : slot hash64 s.mask (s.reqId p) = i := h.bucketed i p hp
  rw [h.mem_iff, hi]
  exact hp

theorem sublist_contents {i k : Nat} (hi : i < k) (lists : Nat → List γ) : lists i <+ contents k lists := by
  rw [contents, List.flatMap_def]
  exact List.sublist_flatten_of_mem (List.mem_map_of_mem (List.mem_range.mpr hi))

theorem Linked.nodup_list (h : Linked hash64 s lists) {i : Nat} (hi : i < s.size) : (lists i).Nodup :=
  h.nodup.sublist (sublist_contents hi lists)

theorem Linked.length_list (h : Linked hash64 s lists) (oid : UInt64) :
    (lists (slot hash64 s.mask oid)).length ≤ (contents s.size lists).length :=
  (sublist_contents (h.slot_lt oid) lists).length_le

theorem Linked.congr {t : State γ} (h : Linked hash64 s lists) (hbuckets : t.buckets = s.buckets) (hsize : t.size = s.size)
    (hmask : t.mask = s.mask) (hhash : ∀ a ∈ contents s.size lists, t.hash a = s.hash a)
    (hid : ∀ a ∈ contents s.size lists, t.reqId a = s.reqId a) : Linked hash64 t lists where
  size_pos := hsize ▸ h.size_pos
  mask := by rw [hmask, hsize, h.mask]
  nodup := hsize ▸ h.nodup
  chains i hi := by
    rw [hbuckets]
    rw [hsize] at hi
    exact (h.chains i hi).congr (fun a ha => hhash a (h.mem_of_list ha))
  bucketed i a ha := by
    show slot hash64 t.mask (t.reqId a) = i
    rw [hmask, hid a (h.mem_of_list ha)]
    exact h.bucketed i a ha

theorem Inv.findEntry (h : Inv hash64 s lists) (oid : UInt64) (hn : s.used < n) :
    ((∀ a ∈ contents s.size lists, s.reqId a ≠ oid) ∧
        s.findEntry oid n (.bucket (slot hash64 s.mask oid)) = some none) ∨
      ∃ l q m, lists (slot hash64 s.mask oid) = l ++ q :: m ∧ s.reqId q = oid ∧
        s.findEntry oid n (.bucket (slot hash64 s.mask oid)) =
          some (some (behind (.bucket (slot hash64 s.mask oid)) l)) ∧
        s.read (behind (.bucket (slot hash64 s.mask oid)) l) = some q := by
  have hchain : Chain s.hash (s.read (.bucket (slot hash64 s.mask oid))) (lists (slot hash64 s.mask oid)) :=
    h.chains _ (h.slot_lt oid)
  have hlen := h.length_list oid
  have hused := h.used
  by_cases hfound : ∃ q ∈ lists (slot hash64 s.mask oid), s.reqId q = oid
  · right
    obtain ⟨q, l, m, hq, hl, hlists⟩ : ∃ q l m, s.reqId q = oid ∧ (∀ a ∈ l, s.reqId a ≠ oid) ∧
        lists (slot hash64 s.mask oid) = l ++ q :: m := by
      have hsome : ((lists (slot hash64 s.mask oid)).find? (fun a => s.reqId a = oid)).isSome := by simpa using hfound
      obtain ⟨q, hq⟩ := Option.isSome_iff_exists.mp hsome
      obtain ⟨heq, l, m, hlists, hl⟩ := List.find?_eq_some_iff_append.mp hq
      exact ⟨q, l, m, by simpa using heq, by simpa using hl, hlists⟩
    rw [hlists] at hchain hlen
    rw [List.length_append] at hlen
    refine ⟨l, q, m, hlists, hq, findEntry_present hchain hl hq (by omega), ?_⟩
    rw [read_behind hchain]
    rfl
  · left
    have hnone : ∀ a ∈ lists (slot hash64 s.mask oid), s.reqId a ≠ oid := by
      intro a ha heq
      exact hfound ⟨a, ha, heq⟩
    refine ⟨fun a ha heq => ?_, findEntry_absent hchain hnone (by omega)⟩
    rw [h.mem_iff, heq] at ha
    exact hnone a ha heq

/-- A table of fewer than 2^28 buckets is cleared. -/
theorem cleared_eq_none {memory : Nat → Option γ} {size i : Nat} (hsize : size < 2 ^ 28) (hi : i < size) :
    cleared memory size i = none := by
  refine if_pos ?_
  rw [nodeBytes]
  omega

theorem Inv.used_lt (h : Inv hash64 s lists) : s.used < 2 ^ 28 := by
  obtain ⟨k, -, hk, hpower⟩ := h.power
  have hbound : 2 ^ k ≤ 2 ^ 27 := Nat.pow_le_pow_right (by decide) (by omega)
  have hroom := h.room
  omega

variable [DecidableEq γ]

/-! ### Writes to a chain -/

@[simp] theorem write_size (s : State γ) (e : Place γ) (v : Option γ) : (s.write e v).size = s.size := by
  cases e <;> rfl

@[simp] theorem write_mask (s : State γ) (e : Place γ) (v : Option γ) : (s.write e v).mask = s.mask := by
  cases e <;> rfl

@[simp] theorem write_reqId (s : State γ) (e : Place γ) (v : Option γ) : (s.write e v).reqId = s.reqId := by
  cases e <;> rfl

@[simp] theorem write_used (s : State γ) (e : Place γ) (v : Option γ) : (s.write e v).used = s.used := by
  cases e <;> rfl

theorem write_hash {l : List γ} (hp : p ∉ l) (i : Nat) (v : Option γ) :
    (s.write (behind (.bucket i) l) v).hash p = s.hash p := by
  rcases List.eq_nil_or_concat l with rfl | ⟨l, r, rfl⟩
  · rfl
  · rw [List.concat_eq_append] at hp ⊢
    rw [behind_concat]
    exact Function.update_of_ne (fun heq => hp (by simp [heq])) _ _

/-- Some other calls at the end of a chain. -/
theorem Linked.write (h : Linked hash64 s lists) {i : Nat} (hi : i < s.size) {l m m' : List γ}
    (hl : lists i = l ++ m) {v : Option γ} (hm : Chain (s.write (behind (.bucket i) l) v).hash v m')
    (hslot : ∀ a ∈ m', slot hash64 s.mask (s.reqId a) = i)
    (hnodup : (contents s.size (Function.update lists i (l ++ m'))).Nodup) :
    Linked hash64 (s.write (behind (.bucket i) l) v) (Function.update lists i (l ++ m')) where
  size_pos := by rw [write_size]; exact h.size_pos
  mask := by rw [write_mask, write_size]; exact h.mask
  nodup := by rw [write_size]; exact hnodup
  bucketed := by
    rw [write_mask, write_reqId]
    refine h.bucketed.update (fun a ha => ?_)
    rcases List.mem_append.mp ha with ha | ha
    · exact h.bucketed i a (hl ▸ List.mem_append_left m ha)
    · exact hslot a ha
  chains j hj := by
    rw [write_size] at hj
    by_cases hij : j = i
    · subst hij
      rw [Function.update_self]
      exact chain_write (hl ▸ h.chains j hj) (hl ▸ h.nodup_list hj) hm
    · rw [Function.update_of_ne hij]
      refine chain_write_other (h.chains j hj) hij (fun a ha hmem => ?_) v
      have hai : slot hash64 s.mask (s.reqId a) = i := h.bucketed i a (hl ▸ List.mem_append_left m ha)
      have haj : slot hash64 s.mask (s.reqId a) = j := h.bucketed j a hmem
      exact hij (haj.symm.trans hai)

/-! ### A new size -/

theorem newSize_pow {k : Nat} (hk : k < 32) {j : Nat} (hj : j ≤ k) (hn : k - j < n) :
    newSize (2 ^ k) n (2 ^ j) = some (2 ^ k) := by
  induction n generalizing j with
  | zero => exact absurd hn (Nat.not_lt_zero _)
  | succ n ih =>
    rw [newSize]
    by_cases heq : j = k
    · rw [heq, if_neg (Nat.lt_irrefl _)]
    · have hlt : j < k := Nat.lt_of_le_of_ne hj heq
      have hwrap : 2 ^ j * 2 % 2 ^ 32 = 2 ^ (j + 1) := by
        rw [← Nat.pow_succ]
        exact Nat.mod_eq_of_lt (Nat.pow_lt_pow_right (by decide) (by omega))
      rw [if_pos (Nat.pow_lt_pow_right (by decide) hlt), hwrap]
      exact ih hlt (by omega)

theorem Linked.resize (h : Linked hash64 s lists) {k : Nat} (hk : 5 ≤ k) (hk' : k < 28) (memory : Nat → Option γ)
    (hn : (contents s.size lists).length < n) (hn' : 32 ≤ n) :
    ∃ s' lists', s.resize hash64 memory n (2 ^ k) = some s' ∧ Linked hash64 s' lists' ∧ s'.size = 2 ^ k ∧
      s'.used = s.used ∧ s'.reqId = s.reqId ∧ contents s'.size lists' ~ contents s.size lists ∧
      ∀ a ∉ contents s.size lists, s'.hash a = s.hash a := by
  let index (p : γ) : Nat := slot hash64 (2 ^ k - 1) (s.reqId p)
  have hpos : 0 < 2 ^ k := Nat.two_pow_pos k
  have hsize : 2 ^ k < 2 ^ 28 := Nat.pow_lt_pow_right (by decide) hk'
  have hnew : newSize (2 ^ k) n 32 = some (2 ^ k) := newSize_pow (show k < 32 by omega) hk (show k - 5 < n by omega)
  have hindex : ∀ a ∈ contents s.size lists, index a < 2 ^ k := fun a _ => RpcMap.slot_lt hpos _
  have hold : ∀ i ∈ List.range s.size, Chain s.hash (s.buckets i) (lists i) :=
    fun i hi => h.chains i (List.mem_range.mp hi)
  have hclear : ∀ i < 2 ^ k, Chain s.hash (cleared memory (2 ^ k) i) ((fun _ => []) i) :=
    fun i hi => cleared_eq_none hsize hi
  obtain ⟨b, hash', hstep, hchains, hsame⟩ := relinkAll_spec index hold hclear h.nodup (fun a _ i => List.not_mem_nil) hn
  have hperm : contents (2 ^ k) (rehash index (contents s.size lists)) ~ contents s.size lists := contents_rehash hindex
  refine ⟨{ s with size := 2 ^ k, mask := 2 ^ k - 1, buckets := b, hash := hash' },
    rehash index (contents s.size lists), ?_, ?_, rfl, rfl, rfl, hperm, hsame⟩
  · rw [State.resize, hnew, Option.bind_some, hstep]
    rfl
  · exact ⟨hpos, rfl, hchains, bucketed_rehash _ _, hperm.nodup_iff.mpr h.nodup⟩

/-! ### The calls -/

theorem Inv.attach (h : Inv hash64 s lists) (hp : p ∉ contents s.size lists)
    (hid : ∀ a ∈ contents s.size lists, s.reqId a ≠ s.reqId p) (hn : s.used < n) (memory : Nat → Option γ) :
    ∃ t lists', Linked hash64 t lists' ∧ t.size = s.size ∧ t.used = s.used + 1 ∧ t.reqId = s.reqId ∧
      contents s.size lists' ~ p :: contents s.size lists ∧ (∀ a ∉ p :: contents s.size lists, t.hash a = s.hash a) ∧
      s.tryInsert hash64 memory n p =
        if t.size * 2 % 2 ^ 32 ≤ t.used then t.resize hash64 memory n t.used else some t := by
  let i := slot hash64 s.mask (s.reqId p)
  have hi : i < s.size := h.slot_lt _
  have hlen : (lists i).length ≤ (contents s.size lists).length := h.length_list (s.reqId p)
  have hcount := h.used
  have hlt := h.used_lt
  have hplist : p ∉ lists i := fun hmem => hp (h.mem_of_list hmem)
  have hchain : Chain s.hash (s.read (.bucket i)) (lists i) := h.chains i hi
  have hfind : s.find (s.reqId p) n (.bucket i) = some (behind (.bucket i) (lists i)) :=
    find_absent hchain (fun a ha => hid a (h.mem_of_list ha)) (show (lists i).length < n by omega)
  have hread : s.read (behind (.bucket i) (lists i)) = none := by
    rw [read_behind (m := []) (by rwa [List.append_nil])]
    rfl
  let s₀ : State γ := { s with hash := Function.update s.hash p none }
  have hlinked₀ : Linked hash64 s₀ lists :=
    h.toLinked.congr rfl rfl rfl (fun a ha => Function.update_of_ne (ne_of_mem_of_not_mem ha hp) _ _) (fun _ _ => rfl)
  have hperm : contents s.size (Function.update lists i (lists i ++ [p])) ~ p :: contents s.size lists :=
    contents_update hi (x := []) (y := [p]) (List.perm_append_singleton p _)
  have hnodup : (contents s.size (Function.update lists i (lists i ++ [p]))).Nodup :=
    hperm.nodup_iff.mpr (List.nodup_cons.mpr ⟨hp, h.nodup⟩)
  let s₁ := s₀.write (behind (.bucket i) (lists i)) (some p)
  have hend : Chain s₁.hash (some p) [p] := by
    refine ⟨rfl, ?_⟩
    show s₁.hash p = none
    rw [write_hash hplist]
    exact Function.update_self ..
  have hlinked₁ : Linked hash64 s₁ (Function.update lists i (lists i ++ [p])) := by
    refine hlinked₀.write hi (List.append_nil _).symm hend (fun a ha => ?_) hnodup
    rw [List.mem_singleton.mp ha]
  let s₂ : State γ := { s₁ with refs := Function.update s₁.refs p (inc (s₁.refs p)), used := inc s₁.used }
  have hlinked₂ : Linked hash64 s₂ (Function.update lists i (lists i ++ [p])) :=
    hlinked₁.congr rfl rfl rfl (fun _ _ => rfl) (fun _ _ => rfl)
  refine ⟨s₂, _, hlinked₂, write_size .., ?_, write_reqId .., hperm, ?_, ?_⟩
  · show inc s₁.used = _
    rw [write_used, inc]
    exact Nat.mod_eq_of_lt (show s.used + 1 < 2 ^ 32 by omega)
  · intro a ha
    obtain ⟨hne, hmem⟩ := not_or.mp (fun hor => ha (List.mem_cons.mpr hor))
    show s₁.hash a = s.hash a
    rw [write_hash (fun hlist => hmem (h.mem_of_list hlist))]
    exact Function.update_of_ne hne _ _
  · rw [State.tryInsert, hfind, Option.bind_some, hread]
    rfl

theorem Inv.tryInsert (h : Inv hash64 s lists) (hp : p ∉ contents s.size lists)
    (hid : ∀ a ∈ contents s.size lists, s.reqId a ≠ s.reqId p) (hfew : s.used + 1 < 2 ^ 28) (hn : 2 ^ 28 ≤ n)
    (memory : Nat → Option γ) :
    ∃ s' lists', s.tryInsert hash64 memory n p = some s' ∧ Inv hash64 s' lists' ∧ s'.reqId = s.reqId ∧
      contents s'.size lists' ~ p :: contents s.size lists ∧ ∀ a ∉ p :: contents s.size lists, s'.hash a = s.hash a := by
  obtain ⟨k, hk, hk', hpower⟩ := h.power
  obtain ⟨t, lists', hlinked, hsize, hused, hreqId, hperm, hhash, hstep⟩ :=
    h.attach hp hid (show s.used < n by omega) memory
  have hroom := h.room
  have hcount : t.used = (contents t.size lists').length := by
    rw [hused, hsize, hperm.length_eq, List.length_cons, h.used]
  have hlen : (contents t.size lists').length < n := by
    rw [← hcount, hused]
    omega
  have hbound : s.size < 2 ^ 28 := hpower ▸ Nat.pow_lt_pow_right (by decide) hk'
  rw [hstep]
  by_cases hgrow : t.size * 2 % 2 ^ 32 ≤ t.used
  · have hdouble : t.used = 2 ^ (k + 1) := by
      rw [Nat.pow_succ, ← hpower]
      omega
    have hsmall : k + 1 < 28 := by
      rw [← hused, hdouble] at hfew
      exact (Nat.pow_lt_pow_iff_right (by decide)).mp hfew
    obtain ⟨s', lists'', hs', hlinked', hsize', hused', hid', hperm', hhash'⟩ :=
      hlinked.resize (show 5 ≤ k + 1 by omega) hsmall memory hlen (show 32 ≤ n by omega)
    rw [hsize] at hperm' hhash'
    refine ⟨s', lists'', ?_, ⟨hlinked', ⟨k + 1, by omega, hsmall, hsize'⟩, ?_, ?_⟩, hid'.trans hreqId,
      hperm'.trans hperm, ?_⟩
    · rw [if_pos hgrow, hdouble]
      exact hs'
    · rw [hused', hcount, hperm'.length_eq, hsize]
    · rw [hused', hdouble, hsize']
      exact (Nat.lt_mul_iff_one_lt_left (Nat.two_pow_pos _)).mpr (by decide)
    · intro a ha
      rw [hhash' a (fun hmem => ha (hperm.mem_iff.mp hmem)), hhash a ha]
  · refine ⟨t, lists', if_neg hgrow, ⟨hlinked, ⟨k, hk, hk', hsize.trans hpower⟩, hcount, by omega⟩, hreqId, ?_, hhash⟩
    rw [hsize]
    exact hperm

end RaleighSL.Zcl.RpcMap
