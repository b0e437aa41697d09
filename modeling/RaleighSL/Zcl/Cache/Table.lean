import RaleighSL.Zcl.Cache.Model

/-!
# The hash table of the cache

The table keeps its entries through insertion, removal and growth, each in the bucket of its
object.
-/
namespace RaleighSL.Zcl.Cache

open Library
open scoped List

variable {ε κ : Type*} {hash : κ → Nat} {t t' : Table ε} {oid : ε → κ} {e : ε} {k : κ}

def Table.entries (t : Table ε) : List ε := contents t.size t.buckets

/-- The entries are in the buckets of their objects, and counted. -/
structure TableOk (hash : κ → Nat) (t : Table ε) (oid : ε → κ) : Prop where
  size_pos : 0 < t.size
  bucketed : Bucketed (fun e => slot hash t.size (oid e)) t.buckets
  used : t.used = t.entries.length

theorem slot_lt {size : Nat} (hsize : 0 < size) (k : κ) : slot hash size k < size := by
  have hle : slot hash size k ≤ size - 1 := Nat.and_le_right
  omega

theorem TableOk.mem_iff (h : TableOk hash t oid) : e ∈ t.entries ↔ e ∈ t.buckets (slot hash t.size (oid e)) :=
  mem_contents h.bucketed (slot_lt h.size_pos _)

theorem TableOk.congr {oid' : ε → κ} (h : TableOk hash t oid) (hsame : ∀ a ∈ t.entries, oid' a = oid a) :
    TableOk hash t oid' where
  size_pos := h.size_pos
  used := h.used
  bucketed i a ha := by
    have hi : slot hash t.size (oid a) = i := h.bucketed i a ha
    have hmem : a ∈ t.entries := by
      rw [h.mem_iff, hi]
      exact ha
    show slot hash t.size (oid' a) = i
    rw [hsame a hmem]
    exact hi

theorem tableSize_spec {required n size size' : Nat} (hsize : 0 < size) (h : tableSize required n size = some size') :
    0 < size' := by
  induction n generalizing size with
  | zero => simp [tableSize] at h
  | succ n ih =>
    rw [tableSize] at h
    split_ifs at h
    · exact ih (Nat.mul_pos hsize Nat.two_pos) h
    · exact Option.some.inj h ▸ hsize

theorem tableSize_isSome {required n size : Nat} (h : required ≤ size * 2 ^ n) :
    (tableSize required (n + 1) size).isSome := by
  induction n generalizing size with
  | zero =>
    rw [tableSize, if_neg (by omega)]
    rfl
  | succ n ih =>
    rw [tableSize]
    split_ifs
    · exact ih (by rw [Nat.mul_assoc, ← Nat.pow_succ']; exact h)
    · rfl

theorem inc_of_lt {n : Nat} (h : n + 1 < 2 ^ 32) : inc n = n + 1 := by
  rw [inc, if_neg h.ne]

theorem dec_succ (n : Nat) : dec (n + 1) = n := by
  rw [dec, if_neg (Nat.succ_ne_zero n), Nat.add_sub_cancel]

theorem TableOk.resize {required : Nat} (h : TableOk hash t oid) (hs : t.resize hash oid required = some t') :
    TableOk hash t' oid ∧ t'.entries ~ t.entries := by
  rw [Table.resize, Option.map_eq_some_iff] at hs
  obtain ⟨size, hsize, rfl⟩ := hs
  have hpos : 0 < size := tableSize_spec (by decide) hsize
  have hperm : contents size (rehash (fun e => slot hash size (oid e)) t.entries) ~ t.entries :=
    contents_rehash (fun a _ => slot_lt hpos _)
  exact ⟨⟨hpos, bucketed_rehash _ _, h.used.trans hperm.length_eq.symm⟩, hperm⟩

theorem TableOk.insert (h : TableOk hash t oid) (hfew : t.entries.length < 2 ^ 31) (e : ε) :
    ∃ t', t.insert hash oid e = some t' ∧ TableOk hash t' oid ∧ t'.entries ~ e :: t.entries := by
  have hslot : slot hash t.size (oid e) < t.size := slot_lt h.size_pos (oid e)
  let t₁ : Table ε := { t with
    used := inc t.used
    buckets := Function.update t.buckets (slot hash t.size (oid e)) (t.buckets (slot hash t.size (oid e)) ++ [e]) }
  have hperm : t₁.entries ~ e :: t.entries :=
    contents_update hslot (x := []) (y := [e]) (List.perm_append_singleton e _)
  have hused : t₁.used = t.entries.length + 1 := by
    show inc t.used = _
    rw [h.used, inc_of_lt (by omega)]
  have hok : TableOk hash t₁ oid := by
    refine ⟨h.size_pos, h.bucketed.update ?_, hused.trans hperm.length_eq.symm⟩
    intro a ha
    obtain ha | ha := List.mem_append.mp ha
    · exact h.bucketed _ a ha
    · rw [List.mem_singleton.mp ha]
  by_cases hgrow : (t.size * 2) % 2 ^ 32 ≤ t₁.used
  · have hsome : (t₁.resize hash oid t₁.used).isSome := by
      rw [Table.resize, Option.isSome_map]
      apply tableSize_isSome
      rw [hused]
      omega
    obtain ⟨t', ht'⟩ := Option.isSome_iff_exists.mp hsome
    obtain ⟨hok', hperm'⟩ := hok.resize ht'
    refine ⟨t', ?_, hok', hperm'.trans hperm⟩
    rw [Table.insert, if_pos hgrow]
    exact ht'
  · refine ⟨t₁, ?_, hok, hperm⟩
    rw [Table.insert, if_neg hgrow]

theorem TableOk.remove [DecidableEq ε] (h : TableOk hash t oid) (he : e ∈ t.entries) :
    TableOk hash (t.remove hash oid e) oid ∧ e :: (t.remove hash oid e).entries ~ t.entries := by
  have hslot : slot hash t.size (oid e) < t.size := slot_lt h.size_pos (oid e)
  have hmem := h.mem_iff.mp he
  have hperm : e :: (t.remove hash oid e).entries ~ t.entries := by
    show [e] ++ contents t.size (Function.update t.buckets (slot hash t.size (oid e))
      ((t.buckets (slot hash t.size (oid e))).erase e)) ~ [] ++ contents t.size t.buckets
    exact contents_update hslot (List.perm_cons_erase hmem).symm
  refine ⟨⟨h.size_pos, h.bucketed.update ?_, ?_⟩, hperm⟩
  · intro a ha
    exact h.bucketed _ a (List.mem_of_mem_erase ha)
  · have hlen := hperm.length_eq
    rw [List.length_cons] at hlen
    have hcount : t.used = (t.remove hash oid e).entries.length + 1 := h.used.trans hlen.symm
    exact (congrArg dec hcount).trans (dec_succ _)

variable [DecidableEq κ]

theorem TableOk.find_some (h : TableOk hash t oid) (hf : t.find hash oid k = some e) : e ∈ t.entries ∧ oid e = k := by
  have hk : oid e = k := by
    have := List.find?_some hf
    simpa using this
  refine ⟨?_, hk⟩
  rw [h.mem_iff, hk]
  exact List.mem_of_find?_eq_some hf

theorem TableOk.find_none (h : TableOk hash t oid) (hf : t.find hash oid k = none) : ∀ a ∈ t.entries, oid a ≠ k := by
  rintro a ha rfl
  rw [h.mem_iff] at ha
  have := List.find?_eq_none.mp hf a ha
  simp at this

end RaleighSL.Zcl.Cache
