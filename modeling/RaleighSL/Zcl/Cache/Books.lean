import RaleighSL.Library.Placement
import RaleighSL.Zcl.Cache.Table

/-!
# The books of the cache

The lists of the policy have the entries of the table, every reference that is counted is
held by the table or by a caller, and an entry is freed when the last one is gone. A
reference that is about to be released belongs to nobody for a moment.
-/
namespace RaleighSL.Zcl.Cache

open Library
open scoped List

variable {ε κ : Type*} [DecidableEq ε]

/-- The reference to an entry that is about to be released. -/
def loose (x : Option ε) (e : ε) : Nat := if x = some e then 1 else 0

@[simp] theorem loose_none (e : ε) : loose none e = 0 := rfl

@[simp] theorem loose_self (e : ε) : loose (some e) e = 1 := if_pos rfl

theorem loose_of_ne {a e : ε} (h : a ≠ e) : loose (some e) a = 0 := by
  rw [loose, if_neg]
  rintro heq
  exact h (Option.some.inj heq).symm

structure Core (hash : κ → Nat) (x : Option ε) (s : State ε κ) : Prop where
  table : TableOk hash s.table s.oid
  placed : Placed s.table.entries s.lists
  keys : ∀ a ∈ s.table.entries, ∀ b ∈ s.table.entries, s.oid a = s.oid b → a = b
  states : ∀ q, ∀ e ∈ s.lists q, s.state e = .isIn q
  nodup : s.inserted.Nodup
  mem : ∀ e, e ∈ s.inserted ↔ e ∈ s.table.entries ∨ 0 < s.held e + loose x e
  refs : ∀ e ∈ s.inserted, s.refs e = s.held e + loose x e + if e ∈ s.table.entries then 1 else 0
  refused : s.refused = []
  usage : s.usage = s.inserted.length
  calls : ∀ c ∈ s.calls, c.linked = false ∧ c.holders = 0
  history : s.history ~ s.calls.map FreeCall.entry ++ s.inserted

variable {hash : κ → Nat} {s : State ε κ} {x : Option ε} {e : ε} {q : Queue}

theorem Core.entry_of_list (h : Core hash x s) (he : e ∈ s.lists q) : e ∈ s.table.entries := (h.placed.mem e).mpr ⟨q, he⟩

theorem Core.inserted_of_entry (h : Core hash x s) (he : e ∈ s.table.entries) : e ∈ s.inserted :=
  (h.mem e).mpr (Or.inl he)

theorem Core.entries_le (h : Core hash x s) : s.table.entries.length ≤ s.inserted.length :=
  h.placed.items_nodup.length_le_of_subset (fun _ ha => h.inserted_of_entry ha)

theorem Core.not_reachable (h : Core hash x s) (he : e ∉ s.table.entries) : s.reachable e = false := by
  have hlist (q : Queue) : e ∉ s.lists q := fun hq => he (h.entry_of_list hq)
  have hcontents : e ∉ contents s.table.size s.table.buckets := he
  simp [State.reachable, hcontents, hlist]

/-! ### References -/

theorem Core.free (h : Core hash (some e) s) (hheld : s.held e = 0) (he : e ∉ s.table.entries) :
    Core hash none { s with
      refs := Function.update s.refs e (s.refs e - 1)
      usage := dec s.usage
      inserted := s.inserted.erase e
      refused := s.refused.erase e
      calls := s.calls ++ [⟨e, s.reachable e, s.held e⟩] } := by
  have hmem : e ∈ s.inserted := (h.mem e).mpr (Or.inr (by rw [loose_self]; omega))
  refine ⟨h.table, h.placed, h.keys, h.states, h.nodup.erase e, ?_, ?_, ?_, ?_, ?_, ?_⟩
  · intro a
    show a ∈ s.inserted.erase e ↔ a ∈ s.table.entries ∨ 0 < s.held a + 0
    rw [h.nodup.mem_erase_iff, h.mem a]
    by_cases ha : a = e
    · subst ha
      simp [he, hheld]
    · simp [ha, loose_of_ne ha]
  · intro a ha
    obtain ⟨hne, ha⟩ := h.nodup.mem_erase_iff.mp ha
    have hrefs := h.refs a ha
    rw [loose_of_ne hne] at hrefs
    show Function.update s.refs e (s.refs e - 1) a = s.held a + 0 + _
    rw [Function.update_of_ne hne, hrefs]
  · show s.refused.erase e = []
    rw [h.refused]
    rfl
  · show dec s.usage = (s.inserted.erase e).length
    rw [h.usage, ← List.length_erase_add_one hmem, dec_succ]
  · intro c hc
    obtain hc | hc := List.mem_append.mp hc
    · exact h.calls c hc
    · rw [List.mem_singleton.mp hc]
      exact ⟨h.not_reachable he, hheld⟩
  · show s.history ~ (s.calls ++ [(⟨e, s.reachable e, s.held e⟩ : FreeCall ε)]).map FreeCall.entry ++ s.inserted.erase e
    rw [List.map_append, List.append_assoc]
    exact h.history.trans ((List.perm_cons_erase hmem).append_left _)

theorem Core.keep (h : Core hash (some e) s) (hmore : 0 < s.held e ∨ e ∈ s.table.entries) :
    Core hash none { s with refs := Function.update s.refs e (s.refs e - 1) } := by
  refine ⟨h.table, h.placed, h.keys, h.states, h.nodup, ?_, ?_, h.refused, h.usage, h.calls, h.history⟩
  · intro a
    show a ∈ s.inserted ↔ a ∈ s.table.entries ∨ 0 < s.held a + 0
    rw [h.mem a]
    by_cases ha : a = e
    · subst ha
      simp only [loose_self, Nat.add_zero]
      refine ⟨fun _ => hmore.symm, fun hmore => ?_⟩
      exact hmore.imp_right (fun hheld => by omega)
    · rw [loose_of_ne ha]
  · intro a ha
    have hrefs := h.refs a ha
    show Function.update s.refs e (s.refs e - 1) a = s.held a + 0 + if a ∈ s.table.entries then 1 else 0
    by_cases hae : a = e
    · subst hae
      rw [Function.update_self, hrefs, loose_self]
      omega
    · rw [Function.update_of_ne hae, hrefs, loose_of_ne hae]

theorem Core.release (h : Core hash (some e) s) :
    ∃ refs usage inserted calls, Cache.release s e =
        some { s with refs := refs, usage := usage, inserted := inserted, refused := [], calls := calls } ∧
      Core hash none { s with refs := refs, usage := usage, inserted := inserted, refused := [], calls := calls } ∧
      usage + (if 0 < s.held e ∨ e ∈ s.table.entries then 0 else 1) = s.usage := by
  have hmem : e ∈ s.inserted := (h.mem e).mpr (Or.inr (by rw [loose_self]; omega))
  have hrefs := h.refs e hmem
  rw [loose_self] at hrefs
  have hvalid : s.Valid e ∧ 0 < s.refs e := ⟨Or.inl hmem, by omega⟩
  by_cases hmore : 0 < s.held e ∨ e ∈ s.table.entries
  · have hne : s.refs e ≠ 1 := by
      obtain hheld | he := hmore
      · omega
      · rw [if_pos he] at hrefs
        omega
    have hkeep := h.keep hmore
    rw [if_pos hmore]
    refine ⟨Function.update s.refs e (s.refs e - 1), s.usage, s.inserted, s.calls, ?_, ?_, rfl⟩
    · rw [Cache.release, if_pos hvalid, if_neg hne, ← h.refused]
    · rw [← h.refused]
      exact hkeep
  · rw [if_neg hmore]
    rw [not_or] at hmore
    have hheld : s.held e = 0 := by omega
    have hone : s.refs e = 1 := by rw [hrefs, hheld, if_neg hmore.2]
    have hfree := h.free hheld hmore.2
    have hrefused : s.refused.erase e = [] := by
      rw [h.refused]
      rfl
    rw [hrefused] at hfree
    refine ⟨Function.update s.refs e (s.refs e - 1), dec s.usage, s.inserted.erase e,
      s.calls ++ [⟨e, s.reachable e, s.held e⟩], ?_, hfree, ?_⟩
    · rw [Cache.release, if_pos hvalid, if_pos hone, hrefused]
    · rw [h.usage, ← List.length_erase_add_one hmem, dec_succ]

theorem Core.leave (h : Core hash none s) (he : e ∈ s.table.entries) :
    Core hash (some e) ({ s with table := s.table.remove hash s.oid e }.unlink e) := by
  obtain ⟨htable, hperm⟩ := h.table.remove he
  have hnodup : (e :: (s.table.remove hash s.oid e).entries).Nodup := hperm.nodup_iff.mpr h.placed.items_nodup
  have hiff (a : ε) (hne : a ≠ e) : a ∈ (s.table.remove hash s.oid e).entries ↔ a ∈ s.table.entries := by
    rw [← hperm.mem_iff, List.mem_cons, or_iff_right hne]
  have hgone : e ∉ (s.table.remove hash s.oid e).entries := (List.nodup_cons.mp hnodup).1
  have hsub (a : ε) (ha : a ∈ (s.table.remove hash s.oid e).entries) : a ∈ s.table.entries :=
    hperm.mem_iff.mp (List.mem_cons_of_mem e ha)
  refine ⟨htable, ?_, ?_, ?_, h.nodup, ?_, ?_, h.refused, h.usage, h.calls, h.history⟩
  · obtain ⟨q, hq⟩ := (h.placed.mem e).mp he
    have htake : Placed (s.table.entries.erase e) (fun r => (s.lists r).erase e) := by
      refine h.placed.take hq rfl (fun r hr => List.erase_of_not_mem ?_)
      intro her
      exact hr (h.placed.unique her hq)
    have herase := hperm.erase e
    rw [List.erase_cons_head] at herase
    exact htake.perm herase.symm
  · intro a ha c hc
    exact h.keys a (hsub a ha) c (hsub c hc)
  · intro r a ha
    exact h.states r a (List.mem_of_mem_erase ha)
  · intro a
    show a ∈ s.inserted ↔ a ∈ (s.table.remove hash s.oid e).entries ∨ 0 < s.held a + loose (some e) a
    by_cases hae : a = e
    · subst hae
      rw [loose_self]
      exact iff_of_true (h.inserted_of_entry he) (Or.inr (Nat.succ_pos _))
    · rw [h.mem a, hiff a hae, loose_of_ne hae, loose_none]
  · intro a ha
    have hrefs := h.refs a ha
    show s.refs a = s.held a + loose (some e) a + if a ∈ (s.table.remove hash s.oid e).entries then 1 else 0
    by_cases hae : a = e
    · subst hae
      rw [hrefs, if_pos he, if_neg hgone, loose_self, loose_none]
    · rw [hrefs, loose_of_ne hae, loose_none]
      simp only [hiff a hae]

theorem Core.recount (h : Core hash x s) (sizes : Queue → Nat) (latest : κ → Option ε) :
    Core hash x { s with sizes := sizes, latest := latest } :=
  ⟨h.table, h.placed, h.keys, h.states, h.nodup, h.mem, h.refs, h.refused, h.usage, h.calls, h.history⟩

structure Evicted (s s' : State ε κ) (e : ε) : Prop where
  lists : ∀ q, s'.lists q = (s.lists q).erase e
  entries : e :: s'.table.entries ~ s.table.entries
  usage : s'.usage + (if s.held e = 0 then 1 else 0) = s.usage
  sizes : s'.sizes = s.sizes
  capacity : s'.capacity = s.capacity
  kind : s'.kind = s.kind
  kin : s'.kin = s.kin
  kout : s'.kout = s.kout
  held : s'.held = s.held
  oid : s'.oid = s.oid
  latest : s'.latest = s.latest

theorem Core.evict (h : Core hash none s) (he : e ∈ s.table.entries) :
    ∃ s', entryReclaim hash s e = some (s', true) ∧ Core hash none s' ∧ Evicted s s' e := by
  obtain ⟨refs, usage, inserted, calls, hrelease, hcore, husage⟩ := (h.leave he).release
  have hperm := (h.table.remove he).2
  have hgone : e ∉ (s.table.remove hash s.oid e).entries :=
    (List.nodup_cons.mp (hperm.nodup_iff.mpr h.placed.items_nodup)).1
  have hvalid : s.Valid e := Or.inl (h.inserted_of_entry he)
  refine ⟨_, ?_, hcore, ⟨fun _ => rfl, hperm, ?_, rfl, rfl, rfl, rfl, rfl, rfl, rfl, rfl⟩⟩
  · rw [entryReclaim, if_pos hvalid, if_pos (h.table.mem_iff.mp he), hrelease]
    rfl
  · have hcond : (0 < s.held e ∨ e ∈ (s.table.remove hash s.oid e).entries) ↔ ¬ s.held e = 0 := by
      rw [or_iff_left hgone, Nat.pos_iff_ne_zero]
    have husage' : usage + (if 0 < s.held e ∨ e ∈ (s.table.remove hash s.oid e).entries then 0 else 1) = s.usage := husage
    rw [← husage']
    simp only [hcond, ite_not]

/-! ### Lists -/

theorem Core.unlinked (h : Core hash x s) (he : e ∈ s.lists q) {r : Queue} (hr : r ≠ q) : (s.lists r).erase e = s.lists r := by
  apply List.erase_of_not_mem
  intro her
  exact hr (h.placed.unique her he)

theorem relink_lists (s : State ε κ) (e : ε) (q r : Queue) :
    (s.relink q e).lists r = if r = q then e :: (s.lists q).erase e else (s.lists r).erase e := by
  show Function.update (fun r => (s.lists r).erase e) q (e :: (s.lists q).erase e) r = _
  rw [Function.update_apply]

theorem Core.relink (h : Core hash x s) (he : e ∈ s.lists q) (q' : Queue) :
    Core hash x { s with
      lists := (s.relink q' e).lists
      state := Function.update s.state e (.isIn q') } := by
  refine ⟨h.table, ?_, h.keys, ?_, h.nodup, h.mem, h.refs, h.refused, h.usage, h.calls, h.history⟩
  · show Placed s.table.entries (s.relink q' e).lists
    by_cases hq : q' = q
    · subst hq
      apply h.placed.reorder
      intro r
      rw [relink_lists]
      split_ifs with hr
      · rw [hr]
        exact (List.perm_cons_erase he).symm
      · rw [h.unlinked he hr]
    · have hmoved : s.lists q ~ [e] ++ (s.lists q).erase e := List.perm_cons_erase he
      refine h.placed.move (Ne.symm hq) hmoved ?_ ?_ ?_
      · rw [relink_lists, if_neg (Ne.symm hq)]
      · rw [relink_lists, if_pos rfl, h.unlinked he hq]
        rfl
      · intro r hrq hrq'
        rw [relink_lists, if_neg hrq', h.unlinked he hrq]
  · intro r a ha
    change a ∈ (s.relink q' e).lists r at ha
    show Function.update s.state e (.isIn q') a = .isIn r
    rw [relink_lists] at ha
    split_ifs at ha with hr
    · subst hr
      obtain rfl | ha := List.mem_cons.mp ha
      · rw [Function.update_self]
      · obtain ⟨hae, ha⟩ := (h.placed.nodup r).mem_erase_iff.mp ha
        rw [Function.update_of_ne hae]
        exact h.states r a ha
    · obtain ⟨hae, ha⟩ := (h.placed.nodup r).mem_erase_iff.mp ha
      rw [Function.update_of_ne hae]
      exact h.states r a ha

end RaleighSL.Zcl.Cache
