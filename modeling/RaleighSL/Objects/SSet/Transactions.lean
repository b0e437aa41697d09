import RaleighSL.Objects.SSet.Locks
import RaleighSL.Objects.SSet.Refinement

/-!
# Transactions on the object

In every run that keeps track of its atoms the object shows a store. From there
on, the requests that a store answers in the same way have the meaning they have
for the store: the writes of one transaction are those of a finite map and become
part of it when the transaction is applied, and a balance cannot be noticed.
-/
namespace RaleighSL.Objects.SSet
open RaleighSL.Core RaleighSL.Library RaleighSL.Zcl

variable {s s₀ : State} {rs ops : List Request} {es : List Response} {t : TxnId} {k : Bytes} {A : Store} {r : Request}

theorem run_embeds (hm : Meets serve LockOk create rs) (he : exec serve create rs = some (s, es)) :
    ∃ L A, Embeds s L ∧ Refines L A := by
  obtain ⟨L, hs, hh⟩ := run_held hm he
  obtain ⟨A, hA⟩ := hs.exists_store (fun k w hw => ⟨(hh.opened k w hw).1, hh.sound k w hw⟩)
  exact ⟨L, A, hs, hA⟩

/-! ### The writes of one transaction -/

/-- Nobody but one open transaction has writes pending. -/
structure Store.OnlyBy (A : Store) (t : TxnId) : Prop where
  zero : t ≠ 0
  opened : t ∉ A.ended
  owner : ∀ k w, A.pending.lookup k = some w → w.1 = t

theorem Store.OnlyBy.not_closed (h : A.OnlyBy t) : ¬ A.Closed t k := by
  rintro ⟨w, hw, hne⟩
  exact hne (h.owner k w hw)

theorem Store.OnlyBy.serve (h : A.OnlyBy t) (hr : r.target = some (t, k)) : (A.serve r).1.OnlyBy t := by
  rw [Store.serve_target hr]
  rcases mapServe_write hr (A.seen t) with ⟨x, v, hm⟩ | ⟨c, v, hc, hm⟩
  · rw [Store.writeBy_succeeds h.opened h.not_closed hm, Store.write, if_neg h.zero]
    refine ⟨h.zero, h.opened, ?_⟩
    intro k' w hw
    by_cases hk : k' = k
    · rw [hk, SortedMap.lookup_insert_self] at hw
      rw [← Option.some.inj hw]
    · rw [SortedMap.lookup_insert_of_ne _ _ hk] at hw
      exact h.owner k' w hw
  · rw [Store.writeBy_fails h.opened h.not_closed (by rw [hm]) hc]
    exact h

theorem Store.OnlyBy.run (h : A.OnlyBy t) (hops : ∀ r ∈ ops, ∃ k, r.target = some (t, k)) :
    (specExec Store.serve A ops).2 = (specExec mapServe (A.seen t) ops).2 ∧
      (specExec Store.serve A ops).1.seen t = (specExec mapServe (A.seen t) ops).1 ∧
      (specExec Store.serve A ops).1.OnlyBy t := by
  induction ops generalizing A with
  | nil => exact ⟨rfl, rfl, h⟩
  | cons r ops ih =>
    obtain ⟨k, hr⟩ := hops r List.mem_cons_self
    obtain ⟨hresp, hseen⟩ := A.serve_seen hr h.opened h.not_closed (fun hz => absurd hz h.zero)
    obtain ⟨h₁, h₂, h₃⟩ := ih (h.serve hr) (fun r hr => hops r (List.mem_cons_of_mem _ hr))
    rw [hseen] at h₁ h₂
    exact ⟨by rw [specExec, specExec, hresp, h₁], h₂, h₃⟩

/-- From a state without pending writes, the writes of one transaction are answered as by the
committed map, one after the other, and applying the transaction commits what they left of it. -/
theorem commit_folds_operations {rs₀ : List Request} {es₀ : List Response} (hm₀ : Meets serve LockOk create rs₀)
    (he₀ : exec serve create rs₀ = some (s₀, es₀)) (hquiet : ∀ k, pendingAt s₀ k = none) (ht : t ≠ 0)
    (hopen : t ∉ s₀.ended) (hops : ∀ r ∈ ops, ∃ k, r.target = some (t, k))
    (hm : Meets serve StepOk s₀ (ops ++ [.apply t])) :
    ∃ M : SortedMap Bytes Bytes, (∀ k, M.lookup k = valueAt s₀ k) ∧
      ∃ s, exec serve s₀ (ops ++ [.apply t]) = some (s, (specExec mapServe M ops).2 ++ [.code .none none]) ∧
        ∀ k, valueAt s k = (specExec mapServe M ops).1.lookup k := by
  obtain ⟨L, A, hs, hA⟩ := run_embeds hm₀ he₀
  have hshows : Shows s₀ A := ⟨L, hs, hA⟩
  have hpending (k : Bytes) : A.pending.lookup k = none := by
    rw [hshows.writeOn, writeOn, hquiet]
    rfl
  have honly : A.OnlyBy t := ⟨ht, by rwa [hA.ended, hs.ended], by simp [hpending]⟩
  have hseen : A.seen t = A.map := Store.seen_eq_map (by simp [hpending])
  obtain ⟨hresp, hmap, honly'⟩ := honly.run hops
  rw [hseen] at hresp hmap
  obtain ⟨s, hexec, hs'⟩ := hshows.run hm
  have hfinish := Store.finish_open (A := (specExec Store.serve A ops).1) (t := t)
    (by simp [ht, honly'.opened]) ((specExec Store.serve A ops).1.seen t)
  rw [specExec_append] at hexec hs'
  refine ⟨A.map, fun k => (hshows.valueAt k).symm, s, ?_, ?_⟩
  · rw [hexec, hresp]
    simp [specExec, Store.serve, hfinish]
  · intro k
    have hlast : (specExec Store.serve (specExec Store.serve A ops).1 [.apply t]).1.map =
        (specExec Store.serve A ops).1.seen t := by
      rw [specExec, specExec, Store.serve, hfinish]
    rw [hs'.valueAt]
    dsimp only
    rw [hlast, hmap]

theorem commit_folds_operations_remove : ∃ M : SortedMap Bytes Bytes, ∃ s₀ es₀ s,
    exec serve create [.insert 0 false [1] [2]] = some (s₀, es₀) ∧
      exec serve s₀ ([.remove 1 [1], .insert 1 false [3] [4]] ++ [.apply 1]) =
        some (s, (specExec mapServe M [.remove 1 [1], .insert 1 false [3] [4]]).2 ++ [.code .none none]) := by
  obtain ⟨⟨s₀, es₀⟩, he₀⟩ := Option.isSome_iff_exists.mp
    (show (exec serve create [.insert 0 false [1] [2]]).isSome by decide +kernel)
  have hlocks : (exec serve create [.insert 0 false [1] [2]]).map (fun p =>
      (p.1.root.entries.all (fun q => (p.1.nodes q.2).all (fun n => n.txnLocks.entries.isEmpty)),
        decide (1 ∈ p.1.ended),
        decide (Meets serve StepOk p.1 ([.remove 1 [1], .insert 1 false [3] [4]] ++ [.apply 1])))) =
      some (true, false, true) := by decide +kernel
  simp only [he₀, Option.map_some, Option.some.injEq, Prod.mk.injEq, decide_eq_true_eq, decide_eq_false_iff_not,
    List.all_eq_true] at hlocks
  obtain ⟨hunlocked, hopen, hm⟩ := hlocks
  have hquiet (k : Bytes) : pendingAt s₀ k = none := by
    rw [pendingAt]
    cases hl : nodeLookup s₀ k with
    | none => rfl
    | some p =>
      obtain ⟨⟨f, hf⟩, hn⟩ := nodeLookup_eq_some hl
      have hlocks := hunlocked _ (SortedMap.floor_mem hf)
      rw [hn, Option.all_some, List.isEmpty_iff] at hlocks
      have hnone : p.2.txnLocks.lookup k = none := SortedMap.lookup_eq_none.mpr (by simp [hlocks])
      rw [Option.bind_some, hnone]
      rfl
  obtain ⟨M, -, s, hexec, -⟩ := commit_folds_operations (by decide +kernel) he₀ hquiet (by decide) hopen
    (by simp [Request.target]) hm
  exact ⟨M, s₀, es₀, s, he₀, hexec⟩

/-- A transaction that removed a key cannot insert it again. -/
theorem insert_after_remove_fails : ∃ s₀ es₀ s es,
    exec serve create [.insert 0 false [1] [2]] = some (s₀, es₀) ∧
      exec serve s₀ ([.remove 1 [1], .insert 1 false [1] [3]] ++ [.apply 1]) = some (s, es) ∧
      es ≠ (specExec mapServe (SortedMap.empty.insert [1] [2]) [.remove 1 [1], .insert 1 false [1] [3]]).2 ++
        [.code .none none] ∧
      valueAt s₀ [1] = some [2] := by
  have hrun : (exec serve create [.insert 0 false [1] [2]]).map (fun p =>
      (valueAt p.1 [1], (exec serve p.1 ([.remove 1 [1], .insert 1 false [1] [3]] ++ [.apply 1])).map Prod.snd)) =
      some (some [2], some [.code .none (some [2]), .code .dataKeyExists none, .code .none none]) := by decide +kernel
  rw [Option.map_eq_some_iff] at hrun
  obtain ⟨⟨s₀, es₀⟩, he₀, hs₀⟩ := hrun
  simp only [Prod.mk.injEq, Option.map_eq_some_iff] at hs₀
  obtain ⟨hvalue, ⟨s, es⟩, he, rfl⟩ := hs₀
  exact ⟨s₀, es₀, s, _, he₀, he, by decide +kernel, hvalue⟩

/-! ### Balancing -/

/-- A balance changes no committed value and no pending write, and no later request notices it. -/
theorem balance_invisible {rs₀ : List Request} {es₀ : List Response} (hm₀ : Meets serve LockOk create rs₀)
    (he₀ : exec serve create rs₀ = some (s₀, es₀)) (hwith : Meets serve StepOk s₀ (.balance :: rs))
    (hwithout : Meets serve StepOk s₀ rs) :
    ∃ s₁, serve s₀ .balance = some (s₁, .code .none none) ∧ (∀ k, valueAt s₁ k = valueAt s₀ k) ∧
      (∀ k, writeOn s₁ k = writeOn s₀ k) ∧
      ∃ s s' es, exec serve s₀ rs = some (s, es) ∧ exec serve s₁ rs = some (s', es) := by
  obtain ⟨L, A, hs, hA⟩ := run_embeds hm₀ he₀
  obtain ⟨⟨hlock, hdata⟩, hrest⟩ := hwith
  obtain ⟨s₁, L₁, hbal, hL, hs₁, hvalue⟩ := hs.balance_value hlock hdata
  have hserve : serve s₀ .balance = some (s₁, .code .none none) := by
    rw [Option.bind_eq_some_iff] at hbal
    obtain ⟨s', hb, hc⟩ := hbal
    simp [serve, hb, hc]
  have hA₁ := hA.balanced hs hs₁ hL hvalue
  obtain ⟨hpending, -⟩ := Layers.balance_pending hL
  refine ⟨s₁, hserve, hvalue, fun k => by rw [hs₁.writeOn, hs.writeOn, hpending], ?_⟩
  obtain ⟨s, hexec, -⟩ := Shows.run ⟨L, hs, hA⟩ hwithout
  obtain ⟨s', hexec', -⟩ := Shows.run ⟨_, hs₁, hA₁⟩ (hrest s₁ _ hserve)
  exact ⟨s, s', _, hexec, hexec'⟩

theorem balance_invisible_scan : ∃ s₀ es₀ s₁ s s' es,
    exec serve create [.insert 0 false [1] (List.replicate 4096 0)] = some (s₀, es₀) ∧
      serve s₀ .balance = some (s₁, .code .none none) ∧
      exec serve s₀ [.insert 1 false [2] [3], .apply 1, .scan 0 [] false 2 0] = some (s, es) ∧
      exec serve s₁ [.insert 1 false [2] [3], .apply 1, .scan 0 [] false 2 0] = some (s', es) := by
  obtain ⟨⟨s₀, es₀⟩, he₀⟩ := Option.isSome_iff_exists.mp
    (show (exec serve create [.insert 0 false [1] (List.replicate 4096 0)]).isSome by decide +kernel)
  have hmeets : (exec serve create [.insert 0 false [1] (List.replicate 4096 0)]).map (fun p =>
      (decide (Meets serve StepOk p.1 (.balance :: [.insert 1 false [2] [3], .apply 1, .scan 0 [] false 2 0])),
        decide (Meets serve StepOk p.1 [.insert 1 false [2] [3], .apply 1, .scan 0 [] false 2 0]))) =
      some (true, true) := by decide +kernel
  simp only [he₀, Option.map_some, Option.some.injEq, Prod.mk.injEq, decide_eq_true_eq] at hmeets
  obtain ⟨s₁, hb, -, -, s, s', es, h₁, h₂⟩ := balance_invisible (by decide +kernel) he₀ hmeets.1 hmeets.2
  exact ⟨s₀, es₀, s₁, s, s', es, he₀, hb, h₁, h₂⟩

/-- A balance frees the lock of a pending write, and somebody else can write the key. -/
theorem balance_unlocks : ∃ s₀ es₀ s₁ s s',
    exec serve create [.insert 0 false [1] (List.replicate 4096 0), .insert 1 false [2] [3]] = some (s₀, es₀) ∧
      serve s₀ .balance = some (s₁, .code .none none) ∧
      serve s₀ (.insert 2 false [2] [4]) = some (s, .code .txnLockedKey none) ∧
      serve s₁ (.insert 2 false [2] [4]) = some (s', .code .none none) := by
  have hrun : (exec serve create [.insert 0 false [1] (List.replicate 4096 0), .insert 1 false [2] [3]]).map (fun p =>
      ((serve p.1 .balance).map (fun q => (q.2, (serve q.1 (.insert 2 false [2] [4])).map Prod.snd)),
        (serve p.1 (.insert 2 false [2] [4])).map Prod.snd)) =
      some (some (.code .none none, some (.code .none none)), some (.code .txnLockedKey none)) := by decide +kernel
  rw [Option.map_eq_some_iff] at hrun
  obtain ⟨⟨s₀, es₀⟩, he₀, hs₀⟩ := hrun
  simp only [Prod.mk.injEq, Option.map_eq_some_iff] at hs₀
  obtain ⟨⟨⟨s₁, e₁⟩, hb, rfl, ⟨s', e'⟩, hfree, rfl⟩, ⟨s, e⟩, hlocked, rfl⟩ := hs₀
  exact ⟨s₀, es₀, s₁, s, s', he₀, hb, hlocked, hfree⟩

end RaleighSL.Objects.SSet
