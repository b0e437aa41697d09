import Mathlib.Data.List.Basic

/-!
# Runs of a partial step function

A step function that may have no result is run over a list of inputs and the
outputs are collected. The rules below lift what one step does to what a whole
run does: an invariant kept by the steps that are defined, an invariant that
also speaks of the outputs so far, and a simulation by a total machine.
-/
namespace RaleighSL.Library

variable {σ τ ι ε : Type*}

/-- The final state and the outputs of a run, `none` as soon as one step has no result. -/
def exec (step : σ → ι → Option (σ × ε)) : σ → List ι → Option (σ × List ε)
  | s, [] => some (s, [])
  | s, i :: is =>
    match step s i with
    | none => none
    | some (s', e) => (exec step s' is).map (fun r => (r.1, e :: r.2))

def specExec (step : τ → ι → τ × ε) : τ → List ι → τ × List ε
  | a, [] => (a, [])
  | a, i :: is => ((specExec step (step a i).1 is).1, (step a i).2 :: (specExec step (step a i).1 is).2)

/-- Every step of the run meets a condition on its input and the state before it. -/
def Meets (step : σ → ι → Option (σ × ε)) (ok : σ → ι → Prop) : σ → List ι → Prop
  | _, [] => True
  | s, i :: is => ok s i ∧ ∀ s' e, step s i = some (s', e) → Meets step ok s' is

variable {step : σ → ι → Option (σ × ε)} {C : σ → ι → Prop}

instance decidableMeets [∀ s i, Decidable (C s i)] : (s : σ) → (is : List ι) → Decidable (Meets step C s is)
  | _, [] => .isTrue trivial
  | s, i :: is =>
    match h : step s i with
    | none => decidable_of_iff (C s i) (by simp [Meets, h])
    | some (s', e) =>
      have := decidableMeets s' is
      decidable_of_iff (C s i ∧ Meets step C s' is) (by simp [Meets, h])

@[simp] theorem exec_nil (s : σ) : exec step s [] = some (s, []) := rfl

theorem exec_cons (s : σ) (i : ι) (is : List ι) :
    exec step s (i :: is) =
      (step s i).bind (fun r => (exec step r.1 is).map (fun q => (q.1, r.2 :: q.2))) := by
  rw [exec]
  cases step s i <;> rfl

theorem exec_append (s : σ) (is js : List ι) :
    exec step s (is ++ js) =
      (exec step s is).bind (fun r => (exec step r.1 js).map (fun q => (q.1, r.2 ++ q.2))) := by
  induction is generalizing s with
  | nil => simp
  | cons i is ih =>
    rw [List.cons_append, exec_cons, exec_cons]
    cases step s i with
    | none => rfl
    | some r =>
      simp only [Option.bind_some, ih]
      cases exec step r.1 is with
      | none => rfl
      | some q => simp [Function.comp_def]

theorem length_of_exec {s s' : σ} {is : List ι} {es : List ε} (h : exec step s is = some (s', es)) :
    es.length = is.length := by
  induction is generalizing s es with
  | nil =>
    obtain ⟨-, rfl⟩ := Prod.mk.inj (Option.some.inj h)
    rfl
  | cons i is ih =>
    rw [exec_cons, Option.bind_eq_some_iff] at h
    obtain ⟨⟨s₁, e⟩, -, h⟩ := h
    rw [Option.map_eq_some_iff] at h
    obtain ⟨⟨s₂, es₂⟩, h₂, h₃⟩ := h
    obtain ⟨rfl, rfl⟩ := Prod.mk.inj h₃
    rw [List.length_cons, List.length_cons, ih h₂]

theorem specExec_append (A : τ → ι → τ × ε) (a : τ) (is js : List ι) :
    specExec A a (is ++ js) =
      ((specExec A (specExec A a is).1 js).1,
        (specExec A a is).2 ++ (specExec A (specExec A a is).1 js).2) := by
  induction is generalizing a with
  | nil => rfl
  | cons i is ih => simp only [List.cons_append, specExec, ih]

theorem exec_total (A : τ → ι → τ × ε) (a : τ) (is : List ι) :
    exec (fun a i => some (A a i)) a is = some ((specExec A a is).1, (specExec A a is).2) := by
  induction is generalizing a with
  | nil => rfl
  | cons i is ih =>
    rw [exec_cons, Option.bind_some, ih]
    rfl

theorem Meets.and {C' : σ → ι → Prop} {s : σ} {is : List ι} (h : Meets step C s is) (h' : Meets step C' s is) :
    Meets step (fun s i => C s i ∧ C' s i) s is := by
  induction is generalizing s with
  | nil => trivial
  | cons i is ih => exact ⟨⟨h.1, h'.1⟩, fun s' e he => ih (h.2 s' e he) (h'.2 s' e he)⟩

theorem Meets.and_forall {P : ι → Prop} {s : σ} {is : List ι} (h : Meets step C s is) (hP : ∀ i ∈ is, P i) :
    Meets step (fun s i => P i ∧ C s i) s is := by
  induction is generalizing s with
  | nil => trivial
  | cons i is ih =>
    exact ⟨⟨hP i List.mem_cons_self, h.1⟩, fun s' e he => ih (h.2 s' e he) (fun j hj => hP j (List.mem_cons_of_mem _ hj))⟩

theorem Meets.of_append {s s' : σ} {is js : List ι} {es : List ε} (h : Meets step C s (is ++ js))
    (he : exec step s is = some (s', es)) : Meets step C s is ∧ Meets step C s' js := by
  induction is generalizing s es with
  | nil =>
    obtain ⟨rfl, -⟩ := Prod.mk.inj (Option.some.inj he)
    exact ⟨trivial, h⟩
  | cons i is ih =>
    rw [exec_cons, Option.bind_eq_some_iff] at he
    obtain ⟨⟨s₁, e⟩, h₁, h₂⟩ := he
    rw [Option.map_eq_some_iff] at h₂
    obtain ⟨⟨s₂, es₂⟩, h₂, h₃⟩ := h₂
    obtain ⟨rfl, -⟩ := Prod.mk.inj h₃
    refine ⟨⟨h.1, ?_⟩, (ih (h.2 s₁ e h₁) h₂).2⟩
    intro s'' e' hs
    rw [h₁] at hs
    obtain ⟨rfl, -⟩ := Prod.mk.inj (Option.some.inj hs)
    exact (ih (h.2 _ e h₁) h₂).1

theorem Meets.front {s : σ} {is js : List ι} (h : Meets step C s (is ++ js)) : Meets step C s is := by
  induction is generalizing s with
  | nil => trivial
  | cons i is ih => exact ⟨h.1, fun s' e he => ih (h.2 s' e he)⟩

theorem Meets.append {s s' : σ} {is js : List ι} {es : List ε} (h : Meets step C s is)
    (he : exec step s is = some (s', es)) (h' : Meets step C s' js) : Meets step C s (is ++ js) := by
  induction is generalizing s es with
  | nil =>
    obtain ⟨rfl, -⟩ := Prod.mk.inj (Option.some.inj he)
    exact h'
  | cons i is ih =>
    rw [exec_cons, Option.bind_eq_some_iff] at he
    obtain ⟨⟨s₁, e⟩, h₁, h₂⟩ := he
    rw [Option.map_eq_some_iff] at h₂
    obtain ⟨⟨s₂, es₂⟩, h₂, h₃⟩ := h₂
    obtain ⟨rfl, -⟩ := Prod.mk.inj h₃
    refine ⟨h.1, ?_⟩
    intro s'' e' hs
    rw [h₁] at hs
    obtain ⟨rfl, -⟩ := Prod.mk.inj (Option.some.inj hs)
    exact ih (h.2 _ e h₁) h₂

theorem meets_of_forall (h : ∀ s i, C s i) (s : σ) (is : List ι) : Meets step C s is := by
  induction is generalizing s with
  | nil => trivial
  | cons i is ih => exact ⟨h s i, fun s' _ _ => ih s'⟩

theorem exec_eq_none (hstep : ∀ s i, ¬ C s i → step s i = none) {s : σ} {is : List ι} (hm : ¬ Meets step C s is) :
    exec step s is = none := by
  induction is generalizing s with
  | nil => exact (hm trivial).elim
  | cons i is ih =>
    rw [exec_cons]
    by_cases hi : C s i
    · cases hs : step s i with
      | none => rfl
      | some r =>
        have hrest : ¬ Meets step C r.1 is := fun h => hm ⟨hi, fun s' e he => by
          obtain rfl := Option.some.inj (hs.symm.trans he)
          exact h⟩
        rw [Option.bind_some, ih hrest, Option.map_none]
    · rw [hstep s i hi, Option.bind_none]

/-- What every defined step keeps, every defined run keeps. -/
theorem exec_invariant {I : σ → Prop}
    (hstep : ∀ s i s' e, I s → C s i → step s i = some (s', e) → I s')
    {s s' : σ} {is : List ι} {es : List ε} (hs : I s) (hm : Meets step C s is)
    (he : exec step s is = some (s', es)) : I s' := by
  induction is generalizing s es with
  | nil =>
    simp only [exec_nil, Option.some.injEq, Prod.mk.injEq] at he
    exact he.1 ▸ hs
  | cons i is ih =>
    rw [exec_cons, Option.bind_eq_some_iff] at he
    obtain ⟨⟨s₁, e⟩, h₁, h₂⟩ := he
    rw [Option.map_eq_some_iff] at h₂
    obtain ⟨⟨s₂, es₂⟩, h₂, h₃⟩ := h₂
    obtain rfl : s₂ = s' := congrArg Prod.fst h₃
    exact ih (hstep s i s₁ e hs hm.1 h₁) (hm.2 s₁ e h₁) h₂

/-- An invariant over the state and the outputs so far; the run is defined to its end. -/
theorem exec_history {I : σ → List ε → Prop}
    (hstep : ∀ s h i, I s h → C s i → ∃ s' e, step s i = some (s', e) ∧ I s' (h ++ [e]))
    {s : σ} {h : List ε} {is : List ι} (hs : I s h) (hm : Meets step C s is) :
    ∃ s' es, exec step s is = some (s', es) ∧ I s' (h ++ es) := by
  induction is generalizing s h with
  | nil => exact ⟨s, [], rfl, by simpa using hs⟩
  | cons i is ih =>
    obtain ⟨s₁, e, h₁, hI⟩ := hstep s h i hs hm.1
    obtain ⟨s₂, es, h₂, hI₂⟩ := ih hI (hm.2 s₁ e h₁)
    refine ⟨s₂, e :: es, ?_, by simpa using hI₂⟩
    rw [exec_cons, h₁, Option.bind_some, h₂]
    rfl

/-- An invariant of a defined run over the state and the outputs so far. -/
theorem exec_events {I : σ → List ε → Prop}
    (hstep : ∀ s h i s' e, I s h → C s i → step s i = some (s', e) → I s' (h ++ [e]))
    {s s' : σ} {h : List ε} {is : List ι} {es : List ε} (hs : I s h) (hm : Meets step C s is)
    (he : exec step s is = some (s', es)) : I s' (h ++ es) := by
  induction is generalizing s h es with
  | nil =>
    obtain ⟨rfl, rfl⟩ := Prod.mk.inj (Option.some.inj he)
    simpa using hs
  | cons i is ih =>
    rw [exec_cons, Option.bind_eq_some_iff] at he
    obtain ⟨⟨s₁, e⟩, h₁, h₂⟩ := he
    rw [Option.map_eq_some_iff] at h₂
    obtain ⟨⟨s₂, es₂⟩, h₂, h₃⟩ := h₂
    obtain ⟨rfl, rfl⟩ := Prod.mk.inj h₃
    simpa using ih (hstep s h i s₁ e hs hm.1 h₁) (hm.2 s₁ e h₁) h₂

/-- A step-by-step simulation by a total machine gives the same outputs over a whole run. -/
theorem exec_simulates {R : σ → τ → Prop} {A : τ → ι → τ × ε}
    (hstep : ∀ s a i, R s a → C s i →
      ∃ s', step s i = some (s', (A a i).2) ∧ R s' (A a i).1)
    {s : σ} {a : τ} {is : List ι} (hs : R s a) (hm : Meets step C s is) :
    ∃ s', exec step s is = some (s', (specExec A a is).2) ∧ R s' (specExec A a is).1 := by
  induction is generalizing s a with
  | nil => exact ⟨s, rfl, hs⟩
  | cons i is ih =>
    obtain ⟨s₁, h₁, hR⟩ := hstep s a i hs hm.1
    obtain ⟨s₂, h₂, hR₂⟩ := ih hR (hm.2 s₁ _ h₁)
    refine ⟨s₂, ?_, hR₂⟩
    rw [exec_cons, h₁, Option.bind_some, h₂]
    rfl

/-- A total machine that agrees with every defined step agrees with every defined run. -/
theorem exec_agrees {R : σ → τ → Prop} {A : τ → ι → τ × ε}
    (hstep : ∀ s a i s' e, R s a → C s i → step s i = some (s', e) → e = (A a i).2 ∧ R s' (A a i).1)
    {s s' : σ} {a : τ} {is : List ι} {es : List ε} (hs : R s a) (hm : Meets step C s is)
    (he : exec step s is = some (s', es)) : es = (specExec A a is).2 ∧ R s' (specExec A a is).1 := by
  induction is generalizing s a es with
  | nil =>
    obtain ⟨rfl, rfl⟩ := Prod.mk.inj (Option.some.inj he)
    exact ⟨rfl, hs⟩
  | cons i is ih =>
    rw [exec_cons, Option.bind_eq_some_iff] at he
    obtain ⟨⟨s₁, e⟩, h₁, h₂⟩ := he
    rw [Option.map_eq_some_iff] at h₂
    obtain ⟨⟨s₂, es₂⟩, h₂, h₃⟩ := h₂
    obtain ⟨rfl, rfl⟩ := Prod.mk.inj h₃
    obtain ⟨rfl, hR⟩ := hstep s a i s₁ e hs hm.1 h₁
    obtain ⟨rfl, hR₂⟩ := ih hR (hm.2 s₁ _ h₁) h₂
    exact ⟨rfl, hR₂⟩

/-- A partial machine that follows every defined step follows every defined run. -/
theorem exec_follows {R : σ → τ → Prop} {A : τ → ι → Option (τ × ε)}
    (hstep : ∀ s a i s' e, R s a → C s i → step s i = some (s', e) → ∃ a', A a i = some (a', e) ∧ R s' a')
    {s s' : σ} {a : τ} {is : List ι} {es : List ε} (hs : R s a) (hm : Meets step C s is)
    (he : exec step s is = some (s', es)) : ∃ a', exec A a is = some (a', es) ∧ R s' a' := by
  induction is generalizing s a es with
  | nil =>
    obtain ⟨rfl, rfl⟩ := Prod.mk.inj (Option.some.inj he)
    exact ⟨a, rfl, hs⟩
  | cons i is ih =>
    rw [exec_cons, Option.bind_eq_some_iff] at he
    obtain ⟨⟨s₁, e⟩, h₁, h₂⟩ := he
    rw [Option.map_eq_some_iff] at h₂
    obtain ⟨⟨s₂, es₂⟩, h₂, h₃⟩ := h₂
    obtain ⟨rfl, rfl⟩ := Prod.mk.inj h₃
    obtain ⟨a₁, ha₁, hR⟩ := hstep s a i s₁ e hs hm.1 h₁
    obtain ⟨a₂, ha₂, hR₂⟩ := ih hR (hm.2 s₁ e h₁) h₂
    exact ⟨a₂, by rw [exec_cons, ha₁, Option.bind_some, ha₂]; rfl, hR₂⟩

/-- An invariant of a defined run over the state and the inputs with their outputs so far. -/
theorem exec_trace {I : σ → List (ι × ε) → Prop}
    (hstep : ∀ s h i s' e, I s h → C s i → step s i = some (s', e) → I s' (h ++ [(i, e)]))
    {s s' : σ} {h : List (ι × ε)} {is : List ι} {es : List ε} (hs : I s h) (hm : Meets step C s is)
    (he : exec step s is = some (s', es)) : I s' (h ++ is.zip es) := by
  induction is generalizing s h es with
  | nil =>
    obtain ⟨rfl, rfl⟩ := Prod.mk.inj (Option.some.inj he)
    simpa using hs
  | cons i is ih =>
    rw [exec_cons, Option.bind_eq_some_iff] at he
    obtain ⟨⟨s₁, e⟩, h₁, h₂⟩ := he
    rw [Option.map_eq_some_iff] at h₂
    obtain ⟨⟨s₂, es₂⟩, h₂, h₃⟩ := h₂
    obtain ⟨rfl, rfl⟩ := Prod.mk.inj h₃
    simpa using ih (hstep s h i s₁ e hs hm.1 h₁) (hm.2 s₁ e h₁) h₂

/-- An invariant over the state and the inputs with their outputs so far; the run is defined to its end. -/
theorem exec_traced {I : σ → List (ι × ε) → Prop}
    (hstep : ∀ s h i, I s h → C s i → ∃ s' e, step s i = some (s', e) ∧ I s' (h ++ [(i, e)]))
    {s : σ} {h : List (ι × ε)} {is : List ι} (hs : I s h) (hm : Meets step C s is) :
    ∃ s' es, exec step s is = some (s', es) ∧ I s' (h ++ is.zip es) := by
  induction is generalizing s h with
  | nil => exact ⟨s, [], rfl, by simpa using hs⟩
  | cons i is ih =>
    obtain ⟨s₁, e, h₁, hI⟩ := hstep s h i hs hm.1
    obtain ⟨s₂, es, h₂, hI₂⟩ := ih hI (hm.2 s₁ e h₁)
    refine ⟨s₂, e :: es, ?_, by simpa using hI₂⟩
    rw [exec_cons, h₁, Option.bind_some, h₂]
    rfl

/-- Two machines whose steps correspond have the same outputs over a whole run, or both have none. -/
theorem exec_bisimilar {step' : τ → ι → Option (τ × ε)} {R : σ → τ → Prop}
    (hstep : ∀ s t i, R s t → (step s i = none ∧ step' t i = none) ∨
      ∃ s' t' e, step s i = some (s', e) ∧ step' t i = some (t', e) ∧ R s' t')
    {s : σ} {t : τ} (hs : R s t) (is : List ι) : (exec step s is).map Prod.snd = (exec step' t is).map Prod.snd := by
  induction is generalizing s t with
  | nil => rfl
  | cons i is ih =>
    rw [exec_cons, exec_cons]
    rcases hstep s t i hs with ⟨h, h'⟩ | ⟨s', t', e, h, h', hR⟩
    · rw [h, h']
      rfl
    · have houts := ih hR
      rw [h, h', Option.bind_some, Option.bind_some, Option.map_map, Option.map_map]
      simpa [Option.map_map, Function.comp_def] using congrArg (Option.map (List.cons e)) houts

/-- After every part of a run the outputs are those of a total machine, and the states correspond. -/
def Tracks (step : σ → ι → Option (σ × ε)) (A : τ → ι → τ × ε) (G : σ → τ → Prop) (s : σ) (a : τ) (is : List ι) : Prop :=
  ∀ js, js <+: is → ∃ s', exec step s js = some (s', (specExec A a js).2) ∧ G s' (specExec A a js).1

theorem Tracks.head {A : τ → ι → τ × ε} {G : σ → τ → Prop} {s : σ} {a : τ} {i : ι} {is : List ι}
    (h : Tracks step A G s a (i :: is)) : ∃ s', step s i = some (s', (A a i).2) ∧ G s' (A a i).1 := by
  obtain ⟨s', he, hG⟩ := h [i] (List.prefix_append [i] is)
  rw [exec_cons, Option.bind_eq_some_iff] at he
  obtain ⟨⟨s₁, e⟩, h₁, h₂⟩ := he
  simp only [exec_nil, Option.map_some, specExec, Option.some.injEq, Prod.mk.injEq, List.cons.injEq, and_true] at h₂
  obtain ⟨rfl, rfl⟩ := h₂
  exact ⟨s₁, h₁, hG⟩

theorem tracks_cons {A : τ → ι → τ × ε} {G : σ → τ → Prop} {s s' : σ} {a : τ} {i : ι} {is : List ι} (hG : G s a)
    (hs : step s i = some (s', (A a i).2)) : Tracks step A G s a (i :: is) ↔ Tracks step A G s' (A a i).1 is := by
  constructor
  · intro h js hjs
    obtain ⟨s'', he, hG'⟩ := h (i :: js) (List.cons_prefix_cons.mpr ⟨rfl, hjs⟩)
    rw [exec_cons, hs, Option.bind_some, Option.map_eq_some_iff] at he
    obtain ⟨⟨s₂, es⟩, h₂, h₃⟩ := he
    simp only [specExec, Prod.mk.injEq, List.cons.injEq, true_and] at h₃
    obtain ⟨rfl, rfl⟩ := h₃
    exact ⟨s₂, h₂, hG'⟩
  · intro h js hjs
    cases js with
    | nil => exact ⟨s, rfl, hG⟩
    | cons j js =>
      obtain ⟨rfl, htail⟩ := List.cons_prefix_cons.mp hjs
      obtain ⟨s'', he, hG'⟩ := h js htail
      exact ⟨s'', by rw [exec_cons, hs, Option.bind_some, he]; rfl, hG'⟩

/-- If a step does what the total machine does exactly when it meets a condition, a run does so exactly when all of its
steps meet the condition. -/
theorem tracks_iff_meets {R G : σ → τ → Prop} {A : τ → ι → τ × ε} (hgood : ∀ s a, R s a → G s a)
    (hok : ∀ s a i, R s a → C s i → ∃ s', step s i = some (s', (A a i).2) ∧ R s' (A a i).1)
    (hbad : ∀ s a i s', R s a → ¬ C s i → step s i = some (s', (A a i).2) → ¬ G s' (A a i).1)
    {s : σ} {a : τ} {is : List ι} (hs : R s a) : Tracks step A G s a is ↔ Meets step C s is := by
  induction is generalizing s a with
  | nil =>
    refine iff_of_true ?_ trivial
    intro js hjs
    rw [List.prefix_nil.mp hjs]
    exact ⟨s, rfl, hgood s a hs⟩
  | cons i is ih =>
    by_cases hC : C s i
    · obtain ⟨s', hs', hR⟩ := hok s a i hs hC
      rw [tracks_cons (hgood s a hs) hs', ih hR, Meets, and_iff_right hC, hs']
      constructor
      · rintro hm s'' e ⟨⟩
        exact hm
      · intro hm
        exact hm s' _ rfl
    · refine iff_of_false ?_ (fun hm => hC hm.1)
      intro h
      obtain ⟨s', hs', hG⟩ := h.head
      exact hbad s a i s' hs hC hs' hG

/-- If every step that the total machine may take is followed, so is a run of such steps. -/
theorem tracks_of_meets {R G : σ → τ → Prop} {A : τ → ι → τ × ε} {D : τ → ι → Prop} (hgood : ∀ s a, R s a → G s a)
    (hok : ∀ s a i, R s a → D a i → ∃ s', step s i = some (s', (A a i).2) ∧ R s' (A a i).1)
    {s : σ} {a : τ} {is : List ι} (hs : R s a) (hm : Meets (fun a i => some (A a i)) D a is) :
    Tracks step A G s a is := by
  induction is generalizing s a with
  | nil =>
    intro js hjs
    rw [List.prefix_nil.mp hjs]
    exact ⟨s, rfl, hgood s a hs⟩
  | cons i is ih =>
    obtain ⟨s', hs', hR⟩ := hok s a i hs hm.1
    rw [tracks_cons (hgood s a hs) hs']
    exact ih hR (hm.2 _ _ rfl)

/-- Every step of a run has a result, and meets a condition on what it reads and gives. -/
def Achieves (step : σ → ι → Option (σ × ε)) (P : σ → ι → σ → ε → Prop) : σ → List ι → Prop
  | _, [] => True
  | s, i :: is => ∃ s' e, step s i = some (s', e) ∧ P s i s' e ∧ Achieves step P s' is

/-- If a step is right exactly when it meets a condition, a run is so exactly when all of its steps meet the condition.
The invariant may speak of the number of steps that are left. -/
theorem achieves_iff_meets {I : Nat → σ → Prop} {D : σ → ι → Prop} {P : σ → ι → σ → ε → Prop}
    (hok : ∀ n s i, I (n + 1) s → D s i → C s i → ∃ s' e, step s i = some (s', e) ∧ P s i s' e)
    (hbad : ∀ n s i s' e, I (n + 1) s → D s i → ¬ C s i → step s i = some (s', e) → ¬ P s i s' e)
    (hkept : ∀ n s i s' e, I (n + 1) s → D s i → step s i = some (s', e) → P s i s' e → I n s')
    {s : σ} {is : List ι} (hs : I is.length s) (hd : Meets step D s is) : Achieves step P s is ↔ Meets step C s is := by
  induction is generalizing s with
  | nil => exact Iff.rfl
  | cons i is ih =>
    by_cases hC : C s i
    · obtain ⟨s', e, hstep, hP⟩ := hok _ s i hs hd.1 hC
      have hrest := ih (hkept _ s i s' e hs hd.1 hstep hP) (hd.2 s' e hstep)
      constructor
      · rintro ⟨s₁, e₁, hstep₁, -, hachieves⟩
        obtain ⟨rfl, rfl⟩ := Prod.mk.inj (Option.some.inj (hstep.symm.trans hstep₁))
        refine ⟨hC, fun s₂ e₂ hstep₂ => ?_⟩
        obtain ⟨rfl, -⟩ := Prod.mk.inj (Option.some.inj (hstep.symm.trans hstep₂))
        exact hrest.mp hachieves
      · exact fun hm => ⟨s', e, hstep, hP, hrest.mpr (hm.2 s' e hstep)⟩
    · refine iff_of_false ?_ (fun hm => hC hm.1)
      rintro ⟨s', e, hstep, hP, -⟩
      exact hbad _ s i s' e hs hd.1 hC hstep hP

/-! ### Machines given by a relation -/

/-- A machine that is given by a relation can have had some outputs, and be in a state then. -/
inductive Allows (A : τ → ε → τ → Prop) (start : τ) : List ε → τ → Prop
  | nil : Allows A start [] start
  | snoc {es a e a'} : Allows A start es a → A a e a' → Allows A start (es ++ [e]) a'

/-- A run whose steps follow a relation. -/
theorem exec_allows {R : σ → τ → Prop} {A : τ → ε → τ → Prop}
    (hstep : ∀ s a i, R s a → C s i → ∃ s' e a', step s i = some (s', e) ∧ R s' a' ∧ A a e a')
    {s : σ} {a : τ} {is : List ι} (hs : R s a) (hm : Meets step C s is) :
    ∃ s' es a', exec step s is = some (s', es) ∧ R s' a' ∧ Allows A a es a' := by
  have hrun := exec_history (I := fun s es => ∃ a', R s a' ∧ Allows A a es a')
    (fun s es i ⟨a', hR, hes⟩ hi => by
      obtain ⟨s', e, a'', hs', hR', hA⟩ := hstep s a' i hR hi
      exact ⟨s', e, hs', a'', hR', hes.snoc hA⟩)
    ⟨a, hs, .nil⟩ hm
  obtain ⟨s', es, hexec, a', hR, hes⟩ := hrun
  exact ⟨s', es, a', hexec, hR, hes⟩

/-! ### Rounds -/

section

variable {κ : Type*} {I : σ → κ → Prop} {m : κ → Nat}

/-- Steps that make a number smaller, as long as it is not zero, or leave alone what it depends on. -/
theorem exec_shrinks
    (hstep : ∀ s k i, I s k → C s i → ∃ s' e k', step s i = some (s', e) ∧ I s' k' ∧ (m k' ≤ m k - 1 ∨ k' = k))
    {s : σ} {k : κ} {is : List ι} (hs : I s k) (hm : Meets step C s is) :
    ∃ s' es k', exec step s is = some (s', es) ∧ I s' k' ∧ (m k' ≤ m k - 1 ∨ k' = k) := by
  induction is generalizing s k with
  | nil => exact ⟨s, [], k, rfl, hs, .inr rfl⟩
  | cons i is ih =>
    obtain ⟨s₁, e, k₁, h₁, hs₁, hless₁⟩ := hstep s k i hs hm.1
    obtain ⟨s₂, es, k₂, h₂, hs₂, hless₂⟩ := ih hs₁ (hm.2 s₁ e h₁)
    refine ⟨s₂, e :: es, k₂, by rw [exec_cons, h₁, Option.bind_some, h₂]; rfl, hs₂, ?_⟩
    rcases hless₁ with hless₁ | rfl
    · rcases hless₂ with hless₂ | rfl
      · exact .inl (by omega)
      · exact .inl hless₁
    · exact hless₂

/-- Among such steps is one that makes the number smaller as long as the others leave it alone. -/
theorem exec_turn
    (hstep : ∀ s k i, I s k → C s i → ∃ s' e k', step s i = some (s', e) ∧ I s' k' ∧ (m k' ≤ m k - 1 ∨ k' = k))
    {s : σ} {k : κ} {is : List ι} {i : ι} (hs : I s k) (hm : Meets step C s is) (hi : i ∈ is)
    (hturn : ∀ s₁, I s₁ k → C s₁ i → ∃ s₂ e k', step s₁ i = some (s₂, e) ∧ I s₂ k' ∧ m k' ≤ m k - 1) :
    ∃ s' es k', exec step s is = some (s', es) ∧ I s' k' ∧ m k' ≤ m k - 1 := by
  induction is generalizing s with
  | nil => cases hi
  | cons j is ih =>
    have hgo {s₁ : σ} {e : ε} {k₁ : κ} (h₁ : step s j = some (s₁, e)) (hs₁ : I s₁ k₁) (hless₁ : m k₁ ≤ m k - 1) :
        ∃ s' es k', exec step s (j :: is) = some (s', es) ∧ I s' k' ∧ m k' ≤ m k - 1 := by
      obtain ⟨s₂, es, k₂, h₂, hs₂, hless₂⟩ := exec_shrinks hstep hs₁ (hm.2 s₁ e h₁)
      refine ⟨s₂, e :: es, k₂, by rw [exec_cons, h₁, Option.bind_some, h₂]; rfl, hs₂, ?_⟩
      rcases hless₂ with hless₂ | rfl
      · omega
      · exact hless₁
    rcases List.mem_cons.mp hi with rfl | hi
    · obtain ⟨s₁, e, k₁, h₁, hs₁, hless₁⟩ := hturn s hs hm.1
      exact hgo h₁ hs₁ hless₁
    · obtain ⟨s₁, e, k₁, h₁, hs₁, hless₁⟩ := hstep s k j hs hm.1
      rcases hless₁ with hless₁ | rfl
      · exact hgo h₁ hs₁ hless₁
      · obtain ⟨s₂, es, k₂, h₂, hs₂, hless₂⟩ := ih hs₁ (hm.2 s₁ e h₁) hi
        exact ⟨s₂, e :: es, k₂, by rw [exec_cons, h₁, Option.bind_some, h₂]; rfl, hs₂, hless₂⟩

/-- A run that goes on in rounds, each with a turn for everybody, brings the number down to zero, if it is always
somebody's turn to make it smaller. -/
theorem exec_rounds {turns : List ι}
    (hstep : ∀ s k i, I s k → C s i → ∃ s' e k', step s i = some (s', e) ∧ I s' k' ∧ (m k' ≤ m k - 1 ∨ k' = k))
    (hturn : ∀ s k, I s k → 0 < m k → ∃ i ∈ turns, ∀ s₁, I s₁ k → C s₁ i →
      ∃ s₂ e k', step s₁ i = some (s₂, e) ∧ I s₂ k' ∧ m k' ≤ m k - 1)
    {s : σ} {k : κ} {rounds : List (List ι)} (hs : I s k) (hrounds : ∀ is ∈ rounds, turns ⊆ is)
    (hm : Meets step C s rounds.flatten) :
    ∃ s' es k', exec step s rounds.flatten = some (s', es) ∧ I s' k' ∧ m k' ≤ m k - rounds.length := by
  induction rounds generalizing s k with
  | nil => exact ⟨s, [], k, rfl, hs, Nat.le_refl _⟩
  | cons is rounds ih =>
    obtain ⟨hround, hrounds⟩ := List.forall_mem_cons.mp hrounds
    obtain ⟨s₁, es₁, k₁, h₁, hs₁, hless₁⟩ : ∃ s' es k', exec step s is = some (s', es) ∧ I s' k' ∧ m k' ≤ m k - 1 := by
      rcases Nat.eq_zero_or_pos (m k) with hzero | hpos
      · obtain ⟨s₁, es₁, k₁, h₁, hs₁, hless₁⟩ := exec_shrinks hstep hs hm.front
        refine ⟨s₁, es₁, k₁, h₁, hs₁, ?_⟩
        rcases hless₁ with hless₁ | rfl
        · exact hless₁
        · omega
      · obtain ⟨i, hi, hless⟩ := hturn s k hs hpos
        exact exec_turn hstep hs hm.front (hround hi) hless
    obtain ⟨s₂, es₂, k₂, h₂, hs₂, hless₂⟩ := ih hs₁ hrounds (hm.of_append h₁).2
    refine ⟨s₂, es₁ ++ es₂, k₂, by rw [List.flatten_cons, exec_append, h₁, Option.bind_some, h₂]; rfl, hs₂, ?_⟩
    rw [List.length_cons]
    omega

end

/-! ### Machines that are cleared -/

section

variable {σ ι ε φ : Type*}

/-- A call of a machine, or the one that clears it. -/
inductive Call (ι : Type*) where
  | op (i : ι)
  | clear

def callStep (step : σ → ι → Option (σ × ε)) (clear : σ → Option (σ × φ)) (s : σ) : Call ι → Option (σ × (ε ⊕ φ))
  | .op i => (step s i).map (fun r => (r.1, .inl r.2))
  | .clear => (clear s).map (fun r => (r.1, .inr r.2))

/-- After a clear every sequence of calls has the results that it has on a new machine. -/
def AsNew (step : σ → ι → Option (σ × ε)) (clear : σ → Option (σ × φ)) (fresh : σ → Option σ) (s : σ) : Prop :=
  ∃ s' o f, clear s = some (s', o) ∧ fresh s' = some f ∧ ∀ calls,
    (exec (callStep step clear) s' calls).map Prod.snd = (exec (callStep step clear) f calls).map Prod.snd

variable {step : σ → ι → Option (σ × ε)} {clear : σ → Option (σ × φ)} {fresh : σ → Option σ} {s s' f : σ} {o : φ}

theorem asNew_of_eq (hclear : clear s = some (s', o)) (hfresh : fresh s' = some s') : AsNew step clear fresh s :=
  ⟨s', o, s', hclear, hfresh, fun _ => rfl⟩

/-- Some calls have other results than on the new machine. -/
theorem not_asNew (calls : List (Call ι)) (hclear : clear s = some (s', o)) (hfresh : fresh s' = some f)
    (hne : (exec (callStep step clear) s' calls).map Prod.snd ≠ (exec (callStep step clear) f calls).map Prod.snd) :
    ¬ AsNew step clear fresh s := by
  rintro ⟨t, p, g, ht, hg, hcalls⟩
  obtain ⟨rfl, -⟩ := Prod.mk.inj (Option.some.inj (hclear.symm.trans ht))
  obtain rfl := Option.some.inj (hfresh.symm.trans hg)
  exact hne (hcalls calls)

/-- A call has a result on the new machine only. -/
theorem not_asNew_of_none {i : ι} {r : σ × ε} (hclear : clear s = some (s', o)) (hfresh : fresh s' = some f)
    (hnone : step s' i = none) (hsome : step f i = some r) : ¬ AsNew step clear fresh s := by
  refine not_asNew [.op i] hclear hfresh ?_
  rw [exec_cons, exec_cons, callStep, callStep, hnone, hsome]
  simp

end

end RaleighSL.Library
