import RaleighSL.Core.Semantic.Table

/-!
# Requests that fail

A request that fails before it has queued a change leaves no trace but the object id
it may have taken. A request that fails after it has queued one does: the next request
that succeeds carries the change out, and from then on the names are not what they
were.
-/
namespace RaleighSL.Core.Semantic
open RaleighSL.Core RaleighSL.Library RaleighSL.Zcl RaleighSL.Objects RaleighSL.Semantics RaleighSL.Semantics.Flat

variable (hash : Bytes → Bytes)

def bound (s : State) (name : Bytes) : Bool :=
  match Flat.lookup hash s.root name with
  | some (.ok _) => true
  | _ => false

/-- No call fails after the request has queued a change. -/
def Whole (s : State) : Request → Prop
  | .create name alloc created => bound hash s name = false → alloc.ok = true → created = .none
  | .open _ _ _ => True
  | .unlink name alloc cached unlinked =>
    bound hash s name = true → alloc.ok = true → cached = true ∧ unlinked = .none
  | .rename oldName newName alloc newAlloc =>
    bound hash s newName = false → bound hash s oldName = true → alloc.ok = true → newAlloc.ok = true

instance (s : State) : (r : Request) → Decidable (Whole hash s r)
  | .create name alloc created => inferInstanceAs (Decidable (bound hash s name = false → alloc.ok = true → created = .none))
  | .open _ _ _ => .isTrue trivial
  | .unlink name alloc cached unlinked =>
    inferInstanceAs (Decidable (bound hash s name = true → alloc.ok = true → cached = true ∧ unlinked = .none))
  | .rename oldName newName alloc newAlloc => inferInstanceAs
      (Decidable (bound hash s newName = false → bound hash s oldName = true → alloc.ok = true → newAlloc.ok = true))

/-- Whatever is requested later, from the state after the request it is answered as if the request had only
taken an object id. -/
def Traceless (s s' : State) : Prop :=
  ∀ more : List Request,
    (exec (serve hash) s' more).map Prod.snd = (exec (serve hash) { s with nextOid := s'.nextOid } more).map Prod.snd

variable {hash} {s s' : State} {a b : Table} {r : Request} {errno : Errno} {name : Bytes} {oid : Oid}

theorem Shows.bound (h : Shows s a) (name : Bytes) :
    Semantic.bound hash s name = (a.bindings (hash name)).isSome := by
  rw [Semantic.bound, h.root.lookup hash]
  cases a.bindings (hash name) with
  | none => rfl
  | some oid => rfl

theorem calls_eq_none {cached : Bool} : calls cached errno = .none ↔ cached = true ∧ errno = .none := by
  cases cached with
  | false => simp [calls]
  | true => simp [calls]

/-- Nothing waits after such a request, and an error changes the next object id at most. -/
theorem Shows.whole (h : Shows s a) (hw : a.waiting = []) (hr : Whole hash s r) :
    (a.serve hash r).1.waiting = [] ∧
      ∀ e, (a.serve hash r).2 = .error e → (a.serve hash r).1 = { a with nextOid := (a.serve hash r).1.nextOid } := by
  have hsame (hserve : (a.serve hash r).1 = a) : (a.serve hash r).1.waiting = [] ∧
      ∀ e, (a.serve hash r).2 = .error e → (a.serve hash r).1 = { a with nextOid := (a.serve hash r).1.nextOid } := by
    rw [hserve]
    exact ⟨hw, fun _ _ => rfl⟩
  cases r with
  | create name alloc created =>
    simp only [Whole, h.bound] at hr
    cases hk : a.bindings (hash name) with
    | some oid => simp [Table.serve, hk, Table.commit]
    | none =>
      cases halloc : alloc.ok with
      | false => simp [Table.serve, hk, halloc, Table.nextId, hw]
      | true => simp [Table.serve, hk, halloc, Table.finish, hr (by simp [hk]) halloc, Table.commit]
  | «open» name cached opened =>
    cases hk : a.bindings (hash name) with
    | none => exact hsame (by simp [Table.serve, hk])
    | some oid => exact hsame (by simp [Table.serve, hk])
  | unlink name alloc cached unlinked =>
    simp only [Whole, h.bound] at hr
    cases hentry : alloc.entry with
    | false => exact hsame (by simp [Table.serve, hentry])
    | true =>
      cases hk : a.bindings (hash name) with
      | none => exact hsame (by simp [Table.serve, hentry, hk])
      | some oid =>
        cases hatom : alloc.atom with
        | false => exact hsame (by simp [Table.serve, hentry, hk, hatom])
        | true =>
          have hcalls := calls_eq_none.mpr (hr (by simp [hk]) (by simp [Alloc.ok, hentry, hatom]))
          simp [Table.serve, hentry, hk, hatom, Table.finish, hcalls, Table.commit]
  | rename oldName newName alloc newAlloc =>
    simp only [Whole, h.bound] at hr
    cases hnew : a.bindings (hash newName) with
    | some oid => simp [Table.serve, hnew, Table.commit]
    | none =>
      cases hentry : alloc.entry with
      | false => exact hsame (by simp [Table.serve, hnew, hentry])
      | true =>
        cases hold : a.bindings (hash oldName) with
        | none => exact hsame (by simp [Table.serve, hnew, hentry, hold])
        | some oid =>
          cases hatom : alloc.atom with
          | false => exact hsame (by simp [Table.serve, hnew, hentry, hold, hatom])
          | true =>
            have hok := hr (by simp [hnew]) (by simp [hold]) (by simp [Alloc.ok, hentry, hatom])
            simp [Table.serve, hnew, hentry, hold, hatom, hok, Table.commit]

/-- What waits after a request that failed too late. -/
inductive Torn (hash : Bytes → Bytes) (a : Table) : Table → Prop where
  | bind {name : Bytes} {oid : Oid} (hnone : a.bindings (hash name) = none) :
    Torn hash a (a.nextId.add (hash name) (some oid))
  | unbind {name : Bytes} {oid : Oid} (hsome : a.bindings (hash name) = some oid) : Torn hash a (a.add (hash name) none)

theorem Shows.torn (h : Shows s a) (hr : ¬ Whole hash s r) : Torn hash a (a.serve hash r).1 := by
  cases r with
  | create name alloc created =>
    simp only [Whole, h.bound, Classical.not_imp] at hr
    obtain ⟨hk, halloc, hcreated⟩ := hr
    have hk : a.bindings (hash name) = none := by simpa using hk
    simp only [Table.serve, hk, halloc, if_true, Table.finish, hcreated, if_false]
    exact .bind hk
  | «open» name cached opened => exact absurd trivial hr
  | unlink name alloc cached unlinked =>
    simp only [Whole, h.bound, Classical.not_imp] at hr
    obtain ⟨hk, halloc, hcalls⟩ := hr
    obtain ⟨oid, hk⟩ := Option.isSome_iff_exists.mp hk
    obtain ⟨hentry, hatom⟩ := Bool.and_eq_true_iff.mp halloc
    simp only [Table.serve, hk, hentry, hatom, if_true, Table.finish, calls_eq_none, hcalls, if_false]
    exact .unbind hk
  | rename oldName newName alloc newAlloc =>
    simp only [Whole, h.bound, Classical.not_imp] at hr
    obtain ⟨hnew, hold, halloc, hok⟩ := hr
    have hnew : a.bindings (hash newName) = none := by simpa using hnew
    obtain ⟨oid, hold⟩ := Option.isSome_iff_exists.mp hold
    obtain ⟨hentry, hatom⟩ := Bool.and_eq_true_iff.mp halloc
    simp only [Table.serve, hnew, hold, hentry, hatom, if_true, hok]
    exact .unbind hold

/-- A request that succeeds carries out what waits, and a lookup tells the difference. -/
theorem Torn.shown (h : Torn hash a b) (hw : a.waiting = []) (hhash : ∃ n n', hash n ≠ hash n') :
    ∃ more, (specExec (Table.serve hash) b more).2 ≠ (specExec (Table.serve hash) { a with nextOid := b.nextOid } more).2 := by
  cases h with
  | @bind name oid hnone =>
    obtain ⟨n, hn⟩ : ∃ n, hash n ≠ hash name := by
      by_contra hall
      simp only [not_exists, not_not] at hall
      obtain ⟨n, n', hne⟩ := hhash
      exact hne ((hall n).trans (hall n').symm)
    refine ⟨[.create n {} .none, .open name true .none], ?_⟩
    have hne : hash name ≠ hash n := Ne.symm hn
    cases hk : a.bindings (hash n) with
    | some oid' =>
      simp [specExec, Table.serve, Table.add, Table.nextId, Table.commit, changed, calls, hk, hw, hnone]
    | none =>
      simp [specExec, Table.serve, Table.add, Table.nextId, Table.commit, Table.finish, Alloc.ok, changed, calls, hk, hw,
        hnone, hne]
  | @unbind name oid hsome =>
    refine ⟨[.create name {} .none, .open name true .none], ?_⟩
    simp [specExec, Table.serve, Table.add, Table.commit, changed, calls, hsome, hw]

/-- The answers of the code are those of the table it shows. -/
theorem Shows.traceless_iff (h : Shows s a) (h' : Shows s' b) : Traceless hash s s' ↔
    ∀ more, (specExec (Table.serve hash) b more).2 = (specExec (Table.serve hash) { a with nextOid := b.nextOid } more).2 := by
  have hrest : Shows { s with nextOid := s'.nextOid } { a with nextOid := b.nextOid } := ⟨h.root, h'.nextOid, h'.lt⟩
  have hanswers {s : State} {a : Table} (h : Shows s a) (more : List Request) :
      (exec (Semantic.serve hash) s more).map Prod.snd = some (specExec (Table.serve hash) a more).2 := by
    obtain ⟨s', hs', -⟩ := h.run hash more
    rw [hs']
    rfl
  simp only [Traceless, hanswers h', hanswers hrest, Option.some.injEq]

/-- After a run in which no request failed after it had queued a change, a request that is answered with an
error leaves no trace exactly if it did not fail so either. -/
theorem run_error_traceless_iff (hhash : ∃ n n', hash n ≠ hash n') {rs : List Request} {responses : List Response}
    (hm : Meets (serve hash) (Whole hash) State.init rs) (he : exec (serve hash) State.init rs = some (s, responses))
    (hs : serve hash s r = some (s', .error errno)) : Traceless hash s s' ↔ Whole hash s r := by
  have hinv : ∃ a, Shows s a ∧ a.waiting = [] := by
    refine exec_invariant (I := fun s => ∃ a, Shows s a ∧ a.waiting = []) ?_ ⟨Table.init, init_shows, rfl⟩ hm he
    rintro s r s' e ⟨a, h, hw⟩ hr hs
    obtain ⟨s'', hs'', h''⟩ := h.serve hash r
    obtain rfl : s'' = s' := congrArg Prod.fst (Option.some.inj (hs''.symm.trans hs))
    exact ⟨_, h'', (h.whole hw hr).1⟩
  obtain ⟨a, h, hw⟩ := hinv
  obtain ⟨s'', hs'', h'⟩ := h.serve hash r
  obtain ⟨rfl, herror⟩ := Prod.mk.inj (Option.some.inj (hs''.symm.trans hs))
  rw [h.traceless_iff h']
  constructor
  · intro hsame
    by_contra hr
    obtain ⟨more, hmore⟩ := (h.torn hr).shown hw hhash
    exact hmore (hsame more)
  · intro hr more
    rw [← (h.whole hw hr).2 errno herror]

/-- `z_hash256_sha` of the names a, b and c. -/
def digest : Bytes → Bytes
  | [97] =>
    [202, 151, 129, 18, 202, 27, 189, 202, 250, 194, 49, 179, 154, 35, 220, 77, 167, 134, 239, 248, 20, 124,
     78, 114, 185, 128, 119, 133, 175, 238, 72, 187]
  | [98] =>
    [62, 35, 232, 22, 0, 57, 89, 74, 51, 137, 79, 101, 100, 225, 177, 52, 139, 189, 122, 0, 136, 212, 44, 74,
     203, 115, 238, 174, 213, 156, 0, 157]
  | [99] =>
    [46, 125, 44, 3, 169, 80, 122, 226, 101, 236, 245, 181, 53, 104, 133, 165, 51, 147, 162, 2, 157, 36, 19,
     148, 153, 114, 101, 161, 162, 90, 239, 198]
  | name => name

theorem run_error_traceless_iff_missing : ∃ s s', exec (serve digest) State.init [.create [97] {} .none] =
      some (s, [.ok (some 128)]) ∧
    serve digest s (.unlink [98] {} true .none) = some (s', .error .objectNotFound) ∧ Traceless digest s s' := by
  have he : (exec (serve digest) State.init [.create [97] {} .none]).map (fun r =>
      (r.2, (serve digest r.1 (.unlink [98] {} true .none)).map Prod.snd, decide (Whole digest r.1 (.unlink [98] {} true .none)))) =
      some ([.ok (some 128)], some (.error .objectNotFound), true) := by
    decide +kernel
  rw [Option.map_eq_some_iff] at he
  obtain ⟨⟨s, responses⟩, he, hfacts⟩ := he
  simp only [Prod.mk.injEq, decide_eq_true_eq, Option.map_eq_some_iff] at hfacts
  obtain ⟨rfl, ⟨⟨s', response⟩, hs, rfl⟩, hr⟩ := hfacts
  refine ⟨s, s', he, hs, ?_⟩
  exact (run_error_traceless_iff ⟨[97], [98], by decide⟩ (by decide +kernel) he hs).mpr hr

/-- A create whose object could not be created binds its name in the commit of another create, and a rename
that could not create the new name unbinds the old one. -/
theorem failed_requests_take_effect :
    (exec (serve digest) State.init [.create [98] {} .noMemory, .open [98] true .none, .create [97] {} .none,
      .open [98] true .none]).map Prod.snd =
      some [.error .noMemory, .error .objectNotFound, .ok (some 129), .ok (some 128)] ∧
    (exec (serve digest) State.init [.create [97] {} .none, .rename [97] [98] {} { entry := false }, .open [97] true .none,
      .create [99] {} .none, .open [97] true .none]).map Prod.snd =
      some [.ok (some 128), .error .noMemory, .ok (some 128), .ok (some 129), .error .objectNotFound] := by
  decide +kernel

end RaleighSL.Core.Semantic
