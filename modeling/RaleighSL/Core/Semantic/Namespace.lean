import Mathlib.Data.Set.Function
import RaleighSL.Core.Semantic.Errors

/-!
# The names as a partial map

A namespace maps the names to object ids and hands out object ids in order. A create
of a bound name and a rename to one are errors there. The code lets both succeed and
changes nothing: the lookup that is to make sure that the name is free returns no
error when it finds the name, and its result is returned as the result of the request.
A run without such requests, without a request that fails after it has queued a change
and without a create after the last object id is a run of the namespace.
-/
namespace RaleighSL.Core.Semantic
open RaleighSL.Core RaleighSL.Library RaleighSL.Zcl RaleighSL.Objects RaleighSL.Semantics RaleighSL.Semantics.Flat

structure Namespace where
  names : Bytes → Option Oid
  nextOid : Oid

namespace Namespace

def init : Namespace := { names := fun _ => none, nextOid := reservedOids }

def bind (b : Namespace) (name : Bytes) (x : Option Oid) : Namespace :=
  { b with names := Function.update b.names name x }

def serve (b : Namespace) : Request → Namespace × Response
  | .create name alloc created =>
    match b.names name with
    | some _ => (b, .error .objectExists)
    | none =>
      let b' : Namespace := { b with nextOid := b.nextOid + 1 }
      if !alloc.ok then (b', .error .noMemory)
      else if created ≠ .none then (b', .error created)
      else (b'.bind name (some b.nextOid), .ok (some b.nextOid))
  | .open name cached opened =>
    match b.names name with
    | none => (b, .error .objectNotFound)
    | some oid => (b, if calls cached opened = .none then .ok (some oid) else .error (calls cached opened))
  | .unlink name alloc cached unlinked =>
    if !alloc.entry then (b, .error .noMemory)
    else
      match b.names name with
      | none => (b, .error .objectNotFound)
      | some _ =>
        if !alloc.atom then (b, .error .noMemory)
        else if calls cached unlinked ≠ .none then (b, .error (calls cached unlinked))
        else (b.bind name none, .ok none)
  | .rename oldName newName alloc newAlloc =>
    match b.names newName with
    | some _ => (b, .error .objectExists)
    | none =>
      if !alloc.entry then (b, .error .noMemory)
      else
        match b.names oldName with
        | none => (b, .error .objectNotFound)
        | some oid =>
          if !alloc.atom || !newAlloc.ok then (b, .error .noMemory)
          else ((b.bind oldName none).bind newName (some oid), .ok none)

end Namespace

def handedOut : Request × Response → Option Oid
  | (.create _ _ _, .ok oid) => oid
  | _ => none

variable (hash : Bytes → Bytes)

/-- The object id a lookup of the name gives. -/
def found (s : State) (name : Bytes) : Option Oid :=
  match Flat.lookup hash s.root name with
  | some (.ok oid) => some oid
  | _ => none

/-- The request creates no name that is bound already, the object ids have not run out, and no call fails
after it has queued a change. -/
def Proper (s : State) (r : Request) : Prop :=
  Whole hash s r ∧
    match r with
    | .create name _ _ => bound hash s name = false ∧ reservedOids ≤ s.nextOid
    | .rename _ newName _ _ => bound hash s newName = false
    | .open _ _ _ => True
    | .unlink _ _ _ _ => True

instance (s : State) : (r : Request) → Decidable (Proper hash s r)
  | .create name _ _ => inferInstanceAs (Decidable (_ ∧ (bound hash s name = false ∧ reservedOids ≤ s.nextOid)))
  | .rename _ newName _ _ => inferInstanceAs (Decidable (_ ∧ (bound hash s newName = false)))
  | .open _ _ _ => inferInstanceAs (Decidable (_ ∧ True))
  | .unlink _ _ _ _ => inferInstanceAs (Decidable (_ ∧ True))

/-- The table has the bindings of the namespace under the hashes of the names in use. -/
structure Agrees (N : Set Bytes) (a : Table) (b : Namespace) : Prop where
  waiting : a.waiting = []
  names : ∀ n ∈ N, a.bindings (hash n) = b.names n
  nextOid : a.nextOid = b.nextOid % 2 ^ 64
  low : reservedOids ≤ b.nextOid
  high : b.nextOid ≤ 2 ^ 64

variable {hash} {N : Set Bytes} {s s' : State} {a : Table} {b : Namespace} {r : Request} {n name : Bytes} {x : Option Oid}

theorem update_names {f : Bytes → Option Oid} {g : Bytes → Option Oid} (hinj : Set.InjOn hash N)
    (h : ∀ n ∈ N, f (hash n) = g n) (hname : name ∈ N) (hn : n ∈ N) :
    Function.update f (hash name) x (hash n) = Function.update g name x n := by
  by_cases heq : n = name
  · simp [heq]
  · have hne : hash n ≠ hash name := fun hc => heq (hinj hn hname hc)
    simp [heq, hne, h n hn]

theorem Agrees.keep (h : Agrees hash N a b) {a' : Table} {b' : Namespace} (hw : a'.waiting = [])
    (hnames : ∀ n ∈ N, a'.bindings (hash n) = b'.names n) (ha : a'.nextOid = a.nextOid) (hb : b'.nextOid = b.nextOid) :
    Agrees hash N a' b' where
  waiting := hw
  names := hnames
  nextOid := by rw [ha, hb, h.nextOid]
  low := by rw [hb]; exact h.low
  high := by rw [hb]; exact h.high

/-- The next object id is taken while there is one. -/
theorem Agrees.take (h : Agrees hash N a b) (hid : reservedOids ≤ a.nextOid) :
    a.nextOid = b.nextOid ∧ Agrees hash N a.nextId { b with nextOid := b.nextOid + 1 } := by
  have hne : b.nextOid ≠ 2 ^ 64 := by
    intro heq
    rw [h.nextOid, heq, Nat.mod_self] at hid
    exact absurd hid (by decide)
  have hlt : b.nextOid < 2 ^ 64 := lt_of_le_of_ne h.high hne
  have heq : a.nextOid = b.nextOid := by rw [h.nextOid, Nat.mod_eq_of_lt hlt]
  refine ⟨heq, h.waiting, h.names, ?_, Nat.le_succ_of_le h.low, hlt⟩
  rw [Table.nextId, heq]

theorem Agrees.bind (h : Agrees hash N a b) (hinj : Set.InjOn hash N) (hname : name ∈ N) :
    Agrees hash N (a.add (hash name) x).commit (b.bind name x) := by
  refine h.keep rfl ?_ rfl rfl
  intro n hn
  simp only [Table.add, Table.commit, h.waiting, List.nil_append, changed, List.foldl_cons, List.foldl_nil, Namespace.bind]
  exact update_names hinj h.names hname hn

def Steps (hash : Bytes → Bytes) (N : Set Bytes) (a : Table) (b : Namespace) (r : Request) : Prop :=
  (a.serve hash r).2 = (b.serve r).2 ∧ Agrees hash N (a.serve hash r).1 (b.serve r).1

theorem Agrees.create (h : Agrees hash N a b) (hinj : Set.InjOn hash N) (hname : name ∈ N)
    (hfree : a.bindings (hash name) = none) (hid : reservedOids ≤ a.nextOid) {alloc : Alloc} {created : Errno}
    (hwhole : alloc.ok = true → created = .none) : Steps hash N a b (.create name alloc created) := by
  have hnone : b.names name = none := by rw [← h.names name hname, hfree]
  obtain ⟨heq, htake⟩ := h.take hid
  cases halloc : alloc.ok with
  | false => simpa [Steps, Table.serve, Namespace.serve, hfree, hnone, halloc] using htake
  | true =>
    have hbind := htake.bind (x := some b.nextOid) hinj hname
    simpa [Steps, Table.serve, Namespace.serve, Table.finish, hfree, hnone, halloc, hwhole halloc, heq] using hbind

theorem Agrees.open (h : Agrees hash N a b) (hname : name ∈ N) (cached : Bool) (opened : Errno) :
    Steps hash N a b (.open name cached opened) := by
  have hnames := h.names name hname
  cases hk : b.names name with
  | none => simpa [Steps, Table.serve, Namespace.serve, hnames, hk] using h
  | some oid => simpa [Steps, Table.serve, Namespace.serve, hnames, hk] using h

theorem Agrees.unlink (h : Agrees hash N a b) (hinj : Set.InjOn hash N) (hname : name ∈ N) {alloc : Alloc} {cached : Bool}
    {unlinked : Errno}
    (hwhole : (a.bindings (hash name)).isSome = true → alloc.ok = true → calls cached unlinked = .none) :
    Steps hash N a b (.unlink name alloc cached unlinked) := by
  have hnames := h.names name hname
  cases hentry : alloc.entry with
  | false => simpa [Steps, Table.serve, Namespace.serve, hentry] using h
  | true =>
    cases hk : b.names name with
    | none => simpa [Steps, Table.serve, Namespace.serve, hentry, hnames, hk] using h
    | some oid =>
      cases hatom : alloc.atom with
      | false => simpa [Steps, Table.serve, Namespace.serve, hentry, hnames, hk, hatom] using h
      | true =>
        have hcalls := hwhole (by simp [hnames, hk]) (by simp [Alloc.ok, hentry, hatom])
        have hbind := h.bind (x := none) hinj hname
        simpa [Steps, Table.serve, Namespace.serve, Table.finish, hentry, hnames, hk, hatom, hcalls] using hbind

theorem Agrees.rename (h : Agrees hash N a b) (hinj : Set.InjOn hash N) {oldName newName : Bytes} (hold : oldName ∈ N)
    (hnew : newName ∈ N) (hfree : a.bindings (hash newName) = none) {alloc newAlloc : Alloc}
    (hwhole : (a.bindings (hash oldName)).isSome = true → alloc.ok = true → newAlloc.ok = true) :
    Steps hash N a b (.rename oldName newName alloc newAlloc) := by
  have hnone : b.names newName = none := by rw [← h.names newName hnew, hfree]
  have hnames := h.names oldName hold
  cases hentry : alloc.entry with
  | false => simpa [Steps, Table.serve, Namespace.serve, hfree, hnone, hentry] using h
  | true =>
    cases hk : b.names oldName with
    | none => simpa [Steps, Table.serve, Namespace.serve, hfree, hnone, hentry, hnames, hk] using h
    | some oid =>
      cases hatom : alloc.atom with
      | false => simpa [Steps, Table.serve, Namespace.serve, hfree, hnone, hentry, hnames, hk, hatom] using h
      | true =>
        have hok := hwhole (by simp [hnames, hk]) (by simp [Alloc.ok, hentry, hatom])
        have htwo : Agrees hash N ((a.add (hash oldName) none).add (hash newName) (some oid)).commit
            ((b.bind oldName none).bind newName (some oid)) := by
          refine h.keep rfl ?_ rfl rfl
          intro n hn
          simp only [Table.add, Table.commit, h.waiting, List.nil_append, List.cons_append, changed, List.foldl_cons,
            List.foldl_nil, Namespace.bind]
          exact update_names hinj (fun n hn => update_names hinj h.names hold hn) hnew hn
        simpa [Steps, Table.serve, Namespace.serve, hfree, hnone, hentry, hnames, hk, hatom, hok] using htwo

theorem Agrees.serve (h : Agrees hash N a b) (hs : Shows s a) (hinj : Set.InjOn hash N) (hN : ∀ n ∈ r.names, n ∈ N)
    (hr : Proper hash s r) : Steps hash N a b r := by
  obtain ⟨hwhole, hfree⟩ := hr
  cases r with
  | create name alloc created =>
    simp only [hs.bound, hs.nextOid, Option.isSome_eq_false_iff, Option.isNone_iff_eq_none] at hfree
    simp only [Whole, hs.bound] at hwhole
    exact h.create hinj (hN name (by simp [Request.names])) hfree.1 hfree.2 (hwhole (by simp [hfree.1]))
  | «open» name cached opened => exact h.open (hN name (by simp [Request.names])) cached opened
  | unlink name alloc cached unlinked =>
    simp only [Whole, hs.bound] at hwhole
    refine h.unlink hinj (hN name (by simp [Request.names])) ?_
    intro hk halloc
    exact calls_eq_none.mpr (hwhole hk halloc)
  | rename oldName newName alloc newAlloc =>
    simp only [hs.bound, Option.isSome_eq_false_iff, Option.isNone_iff_eq_none] at hfree
    simp only [Whole, hs.bound] at hwhole
    exact h.rename hinj (hN oldName (by simp [Request.names])) (hN newName (by simp [Request.names])) hfree
      (hwhole (by simp [hfree]))

theorem Shows.found (h : Shows s a) (name : Bytes) : Semantic.found hash s name = a.bindings (hash name) := by
  rw [Semantic.found, h.root.lookup hash]
  cases a.bindings (hash name) with
  | none => rfl
  | some oid => rfl

theorem Namespace.serve_nextOid (b : Namespace) (r : Request) :
    b.nextOid ≤ (b.serve r).1.nextOid ∧
      ∀ oid, handedOut (r, (b.serve r).2) = some oid → oid = b.nextOid ∧ oid < (b.serve r).1.nextOid := by
  cases r with
  | create name alloc created =>
    rw [Namespace.serve]
    cases b.names name with
    | some oid => simp [handedOut]
    | none =>
      dsimp only
      split_ifs with halloc hcreated
      · simp [handedOut]
      · simp [handedOut]
      · simp only [handedOut, Namespace.bind, Option.some.injEq]
        refine ⟨Nat.le_succ _, ?_⟩
        rintro oid rfl
        exact ⟨rfl, Nat.lt_succ_self _⟩
  | «open» name cached opened =>
    rw [Namespace.serve]
    cases b.names name with
    | none => simp [handedOut]
    | some oid => simp [handedOut]
  | unlink name alloc cached unlinked =>
    refine ⟨?_, by simp [handedOut]⟩
    rw [Namespace.serve]
    cases b.names name with
    | none =>
      dsimp only
      split_ifs <;> exact le_rfl
    | some oid =>
      dsimp only
      split_ifs <;> exact le_rfl
  | rename oldName newName alloc newAlloc =>
    refine ⟨?_, by simp [handedOut]⟩
    rw [Namespace.serve]
    cases b.names newName with
    | some oid => exact le_rfl
    | none =>
      cases b.names oldName with
      | none =>
        dsimp only
        split_ifs <;> exact le_rfl
      | some oid =>
        dsimp only
        split_ifs <;> exact le_rfl

theorem Namespace.handedOut_increasing (b : Namespace) (rs : List Request) :
    ((rs.zip (specExec Namespace.serve b rs).2).filterMap handedOut).Pairwise (· < ·) ∧
      ∀ oid ∈ (rs.zip (specExec Namespace.serve b rs).2).filterMap handedOut, b.nextOid ≤ oid := by
  induction rs generalizing b with
  | nil => simp [specExec]
  | cons r rs ih =>
    obtain ⟨hsort, hlow⟩ := ih (b.serve r).1
    obtain ⟨hle, hnew⟩ := b.serve_nextOid r
    rw [specExec, List.zip_cons_cons, List.filterMap_cons]
    cases hout : handedOut (r, (b.serve r).2) with
    | none => exact ⟨hsort, fun oid hoid => hle.trans (hlow oid hoid)⟩
    | some oid =>
      obtain ⟨rfl, hlt⟩ := hnew oid hout
      simp only [List.pairwise_cons, List.mem_cons, forall_eq_or_imp]
      exact ⟨⟨fun oid hoid => hlt.trans_le (hlow oid hoid), hsort⟩, le_rfl, fun oid hoid => hle.trans (hlow oid hoid)⟩

/-- A run of proper requests is a run of the namespace: it gives the same answers, its lookups see the same
names, and its creates are answered with object ids in increasing order. -/
theorem run_refines_namespace {rs : List Request} (hinj : Set.InjOn hash {n | ∃ r ∈ rs, n ∈ r.names})
    (hm : Meets (serve hash) (Proper hash) State.init rs) :
    ∃ s, exec (serve hash) State.init rs = some (s, (specExec Namespace.serve Namespace.init rs).2) ∧
      (∀ r ∈ rs, ∀ n ∈ r.names, found hash s n = (specExec Namespace.serve Namespace.init rs).1.names n) ∧
      ((rs.zip (specExec Namespace.serve Namespace.init rs).2).filterMap handedOut).Pairwise (· < ·) := by
  let N : Set Bytes := {n | ∃ r ∈ rs, n ∈ r.names}
  have hnames : ∀ r ∈ rs, ∀ n ∈ r.names, n ∈ N := fun r hr n hn => ⟨r, hr, hn⟩
  have hinit : ∃ a, Shows State.init a ∧ Agrees hash N a Namespace.init :=
    ⟨Table.init, init_shows, rfl, fun _ _ => rfl, rfl, le_rfl, by decide⟩
  obtain ⟨s, he, a, hs, ha⟩ := exec_simulates (R := fun s b => ∃ a, Shows s a ∧ Agrees hash N a b)
    (A := Namespace.serve) (fun s b r h hr => by
      obtain ⟨a, hs, ha⟩ := h
      obtain ⟨hanswer, hagrees⟩ := ha.serve hs hinj hr.1 hr.2
      obtain ⟨s', hs', hshows⟩ := hs.serve hash r
      exact ⟨s', by rw [hs', hanswer], _, hshows, hagrees⟩) hinit (hm.and_forall hnames)
  refine ⟨s, he, ?_, (Namespace.handedOut_increasing _ rs).1⟩
  intro r hr n hn
  rw [hs.found, ha.names n (hnames r hr n hn)]

theorem run_refines_namespace_rename : ∃ s,
    exec (serve digest) State.init [.create [97] {} .none, .rename [97] [98] {} {}, .open [98] true .none,
      .unlink [98] {} true .none, .create [97] {} .none] =
      some (s, [.ok (some 128), .ok none, .ok (some 128), .ok none, .ok (some 129)]) ∧
    found digest s [97] = some 129 ∧ found digest s [98] = none := by
  have hinj : Set.InjOn digest {n | ∃ r ∈ [Request.create [97] {} .none, .rename [97] [98] {} {}, .open [98] true .none,
      .unlink [98] {} true .none, .create [97] {} .none], n ∈ r.names} := by
    intro n hn n' hn'
    simp only [List.mem_cons, List.not_mem_nil, or_false, exists_eq_or_imp, exists_eq_left, Request.names,
      Set.mem_ofPred_eq] at hn hn'
    have hab (n : Bytes) (h : n = [97] ∨ (n = [97] ∨ n = [98]) ∨ n = [98] ∨ n = [98] ∨ n = [97]) : n = [97] ∨ n = [98] := by
      rcases h with h | (h | h) | h | h | h <;> simp [h]
    rcases hab n hn with rfl | rfl
    · rcases hab n' hn' with rfl | rfl <;> decide
    · rcases hab n' hn' with rfl | rfl <;> decide
  obtain ⟨s, he, hfound, -⟩ := run_refines_namespace hinj (by decide +kernel)
  have hanswers : (specExec Namespace.serve Namespace.init [.create [97] {} .none, .rename [97] [98] {} {},
      .open [98] true .none, .unlink [98] {} true .none, .create [97] {} .none]).2 =
      [.ok (some 128), .ok none, .ok (some 128), .ok none, .ok (some 129)] := by
    decide
  refine ⟨s, ?_, ?_, ?_⟩
  · rw [he, hanswers]
  · exact (hfound (.create [97] {} .none) (by simp) [97] (by simp [Request.names])).trans (by decide)
  · exact (hfound (.open [98] true .none) (by simp) [98] (by simp [Request.names])).trans (by decide)

/-- A second create of a name is answered with the object id of the first, and a rename to a bound name is
answered without an error and renames nothing. -/
theorem bound_names_created_and_renamed :
    (exec (serve digest) State.init [.create [97] {} .none, .create [97] {} .none, .create [98] {} .none,
      .rename [97] [98] {} {}, .open [97] true .none]).map Prod.snd =
      some [.ok (some 128), .ok (some 128), .ok (some 129), .ok none, .ok (some 128)] ∧
    (specExec Namespace.serve Namespace.init [.create [97] {} .none, .create [97] {} .none, .create [98] {} .none,
      .rename [97] [98] {} {}, .open [97] true .none]).2 =
      [.ok (some 128), .error .objectExists, .ok (some 129), .error .objectExists, .ok (some 128)] := by
  decide +kernel

end RaleighSL.Core.Semantic
