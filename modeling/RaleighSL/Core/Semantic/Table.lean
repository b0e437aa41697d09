import RaleighSL.Core.Semantic.Model
import RaleighSL.Library.Run

/-!
# The names as a table

What the requests do to the root object is told by a table of the keys that are
bound, the changes that wait for the next commit and the next object id. A lookup
sees the bindings only. A request that fails after its change was queued leaves the
change in the queue, and the next request that succeeds carries it out. The code does
what the table does in every run.
-/
namespace RaleighSL.Core.Semantic
open RaleighSL.Core RaleighSL.Library RaleighSL.Zcl RaleighSL.Objects RaleighSL.Semantics RaleighSL.Semantics.Flat

structure Table where
  bindings : Bytes → Option Oid
  waiting : List (Bytes × Option Oid)
  nextOid : Oid

/-- The error of a call that needs the object from the cache. -/
def calls (cached : Bool) (errno : Errno) : Errno := if cached then errno else .noMemory

namespace Table

def init : Table := { bindings := fun _ => none, waiting := [], nextOid := reservedOids }

def add (a : Table) (k : Bytes) (x : Option Oid) : Table := { a with waiting := a.waiting ++ [(k, x)] }

def commit (a : Table) : Table := { a with bindings := changed a.bindings a.waiting, waiting := [] }

def nextId (a : Table) : Table := { a with nextOid := (a.nextOid + 1) % 2 ^ 64 }

def finish (a : Table) (errno : Errno) (x : Option Oid) : Table × Response :=
  if errno = .none then (a.commit, .ok x) else (a, .error errno)

variable (hash : Bytes → Bytes)

def serve (a : Table) : Request → Table × Response
  | .create name alloc created =>
    match a.bindings (hash name) with
    | some oid => (a.commit, .ok (some oid))
    | none =>
      if alloc.ok then (a.nextId.add (hash name) (some a.nextOid)).finish created (some a.nextOid)
      else (a.nextId, .error .noMemory)
  | .open name cached opened =>
    match a.bindings (hash name) with
    | none => (a, .error .objectNotFound)
    | some oid => (a, if calls cached opened = .none then .ok (some oid) else .error (calls cached opened))
  | .unlink name alloc cached unlinked =>
    if alloc.entry then
      match a.bindings (hash name) with
      | none => (a, .error .objectNotFound)
      | some _ =>
        if alloc.atom then (a.add (hash name) none).finish (calls cached unlinked) none else (a, .error .noMemory)
    else (a, .error .noMemory)
  | .rename oldName newName alloc newAlloc =>
    match a.bindings (hash newName) with
    | some _ => (a.commit, .ok none)
    | none =>
      if alloc.entry then
        match a.bindings (hash oldName) with
        | none => (a, .error .objectNotFound)
        | some oid =>
          if alloc.atom then
            if newAlloc.ok then (((a.add (hash oldName) none).add (hash newName) (some oid)).commit, .ok none)
            else (a.add (hash oldName) none, .error .noMemory)
          else (a, .error .noMemory)
      else (a, .error .noMemory)

end Table

structure Shows (s : State) (a : Table) : Prop where
  root : Binds s.root a.bindings a.waiting
  nextOid : s.nextOid = a.nextOid
  lt : a.nextOid < 2 ^ 64

variable {hash : Bytes → Bytes} {s s' : State} {a : Table} {root : SSet.State} {name : Bytes} {r : Request}

theorem init_shows : Shows State.init Table.init where
  root := create_binds
  nextOid := rfl
  lt := by decide

/-- A step of the code and of the table from states that show each other. -/
def Follows (hash : Bytes → Bytes) (s : State) (a : Table) (r : Request) : Prop :=
  ∃ s', serve hash s r = some (s', (a.serve hash r).2) ∧ Shows s' (a.serve hash r).1

theorem Shows.commit (h : Shows s a) (x : Option Oid) :
    ∃ s', committed (s, .ok x) = some (s', .ok x) ∧ Shows s' a.commit := by
  obtain ⟨root', hcommit, hroot'⟩ := h.root.commit
  exact ⟨{ s with root := root' }, by simp [committed, hcommit], hroot', h.nextOid, h.lt⟩

theorem Shows.finish (h : Shows s a) (errno : Errno) (x : Option Oid) :
    ∃ s', committed (if errno ≠ .none then (s, .error errno) else (s, .ok x)) = some (s', (a.finish errno x).2) ∧
      Shows s' (a.finish errno x).1 := by
  by_cases he : errno = .none
  · simpa [he, Table.finish] using h.commit x
  · exact ⟨s, by simp [he, Table.finish, committed], by simpa [he, Table.finish] using h⟩

theorem Shows.create (h : Shows s a) (name : Bytes) (alloc : Alloc) (created : Errno) :
    Follows hash s a (.create name alloc created) := by
  have hlookup := h.root.lookup hash name
  cases hk : a.bindings (hash name) with
  | some oid =>
    obtain ⟨s', hs', hshows⟩ := h.commit (some oid)
    refine ⟨s', ?_, ?_⟩
    · simp [serve, Semantic.create, hlookup, hk, Table.serve, hs']
    · simpa [Table.serve, hk] using hshows
  | none =>
    have hlt : (a.nextOid + 1) % 2 ^ 64 < 2 ^ 64 := Nat.mod_lt _ (by decide)
    cases halloc : alloc.ok with
    | false =>
      refine ⟨{ s with nextOid := (s.nextOid + 1) % 2 ^ 64 }, ?_, ?_⟩
      · simp [serve, Semantic.create, hlookup, hk, h.root.create_noMemory hash hk halloc, Table.serve, halloc, committed]
      · simp only [Table.serve, hk, halloc]
        exact ⟨h.root, by rw [h.nextOid]; rfl, hlt⟩
    | true =>
      obtain ⟨root', hcreate, hroot'⟩ := h.root.create hash hk halloc h.lt
      have hshows : Shows { root := root', nextOid := (s.nextOid + 1) % 2 ^ 64 }
          (a.nextId.add (hash name) (some a.nextOid)) := ⟨hroot', by rw [h.nextOid]; rfl, hlt⟩
      obtain ⟨s', hs', hshows'⟩ := hshows.finish created (some a.nextOid)
      refine ⟨s', ?_, ?_⟩
      · simp only [Table.serve, hk, halloc, if_true, serve, Semantic.create, hlookup, Option.bind_some, h.nextOid, hcreate,
          Option.map_some, ne_eq, not_true_eq_false, if_false]
        rw [h.nextOid] at hs'
        exact hs'
      · simpa [Table.serve, hk, halloc] using hshows'

theorem Shows.opens (h : Shows s a) (name : Bytes) (cached : Bool) (opened : Errno) :
    Follows hash s a (.open name cached opened) := by
  have hlookup := h.root.lookup hash name
  cases hk : a.bindings (hash name) with
  | none =>
    refine ⟨s, ?_, ?_⟩
    · simp [serve, Semantic.open, hlookup, hk, Table.serve]
    · simpa [Table.serve, hk] using h
  | some oid =>
    refine ⟨s, ?_, ?_⟩
    · cases cached with
      | false => simp [serve, Semantic.open, hlookup, hk, Table.serve, calls]
      | true =>
        by_cases he : opened = .none
        · simp [serve, Semantic.open, hlookup, hk, Table.serve, calls, he]
        · simp [serve, Semantic.open, hlookup, hk, Table.serve, calls, he]
    · simpa [Table.serve, hk] using h

theorem Shows.unlink (h : Shows s a) (name : Bytes) (alloc : Alloc) (cached : Bool) (unlinked : Errno) :
    Follows hash s a (.unlink name alloc cached unlinked) := by
  cases hentry : alloc.entry with
  | false =>
    refine ⟨s, ?_, ?_⟩
    · simp [serve, Semantic.unlink, Flat.unlink, hentry, Table.serve, committed]
    · simpa [Table.serve, hentry] using h
  | true =>
    cases hk : a.bindings (hash name) with
    | none =>
      refine ⟨s, ?_, ?_⟩
      · simp [serve, Semantic.unlink, h.root.unlink_missing hash hk hentry, hk, hentry, Table.serve, committed]
      · simpa [Table.serve, hentry, hk] using h
    | some oid =>
      cases hatom : alloc.atom with
      | false =>
        have halloc : alloc.ok = false := by simp [Alloc.ok, hatom]
        refine ⟨s, ?_, ?_⟩
        · simp [serve, Semantic.unlink, h.root.unlink_noMemory hash hk halloc, hk, hentry, hatom, Table.serve, committed]
        · simpa [Table.serve, hentry, hk, hatom] using h
      | true =>
        have halloc : alloc.ok = true := by simp [Alloc.ok, hentry, hatom]
        obtain ⟨root', hunlink, hroot'⟩ := h.root.unlink hash hk halloc
        have hshows : Shows { s with root := root' } (a.add (hash name) none) := ⟨hroot', h.nextOid, h.lt⟩
        obtain ⟨s', hs', hshows'⟩ := hshows.finish (calls cached unlinked) none
        refine ⟨s', ?_, ?_⟩
        · simp only [Table.serve, hk, hentry, hatom, if_true, serve, Semantic.unlink, hunlink, Option.map_some,
            Option.bind_some]
          rw [← hs']
          cases cached with
          | false => simp [calls]
          | true => simp [calls]
        · simpa [Table.serve, hk, hentry, hatom] using hshows'

theorem Shows.rename (h : Shows s a) (oldName newName : Bytes) (alloc newAlloc : Alloc) :
    Follows hash s a (.rename oldName newName alloc newAlloc) := by
  have hlookup := h.root.lookup hash newName
  cases hnew : a.bindings (hash newName) with
  | some oid =>
    obtain ⟨s', hs', hshows⟩ := h.commit none
    refine ⟨s', ?_, ?_⟩
    · simp [serve, Semantic.rename, hlookup, hnew, Table.serve, hs']
    · simpa [Table.serve, hnew] using hshows
  | none =>
    rw [hnew] at hlookup
    cases hentry : alloc.entry with
    | false =>
      refine ⟨s, ?_, ?_⟩
      · simp [serve, Semantic.rename, hlookup, hnew, Flat.unlink, hentry, Table.serve, committed]
      · simpa [Table.serve, hnew, hentry] using h
    | true =>
      cases hold : a.bindings (hash oldName) with
      | none =>
        refine ⟨s, ?_, ?_⟩
        · simp [serve, Semantic.rename, hlookup, hnew, h.root.unlink_missing hash hold hentry, hold, hentry, Table.serve,
            committed]
        · simpa [Table.serve, hnew, hentry, hold] using h
      | some oid =>
        cases hatom : alloc.atom with
        | false =>
          have halloc : alloc.ok = false := by simp [Alloc.ok, hatom]
          refine ⟨s, ?_, ?_⟩
          · simp [serve, Semantic.rename, hlookup, hnew, h.root.unlink_noMemory hash hold halloc, hold, hentry, hatom,
              Table.serve, committed]
          · simpa [Table.serve, hnew, hentry, hold, hatom] using h
        | true =>
          have halloc : alloc.ok = true := by simp [Alloc.ok, hentry, hatom]
          obtain ⟨root', hunlink, hroot'⟩ := h.root.unlink hash hold halloc
          cases hok : newAlloc.ok with
          | false =>
            refine ⟨{ s with root := root' }, ?_, ?_⟩
            · simp [serve, Semantic.rename, hlookup, hnew, hunlink, hroot'.create_noMemory hash hnew hok, hold, hentry,
                hatom, hok, Table.serve, committed]
            · simp only [Table.serve, hnew, hentry, hold, hatom, hok]
              exact ⟨hroot', h.nextOid, h.lt⟩
          | true =>
            obtain ⟨root'', hcreate, hroot''⟩ := hroot'.create hash hnew hok (h.root.bound _ oid hold)
            have hshows : Shows { s with root := root'' } ((a.add (hash oldName) none).add (hash newName) (some oid)) :=
              ⟨hroot'', h.nextOid, h.lt⟩
            obtain ⟨s', hs', hshows'⟩ := hshows.commit none
            refine ⟨s', ?_, ?_⟩
            · simp [serve, Semantic.rename, hlookup, hnew, hunlink, hcreate, hold, hentry, hatom, hok, Table.serve, hs']
            · simpa [Table.serve, hnew, hentry, hold, hatom, hok] using hshows'

theorem Shows.serve (h : Shows s a) (hash : Bytes → Bytes) (r : Request) : Follows hash s a r := by
  cases r with
  | create name alloc created => exact h.create name alloc created
  | «open» name cached opened => exact h.opens name cached opened
  | unlink name alloc cached unlinked => exact h.unlink name alloc cached unlinked
  | rename oldName newName alloc newAlloc => exact h.rename oldName newName alloc newAlloc

/-- Every run of the code is a run of the table. -/
theorem Shows.run (h : Shows s a) (hash : Bytes → Bytes) (rs : List Request) :
    ∃ s', exec (Semantic.serve hash) s rs = some (s', (specExec (Table.serve hash) a rs).2) ∧
      Shows s' (specExec (Table.serve hash) a rs).1 :=
  exec_simulates (C := fun _ _ => True) (fun _ _ r h _ => h.serve hash r) h (meets_of_forall (fun _ _ => trivial) _ _)

end RaleighSL.Core.Semantic
