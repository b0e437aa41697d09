import RaleighSL.Objects.SSet.Model

/-!
# What a sorted set is for

A finite map with the usual answers to inserts, updates, removes, lookups and
scans. With transactions there is one committed map, and for each locked key the
write that is pending on it: a transaction sees its own writes over the committed
map, nobody else sees them, and they become part of the map when it is applied.
-/
namespace RaleighSL.Objects.SSet
open RaleighSL.Core RaleighSL.Library RaleighSL.Zcl

/-- The transaction and the key of a write. -/
def Request.target : Request → Option (TxnId × Bytes)
  | .insert t _ k _ => some (t, k)
  | .update t k _ => some (t, k)
  | .remove t k => some (t, k)
  | _ => none

def Request.ends : Request → Option TxnId
  | .apply t => some t
  | .revert t => some t
  | _ => none

/-- The value of a key is set, or the key is removed. -/
def put (m : SortedMap Bytes Bytes) (k : Bytes) : Option Bytes → SortedMap Bytes Bytes
  | none => m.erase k
  | some v => m.insert k v

theorem lookup_put (m : SortedMap Bytes Bytes) (k : Bytes) (x : Option Bytes) (k' : Bytes) :
    (put m k x).lookup k' = if k' = k then x else m.lookup k' := by
  cases x with
  | none => simp only [put, SortedMap.lookup_erase]; congr!
  | some v => simp only [put, SortedMap.lookup_insert]; congr!

def inRange (key : Bytes) (includeKey : Bool) (k : Bytes) : Prop :=
  key = [] ∨ key < k ∨ (includeKey = true ∧ k = key)

instance (key : Bytes) (includeKey : Bool) (k : Bytes) : Decidable (inRange key includeKey k) :=
  inferInstanceAs (Decidable (_ ∨ _ ∨ _))

/-- The answers of a finite map, whoever asks. -/
def mapServe (m : SortedMap Bytes Bytes) : Request → SortedMap Bytes Bytes × Response
  | .insert _ allowUpdate k v =>
    if (m.lookup k).isSome ∧ allowUpdate = false then (m, .code .dataKeyExists none)
    else (put m k (some v), .code .none none)
  | .update _ k v =>
    match m.lookup k with
    | none => (m, .code .dataKeyNotFound none)
    | some old => (put m k (some v), .code .none (some old))
  | .remove _ k =>
    match m.lookup k with
    | none => (m, .code .dataKeyNotFound none)
    | some old => (put m k none, .code .none (some old))
  | .get _ k =>
    match m.lookup k with
    | none => (m, .code .dataKeyNotFound none)
    | some v => (m, .code .none (some v))
  | .scan _ key includeKey count _ =>
    (m, .entries ((m.entries.filter (fun p => inRange key includeKey p.1)).take count))
  | .apply _ => (m, .code .none none)
  | .revert _ => (m, .code .none none)
  | .balance => (m, .code .none none)

theorem mapServe_write {r : Request} {t : TxnId} {k : Bytes} (hr : r.target = some (t, k)) (m : SortedMap Bytes Bytes) :
    (∃ x v, mapServe m r = (put m k x, .code .none v)) ∨ ∃ c v, c ≠ .none ∧ mapServe m r = (m, .code c v) := by
  cases r with
  | insert t' u k' v =>
    obtain ⟨-, rfl⟩ := Prod.mk.inj (Option.some.inj hr)
    rw [mapServe]
    split_ifs
    · exact Or.inr ⟨_, _, by decide, rfl⟩
    · exact Or.inl ⟨_, _, rfl⟩
  | update t' k' v =>
    obtain ⟨-, rfl⟩ := Prod.mk.inj (Option.some.inj hr)
    cases hk : m.lookup k' with
    | none => exact Or.inr ⟨.dataKeyNotFound, none, by decide, by simp [mapServe, hk]⟩
    | some old => exact Or.inl ⟨some v, some old, by simp [mapServe, hk]⟩
  | remove t' k' =>
    obtain ⟨-, rfl⟩ := Prod.mk.inj (Option.some.inj hr)
    cases hk : m.lookup k' with
    | none => exact Or.inr ⟨.dataKeyNotFound, none, by decide, by simp [mapServe, hk]⟩
    | some old => exact Or.inl ⟨none, some old, by simp [mapServe, hk]⟩
  | _ => simp [Request.target] at hr

/-- The committed map, the pending write of each locked key and the transactions that have ended. -/
structure Store where
  map : SortedMap Bytes Bytes
  pending : SortedMap Bytes (TxnId × Option Bytes)
  ended : List TxnId

namespace Store

def init : Store := { map := SortedMap.empty, pending := SortedMap.empty, ended := [] }

def seen (A : Store) (t : TxnId) : SortedMap Bytes Bytes :=
  A.pending.entries.foldl (fun m p => if p.2.1 = t then put m p.1 p.2.2 else m) A.map

def Closed (A : Store) (t : TxnId) (k : Bytes) : Prop := ∃ w ∈ A.pending.lookup k, w.1 ≠ t

instance (A : Store) (t : TxnId) (k : Bytes) : Decidable (A.Closed t k) :=
  inferInstanceAs (Decidable (∃ w ∈ A.pending.lookup k, w.1 ≠ t))

def write (A : Store) (t : TxnId) (k : Bytes) (x : Option Bytes) : Store :=
  if t = 0 then { A with map := put A.map k x } else { A with pending := A.pending.insert k (t, x) }

/-- A write is answered by the map its transaction sees; if it succeeds, what it has left of the
key is written. -/
def writeBy (A : Store) (t : TxnId) (k : Bytes) (r : Request) : Store × Response :=
  if t ∈ A.ended then (A, .code .txnNotFound none)
  else if A.Closed t k then (A, .code .txnLockedKey none)
  else
    match (mapServe (A.seen t) r).2 with
    | .code .none v => (A.write t k ((mapServe (A.seen t) r).1.lookup k), .code .none v)
    | e => (A, e)

def readBy (A : Store) (t : TxnId) (r : Request) : Store × Response :=
  if t ∈ A.ended then (A, .code .txnNotFound none) else (A, (mapServe (A.seen t) r).2)

/-- A transaction ends and its locks go; the committed map is `m` then. -/
def finish (A : Store) (t : TxnId) (m : SortedMap Bytes Bytes) : Store × Response :=
  if t = 0 ∨ t ∈ A.ended then (A, .code .txnNotFound none)
  else ({ map := m, pending := A.pending.filter (fun p => p.2.1 ≠ t), ended := t :: A.ended }, .code .none none)

def serve (A : Store) (r : Request) : Store × Response :=
  match r with
  | .insert t _ k _ => A.writeBy t k r
  | .update t k _ => A.writeBy t k r
  | .remove t k => A.writeBy t k r
  | .get t _ => A.readBy t r
  | .scan t _ _ _ _ => A.readBy t r
  | .apply t => A.finish t (A.seen t)
  | .revert t => A.finish t A.map
  | .balance => (A, .code .none none)

theorem foldl_put_lookup (t : TxnId) (l : List (Bytes × TxnId × Option Bytes))
    (h : l.Pairwise (fun p q => p.1 < q.1)) (m : SortedMap Bytes Bytes) (k : Bytes) :
    (l.foldl (fun m p => if p.2.1 = t then put m p.1 p.2.2 else m) m).lookup k =
      match (l.find? (fun p => p.1 = k)).map Prod.snd with
      | none => m.lookup k
      | some w => if w.1 = t then w.2 else m.lookup k := by
  induction l generalizing m with
  | nil => rfl
  | cons p l ih =>
    rw [List.pairwise_cons] at h
    rw [List.foldl_cons, ih h.2, List.find?_cons]
    by_cases hk : p.1 = k
    · have hnone : l.find? (fun q => decide (q.1 = k)) = none := by
        rw [List.find?_eq_none]
        intro q hq
        simpa [hk] using (hk ▸ h.1 q hq).ne'
      rw [hnone]
      by_cases ht : p.2.1 = t <;> simp [hk, ht, lookup_put]
    · have hput : (if p.2.1 = t then put m p.1 p.2.2 else m).lookup k = m.lookup k := by
        split_ifs
        · rw [lookup_put, if_neg (Ne.symm hk)]
        · rfl
      simp [hk, hput]

theorem seen_lookup (A : Store) (t : TxnId) (k : Bytes) :
    (A.seen t).lookup k = match A.pending.lookup k with
      | none => A.map.lookup k
      | some w => if w.1 = t then w.2 else A.map.lookup k := by
  have hfind : A.pending.lookup k = (A.pending.entries.find? (fun p => p.1 = k)).map Prod.snd := by
    rw [SortedMap.lookup]
    congr!
  rw [hfind]
  exact foldl_put_lookup t A.pending.entries A.pending.sorted A.map k

theorem seen_eq_map {A : Store} {t : TxnId} (h : ∀ k w, A.pending.lookup k = some w → w.1 ≠ t) : A.seen t = A.map := by
  apply SortedMap.ext_lookup
  intro k
  rw [seen_lookup]
  cases hk : A.pending.lookup k with
  | none => rfl
  | some w => simp [h k w hk]

theorem writeBy_closed {A : Store} {t : TxnId} {k : Bytes} {r : Request} (hend : t ∉ A.ended) (hk : A.Closed t k) :
    A.writeBy t k r = (A, .code .txnLockedKey none) := by
  rw [writeBy, if_neg hend, if_pos hk]

theorem writeBy_succeeds {A : Store} {t : TxnId} {k : Bytes} {r : Request} (hend : t ∉ A.ended) (hk : ¬ A.Closed t k)
    {m : SortedMap Bytes Bytes} {v : Option Bytes} (hm : mapServe (A.seen t) r = (m, .code .none v)) :
    A.writeBy t k r = (A.write t k (m.lookup k), .code .none v) := by
  rw [writeBy, if_neg hend, if_neg hk, hm]

theorem writeBy_fails {A : Store} {t : TxnId} {k : Bytes} {r : Request} (hend : t ∉ A.ended) (hk : ¬ A.Closed t k)
    {c : Errno} {v : Option Bytes} (hm : (mapServe (A.seen t) r).2 = .code c v) (hc : c ≠ .none) :
    A.writeBy t k r = (A, .code c v) := by
  rw [writeBy, if_neg hend, if_neg hk, hm]
  cases c <;> first | rfl | exact absurd rfl hc

theorem serve_target {A : Store} {t : TxnId} {k : Bytes} {r : Request} (hr : r.target = some (t, k)) :
    A.serve r = A.writeBy t k r := by
  cases r with
  | insert t' u k' v =>
    obtain ⟨rfl, rfl⟩ := Prod.mk.inj (Option.some.inj hr)
    rfl
  | update t' k' v =>
    obtain ⟨rfl, rfl⟩ := Prod.mk.inj (Option.some.inj hr)
    rfl
  | remove t' k' =>
    obtain ⟨rfl, rfl⟩ := Prod.mk.inj (Option.some.inj hr)
    rfl
  | _ => simp [Request.target] at hr

/-- What a transaction sees after a write of its own. -/
theorem seen_write (A : Store) {t : TxnId} {k : Bytes} (hk : ¬ A.Closed t k) (hz : t = 0 → A.pending.lookup k = none)
    (x : Option Bytes) : (A.write t k x).seen t = put (A.seen t) k x := by
  apply SortedMap.ext_lookup
  intro k'
  rw [lookup_put, seen_lookup, seen_lookup, write]
  split_ifs with ht hkk hkk
  · subst hkk
    simp [hz ht, lookup_put]
  · simp [lookup_put, hkk]
  · simp [hkk]
  · simp [SortedMap.lookup_insert_of_ne _ _ hkk]

/-- A transaction works on the map that it sees. -/
theorem serve_seen (A : Store) {t : TxnId} {k : Bytes} {r : Request} (hr : r.target = some (t, k)) (hend : t ∉ A.ended)
    (hk : ¬ A.Closed t k) (hz : t = 0 → A.pending.lookup k = none) :
    (A.serve r).2 = (mapServe (A.seen t) r).2 ∧ (A.serve r).1.seen t = (mapServe (A.seen t) r).1 := by
  rw [serve_target hr]
  rcases mapServe_write hr (A.seen t) with ⟨x, v, hm⟩ | ⟨c, v, hc, hm⟩
  · rw [writeBy_succeeds hend hk hm, hm, lookup_put, if_pos rfl]
    exact ⟨rfl, seen_write A hk hz x⟩
  · rw [writeBy_fails hend hk (by rw [hm]) hc, hm]
    exact ⟨rfl, rfl⟩

theorem finish_open {A : Store} {t : TxnId} (hend : ¬ (t = 0 ∨ t ∈ A.ended)) (m : SortedMap Bytes Bytes) :
    A.finish t m =
      ({ map := m, pending := A.pending.filter (fun p => p.2.1 ≠ t), ended := t :: A.ended }, .code .none none) := by
  rw [finish, if_neg hend]

end Store

end RaleighSL.Objects.SSet
