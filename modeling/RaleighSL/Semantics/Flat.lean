import RaleighSL.Objects.SSet.Tidy

/-!
# The flat semantic

`semantics/flat/flat.c` keeps the names of the objects in a sorted set, the root
object: the key is the hash of the name and the value the eight bytes of the object
id. Its writes carry no transaction, so the sorted set queues them on its one node
until the next commit. No semantic task balances the root object.

The hash of a name is a parameter. Memory for an entry, and for the item and the atom
of the sorted set, may be missing.
-/
namespace RaleighSL.Semantics.Flat
open RaleighSL.Core RaleighSL.Library RaleighSL.Zcl RaleighSL.Objects

abbrev Oid := Nat

/-- The bytes of an unsigned integer in memory, lowest first. -/
def toBytes : Nat → Nat → Bytes
  | 0, _ => []
  | w + 1, n => Fin.ofNat 256 n :: toBytes w (n / 256)

def ofBytes : Bytes → Nat
  | [] => 0
  | b :: l => b.val + 256 * ofBytes l

structure Alloc where
  entry : Bool := true
  atom : Bool := true
  deriving DecidableEq

def Alloc.ok (alloc : Alloc) : Bool := alloc.entry && alloc.atom

variable (hash : Bytes → Bytes)

def create (root : SSet.State) (name : Bytes) (oid : Oid) (alloc : Alloc) : Option (SSet.State × Errno) :=
  if alloc.entry then
    (SSet.insert root 0 false (hash name) (toBytes 8 oid)).map (fun r =>
      match r.2 with
      | .none => if alloc.atom then r else (root, .noMemory)
      | .dataKeyExists => (r.1, .objectExists)
      | errno => (r.1, errno))
  else some (root, .noMemory)

/-- The end of `__semantic_lookup` and `__semantic_unlink`: a value that is not eight bytes long fails an assertion. -/
def readOid (value : Option Bytes) : Option Oid := value.bind (fun v => if v.length = 8 then some (ofBytes v) else none)

def lookup (root : SSet.State) (name : Bytes) : Option (Except Errno Oid) :=
  (SSet.get root 0 (hash name)).bind (fun r =>
    match r.1 with
    | .none => (readOid r.2).map Except.ok
    | .dataKeyNotFound => some (.error .objectNotFound)
    | errno => some (.error errno))

def unlink (root : SSet.State) (name : Bytes) (alloc : Alloc) : Option (SSet.State × Except Errno Oid) :=
  if alloc.entry then
    (SSet.remove root 0 (hash name)).bind (fun r =>
      match r.2.1 with
      | .none =>
        if alloc.atom then (readOid r.2.2).map (fun oid => (r.1, .ok oid)) else some (root, .error .noMemory)
      | .dataKeyNotFound => some (r.1, .error .objectNotFound)
      | errno => some (r.1, .error errno))
  else some (root, .error .noMemory)

def commit (root : SSet.State) : Option SSet.State := SSet.objectCommit root

theorem length_toBytes (w n : Nat) : (toBytes w n).length = w := by
  induction w generalizing n with
  | zero => rfl
  | succ w ih => simp [toBytes, ih]

theorem ofBytes_toBytes (w n : Nat) : ofBytes (toBytes w n) = n % 256 ^ w := by
  induction w generalizing n with
  | zero => simp [toBytes, ofBytes, Nat.mod_one]
  | succ w ih =>
    have hbyte : (Fin.ofNat 256 n).val = n % 256 := rfl
    rw [toBytes, ofBytes, ih, hbyte, Nat.pow_succ, Nat.mul_comm (256 ^ w) 256, Nat.mod_mul]

theorem readOid_toBytes {oid : Oid} (h : oid < 2 ^ 64) : readOid (some (toBytes 8 oid)) = some oid := by
  have hlt : oid < 256 ^ 8 := h
  rw [readOid, Option.bind_some, length_toBytes, if_pos rfl, ofBytes_toBytes, Nat.mod_eq_of_lt hlt]

/-! ### The root object -/

/-- A write that waits for the next commit. -/
structure Write where
  type : SSet.TxnType
  key : Bytes
  item : MapItem

/-- The atom of the write: on the one node, without a transaction. -/
def Write.txn (w : Write) : SSet.Txn :=
  { txnId := 0, node := 0, type := w.type, key := w.key, item := w.item, parent := none }

def Write.apply (mem : SortedMap Bytes MapItem) (w : Write) : SortedMap Bytes MapItem :=
  match w.type with
  | .remove =>
    match mem.lookup w.key with
    | some _ => mem.erase w.key
    | none => mem.insert w.key w.item
  | _ => mem.insert w.key w.item

def valueOf (mem : SortedMap Bytes MapItem) (k : Bytes) : Option Bytes :=
  (mem.lookup k).bind (fun item => if item.isDeleteMarker then none else some item.value)

structure Atoms (root : SSet.State) (addrs : List Addr) (q : List Write) : Prop where
  atoms : addrs.map root.txns = q.map (fun w => some w.txn)
  nodup : addrs.Nodup
  used : ∀ a ∈ addrs, a < root.nextTxn

/-- The root object with its one node: the items of the node and the writes that wait on it. -/
structure Holds (root : SSet.State) (mem : SortedMap Bytes MapItem) (q : List Write) : Prop where
  tree : root.root = SortedMap.empty.insert [] 0
  node : ∃ n, root.nodes 0 = some n ∧ n.memData = mem ∧ n.txnLocks = SortedMap.empty ∧ n.block = none ∧
    Atoms root n.commitq q
  dirtyq : root.dirtyq = if q = [] then [] else [0]
  txnq : root.txnq = []
  rmNodes : root.rmNodes = []
  addNodes : root.addNodes = []

variable {root root' : SSet.State} {mem : SortedMap Bytes MapItem} {q : List Write} {k v : Bytes}

theorem create_holds : Holds SSet.create SortedMap.empty [] where
  tree := rfl
  node := ⟨SSet.Node.alloc none, rfl, rfl, rfl, rfl, rfl, List.nodup_nil, by simp [SSet.Node.alloc]⟩
  dirtyq := rfl
  txnq := rfl
  rmNodes := rfl
  addNodes := rfl

/-- The write that binds a key to an object id, or unbinds it. -/
def change (k : Bytes) : Option Oid → Write
  | some oid => ⟨.insert, k, ⟨toBytes 8 oid, false⟩⟩
  | none => ⟨.remove, k, ⟨[], true⟩⟩

theorem valueOf_change (mem : SortedMap Bytes MapItem) (k : Bytes) (x : Option Oid) (k' : Bytes) :
    valueOf (Write.apply mem (change k x)) k' = if k' = k then x.map (toBytes 8) else valueOf mem k' := by
  cases x with
  | some oid =>
    by_cases hk : k' = k
    · simp [valueOf, Write.apply, change, hk]
    · simp [valueOf, Write.apply, change, hk, SortedMap.lookup_insert_of_ne]
  | none =>
    cases hl : mem.lookup k with
    | none =>
      by_cases hk : k' = k
      · simp [valueOf, Write.apply, change, hl, hk]
      · simp [valueOf, Write.apply, change, hl, hk, SortedMap.lookup_insert_of_ne]
    | some item =>
      by_cases hk : k' = k
      · simp [valueOf, Write.apply, change, hl, hk]
      · simp [valueOf, Write.apply, change, hl, hk, SortedMap.lookup_erase_of_ne]

theorem Holds.nodeLookup (h : Holds root mem q) {n : SSet.Node} (hn : root.nodes 0 = some n) (k : Bytes) :
    SSet.nodeLookup root k = some (0, n) := by
  have hfloor : root.root.floor k = some ([], 0) := by
    rw [h.tree, SortedMap.floor_eq_some_iff]
    refine ⟨SortedMap.mem_entries.mpr (SortedMap.lookup_insert_self _ _ _), Or.inl ⟨not_lt.mp (List.not_lt_nil k), ?_⟩⟩
    intro p hp _
    obtain rfl : p = ([], 0) := List.mem_singleton.mp hp
    exact le_rfl
  simp [SSet.nodeLookup, hfloor, hn]

theorem nodeMemSearch_eq {n : SSet.Node} (hlocks : n.txnLocks = SortedMap.empty) (hblock : n.block = none) (k : Bytes)
    (stop : Bool) : SSet.nodeMemSearch root n k stop = some
      { txn := none, fromMem := (n.memData.lookup k).isSome, value := ((n.memData.lookup k).map MapItem.value).getD []
        found := (valueOf n.memData k).isSome } := by
  cases hl : n.memData.lookup k with
  | none => simp [SSet.nodeMemSearch, SSet.searchData, hlocks, hblock, hl, valueOf]
  | some item =>
    cases hm : item.isDeleteMarker with
    | false => simp [SSet.nodeMemSearch, SSet.searchData, hlocks, hl, valueOf, hm]
    | true => simp [SSet.nodeMemSearch, SSet.searchData, hlocks, hl, valueOf, hm]

theorem lookup_of_valueOf (h : valueOf mem k = some v) : mem.lookup k = some { value := v, isDeleteMarker := false } := by
  cases hl : mem.lookup k with
  | none => simp [valueOf, hl] at h
  | some item =>
    obtain ⟨value, marker⟩ := item
    cases marker with
    | false => simpa [valueOf, hl] using h
    | true => simp [valueOf, hl] at h

theorem Holds.get (h : Holds root mem q) (k : Bytes) : SSet.get root 0 k = some
    (match valueOf mem k with
    | some v => (.none, some v)
    | none => (.dataKeyNotFound, none)) := by
  obtain ⟨n, hn, rfl, hlocks, hblock, -⟩ := h.node
  rw [SSet.get, h.nodeLookup hn, Option.bind_some, nodeMemSearch_eq hlocks hblock]
  cases hv : valueOf n.memData k with
  | none => simp
  | some v => simp [lookup_of_valueOf hv]

/-- A write without a transaction waits behind the others. -/
theorem Holds.txnAdd (h : Holds root mem q) (w : Write) :
    ∃ root', SSet.txnAdd root 0 0 w.type w.key w.item = some root' ∧ Holds root' mem (q ++ [w]) := by
  obtain ⟨n, hn, hmem, hlocks, hblock, hatoms⟩ := h.node
  have hused (a : Addr) (ha : a ∈ n.commitq) : a ≠ root.nextTxn := Nat.ne_of_lt (hatoms.used a ha)
  refine ⟨{ (SSet.allocTxn root w.txn).setNode 0 { n with commitq := n.commitq ++ [root.nextTxn] } with dirtyq := [0] },
    ?_, ?_⟩
  · have hdirty : SSet.moveFront 0 root.dirtyq = [0] := by
      rw [h.dirtyq]
      split_ifs <;> rfl
    simp [SSet.txnAdd, SSet.enqueue, SSet.allocTxn, hn, hdirty, Write.txn]
  · refine ⟨h.tree, ⟨{ n with commitq := n.commitq ++ [root.nextTxn] }, by simp [SSet.State.setNode], hmem, hlocks,
      hblock, ?_, ?_, ?_⟩, ?_, h.txnq, h.rmNodes, h.addNodes⟩
    · have hold : n.commitq.map (Function.update root.txns root.nextTxn (some w.txn)) = n.commitq.map root.txns :=
        List.map_congr_left (fun a ha => Function.update_of_ne (hused a ha) _ _)
      simp [SSet.State.setNode, SSet.allocTxn, hold, hatoms.atoms]
    · simp only [List.nodup_append, List.nodup_singleton, List.mem_singleton]
      exact ⟨hatoms.nodup, trivial, fun a ha b hb => hb ▸ hused a ha⟩
    · intro a ha
      obtain ha | ha := List.mem_append.mp ha
      · exact Nat.lt_succ_of_lt (hatoms.used a ha)
      · rw [List.mem_singleton.mp ha]
        exact Nat.lt_succ_self _
    · simp

theorem Holds.insert_exists (h : Holds root mem q) (hk : valueOf mem k ≠ none) (v : Bytes) :
    SSet.insert root 0 false k v = some (root, .dataKeyExists) := by
  obtain ⟨n, hn, rfl, hlocks, hblock, -⟩ := h.node
  have hfound : (valueOf n.memData k).isSome = true := Option.isSome_iff_ne_none.mpr hk
  simp [SSet.insert, h.nodeLookup hn, nodeMemSearch_eq hlocks hblock, hfound]

theorem Holds.insert (h : Holds root mem q) (hk : valueOf mem k = none) (oid : Oid) :
    ∃ root', SSet.insert root 0 false k (toBytes 8 oid) = some (root', .none) ∧
      Holds root' mem (q ++ [change k (some oid)]) := by
  obtain ⟨root', hadd, hroot'⟩ := h.txnAdd (change k (some oid))
  obtain ⟨n, hn, rfl, hlocks, hblock, -⟩ := h.node
  refine ⟨root', ?_, hroot'⟩
  simp only [change] at hadd
  simp [SSet.insert, h.nodeLookup hn, nodeMemSearch_eq hlocks hblock, hk, hadd]

theorem Holds.remove_missing (h : Holds root mem q) (hk : valueOf mem k = none) :
    SSet.remove root 0 k = some (root, .dataKeyNotFound, none) := by
  obtain ⟨n, hn, rfl, hlocks, hblock, -⟩ := h.node
  simp [SSet.remove, h.nodeLookup hn, nodeMemSearch_eq hlocks hblock, hk]

theorem Holds.remove (h : Holds root mem q) (hk : valueOf mem k = some v) :
    ∃ root', SSet.remove root 0 k = some (root', .none, some v) ∧ Holds root' mem (q ++ [change k none]) := by
  obtain ⟨root', hadd, hroot'⟩ := h.txnAdd (change k none)
  obtain ⟨n, hn, rfl, hlocks, hblock, -⟩ := h.node
  refine ⟨root', ?_, hroot'⟩
  simp only [change] at hadd
  simp [SSet.remove, h.nodeLookup hn, nodeMemSearch_eq hlocks hblock, hk, lookup_of_valueOf hk, hadd]

theorem absorb_writes (n : SSet.Node) (q : List Write) :
    (n.absorb (q.map Write.txn)).memData = q.foldl Write.apply n.memData ∧
      (n.absorb (q.map Write.txn)).txnLocks = n.txnLocks ∧ (n.absorb (q.map Write.txn)).block = n.block ∧
      (n.absorb (q.map Write.txn)).commitq = n.commitq := by
  induction q generalizing n with
  | nil => exact ⟨rfl, rfl, rfl, rfl⟩
  | cons w q ih =>
    have hmem : (n.apply w.type w.key w.item).memData = Write.apply n.memData w := by
      cases ht : w.type <;> cases hl : n.memData.lookup w.key <;> simp [SSet.Node.apply, Write.apply, ht, hl]
    have hcons : n.absorb ((w :: q).map Write.txn) = (n.apply w.type w.key w.item).absorb (q.map Write.txn) := rfl
    rw [hcons]
    simpa [hmem] using ih (n.apply w.type w.key w.item)

theorem Holds.commit (h : Holds root mem q) :
    ∃ root', Flat.commit root = some root' ∧ Holds root' (q.foldl Write.apply mem) [] := by
  obtain ⟨n, hn, rfl, hlocks, hblock, hatoms⟩ := h.node
  have hd := h.dirtyq
  split_ifs at hd with hq
  · subst hq
    exact ⟨root, SSet.objectCommit_quiet root h.txnq hd h.rmNodes h.addNodes, h⟩
  · have hmap : n.commitq.filterMap root.txns = q.map Write.txn := by
      have hid := congrArg (List.filterMap id) hatoms.atoms
      simpa [List.filterMap_map, Function.comp_def] using hid
    have hlive (a : Addr) (ha : a ∈ n.commitq) : ∃ txn, root.txns a = some txn ∧ txn.node = 0 := by
      have hmem : root.txns a ∈ q.map (fun w => some w.txn) := hatoms.atoms ▸ List.mem_map_of_mem ha
      obtain ⟨w, -, hw⟩ := List.mem_map.mp hmem
      exact ⟨w.txn, hw.symm, rfl⟩
    obtain ⟨hmem, hlocks', hblock', hcommitq⟩ := absorb_writes { n with commitq := [] } q
    refine ⟨_, SSet.objectCommit_dirty _ _ _ h.txnq h.rmNodes h.addNodes hd hn hatoms.nodup hlive, h.tree, ?_, rfl, h.txnq,
      h.rmNodes, h.addNodes⟩
    rw [hmap]
    refine ⟨_, by simp, hmem, hlocks'.trans hlocks, hblock'.trans hblock, ?_, ?_, ?_⟩
    · rw [hcommitq]
      rfl
    · rw [hcommitq]
      exact List.nodup_nil
    · rw [hcommitq]
      simp

/-! ### Keys and object ids -/

/-- The root object binds keys to object ids, and the changes wait for the next commit. -/
structure Binds (root : SSet.State) (f : Bytes → Option Oid) (cs : List (Bytes × Option Oid)) : Prop where
  holds : ∃ mem, Holds root mem (cs.map (fun c => change c.1 c.2)) ∧ ∀ k, valueOf mem k = (f k).map (toBytes 8)
  bound : ∀ k, ∀ oid ∈ f k, oid < 2 ^ 64
  waiting : ∀ c ∈ cs, ∀ oid ∈ c.2, oid < 2 ^ 64

variable {f : Bytes → Option Oid} {cs : List (Bytes × Option Oid)} {name : Bytes} {oid : Oid} {alloc : Alloc}

theorem create_binds : Binds SSet.create (fun _ => none) [] where
  holds := ⟨SortedMap.empty, create_holds, fun _ => rfl⟩
  bound := by simp
  waiting := by simp

theorem Binds.lookup (h : Binds root f cs) (name : Bytes) : Flat.lookup hash root name =
    some (match f (hash name) with
      | some oid => .ok oid
      | none => .error .objectNotFound) := by
  obtain ⟨mem, hmem, hf⟩ := h.holds
  rw [Flat.lookup, hmem.get, hf, Option.bind_some]
  cases hk : f (hash name) with
  | none => rfl
  | some oid => simp [readOid_toBytes (h.bound _ oid hk)]

theorem Binds.create_exists (h : Binds root f cs) (hk : f (hash name) ≠ none) (halloc : alloc.entry = true) (oid : Oid) :
    Flat.create hash root name oid alloc = some (root, .objectExists) := by
  obtain ⟨mem, hmem, hf⟩ := h.holds
  have hv : valueOf mem (hash name) ≠ none := by
    rw [hf]
    simpa using hk
  simp [Flat.create, halloc, hmem.insert_exists hv]

/-- Without memory nothing is queued. -/
theorem Binds.create_noMemory (h : Binds root f cs) (hk : f (hash name) = none) (halloc : alloc.ok = false)
    (oid : Oid) : Flat.create hash root name oid alloc = some (root, .noMemory) := by
  obtain ⟨mem, hmem, hf⟩ := h.holds
  obtain ⟨root', hinsert, -⟩ := hmem.insert (k := hash name) (by rw [hf, hk]; rfl) oid
  cases hentry : alloc.entry with
  | false => simp [Flat.create, hentry]
  | true =>
    have hatom : alloc.atom = false := by simpa [Alloc.ok, hentry] using halloc
    simp [Flat.create, hentry, hinsert, hatom]

theorem Binds.create (h : Binds root f cs) (hk : f (hash name) = none) (halloc : alloc.ok = true)
    (hoid : oid < 2 ^ 64) : ∃ root', Flat.create hash root name oid alloc = some (root', .none) ∧
      Binds root' f (cs ++ [(hash name, some oid)]) := by
  obtain ⟨mem, hmem, hf⟩ := h.holds
  obtain ⟨root', hinsert, hroot'⟩ := hmem.insert (k := hash name) (by rw [hf, hk]; rfl) oid
  refine ⟨root', by simp [Flat.create, Bool.and_eq_true_iff.mp halloc, hinsert], ⟨mem, ?_, hf⟩, h.bound, ?_⟩
  · simpa using hroot'
  · intro c hc
    obtain hc | hc := List.mem_append.mp hc
    · exact h.waiting c hc
    · rw [List.mem_singleton.mp hc]
      simpa using hoid

theorem Binds.unlink_missing (h : Binds root f cs) (hk : f (hash name) = none) (halloc : alloc.entry = true) :
    Flat.unlink hash root name alloc = some (root, .error .objectNotFound) := by
  obtain ⟨mem, hmem, hf⟩ := h.holds
  have hv : valueOf mem (hash name) = none := by rw [hf, hk]; rfl
  simp [Flat.unlink, halloc, hmem.remove_missing hv]

theorem Binds.unlink_noMemory (h : Binds root f cs) (hk : f (hash name) = some oid)
    (halloc : alloc.ok = false) : Flat.unlink hash root name alloc = some (root, .error .noMemory) := by
  obtain ⟨mem, hmem, hf⟩ := h.holds
  obtain ⟨root', hremove, -⟩ := hmem.remove (k := hash name) (v := toBytes 8 oid) (by rw [hf, hk]; rfl)
  cases hentry : alloc.entry with
  | false => simp [Flat.unlink, hentry]
  | true =>
    have hatom : alloc.atom = false := by simpa [Alloc.ok, hentry] using halloc
    simp [Flat.unlink, hentry, hremove, hatom]

theorem Binds.unlink (h : Binds root f cs) (hk : f (hash name) = some oid) (halloc : alloc.ok = true) :
    ∃ root', Flat.unlink hash root name alloc = some (root', .ok oid) ∧ Binds root' f (cs ++ [(hash name, none)]) := by
  obtain ⟨mem, hmem, hf⟩ := h.holds
  obtain ⟨root', hremove, hroot'⟩ := hmem.remove (k := hash name) (v := toBytes 8 oid) (by rw [hf, hk]; rfl)
  refine ⟨root', ?_, ⟨mem, ?_, hf⟩, h.bound, ?_⟩
  · simp [Flat.unlink, Bool.and_eq_true_iff.mp halloc, hremove, readOid_toBytes (h.bound _ oid hk)]
  · simpa using hroot'
  · intro c hc
    obtain hc | hc := List.mem_append.mp hc
    · exact h.waiting c hc
    · rw [List.mem_singleton.mp hc]
      simp

def changed (f : Bytes → Option Oid) (cs : List (Bytes × Option Oid)) : Bytes → Option Oid :=
  cs.foldl (fun f c => Function.update f c.1 c.2) f

theorem valueOf_changed {mem : SortedMap Bytes MapItem} (hf : ∀ k, valueOf mem k = (f k).map (toBytes 8)) (k : Bytes) :
    valueOf ((cs.map (fun c => change c.1 c.2)).foldl Write.apply mem) k = (changed f cs k).map (toBytes 8) := by
  induction cs generalizing mem f with
  | nil => exact hf k
  | cons c cs ih =>
    apply ih
    intro k'
    rw [valueOf_change]
    by_cases hk : k' = c.1
    · simp [hk]
    · simp [hk, hf]

theorem changed_lt (hbound : ∀ k, ∀ oid ∈ f k, oid < 2 ^ 64) (hwaiting : ∀ c ∈ cs, ∀ oid ∈ c.2, oid < 2 ^ 64) :
    ∀ k, ∀ oid ∈ changed f cs k, oid < 2 ^ 64 := by
  induction cs generalizing f with
  | nil => exact hbound
  | cons c cs ih =>
    refine ih ?_ (fun c' hc' => hwaiting c' (List.mem_cons_of_mem _ hc'))
    intro k
    by_cases hk : k = c.1
    · simpa [hk] using hwaiting c List.mem_cons_self
    · simpa [hk] using hbound k

/-- The commit carries out the changes that waited. -/
theorem Binds.commit (h : Binds root f cs) :
    ∃ root', Flat.commit root = some root' ∧ Binds root' (changed f cs) [] := by
  obtain ⟨mem, hmem, hf⟩ := h.holds
  obtain ⟨root', hcommit, hroot'⟩ := hmem.commit
  exact ⟨root', hcommit, ⟨_, hroot', valueOf_changed hf⟩, changed_lt h.bound h.waiting, by simp⟩

end RaleighSL.Semantics.Flat
