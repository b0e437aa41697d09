import RaleighSL.Zcl.Bucket.Layout
import RaleighSL.Zcl.ByteSlice

/-!
# The search of a node

`__bucket_search` never puts a key together. It keeps how many bytes of the key searched for
are matched by the entry before, and passes an entry that shares more with it than that. Behind
an entry whose key is a beginning of the one searched for lies the head byte of the next entry,
and the search takes it for a byte of the key.
-/
namespace RaleighSL.Zcl.BucketNode
open RaleighSL.Library Coding

def Node.byte (n : Node) (behind : Byte) (offset : Nat) : Byte := n.body.getD (offset - headSize) behind

/-- The loop of `__bucket_search` from a fetched entry on, with the entry where it ends. `past` is the byte
behind the key searched for, `pkey` the part of it that is not matched. -/
def searchItem (n : Node) (past behind : Byte) : Nat → Item → Nat → Bytes → Option (Int × Item)
  | 0, _, _, _ => none
  | fuel + 1, entry, koffset, pkey =>
    let fetch (koffset : Nat) (pkey : Bytes) := (fetchNext n entry).bind (fun next =>
      match next with
      | none => some (1, entry)
      | some next => searchItem n past behind fuel next koffset pkey)
    if koffset < entry.kprefix then fetch koffset pkey
    else if entry.kprefix < koffset then some (1, entry)
    else
      (n.slice entry.keyData entry.keySize).bind (fun ekey =>
        let kshared := memshared ekey pkey
        if kshared = pkey.length ∧ entry.keySize = pkey.length then some (if entry.isDeleted then 1 else 0, entry)
        else if searchByte past pkey kshared < (n.byte behind (entry.keyData + kshared)).val then some (-1, entry)
        else if n.nhPrefix then fetch (koffset + kshared) (pkey.drop kshared)
        else fetch koffset pkey)

def search (n : Node) (past behind : Byte) (key : Bytes) : Option (Int × Option Item) :=
  (fetchFirst n).bind (fun first =>
    match first with
    | none => some (1, none)
    | some first => (searchItem n past behind n.nhLastKey first 0 key).map (fun r => (r.1, some r.2)))

/-- `z_bucket_search`. The value is the one of the entry where the search ends; a node without entries has none. -/
def bucketSearch (n : Node) (past behind : Byte) (key : Bytes) : Option (Int × Option Bytes) :=
  (search n past behind key).bind (fun r =>
    match r.2 with
    | none => some (r.1, none)
    | some item => (n.slice item.valueData item.valueSize).map (fun value => (r.1, some value)))

/-! ### The search of a list -/

/-- The byte at a place of the key of an entry. `last` is the one behind the key of the last entry. -/
def entryByte (last : Byte) (s : Stored) (l : List Stored) (i : Nat) : Byte :=
  s.entry.key.getD i (match l with
    | [] => last
    | t :: _ => mark t.removed (headByte (headOf t.entry)))

def findFrom (usePrefix : Bool) (past last : Byte) : Stored → List Stored → Nat → Bytes → Int × Stored
  | s, l, koffset, pkey =>
    let fetch (koffset : Nat) (pkey : Bytes) :=
      match l with
      | [] => (1, s)
      | t :: l => findFrom usePrefix past last t l koffset pkey
    if koffset < s.entry.kprefix then fetch koffset pkey
    else if s.entry.kprefix < koffset then (1, s)
    else
      let kshared := memshared s.entry.key pkey
      if kshared = pkey.length ∧ s.entry.key.length = pkey.length then (if s.removed then 1 else 0, s)
      else if searchByte past pkey kshared < (entryByte last s l kshared).val then (-1, s)
      else if usePrefix then fetch (koffset + kshared) (pkey.drop kshared)
      else fetch koffset pkey
  termination_by structural _ l => l

def findNext (usePrefix : Bool) (past last : Byte) (s : Stored) (l : List Stored) (koffset : Nat) (pkey : Bytes) :
    Int × Stored :=
  match l with
  | [] => (1, s)
  | t :: l => findFrom usePrefix past last t l koffset pkey

theorem findFrom_eq (usePrefix : Bool) (past last : Byte) (s : Stored) (l : List Stored) (koffset : Nat) (pkey : Bytes) :
    findFrom usePrefix past last s l koffset pkey =
      if koffset < s.entry.kprefix then findNext usePrefix past last s l koffset pkey
      else if s.entry.kprefix < koffset then (1, s)
      else if memshared s.entry.key pkey = pkey.length ∧ s.entry.key.length = pkey.length then
        (if s.removed then 1 else 0, s)
      else if searchByte past pkey (memshared s.entry.key pkey) <
          (entryByte last s l (memshared s.entry.key pkey)).val then (-1, s)
      else if usePrefix then
        findNext usePrefix past last s l (koffset + memshared s.entry.key pkey) (pkey.drop (memshared s.entry.key pkey))
      else findNext usePrefix past last s l koffset pkey := by
  rw [findFrom]
  rfl

variable {n : Node} {l : List Stored} {s t : Stored} {pkey value index : Nat}

theorem entryByte_of_lt (last : Byte) (l : List Stored) {i : Nat} (hi : i < s.entry.key.length) :
    entryByte last s l i = s.entry.key[i] := List.getD_eq_getElem _ _ hi

theorem entryByte_cons (last : Byte) (s t : Stored) (l : List Stored) :
    entryByte last s (t :: l) s.entry.key.length = mark t.removed (headByte (headOf t.entry)) :=
  List.getD_eq_default _ _ (le_refl _)

theorem entryByte_nil (last : Byte) (s : Stored) : entryByte last s [] s.entry.key.length = last :=
  List.getD_eq_default _ _ (le_refl _)

/-- The byte at a place of a key, or behind it, is the one the search reads. -/
theorem At.byte (h : At n pkey value (s :: l)) (behind : Byte) {i : Nat} (hi : i ≤ s.entry.key.length) :
    n.byte behind (pkey + kheadSize (headOf s.entry) + i) = entryByte (n.byte behind n.nhLastKey) s l i := by
  obtain ⟨rest, hkeys⟩ := h.keys
  have hlow := h.low
  have hget : n.byte behind (pkey + kheadSize (headOf s.entry) + i) = (s.entry.key ++ (keyArea l ++ rest)).getD i behind := by
    have hdrop : n.body.drop (pkey + kheadSize (headOf s.entry) - headSize) = s.entry.key ++ (keyArea l ++ rest) := by
      rw [← Node.from, n.from_add hlow, hkeys, keyArea_cons, keyBytes, ← length_keyGroup]
      simp
    rw [← hdrop, Node.byte, List.getD_eq_getElem?_getD, List.getD_eq_getElem?_getD, List.getElem?_drop]
    congr 2
    omega
  rcases hi.lt_or_eq with hlt | rfl
  · rw [hget, List.getD_eq_getElem?_getD, List.getElem?_append_left hlt, List.getElem?_eq_getElem hlt,
      entryByte_of_lt _ _ hlt]
    rfl
  · cases l with
    | nil =>
      have hlast : n.nhLastKey = pkey + kheadSize (headOf s.entry) + s.entry.key.length := by
        rw [h.lastKey, keyArea_cons, List.length_append, length_keyBytes, ← Nat.add_assoc, ← Nat.add_assoc]
        rfl
      rw [entryByte_nil, hlast]
    | cons t l =>
      rw [hget, entryByte_cons, List.getD_eq_getElem?_getD, List.getElem?_append_right (le_refl _), Nat.sub_self]
      rfl

theorem fetchNext_itemAt (n : Node) (pkey value index : Nat) (s : Stored) : fetchNext n (itemAt pkey value index s) =
    itemFetch n (pkey + (keyBytes s).length) (value - s.entry.value.length) (index + 1) := by
  rw [fetchNext, length_keyBytes, ← Nat.add_assoc]
  rfl

/-- The results of the search of a node and of the search of its entries are the same. -/
def Agrees (n : Node) (r : Option (Int × Item)) (q : Int × Stored) : Prop :=
  ∃ item, r = some (q.1, item) ∧ item.read n = some q.2

theorem Agrees.at (h : At n pkey value (s :: l)) (index : Nat) (r : Int) :
    Agrees n (some (r, itemAt pkey value index s)) (r, s) :=
  ⟨_, rfl, h.read index⟩

/-- The comparison with one entry. -/
theorem At.searchItem_step (h : At n pkey value (s :: l)) (past behind : Byte) {fuel : Nat} (index koffset : Nat) (k : Bytes)
    (hfetch : ∀ koffset k, Agrees n
      ((fetchNext n (itemAt pkey value index s)).bind (fun next =>
        match next with
        | none => some (1, itemAt pkey value index s)
        | some next => BucketNode.searchItem n past behind fuel next koffset k))
      (findNext n.nhPrefix past (n.byte behind n.nhLastKey) s l koffset k)) :
    Agrees n (BucketNode.searchItem n past behind (fuel + 1) (itemAt pkey value index s) koffset k)
      (findFrom n.nhPrefix past (n.byte behind n.nhLastKey) s l koffset k) := by
  have hshared : Item.kprefix (itemAt pkey value index s) = s.entry.kprefix := rfl
  have hdata : (itemAt pkey value index s).keyData = pkey + kheadSize (headOf s.entry) := rfl
  have hsize : (itemAt pkey value index s).keySize = s.entry.key.length := rfl
  have hdeleted : (itemAt pkey value index s).isDeleted = s.removed := rfl
  have hbyte := h.byte behind (memshared_le_left s.entry.key k)
  rw [BucketNode.searchItem, findFrom_eq]
  dsimp only
  rw [hshared, hdata, hsize, hdeleted, h.slice_key, Option.bind_some, hbyte]
  split_ifs
  · exact hfetch koffset k
  · exact .at h index 1
  · exact .at h index 1
  · exact .at h index 0
  · exact .at h index (-1)
  · exact hfetch _ _
  · exact hfetch _ _

/-- The search ends at the entry where the one of the list ends. -/
theorem At.searchItem (h : At n pkey value (s :: l)) (past behind : Byte) {fuel : Nat} (hfuel : l.length < fuel)
    (index koffset : Nat) (k : Bytes) :
    Agrees n (BucketNode.searchItem n past behind fuel (itemAt pkey value index s) koffset k)
      (findFrom n.nhPrefix past (n.byte behind n.nhLastKey) s l koffset k) := by
  induction l generalizing s pkey value index koffset k fuel with
  | nil =>
    obtain ⟨fuel, rfl⟩ := Nat.exists_eq_succ_of_ne_zero (Nat.ne_of_gt hfuel)
    refine h.searchItem_step past behind index koffset k fun koffset k => ?_
    rw [fetchNext_itemAt, h.tail.itemFetch_nil]
    exact .at h index 1
  | cons t l ih =>
    obtain ⟨fuel, rfl⟩ := Nat.exists_eq_succ_of_ne_zero (Nat.ne_of_gt (Nat.zero_lt_of_lt hfuel))
    refine h.searchItem_step past behind index koffset k fun koffset k => ?_
    rw [fetchNext_itemAt, h.tail.itemFetch]
    exact ih h.tail (Nat.lt_of_succ_lt_succ hfuel) (index + 1) koffset k

theorem Holds.bucketSearch_cons (h : Holds n (s :: l)) (past behind : Byte) (k : Bytes) :
    BucketNode.bucketSearch n past behind k =
      some ((findFrom n.nhPrefix past (n.byte behind n.nhLastKey) s l 0 k).1,
        some (findFrom n.nhPrefix past (n.byte behind n.nhLastKey) s l 0 k).2.entry.value) := by
  have hlen : l.length < n.nhLastKey := by
    have hle := length_le_keyArea (s :: l)
    rw [List.length_cons] at hle
    rw [h.lastKey]
    omega
  obtain ⟨item, hitem, hread⟩ := h.at.searchItem past behind hlen 0 0 k
  have hvalue : n.slice item.valueData item.valueSize =
      some (findFrom n.nhPrefix past (n.byte behind n.nhLastKey) s l 0 k).2.entry.value := by
    simp only [Item.read, Option.bind_eq_some_iff, Option.map_eq_some_iff] at hread
    obtain ⟨key, -, value, hvalue, hs⟩ := hread
    rw [hvalue, ← hs]
  rw [BucketNode.bucketSearch, search, fetchFirst, h.at.itemFetch, Option.bind_some]
  dsimp only
  rw [hitem, Option.map_some, Option.bind_some]
  dsimp only
  rw [hvalue, Option.map_some]

theorem Holds.bucketSearch_nil (h : Holds n []) (past behind : Byte) (k : Bytes) :
    BucketNode.bucketSearch n past behind k = some (1, none) := by
  rw [bucketSearch, search, fetchFirst, h.at.itemFetch_nil]
  rfl

/-! ### Keys in order -/

/-- A key and its value, and whether it is marked as removed. -/
structure Row where
  key : Bytes
  value : Bytes
  removed : Bool
  deriving DecidableEq, Repr

def Row.after (r : Row) (prev : Bytes) : Stored := { entry := entryAfter prev (r.key, r.value), removed := r.removed }

def storedFrom : Bytes → List Row → List Stored
  | _, [] => []
  | prev, r :: rows => r.after prev :: storedFrom r.key rows

def Live (rows : List Row) (k v : Bytes) : Prop := { key := k, value := v, removed := false } ∈ rows

/-- A stored key that is a proper beginning of the key searched for ends the search: the head byte of the entry
behind it is larger than the byte of the key there. -/
def Hidden (k : Bytes) : List Row → Prop
  | p :: q :: rows =>
    (p.key <+: k ∧ p.key ≠ k ∧
      searchByte 0 k p.key.length < (mark q.removed (headByte (headOf (q.after p.key).entry))).val) ∨ Hidden k (q :: rows)
  | _ => False

instance decidableHidden (k : Bytes) : (rows : List Row) → Decidable (Hidden k rows)
  | [] => .isFalse id
  | [_] => .isFalse id
  | p :: q :: rows =>
    have := decidableHidden k (q :: rows)
    inferInstanceAs (Decidable ((p.key <+: k ∧ _ ∧ _) ∨ Hidden k (q :: rows)))

variable {u : Bool} {prev k v : Bytes} {koffset : Nat} {r : Row} {rows : List Row}

theorem Hidden.cons (r : Row) (h : Hidden k rows) : Hidden k (r :: rows) := by
  cases rows with
  | nil => exact h
  | cons q rows => exact Or.inr h

/-- A row whose key is not a proper beginning of the key searched for does not hide it. -/
theorem hidden_cons (h : ¬ (r.key <+: k ∧ r.key ≠ k)) : Hidden k (r :: rows) ↔ Hidden k rows := by
  cases rows with
  | nil => exact Iff.rfl
  | cons q rows => exact or_iff_right fun hc => h ⟨hc.1, hc.2.1⟩

/-- Nothing hides a key in front of all rows. -/
theorem not_hidden (h : ∀ r ∈ rows, k ≤ r.key) : ¬ Hidden k rows := by
  induction rows with
  | nil => exact id
  | cons r rows ih =>
    have hne : ¬ (r.key <+: k ∧ r.key ≠ k) := fun hc => (h r List.mem_cons_self).not_gt (lt_of_proper hc.1 hc.2)
    rw [hidden_cons hne]
    exact ih fun q hq => h q (List.mem_cons_of_mem _ hq)

/-- How much of the key is matched behind another one. -/
def matched (u : Bool) (prev k : Bytes) : Nat := if u then memshared prev k else 0

/-- The key is found and its row is not marked, and no other row hides it. -/
def Seen (k : Bytes) (rows : List Row) : Prop := (∃ v, Live rows k v) ∧ ¬ Hidden k rows

theorem not_live (h : ∀ r ∈ rows, k < r.key) : ¬ Live rows k v := fun hv => lt_irrefl k (h _ hv)

/-- A search of the rows ends with 0 iff it sees the key, with the value of its row. -/
structure Sees (q : Int × Stored) (k : Bytes) (rows : List Row) : Prop where
  found : q.1 = 0 ↔ Seen k rows
  value : Seen k rows → ∀ v, Live rows k v → q.2.entry.value = v

variable {q : Int × Stored} {past last : Byte}

theorem Sees.none (hq : q.1 ≠ 0) (h : ¬ Seen k rows) : Sees q k rows :=
  ⟨iff_of_false hq h, fun hs => absurd hs h⟩

/-- A row that has another key and does not hide this one is passed. -/
theorem Sees.cons (hne : r.key ≠ k) (hh : Hidden k (r :: rows) ↔ Hidden k rows) (h : Sees q k rows) : Sees q k (r :: rows) := by
  have hlive (v : Bytes) : Live (r :: rows) k v ↔ Live rows k v := by
    refine List.mem_cons.trans (or_iff_right ?_)
    rintro rfl
    exact hne rfl
  have hseen : Seen k (r :: rows) ↔ Seen k rows := by
    rw [Seen, Seen, hh]
    simp only [hlive]
  refine ⟨h.found.trans hseen.symm, fun hs v hv => h.value (hseen.mp hs) v ((hlive v).mp hv)⟩

/-- The row of the key itself. -/
theorem Sees.here (hk : r.key = k) (hsort : ∀ q ∈ rows, r.key < q.key) :
    Sees (if r.removed then 1 else 0, r.after prev) k (r :: rows) := by
  have hrest : ¬ ∃ v, Live rows k v := fun ⟨v, hv⟩ => not_live (hk ▸ hsort) hv
  have hhidden : ¬ Hidden k (r :: rows) := by
    refine not_hidden fun q hq => ?_
    rcases List.mem_cons.mp hq with rfl | hq
    · exact hk.ge
    · exact hk ▸ (hsort q hq).le
  have hlive (v : Bytes) : Live (r :: rows) k v ↔ r.removed = false ∧ r.value = v := by
    constructor
    · intro hv
      rcases List.mem_cons.mp hv with hr | hv
      · rw [← hr]
        exact ⟨rfl, rfl⟩
      · exact absurd ⟨v, hv⟩ hrest
    · rintro ⟨hr, rfl⟩
      rw [Live, ← hk, ← hr]
      exact List.mem_cons_self
  refine ⟨?_, fun _ v hv => ((hlive v).mp hv).2⟩
  rw [Seen, and_iff_left hhidden]
  simp only [hlive]
  cases r.removed <;> simp

theorem memshared_le_of_begins {a b : Bytes} (h : a <+: b) (prev : Bytes) : memshared prev a ≤ memshared prev b := by
  apply le_memshared (p := a)
  · rw [memshared_comm]
  · rw [memshared_eq_length_iff.mpr h]
    exact memshared_le_right prev a

/-- What is read in the comparison behind the matched bytes. -/
theorem compare_bytes {n : Nat} (heq : memshared prev r.key = n) (hn : n ≤ memshared r.key k) :
    (r.after prev).entry.key = r.key.drop n ∧ memshared (r.after prev).entry.key (k.drop n) + n = memshared r.key k := by
  have hkey : (r.after prev).entry.key = r.key.drop n := by rw [← heq]; rfl
  exact ⟨hkey, hkey ▸ memshared_drop hn⟩

theorem sees_compare (hu : u = false → memshared prev r.key = 0) (heq : memshared prev r.key = matched u prev k)
    (hsort : ∀ q ∈ rows, r.key < q.key)
    (hnext : Sees (findNext u past last (r.after prev) (storedFrom r.key rows) (matched u r.key k) (k.drop (matched u r.key k)))
      k rows) :
    Sees (findFrom u past last (r.after prev) (storedFrom r.key rows) (matched u prev k) (k.drop (matched u prev k)))
      k (r :: rows) := by
  have hn : matched u prev k ≤ memshared r.key k := by
    cases u with
    | true => exact le_memshared heq.ge (le_refl _)
    | false => exact Nat.zero_le _
  obtain ⟨hkey, hshare⟩ := compare_bytes heq hn
  have hshared : BucketEntry.kprefix (r.after prev).entry = matched u prev k := heq
  generalize hm : matched u prev k = n at *
  have hbehind : (if u then findNext u past last (r.after prev) (storedFrom r.key rows)
        (n + memshared (r.after prev).entry.key (k.drop n)) ((k.drop n).drop (memshared (r.after prev).entry.key (k.drop n)))
      else findNext u past last (r.after prev) (storedFrom r.key rows) n (k.drop n)) =
      findNext u past last (r.after prev) (storedFrom r.key rows) (matched u r.key k) (k.drop (matched u r.key k)) := by
    cases u with
    | true => rw [if_pos rfl, List.drop_drop, Nat.add_comm n, hshare]; rfl
    | false => rw [if_neg Bool.false_ne_true, ← hm]; rfl
  rw [findFrom_eq, if_neg (not_lt.mpr hshared.le), if_neg (not_lt.mpr hshared.ge), hbehind]
  by_cases hfound : memshared (r.after prev).entry.key (k.drop n) = (k.drop n).length ∧
      (r.after prev).entry.key.length = (k.drop n).length
  · rw [if_pos hfound]
    rw [hkey] at hfound
    exact Sees.here (eq_of_drop hn hfound) hsort
  have hne : r.key ≠ k := by
    rintro rfl
    refine hfound ⟨?_, by rw [hkey]⟩
    rw [hkey]
    exact memshared_eq_length_iff.mpr (List.prefix_refl _)
  rw [if_neg hfound]
  rcases lt_or_gt_of_ne hne with hlt | hgt
  · rcases lt_iff_memshared.mp hlt with ⟨hlen, hlong⟩ | ⟨hr, hk, hless⟩
    · have hpre : r.key <+: k := memshared_eq_length_iff.mp hlen
      have hend : memshared (r.after prev).entry.key (k.drop n) = (r.after prev).entry.key.length := by
        rw [hkey, List.length_drop, ← hkey]
        omega
      have hpast : searchByte past (k.drop n) (memshared (r.after prev).entry.key (k.drop n)) = searchByte 0 k r.key.length := by
        rw [searchByte_drop, Nat.add_comm, hshare, hlen, searchByte_of_lt _ hlong, searchByte_of_lt _ hlong]
      rw [hpast, hend]
      cases rows with
      | nil =>
        refine Sees.none ?_ (fun hs => ?_)
        · split_ifs
          · exact (by decide : (-1 : Int) ≠ 0)
          · exact (by decide : (1 : Int) ≠ 0)
        · obtain ⟨v, hv⟩ := hs.1
          rw [Live, List.mem_singleton] at hv
          exact hne (congrArg Row.key hv).symm
      | cons q rows =>
        have hhead : (mark (q.after r.key).removed (headByte (headOf (q.after r.key).entry))) =
            mark q.removed (headByte (headOf (q.after r.key).entry)) := rfl
        rw [storedFrom, entryByte_cons, hhead]
        by_cases hbyte : searchByte 0 k r.key.length < (mark q.removed (headByte (headOf (q.after r.key).entry))).val
        · rw [if_pos hbyte]
          exact Sees.none (by simp) fun hs => hs.2 (Or.inl ⟨hpre, hne, hbyte⟩)
        · rw [if_neg hbyte]
          exact Sees.cons hne (or_iff_right fun hc => hbyte hc.2.2) hnext
    · have hentry : entryByte last (r.after prev) (storedFrom r.key rows) (memshared (r.after prev).entry.key (k.drop n)) =
          r.key[memshared r.key k] := by
        rw [hkey] at hshare
        rw [entryByte.eq_def, List.getD_eq_getElem?_getD, hkey, List.getElem?_drop, Nat.add_comm, hshare,
          List.getElem?_eq_getElem hr]
        rfl
      have hbyte : ¬ searchByte past (k.drop n) (memshared (r.after prev).entry.key (k.drop n)) <
          (entryByte last (r.after prev) (storedFrom r.key rows) (memshared (r.after prev).entry.key (k.drop n))).val := by
        rw [hentry, searchByte_drop, Nat.add_comm, hshare, searchByte_of_lt _ hk]
        exact not_lt.mpr (Fin.le_def.mp hless.le)
      rw [if_neg hbyte]
      refine Sees.cons hne (hidden_cons fun hc => ?_) hnext
      exact hr.ne (memshared_eq_length_iff.mpr hc.1)
  · have hafter (v : Bytes) : ¬ Live rows k v := not_live fun q hq => hgt.trans (hsort q hq)
    refine Sees.none ?_ (fun hs => ?_)
    · split_ifs
      · simp
      · exact fun h0 => (hnext.found.mp h0).1.elim hafter
    · obtain ⟨v, hv⟩ := hs.1
      rcases List.mem_cons.mp hv with hv | hv
      · exact hne (congrArg Row.key hv).symm
      · exact hafter v hv

theorem sees_step (hu : u = false → memshared prev r.key = 0) (hprev : matched u prev k = 0 ∨ prev < r.key)
    (hsort : ∀ q ∈ rows, r.key < q.key)
    (hnext : Sees (findNext u past last (r.after prev) (storedFrom r.key rows) (matched u r.key k) (k.drop (matched u r.key k)))
      k rows) :
    Sees (findFrom u past last (r.after prev) (storedFrom r.key rows) (matched u prev k) (k.drop (matched u prev k)))
      k (r :: rows) := by
  have hshared : BucketEntry.kprefix (r.after prev).entry = memshared prev r.key := rfl
  rcases lt_trichotomy (matched u prev k) (memshared prev r.key) with hskip | heq | hback
  · have hu' : u = true := by
      cases u with
      | true => rfl
      | false => exact absurd (hu rfl ▸ hskip) (Nat.not_lt_zero _)
    subst hu'
    have hsame : matched true r.key k = matched true prev k := memshared_of_lt hskip
    rw [findFrom_eq, hshared, if_pos hskip, ← hsame]
    refine Sees.cons ?_ (hidden_cons fun hc => ?_) hnext
    · rintro rfl
      exact lt_irrefl _ hskip
    · exact absurd (memshared_le_of_begins hc.1 prev) (not_le.mpr hskip)
  · exact sees_compare hu heq.symm hsort hnext
  · have hu' : u = true := by
      cases u with
      | true => rfl
      | false => exact absurd hback (Nat.not_lt_zero _)
    subst hu'
    have hlt : k < r.key := lt_of_memshared_lt (hprev.resolve_left (Nat.ne_of_gt (Nat.zero_lt_of_lt hback))) hback
    rw [findFrom_eq, hshared, if_neg (not_lt.mpr hback.le), if_pos hback]
    refine Sees.none (by decide : (1 : Int) ≠ 0) (fun hs => ?_)
    obtain ⟨v, hv⟩ := hs.1
    refine not_live (fun q hq => ?_) hv
    rcases List.mem_cons.mp hq with rfl | hq
    · exact hlt
    · exact hlt.trans (hsort q hq)

/-- The search from the entry of a row on sees its rows. -/
theorem sees_findFrom (hu : u = false → ∀ s ∈ storedFrom prev (r :: rows), s.entry.kprefix = 0)
    (hprev : matched u prev k = 0 ∨ prev < r.key) (hsort : (r :: rows).Pairwise (fun p q => p.key < q.key)) :
    Sees (findFrom u past last (r.after prev) (storedFrom r.key rows) (matched u prev k) (k.drop (matched u prev k)))
      k (r :: rows) := by
  induction rows generalizing r prev with
  | nil =>
    have hnext : Sees (findNext u past last (r.after prev) (storedFrom r.key []) (matched u r.key k)
        (k.drop (matched u r.key k))) k [] :=
      Sees.none (by decide : (1 : Int) ≠ 0) (fun hs => by obtain ⟨v, hv⟩ := hs.1; exact absurd hv List.not_mem_nil)
    exact sees_step (fun h => hu h _ List.mem_cons_self) hprev (by simp) hnext
  | cons q rows ih =>
    obtain ⟨hr, hrows⟩ := List.pairwise_cons.mp hsort
    have hnext := ih (fun h s hs => hu h s (List.mem_cons_of_mem _ hs)) (Or.inr (hr q List.mem_cons_self)) hrows
    exact sees_step (fun h => hu h _ List.mem_cons_self) hprev hr hnext

/-! ### Buckets that are built -/

def removals : Nat → List Row → List Op
  | _, [] => []
  | i, r :: rows => if r.removed then .remove i :: removals (i + 1) rows else removals (i + 1) rows

/-- The calls that add the keys, each with the length of its true shared prefix, and mark the rows. -/
def buildOps (rows : List Row) : List Op :=
  (encode (rows.map (fun r => (r.key, r.value)))).map .append ++ removals 0 rows

def build (size : Nat) (rows : List Row) : Option Node :=
  (create size).bind (fun n => (exec step n (buildOps rows)).map (·.1))

def fresh (e : BucketEntry) : Stored := { entry := e, removed := false }

theorem encodeFrom_rows (prev : Bytes) (rows : List Row) :
    encodeFrom prev (rows.map (fun r => (r.key, r.value))) = (storedFrom prev rows).map Stored.entry := by
  induction rows generalizing prev with
  | nil => rfl
  | cons r rows ih =>
    rw [List.map_cons, encodeFrom, ih]
    rfl

theorem used_append (l m : List Stored) : used (l ++ m) = used l + used m := by
  rw [used, List.map_append, List.sum_append]
  rfl

theorem used_fresh (l : List Stored) : used ((l.map Stored.entry).map fresh) = used l := by
  rw [used, used, List.map_map, List.map_map]
  rfl

variable {size : Nat} {es : List BucketEntry} {ops : List Op}

/-- Entries that fit are all added. -/
theorem run_appends (hsize : size < 2 ^ 32) (hs : ∀ e ∈ es, Sized e) (hfit : headSize + used (l ++ es.map fresh) ≤ size)
    (hops : Along size (fun l op => op.Legal l ∧ op.Unwrapped size l) (l ++ es.map fresh) ops) :
    Along size (fun l op => op.Legal l ∧ op.Unwrapped size l) l (es.map .append ++ ops) ∧
      (specExec (specStep size) l (es.map .append ++ ops)).1 = (specExec (specStep size) (l ++ es.map fresh) ops).1 := by
  induction es generalizing l with
  | nil =>
    rw [List.map_nil, List.append_nil] at hops
    rw [List.map_nil, List.map_nil, List.append_nil]
    exact ⟨hops, rfl⟩
  | cons e es ih =>
    have hassoc : l ++ (e :: es).map fresh = l ++ [fresh e] ++ es.map fresh := by simp
    rw [hassoc] at hfit hops ⊢
    have hused := used_append (l ++ [fresh e]) (es.map fresh)
    have hused' := used_append l [fresh e]
    have hentry : used [fresh e] = entrySize e := Nat.add_zero _
    have hstep : specStep size l (.append e) = (l ++ [fresh e], { space := true, result := 0 }) := if_pos (by omega)
    have hwraps : ¬ Wraps size l e := fun hw => absurd hw.1 (by omega)
    obtain ⟨halong, hrun⟩ := ih (fun e he => hs e (List.mem_cons_of_mem _ he)) hfit hops
    constructor
    · rw [List.map_cons, List.cons_append, along_cons, hstep]
      exact ⟨⟨hs e List.mem_cons_self, hwraps⟩, halong⟩
    · rw [List.map_cons, List.cons_append, specExec, hstep]
      exact hrun

variable (size) in
/-- The rows are marked. -/
theorem run_removals (l : List Stored) (prev : Bytes) (rows : List Row) :
    Along size (fun l op => op.Legal l ∧ op.Unwrapped size l) (l ++ ((storedFrom prev rows).map Stored.entry).map fresh)
        (removals l.length rows) ∧
      (specExec (specStep size) (l ++ ((storedFrom prev rows).map Stored.entry).map fresh) (removals l.length rows)).1 =
        l ++ storedFrom prev rows := by
  induction rows generalizing l prev with
  | nil => exact ⟨trivial, rfl⟩
  | cons r rows ih =>
    have hrest := ih (l ++ [r.after prev]) r.key
    rw [List.length_append, List.length_singleton, List.append_assoc, List.append_assoc] at hrest
    simp only [storedFrom, List.map_cons, removals]
    split_ifs with hr
    · have hmark : { fresh (r.after prev).entry with removed := true } = r.after prev := by
        rw [← hr]
        rfl
      have hstep : specStep size (l ++ fresh (r.after prev).entry :: ((storedFrom r.key rows).map Stored.entry).map fresh)
          (.remove l.length) = (l ++ r.after prev :: ((storedFrom r.key rows).map Stored.entry).map fresh,
            { space := true, result := 0 }) := by
        rw [specStep, modify_length, hmark]
      rw [along_cons, specExec, hstep]
      refine ⟨⟨⟨?_, trivial⟩, hrest.1⟩, hrest.2⟩
      show l.length < _
      simp
    · have hfresh : fresh (r.after prev).entry = r.after prev := by
        rw [fresh, ← Bool.eq_false_of_not_eq_true hr]
        rfl
      rw [hfresh]
      exact hrest

theorem sized_stored (hsize : size < 2 ^ 32) (hkeys : ∀ r ∈ rows, r.key.length < 2 ^ 32) (hprev : prev.length < 2 ^ 32)
    (hfit : used (storedFrom prev rows) ≤ size) : ∀ s ∈ storedFrom prev rows, Sized s.entry := by
  induction rows generalizing prev with
  | nil => simp [storedFrom]
  | cons r rows ih =>
    have hr := hkeys r List.mem_cons_self
    have hused : used (storedFrom prev (r :: rows)) = entrySize (r.after prev).entry + used (storedFrom r.key rows) := rfl
    have hentry : r.value.length ≤ entrySize (r.after prev).entry := Nat.le_add_left _ _
    intro s hs
    rcases List.mem_cons.mp hs with rfl | hs
    · refine ⟨(memshared_le_left prev r.key).trans_lt hprev, ?_, ?_⟩
      · show (r.key.drop _).length < 2 ^ 32
        rw [List.length_drop]
        omega
      · show r.value.length < 2 ^ 32
        omega
    · exact ih (fun q hq => hkeys q (List.mem_cons_of_mem _ hq)) hr (by omega) s hs

theorem build_holds (hsize : size < 2 ^ 32) (hkeys : ∀ r ∈ rows, r.key.length < 2 ^ 32)
    (hfit : headSize + used (storedFrom [] rows) ≤ size) : ∃ n, build size rows = some n ∧ Holds n (storedFrom [] rows) := by
  obtain ⟨n, hcreate, hn, hholds⟩ := create_holds (show headSize ≤ size by omega) hsize
  have hsized := sized_stored hsize hkeys (by decide) (show used (storedFrom [] rows) ≤ size by omega)
  have hops : buildOps rows =
      ((storedFrom [] rows).map Stored.entry).map .append ++ removals (@List.length Stored []) rows := by
    rw [buildOps, encode, encodeFrom_rows]
    rfl
  obtain ⟨hmarks, hresult⟩ := run_removals size [] [] rows
  obtain ⟨halong, hrun⟩ := run_appends (l := []) hsize
    (fun e he => by obtain ⟨s, hs, rfl⟩ := List.mem_map.mp he; exact hsized s hs)
    (by rw [List.nil_append, used_fresh]; exact hfit) hmarks
  rw [← hops, ← hn] at halong
  obtain ⟨n', hexec, hholds'⟩ := hholds.run halong
  rw [hn, hops, hrun] at hholds'
  rw [hresult] at hholds'
  exact ⟨n', by rw [build, hcreate, Option.bind_some, hexec]; rfl, hholds'⟩

/-- The search for a key gives the value of its row, and no row if there is none. -/
def Finds (n : Node) (past behind : Byte) (rows : List Row) (k : Bytes) : Prop :=
  ∃ result value, bucketSearch n past behind k = some (result, value) ∧
    (∀ v, Live rows k v → result = 0 ∧ value = some v) ∧ ((∀ v, ¬ Live rows k v) → result ≠ 0)

theorem Holds.sees (h : Holds n (storedFrom [] (r :: rows))) (hsort : (r :: rows).Pairwise (fun p q => p.key < q.key))
    (past behind : Byte) (k : Bytes) :
    Sees (findFrom n.nhPrefix past (n.byte behind n.nhLastKey) (r.after []) (storedFrom r.key rows) 0 k) k (r :: rows) := by
  have hzero : matched n.nhPrefix [] k = 0 := by
    rw [matched]
    split_ifs <;> rfl
  have hmarks : n.nhPrefix = false → ∀ s ∈ storedFrom [] (r :: rows), s.entry.kprefix = 0 := by
    intro hu s hs
    rw [h.nhPrefix] at hu
    simpa using List.any_eq_false.mp hu s hs
  have hsees := @sees_findFrom _ [] k _ _ past (n.byte behind n.nhLastKey) hmarks (Or.inl hzero) hsort
  rw [hzero] at hsees
  exact hsees

/-- A key is searched for with the right result unless its row is not marked and another row hides it. -/
theorem Holds.finds_iff (h : Holds n (storedFrom [] rows)) (hsort : rows.Pairwise (fun p q => p.key < q.key))
    (past behind : Byte) (k : Bytes) : Finds n past behind rows k ↔ ¬ ((∃ v, Live rows k v) ∧ Hidden k rows) := by
  cases rows with
  | nil =>
    refine iff_of_true ⟨1, none, h.bucketSearch_nil past behind k, ?_, fun _ => by decide⟩ (fun hc => hc.2)
    intro v hv
    exact absurd hv List.not_mem_nil
  | cons r rows =>
    have hsees := h.sees hsort past behind k
    have hresult := Holds.bucketSearch_cons (s := r.after []) (l := storedFrom r.key rows) h past behind k
    by_cases hlive : ∃ v, Live (r :: rows) k v
    · by_cases hhidden : Hidden k (r :: rows)
      · refine iff_of_false ?_ (fun hc => hc ⟨hlive, hhidden⟩)
        rintro ⟨result, value, heq, hfound, -⟩
        obtain ⟨v, hv⟩ := hlive
        rw [hresult] at heq
        have hzero := (hfound v hv).1
        rw [← (Prod.mk.inj (Option.some.inj heq)).1] at hzero
        exact (hsees.found.mp hzero).2 hhidden
      · refine iff_of_true ⟨_, _, hresult, fun v hv => ?_, fun hno => ?_⟩ (fun hc => hhidden hc.2)
        · have hseen : Seen k (r :: rows) := ⟨hlive, hhidden⟩
          exact ⟨hsees.found.mpr hseen, congrArg some (hsees.value hseen v hv)⟩
        · exact hlive.elim fun v hv => absurd hv (hno v)
    · refine iff_of_true ⟨_, _, hresult, fun v hv => absurd ⟨v, hv⟩ hlive, fun _ h0 => ?_⟩ (fun hc => hlive hc.1)
      exact hlive (hsees.found.mp h0).1

/-- A bucket of keys in order is searched with the right result for exactly the keys that are not stored, that are
marked as removed, or that no other key hides. -/
theorem search_iff (hsize : size < 2 ^ 32) (hkeys : ∀ r ∈ rows, r.key.length < 2 ^ 32)
    (hsort : rows.Pairwise (fun p q => p.key < q.key)) (hfit : headSize + used (storedFrom [] rows) ≤ size) :
    ∃ n, build size rows = some n ∧ ∀ past behind k, Finds n past behind rows k ↔ ¬ ((∃ v, Live rows k v) ∧ Hidden k rows) := by
  obtain ⟨n, hbuild, hholds⟩ := build_holds hsize hkeys hfit
  exact ⟨n, hbuild, fun past behind k => hholds.finds_iff hsort past behind k⟩

/-- Three keys, where the first one is a beginning of the second one. -/
theorem search_iff_small : ∃ n, build 64
      [⟨[97], [1], false⟩, ⟨[97, 98], [2], false⟩, ⟨[99], [3], true⟩] = some n ∧
    ∀ past behind, Finds n past behind [⟨[97], [1], false⟩, ⟨[97, 98], [2], false⟩, ⟨[99], [3], true⟩] [97, 98] := by
  obtain ⟨n, hbuild, hfinds⟩ := @search_iff [⟨[97], [1], false⟩, ⟨[97, 98], [2], false⟩, ⟨[99], [3], true⟩] 64
    (by decide) (by decide) (by decide +kernel) (by decide)
  exact ⟨n, hbuild, fun past behind => (hfinds past behind _).mpr fun hc => absurd hc.2 (by decide +kernel)⟩

/-- The key behind another one, of a byte that is smaller than the head byte, is not found. -/
theorem longer_key_missed : ∃ n, build 64 [⟨[97], [1], false⟩, ⟨[97, 1], [2], false⟩] = some n ∧
    ¬ Finds n 0 0 [⟨[97], [1], false⟩, ⟨[97, 1], [2], false⟩] [97, 1] := by
  have hsearch : (build 64 [⟨[97], [1], false⟩, ⟨[97, 1], [2], false⟩]).bind
      (fun n => (bucketSearch n 0 0 [97, 1]).map Prod.fst) = some (-1) := by decide +kernel
  obtain ⟨n, hbuild, hsearch⟩ := Option.bind_eq_some_iff.mp hsearch
  refine ⟨n, hbuild, ?_⟩
  rintro ⟨result, value, heq, hfound, -⟩
  have hzero := (hfound [2] (by rw [Live]; decide)).1
  rw [heq, Option.map_some, hzero] at hsearch
  simp at hsearch

/-! ### The bucket of the entries -/

theorem headByte_bits : ∀ (a : Fin 8) (b c : Fin 4),
    (headByte (a.val, 1 + b.val, 1 + c.val)).val = a.val * 32 + b.val * 8 + c.val * 2 := by
  decide +kernel

theorem val_headByte {e : BucketEntry} (h : Sized e) : (headByte (headOf e)).val = e.headByte := by
  obtain ⟨ha, hb, hb', hc, hc', -⟩ := headOf_spec h
  have hbits := headByte_bits ⟨(headOf e).1, ha⟩ ⟨(headOf e).2.1 - 1, by omega⟩ ⟨(headOf e).2.2 - 1, by omega⟩
  simp only [Nat.add_sub_cancel' hb, Nat.add_sub_cancel' hc] at hbits
  exact hbits

/-- The byte that is compared with the key, when there is an entry behind this one. -/
theorem keyByte_cons (last : Byte) (l : List Stored) (ht : t.removed = false) (hsized : Sized t.entry) {i : Nat} (hi : i ≤ s.entry.key.length) :
    keyByte s.entry (some t.entry) i = (entryByte last s (t :: l) i).val := by
  rcases hi.lt_or_eq with hlt | rfl
  · rw [entryByte_of_lt _ _ hlt]
    simp only [keyByte, List.getElem?_eq_getElem hlt]
  · rw [entryByte_cons, ht]
    simp only [keyByte, List.getElem?_eq_none (le_refl _)]
    exact (val_headByte hsized).symm

def reported (q : Int × Stored) : Option Bytes := if q.1 = 0 then some q.2.entry.value else none

/-- The search of the entries reports what the one of the bucket does. -/
theorem searchFrom_eq (u : Bool) (past last : Byte) (hl : ∀ t ∈ s :: l, t.removed = false ∧ Sized t.entry) (koffset : Nat)
    (k : Bytes) :
    searchFrom u past ((s :: l).map Stored.entry) koffset k = reported (findFrom u past last s l koffset k) := by
  have hs := (hl s List.mem_cons_self).1
  induction l generalizing s koffset k with
  | nil =>
    rw [List.map_cons, List.map_nil, searchFrom, findFrom_eq, hs, if_neg Bool.false_ne_true]
    simp only [findNext, searchFrom]
    split_ifs <;> rfl
  | cons t l ih =>
    have ht := hl t (List.mem_cons_of_mem _ List.mem_cons_self)
    have hnext (koffset : Nat) (k : Bytes) :
        searchFrom u past ((t :: l).map Stored.entry) koffset k = reported (findNext u past last s (t :: l) koffset k) :=
      ih (fun q hq => hl q (List.mem_cons_of_mem _ hq)) koffset k ht.1
    rw [List.map_cons, searchFrom, findFrom_eq, List.map_cons, List.head?_cons,
      keyByte_cons last l ht.1 ht.2 (memshared_le_left s.entry.key k), ← List.map_cons, hs,
      if_neg Bool.false_ne_true]
    simp only [hnext]
    split_ifs <;> rfl

theorem Holds.bucketSearch_eq {b : Bucket} (h : Holds n (b.map fresh)) (past behind : Byte) (k : Bytes) :
    ∃ result value, bucketSearch n past behind k = some (result, value) ∧
      Zcl.bucketSearch past b k = if result = 0 then value else none := by
  have hentries : b = (b.map fresh).map Stored.entry := by
    rw [List.map_map]
    exact (List.map_id b).symm
  cases b with
  | nil => exact ⟨1, none, h.bucketSearch_nil past behind k, rfl⟩
  | cons e b =>
    have hl : ∀ t ∈ fresh e :: b.map fresh, t.removed = false ∧ Sized t.entry := by
      intro t ht
      obtain ⟨e', -, rfl⟩ := List.mem_map.mp (show t ∈ (e :: b).map fresh from ht)
      exact ⟨rfl, h.sized _ ht⟩
    have hprefix : n.nhPrefix = (e :: b).any (fun e => 0 < BucketEntry.kprefix e) := by
      rw [h.nhPrefix, List.any_map]
      rfl
    refine ⟨_, _, Holds.bucketSearch_cons (s := fresh e) (l := b.map fresh) h past behind k, ?_⟩
    rw [Zcl.bucketSearch, ← hprefix, hentries]
    exact searchFrom_eq n.nhPrefix past (n.byte behind n.nhLastKey) hl 0 k
end RaleighSL.Zcl.BucketNode
