import RaleighSL.Zcl.Bucket.Search
import Mathlib.Data.List.Find

/-!
# The iterator of a node

`__bucket_iter_next` puts a key together in a buffer of 128 bytes. It first copies from the
entry before as many bytes as the two keys share, behind the prefix of that entry, and then the
rest of the key behind the shared prefix. The first copy is longer than the gap it fills, and
what it copies may be more than the key of the entry before, and even more than the node.
-/
namespace RaleighSL.Zcl.BucketNode
open RaleighSL.Library Coding

/-- A copy into a buffer. A copy behind its end has no result. -/
def put (buffer : Bytes) (offset : Nat) (data : Bytes) : Option Bytes :=
  if offset + data.length ≤ buffer.length then
    some (buffer.take offset ++ data ++ buffer.drop (offset + data.length))
  else none

def Node.bytes (n : Node) (behind : Nat → Byte) (offset size : Nat) : Bytes :=
  (List.range size).map (fun i => n.byte (behind (offset + i)) (offset + i))

/-- `z_bucket_iterator_t`. The entry is missing before the first fetch; the map entry has the bytes of its
slices. -/
structure Iter where
  entry : Option Item
  kbuffer : Bytes
  hasData : Bool
  mapEntry : MapEntry
  deriving DecidableEq, Repr

/-- The body of the loop of `__bucket_iter_next`. -/
def round (n : Node) (behind : Nat → Byte) (it : Iter) : Option Iter :=
  it.entry.bind (fun prev => (fetchNext n prev).bind (fun next =>
    match next with
    | none => some { it with hasData := false }
    | some entry =>
      (n.slice entry.keyData entry.keySize).bind (fun key => (n.slice entry.valueData entry.valueSize).bind (fun value =>
        if 0 < entry.kprefix then
          (put it.kbuffer prev.kprefix (n.bytes behind prev.keyData entry.kprefix)).bind (fun kbuffer =>
            (put kbuffer entry.kprefix key).map (fun kbuffer =>
              { entry := some entry, kbuffer := kbuffer, hasData := true,
                mapEntry := (kbuffer.take ( entry.kprefix + entry.keySize), ⟨value, entry.isDeleted⟩) }))
        else
          some { entry := some entry, kbuffer := it.kbuffer, hasData := true,
                 mapEntry := (key, ⟨value, entry.isDeleted⟩) }))))

/-- `__bucket_iter_next`. -/
def next (n : Node) (behind : Nat → Byte) : Nat → Iter → Option Iter
  | 0, _ => none
  | fuel + 1, it => (round n behind it).bind (fun it =>
      if it.hasData && it.mapEntry.2.isDeleteMarker then next n behind fuel it else some it)

/-- `__bucket_iter_begin`. -/
def begin (n : Node) (behind : Nat → Byte) (it : Iter) : Option Iter :=
  (fetchFirst n).bind (fun first =>
    match first with
    | none => some { it with hasData := false }
    | some entry =>
      if entry.isDeleted then next n behind n.nhLastKey { it with entry := some entry, hasData := true }
      else
        (n.slice entry.keyData entry.keySize).bind (fun key => (n.slice entry.valueData entry.valueSize).map (fun value =>
          { it with entry := some entry, hasData := true, mapEntry := (key, ⟨value, entry.isDeleted⟩) })))

/-- `__bucket_iter_current`. -/
def current (it : Iter) : Option MapEntry := if it.hasData then some it.mapEntry else none

/-- The loop of `__bucket_iter_seek`, with the result of the last comparison. -/
def seekFrom (n : Node) (behind : Nat → Byte) (key : Bytes) : Nat → Int → Iter → Option (Int × Iter)
  | fuel, cmp, it =>
    match current it with
    | none => some (cmp, it)
    | some entry =>
      if 0 ≤ sliceCompare entry.1 key then some (sliceCompare entry.1 key, it)
      else
        match fuel with
        | 0 => none
        | fuel + 1 => (next n behind n.nhLastKey it).bind (seekFrom n behind key fuel (sliceCompare entry.1 key))

/-- `__bucket_iter_seek`. -/
def seek (n : Node) (behind : Nat → Byte) (it : Iter) (key : Bytes) : Option (Int × Iter) :=
  (begin n behind it).bind (seekFrom n behind key n.nhLastKey 1)

def walkFrom (n : Node) (behind : Nat → Byte) : Nat → Iter → Option (List MapEntry)
  | fuel, it =>
    match current it with
    | none => some []
    | some entry =>
      match fuel with
      | 0 => none
      | fuel + 1 => ((next n behind n.nhLastKey it).bind (walkFrom n behind fuel)).map (entry :: ·)

/-- `begin` followed by `next` until there is no data. -/
def walk (n : Node) (behind : Nat → Byte) (it : Iter) : Option (List MapEntry) :=
  (begin n behind it).bind (walkFrom n behind n.nhLastKey)

/-! ### The buffer -/

theorem put_eq (buffer : Bytes) (offset : Nat) (data : Bytes) (h : offset + data.length ≤ buffer.length) :
    put buffer offset data = some (buffer.take offset ++ data ++ buffer.drop (offset + data.length)) := if_pos h

theorem length_put {buffer data buffer' : Bytes} {offset : Nat} (h : put buffer offset data = some buffer') :
    buffer'.length = buffer.length := by
  rw [put] at h
  split_ifs at h with hle
  rw [← Option.some.inj h]
  simp only [List.length_append, List.length_take, List.length_drop]
  omega

theorem length_bytes (n : Node) (behind : Nat → Byte) (offset size : Nat) : (n.bytes behind offset size).length = size := by
  rw [Node.bytes, List.length_map, List.length_range]

/-- Two prefixes of keys, the second one with the bytes of the first one behind it. -/
theorem take_join {key data buffer : Bytes} {p c : Nat} (hbuffer : buffer.take p = key.take p)
    (hp : p ≤ buffer.length) (hdata : data.take (c - p) = (key.drop p).take (c - p)) :
    (buffer.take p ++ data).take c = key.take c := by
  have hlen : (key.take p).length = p := by rw [← hbuffer, List.length_take_of_le hp]
  calc (buffer.take p ++ data).take c = (key.take p).take c ++ data.take (c - p) := by
        rw [hbuffer, List.take_append, hlen]
    _ = (key.take p ++ key.drop p).take c := by rw [hdata, List.take_append, hlen]
    _ = key.take c := by rw [List.take_append_drop]

variable {n : Node} {behind : Nat → Byte} {it it' : Iter} {prev : Bytes} {r q : Row} {rows : List Row}
  {pkey value index fuel : Nat} {k : Bytes} {s : Stored} {l : List Stored}

/-- The bytes from the key of an entry on begin with the key. -/
theorem At.bytes (h : At n pkey value (s :: l)) (behind : Nat → Byte) (size : Nat) {j : Nat} (hj : j ≤ size)
    (hk : j ≤ s.entry.key.length) :
    (n.bytes behind (pkey + kheadSize (headOf s.entry)) size).take j = s.entry.key.take j := by
  apply List.ext_getElem
  · rw [List.length_take, List.length_take, length_bytes]
    omega
  · intro i hi hi'
    have hij : i < j := by
      rw [List.length_take] at hi
      omega
    have hlt : i < s.entry.key.length := by omega
    rw [List.getElem_take, List.getElem_take]
    simp only [Node.bytes, List.getElem_map, List.getElem_range]
    rw [h.byte _ hlt.le, entryByte_of_lt _ _ hlt]

/-- The iterator is on a row behind a key: the shared bytes of the two are in the buffer. -/
structure On (n : Node) (it : Iter) (prev : Bytes) (r : Row) (rows : List Row) : Prop where
  entry : ∃ pkey value index, it.entry = some (itemAt pkey value index (r.after prev)) ∧
    At n pkey value (r.after prev :: storedFrom r.key rows)
  length : it.kbuffer.length = kbufferSize
  shared : it.kbuffer.take (memshared prev r.key) = r.key.take (memshared prev r.key)
  hasData : it.hasData = true

def Row.entry (r : Row) : MapEntry := (r.key, ⟨r.value, r.removed⟩)

/-- The two copies put the key of a row together. -/
theorem On.copies (h : On n it prev r (q :: rows)) (hq : q.key.length ≤ kbufferSize)
    (hfit : memshared prev r.key + memshared r.key q.key ≤ kbufferSize) {data : Bytes}
    (hdata : data.length = memshared r.key q.key)
    (htake : ∀ j, j ≤ memshared r.key q.key → j ≤ (r.after prev).entry.key.length →
      data.take j = (r.after prev).entry.key.take j) :
    ∃ kbuffer kbuffer', put it.kbuffer (memshared prev r.key) data = some kbuffer ∧
      put kbuffer (memshared r.key q.key) (q.after r.key).entry.key = some kbuffer' ∧
      kbuffer'.length = kbufferSize ∧ kbuffer'.take q.key.length = q.key := by
  have hkey : (r.after prev).entry.key = r.key.drop (memshared prev r.key) := rfl
  have hqkey : (q.after r.key).entry.key = q.key.drop (memshared r.key q.key) := rfl
  have hp := memshared_le_right prev r.key
  have hc := memshared_le_left r.key q.key
  have hc' := memshared_le_right r.key q.key
  have hlength := h.length
  have hput := put_eq it.kbuffer (memshared prev r.key) data (by omega)
  have hlen := length_put hput
  have hjoin : (it.kbuffer.take (memshared prev r.key) ++ data).take (memshared r.key q.key) =
      r.key.take (memshared r.key q.key) := by
    apply take_join h.shared (by omega)
    rw [htake _ (Nat.sub_le _ _) (by rw [hkey, List.length_drop]; omega), hkey]
  have hgap : (it.kbuffer.take (memshared prev r.key) ++ data ++
      it.kbuffer.drop (memshared prev r.key + data.length)).take (memshared r.key q.key) =
        q.key.take (memshared r.key q.key) := by
    rw [List.take_append_of_le_length, hjoin, take_memshared]
    rw [List.length_append, hdata]
    omega
  have hrest : (q.after r.key).entry.key.length = q.key.length - memshared r.key q.key := by
    rw [hqkey, List.length_drop]
  have hput' := put_eq (it.kbuffer.take (memshared prev r.key) ++ data ++ it.kbuffer.drop (memshared prev r.key + data.length))
    (memshared r.key q.key) (q.after r.key).entry.key (by omega)
  refine ⟨_, _, hput, hput', (length_put hput').trans (hlen.trans h.length), ?_⟩
  rw [hgap, hqkey, List.take_append_drop, List.take_left]

theorem On.round_nil (h : On n it prev r []) : BucketNode.round n behind it = some { it with hasData := false } := by
  obtain ⟨pkey, value, index, hentry, hat⟩ := h.entry
  rw [BucketNode.round, hentry, Option.bind_some, fetchNext_itemAt, hat.tail.itemFetch_nil]
  rfl

def reach (prev : Bytes) (r q : Row) (pkey value index : Nat) (kbuffer key : Bytes) : Iter :=
  { entry := some (itemAt (pkey + (keyBytes (r.after prev)).length) (value - (r.after prev).entry.value.length) (index + 1)
      (q.after r.key))
    kbuffer := kbuffer, hasData := true, mapEntry := (key, ⟨q.value, q.removed⟩) }

theorem At.round_eq (h : At n pkey value (r.after prev :: storedFrom r.key (q :: rows)))
    (hentry : it.entry = some (itemAt pkey value index (r.after prev))) :
    BucketNode.round n behind it =
      if 0 < memshared r.key q.key then
        (put it.kbuffer (memshared prev r.key)
            (n.bytes behind (pkey + kheadSize (headOf (r.after prev).entry)) (memshared r.key q.key))).bind (fun kbuffer =>
          (put kbuffer (memshared r.key q.key) (q.after r.key).entry.key).map (fun kbuffer =>
            reach prev r q pkey value index kbuffer (kbuffer.take q.key.length)))
      else some (reach prev r q pkey value index it.kbuffer q.key) := by
  have htail : At n (pkey + (keyBytes (r.after prev)).length) (value - (r.after prev).entry.value.length)
      (q.after r.key :: storedFrom q.key rows) := h.tail
  have hkey : (q.after r.key).entry.key = q.key.drop (memshared r.key q.key) := rfl
  have hsize : memshared r.key q.key + (q.after r.key).entry.key.length = q.key.length := by
    have hle := memshared_le_right r.key q.key
    rw [hkey, List.length_drop]
    omega
  have hp : BucketEntry.kprefix (r.after prev).entry = memshared prev r.key := rfl
  have hc : BucketEntry.kprefix (q.after r.key).entry = memshared r.key q.key := rfl
  rw [BucketNode.round, hentry, Option.bind_some, fetchNext_itemAt, htail.itemFetch, Option.bind_some]
  dsimp only [itemAt]
  rw [htail.slice_key, Option.bind_some, htail.slice_value, Option.bind_some, hp, hc, hsize]
  split_ifs with hpos
  · rfl
  · have hwhole : (q.after r.key).entry.key = q.key := by
      rw [hkey, Nat.eq_zero_of_not_pos hpos, List.drop_zero]
    rw [hwhole, reach, itemAt, hwhole]
    rfl

variable (behind) in
theorem On.round_cons (h : On n it prev r (q :: rows)) (hq : q.key.length ≤ kbufferSize)
    (hfit : memshared prev r.key + memshared r.key q.key ≤ kbufferSize) :
    ∃ it', BucketNode.round n behind it = some it' ∧ On n it' r.key q rows ∧ it'.mapEntry = q.entry := by
  obtain ⟨pkey, value, index, hentry, hat⟩ := h.entry
  rw [hat.round_eq hentry]
  by_cases hpos : 0 < memshared r.key q.key
  · obtain ⟨kbuffer, kbuffer', hput, hput', hlen, htake⟩ := h.copies hq hfit (length_bytes ..)
      (fun j hj hj' => hat.bytes behind _ hj hj')
    have hshared : kbuffer'.take (memshared r.key q.key) = q.key.take (memshared r.key q.key) := by
      have htwice := congrArg (List.take (memshared r.key q.key)) htake
      rw [List.take_take, min_eq_left (memshared_le_right r.key q.key)] at htwice
      exact htwice
    rw [if_pos hpos, hput, Option.bind_some, hput', Option.map_some, htake]
    exact ⟨_, rfl, ⟨⟨_, _, _, rfl, hat.tail⟩, hlen, hshared, rfl⟩, rfl⟩
  · rw [if_neg hpos]
    refine ⟨_, rfl, ⟨⟨_, _, _, rfl, hat.tail⟩, h.length, ?_, rfl⟩, rfl⟩
    rw [Nat.eq_zero_of_not_pos hpos, List.take_zero, List.take_zero]

theorem On.round_overrun (h : On n it prev r (q :: rows)) (hr : r.key.length ≤ kbufferSize)
    (hfit : ¬ memshared prev r.key + memshared r.key q.key ≤ kbufferSize) : BucketNode.round n behind it = none := by
  obtain ⟨pkey, value, index, hentry, hat⟩ := h.entry
  have hle := memshared_le_right prev r.key
  rw [hat.round_eq hentry, if_pos (by omega), put, if_neg (by rw [length_bytes, h.length]; exact hfit), Option.bind_none]

/-! ### Steps over rows that are removed -/

/-- The step from a row, with the length of its shared prefix, to the next one that is not removed. It returns the
rows from there on and the key in front of them; there is no result if a copy overruns the buffer. -/
def nextRow : Nat → Bytes → List Row → Option (Bytes × List Row)
  | _, prev, [] => some (prev, [])
  | p, prev, q :: rows =>
    if p + memshared prev q.key ≤ kbufferSize then
      if q.removed then nextRow (memshared prev q.key) q.key rows else some (prev, q :: rows)
    else none

/-- No copy of shared bytes overruns the buffer: two prefixes of neighbours fit behind each other. -/
def Within : Nat → Bytes → List Row → Prop
  | _, _, [] => True
  | p, prev, q :: rows => p + memshared prev q.key ≤ kbufferSize ∧ Within (memshared prev q.key) q.key rows

instance decidableWithin : (p : Nat) → (prev : Bytes) → (rows : List Row) → Decidable (Within p prev rows)
  | _, _, [] => .isTrue trivial
  | _, prev, q :: rows =>
    have := decidableWithin (memshared prev q.key) q.key rows
    inferInstanceAs (Decidable (_ ∧ _))

/-- The iterator shows the first of the rows, and there is no data behind the last one. -/
def Shows (n : Node) (it : Iter) : Bytes → List Row → Prop
  | _, [] => it.hasData = false
  | prev, r :: rows => On n it prev r rows ∧ it.mapEntry = r.entry

def entries (rows : List Row) : List MapEntry := (rows.filter (fun r => !r.removed)).map Row.entry

variable (behind) in
theorem On.next (h : On n it prev r rows) (hkeys : ∀ q ∈ r :: rows, q.key.length ≤ kbufferSize) (hfuel : rows.length < fuel) :
    BucketNode.next n behind fuel it = none ∧ nextRow (memshared prev r.key) r.key rows = none ∨
      ∃ it' prev' rows', BucketNode.next n behind fuel it = some it' ∧
        nextRow (memshared prev r.key) r.key rows = some (prev', rows') ∧ Shows n it' prev' rows' := by
  induction rows generalizing it prev r fuel with
  | nil =>
    obtain ⟨fuel, rfl⟩ := Nat.exists_eq_succ_of_ne_zero (Nat.ne_of_gt hfuel)
    refine Or.inr ⟨{ it with hasData := false }, r.key, [], ?_, rfl, rfl⟩
    rw [BucketNode.next, h.round_nil]
    rfl
  | cons q rows ih =>
    obtain ⟨fuel, rfl⟩ := Nat.exists_eq_succ_of_ne_zero (Nat.ne_of_gt (Nat.zero_lt_of_lt hfuel))
    have hrows : ∀ p ∈ q :: rows, p.key.length ≤ kbufferSize := fun p hp => hkeys p (List.mem_cons_of_mem _ hp)
    by_cases hfit : memshared prev r.key + memshared r.key q.key ≤ kbufferSize
    · obtain ⟨it', hround, hon, hentry⟩ := h.round_cons behind (hrows q List.mem_cons_self) hfit
      rw [BucketNode.next, hround, Option.bind_some, nextRow, if_pos hfit, hon.hasData, hentry]
      by_cases hremoved : q.removed = true
      · rw [if_pos hremoved, if_pos (by simpa [Row.entry] using hremoved)]
        exact ih hon hrows (Nat.lt_of_succ_lt_succ hfuel)
      · rw [if_neg hremoved, if_neg (by simpa [Row.entry] using hremoved)]
        exact Or.inr ⟨it', r.key, q :: rows, rfl, rfl, hon, hentry⟩
    · refine Or.inl ⟨?_, if_neg hfit⟩
      rw [BucketNode.next, h.round_overrun (hkeys r List.mem_cons_self) hfit]
      rfl

/-- The condition from the rows on that the iterator shows. -/
def WithinFrom : Bytes → List Row → Prop
  | _, [] => True
  | prev, q :: rows => Within (memshared prev q.key) q.key rows

/-- What is left of the rows behind some that are removed. -/
structure Reached (p : Nat) (prev : Bytes) (rows : List Row) (prev' : Bytes) (rows' : List Row) : Prop where
  within : Within p prev rows ↔ WithinFrom prev' rows'
  entries : entries rows = entries rows'
  suffix : rows' <:+ rows
  live : ∀ q ∈ rows'.head?, q.removed = false

theorem entries_cons_live (hr : r.removed = false) (rows : List Row) : entries (r :: rows) = r.entry :: entries rows := by
  rw [entries, List.filter_cons_of_pos (by simp [hr])]
  rfl

theorem entries_cons_removed (hr : r.removed = true) (rows : List Row) : entries (r :: rows) = entries rows := by
  rw [entries, List.filter_cons_of_neg (by simp [hr])]
  rfl

theorem not_within_of_nextRow {p : Nat} (h : nextRow p prev rows = none) : ¬ Within p prev rows := by
  induction rows generalizing p prev with
  | nil => cases h
  | cons q rows ih =>
    rw [nextRow] at h
    split_ifs at h with hfit hremoved
    · exact fun hw => ih h hw.2
    · exact fun hw => hfit hw.1

theorem reached_of_nextRow {p : Nat} {prev' : Bytes} {rows' : List Row} (h : nextRow p prev rows = some (prev', rows')) :
    Reached p prev rows prev' rows' := by
  induction rows generalizing p prev with
  | nil =>
    cases h
    exact ⟨Iff.rfl, rfl, List.suffix_refl _, by simp⟩
  | cons q rows ih =>
    rw [nextRow] at h
    split_ifs at h with hfit hremoved
    · obtain ⟨hwithin, hentries, hsuffix, hlive⟩ := ih h
      exact ⟨(and_iff_right hfit).trans hwithin, (entries_cons_removed hremoved rows).trans hentries,
        hsuffix.trans (List.suffix_cons q rows), hlive⟩
    · cases h
      refine ⟨and_iff_right hfit, rfl, List.suffix_refl _, ?_⟩
      simpa using hremoved

/-! ### Whole runs of the iterator -/

theorem Shows.current_nil (h : Shows n it prev []) : current it = none := by
  have hdata : it.hasData = false := h
  rw [current, hdata]
  rfl

theorem Shows.current_cons (h : Shows n it prev (r :: rows)) : current it = some r.entry := by
  rw [current, h.1.hasData, h.2]
  rfl

theorem walkFrom_none (h : current it = none) : walkFrom n behind fuel it = some [] := by
  cases fuel <;> rw [walkFrom, h]

theorem walkFrom_some {e : MapEntry} (h : current it = some e) :
    walkFrom n behind (fuel + 1) it = ((next n behind n.nhLastKey it).bind (walkFrom n behind fuel)).map (e :: ·) := by
  rw [walkFrom, h]

theorem seekFrom_none (h : current it = none) (cmp : Int) : seekFrom n behind k fuel cmp it = some (cmp, it) := by
  cases fuel <;> rw [seekFrom, h]

theorem seekFrom_stop {e : MapEntry} (h : current it = some e) (hstop : 0 ≤ sliceCompare e.1 k) (cmp : Int) :
    seekFrom n behind k fuel cmp it = some (sliceCompare e.1 k, it) := by
  cases fuel <;> rw [seekFrom, h] <;> exact if_pos hstop

theorem seekFrom_go {e : MapEntry} (h : current it = some e) (hgo : ¬ 0 ≤ sliceCompare e.1 k) (cmp : Int) :
    seekFrom n behind k (fuel + 1) cmp it =
      (next n behind n.nhLastKey it).bind (seekFrom n behind k fuel (sliceCompare e.1 k)) := by
  rw [seekFrom, h]
  exact if_neg hgo

variable (behind) in
theorem Shows.walkFrom (h : Shows n it prev rows) (hlive : ∀ q ∈ rows.head?, q.removed = false)
    (hkeys : ∀ q ∈ rows, q.key.length ≤ kbufferSize) (hlast : rows.length ≤ n.nhLastKey) (hfuel : rows.length ≤ fuel) :
    (WithinFrom prev rows → BucketNode.walkFrom n behind fuel it = some (entries rows)) ∧
      (¬ WithinFrom prev rows → BucketNode.walkFrom n behind fuel it = none) := by
  induction fuel generalizing it prev rows with
  | zero =>
    obtain rfl := List.eq_nil_of_length_eq_zero (Nat.le_zero.mp hfuel)
    exact ⟨fun _ => walkFrom_none h.current_nil, fun hw => absurd trivial hw⟩
  | succ fuel ih =>
    cases rows with
    | nil => exact ⟨fun _ => walkFrom_none h.current_nil, fun hw => absurd trivial hw⟩
    | cons r rows =>
      rw [walkFrom_some h.current_cons]
      rcases h.1.next behind hkeys (Nat.lt_of_succ_le hlast) with ⟨hnext, hrow⟩ | ⟨it', prev', rows', hnext, hrow, hshows⟩
      · rw [hnext, Option.bind_none]
        exact ⟨fun hw => absurd hw (not_within_of_nextRow hrow), fun _ => rfl⟩
      · have hreached := reached_of_nextRow hrow
        have hlen := hreached.suffix.length_le
        rw [List.length_cons] at hfuel hlast
        have hrest := ih hshows hreached.live
          (fun q hq => hkeys q (List.mem_cons_of_mem _ (hreached.suffix.subset hq))) (by omega) (by omega)
        rw [hnext, Option.bind_some, entries_cons_live (hlive r rfl), hreached.entries]
        refine ⟨fun hw => ?_, fun hw => ?_⟩
        · rw [hrest.1 (hreached.within.mp hw)]
          rfl
        · rw [hrest.2 (fun hc => hw (hreached.within.mpr hc))]
          rfl

variable (behind k) in
theorem Shows.seekFrom (h : Shows n it prev rows) (hw : WithinFrom prev rows) (hlive : ∀ q ∈ rows.head?, q.removed = false)
    (hkeys : ∀ q ∈ rows, q.key.length ≤ kbufferSize) (hlast : rows.length ≤ n.nhLastKey) (hfuel : rows.length ≤ fuel)
    (cmp : Int) :
    ∃ cmp' it', BucketNode.seekFrom n behind k fuel cmp it = some (cmp', it') ∧
      current it' = (entries rows).find? (fun e => decide (0 ≤ sliceCompare e.1 k)) := by
  induction fuel generalizing it prev rows cmp with
  | zero =>
    obtain rfl := List.eq_nil_of_length_eq_zero (Nat.le_zero.mp hfuel)
    exact ⟨cmp, it, seekFrom_none h.current_nil _, h.current_nil⟩
  | succ fuel ih =>
    cases rows with
    | nil => exact ⟨cmp, it, seekFrom_none h.current_nil _, h.current_nil⟩
    | cons r rows =>
      have hr := hlive r rfl
      by_cases hstop : 0 ≤ sliceCompare r.key k
      · refine ⟨_, it, seekFrom_stop h.current_cons hstop _, ?_⟩
        rw [h.current_cons, entries_cons_live hr, List.find?_cons_of_pos]
        exact decide_eq_true hstop
      · rw [seekFrom_go h.current_cons hstop]
        rcases h.1.next behind hkeys (Nat.lt_of_succ_le hlast) with ⟨-, hrow⟩ | ⟨it₁, prev', rows', hnext, hrow, hshows⟩
        · exact absurd hw (not_within_of_nextRow hrow)
        · have hreached := reached_of_nextRow hrow
          have hlen := hreached.suffix.length_le
          rw [List.length_cons] at hfuel hlast
          obtain ⟨cmp', it', hseek, hcurrent⟩ := ih hshows (hreached.within.mp hw) hreached.live
            (fun q hq => hkeys q (List.mem_cons_of_mem _ (hreached.suffix.subset hq))) (by omega) (by omega)
            (sliceCompare r.key k)
          refine ⟨cmp', it', by rw [hnext]; exact hseek, ?_⟩
          rw [hcurrent, entries_cons_live hr, hreached.entries, List.find?_cons_of_neg]
          rw [decide_eq_true_iff]
          exact hstop

/-- The iterator that has fetched the first entry is on its row. -/
theorem Holds.on_first (h : Holds n (storedFrom [] (r :: rows))) (hlength : it.kbuffer.length = kbufferSize) (e : MapEntry) :
    On n { entry := some (itemAt headSize n.nhSize 0 (r.after [])), kbuffer := it.kbuffer, hasData := true, mapEntry := e } []
      r rows := by
  refine ⟨⟨_, _, _, rfl, h.at⟩, hlength, ?_, rfl⟩
  rw [memshared_nil_left, List.take_zero, List.take_zero]

theorem Holds.begin_live (h : Holds n (storedFrom [] (r :: rows))) (hlength : it.kbuffer.length = kbufferSize)
    (hr : r.removed = false) : ∃ it', BucketNode.begin n behind it = some it' ∧ Shows n it' [] (r :: rows) := by
  have hat : At n headSize n.nhSize (r.after [] :: storedFrom r.key rows) := h.at
  have hdeleted : (itemAt headSize n.nhSize 0 (r.after [])).isDeleted = r.removed := rfl
  have hkey : n.slice (itemAt headSize n.nhSize 0 (r.after [])).keyData (itemAt headSize n.nhSize 0 (r.after [])).keySize =
      some r.key := by
    have hwhole : (r.after []).entry.key = r.key := by
      show r.key.drop _ = r.key
      rw [memshared_nil_left, List.drop_zero]
    exact hat.slice_key.trans (congrArg some hwhole)
  have hvalue : n.slice (itemAt headSize n.nhSize 0 (r.after [])).valueData
      (itemAt headSize n.nhSize 0 (r.after [])).valueSize = some r.value := hat.slice_value
  rw [BucketNode.begin, fetchFirst, hat.itemFetch, Option.bind_some]
  dsimp only
  rw [hdeleted, if_neg (Bool.eq_false_iff.mp hr), hkey, Option.bind_some, hvalue, Option.map_some]
  exact ⟨_, rfl, h.on_first hlength _, rfl⟩

variable (behind) in
/-- The first fetch, and the steps over the rows that are removed behind it. -/
theorem Holds.begin (h : Holds n (storedFrom [] rows)) (hlength : it.kbuffer.length = kbufferSize)
    (hkeys : ∀ q ∈ rows, q.key.length ≤ kbufferSize) (hlast : rows.length ≤ n.nhLastKey) :
    BucketNode.begin n behind it = none ∧ ¬ Within 0 [] rows ∨
      ∃ it' prev' rows', BucketNode.begin n behind it = some it' ∧ Shows n it' prev' rows' ∧ Reached 0 [] rows prev' rows' := by
  cases rows with
  | nil =>
    refine Or.inr ⟨{ it with hasData := false }, [], [], ?_, rfl, Iff.rfl, rfl, List.suffix_refl _, by simp⟩
    rw [BucketNode.begin, fetchFirst, h.at.itemFetch_nil]
    rfl
  | cons r rows =>
    have hwithin : Within 0 [] (r :: rows) ↔ Within (memshared [] r.key) r.key rows := by
      rw [Within, memshared_nil_left]
      exact and_iff_right (Nat.zero_le _)
    cases hr : r.removed with
    | true =>
      have hat : At n headSize n.nhSize (r.after [] :: storedFrom r.key rows) := h.at
      have hdeleted : (itemAt headSize n.nhSize 0 (r.after [])).isDeleted = r.removed := rfl
      rw [BucketNode.begin, fetchFirst, hat.itemFetch, Option.bind_some]
      dsimp only
      rw [hdeleted, if_pos hr]
      rcases (h.on_first hlength it.mapEntry).next behind hkeys (Nat.lt_of_succ_le hlast) with
        ⟨hnext, hrow⟩ | ⟨it', prev', rows', hnext, hrow, hshows⟩
      · exact Or.inl ⟨hnext, fun hw => not_within_of_nextRow hrow (hwithin.mp hw)⟩
      · obtain ⟨hreached, hentries, hsuffix, hlive⟩ := reached_of_nextRow hrow
        exact Or.inr ⟨it', prev', rows', hnext, hshows, hwithin.trans hreached, (entries_cons_removed hr rows).trans hentries,
          hsuffix.trans (List.suffix_cons r rows), hlive⟩
    | false =>
      obtain ⟨it', hbegin, hshows⟩ := h.begin_live hlength hr
      exact Or.inr ⟨it', [], r :: rows, hbegin, hshows, hwithin, rfl, List.suffix_refl _, by simpa using hr⟩

/-! ### Seeks -/

/-- A key of the buffer is never too long. -/
theorem sliceCompare_nonneg {a k : Bytes} (ha : a.length ≤ kbufferSize) (hk : k.length < 2 ^ 32) :
    0 ≤ sliceCompare a k ↔ k ≤ a ∨ MuchShorter a k := by
  have hnot : ¬ (k <+: a ∧ 2 ^ 31 ≤ a.length - k.length) := by
    rw [kbufferSize] at ha
    rintro ⟨-, hc⟩
    omega
  rw [← not_lt, sliceCompare_neg (ha.trans_lt (by decide)) hk, or_iff_left hnot, not_and_or, not_lt, not_not]

/-- A key is searched for that a much shorter one of a row that is not removed begins. -/
def Far (k : Bytes) (rows : List Row) : Prop := ∃ r ∈ rows, r.removed = false ∧ MuchShorter r.key k

theorem mem_entries {e : MapEntry} : e ∈ entries rows ↔ ∃ r ∈ rows, r.removed = false ∧ r.entry = e := by
  simp [entries, and_assoc]

theorem entries_sorted (h : rows.Pairwise (fun p q => p.key < q.key)) : (entries rows).Pairwise (fun e f => e.1 < f.1) :=
  List.pairwise_map.mpr (h.filter _)

/-- The first entry that does not compare as smaller is the first one that is not smaller. -/
theorem find_compare_iff (hsort : rows.Pairwise (fun p q => p.key < q.key)) (hkeys : ∀ q ∈ rows, q.key.length ≤ kbufferSize)
    (hk : k.length < 2 ^ 32) :
    (entries rows).find? (fun e => decide (0 ≤ sliceCompare e.1 k)) = (entries rows).find? (fun e => decide (k ≤ e.1)) ↔
      ¬ Far k rows := by
  have hcompare (e : MapEntry) (he : e ∈ entries rows) : 0 ≤ sliceCompare e.1 k ↔ k ≤ e.1 ∨ MuchShorter e.1 k := by
    obtain ⟨r, hr, -, rfl⟩ := mem_entries.mp he
    exact sliceCompare_nonneg (hkeys r hr) hk
  constructor
  · rintro heq ⟨r, hr, hlive, hfar⟩
    have hmem : r.entry ∈ entries rows := mem_entries.mpr ⟨r, hr, hlive, rfl⟩
    have hsome : ((entries rows).find? (fun e => decide (0 ≤ sliceCompare e.1 k))).isSome :=
      List.find?_isSome.mpr ⟨r.entry, hmem, decide_eq_true ((hcompare _ hmem).mpr (Or.inr hfar))⟩
    obtain ⟨e, he⟩ := Option.isSome_iff_exists.mp hsome
    obtain ⟨-, before, behind, hsplit, hbefore⟩ := List.find?_eq_some_iff_append.mp he
    have hle : e.1 ≤ r.key := by
      have hsorted := entries_sorted hsort
      rw [hsplit] at hmem hsorted
      rcases List.mem_append.mp hmem with hmem | hmem
      · have hno := hbefore _ hmem
        rw [Bool.not_eq_true', decide_eq_false_iff_not] at hno
        exact absurd ((hcompare _ (mem_entries.mpr ⟨r, hr, hlive, rfl⟩)).mpr (Or.inr hfar)) hno
      · rcases List.mem_cons.mp hmem with rfl | hmem
        · exact le_refl _
        · exact ((List.pairwise_cons.mp (List.pairwise_append.mp hsorted).2.1).1 _ hmem).le
    have hlt : r.key < k := lt_of_proper hfar.1 fun hc => by
      have hdiff := hfar.2
      rw [hc] at hdiff
      omega
    rw [heq] at he
    have hge := List.find?_some he
    rw [decide_eq_true_iff] at hge
    exact absurd hge (hle.trans_lt hlt).not_ge
  · intro hno
    refine List.find?_congr fun e he => decide_eq_decide.mpr ((hcompare e he).trans (or_iff_left ?_))
    obtain ⟨r, hr, hlive, rfl⟩ := mem_entries.mp he
    exact fun hfar => hno ⟨r, hr, hlive, hfar⟩

/-- A walk over the bucket gives the entries that are not removed, and a seek stops at the first of them that is not
smaller than the key. -/
def Iterates (n : Node) (behind : Nat → Byte) (it : Iter) (rows : List Row) (k : Bytes) : Prop :=
  walk n behind it = some (entries rows) ∧
    ∃ cmp it', seek n behind it k = some (cmp, it') ∧ current it' = (entries rows).find? (fun e => decide (k ≤ e.1))

theorem length_storedFrom (prev : Bytes) (rows : List Row) : (storedFrom prev rows).length = rows.length := by
  induction rows generalizing prev with
  | nil => rfl
  | cons r rows ih => rw [storedFrom, List.length_cons, List.length_cons, ih]

instance (k : Bytes) (rows : List Row) : Decidable (Far k rows) := inferInstanceAs (Decidable (∃ r ∈ rows, _))

/-- The iterator of a bucket with the rows. -/
theorem Holds.iterates_within (h : Holds n (storedFrom [] rows)) (hsort : rows.Pairwise (fun p q => p.key < q.key))
    (hkeys : ∀ q ∈ rows, q.key.length ≤ kbufferSize) (hlength : it.kbuffer.length = kbufferSize) (hk : k.length < 2 ^ 32) :
    Iterates n behind it rows k ↔ Within 0 [] rows ∧ ¬ Far k rows := by
  have hlast : rows.length ≤ n.nhLastKey := by
    have hle := length_le_keyArea (storedFrom [] rows)
    rw [length_storedFrom] at hle
    rw [h.lastKey]
    omega
  rcases h.begin behind hlength hkeys hlast with ⟨hbegin, hnot⟩ | ⟨it', prev', rows', hbegin, hshows, hreached⟩
  · refine iff_of_false ?_ (fun hc => hnot hc.1)
    rintro ⟨hwalk, -⟩
    rw [walk, hbegin] at hwalk
    cases hwalk
  · have hlen := hreached.suffix.length_le.trans hlast
    have hkeys' : ∀ q ∈ rows', q.key.length ≤ kbufferSize := fun q hq => hkeys q (hreached.suffix.subset hq)
    have hwalk := hshows.walkFrom behind hreached.live hkeys' hlen hlen
    by_cases hw : WithinFrom prev' rows'
    · obtain ⟨cmp', it₂, hseek, hcurrent⟩ := hshows.seekFrom behind k hw hreached.live hkeys' hlen hlen 1
      rw [and_iff_right (hreached.within.mpr hw), ← find_compare_iff hsort hkeys hk, Iterates, walk, hbegin, Option.bind_some,
        hwalk.1 hw, hreached.entries, and_iff_right rfl, seek, hbegin, Option.bind_some, hseek]
      constructor
      · rintro ⟨cmp, it₃, heq, hfirst⟩
        obtain ⟨-, rfl⟩ := Prod.mk.inj (Option.some.inj heq)
        exact hcurrent.symm.trans hfirst
      · intro heq
        exact ⟨_, _, rfl, hcurrent.trans heq⟩
    · refine iff_of_false ?_ (fun hc => hw (hreached.within.mp hc.1))
      rintro ⟨hall, -⟩
      rw [walk, hbegin, Option.bind_some, hwalk.2 hw] at hall
      cases hall

/-- The iterator of a bucket of keys in order is right iff no two prefixes of neighbours overrun the buffer, and the
key of a seek has no beginning that is much shorter. -/
theorem iterates_iff {size : Nat} (hsize : size < 2 ^ 32) (hkeys : ∀ q ∈ rows, q.key.length ≤ kbufferSize)
    (hsort : rows.Pairwise (fun p q => p.key < q.key)) (hfit : headSize + used (storedFrom [] rows) ≤ size) :
    ∃ n, build size rows = some n ∧ ∀ behind it k, it.kbuffer.length = kbufferSize → k.length < 2 ^ 32 →
      (Iterates n behind it rows k ↔ Within 0 [] rows ∧ ¬ Far k rows) := by
  obtain ⟨n, hbuild, hholds⟩ := build_holds hsize (fun q hq => (hkeys q hq).trans_lt (by decide)) hfit
  exact ⟨n, hbuild, fun behind it k hlength hk => hholds.iterates_within hsort hkeys hlength hk⟩

def openIter : Iter :=
  { entry := none, kbuffer := List.replicate kbufferSize 0, hasData := false, mapEntry := ([], ⟨[], false⟩) }

/-- Three keys, where the second one is removed. -/
theorem iterates_iff_small : ∃ n, build 64 [⟨[97], [1], false⟩, ⟨[97, 98], [2], true⟩, ⟨[97, 98, 99], [3], false⟩] = some n ∧
    ∀ behind, Iterates n behind openIter [⟨[97], [1], false⟩, ⟨[97, 98], [2], true⟩, ⟨[97, 98, 99], [3], false⟩] [97, 98] := by
  obtain ⟨n, hbuild, hiter⟩ := @iterates_iff [⟨[97], [1], false⟩, ⟨[97, 98], [2], true⟩, ⟨[97, 98, 99], [3], false⟩] 64
    (by decide) (by decide) (by decide +kernel) (by decide)
  exact ⟨n, hbuild, fun behind => (hiter behind openIter [97, 98] List.length_replicate (by decide)).mpr
    ⟨by decide +kernel, by decide +kernel⟩⟩

/-- Keys of 65, 66 and 67 bytes, each one the next one's beginning. -/
def longRows : List Row := [65, 66, 67].map (fun i => ⟨List.replicate i 97, [], false⟩)

/-- The 66 shared bytes are copied behind the 65 of the key before. -/
theorem buffer_overrun : ∃ n, build 256 longRows = some n ∧ ¬ Iterates n (fun _ => 0) openIter longRows [97] := by
  have hwalk : (build 256 longRows).map (fun n => (walk n (fun _ => 0) openIter).isSome) = some false := by
    decide +kernel
  obtain ⟨n, hbuild, hnone⟩ := Option.map_eq_some_iff.mp hwalk
  refine ⟨n, hbuild, ?_⟩
  rintro ⟨hall, -⟩
  rw [hall] at hnone
  cases hnone

/-! ### The iterator of the bucket of the entries -/

/-- An iterator of a node shows what one of the entries does, and steps as it does until that one is at its end. -/
inductive Mirrors (n : Node) (behind : Nat → Byte) : Iter → MapIterator → Prop where
  | done {it : Iter} (h : current it = none) : Mirrors n behind it { rest := [], fault := false }
  | overrun {it : Iter} {e : MapEntry} (h : current it = some e) (hnext : next n behind n.nhLastKey it = none) :
    Mirrors n behind it { rest := [e], fault := true }
  | next {it it' : Iter} {e : MapEntry} {rest : List MapEntry} {fault : Bool} (h : current it = some e)
    (hnext : next n behind n.nhLastKey it = some it') (hrest : Mirrors n behind it' { rest := rest, fault := fault }) :
    Mirrors n behind it { rest := e :: rest, fault := fault }

variable {m : MapIterator}

theorem Mirrors.current_eq (h : Mirrors n behind it m) : current it = m.rest.head? := by
  cases h with
  | done h => exact h
  | overrun h => exact h
  | next h => exact h

/-- An iterator that cannot step over its last entry has one. -/
theorem Mirrors.rest_ne_nil (h : Mirrors n behind it m) (hfault : m.fault = true) : m.rest ≠ [] := by
  cases h with
  | done => cases hfault
  | overrun => exact List.cons_ne_nil _ _
  | next => exact List.cons_ne_nil _ _

/-- The two step alike. -/
theorem Mirrors.step (h : Mirrors n behind it m) (hne : m.rest ≠ []) :
    BucketNode.next n behind n.nhLastKey it = none ∧ m.next = none ∨
      ∃ it' m', BucketNode.next n behind n.nhLastKey it = some it' ∧ m.next = some m' ∧ Mirrors n behind it' m' := by
  cases h with
  | done => exact absurd rfl hne
  | overrun h hnext => exact Or.inl ⟨hnext, rfl⟩
  | @next it it' e rest fault h hnext hrest =>
    refine Or.inr ⟨it', _, hnext, if_neg ?_, hrest⟩
    rintro ⟨hone, hfault⟩
    refine hrest.rest_ne_nil hfault (List.eq_nil_of_length_eq_zero ?_)
    exact Nat.succ.inj hone

def rowOf (p : Bytes × Bytes) : Row := { key := p.1, value := p.2, removed := false }

theorem storedFrom_rowOf (prev : Bytes) (l : List (Bytes × Bytes)) :
    storedFrom prev (l.map rowOf) = (encodeFrom prev l).map fresh := by
  induction l generalizing prev with
  | nil => rfl
  | cons p l ih =>
    rw [List.map_cons, storedFrom, ih]
    rfl

variable {p : Bytes × Bytes} {l : List (Bytes × Bytes)}

/-- The iterator of the entries steps to an entry whose key is short of the buffer as long as the two prefixes are. -/
theorem iterFrom_entryAfter {shared : Nat} (hshared : shared ≤ kbufferSize) (hq : p.1.length ≤ kbufferSize) (k : Bytes)
    (b : Bucket) : iterFrom k shared (entryAfter k p :: b) =
      if shared + memshared k p.1 ≤ kbufferSize then
        { rest := (p.1, ⟨p.2, false⟩) :: (iterFrom p.1 (memshared k p.1) b).rest
          fault := (iterFrom p.1 (memshared k p.1) b).fault }
      else { rest := [], fault := true } := by
  have hle := memshared_le_right k p.1
  have hkey : (entryAfter k p).key.length = p.1.length - memshared k p.1 := List.length_drop
  have hprefix : BucketEntry.kprefix (entryAfter k p) = memshared k p.1 := rfl
  rw [iterFrom, take_append_entryAfter, hkey, hprefix]
  by_cases hfit : shared + memshared k p.1 ≤ kbufferSize
  · rw [if_pos hfit, if_neg (by omega)]
    rfl
  · rw [if_neg hfit, if_pos (by omega)]

variable (behind) in
/-- An iterator on a row goes on as the one of the entries does. -/
theorem Shows.mirrors (h : Shows n it prev ((p :: l).map rowOf)) (hkeys : ∀ q ∈ p :: l, q.1.length ≤ kbufferSize)
    (hlast : l.length < n.nhLastKey) :
    Mirrors n behind it { rest := (p.1, ⟨p.2, false⟩) :: (iterFrom p.1 (memshared prev p.1) (encodeFrom p.1 l)).rest,
                          fault := (iterFrom p.1 (memshared prev p.1) (encodeFrom p.1 l)).fault } := by
  have hrows : ∀ q ∈ (p :: l).map rowOf, q.key.length ≤ kbufferSize := List.forall_mem_map.mpr hkeys
  induction l generalizing it prev p with
  | nil =>
    rcases h.1.next behind hrows hlast with ⟨-, hrow⟩ | ⟨it', prev', rows', hnext, hrow, hshows⟩
    · cases hrow
    · cases hrow
      exact .next h.current_cons hnext (.done hshows.current_nil)
  | cons q l ih =>
    have hp := hkeys p List.mem_cons_self
    have hq := hkeys q (List.mem_cons_of_mem _ List.mem_cons_self)
    have hstep := h.1.next behind hrows (by rwa [List.length_map])
    rw [List.map_cons, nextRow] at hstep
    rw [encodeFrom, iterFrom_entryAfter ((memshared_le_right prev p.1).trans hp) hq]
    by_cases hfit : memshared prev p.1 + memshared p.1 q.1 ≤ kbufferSize
    · rw [if_pos hfit]
      rw [if_pos (show memshared prev (rowOf p).key + memshared (rowOf p).key (rowOf q).key ≤ kbufferSize from hfit)] at hstep
      rcases hstep with ⟨-, hrow⟩ | ⟨it', prev', rows', hnext, hrow, hshows⟩
      · cases hrow
      · cases hrow
        exact .next h.current_cons hnext (ih hshows (fun q hq => hkeys q (List.mem_cons_of_mem _ hq))
          (Nat.lt_of_succ_lt hlast) (List.forall_mem_map.mpr fun q hq => hkeys q (List.mem_cons_of_mem _ hq)))
    · rw [if_neg hfit]
      rw [if_neg (show ¬ memshared prev (rowOf p).key + memshared (rowOf p).key (rowOf q).key ≤ kbufferSize from hfit)] at hstep
      rcases hstep with ⟨hnext, -⟩ | ⟨it', prev', rows', -, hrow, -⟩
      · exact .overrun h.current_cons hnext
      · cases hrow

/-- A seek ends at the first entry that is not smaller than the key, or at a fault behind all entries. -/
def Stops (n : Node) (behind : Nat → Byte) (k : Bytes) (result : Option (Int × Iter)) (m : MapIterator) : Prop :=
  result = none ∧ m.rest.dropWhile (fun e => decide (e.1 < k)) = [] ∧ m.fault = true ∨
    ¬ (m.rest.dropWhile (fun e => decide (e.1 < k)) = [] ∧ m.fault = true) ∧
      ∃ r, result = some r ∧ Mirrors n behind r.2 { m with rest := m.rest.dropWhile (fun e => decide (e.1 < k)) }

theorem Mirrors.seekFrom (h : Mirrors n behind it m) (hkeys : ∀ e ∈ m.rest, e.1.length ≤ kbufferSize)
    (hk : k.length ≤ 2 ^ 31) (hfuel : m.rest.length ≤ fuel) (cmp : Int) :
    Stops n behind k (BucketNode.seekFrom n behind k fuel cmp it) m := by
  have hcompare (e : MapEntry) (he : e.1.length ≤ kbufferSize) : 0 ≤ sliceCompare e.1 k ↔ ¬ e.1 < k := by
    rw [sliceCompare_nonneg he (by omega), not_lt, or_iff_left]
    exact fun hc => absurd hc.2 (by omega)
  induction h generalizing fuel cmp with
  | done h => exact Or.inr ⟨by simp, _, seekFrom_none h cmp, .done h⟩
  | @overrun it e h hnext =>
    have he := hcompare e (hkeys e List.mem_cons_self)
    by_cases hlt : e.1 < k
    · obtain ⟨fuel, rfl⟩ := Nat.exists_eq_succ_of_ne_zero (Nat.ne_of_gt hfuel)
      have hdrop : [e].dropWhile (fun e => decide (e.1 < k)) = [].dropWhile (fun e => decide (e.1 < k)) :=
        List.dropWhile_cons_of_pos (decide_eq_true hlt)
      refine Or.inl ⟨?_, hdrop, rfl⟩
      rw [seekFrom_go h (fun hc => he.mp hc hlt), hnext]
      rfl
    · have hdrop : [e].dropWhile (fun e => decide (e.1 < k)) = [e] := List.dropWhile_cons_of_neg (by simpa using hlt)
      rw [Stops, hdrop]
      exact Or.inr ⟨by simp, _, seekFrom_stop h (he.mpr hlt) cmp, .overrun h hnext⟩
  | @next it it' e rest fault h hnext hrest ih =>
    have he := hcompare e (hkeys e List.mem_cons_self)
    by_cases hlt : e.1 < k
    · obtain ⟨fuel, rfl⟩ := Nat.exists_eq_succ_of_ne_zero (Nat.ne_of_gt (Nat.zero_lt_of_lt hfuel))
      have hdrop : (e :: rest).dropWhile (fun e => decide (e.1 < k)) = rest.dropWhile (fun e => decide (e.1 < k)) :=
        List.dropWhile_cons_of_pos (decide_eq_true hlt)
      rw [Stops, seekFrom_go h (fun hc => he.mp hc hlt), hnext, Option.bind_some, hdrop]
      exact ih (fun e he => hkeys e (List.mem_cons_of_mem _ he)) (Nat.le_of_succ_le_succ hfuel) _
    · have hdrop : (e :: rest).dropWhile (fun e => decide (e.1 < k)) = e :: rest :=
        List.dropWhile_cons_of_neg (by simpa using hlt)
      rw [Stops, hdrop]
      exact Or.inr ⟨by simp, _, seekFrom_stop h (he.mpr hlt) cmp, .next h hnext hrest⟩
/-- A node answers as a bucket does. -/
structure Refines (n : Node) (b : Bucket) : Prop where
  search : ∀ past behind k, ∃ result value, bucketSearch n past behind k = some (result, value) ∧
    Zcl.bucketSearch past b k = if result = 0 then value else none
  begin : ∀ behind (it : Iter), it.kbuffer.length = kbufferSize →
    ∃ it', BucketNode.begin n behind it = some it' ∧ Mirrors n behind it' (bucketIter b)
  seek : ∀ behind (it : Iter) k, it.kbuffer.length = kbufferSize → k.length ≤ 2 ^ 31 →
    Stops n behind k (BucketNode.seek n behind it k) (bucketIter b)

/-- A node that is filled with the keys and values answers as the bucket that holds them. -/
theorem build_refines {size : Nat} (hsize : size < 2 ^ 32) (hkeys : ∀ q ∈ l, q.1.length ≤ kbufferSize)
    (hfit : headSize + used ((encode l).map fresh) ≤ size) : ∃ n, build size (l.map rowOf) = some n ∧ Refines n (encode l) := by
  have hrows : ∀ q ∈ l.map rowOf, q.key.length ≤ kbufferSize := List.forall_mem_map.mpr hkeys
  have hstored : storedFrom [] (l.map rowOf) = (encode l).map fresh := storedFrom_rowOf [] l
  obtain ⟨n, hbuild, hholds⟩ := build_holds hsize (fun q hq => (hrows q hq).trans_lt (by decide)) (hstored ▸ hfit)
  have hlast : l.length ≤ n.nhLastKey := by
    have hle := length_le_keyArea (storedFrom [] (l.map rowOf))
    rw [length_storedFrom, List.length_map] at hle
    rw [hholds.lastKey]
    omega
  have hbegin (behind : Nat → Byte) (it : Iter) (hlength : it.kbuffer.length = kbufferSize) :
      ∃ it', BucketNode.begin n behind it = some it' ∧ Mirrors n behind it' (bucketIter (encode l)) := by
    cases l with
    | nil =>
      refine ⟨{ it with hasData := false }, ?_, .done rfl⟩
      rw [BucketNode.begin, fetchFirst, hholds.at.itemFetch_nil]
      rfl
    | cons p l =>
      obtain ⟨it', hbegin, hshows⟩ := hholds.begin_live hlength rfl
      have hmirrors := hshows.mirrors behind hkeys (Nat.lt_of_succ_le hlast)
      rw [memshared_nil_left] at hmirrors
      rw [encode, encodeFrom, entryAfter_nil]
      exact ⟨it', hbegin, hmirrors⟩
  refine ⟨n, hbuild, fun past behind k => (hstored ▸ hholds).bucketSearch_eq past behind k, hbegin, ?_⟩
  intro behind it k hlength hk
  obtain ⟨it', hfirst, hmirrors⟩ := hbegin behind it hlength
  have hrest := bucketIter_prefix l
  rw [BucketNode.seek, hfirst, Option.bind_some]
  refine hmirrors.seekFrom (fun e he => ?_) hk (hrest.length_le.trans (by rwa [List.length_map])) 1
  obtain ⟨q, hq, rfl⟩ := List.mem_map.mp (hrest.subset he)
  exact hkeys q hq

end RaleighSL.Zcl.BucketNode
