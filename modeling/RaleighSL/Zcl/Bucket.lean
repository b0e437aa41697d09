import RaleighSL.Zcl.Coding.Int

/-!
# Prefix-compressed buckets

`zcl/tools/bucket`: a bucket is a sequence of entries. An entry stores how many
bytes its key shares with the key before it, the rest of its key and its value.
The head byte of an entry packs the widths of its three lengths; it lies right
behind the key of the entry before it, where the search may read it.

No entry of a bucket is ever marked deleted in the code that uses this one, so
the mark is left out. `Bucket/Search` and `Bucket/Iterator` show that the bytes of
a node with the same entries are searched and walked alike.
-/
namespace RaleighSL.Zcl
open RaleighSL.Library Coding

def memshared : Bytes → Bytes → Nat
  | a :: l, b :: m => if a = b then memshared l m + 1 else 0
  | _, _ => 0

structure BucketEntry where
  kprefix : Nat
  key : Bytes
  value : Bytes
  deriving DecidableEq, Repr

abbrev Bucket := List BucketEntry

namespace BucketEntry

/-- Widths of the prefix, key and value lengths. A prefix of length zero takes no byte. -/
def widths (e : BucketEntry) : Nat × Nat × Nat :=
  (if 0 < e.kprefix then uint32Size e.kprefix else 0, uint32Size e.key.length, uint32Size e.value.length)

/-- `(length[0] << 5) | ((length[1] - 1) << 3) | ((length[2] - 1) << 1)`. -/
def headByte (e : BucketEntry) : Nat := e.widths.1 * 32 + (e.widths.2.1 - 1) * 8 + (e.widths.2.2 - 1) * 2

def size (e : BucketEntry) : Nat :=
  1 + e.widths.1 + e.widths.2.1 + e.widths.2.2 + e.key.length + e.value.length

end BucketEntry

/-- The byte at an offset from the start of an entry's key: behind the key lies the head of the
next entry, or unused space. -/
def keyByte (e : BucketEntry) (next : Option BucketEntry) (i : Nat) : Nat :=
  match e.key[i]?, next with
  | some b, _ => b
  | none, some e' => e'.headByte
  | none, none => 0

/-- The byte at an offset of the key searched for; `past` is the one behind its end. -/
def searchByte (past : Byte) (k : Bytes) (i : Nat) : Nat :=
  match k[i]? with
  | some b => b
  | none => past

/-- The loop of `__bucket_search`: `koffset` bytes of the key are known to be shared with the
last entry compared, `k` are the others. -/
def searchFrom (usePrefix : Bool) (past : Byte) : Bucket → Nat → Bytes → Option Bytes
  | [], _, _ => none
  | e :: rest, koffset, k =>
    if koffset < e.kprefix then searchFrom usePrefix past rest koffset k
    else if e.kprefix < koffset then none
    else
      if memshared e.key k = k.length ∧ e.key.length = k.length then some e.value
      else if searchByte past k (memshared e.key k) < keyByte e rest.head? (memshared e.key k) then none
      else if usePrefix then
        searchFrom usePrefix past rest (koffset + memshared e.key k) (k.drop (memshared e.key k))
      else searchFrom usePrefix past rest koffset k

/-- `z_bucket_search`, as far as it reports a value. -/
def bucketSearch (past : Byte) (b : Bucket) (k : Bytes) : Option Bytes :=
  searchFrom (b.any (fun e => 0 < e.kprefix)) past b 0 k

def kbufferSize : Nat := 128

/-- The entries that `__bucket_iter_next` reaches from a current key and prefix length. It copies
`kprefix` bytes behind the current prefix in its key buffer before it adds the rest of the key. -/
def iterFrom : Bytes → Nat → Bucket → MapIterator
  | _, _, [] => { rest := [], fault := false }
  | k, p, e :: rest =>
    if 0 < e.kprefix ∧ (kbufferSize < p + e.kprefix ∨ kbufferSize < e.kprefix + e.key.length) then
      { rest := [], fault := true }
    else
      { rest := (k.take e.kprefix ++ e.key, ⟨e.value, false⟩) ::
          (iterFrom (k.take e.kprefix ++ e.key) e.kprefix rest).rest
        fault := (iterFrom (k.take e.kprefix ++ e.key) e.kprefix rest).fault }

/-- `__bucket_iter_begin`. -/
def bucketIter : Bucket → MapIterator
  | [] => { rest := [], fault := false }
  | e :: rest =>
    { rest := (e.key, ⟨e.value, false⟩) :: (iterFrom e.key e.kprefix rest).rest
      fault := (iterFrom e.key e.kprefix rest).fault }

def firstKey : Bucket → Bytes
  | [] => []
  | e :: _ => e.key

/-! ### Shared prefixes -/

theorem memshared_nil_left (b : Bytes) : memshared [] b = 0 := rfl

theorem memshared_nil_right (a : Bytes) : memshared a [] = 0 := by
  cases a <;> rfl

theorem memshared_cons (x y : Byte) (a b : Bytes) :
    memshared (x :: a) (y :: b) = if x = y then memshared a b + 1 else 0 := rfl

theorem le_memshared_iff {a b : Bytes} {n : Nat} :
    n ≤ memshared a b ↔ n ≤ a.length ∧ n ≤ b.length ∧ a.take n = b.take n := by
  induction n generalizing a b with
  | zero => simp
  | succ n ih =>
    cases a with
    | nil => simp [memshared_nil_left]
    | cons x a =>
      cases b with
      | nil => simp [memshared_nil_right]
      | cons y b =>
        rw [memshared_cons, List.take_succ_cons, List.take_succ_cons, List.cons.injEq, List.length_cons, List.length_cons]
        by_cases hxy : x = y
        · rw [if_pos hxy, Nat.add_le_add_iff_right, Nat.add_le_add_iff_right, Nat.add_le_add_iff_right, ih]
          exact ⟨fun h => ⟨h.1, h.2.1, hxy, h.2.2⟩, fun h => ⟨h.1, h.2.1, h.2.2.2⟩⟩
        · rw [if_neg hxy]
          exact ⟨fun h => absurd h (Nat.not_succ_le_zero n), fun h => absurd h.2.2.1 hxy⟩

theorem memshared_le_left (a b : Bytes) : memshared a b ≤ a.length := (le_memshared_iff.mp le_rfl).1

theorem memshared_le_right (a b : Bytes) : memshared a b ≤ b.length := (le_memshared_iff.mp le_rfl).2.1

theorem take_memshared (a b : Bytes) : a.take (memshared a b) = b.take (memshared a b) :=
  (le_memshared_iff.mp le_rfl).2.2

theorem memshared_comm (a b : Bytes) : memshared a b = memshared b a := by
  refine eq_of_forall_le_iff (fun n => ?_)
  rw [le_memshared_iff, le_memshared_iff]
  exact ⟨fun h => ⟨h.2.1, h.1, h.2.2.symm⟩, fun h => ⟨h.2.1, h.1, h.2.2.symm⟩⟩

theorem le_memshared {p a b : Bytes} {n : Nat} (ha : n ≤ memshared p a) (hb : n ≤ memshared p b) :
    n ≤ memshared a b := by
  rw [le_memshared_iff] at ha hb ⊢
  exact ⟨ha.2.1, hb.2.1, ha.2.2.symm.trans hb.2.2⟩

/-- Two keys that part from a third one at different places share what the nearer one shares. -/
theorem memshared_of_lt {p a b : Bytes} (h : memshared p b < memshared p a) :
    memshared a b = memshared p b := by
  apply le_antisymm
  · by_contra hlt
    have hpa : memshared p b + 1 ≤ memshared a p := memshared_comm p a ▸ h
    exact absurd (le_memshared hpa (not_le.mp hlt)) (Nat.not_succ_le_self _)
  · exact le_memshared h.le le_rfl

theorem memshared_drop {a b : Bytes} {n : Nat} (h : n ≤ memshared a b) :
    memshared (a.drop n) (b.drop n) + n = memshared a b := by
  induction n generalizing a b with
  | zero => simp
  | succ n ih =>
    cases a with
    | nil => simp [memshared_nil_left] at h
    | cons x a =>
      cases b with
      | nil => simp [memshared_nil_right] at h
      | cons y b =>
        by_cases hxy : x = y
        · subst hxy
          simp only [memshared_cons, if_true] at h ⊢
          simp only [List.drop_succ_cons]
          rw [← ih (a := a) (b := b) (by omega)]
          omega
        · simp [memshared_cons, hxy] at h

theorem memshared_eq_length_iff {a b : Bytes} : memshared a b = a.length ↔ a <+: b := by
  constructor
  · intro h
    rw [List.prefix_iff_eq_take, ← h, ← take_memshared, h, List.take_length]
  · rintro ⟨c, rfl⟩
    refine (memshared_le_left a _).antisymm (le_memshared_iff.mpr ⟨le_rfl, ?_, ?_⟩)
    · rw [List.length_append]
      exact Nat.le_add_right _ _
    · rw [List.take_left', List.take_length]
      rfl

/-- Keys in order part at a smaller byte, or the first one is a prefix of the second. -/
theorem lt_iff_memshared {a b : Bytes} : a < b ↔
    (memshared a b = a.length ∧ a.length < b.length) ∨
      ∃ (ha : memshared a b < a.length) (hb : memshared a b < b.length),
        a[memshared a b] < b[memshared a b] := by
  induction a generalizing b with
  | nil => cases b <;> simp [memshared_nil_left]
  | cons x a ih =>
    cases b with
    | nil => simp [memshared_nil_right]
    | cons y b =>
      rw [List.cons_lt_cons_iff]
      by_cases hxy : x = y
      · subst hxy
        simp [memshared_cons, ih]
      · simp [memshared_cons, hxy]

/-! ### Buckets filled in key order -/

/-- The entry of a key that follows another one. -/
def entryAfter (prev : Bytes) (p : Bytes × Bytes) : BucketEntry :=
  { kprefix := memshared prev p.1, key := p.1.drop (memshared prev p.1), value := p.2 }

def encodeFrom : Bytes → List (Bytes × Bytes) → Bucket
  | _, [] => []
  | prev, p :: l => entryAfter prev p :: encodeFrom p.1 l

def encode (l : List (Bytes × Bytes)) : Bucket := encodeFrom [] l

@[simp] theorem entryAfter_nil (p : Bytes × Bytes) : entryAfter [] p = ⟨0, p.1, p.2⟩ := by
  rw [entryAfter, memshared_nil_left, List.drop_zero]

theorem firstKey_encode (p : Bytes × Bytes) (l : List (Bytes × Bytes)) : firstKey (encode (p :: l)) = p.1 := by
  simp [encode, encodeFrom, firstKey]

theorem take_append_entryAfter (prev : Bytes) (p : Bytes × Bytes) :
    prev.take ( BucketEntry.kprefix (entryAfter prev p)) ++ (entryAfter prev p).key = p.1 := by
  simp only [entryAfter]
  rw [take_memshared, List.take_append_drop]

/-- The keys and values of a bucket, each key put together from the one before it. -/
def decodeFrom : Bytes → Bucket → List (Bytes × Bytes)
  | _, [] => []
  | prev, e :: b => (prev.take e.kprefix ++ e.key, e.value) :: decodeFrom (prev.take e.kprefix ++ e.key) b

def decode (b : Bucket) : List (Bytes × Bytes) := decodeFrom [] b

theorem decodeFrom_encodeFrom (prev : Bytes) (l : List (Bytes × Bytes)) : decodeFrom prev (encodeFrom prev l) = l := by
  induction l generalizing prev with
  | nil => rfl
  | cons p l ih =>
    rw [encodeFrom, decodeFrom, take_append_entryAfter, ih]
    rfl

@[simp] theorem decode_encode (l : List (Bytes × Bytes)) : decode (encode l) = l := decodeFrom_encodeFrom [] l

/-- As long as its key buffer is not overrun, the iterator returns the keys and values stored. -/
theorem iterFrom_encodeFrom (prev : Bytes) (n : Nat) (l : List (Bytes × Bytes))
    (h : (iterFrom prev n (encodeFrom prev l)).fault = false) :
    (iterFrom prev n (encodeFrom prev l)).rest = l.map (fun p => (p.1, ⟨p.2, false⟩)) := by
  induction l generalizing prev n with
  | nil => rfl
  | cons p l ih =>
    rw [encodeFrom, iterFrom] at h ⊢
    split_ifs at h ⊢ with hc
    simp only [take_append_entryAfter] at h ⊢
    rw [ih p.1 _ h]
    rfl

theorem bucketIter_encode {l : List (Bytes × Bytes)} (h : (bucketIter (encode l)).fault = false) :
    (bucketIter (encode l)).rest = l.map (fun p => (p.1, ⟨p.2, false⟩)) := by
  cases l with
  | nil => rfl
  | cons p l =>
    simp only [encode, encodeFrom, bucketIter, entryAfter_nil] at h ⊢
    rw [iterFrom_encodeFrom p.1 0 l h]
    rfl

theorem iterFrom_prefix (prev : Bytes) (n : Nat) (l : List (Bytes × Bytes)) :
    (iterFrom prev n (encodeFrom prev l)).rest <+: l.map (fun p => (p.1, ⟨p.2, false⟩)) := by
  induction l generalizing prev n with
  | nil => simp [encodeFrom, iterFrom]
  | cons p l ih =>
    rw [encodeFrom, iterFrom]
    split_ifs
    · exact List.nil_prefix
    · simp only [take_append_entryAfter, List.map_cons]
      exact (List.prefix_cons_inj _).mpr (ih p.1 _)

/-- What the iterator returns before it faults is a beginning of what is stored. -/
theorem bucketIter_prefix (l : List (Bytes × Bytes)) :
    (bucketIter (encode l)).rest <+: l.map (fun p => (p.1, ⟨p.2, false⟩)) := by
  cases l with
  | nil => simp [encode, encodeFrom, bucketIter]
  | cons p l =>
    simp only [encode, encodeFrom, bucketIter, entryAfter_nil, List.map_cons]
    apply (List.prefix_cons_inj _).mpr
    exact iterFrom_prefix p.1 0 l

/-! ### Searching a bucket -/

/-- A stored key that is a proper prefix of the key searched for ends the search early: the byte
behind it is the head of the next entry, and that is taken for a larger key byte. -/
def Misled (k : Bytes) : List (Bytes × Bytes) → Prop
  | p :: q :: l =>
    (p.1 <+: k ∧ p.1 ≠ k ∧ searchByte 0 k p.1.length < (entryAfter p.1 q).headByte) ∨ Misled k (q :: l)
  | _ => False

instance decidableMisled (k : Bytes) : (l : List (Bytes × Bytes)) → Decidable (Misled k l)
  | [] => .isFalse id
  | [_] => .isFalse id
  | p :: q :: l =>
    have := decidableMisled k (q :: l)
    inferInstanceAs (Decidable ((p.1 <+: k ∧ _ ∧ _) ∨ Misled k (q :: l)))

/-- What a later key has in place of a longer shared prefix is larger. -/
theorem lt_of_memshared_lt {p a b : Bytes} (h : p < a) (hs : memshared p a < memshared p b) : b < a := by
  have hba : memshared b a = memshared p a := memshared_of_lt hs
  rw [lt_iff_memshared] at h
  rcases h with ⟨h, -⟩ | ⟨hp, ha, hlt⟩
  · exact absurd (hs.trans_le (memshared_le_left p b)) (by omega)
  · have hb : memshared p a < b.length := hs.trans_le (memshared_le_right p b)
    have htake := take_memshared p b
    have hget : p[memshared p a] = b[memshared p a] := by
      have := congrArg (fun l => l[memshared p a]?) htake
      simpa [List.getElem?_take, hs, hp, hb] using this
    rw [lt_iff_memshared]
    right
    refine ⟨by omega, by omega, ?_⟩
    simp only [hba]
    rw [← hget]
    exact hlt

theorem eq_of_drop {a b : Bytes} {n : Nat} (hn : n ≤ memshared a b)
    (h : memshared (a.drop n) (b.drop n) = (b.drop n).length ∧ (a.drop n).length = (b.drop n).length) :
    a = b := by
  have hpre : (a.drop n) <+: (b.drop n) := memshared_eq_length_iff.mp (h.1.trans h.2.symm)
  have heq : a.drop n = b.drop n := hpre.eq_of_length h.2
  have htake : a.take n = b.take n := by
    have := congrArg (List.take n) (take_memshared a b)
    simpa [List.take_take, min_eq_left hn] using this
  rw [← List.take_append_drop n a, ← List.take_append_drop n b, htake, heq]

theorem searchByte_drop (past : Byte) (k : Bytes) (n i : Nat) :
    searchByte past (k.drop n) i = searchByte past k (n + i) := by
  simp [searchByte, List.getElem?_drop]

theorem searchByte_of_lt (past : Byte) {k : Bytes} {i : Nat} (h : i < k.length) :
    searchByte past k i = k[i] := by
  simp [searchByte, List.getElem?_eq_getElem h]

/-- A hit is an entry with the key searched for, whatever lies behind that key in memory. -/
theorem searchFrom_sound (past : Byte) {u : Bool} {prev k v : Bytes} {n : Nat} {l : List (Bytes × Bytes)}
    (hu : u = true → n = memshared prev k) (hn : u = false → n = 0)
    (h : searchFrom u past (encodeFrom prev l) n (k.drop n) = some v) : (k, v) ∈ l := by
  induction l generalizing prev n with
  | nil => simp [encodeFrom, searchFrom] at h
  | cons p l ih =>
    have hshare (heq : memshared prev p.1 = n) : n ≤ memshared p.1 k := by
      cases u with
      | true => exact le_memshared heq.ge (hu rfl).le
      | false => simp [hn rfl]
    rw [encodeFrom, searchFrom] at h
    split_ifs at h with hlt hgt hfound hbyte hpre
    · refine List.mem_cons_of_mem _ (ih ?_ hn h)
      intro hu'
      rw [hu hu'] at hlt ⊢
      exact (memshared_of_lt hlt).symm
    · have heq : memshared prev p.1 = n := le_antisymm (not_lt.mp hlt) (not_lt.mp hgt)
      simp only [entryAfter, heq] at hfound h
      have hkey : p.1 = k := eq_of_drop (hshare heq) hfound
      rw [← hkey, ← Option.some.inj h]
      exact List.mem_cons_self
    · have heq : memshared prev p.1 = n := le_antisymm (not_lt.mp hlt) (not_lt.mp hgt)
      simp only [entryAfter, heq, List.drop_drop] at h
      refine List.mem_cons_of_mem _ (ih (fun _ => ?_) (fun hu' => ?_) h)
      · rw [Nat.add_comm]
        exact memshared_drop (hshare heq)
      · rw [hu'] at hpre
        exact absurd hpre (by simp)
    · refine List.mem_cons_of_mem _ (ih (fun hu' => absurd hu' hpre) hn h)

/-- An entry is found unless a proper prefix of its key misleads the search. -/
theorem searchFrom_complete (past : Byte) {u : Bool} {prev k v : Bytes} {n : Nat} {l : List (Bytes × Bytes)}
    (hu : u = true → n = memshared prev k) (hn : u = false → n = 0)
    (h0 : u = false → ∀ e ∈ encodeFrom prev l, e.kprefix = 0)
    (hprev : n = 0 ∨ ∀ p ∈ l, prev < p.1) (hsort : l.Pairwise (fun p q => p.1 < q.1)) (hk : (k, v) ∈ l)
    (hm : ¬ Misled k l) : searchFrom u past (encodeFrom prev l) n (k.drop n) = some v := by
  induction l generalizing prev n with
  | nil => simp at hk
  | cons p l ih =>
    rw [List.pairwise_cons] at hsort
    have hshare (heq : memshared prev p.1 = n) : n ≤ memshared p.1 k := by
      cases u with
      | true => exact le_memshared heq.ge (hu rfl).le
      | false => simp [hn rfl]
    have hm' : ¬ Misled k l := by
      cases l with
      | nil => exact id
      | cons q l => exact fun hc => hm (Or.inr hc)
    have h0' (hu' : u = false) (e : BucketEntry) (he : e ∈ encodeFrom p.1 l) : e.kprefix = 0 :=
      h0 hu' e (List.mem_cons_of_mem _ he)
    rw [encodeFrom, searchFrom]
    rcases List.mem_cons.mp hk with rfl | hk
    · have heq : memshared prev k = n := by
        cases u with
        | true => exact (hu rfl).symm
        | false => exact (h0 rfl _ List.mem_cons_self).trans (hn rfl).symm
      have hself : memshared (k.drop n) (k.drop n) = (k.drop n).length := memshared_eq_length_iff.mpr (List.prefix_refl _)
      simp [entryAfter, heq, hself]
    · have hlt : p.1 < k := hsort.1 _ hk
      split_ifs with hskip hback hfound hbyte hpre
      · refine ih ?_ hn h0' (Or.inr (fun q hq => hsort.1 q hq)) hsort.2 hk hm'
        intro hu'
        rw [hu hu'] at hskip ⊢
        exact (memshared_of_lt hskip).symm
      · exfalso
        rcases hprev with rfl | hprev
        · simp at hback
        · cases u with
          | false => simp [hn rfl] at hback
          | true =>
            rw [hu rfl] at hback
            exact absurd (lt_of_memshared_lt (hprev p List.mem_cons_self) hback) hlt.not_gt
      · exfalso
        have heq : memshared prev p.1 = n := le_antisymm (not_lt.mp hskip) (not_lt.mp hback)
        simp only [entryAfter, heq] at hfound
        exact hlt.ne (eq_of_drop (hshare heq) hfound)
      · exfalso
        have heq : memshared prev p.1 = n := le_antisymm (not_lt.mp hskip) (not_lt.mp hback)
        have hs := memshared_drop (hshare heq)
        simp only [entryAfter, heq] at hbyte
        rw [lt_iff_memshared] at hlt
        rcases hlt with ⟨hlen, hlong⟩ | ⟨ha, hb, hlt⟩
        · obtain ⟨q, l, rfl⟩ := List.exists_cons_of_ne_nil (List.ne_nil_of_mem hk)
          have hkey : (p.1.drop n)[memshared (p.1.drop n) (k.drop n)]? = none := by
            rw [List.getElem?_eq_none_iff, List.length_drop]
            omega
          refine hm (Or.inl ⟨memshared_eq_length_iff.mp hlen, ?_, ?_⟩)
          · rintro rfl
            exact absurd hlong (lt_irrefl _)
          · rw [searchByte_drop, Nat.add_comm, hs, hlen, searchByte_of_lt past hlong] at hbyte
            rw [searchByte_of_lt 0 hlong]
            simpa [keyByte, hkey, encodeFrom] using hbyte
        · have hkey : (p.1.drop n)[memshared (p.1.drop n) (k.drop n)]? = some p.1[memshared p.1 k] := by
            rw [List.getElem?_drop, Nat.add_comm, hs, List.getElem?_eq_getElem ha]
          rw [searchByte_drop, Nat.add_comm, hs, searchByte_of_lt past hb] at hbyte
          simp only [keyByte, hkey] at hbyte
          exact absurd hbyte (not_lt.mpr hlt.le)
      · have heq : memshared prev p.1 = n := le_antisymm (not_lt.mp hskip) (not_lt.mp hback)
        simp only [entryAfter, heq, List.drop_drop]
        refine ih (fun _ => ?_) (fun hu' => ?_) h0' (Or.inr (fun q hq => hsort.1 q hq)) hsort.2 hk hm'
        · rw [Nat.add_comm]
          exact memshared_drop (hshare heq)
        · rw [hu'] at hpre
          exact absurd hpre (by simp)
      · exact ih (fun hu' => absurd hu' hpre) hn h0' (Or.inr (fun q hq => hsort.1 q hq)) hsort.2 hk hm'

/-- The byte behind the key searched for is read only where there is nothing left to find. -/
theorem searchFrom_past (past past' : Byte) {u : Bool} {prev k : Bytes} {n : Nat} {l : List (Bytes × Bytes)}
    (hu : u = true → n = memshared prev k) (hn : u = false → n = 0)
    (hsort : l.Pairwise (fun p q => p.1 < q.1)) :
    searchFrom u past (encodeFrom prev l) n (k.drop n) = searchFrom u past' (encodeFrom prev l) n (k.drop n) := by
  induction l generalizing prev n with
  | nil => rfl
  | cons p l ih =>
    rw [List.pairwise_cons] at hsort
    by_cases hlt : k < p.1
    · have hnone (b : Byte) : searchFrom u b (encodeFrom prev (p :: l)) n (k.drop n) = none := by
        rw [Option.eq_none_iff_forall_not_mem]
        intro v hv
        rcases List.mem_cons.mp (searchFrom_sound b hu hn hv) with rfl | hm
        · exact lt_irrefl _ hlt
        · exact lt_asymm hlt (hsort.1 _ hm)
      rw [hnone, hnone]
    · have hshare (heq : memshared prev p.1 = n) : n ≤ memshared p.1 k := by
        cases u with
        | true => exact le_memshared heq.ge (hu rfl).le
        | false => simp [hn rfl]
      rw [encodeFrom, searchFrom, searchFrom]
      by_cases hskip : n < BucketEntry.kprefix (entryAfter prev p)
      · rw [if_pos hskip, if_pos hskip]
        refine ih ?_ hn hsort.2
        intro hu'
        rw [hu hu'] at hskip ⊢
        exact (memshared_of_lt hskip).symm
      rw [if_neg hskip, if_neg hskip]
      by_cases hback : BucketEntry.kprefix (entryAfter prev p) < n
      · rw [if_pos hback, if_pos hback]
      rw [if_neg hback, if_neg hback]
      have heq : memshared prev p.1 = n := le_antisymm (not_lt.mp hskip) (not_lt.mp hback)
      have hs := memshared_drop (hshare heq)
      simp only [entryAfter, heq, List.drop_drop]
      by_cases hfound : memshared (p.1.drop n) (k.drop n) = (k.drop n).length ∧
          (p.1.drop n).length = (k.drop n).length
      · rw [if_pos hfound, if_pos hfound]
      rw [if_neg hfound, if_neg hfound]
      have hin : memshared p.1 k < k.length := by
        have hne : p.1 ≠ k := by
          rintro rfl
          exact hfound ⟨memshared_eq_length_iff.mpr (List.prefix_refl _), rfl⟩
        have hle := lt_iff_memshared.mp (lt_of_le_of_ne (not_lt.mp hlt) hne)
        rcases hle with ⟨h, h'⟩ | ⟨-, h, -⟩ <;> omega
      rw [searchByte_drop, searchByte_drop, Nat.add_comm n, hs, searchByte_of_lt past hin,
        searchByte_of_lt past' hin]
      split_ifs with hbyte hpre
      · rfl
      · exact ih (fun _ => rfl) (fun hu' => absurd hpre (by simp [hu'])) hsort.2
      · exact ih (fun hu' => absurd hu' hpre) hn hsort.2

theorem bucketSearch_sound {past : Byte} {l : List (Bytes × Bytes)} {k v : Bytes}
    (h : bucketSearch past (encode l) k = some v) : (k, v) ∈ l :=
  searchFrom_sound past (n := 0) (by simp [memshared_nil_left]) (by simp) h

theorem bucketSearch_complete (past : Byte) {l : List (Bytes × Bytes)}
    (hsort : l.Pairwise (fun p q => p.1 < q.1)) {k v : Bytes} (hk : (k, v) ∈ l) (hm : ¬ Misled k l) :
    bucketSearch past (encode l) k = some v := by
  refine searchFrom_complete past (n := 0) (by simp [memshared_nil_left]) (by simp) ?_ (Or.inl rfl)
    hsort hk hm
  intro hu e he
  have hall := List.any_eq_false.mp hu e he
  simpa using hall

theorem bucketSearch_past (past past' : Byte) {l : List (Bytes × Bytes)}
    (hsort : l.Pairwise (fun p q => p.1 < q.1)) (k : Bytes) :
    bucketSearch past (encode l) k = bucketSearch past' (encode l) k :=
  searchFrom_past past past' (n := 0) (by simp [memshared_nil_left]) (by simp) hsort

end RaleighSL.Zcl
