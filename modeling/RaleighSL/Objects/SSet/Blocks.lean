import RaleighSL.Objects.SSet.Store
import RaleighSL.Objects.SSet.Values
import RaleighSL.Zcl.Bucket.Iterator

/-!
# The blocks of a balance

A balance cuts the live entries of a node into blocks, and the blocks are read
back one after the other. The cut ends if every entry fits an empty block; the
iterator reads a block to its end if no two neighbours share more with the keys
before them than its key buffer holds. Both may fail for entries that the node
accepts.
-/
namespace RaleighSL.Objects.SSet
open RaleighSL.Core RaleighSL.Library RaleighSL.Zcl

variable {s : State} {n : Node} {id : NodeId} {l : List (Bytes × Bytes)} {bs : List Bucket}

/-! ### The live entries of a node -/

/-- The items in memory over the block, without the keys that they mark deleted. -/
def Node.merged (n : Node) : SortedMap Bytes Bytes :=
  n.memData.entries.foldl (fun m p => put m p.1 (if p.2.isDeleteMarker then none else some p.2.value))
    (n.stored.foldl (fun m p => m.insert p.1 p.2) SortedMap.empty)

theorem Node.Encoded.lookup_merged (h : n.Encoded) (k : Bytes) : n.merged.lookup k = n.value k := by
  have hstored : (n.stored.foldl (fun m p => m.insert p.1 p.2) SortedMap.empty).lookup k = n.storedAt k := by
    rw [SortedMap.foldl_insert_lookup _ h.sorted, SortedMap.lookup_empty, Option.or_none, Node.storedAt]
    congr!
  have hmem : n.memData.lookup k = (n.memData.entries.find? (fun p => p.1 = k)).map Prod.snd := by
    rw [SortedMap.lookup]
    congr!
  have hfold := Store.foldl_put_lookup 0
    (n.memData.entries.map (fun p => (p.1, 0, if p.2.isDeleteMarker then none else some p.2.value)))
    (List.pairwise_map.mpr n.memData.sorted) (n.stored.foldl (fun m p => m.insert p.1 p.2) SortedMap.empty) k
  rw [List.foldl_map, List.find?_map] at hfold
  simp only [if_true, Function.comp_def] at hfold
  rw [Node.merged, hfold, hstored, Node.value, hmem]
  cases n.memData.entries.find? (fun p => p.1 = k) <;> rfl

/-- A node as the object keeps it: its block is in order, and its locks are of transactions. -/
structure Node.Kept (s : State) (n : Node) : Prop where
  encoded : n.Encoded
  owned : ownEntries s 0 n.txnLocks.entries = []

theorem Indexed.kept (h : Indexed s) (hn : s.nodes id = some n) : n.Kept s :=
  ⟨(h.encoded hn).1, ownEntries_zero h hn⟩

/-- The nodes of every run in which no balance empties the tree. -/
theorem run_kept {rs : List Request} {es : List Response} (hm : Meets serve TreeOk create rs)
    (he : exec serve create rs = some (s, es)) (hn : s.nodes id = some n) : n.Kept s := by
  have hs : Staged s := exec_invariant (fun s i s' e hs hok hr => hs.serve hok hr) create_staged hm he
  exact hs.indexed.kept hn

theorem Node.Kept.entries (h : n.Kept s) :
    (n.Readable → nodeEntries s n 0 = some n.merged.entries) ∧ (¬ n.Readable → nodeEntries s n 0 = none) := by
  constructor
  · intro hread
    rw [nodeEntries_of_not_fault h.owned h.encoded.stored h.encoded.sorted hread, Option.some.injEq]
    apply SortedMap.list_ext (live_sorted (SortedMap.sorted _)) (SortedMap.sorted _)
    intro k v
    rw [mem_live, SortedMap.mem_entries, SortedMap.lookup_union, h.encoded.block_lookup, Node.value_eq_some,
      SortedMap.mem_entries, h.encoded.lookup_merged]
  · intro hread
    rw [Node.Readable] at hread
    push Not at hread
    obtain ⟨it, hit, hfault⟩ := hread
    have hne : it.rest ≠ [] := by
      intro hnil
      cases hb : n.block with
      | none =>
        rw [blkIter, hb] at hit
        rw [← Option.some.inj hit] at hfault
        exact hfault rfl
      | some b =>
        simp only [blkIter, hb, if_true, Option.some.injEq] at hit
        subst hit
        cases b with
        | nil => exact hfault rfl
        | cons e b => simp [bucketIter] at hnil
    simp only [nodeEntries, nodeIterOpen, txnIter, memIter, if_true, h.owned, hit, Option.bind_some, Option.map_some]
    have hiters := MapMerger.three_iters Source.txn .mem .blk (.ofList []) (.ofList n.memData.entries) it
    have hsmallest : (MapMerger.three Source.txn .mem .blk (.ofList []) (.ofList n.memData.entries) it).smallest = none := by
      rw [hiters]
    apply MapMerger.collect_doomed
    · rw [hiters]
      refine ⟨fun p hp => by simpa using (List.mem_filter.mp hp).2, (.blk, it), ?_, by simpa using hfault⟩
      simp [hne]
    · simp [hsmallest]
    all_goals
      rw [MapMerger.due, hsmallest, if_pos rfl]
      exact le_rfl

/-! ### The end of the cut -/

theorem length_le_size (prev : Bytes) (p : Bytes × Bytes) : p.1.length ≤ memshared prev p.1 + (entryAfter prev p).size := by
  simp only [entryAfter, BucketEntry.size, List.length_drop]
  omega

/-- What an entry saves in a block is less than the keys before it take there. -/
theorem size_nil_le (prev : Bytes) {p : Bytes × Bytes} (hkey : p.1.length ≤ kprefixSize) :
    (entryAfter [] p).size ≤ memshared prev p.1 + (entryAfter prev p).size := by
  rw [kprefixSize] at hkey
  have hle := memshared_le_right prev p.1
  have hone : Coding.uint32Size p.1.length = 1 := if_pos (by omega)
  have hone' : Coding.uint32Size (p.1.length - memshared prev p.1) = 1 := if_pos (by omega)
  rw [entryAfter_nil]
  simp only [entryAfter, BucketEntry.size, BucketEntry.widths, hone, hone', lt_irrefl, if_false, List.length_drop]
  omega

theorem fillBlocks_fits {block : Bucket} {used : Nat} {prev : Bytes} (hused : prev.length ≤ used)
    (h : fillBlocks block used prev l = some bs) : ∀ p ∈ l, Fits p := by
  induction l generalizing block used prev bs with
  | nil => simp
  | cons p l ih =>
    rw [fillBlocks] at h
    have hshared := memshared_le_left prev p.1
    have hlen := length_le_size prev p
    split_ifs at h with hkey hfits hempty
    · have hsize := size_nil_le prev (not_lt.mp hkey)
      rintro q (_ | ⟨_, hq⟩)
      · exact ⟨not_lt.mp hkey, by omega⟩
      · exact ih (by omega) h q hq
    · rw [Option.map_eq_some_iff] at h
      obtain ⟨bs', hbs', -⟩ := h
      have hlen' := length_le_size [] p
      rintro q (_ | ⟨_, hq⟩)
      · exact ⟨not_lt.mp hkey, hempty⟩
      · exact ih (by simpa [memshared] using hlen') hbs' q hq

/-- The cut ends exactly for entries that each fit an empty block. -/
theorem cutBlocks_eq_some_iff : (∃ bs, cutBlocks l = some bs) ↔ ∀ p ∈ l, Fits p := by
  refine ⟨?_, cutBlocks_defined⟩
  rintro ⟨bs, h⟩
  cases l with
  | nil => simp
  | cons p l =>
    rw [cutBlocks] at h
    split_ifs at h with hkey hempty
    have hlen := length_le_size [] p
    rintro q (_ | ⟨_, hq⟩)
    · exact ⟨not_lt.mp hkey, hempty⟩
    · exact fillBlocks_fits (by simpa [memshared] using hlen) h q hq

/-! ### Reading the blocks back -/

/-- The keys and values of a sequence of blocks, read one block after the other. -/
def readBlocks : List Bucket → Option (List MapEntry)
  | [] => some []
  | b :: bs => if (bucketIter b).fault then none else (readBlocks bs).map ((bucketIter b).rest ++ ·)

theorem readBlocks_eq_some_iff {L : List MapEntry} : readBlocks bs = some L ↔
    (∀ b ∈ bs, (bucketIter b).fault = false) ∧ L = bs.flatMap (fun b => (bucketIter b).rest) := by
  induction bs generalizing L with
  | nil =>
    simp only [readBlocks, Option.some.injEq, List.not_mem_nil, false_imp_iff, implies_true, List.flatMap_nil, true_and]
    exact eq_comm
  | cons b bs ih =>
    rw [readBlocks]
    by_cases hb : (bucketIter b).fault = true
    · simp [hb]
    · rw [if_neg hb, Option.map_eq_some_iff]
      simp only [ih, List.forall_mem_cons, List.flatMap_cons, Bool.not_eq_true] at hb ⊢
      constructor
      · rintro ⟨L', ⟨hbs, rfl⟩, rfl⟩
        exact ⟨⟨hb, hbs⟩, rfl⟩
      · rintro ⟨⟨-, hbs⟩, rfl⟩
        exact ⟨_, ⟨hbs, rfl⟩, rfl⟩

/-- The iterator of a block cannot step to an entry behind one with a prefix of the given length. -/
def Overruns (shared : Nat) (e : BucketEntry) : Prop :=
  0 < e.kprefix ∧ (kbufferSize < shared + e.kprefix ∨ kbufferSize < e.kprefix + e.key.length)

theorem iterFrom_fault_append (k : Bytes) (shared : Nat) (b : Bucket) (e : BucketEntry) :
    (iterFrom k shared (b ++ [e])).fault = true ↔
      (iterFrom k shared b).fault = true ∨ Overruns ((b.getLast?.map BucketEntry.kprefix).getD shared) e := by
  induction b generalizing k shared with
  | nil =>
    simp only [List.nil_append, iterFrom, Overruns, List.getLast?_nil, Option.map_none, Option.getD_none]
    split_ifs with h <;> simp [h]
  | cons e' b ih =>
    rw [List.cons_append, iterFrom, iterFrom]
    split_ifs with h
    · simp
    · simp only [ih, List.getLast?_cons, Option.map_some, Option.getD_some]
      cases b.getLast? <;> rfl

theorem bucketIter_fault_append {b : Bucket} {last : BucketEntry} (hlast : b.getLast? = some last) (e : BucketEntry) :
    (bucketIter (b ++ [e])).fault = true ↔ (bucketIter b).fault = true ∨ Overruns last.kprefix e := by
  cases b with
  | nil => simp at hlast
  | cons e' b =>
    rw [List.cons_append, bucketIter, bucketIter]
    simp only [iterFrom_fault_append]
    rw [List.getLast?_cons, Option.some.injEq] at hlast
    subst hlast
    cases b.getLast? <;> rfl

/-- The keys of one block, as far as bytes are left in it, share no more than the key buffer holds. -/
def SharesFit (used : Nat) (prev : Bytes) (shared : Nat) : List (Bytes × Bytes) → Prop
  | [] => True
  | p :: l =>
    if used + (entryAfter prev p).size ≤ blockSpace then
      (memshared prev p.1 = 0 ∨ shared + memshared prev p.1 ≤ kbufferSize) ∧
        SharesFit (used + (entryAfter prev p).size) p.1 (memshared prev p.1) l
    else SharesFit (entryAfter [] p).size p.1 0 l

/-- No two neighbours in a block share more with the keys before them than the key buffer holds. -/
def Legible : List (Bytes × Bytes) → Prop
  | [] => True
  | p :: l => SharesFit (entryAfter [] p).size p.1 0 l

theorem overruns_entryAfter {prev : Bytes} {shared : Nat} {p : Bytes × Bytes} (hkey : p.1.length ≤ kprefixSize) :
    Overruns shared (entryAfter prev p) ↔ memshared prev p.1 ≠ 0 ∧ kbufferSize < shared + memshared prev p.1 := by
  have hle := memshared_le_right prev p.1
  have hsame : kprefixSize = kbufferSize := rfl
  rw [Overruns, Nat.pos_iff_ne_zero]
  simp only [entryAfter, List.length_drop, and_congr_right_iff]
  intro _
  omega

theorem fillBlocks_readable {block : Bucket} {last : BucketEntry} (hlast : block.getLast? = some last) {used : Nat}
    {prev : Bytes} (h : fillBlocks block used prev l = some bs) :
    (∀ b ∈ bs, (bucketIter b).fault = false) ↔
      (bucketIter block).fault = false ∧ SharesFit used prev last.kprefix l := by
  induction l generalizing block last used prev bs with
  | nil =>
    obtain rfl := Option.some.inj h
    simp [SharesFit]
  | cons p l ih =>
    rw [fillBlocks] at h
    split_ifs at h with hkey hfits hempty
    · have happend := bucketIter_fault_append hlast (entryAfter prev p)
      rw [overruns_entryAfter (not_lt.mp hkey)] at happend
      rw [SharesFit, if_pos hfits, ih List.getLast?_concat h, ← Bool.not_eq_true, happend, ← Bool.not_eq_true]
      simp only [entryAfter, not_or, not_and_or, not_not, not_lt, and_assoc, ne_eq]
    · rw [Option.map_eq_some_iff] at h
      obtain ⟨bs', hbs', rfl⟩ := h
      rw [SharesFit, if_neg hfits, List.forall_mem_cons, ih List.getLast?_singleton hbs']
      simp [bucketIter, iterFrom]

theorem cutBlocks_readable (h : cutBlocks l = some bs) : (∀ b ∈ bs, (bucketIter b).fault = false) ↔ Legible l := by
  cases l with
  | nil =>
    obtain rfl := Option.some.inj h
    simp [Legible]
  | cons p l =>
    rw [cutBlocks] at h
    split_ifs at h
    rw [fillBlocks_readable rfl h, Legible]
    simp [bucketIter, iterFrom]

theorem cutBlocks_read (h : cutBlocks l = some bs) (hread : ∀ b ∈ bs, (bucketIter b).fault = false) :
    readBlocks bs = some (blockItems l) ∧ ∀ b ∈ bs, ∃ e ∈ b.head?, e.kprefix = 0 := by
  obtain ⟨ls, rfl, rfl, hne⟩ := cutBlocks_pieces h
  constructor
  · rw [readBlocks_eq_some_iff]
    refine ⟨hread, ?_⟩
    rw [blockItems, List.map_flatten, List.flatMap_map, List.flatMap_def]
    congr 1
    refine List.map_congr_left (fun x hx => ?_)
    exact (bucketIter_encode (hread _ (List.mem_map_of_mem hx))).symm
  · intro b hb
    obtain ⟨x, hx, rfl⟩ := List.mem_map.mp hb
    cases x with
    | nil => exact absurd rfl (hne _ hx)
    | cons p x => exact ⟨entryAfter [] p, rfl, by simp⟩

/-! ### The nodes of the blocks -/

structure Fitting (l : List (Bytes × Bytes)) : Prop where
  keys : ∀ p ∈ l, p.1.length ≤ kprefixSize
  size : ((encode l).map BucketEntry.size).sum ≤ blockSpace

theorem fillBlocks_fitting (l₀ : List (Bytes × Bytes)) {q : Bytes × Bytes} (hq : Fitting (l₀ ++ [q]))
    (h : fillBlocks (encode (l₀ ++ [q])) ((encode (l₀ ++ [q])).map BucketEntry.size).sum q.1 l = some bs) :
    ∀ b ∈ bs, ∃ ps, b = encode ps ∧ Fitting ps := by
  induction l generalizing l₀ q bs with
  | nil =>
    obtain rfl := Option.some.inj h
    exact List.forall_mem_singleton.mpr ⟨_, rfl, hq⟩
  | cons p l ih =>
    rw [fillBlocks] at h
    split_ifs at h with hlong hfits hone
    · have henc : encode (l₀ ++ [q] ++ [p]) = encode (l₀ ++ [q]) ++ [entryAfter q.1 p] := by
        rw [List.append_assoc]
        exact encodeFrom_append [] l₀ q p
      have hsum : ((encode (l₀ ++ [q] ++ [p])).map BucketEntry.size).sum =
          ((encode (l₀ ++ [q])).map BucketEntry.size).sum + (entryAfter q.1 p).size := by
        rw [henc, List.map_append, List.sum_append, List.map_singleton, List.sum_singleton]
      rw [← hsum] at hfits
      rw [← henc, ← hsum] at h
      refine ih (l₀ ++ [q]) ⟨fun r hr => ?_, hfits⟩ h
      rcases List.mem_append.mp hr with hr | hr
      · exact hq.keys r hr
      · rw [List.mem_singleton.mp hr]
        exact Nat.not_lt.mp hlong
    · obtain ⟨bs', hbs', rfl⟩ := Option.map_eq_some_iff.mp h
      rw [List.forall_mem_cons]
      refine ⟨⟨_, rfl, hq⟩, ih [] ⟨List.forall_mem_singleton.mpr (Nat.not_lt.mp hlong), ?_⟩ hbs'⟩
      exact hone

/-- Every block of a balance is a bucket of 8192 bytes, whose search and iterator answer as the block does. -/
theorem cutBlocks_refined (h : cutBlocks l = some bs) : ∀ b ∈ bs, ∃ ps node, b = encode ps ∧
    BucketNode.build 8192 (ps.map BucketNode.rowOf) = some node ∧ BucketNode.Refines node b := by
  have hfitting : ∀ b ∈ bs, ∃ ps, b = encode ps ∧ Fitting ps := by
    cases l with
    | nil =>
      obtain rfl := Option.some.inj h
      exact List.forall_mem_nil _
    | cons p l =>
      rw [cutBlocks] at h
      split_ifs at h with hlong hone
      exact fillBlocks_fitting [] ⟨List.forall_mem_singleton.mpr (Nat.not_lt.mp hlong), hone⟩ h
  intro b hb
  obtain ⟨ps, rfl, hps⟩ := hfitting b hb
  have hused : BucketNode.used ((encode ps).map BucketNode.fresh) = ((encode ps).map BucketEntry.size).sum := by
    rw [BucketNode.used, List.map_map]
    rfl
  have hfit : BucketNode.headSize + BucketNode.used ((encode ps).map BucketNode.fresh) ≤ 8192 := by
    rw [hused]
    exact Nat.add_le_add_left hps.size BucketNode.headSize
  obtain ⟨node, hbuild, hrefines⟩ := BucketNode.build_refines (by decide) hps.keys hfit
  exact ⟨ps, node, rfl, hbuild, hrefines⟩

theorem seekGe_refined {node : BucketNode.Node} {b : Bucket} (h : BucketNode.Refines node b) (behind : Nat → Byte)
    {it : BucketNode.Iter} (hlength : it.kbuffer.length = kbufferSize) {k : Bytes} (hk : k.length ≤ 2 ^ 31) :
    BucketNode.seek node behind it k = none ∧ seekGe k (bucketIter b) = none ∨
      ∃ r m, BucketNode.seek node behind it k = some r ∧ seekGe k (bucketIter b) = some m ∧
        BucketNode.Mirrors node behind r.2 m := by
  rcases h.seek behind it k hlength hk with ⟨hseek, hend⟩ | ⟨hend, r, hseek, hmirrors⟩
  · exact Or.inl ⟨hseek, if_pos hend⟩
  · exact Or.inr ⟨r, _, hseek, if_neg hend, hmirrors⟩

/-- A balance of the node ends, and its blocks read back are the live entries of the node. -/
def BalanceKeeps (s : State) (n : Node) : Prop :=
  ∃ bs, nodeBalance s n = some bs ∧ readBlocks bs = some (blockItems n.merged.entries) ∧
    ∀ b ∈ bs, ∃ e ∈ b.head?, e.kprefix = 0

/-- A balance ends and keeps everything exactly if the block of the node can be read, each live entry
fits an empty block, and the keys put in one block do not share more than its iterator can hold. -/
theorem balance_keeps_iff (h : n.Kept s) (hkeys : ∀ p ∈ n.merged.entries, p.1.length ≤ kprefixSize) :
    BalanceKeeps s n ↔ n.Readable ∧
      (∀ p ∈ n.merged.entries, (entryAfter [] p).size ≤ blockSpace) ∧ Legible n.merged.entries := by
  have hfits : (∀ p ∈ n.merged.entries, (entryAfter [] p).size ≤ blockSpace) ↔ ∀ p ∈ n.merged.entries, Fits p :=
    forall₂_congr (fun p hp => ⟨fun hsize => ⟨hkeys p hp, hsize⟩, And.right⟩)
  rw [hfits]
  constructor
  · rintro ⟨bs, hbs, hread, -⟩
    have hr : n.Readable := by
      by_contra hr
      rw [nodeBalance, h.entries.2 hr] at hbs
      simp at hbs
    rw [nodeBalance, h.entries.1 hr, Option.bind_some] at hbs
    exact ⟨hr, cutBlocks_eq_some_iff.mp ⟨bs, hbs⟩, (cutBlocks_readable hbs).mp (readBlocks_eq_some_iff.mp hread).1⟩
  · rintro ⟨hr, hfit, hlegible⟩
    obtain ⟨bs, hbs⟩ := cutBlocks_eq_some_iff.mpr hfit
    refine ⟨bs, ?_, cutBlocks_read hbs ((cutBlocks_readable hbs).mpr hlegible)⟩
    rw [nodeBalance, h.entries.1 hr, Option.bind_some, hbs]

theorem balance_keeps_two : ∃ s es n, exec serve create [.insert 0 false [1] [2], .insert 0 false [1, 3] [4]] = some (s, es) ∧
    s.nodes 0 = some n ∧ BalanceKeeps s n := by
  have hrun : (exec serve create [.insert 0 false [1] [2], .insert 0 false [1, 3] [4]]).map (fun p =>
      (p.1.nodes 0).map (fun n => (n.block, n.merged.entries))) =
        some (some (none, [([1], [2]), ([1, 3], [4])])) := by decide +kernel
  rw [Option.map_eq_some_iff] at hrun
  obtain ⟨⟨s, es⟩, he, hs⟩ := hrun
  rw [Option.map_eq_some_iff] at hs
  obtain ⟨n, hn, heq⟩ := hs
  obtain ⟨hblock, hentries⟩ := Prod.mk.inj heq
  have hread : n.Readable := by
    intro it hit
    rw [blkIter, hblock] at hit
    rw [← Option.some.inj hit]
    rfl
  refine ⟨s, es, n, he, hn, (balance_keeps_iff (run_kept (by decide +kernel) he hn) ?_).mpr ⟨hread, ?_, ?_⟩⟩
  all_goals
    rw [hentries]
    simp [SharesFit, Legible, entryAfter, memshared, BucketEntry.size, BucketEntry.widths, Coding.uint32Size, kprefixSize,
      kbufferSize, blockSpace]

/-- A value that is larger than a block is tried in one empty block after the other. -/
theorem balance_never_ends : ∃ s es n, exec serve create [.insert 0 false [1] (List.replicate 8192 0)] = some (s, es) ∧
    s.nodes 0 = some n ∧ n.Kept s ∧ (∀ p ∈ n.merged.entries, p.1.length ≤ kprefixSize) ∧ ¬ BalanceKeeps s n := by
  have hrun : (exec serve create [.insert 0 false [1] (List.replicate 8192 0)]).map (fun p =>
      (p.1.nodes 0).map (fun n => (decide (∀ q ∈ n.merged.entries, q.1.length ≤ kprefixSize),
        (nodeBalance p.1 n).isSome))) = some (some (true, false)) := by decide +kernel
  rw [Option.map_eq_some_iff] at hrun
  obtain ⟨⟨s, es⟩, he, hs⟩ := hrun
  rw [Option.map_eq_some_iff] at hs
  obtain ⟨n, hn, heq⟩ := hs
  obtain ⟨hkeys, hnone⟩ := Prod.mk.inj heq
  refine ⟨s, es, n, he, hn, run_kept (by decide +kernel) he hn, of_decide_eq_true hkeys, ?_⟩
  rintro ⟨bs, hbs, -⟩
  rw [hbs] at hnone
  simp at hnone

end RaleighSL.Objects.SSet
