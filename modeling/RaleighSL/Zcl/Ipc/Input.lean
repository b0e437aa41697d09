import RaleighSL.Zcl.Ipc.Frame
import RaleighSL.Zcl.RingFifo

/-!
# The input of a connection

`z_ipc_msgbuf_fetch` reads what has arrived into the ring buffer and hands the
messages in it to the parse function. The result of `__msgbuf_parse_head` is the
condition of its loop, and minus two, for a head that is not valid, is as true as one:
if the bytes that such a head asks for are there, they are handed over like a payload.
A buffer that a read has filled up is taken to be empty, and nothing more is read.

The connection is closed when a fetch fails. Every byte that is sent arrives in order.
A connection is polled until something has arrived, or nothing more will; how much has
arrived before a fetch is up to the sender.
-/
namespace RaleighSL.Zcl.Ipc
open RaleighSL.Library

/-- The input side of `z_ipc_msgbuf_t`. -/
structure Msgbuf where
  ibuffer : RingBuf
  version : Nat

/-- The loop of `z_ipc_msgbuf_fetch`. The `i`-th message that is handed over fails to parse if `fails i`. -/
def fetchLoop (fails : Nat → Bool) : Nat → Msgbuf → Nat → List Bytes → Option (Msgbuf × Int × List Bytes)
  | 0, _, _, _ => none
  | fuel + 1, m, avail, delivered =>
    match m.ibuffer.fetch 8 with
    | none => some (m, 0, delivered)
    | some pbuf =>
      let head := parseHead pbuf
      let res : Int := if head.valid m.ibuffer.size then 1 else -2
      let avail := sizeSub avail 8
      if avail < head.size then some (m, res, delivered)
      else
        let version := max m.version head.version
        let ibuffer := m.ibuffer.rskip 8
        let iov := ibuffer.popIov head.size
        let data := ibuffer.load iov.1 iov.1.len ++ ibuffer.load iov.2 iov.2.len
        if fails delivered.length then some (⟨ibuffer, version⟩, -3, delivered ++ [data])
        else fetchLoop fails fuel ⟨ibuffer.rskip head.size, version⟩ (sizeSub avail head.size) (delivered ++ [data])

/-- `z_ipc_msgbuf_fetch` with the messages handed over so far. -/
def fetch (fails : Nat → Bool) (m : Msgbuf) (ready : Option Bytes) (delivered : List Bytes) :
    Option (Msgbuf × Int × List Bytes) :=
  let r := m.ibuffer.fdFetch ready
  if r.2 ≤ 0 then some ({ m with ibuffer := r.1 }, -1, delivered)
  else fetchLoop fails (r.1.size + 1) { m with ibuffer := r.1 } r.1.used delivered

/-- A connection: the bytes that are on their way, and whether it is still open. -/
structure Connection where
  msgbuf : Msgbuf
  stream : Bytes
  delivered : List Bytes
  isOpen : Bool

def Connection.init (isize : Nat) (memory : Nat → Byte) (stream : Bytes) : Connection :=
  { msgbuf := ⟨.alloc isize memory, 0⟩, stream := stream, delivered := [], isOpen := true }

/-- The bytes that have arrived: one and `more`, as far as there are any. -/
def arrived (c : Connection) (more : Nat) : Bytes := c.stream.take (more + 1)

def read (fails : Nat → Bool) (c : Connection) (more : Nat) : Option (Connection × Int) :=
  if c.isOpen then
    (fetch fails c.msgbuf (some (arrived c more)) c.delivered).map (fun r =>
      (⟨r.1, c.stream.drop (c.msgbuf.ibuffer.fdFetch (some (arrived c more))).2.toNat, r.2.2, decide (0 ≤ r.2.1)⟩, r.2.1))
  else some (c, -1)

def pending (c : Connection) (more : Nat) : Bytes :=
  c.msgbuf.ibuffer.load c.msgbuf.ibuffer.readIov.1 c.msgbuf.ibuffer.readIov.1.len ++
    c.msgbuf.ibuffer.load c.msgbuf.ibuffer.readIov.2 c.msgbuf.ibuffer.readIov.2.len ++
      (arrived c more).take c.msgbuf.ibuffer.avail

/-- The bytes a head asks for are all there, but the head is not valid. -/
def Misleading (limit : Nat) (p : Bytes) : Prop :=
  8 ≤ p.length ∧ (parseHead p).valid limit = false ∧ 8 + (parseHead p).size ≤ p.length

instance (limit : Nat) (p : Bytes) : Decidable (Misleading limit p) := inferInstanceAs (Decidable (_ ∧ _ ∧ _))

/-- The read does not fill the buffer, and no head that is not valid comes up together with as many bytes as it
asks for, unless a message before it fails to parse. -/
def ReadOk (fails : Nat → Bool) (c : Connection) (more : Nat) : Prop :=
  c.isOpen = true →
    (pending c more).length < c.msgbuf.ibuffer.size ∧
    ((∀ i < (frames c.msgbuf.ibuffer.size (pending c more)).length, fails (c.delivered.length + i) = false) →
      ¬ Misleading c.msgbuf.ibuffer.size (remainder c.msgbuf.ibuffer.size (pending c more)))

instance (fails : Nat → Bool) (c : Connection) (more : Nat) : Decidable (ReadOk fails c more) :=
  inferInstanceAs (Decidable (_ → _ ∧ (_ → _)))

/-! ### One fetch -/

variable {fails : Nat → Bool} {m m' : Msgbuf} {p : Bytes} {limit fuel : Nat} {delivered : List Bytes}

/-- How the loop ends with the bytes `p` in the buffer. -/
inductive Outcome (fails : Nat → Bool) (limit : Nat) (p : Bytes) (delivered : List Bytes) :
    Msgbuf × Int × List Bytes → Prop where
  | all (m' : Msgbuf) (res : Int) (hparse : ∀ i < (frames limit p).length, fails (delivered.length + i) = false)
    (hstores : RingBuf.Stores m'.ibuffer (remainder limit p)) (hsize : m'.ibuffer.size = limit)
    (hres : res < 0 → 8 ≤ (remainder limit p).length ∧ (parseHead (remainder limit p)).valid limit = false) :
    Outcome fails limit p delivered (m', res, delivered ++ frames limit p)
  | failed (m' : Msgbuf) (i : Nat) (hi : i < (frames limit p).length) (hfails : fails (delivered.length + i) = true) :
    Outcome fails limit p delivered (m', -3, delivered ++ (frames limit p).take (i + 1))

theorem parseHead_take (h : 8 ≤ p.length) : parseHead (p.take 8) = parseHead p := by
  have happend := parseHead_append (p := p.take 8) (by rw [List.length_take]; omega) (p.drop 8)
  rw [List.take_append_drop] at happend
  exact happend.symm

/-- The loop after it has handed over one message. -/
theorem Outcome.cons {r : Msgbuf × Int × List Bytes} (hc : Complete limit p) (hparse : fails delivered.length = false)
    (h : Outcome fails limit (after p) (delivered ++ [payload p]) r) : Outcome fails limit p delivered r := by
  obtain ⟨hframes, hrest⟩ := scan_complete hc
  cases h with
  | all m' res hall hstores hsize hres =>
    rw [← hrest] at hstores hres
    have hlist : delivered ++ [payload p] ++ frames limit (after p) = delivered ++ frames limit p := by simp [hframes]
    rw [hlist]
    refine .all m' res ?_ hstores hsize hres
    intro i hi
    cases i with
    | zero => exact hparse
    | succ i =>
      rw [hframes, List.length_cons] at hi
      have hnext := hall i (by omega)
      rw [List.length_append, List.length_singleton] at hnext
      rwa [show delivered.length + (i + 1) = delivered.length + 1 + i by omega]
  | failed m' i hi hfails =>
    have hlist : delivered ++ [payload p] ++ (frames limit (after p)).take (i + 1) =
        delivered ++ (frames limit p).take (i + 1 + 1) := by simp [hframes]
    rw [hlist]
    refine .failed m' (i + 1) ?_ ?_
    · rw [hframes, List.length_cons]
      omega
    · rw [List.length_append, List.length_singleton] at hfails
      rwa [show delivered.length + (i + 1) = delivered.length + 1 + i by omega]

theorem fetchLoop_outcome (hstores : RingBuf.Stores m.ibuffer p) (hsize : m.ibuffer.size = limit) (hlt : p.length < limit)
    (hfuel : p.length < fuel)
    (hmis : (∀ i < (frames limit p).length, fails (delivered.length + i) = false) → ¬ Misleading limit (remainder limit p)) :
    ∃ r, fetchLoop fails fuel m p.length delivered = some r ∧ Outcome fails limit p delivered r := by
  induction fuel generalizing m p delivered with
  | zero => exact absurd hfuel (Nat.not_lt_zero _)
  | succ fuel ih =>
    have hword : p.length < 2 ^ 64 := hlt.trans (hsize ▸ hstores.size_lt)
    rw [fetchLoop, hstores.fetch (by omega)]
    by_cases hhead : 8 ≤ p.length
    · have hne : p ≠ [] := by
        rintro rfl
        simp at hhead
      rw [if_pos ⟨hne, hhead⟩]
      dsimp only
      rw [parseHead_take hhead, sizeSub_of_le hhead]
      by_cases hshort : p.length - 8 < (parseHead p).size
      · have hc : ¬ Complete limit p := fun hc => by
          have hlen := hc.2.2
          omega
        obtain ⟨hframes, hrest⟩ := scan_incomplete hc
        rw [if_pos hshort, hsize]
        refine ⟨_, rfl, ?_⟩
        have hall : Outcome fails limit p delivered
            (m, if (parseHead p).valid limit then 1 else -2, delivered ++ frames limit p) := by
          refine .all m _ (by simp [hframes]) (by rw [hrest]; exact hstores) hsize ?_
          rw [hrest]
          intro hres
          refine ⟨hhead, ?_⟩
          by_contra hvalid
          rw [if_pos (Bool.eq_true_of_not_eq_false hvalid)] at hres
          exact absurd hres (by decide)
        rwa [hframes, List.append_nil] at hall
      · rw [if_neg hshort]
        have hvalid : (parseHead p).valid limit = true := by
          by_contra hvalid
          have hinvalid : (parseHead p).valid limit = false := by simpa using hvalid
          have hc : ¬ Complete limit p := fun hc => hvalid hc.2.1
          obtain ⟨hframes, hrest⟩ := scan_incomplete hc
          refine hmis (by simp [hframes]) ?_
          rw [hrest]
          exact ⟨hhead, hinvalid, by omega⟩
        have hc : Complete limit p := ⟨hhead, hvalid, by omega⟩
        obtain ⟨hframes, hrest⟩ := scan_complete hc
        have hskip := hstores.rskip hhead
        have hdata := hskip.popIov (by rw [List.length_drop]; exact lt_of_le_of_lt (Nat.sub_le _ _) (hsize ▸ hlt)) (parseHead p).size
        rw [hdata]
        have hlen := length_after hc
        by_cases hfails : fails delivered.length = true
        · rw [if_pos hfails]
          refine ⟨_, rfl, ?_⟩
          have hone : Outcome fails limit p delivered (⟨m.ibuffer.rskip 8, max m.version (parseHead p).version⟩, -3,
              delivered ++ (frames limit p).take (0 + 1)) :=
            .failed _ 0 (by rw [hframes, List.length_cons]; omega) hfails
          rwa [hframes, List.take_succ_cons, List.take_zero] at hone
        · rw [if_neg hfails]
          have hafter : (p.drop 8).drop (parseHead p).size = after p := by rw [List.drop_drop, after]
          have hnext := hskip.rskip (n := (parseHead p).size) (by rw [List.length_drop]; omega)
          rw [hafter] at hnext
          have havail : sizeSub (p.length - 8) (parseHead p).size = (after p).length := by
            rw [sizeSub_of_le (by omega), after, List.length_drop]
            omega
          rw [havail]
          have hparse : fails delivered.length = false := by simpa using hfails
          have hmis' : (∀ i < (frames limit (after p)).length, fails ((delivered ++ [payload p]).length + i) = false) →
              ¬ Misleading limit (remainder limit (after p)) := by
            intro hall
            rw [← hrest]
            refine hmis ?_
            intro i hi
            cases i with
            | zero => exact hparse
            | succ i =>
              rw [hframes, List.length_cons] at hi
              have hstep := hall i (by omega)
              rw [List.length_append, List.length_singleton] at hstep
              rwa [show delivered.length + (i + 1) = delivered.length + 1 + i by omega]
          obtain ⟨r, hr, hout⟩ := ih (m := ⟨(m.ibuffer.rskip 8).rskip (parseHead p).size,
            max m.version (parseHead p).version⟩) hnext hsize (by omega) (by omega) hmis'
          exact ⟨r, hr, hout.cons hc hparse⟩
    · have hc : ¬ Complete limit p := fun hc => hhead hc.1
      obtain ⟨hframes, hrest⟩ := scan_incomplete hc
      rw [if_neg (fun h => hhead h.2)]
      refine ⟨_, rfl, ?_⟩
      have hall : Outcome fails limit p delivered (m, 0, delivered ++ frames limit p) :=
        .all m 0 (by simp [hframes]) (by rw [hrest]; exact hstores) hsize (by simp)
      rwa [hframes, List.append_nil] at hall

/-! ### The connection -/

variable {c c' : Connection} {stream got : Bytes} {results : List Int} {more : Nat}

/-- The connection after the bytes `got` were read. -/
structure Progress (fails : Nat → Bool) (limit : Nat) (stream got : Bytes) (c : Connection) (results : List Int) :
    Prop where
  stream : got ++ c.stream = stream
  inOrder : c.delivered <+: frames limit got
  whole : (∀ i < c.delivered.length, fails i = false) → c.delivered = frames limit got
  live : c.isOpen = true → RingBuf.Stores c.msgbuf.ibuffer (remainder limit got) ∧ c.msgbuf.ibuffer.size = limit ∧
    (remainder limit got).length < limit ∧ (∀ i < c.delivered.length, fails i = false) ∧ results.length ≤ got.length
  closed : c.isOpen = false → c.stream = [] ∨ (∃ i < c.delivered.length, fails i = true) ∨
    (8 ≤ (remainder limit got).length ∧ (parseHead (remainder limit got)).valid limit = false)

/-- The segments of a buffer that is not full. -/
theorem pending_eq (hstores : RingBuf.Stores c.msgbuf.ibuffer p) (hlt : p.length < c.msgbuf.ibuffer.size) (more : Nat) :
    pending c more = p ++ (arrived c more).take (c.msgbuf.ibuffer.size - p.length) := by
  have hused := hstores.used hlt
  have hsound := hstores.sound hlt
  obtain ⟨k, b, s, q, hrep, hring, rfl⟩ := hstores
  rw [← hring] at hsound
  have hseg := (hrep.readIov hsound).queue
  rw [hring] at hseg
  rw [pending, hseg, RingBuf.avail, hused]

theorem arrived_append (c : Connection) (more n : Nat) :
    (arrived c more).take n ++ c.stream.drop ((arrived c more).take n).length = c.stream := by
  rw [arrived, List.take_take, List.length_take]
  rcases Nat.le_total (min n (more + 1)) c.stream.length with hle | hle
  · rw [Nat.min_eq_left hle, List.take_append_drop]
  · rw [Nat.min_eq_right hle, List.take_of_length_le hle, List.drop_length, List.append_nil]

/-- The loop was left after it had handed over every message. -/
theorem Progress.all {new : Bytes} (hp : Progress fails limit stream got c results) (hopen : c.isOpen = true)
    (hstream : got ++ new ++ c'.stream = stream) (hpos : 0 < new.length)
    (hroom : (remainder limit got ++ new).length < limit) {res : Int}
    (hparse : ∀ i < (frames limit (remainder limit got ++ new)).length, fails (c.delivered.length + i) = false)
    (hstores : RingBuf.Stores c'.msgbuf.ibuffer (remainder limit (remainder limit got ++ new)))
    (hsize : c'.msgbuf.ibuffer.size = limit)
    (hres : res < 0 → 8 ≤ (remainder limit (remainder limit got ++ new)).length ∧
      (parseHead (remainder limit (remainder limit got ++ new))).valid limit = false)
    (hdelivered : c'.delivered = c.delivered ++ frames limit (remainder limit got ++ new))
    (hclosed : c'.isOpen = decide (0 ≤ res)) : Progress fails limit stream (got ++ new) c' (results ++ [res]) := by
  obtain ⟨-, -, -, hparsed, hcount⟩ := hp.live hopen
  obtain ⟨hframes, hremainder⟩ := scan_append limit got new
  have hlist : c'.delivered = frames limit (got ++ new) := by rw [hdelivered, hp.whole hparsed, hframes]
  have hfine (i : Nat) (hi : i < c'.delivered.length) : fails i = false := by
    by_cases hold : i < c.delivered.length
    · exact hparsed i hold
    · have hnext := hparse (i - c.delivered.length) (by
        rw [hdelivered, List.length_append] at hi
        omega)
      rwa [Nat.add_sub_cancel' (by omega)] at hnext
  rw [← hremainder] at hstores hres
  refine ⟨hstream, hlist ▸ List.prefix_rfl, fun _ => hlist, ?_, ?_⟩
  · intro _
    refine ⟨hstores, hsize, ?_, hfine, ?_⟩
    · rw [hremainder]
      exact lt_of_le_of_lt (length_remainder_le _ _) hroom
    · simp only [List.length_append, List.length_singleton]
      omega
  · intro hc
    rw [hclosed, decide_eq_false_iff_not, Int.not_le] at hc
    exact Or.inr (Or.inr (hres hc))

/-- The loop was left at a message that failed to parse. -/
theorem Progress.failed {new : Bytes} (hp : Progress fails limit stream got c results) (hopen : c.isOpen = true)
    (hstream : got ++ new ++ c'.stream = stream) {i : Nat}
    (hi : i < (frames limit (remainder limit got ++ new)).length) (hfails : fails (c.delivered.length + i) = true)
    (hdelivered : c'.delivered = c.delivered ++ (frames limit (remainder limit got ++ new)).take (i + 1))
    (hclosed : c'.isOpen = false) (res : Int) : Progress fails limit stream (got ++ new) c' (results ++ [res]) := by
  obtain ⟨-, -, -, hparsed, -⟩ := hp.live hopen
  obtain ⟨hframes, -⟩ := scan_append limit got new
  have hlast : c.delivered.length + i < c'.delivered.length := by
    rw [hdelivered, List.length_append, List.length_take]
    omega
  refine ⟨hstream, ?_, ?_, ?_, ?_⟩
  · rw [hdelivered, hframes, hp.whole hparsed]
    exact (List.prefix_append_right_inj _).mpr (List.take_prefix _ _)
  · intro hnone
    have hfine := hnone _ hlast
    rw [hfails] at hfine
    exact absurd hfine (by decide)
  · intro ho
    rw [hclosed] at ho
    exact absurd ho (by decide)
  · intro _
    exact Or.inr (Or.inl ⟨_, hlast, hfails⟩)

theorem Progress.read (hp : Progress fails limit stream got c results) (hok : ReadOk fails c more) :
    ∃ c' res, read fails c more = some (c', res) ∧ ∃ got', Progress fails limit stream got' c' (results ++ [res]) := by
  rw [Ipc.read]
  by_cases hopen : c.isOpen = true
  · obtain ⟨hstores, hsize, hlt, -, -⟩ := hp.live hopen
    obtain ⟨hroom, hmis⟩ := hok hopen
    rw [hsize, pending_eq hstores (by omega), hsize] at hroom hmis
    obtain ⟨r', hfetch, hstores', hsize'⟩ := hstores.fdFetch (by omega) (arrived c more)
    rw [hsize] at hfetch hstores' hsize'
    have hrest := arrived_append c more (limit - (remainder limit got).length)
    have hnew : (arrived c more).take (limit - (remainder limit got).length) = [] → c.stream = [] := by
      intro hnil
      rw [arrived, List.take_take, List.take_eq_nil_iff] at hnil
      exact hnil.resolve_left (by omega)
    generalize (arrived c more).take (limit - (remainder limit got).length) = new at hroom hmis hfetch hstores' hrest hnew
    have hstream : got ++ new ++ c.stream.drop new.length = stream := by rw [List.append_assoc, hrest, hp.stream]
    rw [if_pos hopen, Ipc.fetch, hfetch]
    dsimp only
    by_cases hempty : new = []
    · subst hempty
      rw [if_pos (by simp), Option.map_some]
      refine ⟨_, _, rfl, got, ?_, hp.inOrder, hp.whole, by simp, ?_⟩
      · simpa using hp.stream
      · intro _
        exact Or.inl (by simp [hnew rfl])
    · have hpos : 0 < new.length := List.length_pos_iff.mpr hempty
      have hused := hstores'.used (by rw [hsize']; exact hroom)
      have hloop : ∃ r, fetchLoop fails (r'.size + 1) { c.msgbuf with ibuffer := r' } (remainder limit got ++ new).length
          c.delivered = some r ∧ Outcome fails limit (remainder limit got ++ new) c.delivered r :=
        fetchLoop_outcome hstores' hsize' hroom (by rw [hsize']; omega) hmis
      obtain ⟨r, hr, hout⟩ := hloop
      rw [if_neg (by omega), hused, hr, Option.map_some]
      refine ⟨_, _, rfl, got ++ new, ?_⟩
      cases hout with
      | all m' res hparse hstores₁ hsize₁ hres =>
        exact hp.all hopen hstream hpos hroom hparse hstores₁ hsize₁ hres rfl rfl
      | failed m' i hi hfails => exact hp.failed hopen hstream hi hfails rfl rfl _
  · refine ⟨c, -1, if_neg hopen, got, hp.stream, hp.inOrder, hp.whole, fun ho => absurd ho hopen, hp.closed⟩

/-- However the stream arrives, the messages that are handed over are the messages of what was read, in order.
None of them is missing unless one failed to parse. A connection that is still open has read a byte with every
fetch, and it is closed at the end of the stream, by a message that failed to parse or at a head that is not
valid. -/
theorem run_delivers_frames {isize : Nat} (hsize : (ringSize isize).isPowerOfTwo) (memory : Nat → Byte) {reads : List Nat}
    (hm : Meets (read fails) (ReadOk fails) (Connection.init isize memory stream) reads) :
    ∃ c results got, exec (read fails) (Connection.init isize memory stream) reads = some (c, results) ∧
      got ++ c.stream = stream ∧ c.delivered <+: frames (ringSize isize) got ∧
      ((∀ i < c.delivered.length, fails i = false) → c.delivered = frames (ringSize isize) got) ∧
      (c.isOpen = true → reads.length ≤ got.length) ∧
      (c.isOpen = false → c.stream = [] ∨ (∃ i < c.delivered.length, fails i = true) ∨
        (8 ≤ (remainder (ringSize isize) got).length ∧
          (parseHead (remainder (ringSize isize) got)).valid (ringSize isize) = false)) := by
  have hinit : ∃ got, Progress fails (ringSize isize) stream got (Connection.init isize memory stream) [] := by
    refine ⟨[], rfl, List.nil_prefix, fun _ => rfl, ?_, by simp [Connection.init]⟩
    intro _
    exact ⟨RingBuf.Stores.alloc hsize memory, rfl, Nat.pos_of_isPowerOfTwo hsize, by simp [Connection.init], le_rfl⟩
  obtain ⟨c, results, he, got, hp⟩ := exec_history
    (I := fun c results => ∃ got, Progress fails (ringSize isize) stream got c results)
    (fun c results more hp hok => hp.choose_spec.read hok) hinit hm
  refine ⟨c, results, got, he, hp.stream, hp.inOrder, hp.whole, ?_, hp.closed⟩
  intro hopen
  have hcount := (hp.live hopen).2.2.2.2
  rwa [List.nil_append, length_of_exec he] at hcount

/-- Two messages that arrive in three pieces. -/
theorem run_delivers_frames_pieces : ∃ c results,
    exec (read (fun _ => false)) (Connection.init 32 (fun _ => 0) (message 0 [1, 2, 3] ++ message 0 [4])) [4, 8, 20] =
      some (c, results) ∧ c.delivered = [[1, 2, 3], [4]] := by
  have hm : Meets (read (fun _ => false)) (ReadOk (fun _ => false))
      (Connection.init 32 (fun _ => 0) (message 0 [1, 2, 3] ++ message 0 [4])) [4, 8, 20] := by
    decide +kernel
  obtain ⟨c, results, got, he, hstream, -, hwhole, -, -⟩ := run_delivers_frames ⟨5, by decide⟩ (fun _ => 0) hm
  have hread : (exec (read (fun _ => false)) (Connection.init 32 (fun _ => 0) (message 0 [1, 2, 3] ++ message 0 [4]))
      [4, 8, 20]).map (fun r => r.1.stream) = some [] := by
    decide +kernel
  rw [he, Option.map_some, Option.some.injEq] at hread
  rw [hread, List.append_nil] at hstream
  refine ⟨c, results, he, (hwhole (fun _ _ => rfl)).trans ?_⟩
  rw [hstream]
  decide +kernel

/-- A head of an unknown version passes if its bytes are there, and so does the message behind it. A message that
fills the buffer is never handed over, and the next read fails. -/
theorem invalid_head_delivered_and_full_buffer_stuck :
    (exec (read (fun _ => false)) (Connection.init 32 (fun _ => 0) (message 1 [1] ++ message 0 [2])) [31]).map
      (fun r => (r.1.delivered, r.2)) = some ([[1], [2]], [0]) ∧
    frames 32 (message 1 [1] ++ message 0 [2]) = [] ∧
    (exec (read (fun _ => false)) (Connection.init 16 (fun _ => 0) (message 0 [1, 2, 3, 4, 5, 6, 7, 8] ++ message 0 [])) [15, 7]).map
      (fun r => (r.1.delivered, r.2)) = some ([], [0, -1]) ∧
    frames 16 (message 0 [1, 2, 3, 4, 5, 6, 7, 8]) = [[1, 2, 3, 4, 5, 6, 7, 8]] := by
  decide +kernel

end RaleighSL.Zcl.Ipc
