import RaleighSL.Server.Redis.Model
import RaleighSL.Zcl.Reader.Words
import RaleighSL.Zcl.RingFifo

/-!
# The bounds of a request

The words of a request decide which tokens and which bytes of the number buffer are used. A line has
room for fifteen words, since the token behind the last one is read too, and nothing checks their
number. A number has room for fifteen characters behind its sign, since its terminator follows them.
What is skipped was always received.
-/
namespace RaleighSL.Server.Redis
open Zcl

/-! ### Requests that fit -/

/-- The lengths of some arguments fit into the buffer, as far as they are read. -/
def LengthsFit : Nat → List Bytes → Prop
  | nargs + 1, word :: rest => word.head? = some 36 → (word.drop 1).length < bufferSize ∧
      ((strtou32 (word.drop 1)).1.isSome → LengthsFit nargs (rest.drop 1))
  | _, _ => True

/-- The words of a request fit: fifteen on a line, fifteen characters for each number that is read. -/
def Fits : List Bytes → Prop
  | [] => True
  | word :: rest =>
    if word.head? = some 42 then (word.drop 1).length < bufferSize ∧
      ∀ nargs, (strtou32 (word.drop 1)).1 = some nargs → nargs ≤ maxTokens → LengthsFit nargs rest
    else rest.length + 1 < maxTokens

structure Indexed (tokenIndexes bufferIndexes : List Nat) : Prop where
  tokens : ∀ i ∈ tokenIndexes, i < maxTokens
  buffer : ∀ i ∈ bufferIndexes, i < bufferSize

def Work.InBounds (w : Work) : Prop := Indexed w.tokenIndexes w.bufferIndexes

structure IsWord (slice : Slice.State) (word : Bytes) : Prop where
  sound : slice.Sound
  led : slice.Led
  content : slice.content = word

variable {iov : List Bytes} {w : Work} {rest word : Bytes} {ws : List Bytes} {i fuel total : Nat}

theorem IsWord.isEmpty_iff {slice : Slice.State} (h : IsWord slice word) : Slice.isEmpty slice = true ↔ word = [] := by
  rw [h.led.isEmpty_iff h.sound, h.content]

theorem IsWord.startsWith_iff {slice : Slice.State} (h : IsWord slice word) (c : Byte) :
    Slice.startsWith slice [c] = true ↔ word.head? = some c := by
  rw [h.led.startsWith_iff h.sound, h.content]

theorem inBounds_set (w : Work) (i : Nat) (slice : Slice.State) :
    (w.set i slice).InBounds ↔ w.InBounds ∧ i < maxTokens := by
  constructor
  · rintro ⟨htokens, hbuffer⟩
    exact ⟨⟨fun j hj => htokens j (List.mem_append_left _ hj), hbuffer⟩,
      htokens i (List.mem_append_right _ (List.mem_singleton_self i))⟩
  · rintro ⟨⟨htokens, hbuffer⟩, hi⟩
    refine ⟨fun j hj => ?_, hbuffer⟩
    obtain hj | hj := List.mem_append.mp hj
    · exact htokens j hj
    · exact List.mem_singleton.mp hj ▸ hi

/-! ### Numbers -/

theorem strtou32_le (str : Bytes) : (strtou32 str).2 ≤ str.length := by
  have hsplit := congrArg List.length (List.takeWhile_append_dropWhile (p := Strtol.isspace) (l := str))
  have hdigits := (List.takeWhile_prefix Strtol.isdigit (l := str.dropWhile Strtol.isspace)).length_le
  rw [List.length_append] at hsplit
  simp only [strtou32]
  omega

/-- A number is read through the buffer without leaving it when there is room for its terminator. -/
theorem number_spec (h : IsWord (w.tokens i) word) : ∃ w',
    number i w = ((strtou32 ((word.drop 1).take bufferSize)).1, w') ∧ w'.reader = w.reader ∧ w'.trim = w.trim ∧
      (w'.InBounds ↔ w.InBounds ∧ i < maxTokens ∧ (word.drop 1).length < bufferSize) := by
  obtain ⟨hsound, hcontent⟩ := h.sound.ltrim 1
  have hcopied : Slice.copyFrom (Slice.ltrim (w.tokens i) 1).blocks bufferSize = (word.drop 1).take bufferSize := by
    rw [Slice.copyFrom_eq hsound, ← h.content, ← hcontent]
    rfl
  have hstop := strtou32_le ((word.drop 1).take bufferSize)
  rw [List.length_take] at hstop
  refine ⟨(number i w).2, Prod.ext ?_ rfl, rfl, rfl, ?_⟩
  · simp only [number, Slice.copy, hcopied, List.take_left]
  · simp only [number, Slice.copy, hcopied, List.take_left]
    rw [← and_assoc, ← inBounds_set w i (Slice.ltrim (w.tokens i) 1)]
    constructor
    · rintro ⟨htokens, hbuffer⟩
      refine ⟨⟨htokens, fun j hj => hbuffer j (List.mem_append_left _ hj)⟩, ?_⟩
      have hterminator := hbuffer ((word.drop 1).take bufferSize).length (by simp)
      rw [List.length_take] at hterminator
      omega
    · rintro ⟨⟨htokens, hbuffer⟩, hlt⟩
      refine ⟨htokens, fun j hj => ?_⟩
      simp only [List.mem_append, List.mem_range, List.mem_singleton, List.length_append, List.length_take,
        List.length_singleton] at hj
      obtain hj | (hj | hj) | hj := hj
      · exact hbuffer j hj
      · omega
      · omega
      · omega

/-! ### Conditions -/

theorem take_of_fits (h : (word.drop 1).length < bufferSize) : (word.drop 1).take bufferSize = word.drop 1 :=
  List.take_of_length_le (Nat.le_of_lt h)

theorem lengthsFit_of_none (hsign : word.head? = some 36) (h : (strtou32 ((word.drop 1).take bufferSize)).1 = none)
    (nargs : Nat) (ws : List Bytes) : LengthsFit (nargs + 1) (word :: ws) ↔ (word.drop 1).length < bufferSize := by
  rw [LengthsFit, forall_prop_of_true hsign]
  refine and_iff_left_of_imp (fun hlt hsome => ?_)
  rw [← take_of_fits hlt, h] at hsome
  cases hsome

theorem lengthsFit_of_some {size : Nat} (hsign : word.head? = some 36)
    (h : (strtou32 ((word.drop 1).take bufferSize)).1 = some size) (nargs : Nat) (ws : List Bytes) :
    LengthsFit (nargs + 1) (word :: ws) ↔ (word.drop 1).length < bufferSize ∧ LengthsFit nargs (ws.drop 1) := by
  rw [LengthsFit, forall_prop_of_true hsign]
  refine and_congr_right (fun hlt => ?_)
  rw [take_of_fits hlt] at h
  rw [h]
  exact forall_prop_of_true rfl

theorem lengthsFit_nil (nargs : Nat) : LengthsFit nargs [] := by cases nargs <;> simp [LengthsFit]

/-! ### Commands -/

theorem processCommand_spec (obuffer : RingBuf) (w : Work) :
    (processCommand obuffer w).2.2 = w.set commandToken (Slice.toLower (w.tokens commandToken)) := by
  simp only [processCommand]
  split <;> rfl

theorem inBounds_processCommand (obuffer : RingBuf) (w : Work) :
    (processCommand obuffer w).2.2.InBounds ↔ w.InBounds := by
  rw [processCommand_spec, inBounds_set, and_iff_left (by decide)]

theorem opened_inBounds (iov : List Bytes) : (Work.opened iov).InBounds where
  tokens _ hi := List.mem_range.mp hi
  buffer _ hi := absurd hi List.not_mem_nil

theorem arguments_signed {n ntokens : Nat} {w₁ w₂ : Work} {size : Option Nat}
    (hread : readToken iov ntokens fuel w = some (n, w₁)) (hn : n ≠ 0)
    (hsign : Slice.startsWith ((w₁.skip n).tokens ntokens) [36] = true) (hnumber : number ntokens (w₁.skip n) = (size, w₂))
    (nargs : Nat) :
    arguments iov fuel (nargs + 1) ntokens w =
      if size.isNone then some (some (-1), w₂)
      else (readToken iov ntokens fuel w₂).bind (fun r =>
        if r.1 = 0 then some (some 1, { r.2 with trim := 0 })
        else arguments iov fuel nargs (ntokens + 1) (r.2.skip r.1)) := by
  simp only [arguments, hread, Option.bind_eq_bind, Option.bind_some, if_neg hn, hsign, hnumber, Bool.not_true,
    Bool.false_eq_true, if_false]

/-! ### Words -/

section
variable (hsmall : iov.flatten.length < 2 ^ 32)
include hsmall

theorem tokenize_spec (h : IovecReader.Remains iov w.reader rest) (i : Nat) : ∃ w',
    tokenize iov i w = some ((firstToken separators rest).2, w') ∧
      IovecReader.Remains iov w'.reader (rest.drop (firstToken separators rest).2) ∧
      IsWord (w'.tokens i) (firstToken separators rest).1 ∧ w'.trim = w.trim ∧
      (w'.InBounds ↔ w.InBounds ∧ i < maxTokens) := by
  obtain ⟨slice, reader, hresult, hsound, hled, hcontent, hremains⟩ := h.tokenize hsmall (Nat.lt_succ_self _) separators
  refine ⟨{ w with reader := reader }.set i slice, ?_, hremains, ?_, rfl, inBounds_set _ i slice⟩
  · rw [tokenize, hresult]
    rfl
  · simp only [Work.set, Function.update_self]
    exact ⟨hsound, hled, hcontent⟩

theorem readToken_none (h : IovecReader.Remains iov w.reader rest) (hwords : words separators rest = []) (i fuel : Nat) :
    ∃ w', readToken iov i (fuel + 2) w = some (0, w') ∧ w'.trim = w.trim + rest.length ∧
      (w'.InBounds ↔ w.InBounds ∧ i < maxTokens) := by
  have hnone : (firstToken separators rest).1 = [] := by
    rw [words_eq] at hwords
    by_contra hsome
    rw [if_neg hsome] at hwords
    cases hwords
  have hall := firstToken_of_nil hnone
  obtain ⟨w₁, hfirst, hremains, hword, htrim, hbounds⟩ := tokenize_spec hsmall h i
  rw [hall] at hfirst hremains
  by_cases hnil : rest.length = 0
  · refine ⟨w₁, ?_, by rw [htrim, hnil, Nat.add_zero], hbounds⟩
    simp only [readToken, hfirst, Option.bind_eq_bind, Option.bind_some, hnil, if_true]
  · have hempty : Slice.isEmpty (w₁.tokens i) = true := hword.isEmpty_iff.mpr hnone
    rw [List.drop_length] at hremains
    obtain ⟨w₂, hsecond, -, -, htrim₂, hbounds₂⟩ := tokenize_spec hsmall (w := w₁.skip rest.length) hremains i
    refine ⟨w₂, ?_, by rw [htrim₂, ← htrim]; rfl, ?_⟩
    · simp only [readToken, hfirst, hsecond, Option.bind_eq_bind, Option.bind_some, if_neg hnil, if_pos hempty]
      rfl
    · rw [hbounds₂]
      change w₁.InBounds ∧ i < maxTokens ↔ _
      rw [hbounds, and_assoc, and_self]

theorem readToken_some (h : IovecReader.Remains iov w.reader rest) (hwords : words separators rest = word :: ws)
    (i fuel : Nat) : ∃ n w' rest', readToken iov i (fuel + 2) w = some (n, w') ∧ n ≠ 0 ∧
      IovecReader.Remains iov w'.reader rest' ∧ words separators rest' = ws ∧ IsWord (w'.tokens i) word ∧
      w'.trim + n + rest'.length = w.trim + rest.length ∧ (w'.InBounds ↔ w.InBounds ∧ i < maxTokens) := by
  have hsome : (firstToken separators rest).1 ≠ [] := by
    intro hnone
    rw [words_eq, if_pos hnone] at hwords
    cases hwords
  rw [words_eq, if_neg hsome] at hwords
  obtain ⟨hword, hws⟩ := List.cons.inj hwords
  have hne : rest ≠ [] := fun hnil => hsome (by rw [hnil]; rfl)
  have hpos : 0 < (firstToken separators rest).2 := firstToken_pos hne
  have hle := firstToken_le separators rest
  obtain ⟨w₁, hfirst, hremains, hisWord, htrim, hbounds⟩ := tokenize_spec hsmall h i
  have hempty : ¬ Slice.isEmpty (w₁.tokens i) = true := fun hempty => hsome (hisWord.isEmpty_iff.mp hempty)
  refine ⟨_, w₁, _, ?_, Nat.ne_of_gt hpos, hremains, hws, hword ▸ hisWord, ?_, hbounds⟩
  · simp only [readToken, hfirst, Option.bind_eq_bind, Option.bind_some, if_neg (Nat.ne_of_gt hpos), if_neg hempty]
  · rw [htrim, List.length_drop]
    omega

/-! ### Requests -/

theorem arguments_spec (fuel : Nat) {nargs ntokens : Nat} (hnargs : ntokens + nargs ≤ maxTokens)
    (h : IovecReader.Remains iov w.reader rest) (htotal : w.trim + rest.length = total) :
    ∃ result w', arguments iov (fuel + 2) nargs ntokens w = some (result, w') ∧ w'.trim ≤ total ∧
      (w'.InBounds ↔ w.InBounds ∧ LengthsFit nargs (words separators rest)) := by
  induction nargs generalizing ntokens w rest with
  | zero => exact ⟨none, w, rfl, by omega, (and_iff_left (by simp only [LengthsFit])).symm⟩
  | succ nargs ih =>
    have hntokens : ntokens < maxTokens := by omega
    cases hwords : words separators rest with
    | nil =>
      obtain ⟨w₁, hread, -, hbounds⟩ := readToken_none hsmall h hwords ntokens fuel
      refine ⟨some 1, { w₁ with trim := 0 }, ?_, Nat.zero_le _, ?_⟩
      · simp only [arguments, hread, Option.bind_eq_bind, Option.bind_some, if_true]
      · exact hbounds.trans (and_congr_right (fun _ => iff_of_true hntokens (lengthsFit_nil _)))
    | cons word ws =>
      obtain ⟨n, w₁, rest₁, hread, hn, hremains, hws, hword, htrim, hbounds⟩ :=
        readToken_some hsmall h hwords ntokens fuel
      rw [and_iff_left hntokens] at hbounds
      have hskip : (w₁.skip n).InBounds ↔ w.InBounds := hbounds
      have htrim₁ : (w₁.skip n).trim = w₁.trim + n := rfl
      have hstarts : Slice.startsWith ((w₁.skip n).tokens ntokens) [36] = true ↔ _ := hword.startsWith_iff 36
      by_cases hsign : word.head? = some 36
      · obtain ⟨w₂, hnumber, hreader, htrim₂, hbounds₂⟩ := number_spec (w := w₁.skip n) hword
        rw [and_iff_right hntokens, hskip] at hbounds₂
        have hremains₂ : IovecReader.Remains iov w₂.reader rest₁ := hreader.symm ▸ hremains
        have hloop := arguments_signed hread hn (hstarts.mpr hsign) hnumber
        cases hsize : (strtou32 ((word.drop 1).take bufferSize)).1 with
        | none =>
          rw [hsize] at hloop
          refine ⟨some (-1), w₂, hloop nargs, by omega, ?_⟩
          rw [hbounds₂, lengthsFit_of_none hsign hsize]
        | some size =>
          rw [hsize] at hloop
          simp only [lengthsFit_of_some hsign hsize]
          cases hvalues : ws with
          | nil =>
            obtain ⟨w₃, hread₃, -, hbounds₃⟩ := readToken_none hsmall hremains₂ (hws.trans hvalues) ntokens fuel
            refine ⟨some 1, { w₃ with trim := 0 }, ?_, Nat.zero_le _, ?_⟩
            · rw [hloop, hread₃]
              rfl
            · rw [and_iff_left hntokens, hbounds₂] at hbounds₃
              exact hbounds₃.trans (and_congr_right (fun _ => (and_iff_left (lengthsFit_nil nargs)).symm))
          | cons value ws' =>
            obtain ⟨m, w₃, rest₃, hread₃, hm, hremains₃, hws₃, -, htrim₃, hbounds₃⟩ :=
              readToken_some hsmall hremains₂ (hws.trans hvalues) ntokens fuel
            obtain ⟨result, w', hresult, hle, hbounds'⟩ :=
              ih (w := w₃.skip m) (show ntokens + 1 + nargs ≤ maxTokens by omega) hremains₃
                (show w₃.trim + m + rest₃.length = total by omega)
            refine ⟨result, w', ?_, hle, ?_⟩
            · rw [hloop, hread₃]
              simpa [hm] using hresult
            · rw [and_iff_left hntokens, hbounds₂] at hbounds₃
              have hskip₃ : (w₃.skip m).InBounds ↔ _ := hbounds₃
              rw [hbounds', hskip₃, hws₃, and_assoc]
              rfl
      · refine ⟨some (-1), w₁.skip n, ?_, by omega, ?_⟩
        · have hsign' : Slice.startsWith ((w₁.skip n).tokens ntokens) [36] = false := by
            rw [← Bool.not_eq_true]
            exact fun htrue => hsign (hstarts.mp htrue)
          simp only [arguments, hread, Option.bind_eq_bind, Option.bind_some, if_neg hn, hsign', Bool.not_false, if_true]
        · rw [hskip, LengthsFit]
          exact (and_iff_left (fun hhead => absurd hhead hsign)).symm

/-- The words of a line are read into one token after the other, and the token behind the last one is used too. -/
theorem inlineTokens_spec (ntokens : Nat) (hfuel : rest.length < fuel) (h : IovecReader.Remains iov w.reader rest)
    (htotal : w.trim + rest.length = total) : ∃ w', inlineTokens iov fuel ntokens w = some w' ∧ w'.trim ≤ total ∧
      (w'.InBounds ↔ w.InBounds ∧ ntokens + (words separators rest).length < maxTokens) := by
  induction fuel generalizing ntokens w rest with
  | zero => omega
  | succ fuel ih =>
    obtain ⟨w₁, hread, hremains, hword, htrim, hbounds⟩ := tokenize_spec hsmall h ntokens
    have hle := firstToken_le separators rest
    by_cases hnil : rest = []
    · subst hnil
      refine ⟨w₁, ?_, by omega, hbounds⟩
      simp only [inlineTokens, hread, Option.bind_eq_bind, Option.bind_some]
      rfl
    · have hpos : 0 < (firstToken separators rest).2 := firstToken_pos hnil
      generalize hn : (firstToken separators rest).2 = n at *
      have hlength : (rest.drop n).length = rest.length - n := List.length_drop
      obtain ⟨w', hresult, htrim', hbounds'⟩ := ih
        (if Slice.isEmpty ((w₁.skip n).tokens ntokens) then ntokens else ntokens + 1)
        (w := w₁.skip n) (by omega) hremains (show w₁.trim + n + _ = total by omega)
      refine ⟨w', ?_, htrim', ?_⟩
      · simp only [inlineTokens, hread, Option.bind_eq_bind, Option.bind_some, if_neg (Nat.ne_of_gt hpos)]
        exact hresult
      · rw [hbounds']
        change w₁.InBounds ∧ _ ↔ _
        rw [hbounds, and_assoc]
        have hempty : Slice.isEmpty ((w₁.skip n).tokens ntokens) = true ↔ (firstToken separators rest).1 = [] :=
          hword.isEmpty_iff
        refine and_congr_right (fun _ => ?_)
        by_cases hnone : (firstToken separators rest).1 = []
        · have hall := firstToken_of_nil hnone
          rw [words_eq separators rest, if_pos (hempty.mpr hnone), if_pos hnone, ← hn, hall, List.drop_length]
          exact and_iff_right_of_imp (fun hlt => hlt)
        · rw [words_eq separators rest, if_neg (fun htrue => hnone (hempty.mp htrue)), if_neg hnone, hn, List.length_cons]
          omega

theorem processMultibulk_spec (fuel : Nat) (obuffer : RingBuf) (hword : IsWord (w.tokens 0) word)
    (h : IovecReader.Remains iov w.reader rest) (htotal : w.trim + rest.length = total) :
    ∃ r, processMultibulk iov (fuel + 2) obuffer w = some r ∧ r.2.2.trim ≤ total ∧
      (r.2.2.InBounds ↔ w.InBounds ∧ (word.drop 1).length < bufferSize ∧
        ∀ nargs, (strtou32 (word.drop 1)).1 = some nargs → nargs ≤ maxTokens →
          LengthsFit nargs (words separators rest)) := by
  obtain ⟨w₁, hnumber, hreader, htrim, hbounds⟩ := number_spec hword
  rw [and_iff_right (show 0 < maxTokens by decide)] at hbounds
  simp only [processMultibulk, hnumber]
  cases hnargs : (strtou32 ((word.drop 1).take bufferSize)).1 with
  | none =>
    refine ⟨_, rfl, by simp only; omega, hbounds.trans (and_congr_right (fun _ => (and_iff_left_of_imp ?_).symm))⟩
    intro hlt nargs hsome
    rw [take_of_fits hlt, hsome] at hnargs
    cases hnargs
  | some nargs =>
    by_cases hmany : maxTokens < nargs
    · simp only [if_pos hmany]
      refine ⟨_, rfl, by simp only; omega, hbounds.trans (and_congr_right (fun _ => (and_iff_left_of_imp ?_).symm))⟩
      intro hlt nargs' hsome hle
      rw [take_of_fits hlt, hsome] at hnargs
      cases hnargs
      omega
    · obtain ⟨result, w₂, hresult, hle, hbounds₂⟩ := arguments_spec hsmall fuel (w := w₁)
        (show 0 + nargs ≤ maxTokens by omega) (hreader.symm ▸ h) (show w₁.trim + rest.length = total by omega)
      have hiff : w₂.InBounds ↔ w.InBounds ∧ (word.drop 1).length < bufferSize ∧
          ∀ nargs, (strtou32 (word.drop 1)).1 = some nargs → nargs ≤ maxTokens →
            LengthsFit nargs (words separators rest) := by
        rw [hbounds₂, hbounds, and_assoc]
        refine and_congr_right (fun _ => and_congr_right (fun hlt => ?_))
        rw [take_of_fits hlt] at hnargs
        constructor
        · intro hlengths nargs' hsome _
          rw [hnargs] at hsome
          cases hsome
          exact hlengths
        · exact fun hall => hall nargs hnargs (Nat.not_lt.mp hmany)
      simp only [if_neg hmany, hresult, Option.bind_eq_bind, Option.bind_some]
      cases result with
      | some result => exact ⟨_, rfl, hle, hiff⟩
      | none =>
        refine ⟨_, rfl, ?_, (inBounds_processCommand obuffer w₂).trans hiff⟩
        rw [processCommand_spec]
        exact hle

theorem processInline_spec (obuffer : RingBuf) (hfuel : rest.length < fuel)
    (h : IovecReader.Remains iov w.reader rest) (htotal : w.trim + rest.length = total) :
    ∃ r, processInline iov fuel obuffer w = some r ∧ r.2.2.trim ≤ total ∧
      (r.2.2.InBounds ↔ w.InBounds ∧ (words separators rest).length + 1 < maxTokens) := by
  obtain ⟨w', hresult, hle, hbounds⟩ := inlineTokens_spec hsmall 1 hfuel h htotal
  refine ⟨processCommand obuffer w', by rw [processInline, hresult]; rfl, ?_, ?_⟩
  · rw [processCommand_spec]
    exact hle
  · rw [inBounds_processCommand, hbounds, Nat.add_comm]

/-- The words of the content decide whether a request stays in bounds. -/
theorem process_spec (obuffer : RingBuf) {content : Bytes} (hfuel : content.length ≤ fuel)
    (h : IovecReader.Remains iov (IovecReader.opened iov) content) :
    ∃ r, process iov (fuel + 2) obuffer = some r ∧ r.2.2.trim ≤ content.length ∧
      (r.2.2.InBounds ↔ Fits (words separators content)) := by
  have hopened := opened_inBounds iov
  have htokens : 0 < maxTokens := by decide
  have hstart : IovecReader.Remains iov (Work.opened iov).reader content := h
  cases hwords : words separators content with
  | nil =>
    obtain ⟨w₁, hread, htrim, hbounds⟩ := readToken_none hsmall hstart hwords 0 fuel
    refine ⟨(obuffer, 1, w₁), ?_, ?_, ?_⟩
    · simp only [process, hread, Option.bind_eq_bind, Option.bind_some, if_true]
    · rw [htrim]
      exact (Nat.zero_add _).le
    · rw [hbounds]
      exact iff_of_true ⟨hopened, htokens⟩ trivial
  | cons word ws =>
    obtain ⟨n, w₁, rest, hread, hn, hremains, hws, hword, htrim, hbounds⟩ := readToken_some hsmall hstart hwords 0 fuel
    have hzero : (Work.opened iov).trim = 0 := rfl
    have hin : (w₁.skip n).InBounds := hbounds.mpr ⟨hopened, htokens⟩
    have hstarts := hword.startsWith_iff 42
    have hword' : IsWord ((w₁.skip n).tokens 0) word := hword
    have htotal : (w₁.skip n).trim + rest.length = content.length := by
      change w₁.trim + n + rest.length = content.length
      omega
    by_cases hsign : word.head? = some 42
    · obtain ⟨r, hresult, hle, hiff⟩ := processMultibulk_spec hsmall fuel obuffer hword' hremains htotal
      refine ⟨r, ?_, hle, ?_⟩
      · have hsign' : Slice.startsWith ((w₁.skip n).tokens 0) [42] = true := hstarts.mpr hsign
        simp only [process, hread, Option.bind_eq_bind, Option.bind_some, if_neg hn, hsign', if_true]
        exact hresult
      · rw [hiff, and_iff_right hin, hws, Fits, if_pos hsign]
    · obtain ⟨r, hresult, hle, hiff⟩ := processInline_spec hsmall (w := w₁.skip n) obuffer
        (show rest.length < fuel + 2 by omega) hremains htotal
      refine ⟨r, ?_, hle, ?_⟩
      · have hsign' : ¬ Slice.startsWith ((w₁.skip n).tokens 0) [42] = true := fun htrue => hsign (hstarts.mp htrue)
        simp only [process, hread, Option.bind_eq_bind, Option.bind_some, if_neg hn, if_neg hsign']
        exact hresult
      · rw [hiff, and_iff_right hin, hws, Fits, if_neg hsign]

end

/-! ### Reading -/

/-- What a ring of 512 bytes holds when a read has fetched what there is room for. -/
def buffered (queue : Bytes) (ready : Option Bytes) : Bytes := queue ++ (ready.getD []).take (512 - queue.length)

/-- What a read parses: nothing when nothing arrives, and nothing of a ring that is full. -/
def parsed (queue : Bytes) (ready : Option Bytes) : Bytes :=
  if ready.getD [] = [] ∨ 512 ≤ (buffered queue ready).length then [] else buffered queue ready

/-- The segments of a ring with room are chunks with bytes, with the empty ones at the end. -/
theorem remains_popIov {r : RingBuf} {content : Bytes} (h : r.Stores content) (hlt : content.length < r.size) :
    IovecReader.Remains
      [r.load (r.popIov r.size).1 (r.popIov r.size).1.len, r.load (r.popIov r.size).2 (r.popIov r.size).2.len]
      (IovecReader.opened
        [r.load (r.popIov r.size).1 (r.popIov r.size).1.len, r.load (r.popIov r.size).2 (r.popIov r.size).2.len])
      content := by
  have hall := h.popIov hlt r.size
  have hfirst := h.popIov_first hlt
  rw [List.take_of_length_le (Nat.le_of_lt hlt)] at hall
  generalize r.load (r.popIov r.size).1 (r.popIov r.size).1.len = first at *
  generalize r.load (r.popIov r.size).2 (r.popIov r.size).2.len = second at *
  subst hall
  by_cases hnone : first = []
  · have hnil : first ++ second = [] := by
      by_contra hsome
      exact hfirst hsome hnone
    obtain ⟨rfl, rfl⟩ := List.append_eq_nil_iff.mp hnil
    exact IovecReader.remains_opened [] (fun _ hchunk => absurd hchunk List.not_mem_nil) 2
  · by_cases hsecond : second = []
    · subst hsecond
      have hremains := IovecReader.remains_opened [first] (fun chunk hchunk => List.mem_singleton.mp hchunk ▸ hnone) 1
      exact hremains
    · have hremains := IovecReader.remains_opened [first, second]
        (fun chunk hchunk => by rcases List.mem_pair.mp hchunk with rfl | rfl <;> assumption) 0
      simpa using hremains

theorem indexed_range {tokenIndexes bufferIndexes : List Nat} :
    Indexed (tokenIndexes ++ List.range maxTokens) bufferIndexes ↔ Indexed tokenIndexes bufferIndexes := by
  constructor
  · rintro ⟨htokens, hbuffer⟩
    exact ⟨fun i hi => htokens i (List.mem_append_left _ hi), hbuffer⟩
  · rintro ⟨htokens, hbuffer⟩
    refine ⟨fun i hi => ?_, hbuffer⟩
    obtain hi | hi := List.mem_append.mp hi
    · exact htokens i hi
    · exact List.mem_range.mp hi

/-- A read that has fetched some bytes parses what its reader sees of them. -/
theorem clientRead_fetched {client : Client} {ready : Option Bytes} {ring : RingBuf} {n : Int} {content str : Bytes}
    (hroom : ¬ client.ibuffer.isFull = true) (hfetch : client.ibuffer.fdFetch ready = (ring, n)) (hn : 0 < n)
    (h : ring.Stores content) (hlength : content.length < 2 ^ 32) (hstr : str.length ≤ content.length) {chunks : List Bytes}
    (hchunks : [ring.load (ring.popIov ring.size).1 (ring.popIov ring.size).1.len,
      ring.load (ring.popIov ring.size).2 (ring.popIov ring.size).2.len] = chunks)
    (hflatten : chunks.flatten = str) (hremains : IovecReader.Remains chunks (IovecReader.opened chunks) str) :
    ∃ outcome, clientRead client ready = some outcome ∧
      outcome.client.ibuffer.Stores (content.drop outcome.trim) ∧
      (Indexed outcome.tokenIndexes outcome.bufferIndexes ∧ outcome.trim ≤ content.length ↔
        Fits (words separators str)) := by
  obtain ⟨⟨obuffer, result, w⟩, hprocess, htrim, hbounds⟩ :=
    process_spec (show chunks.flatten.length < 2 ^ 32 by rw [hflatten]; omega) client.obuffer
      (show str.length ≤ chunks.flatten.length by rw [hflatten]) hremains
  have hskipped : w.trim ≤ content.length := Nat.le_trans htrim hstr
  refine ⟨{ result := result, client := { ibuffer := ring.rskip w.trim, obuffer := obuffer },
            writable := some (!obuffer.isEmpty), trim := w.trim,
            tokenIndexes := w.tokenIndexes ++ List.range maxTokens, bufferIndexes := w.bufferIndexes },
    ?_, h.rskip hskipped, ?_⟩
  · simp only [clientRead, if_neg hroom, hfetch, if_neg (Int.not_le.mpr hn), hchunks, hprocess, Option.bind_eq_bind,
      Option.bind_some]
  · rw [← hbounds, indexed_range, and_iff_left hskipped]
    rfl

/-- A read parses a request within the bounds exactly when its words fit; what it skips was received in any case. -/
theorem clientRead_in_bounds_iff {client : Client} {queue : Bytes} (h : client.ibuffer.Stores queue)
    (hsize : client.ibuffer.size = 512) (ready : Option Bytes) : ∃ outcome, clientRead client ready = some outcome ∧
      outcome.client.ibuffer.Stores ((buffered queue ready).drop outcome.trim) ∧
      (Indexed outcome.tokenIndexes outcome.bufferIndexes ∧ outcome.trim ≤ (buffered queue ready).length ↔
        Fits (words separators (parsed queue ready))) := by
  have hle := h.length_le
  have hnothing : Indexed [] [] := ⟨fun i hi => absurd hi List.not_mem_nil, fun i hi => absurd hi List.not_mem_nil⟩
  rw [hsize] at hle
  by_cases hfull : client.ibuffer.isFull = true
  · have hlength := h.isFull_iff.mp hfull
    rw [hsize] at hlength
    have hbuffered : buffered queue ready = queue := by
      rw [buffered, hlength, Nat.sub_self, List.take_zero, List.append_nil]
    refine ⟨.unparsed 0 client, by rw [clientRead, if_pos hfull], ?_, ?_⟩
    · rw [hbuffered]
      exact h
    · rw [parsed, hbuffered, if_pos (.inr hlength.ge)]
      exact iff_of_true ⟨hnothing, Nat.zero_le _⟩ trivial
  · have hlt : queue.length < client.ibuffer.size := by
      rw [h.isFull_iff] at hfull
      omega
    by_cases hnone : ready.getD [] = []
    · obtain ⟨ring, n, hfetch, hn, hring⟩ := h.fdFetch_nothing hlt hnone
      have hbuffered : buffered queue ready = queue := by rw [buffered, hnone, List.take_nil, List.append_nil]
      refine ⟨.unparsed (-1) { client with ibuffer := ring }, ?_, ?_, ?_⟩
      · simp only [clientRead, if_neg hfull, hfetch, if_pos hn]
      · rw [hbuffered]
        exact hring
      · rw [parsed, if_pos (.inl hnone)]
        exact iff_of_true ⟨hnothing, Nat.zero_le _⟩ trivial
    · obtain ⟨bytes, rfl⟩ : ∃ bytes, ready = some bytes := by
        cases ready with
        | none => exact absurd rfl hnone
        | some bytes => exact ⟨bytes, rfl⟩
      obtain ⟨ring, hfetch, hring, hring_size⟩ := h.fdFetch hlt bytes
      have hpos := List.length_pos_of_ne_nil (show bytes ≠ [] from hnone)
      have htaken : 0 < (bytes.take (client.ibuffer.size - queue.length)).length := by
        rw [List.length_take]
        omega
      have hcontent : queue ++ bytes.take (client.ibuffer.size - queue.length) = buffered queue (some bytes) := by
        rw [hsize]
        rfl
      rw [hcontent] at hring
      have hbound := hring.length_le
      rw [hring_size, hsize] at hbound
      have hlength : (buffered queue (some bytes)).length < 2 ^ 32 := Nat.lt_of_le_of_lt hbound (by decide)
      by_cases hroom : (buffered queue (some bytes)).length < 512
      · rw [parsed, if_neg (not_or.mpr ⟨hnone, Nat.not_le.mpr hroom⟩)]
        have hroom' : (buffered queue (some bytes)).length < ring.size := by rwa [hring_size, hsize]
        refine clientRead_fetched hfull hfetch (Int.natCast_pos.mpr htaken) hring hlength (Nat.le_refl _) rfl ?_
          (remains_popIov hring hroom')
        rw [← List.take_of_length_le (Nat.le_of_lt hroom'), ← hring.popIov hroom' ring.size]
        simp
      · rw [parsed, if_pos (.inr (Nat.not_lt.mp hroom))]
        obtain ⟨hfirst, hsecond⟩ := hring.popIov_full (by omega)
        refine clientRead_fetched hfull hfetch (Int.natCast_pos.mpr htaken) hring hlength (Nat.zero_le _) rfl ?_ ?_
        · rw [hfirst, hsecond]
          simp [RingBuf.load]
        · rw [hfirst, hsecond]
          exact IovecReader.remains_opened [] (fun _ hchunk => absurd hchunk List.not_mem_nil) 2

/-- A ring with `*1` in the last two bytes of its memory. -/
def wrappedRing : RingBuf := ((RingBuf.alloc 512 (fun _ => 0)).fdFetch (some (List.replicate 510 0 ++ [42, 49]))).1.rskip 510

/-- The rest of the request is fetched to the front of the memory. -/
theorem clientRead_wrapped_multibulk : ∃ outcome,
    clientRead { ibuffer := wrappedRing, obuffer := .alloc 512 (fun _ => 0) }
      (some [13, 10, 36, 52, 13, 10, 112, 105, 110, 103, 13, 10]) = some outcome ∧
    outcome.client.ibuffer.Stores
      ([42, 49, 13, 10, 36, 52, 13, 10, 112, 105, 110, 103, 13, 10].drop outcome.trim) ∧
    Indexed outcome.tokenIndexes outcome.bufferIndexes ∧ outcome.trim ≤ 14 := by
  have hempty := RingBuf.Stores.alloc (show (ringSize 512).isPowerOfTwo from ⟨9, by decide +kernel⟩) (fun _ => 0)
  obtain ⟨ring, hfetch, hfilled, hsize⟩ := hempty.fdFetch (by decide) (List.replicate 510 0 ++ [42, 49])
  have hring : wrappedRing = ring.rskip 510 := by rw [wrappedRing, hfetch]
  have hstores : wrappedRing.Stores [42, 49] := by
    have hlast : (([] : Bytes) ++ (List.replicate 510 0 ++ [42, 49] : Bytes).take
        ((RingBuf.alloc 512 (fun _ => 0)).size - ([] : Bytes).length)).drop 510 = [42, 49] := by decide +kernel
    have hskipped := hfilled.rskip (n := 510) (by decide +kernel)
    rwa [hlast, ← hring] at hskipped
  obtain ⟨outcome, hread, hrest, hiff⟩ := @clientRead_in_bounds_iff
    { ibuffer := wrappedRing, obuffer := .alloc 512 (fun _ => 0) } [42, 49] hstores (hring ▸ hsize)
    (some [13, 10, 36, 52, 13, 10, 112, 105, 110, 103, 13, 10])
  have hwords : words separators (parsed [42, 49] (some [13, 10, 36, 52, 13, 10, 112, 105, 110, 103, 13, 10])) =
      [[42, 49], [36, 52], [112, 105, 110, 103]] := by decide +kernel
  refine ⟨outcome, hread, hrest, hiff.mpr ?_⟩
  rw [hwords]
  refine ⟨by decide, fun nargs hnargs _ => ?_⟩
  obtain rfl : 1 = nargs := Option.some.inj hnargs
  exact fun _ => ⟨by decide, fun _ => trivial⟩

/-- Sixteen words use a token behind the array, and a number of sixteen characters a byte behind the buffer. -/
theorem long_requests_overflow :
    (¬ ∃ outcome, clientRead { ibuffer := .alloc 512 (fun _ => 0), obuffer := .alloc 512 (fun _ => 0) }
        (some (List.replicate 16 [97, 32]).flatten) = some outcome ∧
      Indexed outcome.tokenIndexes outcome.bufferIndexes ∧ outcome.trim ≤ 32) ∧
    ¬ ∃ outcome, clientRead { ibuffer := .alloc 512 (fun _ => 0), obuffer := .alloc 512 (fun _ => 0) }
        (some (42 :: List.replicate 16 49 ++ [10])) = some outcome ∧
      Indexed outcome.tokenIndexes outcome.bufferIndexes ∧ outcome.trim ≤ 18 := by
  have hline : (clientRead { ibuffer := .alloc 512 (fun _ => 0), obuffer := .alloc 512 (fun _ => 0) }
      (some (List.replicate 16 [97, 32]).flatten)).map (fun outcome => decide (16 ∈ outcome.tokenIndexes)) = some true := by
    decide +kernel
  have hnumber : (clientRead { ibuffer := .alloc 512 (fun _ => 0), obuffer := .alloc 512 (fun _ => 0) }
      (some (42 :: List.replicate 16 49 ++ [10]))).map (fun outcome => decide (16 ∈ outcome.bufferIndexes)) = some true := by
    decide +kernel
  constructor
  · rintro ⟨outcome, hread, hindexed, -⟩
    rw [hread] at hline
    exact absurd (hindexed.tokens 16 (by simpa using hline)) (by decide)
  · rintro ⟨outcome, hread, hindexed, -⟩
    rw [hread] at hnumber
    exact absurd (hindexed.buffer 16 (by simpa using hnumber)) (by decide)

end RaleighSL.Server.Redis
