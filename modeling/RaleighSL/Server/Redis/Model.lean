import RaleighSL.Zcl.Reader.Tokenize
import RaleighSL.Zcl.RingBuf
import RaleighSL.Zcl.Strtol

/-!
# Requests of the redis protocol

`raleigh-server/redis.c`: a read fetches what has arrived into the input ring and parses one request
of it, either a line of words or the form with an asterisk, where the lengths of the arguments stand in
front of them. The words go into an array of sixteen tokens, the numbers through a buffer of sixteen
bytes, and what the request took is skipped.

The model goes on where an index is outside of its array, and keeps every index that was used. The
command is made lower case in the memory of the ring too, in bytes that are skipped at the end.
-/
namespace RaleighSL.Server.Redis
open Zcl

def maxTokens : Nat := 16

def commandToken : Nat := 0

def bufferSize : Nat := 16

/-- The separators between words: blank, tab, carriage return, newline, vertical tab and form feed. -/
def separators : Bytes := [32, 9, 13, 10, 11, 12]

/-! ### Numbers -/

/-- `z_strtou32` of a terminated string, for the base 10: the number if one is converted, and the index of the last
character that is looked at, which is the first one behind the digits. -/
def strtou32 (str : Bytes) : Option Nat × Nat :=
  let r := Strtol.strtou32 10 str
  (if r.1 then some r.2.toNat else none,
    (str.takeWhile Strtol.isspace).length + ((str.dropWhile Strtol.isspace).takeWhile Strtol.isdigit).length)

/-! ### Words -/

/-- A request while it is parsed: the reader, the tokens, the bytes to skip, and the indexes used so far. -/
structure Work where
  reader : IovecReader
  tokens : Nat → Slice.State
  trim : Nat
  tokenIndexes : List Nat
  bufferIndexes : List Nat

def Work.set (w : Work) (i : Nat) (slice : Slice.State) : Work :=
  { w with tokens := Function.update w.tokens i slice, tokenIndexes := w.tokenIndexes ++ [i] }

def Work.skip (w : Work) (n : Nat) : Work := { w with trim := w.trim + n }

variable (iov : List Bytes)

/-- `z_reader_tokenize` into a token. The chunks have fewer parts than bytes. -/
def tokenize (i : Nat) (w : Work) : Option (Nat × Work) := do
  let (n, slice, reader) ← (IovecReader.methods iov).tokenize separators (iov.flatten.length + 1) w.reader
  some (n, { w with reader := reader }.set i slice)

/-- The loop that reads into a token until it has bytes, or there is nothing to read. -/
def readToken (i : Nat) : Nat → Work → Option (Nat × Work)
  | 0, _ => none
  | fuel + 1, w => do
    let (n, w) ← tokenize iov i w
    if n = 0 then some (0, w)
    else if Slice.isEmpty (w.tokens i) then readToken i fuel (w.skip n)
    else some (n, w)

/-- The first character of a token is dropped, and the others are read as a number through the buffer. -/
def number (i : Nat) (w : Work) : Option Nat × Work :=
  let slice := Slice.ltrim (w.tokens i) 1
  let copied := Slice.copy slice bufferSize
  let r := strtou32 (copied.1.take copied.2)
  let w := w.set i slice
  (r.1, { w with bufferIndexes := w.bufferIndexes ++
    (List.range copied.1.length ++ [copied.2] ++ List.range (r.2 + 1)) })

/-! ### Commands -/

def processPing (obuffer : RingBuf) : RingBuf × Int :=
  let r := obuffer.push [43, 80, 79, 78, 71, 13, 10]
  (r.1, r.2)

def processQuit (obuffer : RingBuf) : RingBuf × Int := ((obuffer.push [43, 79, 75, 13, 10]).1, -1)

def redisCommands : List (Bytes × (RingBuf → RingBuf × Int)) :=
  [([112, 105, 110, 103], processPing), ([113, 117, 105, 116], processQuit)]

def processCommand (obuffer : RingBuf) (w : Work) : RingBuf × Int × Work :=
  let w := w.set commandToken (Slice.toLower (w.tokens commandToken))
  let token := w.tokens commandToken
  match redisCommands.find? (fun p => !(Slice.length token < p.1.length) && Slice.equals token p.1) with
  | some p => let r := p.2 obuffer; (r.1, r.2, w)
  | none => (obuffer, -1, w)

/-! ### Requests -/

/-- The loop of `__redis_process_multibulk`, with the result when it returns. -/
def arguments (fuel : Nat) : Nat → Nat → Work → Option (Option Int × Work)
  | 0, _, w => some (none, w)
  | nargs + 1, ntokens, w => do
    let (n, w) ← readToken iov ntokens fuel w
    if n = 0 then some (some 1, { w with trim := 0 })
    else
      let w := w.skip n
      if !Slice.startsWith (w.tokens ntokens) [36] then some (some (-1), w)
      else
        let (size, w) := number ntokens w
        if size.isNone then some (some (-1), w)
        else do
          let (n, w) ← readToken iov ntokens fuel w
          if n = 0 then some (some 1, { w with trim := 0 })
          else arguments fuel nargs (ntokens + 1) (w.skip n)

def processMultibulk (fuel : Nat) (obuffer : RingBuf) (w : Work) : Option (RingBuf × Int × Work) :=
  let (nargs, w) := number 0 w
  match nargs with
  | none => some (obuffer, -1, w)
  | some nargs =>
    if maxTokens < nargs then some (obuffer, -1, w)
    else do
      let (result, w) ← arguments iov fuel nargs 0 w
      match result with
      | some result => some (obuffer, result, w)
      | none => some (processCommand obuffer w)

/-- The loop of `__redis_process_inline`. -/
def inlineTokens : Nat → Nat → Work → Option Work
  | 0, _, _ => none
  | fuel + 1, ntokens, w => do
    let (n, w) ← tokenize iov ntokens w
    if n = 0 then some w
    else
      let w := w.skip n
      inlineTokens fuel (if Slice.isEmpty (w.tokens ntokens) then ntokens else ntokens + 1) w

def processInline (fuel : Nat) (obuffer : RingBuf) (w : Work) : Option (RingBuf × Int × Work) :=
  (inlineTokens iov fuel 1 w).map (processCommand obuffer)

/-! ### Reading -/

structure Client where
  ibuffer : RingBuf
  obuffer : RingBuf

/-- What a read returns and leaves, whether the client is made writable, and what the parsing did. -/
structure Outcome where
  result : Int
  client : Client
  writable : Option Bool
  trim : Nat
  tokenIndexes : List Nat
  bufferIndexes : List Nat

def Outcome.unparsed (result : Int) (client : Client) : Outcome :=
  { result := result, client := client, writable := none, trim := 0, tokenIndexes := [], bufferIndexes := [] }

def Work.opened (iov : List Bytes) : Work :=
  { reader := IovecReader.opened iov, tokens := fun _ => Slice.empty, trim := 0,
    tokenIndexes := List.range maxTokens, bufferIndexes := [] }

def process (fuel : Nat) (obuffer : RingBuf) : Option (RingBuf × Int × Work) := do
  let (n, w) ← readToken iov 0 fuel (Work.opened iov)
  if n = 0 then some (obuffer, 1, w)
  else
    let w := w.skip n
    if Slice.startsWith (w.tokens 0) [42] then processMultibulk iov fuel obuffer w
    else processInline iov fuel obuffer w

/-- `__client_read`, when some bytes are ready for the descriptor. -/
def clientRead (client : Client) (ready : Option Bytes) : Option Outcome :=
  if client.ibuffer.isFull then some (.unparsed 0 client)
  else
    let fetched := client.ibuffer.fdFetch ready
    if fetched.2 ≤ 0 then some (.unparsed (-1) { client with ibuffer := fetched.1 })
    else do
      let ibuffer := fetched.1
      let iov := ibuffer.popIov ibuffer.size
      let chunks := [ibuffer.load iov.1 iov.1.len, ibuffer.load iov.2 iov.2.len]
      let (obuffer, result, w) ← process chunks (chunks.flatten.length + 2) client.obuffer
      some { result := result, client := { ibuffer := ibuffer.rskip w.trim, obuffer := obuffer },
             writable := some (!obuffer.isEmpty), trim := w.trim,
             tokenIndexes := w.tokenIndexes ++ List.range maxTokens, bufferIndexes := w.bufferIndexes }

end RaleighSL.Server.Redis
