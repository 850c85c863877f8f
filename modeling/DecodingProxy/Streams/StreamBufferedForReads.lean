import DecodingProxy.Runtime.ArrayPool

/-!
# `StreamBufferedForReads`

Three parties work on one object: the reader that calls `ReadAsync`, the filler task
that reads ahead, and whoever starts and stops the filler. An action is a piece of
one of their methods between two accesses to what they share: `length`, the queue,
the flag and the inner stream. The queue hands out copies of its segments, since
`BufferSegment` is a struct.
-/

namespace DecodingProxy.Streams
open DecodingProxy.Runtime DecodingProxy.Arrays

structure BufferSegment where
  buffer : List UInt8
  length : ℕ
  offset : ℕ := 0
  copied : ℕ := 0
  inBuffer : offset + length ≤ buffer.length

namespace BufferSegment

/-- `new Memory<byte>(buffer, offset, count)`. -/
def memory (s : BufferSegment) (count : ℕ) : List UInt8 := (s.buffer.drop s.offset).take count

/-- What is left in the segment. -/
def bytes (s : BufferSegment) : List UInt8 := s.memory s.length

def take (s : BufferSegment) (taken : ℕ) (h : taken ≤ s.length) : BufferSegment :=
  { s with
    offset := s.offset + taken
    length := s.length - taken
    inBuffer := by
      have := s.inBuffer
      omega }

/-- The bytes copied, whether no data is left, and the segment afterwards. -/
def transferTo (s : BufferSegment) (memoryLength : ℕ) : List UInt8 × Bool × BufferSegment :=
  if h : s.length < memoryLength then (s.bytes, true, { s with copied := s.length })
  else
    (s.memory memoryLength, false,
      { s.take memoryLength (Nat.le_of_not_lt h) with copied := memoryLength })

@[simp] theorem bytes_length (s : BufferSegment) : s.bytes.length = s.length := by
  have := s.inBuffer
  simp only [bytes, memory, List.length_take, List.length_drop]
  omega

theorem transferTo_of_lt {s : BufferSegment} {n : ℕ} (h : s.length < n) :
    s.transferTo n = (s.bytes, true, { s with copied := s.length }) := by
  rw [transferTo, dif_pos h]

theorem transferTo_of_le {s : BufferSegment} {n : ℕ} (h : n ≤ s.length) :
    s.transferTo n = (s.bytes.take n, false, { s.take n h with copied := n }) := by
  rw [transferTo, dif_neg (Nat.not_lt.mpr h), bytes, memory, memory, List.take_take,
    Nat.min_eq_left h]

end BufferSegment

/-- Who calls the inner stream's `ReadAsync`. -/
inductive Party
  | reader
  | filler
  deriving DecidableEq, Repr

/-- A chunk one of the two has read and not yet enqueued; `counted` after
`Interlocked.Add`. -/
structure Chunk where
  party : Party
  segment : BufferSegment
  counted : Bool := false

inductive ReaderState
  | idle
  | looping (left : ℕ)
  | missed (left : ℕ)
  | fetching (left : ℕ) (buffer : List UInt8)
  | transferred (left : ℕ) (read : List UInt8) (drained : Bool) (segment : BufferSegment)
  | subtracted (left : ℕ) (read : List UInt8) (drained : Bool) (segment : BufferSegment)

inductive FillerState
  | off
  | reading (buffer : List UInt8)
  | storing
  | ended

/-- Where the owner of the filler is in `StopFillingBuffer`. -/
inductive OwnerState
  | idle
  | stopping
  | joining
  deriving DecidableEq, Repr

structure StreamBufferedForReads where
  length : ℤ := 0
  segmentSize : ℤ
  flagReadToBufferIsRunning : ℤ := 0
  buffers : List BufferSegment := []
  isCancellationRequested : Bool := false
  reader : ReaderState := .idle
  filler : FillerState := .off
  owner : OwnerState := .idle
  /-- The chunks that were read and not enqueued, in the order they were read. -/
  inHand : List Chunk := []
  /-- Everything the inner stream has returned. -/
  produced : List UInt8 := []
  /-- Everything the reader's calls have returned. -/
  returned : List UInt8 := []
  /-- How much of the first segment the reader has had. -/
  taken : ℕ := 0

inductive BufferedAction
  | readAsync (count : ℕ)
  | peek
  | subtract
  | finish
  | checkFlag
  | innerRead (party : Party) (chunk : List UInt8)
  | innerThrow (party : Party)
  | count (party : Party)
  | enqueue (party : Party)
  | startFillingBuffer
  | stopFillingBuffer
  | cancel
  | join
  deriving DecidableEq, Repr

/-- Why an action does not lead on: it is not its party's turn, or it throws. -/
inductive Refusal
  | notPossible
  | throws (fault : Fault)
  deriving DecidableEq, Repr

namespace StreamBufferedForReads

def exAlreadyRunned : Fault := .thrown .invalidOperation "Filling buffer is already runned"
def exNotStarted : Fault := .thrown .invalidOperation
  "Trying to stop process that hasn't star yet"
def exUnexpectedState : Fault := .thrown .invalidOperation "Unexpected state"

variable (pool : ArrayPool)

/-- The filler rents an array and calls the inner stream. -/
def fillerRead (s : StreamBufferedForReads) : FillerState :=
  match pool.rent s.segmentSize with
  | .ok buffer => .reading buffer
  | .error _ => .ended

/-- A read of the inner stream puts `chunk` at the front of the rented array. -/
def receive (s : StreamBufferedForReads) (party : Party) (buffer chunk : List UInt8) :
    Except Refusal StreamBufferedForReads :=
  if h : chunk.length ≤ buffer.length then
    let segment : BufferSegment :=
      { buffer := writeAt buffer 0 chunk
        length := chunk.length
        inBuffer := by
          have hw : (writeAt buffer 0 chunk).length = buffer.length := writeAt_length (by omega)
          omega }
    .ok { s with inHand := s.inHand ++ [⟨party, segment, false⟩], produced := s.produced ++ chunk }
  else .error .notPossible

def isFetched (s : StreamBufferedForReads) (party : Party) : Bool :=
  s.inHand.any fun c => c.party = party

def step (s : StreamBufferedForReads) : BufferedAction → Except Refusal StreamBufferedForReads
  | .readAsync count =>
    match s.reader with
    | .idle => .ok (if count = 0 then s else { s with reader := .looping count })
    | _ => .error .notPossible
  | .peek =>
    match s.reader, s.buffers with
    | .looping left, [] => .ok { s with reader := .missed left }
    | .looping left, segment :: _ =>
      let (read, drained, bufferSegment) := segment.transferTo left
      .ok { s with reader := .transferred left read drained bufferSegment }
    | _, _ => .error .notPossible
  | .subtract =>
    match s.reader with
    | .transferred left read drained bufferSegment =>
      .ok { s with
        length := int32 (s.length - bufferSegment.copied)
        taken := max s.taken bufferSegment.copied
        reader := .subtracted left read drained bufferSegment }
    | _ => .error .notPossible
  | .finish =>
    match s.reader, s.buffers with
    | .subtracted _ read false _, _ =>
      .ok { s with returned := s.returned ++ read, reader := .idle }
    | .subtracted _ _ true _, [] => .error (.throws exUnexpectedState)
    | .subtracted left read true bufferSegment, _ :: buffers =>
      .ok { s with
        buffers, taken := 0, returned := s.returned ++ read
        reader := if bufferSegment.copied = 0 then .looping left else .idle }
    | _, _ => .error .notPossible
  | .checkFlag =>
    match s.reader with
    | .missed left =>
      if s.flagReadToBufferIsRunning = 0 then
        match pool.rent s.segmentSize with
        | .ok buffer => .ok { s with reader := .fetching left buffer }
        | .error _ => .ok { s with reader := .idle }
      else .ok { s with reader := .looping left }
    | _ => .error .notPossible
  | .innerRead .reader chunk =>
    match s.reader with
    | .fetching _ buffer =>
      if s.isFetched .reader then .error .notPossible
      else if chunk = [] then .ok s
      else s.receive .reader buffer chunk
    | _ => .error .notPossible
  | .innerRead .filler chunk =>
    match s.filler with
    | .reading buffer =>
      if chunk = [] then
        .ok { s with filler := if s.isCancellationRequested then .ended else s.fillerRead pool }
      else { s with filler := .storing }.receive .filler buffer chunk
    | _ => .error .notPossible
  | .innerThrow .reader =>
    match s.reader with
    | .fetching _ _ =>
      if s.isFetched .reader then .error .notPossible else .ok { s with reader := .idle }
    | _ => .error .notPossible
  | .innerThrow .filler =>
    match s.filler with
    | .reading _ => .ok { s with filler := .ended }
    | _ => .error .notPossible
  | .count party =>
    match s.inHand.find? (·.party = party) with
    | some chunk =>
      if chunk.counted then .error .notPossible
      else
        .ok { s with
          length := int32 (s.length + chunk.segment.length)
          inHand := s.inHand.map fun c => if c.party = party then { c with counted := true } else c }
    | none => .error .notPossible
  | .enqueue party =>
    match s.inHand.find? (·.party = party) with
    | some chunk =>
      if chunk.counted then
        .ok { s with
          buffers := s.buffers ++ [chunk.segment]
          inHand := s.inHand.filter (·.party ≠ party)
          reader := match party, s.reader with
            | .reader, .fetching left _ => .looping left
            | _, reader => reader
          filler := match party with
            | .filler => s.fillerRead pool
            | .reader => s.filler }
      else .error .notPossible
    | none => .error .notPossible
  | .startFillingBuffer =>
    if s.owner ≠ .idle then .error .notPossible
    else if s.flagReadToBufferIsRunning ≠ 0 then .error (.throws exAlreadyRunned)
    else
      .ok { s with
        flagReadToBufferIsRunning := 1
        isCancellationRequested := false
        filler := s.fillerRead pool }
  | .stopFillingBuffer =>
    if s.owner ≠ .idle then .error .notPossible
    else if s.flagReadToBufferIsRunning ≠ 1 then .error (.throws exNotStarted)
    else .ok { s with flagReadToBufferIsRunning := 0, owner := .stopping }
  | .cancel =>
    match s.owner with
    | .stopping => .ok { s with isCancellationRequested := true, owner := .joining }
    | _ => .error .notPossible
  | .join =>
    match s.owner, s.filler with
    | .joining, .ended => .ok { s with filler := .off, owner := .idle }
    | _, _ => .error .notPossible

end StreamBufferedForReads

end DecodingProxy.Streams
