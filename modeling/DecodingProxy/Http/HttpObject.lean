import DecodingProxy.Http.HttpBody
import DecodingProxy.Http.HttpFieldsV11
import DecodingProxy.Http.Messages
import DecodingProxy.Runtime.Memory

/-!
# `HttpObject`

`Push` is offered the bytes that were not consumed before, followed by new ones, and
returns how many it consumed. The header block is consumed line by line; after the
empty line the same call goes on with the body.
-/

namespace DecodingProxy.Http
open DecodingProxy.Runtime DecodingProxy.Lines

/-- Which of the three classes was constructed. -/
inductive HttpKind
  | object
  | request
  | response
  deriving DecidableEq, Repr

structure HttpObject where
  fields : HttpFieldsV11 := {}
  body : HttpBody := {}
  isCompleted : Bool := false
  isReadingFields : Bool := false
  isReadingBody : Bool := false
  isReadingBodyChunked : Bool := false

/-- The loop variables of `FillBodyChunked`. -/
structure ChunkLoop where
  body : HttpBody
  buffer : List UInt8
  consumed : ℤ

namespace HttpObject

/-- The constructors. -/
def new : HttpKind → HttpObject
  | .object => {}
  | .request => { fields := { isRequest := true } }
  | .response => { fields := { isResponse := true } }

/-- `Dispose`, after the object was returned to its pool. -/
def dispose (o : HttpObject) : Except Fault HttpObject := do
  let body ← o.body.dispose
  .ok { fields := o.fields.dispose, body }

def beginMsg (o : HttpObject) : HttpObject := { o with isReadingFields := true }

/-- What the length of the body decides. -/
def beginBody (p : Platform) (bodyLength : ℤ) (o : HttpObject) : Except Fault HttpObject :=
  if bodyLength > 0 then do
    let body ← o.body.setBodyLength p.pool bodyLength
    .ok { o with isReadingBody := true, body }
  else if bodyLength = -2 then
    .ok { o with isReadingBodyChunked := true, body := o.body.beginChunked }
  else .ok { o with isCompleted := true }

/-- What `ParseLines` does after the empty line. -/
def endFields (p : Platform) (o : HttpObject) : Except Fault HttpObject := do
  let fields ← o.fields.parseLines p
  HttpFieldsV11.applyFields p
  let bodyLength ← fields.analyzBodyLength p
  { o with fields, isReadingFields := false }.beginBody p bodyLength

/-- The recursion of `ParseLines` over the complete lines of the buffer. -/
def parseLines (p : Platform) (o : HttpObject) : List (List UInt8) → Except Fault (HttpObject × ℕ)
  | [] => .ok (o, 0)
  | slice :: left =>
    let (fields, span) := o.fields.addField p slice
    let o := { o with fields }
    if span.length = 2 then do
      let o ← o.endFields p
      .ok (o, 2)
    else do
      let (o, consumed) ← parseLines p o left
      .ok (o, consumed + slice.length)

def fillBody (seq : List UInt8) (o : HttpObject) : Except Fault (HttpObject × ℕ) := do
  let body ← o.body.write seq
  let body := { body with
    completed := body.completed + seq.length
    leftToRead := body.leftToRead - seq.length }
  let isCompleted := decide (body.leftToRead = 0)
  .ok ({ o with body, isCompleted, isReadingBody := !isCompleted }, seq.length)

/-- One turn of the loop of `FillBodyChunked`; without a line feed in the buffer nothing
changes. -/
def chunkTurn (seqLength : ℕ) (s : ChunkLoop) : Except Fault ChunkLoop :=
  match lines LF s.buffer with
  | [] => .ok s
  | slice :: _ => do
    let body ← s.body.appendChunked slice
    let lengthControl := slice.length
    if lengthControl = 2 then
      .ok { body, consumed := s.consumed + lengthControl, buffer := s.buffer.drop lengthControl }
    else do
      let length ← Str.parseHex (slice.map UInt8.toUInt16)
      let leftToRead : ℤ := seqLength - s.consumed - lengthControl
      let isCut := decide (length > leftToRead)
      let body := if isCut then { body with isRedingChunk := true, leftToRead := length } else body
      let length := if isCut then leftToRead else length
      let part ← sliceFrom s.buffer lengthControl
      let part ← sliceTo part length
      let body ← body.appendChunked part
      let buffer ← sliceFrom s.buffer (lengthControl + length)
      let body := if length = 0 then { body with isRedingEnclosure := true } else body
      .ok { body, buffer, consumed := s.consumed + (lengthControl + length) }

/-- The loop of `FillBodyChunked`, at most `turns` turns of it. -/
def chunkLoop (seqLength : ℕ) : ℕ → ChunkLoop → Except Halt ChunkLoop
  | 0, _ => .error .diverges
  | turns + 1, s =>
    if s.buffer = [] ∨ s.body.isRedingEnclosure then .ok s
    else
      match chunkTurn seqLength s with
      | .ok s => chunkLoop seqLength turns s
      | .error fault => .error (.threw fault)

/-- The part of `FillBodyChunked` after its loop. -/
def enclose (seq : List UInt8) (o : HttpObject) (s : ChunkLoop) :
    Except Fault (HttpObject × ℤ) :=
  if s.body.isRedingEnclosure then do
    let enclosure ← sliceTo seq 2
    let body ← s.body.appendChunked enclosure
    let body ← body.endChunked
    .ok ({ o with body := body.complete, isReadingBodyChunked := false, isCompleted := true },
      s.consumed + 2)
  else .ok ({ o with body := s.body }, s.consumed)

/-- Every turn that changes anything consumes a byte, so that a loop that is still running
after more turns than there are bytes never ends. -/
def fillBodyChunked (seq : List UInt8) (o : HttpObject) : Except Halt (HttpObject × ℤ) := do
  let start ← (if o.body.isRedingChunk then do
      let toConsume : ℤ := if o.body.leftToRead > seq.length then seq.length else o.body.leftToRead
      let part ← sliceTo seq toConsume
      let body ← o.body.appendChunked part
      let buffer ← sliceFrom seq toConsume
      .ok ⟨body, buffer, toConsume⟩
    else .ok ⟨o.body, seq, 0⟩ : Except Fault ChunkLoop).mapError .threw
  let done ← chunkLoop seq.length (seq.length + 2) start
  (o.enclose seq done).mapError .threw

/-- The part of `Push` after the fields. -/
def pushBody (buffer : List UInt8) (o : HttpObject) : Except Halt (HttpObject × ℤ) :=
  if o.isReadingBody then do
    let (o, filled) ← (o.fillBody buffer).mapError .threw
    .ok (o, filled)
  else if o.isReadingBodyChunked then o.fillBodyChunked buffer
  else .ok (o, 0)

def push (p : Platform) (buffer : List UInt8) (o : HttpObject) : Except Halt (HttpObject × ℤ) := do
  let (o, consumed) ←
    if o.isReadingFields then (o.parseLines p (lines LF buffer)).mapError .threw else .ok (o, 0)
  let (o, filled) ← o.pushBody (buffer.drop consumed)
  .ok (o, consumed + filled)

end HttpObject

/-- What reading one message leaves: the object, how many bytes it consumed, and the bytes
it did not consume. -/
structure Taken where
  object : HttpObject
  consumed : ℕ
  left : List UInt8

/-- The loop that pushes what the pipe offers to one object until it is complete. The pipe
refuses a position outside of what it offered. -/
def pushAll (p : Platform) (o : HttpObject) (pending : List UInt8) (consumed : ℕ) :
    List (List UInt8) → Except Halt Taken
  | [] => .ok ⟨o, consumed, pending⟩
  | read :: reads =>
    let buffer := pending ++ read
    if buffer = [] then pushAll p o pending consumed reads
    else do
      let (o, count) ← o.push p buffer
      if count < 0 ∨ buffer.length < count then .error (.threw (.raised .argumentOutOfRange))
      else if o.isCompleted then
        .ok ⟨o, consumed + count.toNat, buffer.drop count.toNat ++ reads.flatten⟩
      else pushAll p o (buffer.drop count.toNat) (consumed + count.toNat) reads

end DecodingProxy.Http
