import DecodingProxy.Http.HttpObject
import DecodingProxy.Piped.HttpBinaryMapped
import DecodingProxy.Runtime.Pipe

/-!
# `ObjectReaderHttp11Piped`

The reader is a machine whose step is one read of the pipe: what arrived since the last
one is offered together with what was left. `ReadObjectAsync` is called again as soon
as it has returned an object.
-/

namespace DecodingProxy.Piped
open DecodingProxy.Runtime DecodingProxy.Lines DecodingProxy.Http ConstantsForHttp

/-- The variables of `ReadBodyChunkedV1`. -/
structure ChunkedBodyLoop where
  item : HttpBinaryMapped
  isReadingChunk : Bool := false
  isReadingControl : Bool := true
  isReadingEnclosure : Bool := false
  isEnd : Bool := false
  lengthLeft : ℤ := 0

namespace ChunkedBodyLoop

/-- The block under `isReadingChunk`. -/
def readChunk (pool : ArrayPool) (lengthLoop : ℤ) (buffer : List UInt8) (s : ChunkedBodyLoop) :
    Except Fault (ChunkedBodyLoop × List UInt8) :=
  if s.isReadingChunk then do
    let sliceChunk ← sliceTo buffer lengthLoop
    let item ← s.item.addBodyForSure pool sliceChunk
    let buffer ← sliceFrom buffer lengthLoop
    let lengthLeft := s.lengthLeft - lengthLoop
    let isReadingEnclosure := decide (lengthLeft = 0) || s.isReadingEnclosure
    .ok ({ s with item, lengthLeft, isReadingEnclosure, isReadingChunk := !isReadingEnclosure },
      buffer)
  else .ok (s, buffer)

/-- The block under `isReadingEnclosure`. -/
def readEnclosure (pool : ArrayPool) (buffer : List UInt8) (s : ChunkedBodyLoop) :
    Except Fault (ChunkedBodyLoop × List UInt8) :=
  if s.isReadingEnclosure then do
    let lf ← sliceTo buffer LENGTH_LF
    let item ← s.item.addBodyForSure pool lf
    let buffer ← sliceFrom buffer LENGTH_LF
    .ok ({ s with item, isReadingControl := true, isReadingEnclosure := false }, buffer)
  else .ok (s, buffer)

/-- The rest of the turn once the line of a size is complete. -/
def readControl (pool : ArrayPool) (controline buffer : List UInt8) (s : ChunkedBodyLoop) :
    Except Fault (ChunkedBodyLoop × List UInt8) := do
  let item ← s.item.addBodyForSure pool controline
  let s := { s with item, isReadingControl := false }
  let chunkLength ← Str.parseHex (chars controline)
  if chunkLength = 0 then
    let s := { s with isReadingEnclosure := true, isEnd := true, item := s.item.bodyEnd }
    s.readEnclosure pool buffer
  else do
    let s := { s with isReadingChunk := true, lengthLeft := chunkLength }
    let lengthLoop : ℤ := if chunkLength > buffer.length then buffer.length else chunkLength
    let (s, buffer) ← s.readChunk pool lengthLoop buffer
    s.readEnclosure pool buffer

/-- One turn of the loop, and what is left of the buffer unless the turn ends with `continue`. -/
def turn (pool : ArrayPool) (buffer : List UInt8) (s : ChunkedBodyLoop) :
    Except Fault (ChunkedBodyLoop × Option (List UInt8)) :=
  if s.isReadingControl then
    match lines LF buffer with
    | [] => .ok (s, none)
    | controline :: _ => do
      let (s, left) ← s.readControl pool controline (buffer.drop controline.length)
      .ok (s, some left)
  else do
    let lengthLoop : ℤ := if buffer.length < s.lengthLeft then buffer.length else s.lengthLeft
    let (s, buffer) ← s.readChunk pool lengthLoop buffer
    let (s, left) ← s.readEnclosure pool buffer
    .ok (s, some left)

end ChunkedBodyLoop

/-- What a turn that reports nothing leaves of the pipe. -/
def report (pipe : Pipe) : Option (List UInt8) → Pipe
  | none => { pipe with reading := true }
  | some left => pipe.advanceTo left

/-- A call of `ReadBodyChunkedV1` on its pipe. -/
structure ChunkedBodyRead where
  loop : ChunkedBodyLoop
  pipe : Pipe := {}

/-- One read. A call that has returned leaves what arrives in the pipe. -/
def ChunkedBodyRead.step (pool : ArrayPool) (r : ChunkedBodyRead) (arrived : List UInt8) :
    Except Fault ChunkedBodyRead :=
  let pipe := r.pipe.arrive arrived
  if r.loop.isEnd then .ok { r with pipe }
  else if pipe.reading then .error (.raised .invalidOperation)
  else if pipe.pending = [] then .ok { r with pipe }
  else do
    let (loop, left) ← r.loop.turn pool pipe.pending
    .ok { loop, pipe := report pipe left }

/-- Where a call of `ReadObjectAsync` is. -/
inductive Phase
  | fields (item : HttpBinaryMapped) (offset : ℕ)
  | body (item : HttpBinaryMapped) (length : ℤ)
  | chunked (loop : ChunkedBodyLoop)

/-- `Rent`, `BindToPool` and `FieldsStart`. -/
def Phase.start (type : MessageType) : Phase := .fields ({ type } : HttpBinaryMapped).fieldsStart 0

/-- The pipe, the current call, and what the calls before it returned. -/
structure ObjectReader where
  type : MessageType
  pipe : Pipe := {}
  phase : Phase := .start type
  returned : List HttpBinaryMapped := []

/-- `ParseLineRecursive`: whether the empty line was met, and how much was taken. -/
def parseLineRecursive (pool : ArrayPool) (item : HttpBinaryMapped) (offset : ℕ) :
    List (List UInt8) → Except Fault (Bool × HttpBinaryMapped × ℕ)
  | [] => .ok (false, item.allocateFieldsMap, 0)
  | slice :: left => do
    let index := item.fieldsCount
    let item ← item.addField pool slice offset
    if slice.length = LENGTH_LF then do
      let item ← item.allocateFieldsMap.mapField index offset LENGTH_LF
      .ok (true, item.fieldsEnd, slice.length)
    else do
      let (isEnd, item, taken) ← parseLineRecursive pool item (offset + slice.length) left
      let item ← item.mapField index offset slice.length
      .ok (isEnd, item, slice.length + taken)

namespace ObjectReader

/-- `ReadObjectAsync` returns, and is called again. -/
def complete (item : HttpBinaryMapped) (r : ObjectReader) : ObjectReader :=
  { r with phase := .start r.type, returned := r.returned ++ [item] }

/-- `AwaitBody` up to its first read. -/
def beginBody (pool : ArrayPool) (item : HttpBinaryMapped) (r : ObjectReader) :
    Except Fault ObjectReader := do
  let length ← item.getBodyLength
  if length > 0 then do
    let (item, _) ← item.ensureCapacity pool length.toNat
    .ok { r with phase := .body item length }
  else if length = -2 then .ok { r with phase := .chunked { item } }
  else if length = -3 then
    .ok (r.complete { item with isReadingUntilCloseConnection := true }.bodyEnd)
  else .ok (r.complete item)

/-- What is done with a read that is not empty. -/
def turn (pool : ArrayPool) (r : ObjectReader) : Except Fault ObjectReader :=
  let buffer := r.pipe.pending
  match r.phase with
  | .fields item offset => do
    let (isEnd, item, taken) ← parseLineRecursive pool item offset (lines LF buffer)
    let r := { r with pipe := r.pipe.advanceTo (buffer.drop taken) }
    if isEnd then r.beginBody pool item else .ok { r with phase := .fields item item.length }
  | .body item length =>
    if length > buffer.length then do
      let item ← item.addBody buffer
      .ok { r with
        phase := .body item (length - buffer.length)
        pipe := r.pipe.advanceTo [] }
    else do
      let item ← item.addBody (buffer.take length.toNat)
      .ok ({ r with pipe := r.pipe.advanceTo (buffer.drop length.toNat) }.complete item.bodyEnd)
  | .chunked loop => do
    let (loop, left) ← loop.turn pool buffer
    let r := { r with pipe := report r.pipe left }
    if loop.isEnd then .ok (r.complete loop.item) else .ok { r with phase := .chunked loop }

/-- One read. -/
def step (pool : ArrayPool) (r : ObjectReader) (arrived : List UInt8) :
    Except Fault ObjectReader :=
  let r := { r with pipe := r.pipe.arrive arrived }
  if r.pipe.reading then .error (.raised .invalidOperation)
  else if r.pipe.pending = [] then .ok r
  else r.turn pool

end ObjectReader

end DecodingProxy.Piped
