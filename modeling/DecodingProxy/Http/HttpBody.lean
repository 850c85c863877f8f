import DecodingProxy.Runtime.ArrayPool

/-!
# `HttpBody`

`datas` is what everyone reads the body from: a window on the rented array while a
body of known length is read. A chunked body goes to a memory stream.
-/

namespace DecodingProxy.Http
open DecodingProxy.Runtime DecodingProxy.Arrays

structure HttpBody where
  buffer : List UInt8 := []
  datas : List UInt8 := []
  leftToRead : ℤ := 0
  completed : ℕ := 0
  isCompleted : Bool := false
  isChunked : Bool := false
  isRedingChunk : Bool := false
  isRedingEnclosure : Bool := false
  memoryStream : Option (List UInt8) := none
  deriving DecidableEq, Repr

namespace HttpBody

/-- A body that was read in chunks leaves an array in `buffer` that the pool never
handed out. -/
def dispose (b : HttpBody) : Except Fault HttpBody := do
  if b.buffer.length > 0 then ArrayPool.giveBack b.buffer
  .ok {}

def setBodyLength (pool : ArrayPool) (bodyLength : ℤ) (b : HttpBody) : Except Fault HttpBody := do
  let buffer ← pool.rent bodyLength
  .ok { b with leftToRead := bodyLength, buffer, datas := buffer.take bodyLength.toNat }

def appendChunked (seq : List UInt8) (b : HttpBody) : Except Fault HttpBody :=
  match b.memoryStream with
  | none => .error (.raised .nullReference)
  | some written =>
    let b := { b with memoryStream := some (written ++ seq), completed := b.completed + seq.length }
    if b.isRedingChunk then
      let leftToRead := b.leftToRead - seq.length
      .ok { b with leftToRead, isRedingChunk := decide (leftToRead > 0) }
    else .ok b

def complete (b : HttpBody) : HttpBody := { b with isCompleted := true }

def beginChunked (b : HttpBody) : HttpBody := { b with isChunked := true, memoryStream := some [] }

def endChunked (b : HttpBody) : Except Fault HttpBody :=
  match b.memoryStream with
  | none => .error (.raised .nullReference)
  | some written => .ok { b with buffer := written, memoryStream := none }

/-- `seq.CopyTo(datas.Span.Slice(completed))`. -/
def write (seq : List UInt8) (b : HttpBody) : Except Fault HttpBody :=
  if b.datas.length < b.completed + seq.length then .error (.raised .argumentOutOfRange)
  else
    .ok { b with
      buffer := writeAt b.buffer b.completed seq
      datas := writeAt b.datas b.completed seq }

end HttpBody

end DecodingProxy.Http
