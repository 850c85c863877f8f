import DecodingProxy.Runtime.Faults

/-!
# The reading end of a pipe

A read gives all bytes that were written and not consumed. It has to be followed by
`AdvanceTo` before the next read; with a rest left unconsumed the next read does not
wait for more.
-/

namespace DecodingProxy.Runtime

structure Pipe where
  pending : List UInt8 := []
  /-- A read was not followed by `AdvanceTo`. -/
  reading : Bool := false
  consumed : ℕ := 0

namespace Pipe

def arrive (bytes : List UInt8) (pipe : Pipe) : Pipe :=
  { pipe with pending := pipe.pending ++ bytes }

/-- `AdvanceTo` the beginning of `left`. -/
def advanceTo (left : List UInt8) (pipe : Pipe) : Pipe where
  pending := left
  reading := false
  consumed := pipe.consumed + (pipe.pending.length - left.length)

@[simp] theorem arrive_pending (bytes : List UInt8) (pipe : Pipe) :
    (pipe.arrive bytes).pending = pipe.pending ++ bytes := rfl

@[simp] theorem arrive_reading (bytes : List UInt8) (pipe : Pipe) :
    (pipe.arrive bytes).reading = pipe.reading := rfl

@[simp] theorem arrive_consumed (bytes : List UInt8) (pipe : Pipe) :
    (pipe.arrive bytes).consumed = pipe.consumed := rfl

@[simp] theorem advanceTo_pending (left : List UInt8) (pipe : Pipe) :
    (pipe.advanceTo left).pending = left := rfl

@[simp] theorem advanceTo_reading (left : List UInt8) (pipe : Pipe) :
    (pipe.advanceTo left).reading = false := rfl

theorem advanceTo_consumed {taken left : List UInt8} {pipe : Pipe}
    (h : pipe.pending = taken ++ left) :
    (pipe.advanceTo left).consumed = pipe.consumed + taken.length := by
  simp [advanceTo, h]

end Pipe

end DecodingProxy.Runtime
