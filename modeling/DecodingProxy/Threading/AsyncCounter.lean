import DecodingProxy.Runtime.Faults

/-!
# `AsyncCounter` and the joins of `Awaiting`

`WhenResults` initialises a counter with the number of its operations and attaches
`Decrement` to the completion of each of them. The counter finishes the await when
it equals its target.
-/

namespace DecodingProxy.Threading
open DecodingProxy.Runtime

structure AsyncCounter where
  isRunning : Bool := false
  target : ℤ := 0
  counter : ℤ := 0
  /-- How often `FinishAwaiting` ran. -/
  finished : ℕ := 0
  deriving DecidableEq, Repr

namespace AsyncCounter

def init (c : AsyncCounter) (count : ℤ) : Except Fault AsyncCounter :=
  if c.isRunning then .error (.thrown .invalidOperation "Counter is already running")
  else .ok { c with target := count, isRunning := true }

def finishAwaiting (c : AsyncCounter) : AsyncCounter :=
  { c with isRunning := false, finished := c.finished + 1 }

def decrement (c : AsyncCounter) : AsyncCounter :=
  let c := { c with counter := int32 (c.counter - 1) }
  if c.counter = c.target then c.finishAwaiting else c

/-- The counter after `n` of the operations it was attached to have completed. -/
def decrements (c : AsyncCounter) : ℕ → AsyncCounter
  | 0 => c
  | n + 1 => (c.decrements n).decrement

end AsyncCounter

/-- `Awaiting.WhenResults` over `count` operations of which `completed` have completed:
whether the await is finished. The counter comes from the pool. -/
def whenResults (pooled : AsyncCounter) (count completed : ℕ) : Except Fault Bool :=
  if count = 0 then .ok true
  else (pooled.init count).map fun c => (c.decrements completed).finished ≠ pooled.finished

end DecodingProxy.Threading
