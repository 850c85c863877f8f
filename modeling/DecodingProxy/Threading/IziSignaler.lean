import DecodingProxy.Lib.Runs
import DecodingProxy.Runtime.Faults
import Mathlib.Tactic.Common

/-!
# `IziSignaler`

An awaitable object that is its own awaiter. `countCompletions` counts the signals no await
has taken, `countAwaits` the await that waits for one.
-/

namespace DecodingProxy.Threading
open DecodingProxy.Runtime DecodingProxy.Runs

structure IziSignaler where
  countCompletions : ℤ := 0
  countAwaits : ℤ := 0
  /-- A `continuation` is set. -/
  continuation : Bool := false
  deriving DecidableEq, Repr

namespace IziSignaler

def exNotSupported : Fault := .thrown .notSupported "There can be only 1 await MAX"

def isCompleted (s : IziSignaler) : Bool := s.countCompletions > 0

def await (s : IziSignaler) : Except Fault IziSignaler :=
  if s.countCompletions > 0 then .ok s
  else
    let result := int32 (s.countAwaits + 1)
    if result ≠ 1 then .error exNotSupported else .ok { s with countAwaits := result }

/-- Whether the continuation was invoked. -/
def setComplete (s : IziSignaler) : Except Fault (IziSignaler × Bool) :=
  if s.countAwaits > 0 then
    if s.continuation then
      .ok ({ s with continuation := false, countAwaits := int32 (s.countAwaits - 1) }, true)
    else .error (.raised .nullReference)
  else .ok ({ s with countCompletions := int32 (s.countCompletions + 1) }, false)

def onCompleted (s : IziSignaler) : IziSignaler := { s with continuation := true }

def getResult (s : IziSignaler) : IziSignaler :=
  { s with countCompletions := int32 (s.countCompletions - 1) }

end IziSignaler

/-- Where the loop `while (true) await signaler.Await()` is: before `Await`, before the test of
`IsCompleted`, before `OnCompleted`, suspended, or before `GetResult`. -/
inductive WaiterPoint
  | calling
  | testing
  | registering
  | suspended
  | resuming
  deriving DecidableEq, Repr

/-- One signaler, its waiter, how many awaits have ended and how often `SetComplete` was
called. -/
structure SignalerLoop where
  signaler : IziSignaler := {}
  waiter : WaiterPoint := .calling
  completed : ℕ := 0
  signals : ℕ := 0
  deriving DecidableEq, Repr

inductive LoopStep
  | waiter
  | setComplete
  deriving DecidableEq, Repr

namespace SignalerLoop

def move (s : SignalerLoop) : Except Fault SignalerLoop :=
  match s.waiter with
  | .calling => do
    let signaler ← s.signaler.await
    .ok { s with signaler, waiter := .testing }
  | .testing =>
    .ok { s with waiter := if s.signaler.isCompleted then .resuming else .registering }
  | .registering => .ok { s with signaler := s.signaler.onCompleted, waiter := .suspended }
  | .suspended => .ok s
  | .resuming =>
    .ok { s with
      signaler := s.signaler.getResult
      waiter := .calling
      completed := s.completed + 1 }

def setComplete (s : SignalerLoop) : Except Fault SignalerLoop := do
  let (signaler, invoked) ← s.signaler.setComplete
  .ok { s with
    signaler
    waiter := if invoked then .resuming else s.waiter
    signals := s.signals + 1 }

def step (s : SignalerLoop) : LoopStep → Except Fault SignalerLoop
  | .waiter => s.move
  | .setComplete => s.setComplete

/-- The waiter takes `n` steps and nobody else moves. -/
def alone (n : ℕ) (s : SignalerLoop) : Except Fault SignalerLoop :=
  run step s (List.replicate n .waiter)

end SignalerLoop

end DecodingProxy.Threading
