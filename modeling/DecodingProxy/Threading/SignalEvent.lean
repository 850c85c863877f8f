import DecodingProxy.Threading.AsyncAutoResetEvent
import Mathlib.Tactic.Common

/-!
# `AsyncAutoResetEvent` without a value

The event counts signals and queues waits. A cancelled wait stays in the queue until
a `Set` dequeues it, and a `Set` on a cancelled event counts a signal whether waits are
queued or not. The callbacks that the event registered with tokens outlive a `Reset`.
-/

namespace DecodingProxy.Threading.Signals
open DecodingProxy.Runtime DecodingProxy.Runs

/-- The source of a `CancellationToken`. -/
abbrev SourceId := ℕ

structure AsyncAutoResetEvent where
  waits : List TaskId := []
  /-- The sources the event created, in order. -/
  tasks : List (TaskState Unit) := []
  signals : ℤ := 0
  isCanceled : Bool := false
  cancellationToken : Option SourceId := none
  cachedCanceled : Option SourceId := none
  deriving DecidableEq, Repr

/-- The task `WaitAsync` returns. -/
inductive Awaitable
  | completedTask
  | cachedCanceled (task : Option SourceId)
  | source (task : TaskId)
  deriving DecidableEq, Repr

namespace AsyncAutoResetEvent

def invalidOperationException : Fault :=
  .thrown .invalidOperation "There is still waits in queue"
def notSupportedException : Fault :=
  .thrown .notSupported "Tokens must be from one source"

/-- `SetResult` and `SetCanceled` move a pending task on and throw on any other. -/
def transition (e : AsyncAutoResetEvent) (t : TaskId) (state : TaskState Unit) :
    AsyncAutoResetEvent × Except Fault Unit :=
  match e.tasks[t]? with
  | some .pending => ({ e with tasks := e.tasks.set t state }, .ok ())
  | _ => (e, .error (.raised .invalidOperation))

def setCanceledAll (e : AsyncAutoResetEvent) : List TaskId →
    AsyncAutoResetEvent × Except Fault Unit
  | [] => (e, .ok ())
  | item :: items =>
    match e.transition item .canceled with
    | (e', .ok ()) => e'.setCanceledAll items
    | (e', .error fault) => (e', .error fault)

/-- The callback registered with the token; what it cancels stays in the queue. -/
def callback (source : SourceId) (e : AsyncAutoResetEvent) :
    AsyncAutoResetEvent × Except Fault Unit :=
  { e with isCanceled := true, cachedCanceled := some source }.setCanceledAll e.waits

def reset (e : AsyncAutoResetEvent) : AsyncAutoResetEvent × Except Fault Unit :=
  ({ e with cachedCanceled := none, cancellationToken := none, isCanceled := false, signals := 0 },
    if e.waits.length > 0 ∨ e.signals > 0 then .error invalidOperationException else .ok ())

/-- The part of `WaitAsync` under the lock. -/
def takeSignal (e : AsyncAutoResetEvent) : AsyncAutoResetEvent × Awaitable :=
  if e.signals > 0 then
    ({ e with signals := e.signals - 1 },
      if e.isCanceled then .cachedCanceled e.cachedCanceled else .completedTask)
  else
    ({ e with waits := e.waits ++ [e.tasks.length], tasks := e.tasks ++ [.pending] },
      .source e.tasks.length)

/-- `Set`; what `SetResult` throws goes to a field that nothing reads. -/
def set (e : AsyncAutoResetEvent) : AsyncAutoResetEvent :=
  if e.isCanceled then { e with signals := int32 (e.signals + 1) }
  else
    match e.waits with
    | toRelease :: waits => ({ e with waits }.transition toRelease (.result ())).1
    | [] => { e with signals := int32 (e.signals + 1) }

end AsyncAutoResetEvent

/-- The event together with the token sources it is used with. -/
structure Session where
  event : AsyncAutoResetEvent := {}
  /-- The sources that hold a callback of the event, once for each registration. -/
  registrations : List SourceId := []
  canceledSources : List SourceId := []
  deriving DecidableEq, Repr

inductive SessionCall
  | waitAsync (token : Option SourceId)
  | set
  | cancel (source : SourceId)
  | reset
  deriving DecidableEq, Repr

namespace Session

/-- The part of `WaitAsync` that the token decides. -/
def register (s : Session) : Option SourceId → Session × Except Fault Unit
  | none => (s, .ok ())
  | some token =>
    match s.event.cancellationToken with
    | none =>
      let event := { s.event with cancellationToken := some token }
      -- a source that is already cancelled runs the callback on registration
      if token ∈ s.canceledSources then
        let (event, outcome) := event.callback token
        ({ s with event }, outcome)
      else ({ s with event, registrations := s.registrations ++ [token] }, .ok ())
    | some registered =>
      if registered = token then (s, .ok ())
      else (s, .error AsyncAutoResetEvent.notSupportedException)

def waitAsync (s : Session) (token : Option SourceId) : Session × Except Fault Awaitable :=
  match s.register token with
  | (s, .error fault) => (s, .error fault)
  | (s, .ok ()) =>
    let (event, task) := s.event.takeSignal
    ({ s with event }, .ok task)

/-- `CancellationTokenSource.Cancel`: the first call runs every callback, also after one
of them has thrown. -/
def cancel (s : Session) (source : SourceId) : Session :=
  if source ∈ s.canceledSources then s
  else
    { s with
      canceledSources := source :: s.canceledSources
      event := (s.registrations.filter (· = source)).foldl (fun e _ => (e.callback source).1)
        s.event }

/-- A call that throws leaves what it changed before. -/
def call (s : Session) : SessionCall → Session
  | .waitAsync token => (s.waitAsync token).1
  | .set => { s with event := s.event.set }
  | .cancel source => s.cancel source
  | .reset => { s with event := s.event.reset.1 }

def step (s : Session) (a : SessionCall) : Except Fault Session := .ok (s.call a)

end Session

end DecodingProxy.Threading.Signals
