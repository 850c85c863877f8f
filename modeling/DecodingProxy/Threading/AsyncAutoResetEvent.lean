import DecodingProxy.Lib.Handoff
import DecodingProxy.Lib.Runs
import DecodingProxy.Runtime.Faults

/-!
# `AsyncAutoResetEvent<T>`

One queue holds `TaskCompletionSource`s of both kinds: waits that no `Set` has
answered yet, and results that no `WaitAsync` has asked for. Neither method looks
at which kind it dequeues. The sources themselves live in a heap indexed by
creation order, since the queue and the callers share them.

A method that throws keeps what it did before the throw, so every method gives
back the event next to its outcome. Each one runs under `lock (waits)` and is one
step.
-/

namespace DecodingProxy.Threading
open DecodingProxy.Runtime DecodingProxy.Runs

universe u

abbrev TaskId := ℕ

/-- The state of the task behind a `TaskCompletionSource<T>`. -/
inductive TaskState (T : Type u)
  | pending
  | result (value : T)
  | canceled
  deriving DecidableEq, Repr

structure CancellationToken where
  source : ℕ
  isCancellationRequested : Bool
  deriving DecidableEq, Repr

structure AsyncAutoResetEvent (T : Type u) where
  waits : List TaskId := []
  tasks : List (TaskState T) := []
  isCanceled : Bool := false
  isCompleted : Bool := false
  cancellationToken : Option CancellationToken := none
  deriving DecidableEq, Repr

namespace AsyncAutoResetEvent

variable {T : Type u}

def exIncompleted : Fault := .thrown .invalidOperation
  "Event is not completed. You must call Complete() explicitly to notify about ending"
def exCompleted : Fault := .thrown .invalidOperation
  "Event is completed. Use Reset to be able await again"
def exInvalidOperation : Fault := .thrown .invalidOperation "There is still waits in queue"
def exNotSupported : Fault := .thrown .notSupported "Tokens must be from one source"

/-- `SetResult` and `SetCanceled` move a pending task on and throw on any other. -/
def transition (e : AsyncAutoResetEvent T) (t : TaskId) (state : TaskState T) :
    AsyncAutoResetEvent T × Except Fault Unit :=
  match e.tasks[t]? with
  | some .pending => ({ e with tasks := e.tasks.set t state }, .ok ())
  | _ => (e, .error (.raised .invalidOperation))

/-- `new TaskCompletionSource<T>()`, moved to `state` before anyone else sees it. -/
def newSource (e : AsyncAutoResetEvent T) (state : TaskState T) :
    AsyncAutoResetEvent T × TaskId :=
  ({ e with tasks := e.tasks ++ [state] }, e.tasks.length)

def enqueue (e : AsyncAutoResetEvent T) (t : TaskId) : AsyncAutoResetEvent T :=
  { e with waits := e.waits ++ [t] }

def cancelAll (e : AsyncAutoResetEvent T) : List TaskId →
    AsyncAutoResetEvent T × Except Fault Unit
  | [] => (e, .ok ())
  | item :: items =>
    match e.transition item .canceled with
    | (e', .ok ()) => e'.cancelAll items
    | (e', .error fault) => (e', .error fault)

/-- Entries stay queued: the callers take the cancelled tasks one by one. -/
def cancel (e : AsyncAutoResetEvent T) : AsyncAutoResetEvent T × Except Fault Unit :=
  { e with isCanceled := true }.cancelAll e.waits

def reset (e : AsyncAutoResetEvent T) : AsyncAutoResetEvent T × Except Fault Unit :=
  if e.isCompleted then
    ({ e with isCompleted := false, cancellationToken := none, isCanceled := false },
      if e.waits.length > 0 then .error exInvalidOperation else .ok ())
  else (e, .error exIncompleted)

/-- The part of `WaitAsync` that the token decides: the first token is registered,
a later one has to come from the same source. -/
def register (e : AsyncAutoResetEvent T) : Option CancellationToken →
    AsyncAutoResetEvent T × Except Fault Unit
  | none => (e, .ok ())
  | some token =>
    match e.cancellationToken with
    | none =>
      let e' := { e with cancellationToken := some token }
      -- a token that is already cancelled runs the callback on registration
      if token.isCancellationRequested then e'.cancel else (e', .ok ())
    | some registered =>
      if registered.source = token.source then (e, .ok ()) else (e, .error exNotSupported)

def takeOrEnqueue (e : AsyncAutoResetEvent T) : AsyncAutoResetEvent T × TaskId :=
  match e.waits with
  | tcs :: waits => ({ e with waits := waits }, tcs)
  | [] =>
    if e.isCanceled then e.newSource .canceled
    else
      let (e', tcs) := e.newSource .pending
      (e'.enqueue tcs, tcs)

def waitAsync (token : Option CancellationToken) (e : AsyncAutoResetEvent T) :
    AsyncAutoResetEvent T × Except Fault TaskId :=
  match e.register token with
  | (e', .error fault) => (e', .error fault)
  | (e', .ok ()) => (e'.takeOrEnqueue.1, .ok e'.takeOrEnqueue.2)

def setUnsafe (value : T) (e : AsyncAutoResetEvent T) :
    AsyncAutoResetEvent T × Except Fault Unit :=
  match e.waits with
  | toRelease :: waits =>
    { e with waits := waits }.transition toRelease
      (if e.isCanceled then .canceled else .result value)
  | [] =>
    let (e', res) := e.newSource (if e.isCanceled then .canceled else .result value)
    (e'.enqueue res, .ok ())

def set (value : T) (e : AsyncAutoResetEvent T) : AsyncAutoResetEvent T × Except Fault Unit :=
  if e.isCompleted then (e, .error exCompleted) else e.setUnsafe value

def complete (e : AsyncAutoResetEvent T) : AsyncAutoResetEvent T × Except Fault Unit :=
  if e.isCompleted then (e, .error exCompleted) else ({ e with isCompleted := true }, .ok ())

def setLast (value : T) (e : AsyncAutoResetEvent T) :
    AsyncAutoResetEvent T × Except Fault Unit :=
  match e.complete with
  | (e', .ok ()) => e'.setUnsafe value
  | (e', .error fault) => (e', .error fault)

/-- `Count`: what the queue holds, of either kind. -/
def count (e : AsyncAutoResetEvent T) : ℕ := e.waits.length

end AsyncAutoResetEvent

end DecodingProxy.Threading
