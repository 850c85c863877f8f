import DecodingProxy.Lib.Runs
import DecodingProxy.Piped.HttpBinaryMapped
import DecodingProxy.Threading.AsyncAutoResetEvent

/-!
# `HttpPipedIntermediary.MaintainMessagingV2`

Two calls run at once, one for the requests and one for the responses. Each has a task
that reads messages and a task that sends them on, joined by an `AsyncAutoResetEvent<T>`;
all four share a `SyncRedirection`. A phase of a task is what it does next, and an action
is one access to what the tasks share, or one answer of the network.
-/

namespace DecodingProxy.Piped
open DecodingProxy.Runs DecodingProxy.Runtime DecodingProxy.Threading

universe u

structure SyncRedirection where
  syncMsgCountRecieve : ℤ := 0
  syncMsgCountResend : ℤ := 0
  isRecievingClientToOriginCompleted : Bool := false
  isRecievingOriginToClientCompleted : Bool := false
  isResendingClientToOriginCompleted : Bool := false
  isResendingOriginToClientCompleted : Bool := false
  deriving DecidableEq, Repr

namespace SyncRedirection

def incrementRecieve (sync : SyncRedirection) : SyncRedirection :=
  { sync with syncMsgCountRecieve := int32 (sync.syncMsgCountRecieve + 1) }

def incrementResend (sync : SyncRedirection) : SyncRedirection :=
  { sync with syncMsgCountResend := int32 (sync.syncMsgCountResend + 1) }

def decrementRecieve (sync : SyncRedirection) : SyncRedirection :=
  { sync with syncMsgCountRecieve := int32 (sync.syncMsgCountRecieve - 1) }

def decrementResend (sync : SyncRedirection) : SyncRedirection :=
  { sync with syncMsgCountResend := int32 (sync.syncMsgCountResend - 1) }

end SyncRedirection

inductive ReadPhase (M : Type u)
  | start
  | awaitMsg
  | recived (msg : M)
  /-- `val` is what `IncrementRecieve` or `DecrementRecieve` gave back. -/
  | counted (msg : M) (val : ℤ)
  | complete (msg : M)
  | setLast (msg : M)
  | set (msg : M)
  | loop
  /-- The label `END`. -/
  | ended
  /-- The task called `are.Cancel()` and returned. -/
  | canceled
  /-- `AwaitMsg` threw what the task does not catch. -/
  | failed
  /-- A method of the event threw. -/
  | faulted
  deriving DecidableEq, Repr

inductive SendPhase (M : Type u)
  | loop
  | wait
  | waiting (task : TaskId)
  | write (res : M)
  /-- `WriteAsync` has ended and the counter is still to be changed. -/
  | written (res : M)
  | resent (res : M) (val : ℤ)
  | count (res : M)
  | isComplete (res : M)
  | completed
  | closeRequired (res : M)
  | ended
  /-- The wait ended in a `TaskCanceledException`. -/
  | canceled
  /-- `WaitAsync` threw. -/
  | faulted
  deriving DecidableEq, Repr

/-- One call: its event, its two tasks, and how many messages came and left. -/
structure MaintainMessagingV2 (M : Type u) where
  are : AsyncAutoResetEvent M := {}
  read : ReadPhase M := .start
  send : SendPhase M := .loop
  received : ℕ := 0
  written : ℕ := 0
  deriving DecidableEq, Repr

namespace MaintainMessagingV2

variable {M : Type u}

/-- The reader goes on unless the event has thrown. -/
def reads (c : MaintainMessagingV2 M) (set : AsyncAutoResetEvent M × Except Fault Unit)
    (next : ReadPhase M) : MaintainMessagingV2 M :=
  match set with
  | (are, .ok ()) => { c with are, read := next }
  | (are, .error _) => { c with are, read := .faulted }

/-- `are.Cancel()`, after which the task is over whether the event throws or not. -/
def cancelRead (c : MaintainMessagingV2 M) : MaintainMessagingV2 M :=
  { c with are := c.are.cancel.1, read := .canceled }

def waitAsync (c : MaintainMessagingV2 M) (token : CancellationToken) : MaintainMessagingV2 M :=
  match c.are.waitAsync (some token) with
  | (are, .ok task) => { c with are, send := .waiting task }
  | (are, .error _) => { c with are, send := .faulted }

/-- What `cts.Cancel()` does to an event that has registered with the token. -/
def tokenCanceled (c : MaintainMessagingV2 M) : MaintainMessagingV2 M :=
  if c.are.cancellationToken.isSome then { c with are := c.are.cancel.1 } else c

end MaintainMessagingV2

structure HttpPipedIntermediary (M : Type u) where
  sync : SyncRedirection := {}
  isCancellationRequested : Bool := false
  request : MaintainMessagingV2 M := {}
  response : MaintainMessagingV2 M := {}
  deriving DecidableEq, Repr

inductive MessagingAction (M : Type u)
  /-- `AwaitMsg` returns a message, times out, or throws another exception. -/
  | arrive (type : MessageType) (msg : M)
  | timeout (type : MessageType)
  | fail (type : MessageType)
  /-- The next access of the reading task; `answer` is what it is told about the connection
  if it asks. -/
  | read (type : MessageType) (answer : Bool)
  | send (type : MessageType)
  deriving DecidableEq, Repr

namespace HttpPipedIntermediary

variable {M : Type u} (isCloseRequired : M → Bool)

def call (s : HttpPipedIntermediary M) : MessageType → MaintainMessagingV2 M
  | .request => s.request
  | .response => s.response

def setCall (s : HttpPipedIntermediary M) (type : MessageType) (c : MaintainMessagingV2 M) :
    HttpPipedIntermediary M :=
  match type with
  | .request => { s with request := c }
  | .response => { s with response := c }

/-- The token of `cts`, which both calls wait with. -/
def token (s : HttpPipedIntermediary M) : CancellationToken := ⟨0, s.isCancellationRequested⟩

def cancel (s : HttpPipedIntermediary M) : HttpPipedIntermediary M :=
  if s.isCancellationRequested then s
  else
    { s with
      isCancellationRequested := true
      request := s.request.tokenCanceled
      response := s.response.tokenCanceled }

/-- `IncrementRecieve` for a request, `DecrementRecieve` for a response. -/
def countRecieve (sync : SyncRedirection) : MessageType → SyncRedirection
  | .request => sync.incrementRecieve
  | .response => sync.decrementRecieve

def countResend (sync : SyncRedirection) : MessageType → SyncRedirection
  | .request => sync.incrementResend
  | .response => sync.decrementResend

/-- What a reader does with a message that it has counted. -/
def readCounted (s : HttpPipedIntermediary M) (msg : M) (val : ℤ) (checkData : Bool) :
    MessageType → HttpPipedIntermediary M
  | .request =>
    if checkData then { s with request := { s.request with read := .set msg } }
    else
      { s with
        sync := { s.sync with isRecievingClientToOriginCompleted := true }
        request := { s.request with read := .complete msg } }
  | .response =>
    if s.sync.isRecievingClientToOriginCompleted then
      { s with
        sync := { s.sync with isRecievingOriginToClientCompleted := val = 0 }
        response := { s.response with read := if val = 0 then .complete msg else .set msg } }
    else { s with response := { s.response with read := .set msg } }

def read (s : HttpPipedIntermediary M) (type : MessageType) (answer : Bool) :
    Except Unit (HttpPipedIntermediary M) :=
  let c := s.call type
  match c.read with
  | .start =>
    .ok (s.setCall type (if answer then { c with read := .awaitMsg } else c.cancelRead))
  | .recived msg =>
    let sync := countRecieve s.sync type
    .ok ({ s with sync }.setCall type { c with read := .counted msg sync.syncMsgCountRecieve })
  | .counted msg val => .ok (s.readCounted msg val answer type)
  | .complete msg => .ok (s.setCall type (c.reads c.are.complete (.setLast msg)))
  | .setLast msg => .ok (s.setCall type (c.reads (c.are.setUnsafe msg) .ended))
  | .set msg => .ok (s.setCall type (c.reads (c.are.set msg) .loop))
  | .loop => .ok (s.setCall type { c with read := if answer then .awaitMsg else .ended })
  | .awaitMsg | .ended | .canceled | .failed | .faulted => .error ()

/-- What the sender of responses does with the value of the counter. -/
def sendResent (s : HttpPipedIntermediary M) (res : M) (val : ℤ) : HttpPipedIntermediary M :=
  if s.sync.isResendingClientToOriginCompleted then
    { s with
      sync := { s.sync with isResendingOriginToClientCompleted := val = 0 }
      response := { s.response with send := if val = 0 then .ended else .closeRequired res } }
  else { s with response := { s.response with send := .closeRequired res } }

/-- A counted message: a request is followed by a look at the event. -/
def sendCounted (res : M) (val : ℤ) : MessageType → SendPhase M
  | .request => .count res
  | .response => .resent res val

def send (s : HttpPipedIntermediary M) (type : MessageType) :
    Except Unit (HttpPipedIntermediary M) :=
  let c := s.call type
  let go (next : SendPhase M) : Except Unit (HttpPipedIntermediary M) :=
    .ok (s.setCall type { c with send := next })
  match c.send with
  | .loop => go (if s.isCancellationRequested then .ended else .wait)
  | .wait => .ok (s.setCall type (c.waitAsync s.token))
  | .waiting task =>
    match c.are.tasks[task]? with
    | some (.result res) => go (.write res)
    | some .canceled => go .canceled
    | _ => .error ()
  | .write res => .ok (s.setCall type { c with send := .written res, written := c.written + 1 })
  | .written res =>
    let sync := countResend s.sync type
    .ok ({ s with sync }.setCall type
      { c with send := sendCounted res sync.syncMsgCountResend type })
  | .resent res val =>
    match type with
    | .request => .error ()
    | .response => .ok (s.sendResent res val)
  | .count res => go (if c.are.count = 0 then .isComplete res else .closeRequired res)
  | .isComplete res => go (if c.are.isCompleted then .completed else .closeRequired res)
  | .completed =>
    .ok ({ s with sync := { s.sync with isResendingClientToOriginCompleted := true } }.setCall type
      { c with send := .ended })
  | .closeRequired res =>
    if isCloseRequired res then
      .ok (s.cancel.setCall type { s.cancel.call type with send := .ended })
    else go .loop
  | .ended | .canceled | .faulted => .error ()

/-- A step; an action that cannot be taken is an error. A response arrives for a request
that has been written and is not answered yet. -/
def step (s : HttpPipedIntermediary M) :
    MessagingAction M → Except Unit (HttpPipedIntermediary M)
  | .arrive type msg =>
    match (s.call type).read with
    | .awaitMsg =>
      if type = .response ∧ s.request.written ≤ s.response.received then .error ()
      else
        .ok (s.setCall type { s.call type with
          read := .recived msg, received := (s.call type).received + 1 })
    | _ => .error ()
  | .timeout type =>
    match (s.call type).read with
    | .awaitMsg => .ok (s.setCall type (s.call type).cancelRead)
    | _ => .error ()
  | .fail type =>
    match (s.call type).read with
    | .awaitMsg => .ok (s.setCall type { s.call type with read := .failed })
    | _ => .error ()
  | .read type answer => s.read type answer
  | .send type => s.send isCloseRequired type

end HttpPipedIntermediary

end DecodingProxy.Piped
