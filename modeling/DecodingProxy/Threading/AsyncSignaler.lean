import DecodingProxy.Threading.AsyncAutoResetEvent

/-!
# `AsyncSignaler`

One `ManualResetValueTaskSourceCore` serves every wait of the signaler in turn: `SetResult`
and `SetException` complete it, and `Reset` starts the next version. `requests` counts the
waits that no `Set` has answered, `responses` the `Set`s that no wait has asked for.
-/

namespace DecodingProxy.Threading
open DecodingProxy.Runtime

structure ManualResetValueTaskSourceCore where
  completed : Bool := false
  /-- An exception was given; `SetException` keeps it even where it throws itself. -/
  error : Bool := false
  version : UInt16 := 0
  deriving DecidableEq, Repr

namespace ManualResetValueTaskSourceCore

def signalCompletion (c : ManualResetValueTaskSourceCore) :
    ManualResetValueTaskSourceCore × Except Fault Unit :=
  if c.completed then (c, .error (.raised .invalidOperation))
  else ({ c with completed := true }, .ok ())

def setResult (c : ManualResetValueTaskSourceCore) :
    ManualResetValueTaskSourceCore × Except Fault Unit := c.signalCompletion

def setException (c : ManualResetValueTaskSourceCore) :
    ManualResetValueTaskSourceCore × Except Fault Unit :=
  { c with error := true }.signalCompletion

def reset (c : ManualResetValueTaskSourceCore) : ManualResetValueTaskSourceCore :=
  { version := c.version + 1 }

/-- The results are all `true`. -/
def getResult (c : ManualResetValueTaskSourceCore) (token : UInt16) : Except Fault Bool :=
  if token ≠ c.version ∨ ¬ c.completed then .error (.raised .invalidOperation)
  else if c.error then .error (.raised .operationCanceled)
  else .ok true

end ManualResetValueTaskSourceCore

structure AsyncSignaler where
  manualReset : ManualResetValueTaskSourceCore := {}
  requests : ℤ := 0
  responses : ℤ := 0
  cancellationToken : Option ℕ := none
  deriving DecidableEq, Repr

/-- A `ValueTask<bool>`: a value, or the signaler with the version it is good for. -/
inductive ValueTask
  | result (value : Bool)
  | source (token : UInt16)
  deriving DecidableEq, Repr

namespace AsyncSignaler

def exception : Fault := .raised .operationCanceled

/-- The callback registered with the tokens. -/
def setException (s : AsyncSignaler) : AsyncSignaler × Except Fault Unit :=
  match s.manualReset.setException with
  | (core, .ok ()) => ({ s with manualReset := core.reset }, .ok ())
  | (core, .error fault) => ({ s with manualReset := core }, .error fault)

/-- The token differs from the one that was registered last. -/
def registers (s : AsyncSignaler) (ct : Option CancellationToken) : Bool :=
  ct.any fun ct => s.cancellationToken ≠ some ct.source

/-- `ct.Register`: a token that is already cancelled runs the callback at once. -/
def register (s : AsyncSignaler) (ct : Option CancellationToken) :
    AsyncSignaler × Except Fault Unit :=
  if s.registers ct then
    let s := { s with cancellationToken := ct.map CancellationToken.source }
    if ct.any CancellationToken.isCancellationRequested then s.setException else (s, .ok ())
  else (s, .ok ())

def await (s : AsyncSignaler) (ct : Option CancellationToken) :
    AsyncSignaler × Except Fault ValueTask :=
  if s.responses > 0 then
    if ct.any CancellationToken.isCancellationRequested then (s, .error exception)
    else ({ s with responses := s.responses - 1 }, .ok (.result true))
  else
    match s.register ct with
    | (s, .error fault) => (s, .error fault)
    | (s, .ok ()) =>
      ({ s with requests := int32 (s.requests + 1) }, .ok (.source s.manualReset.version))

def getResult (s : AsyncSignaler) (token : UInt16) : AsyncSignaler × Except Fault Bool :=
  match s.manualReset.getResult token with
  | .ok result => ({ s with manualReset := s.manualReset.reset }, .ok result)
  | .error fault => (s, .error fault)

/-- `GetStatus`: whether the task is completed. -/
def getStatus (s : AsyncSignaler) (token : UInt16) : Except Fault Bool :=
  if token ≠ s.manualReset.version then .error (.raised .invalidOperation)
  else .ok s.manualReset.completed

def set (s : AsyncSignaler) : AsyncSignaler × Except Fault Unit :=
  if s.requests > 0 then
    let s := { s with requests := s.requests - 1 }
    let (core, outcome) := s.manualReset.setResult
    ({ s with manualReset := core }, outcome)
  else ({ s with responses := int32 (s.responses + 1) }, .ok ())

/-! Without a cancellation, `Await` is given a stored response or counts a request, and `Set`
answers a request, which completes the source, or stores a response. -/

variable {s : AsyncSignaler} {ct : Option CancellationToken}

theorem await_stored (hct : ct.any CancellationToken.isCancellationRequested = false)
    (h : 0 < s.responses) :
    s.await ct = ({ s with responses := s.responses - 1 }, .ok (.result true)) := by
  simp [await, h, hct]

theorem await_opens (hct : ct.any CancellationToken.isCancellationRequested = false)
    (h : s.responses ≤ 0) :
    ∃ cancellationToken, s.await ct = ({ s with
      requests := int32 (s.requests + 1)
      cancellationToken }, .ok (.source s.manualReset.version)) := by
  unfold await register
  rw [if_neg (not_lt.mpr h), hct]
  cases s.registers ct
  · exact ⟨s.cancellationToken, rfl⟩
  · exact ⟨_, rfl⟩

theorem set_completes (h : 0 < s.requests) (hopen : s.manualReset.completed = false) :
    s.set = ({ s with
      requests := s.requests - 1
      manualReset := { s.manualReset with completed := true } }, .ok ()) := by
  simp [set, h, ManualResetValueTaskSourceCore.setResult,
    ManualResetValueTaskSourceCore.signalCompletion, hopen]

theorem set_throws (h : 0 < s.requests) (hdone : s.manualReset.completed = true) :
    s.set = ({ s with requests := s.requests - 1 }, .error (.raised .invalidOperation)) := by
  simp [set, h, ManualResetValueTaskSourceCore.setResult,
    ManualResetValueTaskSourceCore.signalCompletion, hdone]

theorem set_stores (h : s.requests ≤ 0) :
    s.set = ({ s with responses := int32 (s.responses + 1) }, .ok ()) :=
  if_neg (not_lt.mpr h)

theorem getResult_ok {t : AsyncSignaler} {token : UInt16} {value : Bool}
    (h : s.getResult token = (t, .ok value)) :
    value = true ∧ s.manualReset.completed = true ∧
      t = { s with manualReset := s.manualReset.reset } := by
  unfold getResult ManualResetValueTaskSourceCore.getResult at h
  split_ifs at h with hversion herror
  · simp at h
  · simp at h
  · simp only [Prod.mk.injEq, Except.ok.injEq] at h
    simp only [not_or, not_not] at hversion
    exact ⟨h.2.symm, hversion.2, h.1.symm⟩

theorem getResult_error {t : AsyncSignaler} {token : UInt16} {fault : Fault}
    (h : s.getResult token = (t, .error fault)) : t = s := by
  unfold getResult at h
  split at h
  · simp at h
  · exact (Prod.mk.inj h).1.symm

end AsyncSignaler

end DecodingProxy.Threading
