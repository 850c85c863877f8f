import DecodingProxy.Runtime.Dictionary
import DecodingProxy.Tcp.ConnectionsToDomain

/-!
# `ConnectionsToDomain.CreateAsync`

A client is put into the dictionary before it connects. Only a `SocketException` takes it out
again and disposes of it.
-/

namespace DecodingProxy.Tcp
open DecodingProxy.Runtime

/-- What `ConnectAsyncTcp` and `RunWriterLoop` throw. -/
inductive ConnectException
  | socketException
  | other (fault : Fault)
  deriving DecidableEq, Repr

/-- How `CreateAsync` fails to return a client. The loop of the handler ends with the removal. -/
inductive CreateFailure
  | threw (fault : Fault)
  | diverges
  deriving DecidableEq, Repr

/-- What the others do in one call: the client that the pool gives, whether its logger is an
`IPerfTracker`, and how connecting ends. Only a piped client has a writer loop. -/
structure Attempt where
  rent : ClientId
  tracksTime : Bool := true
  connectAsyncTcp : Except ConnectException Unit := .ok ()
  runWriterLoop : Option (Except ConnectException Unit) := none
  deriving DecidableEq

namespace Attempt

def connect (a : Attempt) : Except ConnectException Unit := do
  a.connectAsyncTcp
  a.runWriterLoop.getD (.ok ())

end Attempt

/-- The connections to one domain, with the keys of all clients and how often `Dispose` was called
on each. The counter is shared by all domains. -/
structure DomainHub where
  data : StalledConnections := {}
  activeConnections : Dictionary UInt32 ClientId := ∅
  usage : UInt32 := 0
  counterForId : UInt32 := 0
  key : ClientId → UInt32 := fun _ => 0
  disposals : ClientId → ℕ := fun _ => 0

namespace DomainHub

/-- What `CheckDispose` asks for before the hub goes back to its manager. -/
def isDisposeNeeded (s : DomainHub) : Bool :=
  s.data.head.isNone && s.activeConnections.keys.length = 0 && s.usage = 0

def dispose (c : ClientId) (s : DomainHub) : DomainHub :=
  { s with disposals := Function.update s.disposals c (s.disposals c + 1) }

/-- The handler of `SocketException`. -/
def rollback (rent : ClientId) (s : DomainHub) : DomainHub × Except CreateFailure ClientId :=
  if AList.lookup (s.key rent) s.activeConnections = some rent then
    let s := { s with activeConnections := s.activeConnections.remove (s.key rent) }
    (s.dispose rent, .error (.threw (.thrown .notImplemented "")))
  else (s, .error .diverges)

def createAsync (debug : Bool) (a : Attempt) (s : DomainHub) :
    DomainHub × Except CreateFailure ClientId :=
  let id := s.counterForId + 1
  let s := { s with counterForId := id, key := Function.update s.key a.rent id }
  if a.tracksTime = false then (s, .error (.threw (.thrown .nullReference "")))
  else if debug = true ∧ id ∈ s.activeConnections then
    (s, .error (.threw (.thrown .argument s!"Key:{id} is alreaedy addeded")))
  else
    match s.activeConnections.add id a.rent with
    | .error _ => (s, .error (.threw (.thrown .argument s!"Key [{id}] is Already Exist")))
    | .ok activeConnections =>
      let s := { s with activeConnections }
      match a.connect with
      | .error .socketException => s.rollback a.rent
      | .error (.other fault) => (s, .error (.threw fault))
      | .ok () => (s, .ok a.rent)

/-- The call comes to `ConnectAsyncTcp`. -/
def Connects (a : Attempt) (s : DomainHub) : Prop :=
  a.tracksTime = true ∧ s.counterForId + 1 ∉ s.activeConnections

instance (a : Attempt) (s : DomainHub) : Decidable (s.Connects a) :=
  inferInstanceAs (Decidable (_ ∧ _))

/-- A call that failed and left the dictionary as it was, the client disposed of once, no other
client touched, and the check for an empty hub as before. -/
structure LeavesNoTrace (rent : ClientId) (s : DomainHub)
    (call : DomainHub × Except CreateFailure ClientId) : Prop where
  failed : ∃ fault, call.2 = .error (.threw fault)
  entries : call.1.activeConnections = s.activeConnections
  disposed : call.1.disposals = Function.update s.disposals rent (s.disposals rent + 1)
  check : call.1.isDisposeNeeded = s.isDisposeNeeded

variable {a : Attempt} {s : DomainHub} {e : ConnectException}

/-- The state that connecting starts from. -/
def registered (a : Attempt) (s : DomainHub) : DomainHub :=
  { s with
    counterForId := s.counterForId + 1
    key := Function.update s.key a.rent (s.counterForId + 1)
    activeConnections := AList.insert (s.counterForId + 1) a.rent s.activeConnections }

theorem createAsync_connects (debug : Bool) (h : s.Connects a) :
    s.createAsync debug a =
      match a.connect with
      | .error .socketException => (s.registered a).rollback a.rent
      | .error (.other fault) => (s.registered a, .error (.threw fault))
      | .ok () => (s.registered a, .ok a.rent) := by
  obtain ⟨htracks, hfresh⟩ := h
  have hadd : Dictionary.add s.activeConnections (s.counterForId + 1) a.rent =
      .ok (AList.insert (s.counterForId + 1) a.rent s.activeConnections) := if_neg hfresh
  simp only [createAsync, htracks, hfresh, and_false, if_false, hadd, Bool.true_eq_false]
  rfl

/-- The handler finds the entry: nothing was put in its place. -/
theorem rollback_registered (h : s.Connects a) :
    (s.registered a).rollback a.rent =
      ({ s.registered a with activeConnections := s.activeConnections }.dispose a.rent,
        .error (.threw (.thrown .notImplemented ""))) := by
  have hkey : (s.registered a).key a.rent = s.counterForId + 1 := by simp [registered]
  have hlookup : AList.lookup ((s.registered a).key a.rent) (s.registered a).activeConnections =
      some a.rent := by
    rw [hkey]
    exact AList.lookup_insert _
  have hremove : (s.registered a).activeConnections.remove ((s.registered a).key a.rent) =
      s.activeConnections := by
    rw [hkey]
    exact Dictionary.remove_insert h.2 a.rent
  rw [rollback, if_pos hlookup, hremove]

/-- A `SocketException` is the one exception that leaves no trace. -/
theorem leavesNoTrace_iff (debug : Bool) (a : Attempt) (s : DomainHub) (e : ConnectException)
    (h : s.Connects a) (hthrows : a.connect = .error e) :
    LeavesNoTrace a.rent s (s.createAsync debug a) ↔ e = .socketException := by
  rw [createAsync_connects debug h, hthrows]
  cases e with
  | socketException =>
    refine iff_of_true ?_ rfl
    simp only [rollback_registered h]
    exact ⟨⟨_, rfl⟩, rfl, rfl, rfl⟩
  | other fault =>
    refine iff_of_false ?_ (by simp)
    rintro ⟨-, -, hdisposed, -⟩
    have hcount := congrFun hdisposed a.rent
    simp [registered] at hcount

/-- Nobody answers. -/
def refused : Attempt := { rent := 7, connectAsyncTcp := .error .socketException }

theorem leavesNoTrace_iff_refused :
    LeavesNoTrace 7 {} (createAsync true refused {}) ↔
      ConnectException.socketException = .socketException :=
  leavesNoTrace_iff true refused {} .socketException (by decide) rfl

/-- The socket of the client is gone. -/
def disposedSocket : Attempt :=
  { rent := 7, connectAsyncTcp := .error (.other (.raised .objectDisposed)) }

theorem not_leavesNoTrace :
    ¬ ∀ (debug : Bool) (a : Attempt) (s : DomainHub) (e : ConnectException), s.Connects a →
      a.connect = .error e → LeavesNoTrace a.rent s (s.createAsync debug a) := by
  intro h
  obtain ⟨-, -, hdisposed, -⟩ := h true disposedSocket {} _ (by decide) rfl
  exact absurd (congrFun hdisposed 7) (by decide)

end DomainHub

end DecodingProxy.Tcp
