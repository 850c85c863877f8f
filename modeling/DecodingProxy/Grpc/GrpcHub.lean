import DecodingProxy.Http.Messages
import DecodingProxy.Lib.Runs

/-!
# `BidirectionalClient` and `GrpcHubService.ServerRequests`

A client numbers its messages and writes them under a semaphore; the loop of the server answers them
one by one, and subscribers are written to on the same stream. A write to a stream throws while
another one goes on there. The calls, the writes, their failures and the pushes come in any order.
-/

namespace DecodingProxy.Grpc
open DecodingProxy.Http DecodingProxy.Runtime

structure BinaryMessage where
  id : ℤ := 0
  type : ℤ := 0
  length : ℤ := 0
  bytes : List UInt8 := []
  clientId : ℤ := 0
  deriving DecidableEq, Repr

namespace ConstantsGrpc

def typeError : ℤ := 2
def messageType : String := "messageType"
def clientId : String := "clientId"
def typeAuth : ℤ := 451189
def typeDataForServer : ℤ := 3

end ConstantsGrpc

/-- The text of a `JsonObject` with one number. -/
def toJsonString (property : String) (value : ℤ) : List UInt8 :=
  asciiBytes ("\x7b\"" ++ property ++ "\":" ++ toString value ++ "\x7d")

/-- What comes from outside: a number read out of a JSON text, the functions of the server, of which
each is told how many requests were read before, and the objects that are rented. -/
structure HubHost where
  parseNumber : String → List UInt8 → Except Fault ℤ
  funcs : List (ℕ → List UInt8 → Except Fault (List UInt8))
  clientId : ℤ
  response : BinaryMessage

namespace HubHost
variable (host : HubHost)

/-- `funcs[type].Invoke(bytes)`. -/
def invoke (type : ℤ) (handled : ℕ) (bytes : List UInt8) : Except Fault (List UInt8) :=
  if type < 0 then .error (.raised .indexOutOfRange)
  else
    match host.funcs[type.toNat]? with
    | some func => func handled bytes
    | none => .error (.raised .indexOutOfRange)

/-- The body of the loop of `ServerRequests` up to its write. The object that is written is used
again in every round; behind the last answer the loop is left. -/
def answer (handled : ℕ) (request response : BinaryMessage) :
    Except Fault (BinaryMessage × Bool) := do
  let response := { response with id := request.id }
  let msgType ← host.parseNumber ConstantsGrpc.messageType request.bytes
  if msgType = ConstantsGrpc.typeAuth then
    let bytes := toJsonString ConstantsGrpc.clientId host.clientId
    .ok ({ response with type := request.type, bytes, length := bytes.length }, false)
  else if msgType = ConstantsGrpc.typeDataForServer then do
    let result ← host.invoke request.type handled request.bytes
    .ok ({ response with type := request.type, length := result.length, bytes := result }, false)
  else
    let bytes := asciiBytes "Authentication failed"
    .ok ({ response with type := ConstantsGrpc.typeError, bytes, length := bytes.length }, true)

end HubHost

structure BidirectionalClient where
  counterSending : ℤ := 0
  clientId : ℤ := 0
  connected : Bool := false
  /-- The message of the call that has the semaphore. -/
  sending : Option BinaryMessage := none
  deriving DecidableEq, Repr

inductive LoopPhase
  | notCalled
  | reading
  | replying (response : BinaryMessage) (isLast : Bool)
  | left
  | faulted
  deriving DecidableEq, Repr

/-- A message on the response stream, and whether the loop or `SendToSubscribersAsync` wrote it. -/
inductive Response
  | reply (message : BinaryMessage)
  | push (message : BinaryMessage)
  deriving DecidableEq, Repr

def Response.message : Response → BinaryMessage
  | reply message | push message => message

structure Hub where
  client : BidirectionalClient := {}
  requests : List BinaryMessage := []
  loop : LoopPhase := .notCalled
  handled : ℕ := 0
  response : BinaryMessage := {}
  registered : Bool := false
  pushing : Option BinaryMessage := none
  responses : List Response := []
  received : ℕ := 0
  deriving DecidableEq, Repr

inductive HubAction
  | connect
  | enter (action : ℤ) (bytes : List UInt8)
  | written
  | writeFailed
  | serverRequests
  | serve
  | replied
  | replyFailed
  | cancelled
  | push (action : ℤ) (bytes : List UInt8)
  | pushed
  | pushFailed
  | recieve
  deriving DecidableEq, Repr

namespace Hub

/-- The next number is given to a message. -/
def number (client : BidirectionalClient) (type : ℤ) (bytes : List UInt8) :
    BidirectionalClient × BinaryMessage :=
  let counterSending := int32 (client.counterSending + 1)
  ({ client with counterSending },
    { id := counterSending, type, length := bytes.length, bytes, clientId := client.clientId })

/-- `ConnectForServerRequestsAsync`, up to its read. -/
def connect (h : Hub) : Except Unit Hub :=
  if h.client.connected then .error ()
  else
    let (client, message) := number h.client ConstantsGrpc.typeAuth
      (toJsonString ConstantsGrpc.messageType ConstantsGrpc.typeAuth)
    .ok { h with client := { client with connected := true }, requests := h.requests ++ [message] }

/-- `SendObjectAsync` between the semaphore and its write. -/
def enter (h : Hub) (action : ℤ) (bytes : List UInt8) : Except Unit Hub :=
  if h.client.connected ∧ h.client.sending = none then
    let (client, message) := number h.client action bytes
    .ok { h with client := { client with sending := some message } }
  else .error ()

/-- The write ends, and the semaphore is released, whether it succeeded or not. -/
def written (h : Hub) (isWritten : Bool) : Except Unit Hub :=
  match h.client.sending with
  | some message => .ok { h with
      client := { h.client with sending := none }
      requests := if isWritten then h.requests ++ [message] else h.requests }
  | none => .error ()

def serverRequests (host : HubHost) (h : Hub) : Except Unit Hub :=
  if h.loop = .notCalled then
    .ok { h with loop := .reading, response := host.response, registered := true }
  else .error ()

/-- A round of the loop. Its write throws while a push goes on. -/
def serve (host : HubHost) (h : Hub) : Except Unit Hub :=
  match h.loop, h.requests[h.handled]? with
  | .reading, some request =>
    .ok { h with
      handled := h.handled + 1
      loop :=
        match host.answer h.handled request h.response with
        | .ok (response, isLast) =>
          if h.pushing = none then .replying response isLast else .faulted
        | .error _ => .faulted }
  | _, _ => .error ()

/-- Behind the loop the client is no longer registered, but not where the loop throws. -/
def replied (h : Hub) : Except Unit Hub :=
  match h.loop with
  | .replying response isLast =>
    .ok { h with
      loop := if isLast then .left else .reading
      response
      registered := !isLast
      responses := h.responses ++ [.reply response] }
  | _ => .error ()

def replyFailed (h : Hub) : Except Unit Hub :=
  match h.loop with
  | .replying _ _ => .ok { h with loop := .faulted }
  | _ => .error ()

def cancelled (h : Hub) : Except Unit Hub :=
  if h.loop = .reading then .ok { h with loop := .left, registered := false } else .error ()

/-- `SendToSubscribersAsync` for this client. Where its write throws nothing is written. -/
def push (host : HubHost) (h : Hub) (action : ℤ) (bytes : List UInt8) : Hub :=
  if h.registered then
    match h.pushing, h.loop with
    | some _, _ | none, .replying _ _ => h
    | none, _ =>
      let message : BinaryMessage :=
        { id := 0, type := action, length := bytes.length, bytes, clientId := host.clientId }
      { h with pushing := some message }
  else h

def pushed (h : Hub) (isWritten : Bool) : Except Unit Hub :=
  match h.pushing with
  | some message => .ok { h with
      pushing := none
      responses := if isWritten then h.responses ++ [.push message] else h.responses }
  | none => .error ()

/-- `clientId` as the client reads it out of a response; it stays where that throws. -/
def readId (host : HubHost) (response : Response) (clientId : ℤ) : ℤ :=
  match host.parseNumber ConstantsGrpc.clientId response.message.bytes with
  | .ok id => id
  | .error _ => clientId

/-- `RecieveAsync`, and the read of `ConnectForServerRequestsAsync`, which comes first. -/
def recieve (host : HubHost) (h : Hub) : Except Unit Hub :=
  match h.responses[h.received]? with
  | some response =>
    let clientId :=
      if h.received = 0 then readId host response h.client.clientId else h.client.clientId
    .ok { h with received := h.received + 1, client := { h.client with clientId } }
  | none => .error ()

def step (host : HubHost) (h : Hub) : HubAction → Except Unit Hub
  | .connect => h.connect
  | .enter action bytes => h.enter action bytes
  | .written => h.written true
  | .writeFailed => h.written false
  | .serverRequests => h.serverRequests host
  | .serve => h.serve host
  | .replied => h.replied
  | .replyFailed => h.replyFailed
  | .cancelled => h.cancelled
  | .push action bytes => .ok (h.push host action bytes)
  | .pushed => h.pushed true
  | .pushFailed => h.pushed false
  | .recieve => h.recieve host

end Hub

end DecodingProxy.Grpc
