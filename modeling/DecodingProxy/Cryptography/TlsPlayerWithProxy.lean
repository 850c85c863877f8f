import DecodingProxy.Cryptography.ParserForTls12
import DecodingProxy.Runtime.BufferReader

/-!
# `TlsPlayerWithProxy`: the handshake messages of a server

The frames of a recorded connection are read with the structured readers: every part is taken
off the front by its length. What a message says goes into the session of the server.
-/

namespace DecodingProxy.Cryptography
open DecodingProxy.Runtime DecodingProxy.Vectors

namespace ALPN

def h3 : List UInt8 := [0x68, 0x33]
def h2 : List UInt8 := [0x68, 0x32]
def http11 : List UInt8 := [0x68, 0x74, 0x74, 0x70, 0x2f, 0x31, 0x2e, 0x31]

end ALPN

/-! Flags are numbers, and a set of flags is their bitwise or. -/

namespace EAlpn

def unknown : ℕ := 0
def none : ℕ := 1 <<< 0
def h3 : ℕ := 1 <<< 1
def h2 : ℕ := 1 <<< 2
def http11 : ℕ := 1 <<< 3

end EAlpn

def hasFlag (flags flag : ℕ) : Bool := flags &&& flag = flag

/-- `TlsFlags.GetAlpnProtocol`. -/
def getAlpnProtocol (data : List UInt8) : ℕ :=
  if data = ALPN.h3 then EAlpn.h3
  else if data = ALPN.h2 then EAlpn.h2
  else if data = ALPN.http11 then EAlpn.http11
  else EAlpn.unknown

namespace ETlsExtensions

def applicationLayerProtocolNegotiation : ℕ := 16

end ETlsExtensions

namespace ETlsTypeHandshakeMessage

def helloRequest : UInt8 := 0x00
def clientHello : UInt8 := 0x01
def serverHello : UInt8 := 0x02
def certificate : UInt8 := 0x0B

end ETlsTypeHandshakeMessage

/-- The sizes of the structs. -/
def sizeProtocolVersion : ℕ := 2
def sizeTlsRandom : ℕ := 32
def sizeTlsSessionId : ℕ := 1
def sizeCipherSuiteValue : ℕ := 2
def sizeCompressionMethod : ℕ := 1
def sizeTlsExtensions : ℕ := 2
def sizeExtDataAlpnProtocolList : ℕ := 2
def sizeHeaderForCertificates : ℕ := 3

structure TlsSessionServer where
  alpn : ℕ := EAlpn.unknown
  certs : List (List UInt8) := []
  deriving DecidableEq, Repr

/-- The constructor of `X509Certificate2`. The object stands for the bytes that it is made of,
and `accepts` says of which bytes it can be made. -/
def x509Certificate2 (accepts : List UInt8 → Bool) (span : List UInt8) :
    Except Fault (List UInt8) :=
  if accepts span then .ok span else .error (.raised .cryptographic)

namespace TlsPlayerWithProxy

open BufferReader

/-- The loop of `HandleExtAlpn`. -/
def alpnItems (payloadList : List UInt8) (alpn : ℕ) : Except Fault ℕ :=
  match payloadList with
  | [] => .ok alpn
  | length :: items =>
    match _ : consume length.toNat items with
    | .error e => .error e
    | .ok (payloadItem, rest) => alpnItems rest (alpn ||| getAlpnProtocol payloadItem)
termination_by payloadList.length
decreasing_by
  all_goals
    have hle := consume_length_le ‹consume _ _ = .ok (_, _)›
    simp only [List.length_cons]
    omega

def handleExtAlpn (data : List UInt8) (alpn : ℕ) : Except Fault ℕ := do
  let (list, slice) ← toStructConsume sizeExtDataAlpnProtocolList data
  let (payloadList, _) ← consume (number list) slice
  alpnItems payloadList alpn

/-- The handler of the client certificate url does nothing, and other types have none. -/
def serverExtensions (extSlice : List UInt8) (alpn : ℕ) : Except Fault ℕ :=
  match extSlice with
  | [] => .ok alpn
  | typeMajor :: typeMinor :: sizeMajor :: sizeMinor :: extSlice =>
    match _ : consume (number [sizeMajor, sizeMinor]) extSlice with
    | .error e => .error e
    | .ok (payload, rest) =>
      if number [typeMajor, typeMinor] = ETlsExtensions.applicationLayerProtocolNegotiation then
        match handleExtAlpn payload alpn with
        | .error e => .error e
        | .ok alpn => serverExtensions rest alpn
      else serverExtensions rest alpn
  | _ => .error (.raised .indexOutOfRange)
termination_by extSlice.length
decreasing_by
  all_goals
    have hle := consume_length_le ‹consume _ _ = .ok (_, _)›
    simp only [List.length_cons]
    omega

def serverHello (slice : List UInt8) (alpn : ℕ) : Except Fault ℕ := do
  let (_, slice) ← toStructConsume sizeProtocolVersion slice
  let (_, slice) ← toStructConsume sizeTlsRandom slice
  let (tlsSessionId, slice) ← toStructConsume sizeTlsSessionId slice
  let (_, slice) ← consume (number tlsSessionId) slice
  let (_, slice) ← toStructConsume sizeCipherSuiteValue slice
  let (compressionMethod, slice) ← toStructConsume sizeCompressionMethod slice
  let (_, slice) ← consume (number compressionMethod) slice
  let (extensions, slice) ← toStructConsume sizeTlsExtensions slice
  let (extensionsPayload, _) ← consume (number extensions) slice
  serverExtensions extensionsPayload alpn

variable (accepts : List UInt8 → Bool)

/-- The loop over the certificates. -/
def serverCertificates (lengthLeft : ℤ) (slice : List UInt8) (certs : List (List UInt8)) :
    Except Fault (List (List UInt8)) :=
  if lengthLeft ≤ 0 then .ok certs
  else
    match slice with
    | b0 :: b1 :: b2 :: slice =>
      let certLength := number [b0, b1, b2]
      match _ : consume certLength slice with
      | .error e => .error e
      | .ok (payload, rest) =>
        match x509Certificate2 accepts payload with
        | .error e => .error e
        | .ok cert => serverCertificates (lengthLeft - (certLength + 3)) rest (certs ++ [cert])
    | _ => .error (.raised .indexOutOfRange)
termination_by slice.length
decreasing_by
  all_goals
    have hle := consume_length_le ‹consume _ _ = .ok (_, _)›
    simp only [List.length_cons]
    omega

def certificate (slice : List UInt8) (certs : List (List UInt8)) :
    Except Fault (List (List UInt8)) := do
  let (certificates, slice) ← toStructConsume sizeHeaderForCertificates slice
  serverCertificates accepts (number certificates) slice certs

/-- The `switch` on the type of the message. -/
def serverMessage (type : UInt8) (slice : List UInt8) (session : TlsSessionServer) :
    Except Fault TlsSessionServer :=
  if type = ETlsTypeHandshakeMessage.serverHello then do
    let alpn ← serverHello slice session.alpn
    .ok { session with alpn }
  else if type = ETlsTypeHandshakeMessage.certificate then do
    let certs ← certificate accepts slice session.certs
    .ok { session with certs }
  else .ok session

/-- The messages of a handshake frame. A `HelloRequest` ends the frame. -/
def serverMessages (data : List UInt8) (session : TlsSessionServer) :
    Except Fault TlsSessionServer :=
  match data with
  | [] => .ok session
  | messageType :: b0 :: b1 :: b2 :: data =>
    match _ : consume (number [b0, b1, b2]) data with
    | .error e => .error e
    | .ok (slice, rest) =>
      if messageType = ETlsTypeHandshakeMessage.helloRequest then .ok session
      else
        match serverMessage accepts messageType slice session with
        | .error e => .error e
        | .ok session => serverMessages rest session
  | _ => .error (.raised .indexOutOfRange)
termination_by data.length
decreasing_by
  all_goals
    have hle := consume_length_le ‹consume _ _ = .ok (_, _)›
    simp only [List.length_cons]
    omega

def parseServerFrames : List TlsFrame → TlsSessionServer → Except Fault TlsSessionServer
  | [], session => .ok session
  | frame :: frames, session => do
    let session ←
      (if frame.type = ETlsProtocol.handshake then
        serverMessages accepts frame.payload session
      else .ok session)
    parseServerFrames frames session

end TlsPlayerWithProxy

end DecodingProxy.Cryptography
