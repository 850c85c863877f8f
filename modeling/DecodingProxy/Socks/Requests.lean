import DecodingProxy.Lib.Runs
import DecodingProxy.Runtime.Utf8
import DecodingProxy.Socks.ServerForSocks5

/-!
# The requests of SOCKS5

`ServerForSocks5` and the two nodes read a request out of what one read or one fragment brings, and
repeat its address and its port in the reply. Version and command are read and not looked at. The
server differs from the nodes in the greeting, and where the type of the address is unknown.
-/

namespace DecodingProxy.Socks
open DecodingProxy.Runs DecodingProxy.Runtime DecodingProxy.Runtime.BufferReader
open DecodingProxy.Vectors

structure IPAddress where
  bytes : List UInt8
  valid : bytes.length = 4 ∨ bytes.length = 16
  deriving DecidableEq

namespace IPAddress

/-- `new IPAddress(span)`. -/
def new (span : List UInt8) : Except Fault IPAddress :=
  if h : span.length = 4 ∨ span.length = 16 then .ok ⟨span, h⟩
  else .error (.raised .argument)

def isInterNetwork (a : IPAddress) : Bool := a.bytes.length = 4

end IPAddress

namespace EAdrType

def none : UInt8 := 0
def IPv4 : UInt8 := 0x01
def DomainName : UInt8 := 0x03
def IPv6 : UInt8 := 0x04

end EAdrType

structure ClientRequest where
  ver : UInt8
  cmd : UInt8
  rsv : UInt8
  atyp : UInt8
  deriving DecidableEq, Repr

def ClientRequest.toStructConsume : List UInt8 → Except Fault (ClientRequest × List UInt8)
  | ver :: cmd :: rsv :: atyp :: slice => .ok ({ ver, cmd, rsv, atyp }, slice)
  | _ => .error (.raised .indexOutOfRange)

/-- `ConsumeByte`. -/
def consumeByte : List UInt8 → Except Fault (UInt8 × List UInt8)
  | [] => .error (.raised .indexOutOfRange)
  | b :: slice => .ok (b, slice)

/-- `ToUshortConsume`. -/
def toUshortConsume : List UInt8 → Except Fault (ℕ × List UInt8)
  | b0 :: b1 :: slice => .ok (number [b0, b1], slice)
  | _ => .error (.raised .indexOutOfRange)

/-- `Dns.GetHostAddresses`. -/
abbrev Dns := Str → Except Fault (List IPAddress)

/-- The first address of the name that is of the internet of version 4. -/
def resolve (dns : Dns) (domainName : List UInt8) : Except Fault IPAddress := do
  let ips ← dns (Utf8.getString domainName)
  match ips.find? IPAddress.isInterNetwork with
  | none => .error (.raised .invalidOperation)
  | some ip => .ok ip

/-- The `switch` over the type of the address. In the nodes its default case throws; in the server it
leaves the address null. -/
def consumeAddress (dns : Dns) (throws : Bool) (atyp : UInt8) (slice : List UInt8) :
    Except Fault (Option IPAddress × List UInt8) :=
  if atyp = EAdrType.none then .error (.thrown .format "")
  else if atyp = EAdrType.IPv4 then do
    let (span, slice) ← consume 4 slice
    let ip ← IPAddress.new span
    .ok (some ip, slice)
  else if atyp = EAdrType.DomainName then do
    let (lengthDomainName, slice) ← consumeByte slice
    let (domainName, slice) ← consume lengthDomainName.toNat slice
    let ip ← resolve dns domainName
    .ok (some ip, slice)
  else if atyp = EAdrType.IPv6 then do
    let (span, slice) ← consume 16 slice
    let ip ← IPAddress.new span
    .ok (some ip, slice)
  else if throws then .error (.thrown .notImplemented (toString atyp.toNat))
  else .ok (none, slice)

/-- The reply to a request that was granted. -/
def serverReply (ip : IPAddress) (destinationPort : ℕ) : List UInt8 :=
  [ESocksType.SOCKS5, 0x00, 0x00, if ip.isInterNetwork then EAdrType.IPv4 else EAdrType.IPv6] ++
    ip.bytes ++ bigEndian 2 destinationPort

/-- From the bytes with the request to where it wants to be connected. -/
def consumeRequest (dns : Dns) (throws : Bool) (mem : List UInt8) :
    Except Fault (Option IPAddress × ℕ) := do
  let (ccr, slice) ← ClientRequest.toStructConsume mem
  let (ip, slice) ← consumeAddress dns throws ccr.atyp slice
  let (destinationPort, _) ← toUshortConsume slice
  .ok (ip, destinationPort)

/-- What a request asks to be connected with. -/
inductive Target
  | address (ip : IPAddress)
  | domain (name : List UInt8) (short : name.length < 256)

def Target.bytes : Target → List UInt8
  | address ip => (if ip.isInterNetwork then EAdrType.IPv4 else EAdrType.IPv6) :: ip.bytes
  | domain name _ => EAdrType.DomainName :: UInt8.ofNat name.length :: name

def Target.ip (dns : Dns) : Target → Except Fault IPAddress
  | address ip => .ok ip
  | domain name _ => resolve dns name

structure Request where
  ver : UInt8
  cmd : UInt8
  rsv : UInt8
  target : Target
  port : ℕ
  portRange : port < 2 ^ 16

def Request.bytes (r : Request) : List UInt8 :=
  [r.ver, r.cmd, r.rsv] ++ r.target.bytes ++ bigEndian 2 r.port

variable {dns : Dns} {throws : Bool} {slice rest : List UInt8} {ip : IPAddress}

namespace ServerForSocks5

/-- A connection up to its tunnel: what of the client's bytes the tunnel begins with, what the client
was sent, and whether it came so far. -/
structure Served where
  clientStream : NetworkStream
  sent : List UInt8
  ended : Except Fault Unit

/-- `HandleTcpClient` up to `ExchangeAsync`, where the destination can be connected. The family of an
address that is null is asked for. -/
def serve (dns : Dns) (clientStream : NetworkStream) : Served :=
  let n := handleTcpClient clientStream
  match n.method with
  | .error fault => { clientStream := n.clientStream, sent := n.sent, ended := .error fault }
  | .ok _ =>
    let (mem, clientStream) := n.clientStream.read bufferLength
    if mem = [] then { clientStream, sent := n.sent, ended := .error (.thrown .format "") }
    else
      match consumeRequest dns false mem with
      | .error fault => { clientStream, sent := n.sent, ended := .error fault }
      | .ok (none, _) => { clientStream, sent := n.sent, ended := .error (.raised .nullReference) }
      | .ok (some ip, destinationPort) =>
        { clientStream, sent := n.sent ++ serverReply ip destinationPort, ended := .ok () }

end ServerForSocks5

/-! ### The nodes -/

namespace NodeSocks5AsServer

/-- The method is looked for in all that are offered. -/
def chooseMethod (frag : List UInt8) : Except Fault ServerChoice := do
  let (greet, slice) ← ClientGreetingsSocks5.toStructConsume frag
  let (methods, _) ← consume greet.numberOfAuthMethods.toNat slice
  if EAuth.noAuthRequired ∈ methods then .ok { version := 5, cauth := EAuth.noAuthRequired }
  else .error (.thrown .notImplemented "Only Auth:NoAuthRequired implemented")

/-- What the agent is given for the two fragments it sent, with the reply of one of the nodes. -/
def shakeHands (reply : IPAddress → ℕ → List UInt8) (dns : Dns) (frag frag' : List UInt8) :
    Except Fault (List UInt8) := do
  let serverChoice ← chooseMethod frag
  let (ip, destinationPort) ← consumeRequest dns true frag'
  match ip with
  | none => .error (.raised .nullReference)
  | some ip => .ok (serverChoice.bytes ++ reply ip destinationPort)

/-- `ExecuteAsync` up to its loops. -/
def handshake : Dns → List UInt8 → List UInt8 → Except Fault (List UInt8) :=
  shakeHands serverReply

end NodeSocks5AsServer

namespace NodeProxyGlobals

def isOverrideSocks5Endpoint : Bool := true

def addressSocks5 : IPAddress := ⟨[127, 0, 0, 1], .inl rfl⟩

def portSocks5 : ℕ := 43601

def getDestAddressSocks5 (address : IPAddress) : IPAddress :=
  if isOverrideSocks5Endpoint then addressSocks5 else address

/-- The override is the other way round than that of the address. -/
def getDestPortSocks5 (port : ℕ) : ℕ := if isOverrideSocks5Endpoint then port else portSocks5

end NodeProxyGlobals

/-- `NodeSocksGreetAsServer.ExecuteAsync`, which replies with where it connected. -/
def NodeSocksGreetAsServer.handshake : Dns → List UInt8 → List UInt8 → Except Fault (List UInt8) :=
  NodeSocks5AsServer.shakeHands fun ip destinationPort =>
    serverReply (NodeProxyGlobals.getDestAddressSocks5 ip)
      (NodeProxyGlobals.getDestPortSocks5 destinationPort)

end DecodingProxy.Socks
