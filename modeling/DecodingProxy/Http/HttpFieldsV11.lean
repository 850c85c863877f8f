import DecodingProxy.Runtime.ArrayPool
import DecodingProxy.Runtime.Dictionary
import DecodingProxy.Runtime.Text

/-!
# `HttpFieldsV11`

The header block of a message: its lines in lower case, with their line ends, and what
`ParseLines` reads out of them. Only the properties that some method other than
`Dispose` sets are kept. A `string` property is `none` while it is null.
-/

namespace DecodingProxy.Http
open DecodingProxy.Runtime

/-- What the code takes from the platform and from its configuration. -/
structure Platform where
  culture : Culture := .invariantGlobalization
  pool : ArrayPool := .zeroed
  /-- Compiled with the symbol `DEBUG`. -/
  debug : Bool := false
  /-- `HttpFieldsV11.loggerShared` was set. -/
  hasLogger : Bool := true

namespace ConstantsForHttp

def SUBSTRING_CONNECTION : Str := ascii "Connection: "
def SUBSTRING_CONTENT_LENGTH : Str := ascii "Content-Length: "
def SUBSTRING_CONTENT_TYPE : Str := ascii "Content-Type: "
def SUBSTRING_HOST : Str := ascii "Host: "
def SUBSTRING_PROXY_CONNECTION : Str := ascii "Proxy-Connection: "
def FIELD_TRANSFER_ENCODING : Str := ascii "Transfer-Encoding: "
def KEEP_ALIVE_FIELD : Str := ascii "Keep-Alive:"
def VALUE_CHUNKED : Str := ascii "chunked"
/-- `WebRequestMethods.Http.Connect`. -/
def CONNECT : Str := ascii "CONNECT"

end ConstantsForHttp

open ConstantsForHttp

structure HttpFieldsV11 where
  isRequest : Bool := false
  isResponse : Bool := false
  version : Option Str := none
  statusCode : ℤ := 0
  statusText : Option Str := none
  method : Option Str := none
  relativeReference : Option Str := none
  proxyConnection : Option Str := none
  connection : Option Str := none
  host : Option Str := none
  hostAddress : Option Str := none
  hostValue : Option Str := none
  hostPort : ℤ := 0
  initLine : Option Str := none
  proxyConnectionControl : Option Str := none
  connectionControl : Option Str := none
  keepAlive : Option Str := none
  contentType : Option Str := none
  transferEncoding : Option Str := none
  transferEncodingValues : List Str := []
  isGzip : Bool := false
  isChunked : Bool := false
  isConnectRequired : Bool := false
  lines : List Str := []
  valuePerFieldName : Dictionary Str Str := ∅

/-- What `ToStartOptions` hands to the connection. -/
structure StartOptions where
  hostAndPort : Option Str
  host : Option Str
  hostAddress : Option Str
  hostPort : ℤ
  isHttps : Bool
  isConnectRequired : Bool

namespace HttpFieldsV11

def dispose (f : HttpFieldsV11) : HttpFieldsV11 :=
  { f with
    lines := []
    valuePerFieldName := ∅
    version := some []
    method := some []
    relativeReference := some []
    statusCode := -1
    statusText := some []
    proxyConnection := some []
    connection := some []
    host := some []
    hostAddress := some []
    hostValue := some []
    hostPort := 0
    initLine := some []
    proxyConnectionControl := some []
    connectionControl := some []
    keepAlive := some []
    contentType := some []
    isGzip := false
    isChunked := false
    transferEncoding := some []
    transferEncodingValues := [] }

/-- The line as it is stored. -/
def decodeLine (p : Platform) (line : List UInt8) : Str :=
  p.culture.toLowerInvariant (Utf8.getString line)

/-- `AddField`: the fields and the line that was added. -/
def addField (p : Platform) (line : List UInt8) (f : HttpFieldsV11) : HttpFieldsV11 × Str :=
  ({ f with lines := f.lines ++ [decodeLine p line] }, decodeLine p line)

/-- The pieces of the start line, which mean something else in a response. -/
def parseStartLine (split : List Str) (f : HttpFieldsV11) : Except Fault HttpFieldsV11 :=
  if f.isResponse then do
    let version ← Str.item split 0
    let statusCode ← Str.parseInt (← Str.item split 1)
    let statusText ← Str.item split 2
    .ok { f with version := some version, statusCode, statusText := some statusText }
  else if f.isRequest then do
    let method ← Str.item split 0
    let relativeReference ← Str.item split 1
    let version ← Str.item split 2
    .ok { f with
      method := some method
      relativeReference := some relativeReference
      version := some version }
  else .ok f

/-- The part of `ParseLines` that reads the start line. -/
def parseInitLine (p : Platform) (initLine : Str) (f : HttpFieldsV11) :
    Except Fault HttpFieldsV11 := do
  let f ← { f with initLine := some initLine }.parseStartLine (Str.split 0x20 initLine)
  .ok { f with
    isConnectRequired := p.culture.containsIgnoreCase initLine CONNECT || f.isConnectRequired }

/-- The branch of `ParseLines` for the `Host` field. -/
def parseHost (field : Str) (f : HttpFieldsV11) : Except Fault HttpFieldsV11 := do
  let hostValue ← Str.substring 6 field
  let f := { f with host := some field, hostValue := some hostValue }
  match Str.split 0x3A hostValue with
  | [address, port] =>
    let hostPort ← Str.parseInt port
    .ok { f with hostAddress := some address, hostPort }
  | _ => .ok { f with hostAddress := some hostValue, hostPort := 80 }

/-- The branch of `ParseLines` for the `Transfer-Encoding` field. -/
def parseTransferEncoding (p : Platform) (field : Str) (f : HttpFieldsV11) :
    Except Fault HttpFieldsV11 := do
  let value ← Str.substring 19 field
  let values := (Str.split 0x20 value).map p.culture.toLowerInvariant
  .ok { f with
    transferEncoding := some (p.culture.toLowerInvariant field)
    transferEncodingValues := values
    isGzip := decide (ascii "gzip" ∈ values)
    isChunked := decide (VALUE_CHUNKED ∈ values) }

/-- One field line. Of a repeated field the last value stays. -/
def parseField (p : Platform) (f : HttpFieldsV11) (field : Str) : Except Fault HttpFieldsV11 := do
  let split := Str.split 0x3A field
  let name ← Str.item split 0
  let value ← Str.item split 1
  let f := { f with valuePerFieldName := AList.insert name value f.valuePerFieldName }
  let contains := p.culture.containsIgnoreCase field
  if contains SUBSTRING_HOST then f.parseHost field
  else if contains SUBSTRING_CONNECTION then do
    let control ← Str.substring 12 field
    .ok { f with connection := some field, connectionControl := some control }
  -- never reached: the text before it is a part of this one
  else if contains SUBSTRING_PROXY_CONNECTION then do
    let control ← Str.substring 18 field
    .ok { f with proxyConnection := some field, proxyConnectionControl := some control }
  else if contains KEEP_ALIVE_FIELD then .ok { f with keepAlive := some field }
  else if contains SUBSTRING_CONTENT_TYPE then .ok { f with contentType := some field }
  else if contains FIELD_TRANSFER_ENCODING then f.parseTransferEncoding p field
  else .ok f

/-- All lines but the first and the empty one at the end. -/
def fieldLines (f : HttpFieldsV11) : List Str := f.lines.tail.dropLast

def parseLines (p : Platform) (f : HttpFieldsV11) : Except Fault HttpFieldsV11 :=
  match f.lines with
  | [] => .error (.raised .argumentOutOfRange)
  | initLine :: _ => do
    let f ← f.parseInitLine p initLine
    f.fieldLines.foldlM (parseField p) f

/-- The only handler is null, which is logged. -/
def applyFields (p : Platform) : Except Fault Unit :=
  if p.hasLogger then .ok () else .error (.raised .argumentNull)

def tryFindContentLengthLine (p : Platform) (f : HttpFieldsV11) : Option Str :=
  f.lines.find? fun line => p.culture.containsIgnoreCase line SUBSTRING_CONTENT_LENGTH

def tryFindTransferEncoding (f : HttpFieldsV11) : Option (List Str) :=
  match f.transferEncoding with
  | some (_ :: _) => some f.transferEncodingValues
  | _ => none

def exChunkedNotLast : Fault := .thrown .notImplemented "по RFC chunked должен быть последним"

def isChunkedLast (p : Platform) (f : HttpFieldsV11) : Except Fault Bool :=
  match f.transferEncodingValues.getLast? with
  | none => .error (.raised .invalidOperation)
  | some last =>
    let res := Str.contains last (p.culture.toLowerInvariant VALUE_CHUNKED)
    if p.debug && decide (ascii "chunked" ∈ f.transferEncodingValues) && !res then
      .error exChunkedNotLast
    else .ok res

def analyzBodyLength (p : Platform) (f : HttpFieldsV11) : Except Fault ℤ := do
  let isChunked ← match f.tryFindTransferEncoding with
    | some _ => f.isChunkedLast p
    | none => .ok false
  if isChunked then .ok (-2)
  else
    match f.tryFindContentLengthLine p with
    | some contentLength => do Str.parseInt (← Str.substring 16 contentLength)
    | none => .ok (-1)

def toStartOptions (f : HttpFieldsV11) : StartOptions where
  hostAndPort := f.hostValue
  host := f.host
  hostAddress := f.hostAddress
  hostPort := f.hostPort
  isHttps := f.isConnectRequired
  isConnectRequired := f.isConnectRequired

end HttpFieldsV11

end DecodingProxy.Http
