import DecodingProxy.Lib.Runs
import DecodingProxy.Runtime.Dictionary
import DecodingProxy.Runtime.Strings

/-!
# The caches of `CertManager`

`ForgedGetOrCreateCertFromCacheAsync` gives the certificate that stands in for that of an origin.
A step of a call is one operation of a concurrent dictionary, the writing of a file, or the making
of a certificate; any number of calls take their steps in any order. Which name a platform gives to
an extension, and how it writes its data, are part of a certificate here.
-/

namespace DecodingProxy.Certs
open DecodingProxy.Runtime DecodingProxy.Runs

structure X509Extension where
  friendlyName : Option Str
  /-- `AsnEncodedData.Format(true)`. -/
  formatted : Str
  deriving DecidableEq, Repr

/-- `object` is what `==` compares. A serial number is written in hexadecimal digits. -/
structure X509Certificate2 where
  object : ℕ
  serialNumber : Str
  thumbprint : Str
  issuer : Str
  subjectName : Str
  extensions : List X509Extension
  serialNumber_hex : ∀ c ∈ serialNumber, (Str.hexValue c).isSome
  deriving DecidableEq

/-- `X509Certificate.Equals`. -/
def X509Certificate2.equals (c d : X509Certificate2) : Bool :=
  c.issuer = d.issuer && c.serialNumber = d.serialNumber

/-! ### `Cert` -/

namespace Cert

def certToKey (origin : X509Certificate2) : Str := origin.serialNumber

/-- The overload with two arguments. -/
def certToKeyOf (_forged origin : X509Certificate2) : Str := origin.serialNumber

/-- The dates are not implemented. -/
def compareCerts (left right : X509Certificate2) : Except Fault Bool :=
  if left.thumbprint = right.thumbprint then .ok true
  else if left.serialNumber = right.serialNumber then .ok true
  else if left.object = right.object then .ok true
  else .error (.thrown .notImplemented "")

/-- `host.Replace('*', '_')`. -/
def getDomainForFilename (host : Str) : Str := host.map fun c => if c = 0x2A then 0x5F else c

/-- The overload for a certificate; `startsWith` is that of the culture. -/
def getDomainForFilenameOf (startsWith : Str → Str → Bool) (cert : X509Certificate2) :
    Except Fault Str :=
  match (Str.split 0x2C cert.subjectName).find? (startsWith · (ascii "CN=")) with
  | none => .error (.raised .nullReference)
  | some part => do
    let name ← Str.substring 3 part
    .ok (getDomainForFilename name)

/-- `s.Split("\r\n")`. -/
def splitLines : Str → List Str
  | [] => [[]]
  | 0x0D :: 0x0A :: s => [] :: splitLines s
  | c :: s =>
    match splitLines s with
    | piece :: pieces => (c :: piece) :: pieces
    | [] => [[c]]

def addDomain (domains : List Str) (val : Str) : Except Fault (List Str) :=
  if val.isEmpty then .ok domains
  else do
    let name ← Str.item (Str.split 0x3D val) 1
    let domain := getDomainForFilename name
    .ok (if domains.contains domain then domains else domains ++ [domain])

def addDomains (domains : List Str) (extension : X509Extension) : Except Fault (List Str) :=
  if extension.friendlyName = some (ascii "Subject Alternative Name") then
    (splitLines extension.formatted).foldlM addDomain domains
  else .ok domains

def getDomainsAsFilenames (startsWith : Str → Str → Bool) (cert : X509Certificate2) :
    Except Fault (List Str) := do
  let mainDomain ← getDomainForFilenameOf startsWith cert
  cert.extensions.foldlM addDomains [mainDomain]

end Cert

/-! ### `CertManager` -/

abbrev Dic := Dictionary Str X509Certificate2

structure CertManager where
  cacheForged : Dic := ∅
  cacheOriginal : Dic := ∅

/-- What the calls have from outside: the culture, and `GenerateCertEndpoint` with the `n`-th
certificate that is made. -/
structure Endpoint where
  startsWith : Str → Str → Bool
  generateCertEndpoint : ℕ → X509Certificate2 → X509Certificate2 → Except Fault X509Certificate2

def textOf (s : Str) : String := String.ofList (s.map fun c => Char.ofNat c.toNat)

def exExists (key : Str) : Fault :=
  .thrown .argument ("Key [" ++ textOf key ++ "] is Already Exist")

def exFailed : Fault := .thrown .argument "Certs have same key but comparison is Failed"

def exMissing (key : Str) : Fault :=
  .thrown .argument ("Key [" ++ textOf key ++ "] is not presented")

namespace CertManager

def isDirectorySeparator (c : UInt16) : Bool := c = 0x5C || c = 0x2F

/-- `Path.IsPathRooted`: a separator in front, or a drive. -/
def isPathRooted : Str → Bool
  | c :: 0x3A :: _ => isDirectorySeparator c || Str.isAsciiLetter c
  | c :: _ => isDirectorySeparator c
  | [] => false

/-- `Path.Join`, of a directory and the name of a file. -/
def join (dir name : Str) : Str :=
  if dir.getLast?.any isDirectorySeparator then dir ++ name else dir ++ 0x5C :: name

/-- `Path.Combine`. -/
def combine (dir name : Str) : Str := if isPathRooted name then name else join dir name

/-- `EnsureDirectory`, and then `Directory.GetFiles` where `names` are those of the files. -/
def getFiles (dir : Str) (names : List Str) : Except Fault (List Str) :=
  if dir = [] then .error (.raised .argument) else .ok (names.map (join dir))

/-- `load` makes a certificate of the file at a path. -/
def loadCertIntoCache (load : Str → Except Fault X509Certificate2) (dir fileName : Str)
    (cache : Dic) : Except Fault Dic := do
  let path := combine dir fileName
  let cert ← load path
  let key := fileName
  if key ∈ cache then .error (exExists key) else .ok (AList.insert key cert cache)

def loadFiles (load : Str → Except Fault X509Certificate2) (dir : Str) (fileNames : List Str) :
    Except Fault Dic :=
  fileNames.foldlM (fun cache fileName => loadCertIntoCache load dir fileName cache) ∅

/-- The constructor, with the names of the files in each directory. -/
def loadCache (load : Str → Except Fault X509Certificate2) (pathForged pathOriginal : Str)
    (namesForged namesOriginal : List Str) : Except Fault CertManager := do
  let fileNamesForged ← getFiles pathForged namesForged
  let cacheForged ← loadFiles load pathForged fileNamesForged
  let fileNamesOriginal ← getFiles pathOriginal namesOriginal
  let cacheOriginal ← loadFiles load pathOriginal fileNamesOriginal
  .ok { cacheForged, cacheOriginal }

def tryFindAppropriateCert (origin : X509Certificate2) (container : Dic) :
    Option X509Certificate2 :=
  AList.lookup (Cert.certToKey origin) container

end CertManager

/-! ### The calls -/

/-- Why a call does not return: an exception of its own, or a file that cannot be written. -/
inductive CallFault
  | fault (fault : Fault)
  | io
  deriving DecidableEq, Repr

/-- What a call of `ForgedGetOrCreateCertFromCacheAsync` does next. -/
inductive CallPoint
  | tryFind
  | forge
  /-- The `foreach` of `ForgedSaveToCacheWithMultipleDomainAsync`, with the domains to come. -/
  | containsKey (forged : X509Certificate2) (domains : List Str)
  | tryAdd (forged : X509Certificate2) (domains : List Str)
  | storeForged (forged : X509Certificate2)
  | tryUpdateOrigin (forged : X509Certificate2)
  | updateOrigin (forged existed : X509Certificate2)
  | tryGetOrigin (forged : X509Certificate2)
  | tryAddOrigin (forged : X509Certificate2)
  | storeOrigin (forged : X509Certificate2)
  | returned (forged : X509Certificate2)
  | threw (fault : CallFault)
  deriving DecidableEq

structure Call where
  original : X509Certificate2
  ca : X509Certificate2
  point : CallPoint := .tryFind
  deriving DecidableEq

structure CertCalls where
  manager : CertManager := {}
  /-- The number of certificates made so far. -/
  generated : ℕ := 0
  calls : List Call := []

inductive CertAction
  | call (original ca : X509Certificate2)
  | move (i : ℕ)
  /-- The file that the call writes cannot be written. -/
  | fail (i : ℕ)
  deriving DecidableEq

namespace Call

/-- `Cert.CompareCerts`, with what is done on each result. -/
def compare (left right : X509Certificate2) (same other : CallPoint) : CallPoint :=
  match Cert.compareCerts left right with
  | .ok true => same
  | .ok false => other
  | .error fault => .threw (.fault fault)

/-- `GenerateCertEndpoint` and `GetDomainsAsFilenames`. -/
def forge (endpoint : Endpoint) (n : ℕ) (original ca : X509Certificate2) :
    Except Fault (X509Certificate2 × List Str) := do
  let cert ← endpoint.generateCertEndpoint n original ca
  let forged := { cert with object := n }
  let domains ← Cert.getDomainsAsFilenames endpoint.startsWith forged
  .ok (forged, domains)

/-- What a step leaves of the manager, and what the call does next. -/
def advance (endpoint : Endpoint) (m : CertManager) (n : ℕ) (c : Call) :
    Except Unit (CertManager × CallPoint) :=
  match c.point with
  | .tryFind =>
    match CertManager.tryFindAppropriateCert c.original m.cacheForged with
    -- `Check` is not implemented and takes every certificate
    | some forged => .ok (m, .tryUpdateOrigin forged)
    | none => .ok (m, .forge)
  | .forge =>
    match forge endpoint n c.original c.ca with
    | .ok (forged, domains) => .ok (m, .containsKey forged domains)
    | .error fault => .ok (m, .threw (.fault fault))
  | .containsKey forged [] => .ok (m, .storeForged forged)
  | .containsKey forged (domain :: domains) =>
    if Cert.certToKeyOf forged c.original ∈ m.cacheForged then .ok (m, .containsKey forged domains)
    else .ok (m, .tryAdd forged (domain :: domains))
  | .tryAdd forged domains =>
    let key := Cert.certToKeyOf forged c.original
    match AList.lookup key m.cacheForged with
    | some existed =>
      -- nothing is taken out of the cache, and so it is there when the handler looks for it
      let refused := CallPoint.threw (.fault (exExists key))
      .ok (m, compare forged existed refused refused)
    | none =>
      .ok ({ m with cacheForged := AList.insert key forged m.cacheForged },
        .containsKey forged domains.tail)
  | .storeForged forged => .ok (m, .tryUpdateOrigin forged)
  | .tryUpdateOrigin forged =>
    match CertManager.tryFindAppropriateCert c.original m.cacheOriginal with
    | some existed =>
      .ok (m, compare c.original existed (.returned forged) (.updateOrigin forged existed))
    | none => .ok (m, .tryGetOrigin forged)
  | .updateOrigin forged existed =>
    match Cert.getDomainsAsFilenames endpoint.startsWith c.original with
    | .error fault => .ok (m, .threw (.fault fault))
    | .ok _ =>
      let key := Cert.certToKeyOf forged existed
      if (AList.lookup key m.cacheOriginal).any (·.equals existed) then
        .ok ({ m with cacheOriginal := AList.insert key c.original m.cacheOriginal },
          .storeOrigin forged)
      else .ok (m, .threw (.fault (exMissing key)))
  | .tryGetOrigin forged =>
    match AList.lookup (Cert.certToKeyOf forged c.original) m.cacheOriginal with
    | some existed =>
      .ok (m, compare existed c.original (.storeOrigin forged)
        (.threw (.fault exFailed)))
    | none => .ok (m, .tryAddOrigin forged)
  | .tryAddOrigin forged =>
    let key := Cert.certToKeyOf forged c.original
    if key ∈ m.cacheOriginal then .ok (m, .threw (.fault (exExists key)))
    else
      .ok ({ m with cacheOriginal := AList.insert key c.original m.cacheOriginal },
        .storeOrigin forged)
  | .storeOrigin forged => .ok (m, .returned forged)
  | .returned _ | .threw _ => .error ()

end Call

namespace CertCalls

def step (endpoint : Endpoint) (s : CertCalls) : CertAction → Except Unit CertCalls
  | .call original ca => .ok { s with calls := s.calls ++ [{ original, ca }] }
  | .move i =>
    match s.calls[i]? with
    | none => .error ()
    | some c => do
      let (manager, point) ← c.advance endpoint s.manager s.generated
      .ok { manager
            generated := if c.point = .forge then s.generated + 1 else s.generated
            calls := s.calls.set i { c with point } }
  | .fail i =>
    match s.calls[i]? with
    | none => .error ()
    | some c =>
      match c.point with
      | .storeForged _ | .storeOrigin _ =>
        .ok { s with calls := s.calls.set i { c with point := .threw .io } }
      | _ => .error ()

end CertCalls

end DecodingProxy.Certs
