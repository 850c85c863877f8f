import DecodingProxy.Cryptography.TlsPlayerWithProxy

/-!
# The readers of a certificate list

Three loops read the list of a `Certificate` message. `TlsParser.ParseServerCert` takes a
certificate without moving on behind it and counts the length of its prefix to nothing, so it
reads on after the last certificate; the other two loops move on and stop.
-/

namespace DecodingProxy.Cryptography
open DecodingProxy.Runtime DecodingProxy.Vectors DecodingProxy.Runs

/-- A list of certificates that fits into a handshake message. -/
structure CertificateMessage where
  certificates : List (Prefixed 3)
  fits : 3 + (Prefixed.encodeAll certificates).length < 256 ^ 3

namespace CertificateMessage

/-- The list as it stands in the body, behind its length. -/
def list (m : CertificateMessage) : Prefixed 3 :=
  ⟨Prefixed.encodeAll m.certificates, (Nat.le_add_left _ 3).trans_lt m.fits⟩

def body (m : CertificateMessage) : Prefixed 3 :=
  ⟨m.list.encode, by
    rw [Prefixed.length_encode]
    exact m.fits⟩

/-- The message with its handshake header. -/
def message (m : CertificateMessage) : List UInt8 :=
  ETlsTypeHandshakeMessage.certificate :: m.body.encode

def contents (m : CertificateMessage) : List (List UInt8) := m.certificates.map Subtype.val

end CertificateMessage

def HandshakeHeader.validateAsServerCertificate (header : HandshakeHeader) : Bool :=
  header.messageType = ETlsTypeHandshakeMessage.certificate

namespace TlsParser

variable (accepts : List UInt8 → Bool)

/-- The loop. It moves on behind the length of a certificate, not behind the certificate. -/
def certificates (lengthCerts : ℤ) (mem : List UInt8) : Except Fault (List (List UInt8)) :=
  if 0 < lengthCerts then
    match mem with
    | b0 :: b1 :: b2 :: mem => do
      let length := number [b0, b1, b2]
      let certPayload ← sliceTo mem length
      let cert ← x509Certificate2 accepts certPayload
      let result ← certificates (lengthCerts - length) mem
      .ok (cert :: result)
    | _ => .error (.raised .indexOutOfRange)
  else .ok []

def parseServerCert (handshakeRecord : FrameParseResult) (payload : List UInt8) :
    Except Fault (List (List UInt8)) :=
  if handshakeRecord.handsakeHeader.any HandshakeHeader.validateAsServerCertificate then do
    let lengthCerts ← BufferReader.toInt32Size3 payload
    let mem ← sliceFrom payload 3
    certificates accepts lengthCerts mem
  else .error (.thrown .argument "Header is not certificate")

end TlsParser

structure HandshakeCertificateInfo where
  protocolVersion : ℕ := 0
  length : ℕ := 0
  handshakeMessageType : UInt8 := 0
  length1 : ℕ := 0
  lengthCertificates : ℕ := 0
  certificates : List (List UInt8) := []
  deriving DecidableEq, Repr

namespace HandshakeCertificateInfo

/-- The loop. -/
def addCertificates (lengthLeft : ℤ) (certsSpan : List UInt8) (certificates : List (List UInt8)) :
    Except Fault (List (List UInt8)) :=
  if 0 < lengthLeft then
    match certsSpan with
    | b0 :: b1 :: b2 :: certsSpan =>
      let lengthCert := number [b0, b1, b2]
      match _ : BufferReader.consume lengthCert certsSpan with
      | .error e => .error e
      | .ok (cert, certsSpan) =>
        addCertificates (lengthLeft - (lengthCert + 3)) certsSpan (certificates ++ [cert])
    | _ => .error (.raised .indexOutOfRange)
  else .ok certificates
termination_by certsSpan.length
decreasing_by
  have hle := BufferReader.consume_length_le ‹BufferReader.consume _ _ = .ok (_, _)›
  simp only [List.length_cons]
  omega

/-- The object after the call, and the length that is returned. -/
def analyzeAsClient (mem : List UInt8) (info : HandshakeCertificateInfo) :
    Except Fault (HandshakeCertificateInfo × ℕ) :=
  match mem with
  | _ :: v1 :: v2 :: l3 :: l4 :: type :: m6 :: m7 :: m8 :: c9 :: c10 :: c11 :: certsSpan => do
    let length := number [l3, l4] + 5
    let lengthCertificates := number [c9, c10, c11]
    let certificates ← addCertificates lengthCertificates certsSpan info.certificates
    .ok ({
      protocolVersion := number [v1, v2]
      length
      handshakeMessageType := type
      length1 := number [m6, m7, m8]
      lengthCertificates
      certificates }, length)
  | _ => .error (.raised .indexOutOfRange)

end HandshakeCertificateInfo

/-- Each reader returns and has got the certificates, each one its own bytes: the parser from the
message behind its header, the analyzer from a record that holds the message, and the player
from a frame that does. -/
structure ReadersAgree (accepts : List UInt8 → Bool) (m : CertificateMessage) : Prop where
  parsed : ∀ handshakeRecord : FrameParseResult,
    handshakeRecord.handsakeHeader.any HandshakeHeader.validateAsServerCertificate = true →
      TlsParser.parseServerCert accepts handshakeRecord m.body.1 = .ok m.contents
  analyzed : ∀ header : List UInt8, header.length = sizeRecord → ∃ info length,
    HandshakeCertificateInfo.analyzeAsClient (header ++ m.message) {} = .ok (info, length) ∧
      info.certificates = m.contents
  played : ∀ frame session, frame.type = ETlsProtocol.handshake → frame.payload = m.message →
    TlsPlayerWithProxy.parseServerFrames accepts [frame] session =
      .ok { session with certs := session.certs ++ m.contents }

variable {accepts : List UInt8 → Bool} {m : CertificateMessage}

theorem x509Certificate2_of_accepts {span : List UInt8} (h : accepts span = true) :
    x509Certificate2 accepts span = .ok span := if_pos h

theorem exists_length_bytes (v : Prefixed 3) :
    ∃ b0 b1 b2, bigEndian 3 v.1.length = [b0, b1, b2] ∧ number [b0, b1, b2] = v.1.length := by
  obtain ⟨b0, b1, b2, h⟩ : ∃ b0 b1 b2, bigEndian 3 v.1.length = [b0, b1, b2] :=
    ⟨_, _, _, rfl⟩
  exact ⟨b0, b1, b2, h, h ▸ v.number_length⟩

/-! ### The loops that move on -/

/-- A loop that takes a certificate with its length off the front and goes on behind it. -/
structure MovesOn (good : List UInt8 → Prop)
    (loop : ℤ → List UInt8 → List (List UInt8) → Except Fault (List (List UInt8))) : Prop where
  stops : ∀ certs, loop 0 [] certs = .ok certs
  takes : ∀ {b0 b1 b2 : UInt8} {slice cert rest : List UInt8} {left : ℤ} (certs : List (List UInt8)),
    0 < left → good cert → BufferReader.consume (number [b0, b1, b2]) slice = .ok (cert, rest) →
      loop left (b0 :: b1 :: b2 :: slice) certs =
        loop (left - (number [b0, b1, b2] + 3)) rest (certs ++ [cert])

theorem encodeAll_cons_bytes (v : Prefixed 3) (vs : List (Prefixed 3)) :
    ∃ b0 b1 b2, Prefixed.encodeAll (v :: vs) =
        b0 :: b1 :: b2 :: (v.1 ++ Prefixed.encodeAll vs) ∧
      number [b0, b1, b2] = v.1.length ∧
      ((Prefixed.encodeAll (v :: vs)).length : ℤ) - (v.1.length + 3) =
        (Prefixed.encodeAll vs).length := by
  obtain ⟨b0, b1, b2, hbytes, hnumber⟩ := exists_length_bytes v
  refine ⟨b0, b1, b2, ?_, hnumber, ?_⟩
  · rw [Prefixed.encodeAll_cons, hbytes]
    rfl
  · rw [Prefixed.length_encodeAll_cons]
    omega

theorem MovesOn.encodeAll {good : List UInt8 → Prop}
    {loop : ℤ → List UInt8 → List (List UInt8) → Except Fault (List (List UInt8))}
    (h : MovesOn good loop) {vs : List (Prefixed 3)} (hgood : ∀ v ∈ vs, good v.1)
    (certs : List (List UInt8)) :
    loop (Prefixed.encodeAll vs).length (Prefixed.encodeAll vs) certs =
      .ok (certs ++ vs.map Subtype.val) := by
  induction vs generalizing certs with
  | nil =>
    rw [List.map_nil, List.append_nil]
    exact h.stops certs
  | cons v vs ih =>
    obtain ⟨b0, b1, b2, hbytes, hnumber, hleft⟩ := encodeAll_cons_bytes v vs
    have hpos : 0 < ((Prefixed.encodeAll (v :: vs)).length : ℤ) := by omega
    have hconsume : BufferReader.consume (number [b0, b1, b2]) (v.1 ++ Prefixed.encodeAll vs) =
        .ok (v.1, Prefixed.encodeAll vs) := by
      rw [hnumber]
      exact BufferReader.consume_append _ _
    have hstep := h.takes certs hpos (hgood v List.mem_cons_self) hconsume
    rw [← hbytes, hnumber, hleft] at hstep
    rw [hstep, ih fun x hx => hgood x (List.mem_cons_of_mem v hx), List.map_cons,
      List.append_assoc]
    rfl

theorem serverCertificates_movesOn :
    MovesOn (fun cert => accepts cert = true) (TlsPlayerWithProxy.serverCertificates accepts) := by
  constructor
  · intro certs
    unfold TlsPlayerWithProxy.serverCertificates
    simp
  · intro b0 b1 b2 slice cert rest left certs hleft haccepts hconsume
    rw [TlsPlayerWithProxy.serverCertificates, if_neg (Int.not_le.mpr hleft)]
    dsimp only
    split
    · rename_i h
      rw [hconsume] at h
      cases h
    · rename_i h
      rw [hconsume] at h
      cases h
      rw [x509Certificate2_of_accepts haccepts]

theorem addCertificates_movesOn :
    MovesOn (fun _ => True) HandshakeCertificateInfo.addCertificates := by
  constructor
  · intro certs
    unfold HandshakeCertificateInfo.addCertificates
    simp
  · intro b0 b1 b2 slice cert rest left certs hleft _ hconsume
    rw [HandshakeCertificateInfo.addCertificates, if_pos hleft]
    dsimp only
    split
    · rename_i h
      rw [hconsume] at h
      cases h
    · rename_i h
      rw [hconsume] at h
      cases h
      rfl

/-! ### The loop that stays -/

/-- The loop goes on until the contents alone make up the length of the list. -/
theorem certificates_sum {left : ℤ} {mem : List UInt8} {certs : List (List UInt8)}
    (h : TlsParser.certificates accepts left mem = .ok certs) :
    left ≤ (certs.map List.length).sum := by
  induction left, mem using TlsParser.certificates.induct generalizing certs with
  | case1 left hleft b0 b1 b2 mem length =>
    rename_i ih
    rw [TlsParser.certificates, if_pos hleft] at h
    obtain ⟨certPayload, hslice, h⟩ := do_ok_iff.mp h
    obtain ⟨cert, hcert, h⟩ := do_ok_iff.mp h
    obtain ⟨result, hresult, h⟩ := do_ok_iff.mp h
    cases h
    have hrest := ih hresult
    obtain ⟨hnonneg, hle, rfl⟩ := sliceTo_inv hslice
    unfold x509Certificate2 at hcert
    split_ifs at hcert
    cases hcert
    rw [List.map_cons, List.sum_cons, List.length_take]
    omega
  | case2 mem left hleft hshort =>
    rw [TlsParser.certificates.eq_def, if_pos hleft] at h
    split at h
    · exact absurd rfl (hshort _ _ _ _)
    · cases h
  | case3 mem left hleft =>
    rw [TlsParser.certificates.eq_def, if_neg hleft] at h
    cases h
    exact Int.not_lt.mp hleft

theorem CertificateMessage.bytes (m : CertificateMessage) : ∃ m0 m1 m2 c0 c1 c2,
    m.message = ETlsTypeHandshakeMessage.certificate :: m0 :: m1 :: m2 :: m.body.1 ∧
      m.body.1 = c0 :: c1 :: c2 :: m.list.1 ∧ number [m0, m1, m2] = m.body.1.length ∧
      number [c0, c1, c2] = m.list.1.length := by
  obtain ⟨m0, m1, m2, hm, hmessage⟩ := exists_length_bytes m.body
  obtain ⟨c0, c1, c2, hc, hlist⟩ := exists_length_bytes m.list
  refine ⟨m0, m1, m2, c0, c1, c2, ?_, ?_, hmessage, hlist⟩
  · rw [message, Prefixed.encode, hm]
    rfl
  · change m.list.encode = _
    rw [Prefixed.encode, hc]
    rfl

theorem parseServerCert_eq {handshakeRecord : FrameParseResult}
    (hheader : handshakeRecord.handsakeHeader.any HandshakeHeader.validateAsServerCertificate = true)
    (m : CertificateMessage) :
    TlsParser.parseServerCert accepts handshakeRecord m.body.1 =
      TlsParser.certificates accepts m.list.1.length m.list.1 := by
  obtain ⟨-, -, -, c0, c1, c2, -, hbody, -, hlist⟩ := m.bytes
  have hslice : sliceFrom (c0 :: c1 :: c2 :: m.list.1) 3 = .ok m.list.1 :=
    sliceFrom_append [c0, c1, c2] m.list.1
  unfold TlsParser.parseServerCert
  rw [if_pos hheader, hbody, do_of_ok (b := m.list.1.length) (by rw [← hlist]; rfl),
    do_of_ok hslice]

theorem analyzeAsClient_message (m : CertificateMessage) {header : List UInt8}
    (hheader : header.length = sizeRecord) : ∃ info length,
      HandshakeCertificateInfo.analyzeAsClient (header ++ m.message) {} = .ok (info, length) ∧
        info.certificates = m.contents := by
  obtain ⟨m0, m1, m2, c0, c1, c2, hmessage, hbody, -, hlist⟩ := m.bytes
  match header, hheader with
  | [h0, h1, h2, h3, h4], _ =>
    have hmem : [h0, h1, h2, h3, h4] ++ m.message = h0 :: h1 :: h2 :: h3 :: h4 ::
        ETlsTypeHandshakeMessage.certificate :: m0 :: m1 :: m2 :: c0 :: c1 :: c2 :: m.list.1 := by
      rw [hmessage, hbody]
      rfl
    have hadd : HandshakeCertificateInfo.addCertificates (number [c0, c1, c2] : ℕ) m.list.1 [] =
        .ok m.contents := by
      rw [hlist]
      exact addCertificates_movesOn.encodeAll (fun _ _ => trivial) []
    rw [hmem]
    exact ⟨_, _, do_of_ok hadd, rfl⟩

theorem parseServerFrames_message (m : CertificateMessage)
    (haccepts : ∀ v ∈ m.certificates, accepts v.1 = true) {frame : TlsFrame}
    {session : TlsSessionServer} (htype : frame.type = ETlsProtocol.handshake)
    (hpayload : frame.payload = m.message) :
    TlsPlayerWithProxy.parseServerFrames accepts [frame] session =
      .ok { session with certs := session.certs ++ m.contents } := by
  obtain ⟨m0, m1, m2, c0, c1, c2, hmessage, hbody, hlength, hlist⟩ := m.bytes
  have hstruct : BufferReader.toStructConsume sizeHeaderForCertificates m.body.1 =
      .ok ([c0, c1, c2], m.list.1) := by
    rw [hbody]
    exact @BufferReader.toStructConsume_append 3 [c0, c1, c2] rfl m.list.1
  have hcertificate : TlsPlayerWithProxy.certificate accepts m.body.1 session.certs =
      .ok (session.certs ++ m.contents) := by
    unfold TlsPlayerWithProxy.certificate
    rw [do_of_ok hstruct]
    dsimp only
    rw [hlist]
    exact serverCertificates_movesOn.encodeAll haccepts session.certs
  have hconsume : BufferReader.consume (number [m0, m1, m2]) m.body.1 = .ok (m.body.1, []) := by
    rw [hlength]
    simpa using BufferReader.consume_append m.body.1 []
  have hmessages : TlsPlayerWithProxy.serverMessages accepts m.message session =
      .ok { session with certs := session.certs ++ m.contents } := by
    rw [hmessage, TlsPlayerWithProxy.serverMessages]
    split
    · rename_i h
      rw [hconsume] at h
      cases h
    · rename_i h
      rw [hconsume] at h
      cases h
      rw [if_neg (by decide), TlsPlayerWithProxy.serverMessage, if_neg (by decide), if_pos rfl,
        do_of_ok hcertificate]
      dsimp only
      rw [TlsPlayerWithProxy.serverMessages]
  unfold TlsPlayerWithProxy.parseServerFrames
  rw [if_pos htype, hpayload, do_of_ok hmessages]
  rfl

/-- A message without a certificate is the only one that all three readers read. -/
theorem readersAgree_iff (accepts : List UInt8 → Bool) (m : CertificateMessage)
    (haccepts : ∀ v ∈ m.certificates, accepts v.1 = true) :
    ReadersAgree accepts m ↔ m.certificates = [] := by
  constructor
  · intro h
    have hparsed := h.parsed
      ⟨⟨0, 0, 0⟩, some ⟨ETlsTypeHandshakeMessage.certificate, ⟨0, 0, 0⟩⟩, [], []⟩ rfl
    rw [parseServerCert_eq rfl] at hparsed
    have hsum := certificates_sum hparsed
    have hlength : ∀ vs : List (Prefixed 3), (Prefixed.encodeAll vs).length =
        ((vs.map Subtype.val).map List.length).sum + 3 * vs.length := by
      intro vs
      induction vs with
      | nil => rfl
      | cons v vs ih =>
        rw [Prefixed.length_encodeAll_cons, ih]
        simp only [List.map_cons, List.sum_cons, List.length_cons]
        omega
    have hlist := hlength m.certificates
    have hnone : m.certificates.length = 0 := by
      change ((Prefixed.encodeAll m.certificates).length : ℤ) ≤ _ at hsum
      unfold CertificateMessage.contents at hsum
      omega
    exact List.length_eq_zero_iff.mp hnone
  · intro hnil
    refine ⟨fun handshakeRecord hheader => ?_, fun header => analyzeAsClient_message m,
      fun frame session => parseServerFrames_message m haccepts⟩
    have hlist : m.list.1 = [] := by
      change Prefixed.encodeAll m.certificates = []
      rw [hnil]
      rfl
    have hcontents : m.contents = [] := by rw [CertificateMessage.contents, hnil, List.map_nil]
    rw [parseServerCert_eq hheader, hlist, hcontents]
    rfl

theorem readersAgree_none : ReadersAgree (fun _ => false) ⟨[], by decide⟩ :=
  (readersAgree_iff _ _ (by simp)).mpr rfl

/-- A certificate. -/
def selfSigned : List UInt8 :=
  [0x30, 0x81, 0xbe, 0x30, 0x72, 0x02, 0x01, 0x01, 0x30, 0x05, 0x06, 0x03, 0x2b, 0x65, 0x70, 0x30,
   0x0c, 0x31, 0x0a, 0x30, 0x08, 0x06, 0x03, 0x55, 0x04, 0x03, 0x0c, 0x01, 0x61, 0x30, 0x1e, 0x17,
   0x0d, 0x32, 0x36, 0x31, 0x31, 0x31, 0x39, 0x30, 0x35, 0x33, 0x37, 0x32, 0x38, 0x5a, 0x17, 0x0d,
   0x33, 0x36, 0x31, 0x31, 0x31, 0x36, 0x30, 0x35, 0x33, 0x37, 0x32, 0x38, 0x5a, 0x30, 0x0c, 0x31,
   0x0a, 0x30, 0x08, 0x06, 0x03, 0x55, 0x04, 0x03, 0x0c, 0x01, 0x61, 0x30, 0x2a, 0x30, 0x05, 0x06,
   0x03, 0x2b, 0x65, 0x70, 0x03, 0x21, 0x00, 0xa0, 0x07, 0xbc, 0x53, 0x24, 0x80, 0xae, 0x82, 0x7e,
   0x4c, 0xc0, 0x8c, 0xb8, 0xc0, 0xc6, 0x2c, 0xdc, 0x3d, 0xaa, 0xac, 0x6e, 0xf9, 0x7e, 0xca, 0x20,
   0x5b, 0x22, 0x76, 0x2e, 0xdf, 0x54, 0x9e, 0x30, 0x05, 0x06, 0x03, 0x2b, 0x65, 0x70, 0x03, 0x41,
   0x00, 0xce, 0xf1, 0x1f, 0x69, 0x99, 0xdb, 0xb8, 0x63, 0xc3, 0xb3, 0x1a, 0xe8, 0x97, 0xc2, 0x98,
   0x75, 0x92, 0x99, 0x73, 0xe7, 0xe7, 0x7f, 0xa7, 0xfb, 0x45, 0x49, 0x8c, 0x30, 0x06, 0xc6, 0x41,
   0xac, 0xcb, 0x20, 0x1d, 0x5d, 0x51, 0x12, 0xbd, 0xe1, 0xaf, 0x9c, 0x0f, 0x78, 0xe5, 0x34, 0x74,
   0xf7, 0x11, 0xaf, 0xb1, 0x14, 0x5b, 0x53, 0x4e, 0xdf, 0x7e, 0xad, 0xef, 0x4f, 0x6d, 0x1c, 0x4e,
   0x05]

theorem length_selfSigned : selfSigned.length = 193 := by
  decide +kernel

def selfSignedMessage : CertificateMessage where
  certificates := [⟨selfSigned, by rw [length_selfSigned]; decide⟩]
  fits := by
    rw [Prefixed.length_encodeAll_cons]
    dsimp only
    rw [length_selfSigned]
    decide

/-- The parser reads on behind the only certificate. -/
theorem not_readersAgree_selfSigned :
    ¬ ReadersAgree (fun span => span = selfSigned) selfSignedMessage := by
  rw [readersAgree_iff _ _ (by simp [selfSignedMessage])]
  simp [selfSignedMessage]

end DecodingProxy.Cryptography
