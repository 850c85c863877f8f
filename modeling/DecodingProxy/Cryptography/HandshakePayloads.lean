import DecodingProxy.Cryptography.HelloExtensions
import DecodingProxy.Cryptography.ParserForTls12

/-!
# The payloads of `ParserForTls12`

The parsers of handshake messages skip the headers of the record and of the message, and take as
many bytes as the record declares behind its own header. So they take four bytes too many. The
parsers of the other records skip one header only.
-/

namespace DecodingProxy.Cryptography
open DecodingProxy.Runtime DecodingProxy.Vectors DecodingProxy.Runs

structure HandshakeRecord where
  record : TlsRecord
  handshakeHeader : HandshakeHeader
  deriving DecidableEq, Repr

def sizeRecordHandshake : ℕ := sizeRecord + sizeHandshakeHeader

/-- `BufferReader.ToStruct<HandshakeRecord>`: throws on fewer than nine bytes. -/
def HandshakeRecord.toStruct (data : List UInt8) : Except Fault HandshakeRecord := do
  let record ← TlsRecord.toStruct data
  let handshakeHeader ← HandshakeHeader.toStruct (data.drop sizeRecord)
  .ok { record, handshakeHeader }

namespace ParserForTls12

/-- The header, the payload, and the data after the call. -/
abbrev HandshakeParser := List UInt8 → Except Fault (HandshakeRecord × List UInt8 × List UInt8)

abbrev RecordParser := List UInt8 → Except Fault (TlsRecord × List UInt8 × List UInt8)

/-- The body of the parsers of handshake messages. -/
def parseHandshake : HandshakeParser := fun data => do
  let header ← HandshakeRecord.toStruct data
  let length := header.record.length
  let payload ← sliceAt data sizeRecordHandshake length
  let data ← sliceFrom data ((length + sizeRecord : ℕ) : ℤ)
  .ok (header, payload, data)

/-- The body of the parsers of other records. -/
def parseRecord : RecordParser := fun data => do
  let header ← TlsRecord.toStruct data
  let length := header.length
  let payload ← sliceAt data sizeRecord length
  let data ← sliceFrom data ((sizeRecord + length : ℕ) : ℤ)
  .ok (header, payload, data)

def parseClientHello := parseHandshake
def parseServerHello := parseHandshake
def parseServerCertificate := parseHandshake
def parseServerKeyExchange := parseHandshake
def parseServerHelloDone := parseHandshake
def parseClientKeyExchange := parseHandshake
def parseClientChangeCipherSpec := parseRecord
def parseClientHandshakeFinished := parseRecord
def parseServerChangeCipherSpec := parseRecord
def parseServerHandshakeFinished := parseRecord
def parseClientApplicationData := parseRecord
def parseServerApplicationData := parseRecord
def parseClientCloseNotify := parseRecord

/-- The payloads, in order. -/
def testClient (mem : List UInt8) : Except Fault (List (List UInt8)) := do
  let (_, payload0, sliceRequest) ← parseClientHello mem
  let (_, payload2, sliceRequest) ← parseClientKeyExchange sliceRequest
  let (_, payload3, sliceRequest) ← parseClientChangeCipherSpec sliceRequest
  let (_, payload4, sliceRequest) ← parseClientHandshakeFinished sliceRequest
  let (_, payload5, sliceRequest) ← parseClientApplicationData sliceRequest
  let (_, payload6, _) ← parseClientCloseNotify sliceRequest
  .ok [payload0, payload2, payload3, payload4, payload5, payload6]

def testServer (mem : List UInt8) : Except Fault (List (List UInt8)) := do
  let (_, payloadS0, sliceResponse) ← parseServerHello mem
  let (_, payloadS1, sliceResponse) ← parseServerCertificate sliceResponse
  let (_, payloadS2, sliceResponse) ← parseServerKeyExchange sliceResponse
  let (_, payloadS3, sliceResponse) ← parseServerHelloDone sliceResponse
  let (_, payloadS4, sliceResponse) ← parseServerChangeCipherSpec sliceResponse
  let (_, payloadS5, sliceResponse) ← parseServerHandshakeFinished sliceResponse
  let (_, payloadS6, _) ← parseServerApplicationData sliceResponse
  .ok [payloadS0, payloadS1, payloadS2, payloadS3, payloadS4, payloadS5, payloadS6]

def handshakeParsers : List HandshakeParser :=
  [parseClientHello, parseServerHello, parseServerCertificate, parseServerKeyExchange,
    parseServerHelloDone, parseClientKeyExchange]

def recordParsers : List RecordParser :=
  [parseClientChangeCipherSpec, parseClientHandshakeFinished, parseServerChangeCipherSpec,
    parseServerHandshakeFinished, parseClientApplicationData, parseServerApplicationData,
    parseClientCloseNotify]

theorem sliceAt_append {as bs cs : List UInt8} {offset length : ℕ} (ho : as.length = offset)
    (hl : bs.length = length) : sliceAt (as ++ (bs ++ cs)) offset length = .ok bs := by
  subst ho
  subst hl
  rw [sliceAt, if_neg (by simp), List.drop_left, List.take_left]

theorem drop_record {record tail : List UInt8} {header : TlsRecord}
    (hlength : record.length = sizeRecord + header.length) (n : ℕ)
    (hn : n = sizeRecord + header.length) : sliceFrom (record ++ tail) n = .ok tail := by
  rw [hn, ← hlength, sliceFrom_append]

/-- A record without a handshake header is taken as it is. -/
theorem parseRecord_eq {record : List UInt8} (h : IsRecord record) (tail : List UInt8) :
    ∃ header, parseRecord (record ++ tail) = .ok (header, record.drop sizeRecord, tail) := by
  obtain ⟨header, hstruct, hlength⟩ := isRecord_iff.mp h
  have hpayload : sliceAt (record ++ tail) sizeRecord header.length =
      .ok (record.drop sizeRecord) := by
    have hsplit : record ++ tail = record.take sizeRecord ++ (record.drop sizeRecord ++ tail) := by
      rw [← List.append_assoc, List.take_append_drop]
    rw [hsplit]
    apply sliceAt_append
    · rw [List.length_take]
      omega
    · rw [List.length_drop]
      omega
  refine ⟨header, ?_⟩
  rw [parseRecord, do_of_ok (TlsRecord.toStruct_append hstruct)]
  dsimp only
  rw [do_of_ok hpayload, do_of_ok (drop_record hlength _ rfl)]

/-- The headers of a record with a handshake message. -/
theorem toStruct_handshake {record : List UInt8} (h : IsRecord record)
    (hheaders : sizeRecordHandshake ≤ record.length) (tail : List UInt8) :
    ∃ header, HandshakeRecord.toStruct (record ++ tail) = .ok header ∧
      record.length = sizeRecord + header.record.length := by
  obtain ⟨header, hstruct, hlength⟩ := isRecord_iff.mp h
  have hfour : sizeHandshakeHeader ≤ ((record ++ tail).drop sizeRecord).length := by
    rw [List.length_drop, List.length_append]
    unfold sizeRecordHandshake at hheaders
    omega
  obtain ⟨handshakeHeader, hhandshake⟩ := HandshakeHeader.toStruct_ok_iff.mpr hfour
  refine ⟨⟨header, handshakeHeader⟩, ?_, hlength⟩
  rw [HandshakeRecord.toStruct, do_of_ok (TlsRecord.toStruct_append hstruct), do_of_ok hhandshake]

/-- Four bytes of what follows the record are taken. -/
theorem parseHandshake_eq {record : List UInt8} (h : IsRecord record)
    (hheaders : sizeRecordHandshake ≤ record.length) {tail : List UInt8}
    (htail : sizeHandshakeHeader ≤ tail.length) :
    ∃ header, parseHandshake (record ++ tail) =
      .ok (header, record.drop sizeRecordHandshake ++ tail.take sizeHandshakeHeader, tail) := by
  obtain ⟨header, hstruct, hlength⟩ := toStruct_handshake h hheaders tail
  have hpayload : sliceAt (record ++ tail) sizeRecordHandshake header.record.length =
      .ok (record.drop sizeRecordHandshake ++ tail.take sizeHandshakeHeader) := by
    have hsplit : record ++ tail = record.take sizeRecordHandshake ++
        ((record.drop sizeRecordHandshake ++ tail.take sizeHandshakeHeader) ++
          tail.drop sizeHandshakeHeader) := by
      rw [List.append_assoc, List.take_append_drop, ← List.append_assoc, List.take_append_drop]
    rw [hsplit]
    unfold sizeRecordHandshake at hheaders ⊢
    apply sliceAt_append
    · rw [List.length_take]
      omega
    · rw [List.length_append, List.length_drop, List.length_take]
      omega
  refine ⟨header, ?_⟩
  rw [parseHandshake, do_of_ok hstruct]
  dsimp only
  rw [do_of_ok hpayload, do_of_ok (drop_record hlength _ (Nat.add_comm _ _))]

theorem parseHandshake_before {record next : List UInt8} (h : IsRecord record)
    (hheaders : sizeRecordHandshake ≤ record.length) (hnext : IsRecord next)
    (tail : List UInt8) :
    ∃ header, parseHandshake (record ++ (next ++ tail)) =
      .ok (header, record.drop sizeRecordHandshake ++ next.take sizeHandshakeHeader,
        next ++ tail) := by
  have hfour : sizeHandshakeHeader ≤ next.length := le_trans (by decide) hnext.five_le
  have htail : sizeHandshakeHeader ≤ (next ++ tail).length := by
    rw [List.length_append]
    omega
  obtain ⟨header, hparse⟩ := parseHandshake_eq h hheaders htail
  rw [List.take_append_of_le_length hfour] at hparse
  exact ⟨header, hparse⟩

theorem parseHandshake_throws {record : List UInt8} (h : IsRecord record)
    (hheaders : sizeRecordHandshake ≤ record.length) {tail : List UInt8}
    (htail : tail.length < sizeHandshakeHeader) :
    parseHandshake (record ++ tail) = .error (.raised .argumentOutOfRange) := by
  obtain ⟨header, hstruct, hlength⟩ := toStruct_handshake h hheaders tail
  have hpayload : sliceAt (record ++ tail) sizeRecordHandshake header.record.length =
      .error (.raised .argumentOutOfRange) := by
    apply if_pos
    rw [List.length_append, sizeRecordHandshake]
    omega
  rw [parseHandshake, do_of_ok hstruct]
  dsimp only
  rw [hpayload]
  rfl

theorem eq_parseHandshake {parse : HandshakeParser} (h : parse ∈ handshakeParsers) :
    parse = parseHandshake := by
  simpa [handshakeParsers, parseClientHello, parseServerHello, parseServerCertificate,
    parseServerKeyExchange, parseServerHelloDone, parseClientKeyExchange] using h

theorem eq_parseRecord {parse : RecordParser} (h : parse ∈ recordParsers) :
    parse = parseRecord := by
  simpa [recordParsers, parseClientChangeCipherSpec, parseClientHandshakeFinished,
    parseServerChangeCipherSpec, parseServerHandshakeFinished, parseClientApplicationData,
    parseServerApplicationData, parseClientCloseNotify] using h

/-- Every parser starts at the record behind the one before it. -/
theorem testClient_eq {r0 r1 r2 r3 r4 r5 : List UInt8}
    (h : ∀ r ∈ [r0, r1, r2, r3, r4, r5], IsRecord r)
    (hheaders : ∀ r ∈ [r0, r1], sizeRecordHandshake ≤ r.length) (tail : List UInt8) :
    testClient (r0 ++ (r1 ++ (r2 ++ (r3 ++ (r4 ++ (r5 ++ tail)))))) =
      .ok [r0.drop sizeRecordHandshake ++ r1.take sizeHandshakeHeader,
        r1.drop sizeRecordHandshake ++ r2.take sizeHandshakeHeader, r2.drop sizeRecord,
        r3.drop sizeRecord, r4.drop sizeRecord, r5.drop sizeRecord] := by
  simp only [List.forall_mem_cons, List.not_mem_nil, IsEmpty.forall_iff, implies_true,
    and_true] at h hheaders
  obtain ⟨h0, h1, h2, h3, h4, h5⟩ := h
  obtain ⟨_, hp0⟩ := parseHandshake_before h0 hheaders.1 h1
    (r2 ++ (r3 ++ (r4 ++ (r5 ++ tail))))
  obtain ⟨_, hp1⟩ := parseHandshake_before h1 hheaders.2 h2 (r3 ++ (r4 ++ (r5 ++ tail)))
  obtain ⟨_, hp2⟩ := parseRecord_eq h2 (r3 ++ (r4 ++ (r5 ++ tail)))
  obtain ⟨_, hp3⟩ := parseRecord_eq h3 (r4 ++ (r5 ++ tail))
  obtain ⟨_, hp4⟩ := parseRecord_eq h4 (r5 ++ tail)
  obtain ⟨_, hp5⟩ := parseRecord_eq h5 tail
  apply (do_of_ok hp0).trans
  apply (do_of_ok hp1).trans
  apply (do_of_ok hp2).trans
  apply (do_of_ok hp3).trans
  apply (do_of_ok hp4).trans
  exact do_of_ok hp5

theorem testServer_eq {r0 r1 r2 r3 r4 r5 r6 : List UInt8}
    (h : ∀ r ∈ [r0, r1, r2, r3, r4, r5, r6], IsRecord r)
    (hheaders : ∀ r ∈ [r0, r1, r2, r3], sizeRecordHandshake ≤ r.length) (tail : List UInt8) :
    testServer (r0 ++ (r1 ++ (r2 ++ (r3 ++ (r4 ++ (r5 ++ (r6 ++ tail))))))) =
      .ok [r0.drop sizeRecordHandshake ++ r1.take sizeHandshakeHeader,
        r1.drop sizeRecordHandshake ++ r2.take sizeHandshakeHeader,
        r2.drop sizeRecordHandshake ++ r3.take sizeHandshakeHeader,
        r3.drop sizeRecordHandshake ++ r4.take sizeHandshakeHeader, r4.drop sizeRecord,
        r5.drop sizeRecord, r6.drop sizeRecord] := by
  simp only [List.forall_mem_cons, List.not_mem_nil, IsEmpty.forall_iff, implies_true,
    and_true] at h hheaders
  obtain ⟨h0, h1, h2, h3, h4, h5, h6⟩ := h
  obtain ⟨l0, l1, l2, l3⟩ := hheaders
  obtain ⟨_, hp0⟩ := parseHandshake_before h0 l0 h1 (r2 ++ (r3 ++ (r4 ++ (r5 ++ (r6 ++ tail)))))
  obtain ⟨_, hp1⟩ := parseHandshake_before h1 l1 h2 (r3 ++ (r4 ++ (r5 ++ (r6 ++ tail))))
  obtain ⟨_, hp2⟩ := parseHandshake_before h2 l2 h3 (r4 ++ (r5 ++ (r6 ++ tail)))
  obtain ⟨_, hp3⟩ := parseHandshake_before h3 l3 h4 (r5 ++ (r6 ++ tail))
  obtain ⟨_, hp4⟩ := parseRecord_eq h4 (r5 ++ (r6 ++ tail))
  obtain ⟨_, hp5⟩ := parseRecord_eq h5 (r6 ++ tail)
  obtain ⟨_, hp6⟩ := parseRecord_eq h6 tail
  apply (do_of_ok hp0).trans
  apply (do_of_ok hp1).trans
  apply (do_of_ok hp2).trans
  apply (do_of_ok hp3).trans
  apply (do_of_ok hp4).trans
  apply (do_of_ok hp5).trans
  exact do_of_ok hp6

end ParserForTls12

/-! ### Streams of records -/

/-- A stream whose first record has a handshake message in it, and perhaps further messages. -/
structure HandshakeStream where
  versionMajor : UInt8 := 3
  versionMinor : UInt8 := 3
  messageType : UInt8
  body : Prefixed 3
  messages : List UInt8 := []
  fits : (messageType :: (body.encode ++ messages)).length < 256 ^ 2
  others : List (List UInt8) := []
  wellFormed : ∀ r ∈ others, IsRecord r

namespace HandshakeStream
open ParserForTls12

def content (s : HandshakeStream) : Prefixed 2 :=
  ⟨s.messageType :: (s.body.encode ++ s.messages), s.fits⟩

def record (s : HandshakeStream) : List UInt8 :=
  ETlsProtocol.handshake :: s.versionMajor :: s.versionMinor :: s.content.encode

def bytes (s : HandshakeStream) : List UInt8 := s.record ++ s.others.flatten

/-- The payload is the declared body, and the data go on with the next record. -/
def SlicedInside (s : HandshakeStream) (parse : HandshakeParser) : Prop :=
  ∃ header, parse s.bytes = .ok (header, s.body.1, s.others.flatten)

theorem isRecord_record (s : HandshakeStream) : IsRecord s.record := by
  let n := s.content.1.length
  have hnumber : number [UInt8.ofNat (n / 256), UInt8.ofNat n] = n := s.content.number_length
  refine ⟨_, _, _, UInt8.ofNat (n / 256), UInt8.ofNat n, s.content.1, rfl, ?_⟩
  simpa [number] using hnumber.symm

theorem length_record (s : HandshakeStream) : sizeRecordHandshake ≤ s.record.length := by
  simp [record, content, sizeRecordHandshake, sizeRecord, sizeHandshakeHeader]
  omega

theorem drop_record (s : HandshakeStream) :
    s.record.drop sizeRecordHandshake = s.body.1 ++ s.messages := by
  rfl

/-- A record follows that the payload takes its last bytes from, or the parser throws. -/
theorem parseHandshake_bytes (s : HandshakeStream) :
    (s.others = [] → parseHandshake s.bytes = .error (.raised .argumentOutOfRange)) ∧
      (s.others ≠ [] → ∃ header, parseHandshake s.bytes =
        .ok (header, s.body.1 ++ s.messages ++ s.others.flatten.take sizeHandshakeHeader,
          s.others.flatten)) := by
  constructor
  · intro hlast
    rw [bytes, hlast]
    exact parseHandshake_throws s.isRecord_record s.length_record (by decide)
  · intro hne
    obtain ⟨next, hnext⟩ := List.exists_mem_of_ne_nil _ hne
    have hfive := (s.wellFormed next hnext).five_le
    have htail : sizeHandshakeHeader ≤ s.others.flatten.length :=
      (le_trans (by decide) hfive).trans (List.sublist_flatten_of_mem hnext).length_le
    rw [← s.drop_record]
    exact parseHandshake_eq s.isRecord_record s.length_record htail

theorem not_slicedInside_parseHandshake (s : HandshakeStream) :
    ¬ s.SlicedInside parseHandshake := by
  rintro ⟨header, hparse⟩
  by_cases hlast : s.others = []
  · rw [s.parseHandshake_bytes.1 hlast] at hparse
    cases hparse
  · obtain ⟨_, hover⟩ := s.parseHandshake_bytes.2 hlast
    rw [hover] at hparse
    have hbody := congrArg (fun r => r.2.1.length) (Except.ok.inj hparse)
    obtain ⟨next, hnext⟩ := List.exists_mem_of_ne_nil _ hlast
    have hfive := (s.wellFormed next hnext).five_le
    have hlength := (List.sublist_flatten_of_mem hnext).length_le
    simp only [List.length_append, List.length_take, sizeHandshakeHeader] at hbody
    unfold sizeRecord at hfive
    omega

/-- No parser of a handshake message hands out its body, and the others hand out just what is in
their record. -/
theorem not_slicedInside (s : HandshakeStream) :
    (∀ parse ∈ handshakeParsers, ¬ s.SlicedInside parse) ∧
      ∀ parse ∈ recordParsers, ∀ record : { r : List UInt8 // IsRecord r }, ∀ tail,
        ∃ header, parse (record.1 ++ tail) = .ok (header, record.1.drop sizeRecord, tail) := by
  constructor
  · intro parse hparse
    rw [eq_parseHandshake hparse]
    exact s.not_slicedInside_parseHandshake
  · intro parse hparse record tail
    rw [eq_parseRecord hparse]
    exact parseRecord_eq record.2 tail

end HandshakeStream

theorem isRecord_changeCipherSpec : ∀ r ∈ [[(0x14 : UInt8), 3, 3, 0, 1, 1]], IsRecord r := by
  intro r hr
  obtain rfl := List.mem_singleton.mp hr
  exact ⟨0x14, 3, 3, 0, 1, [1], rfl, by decide⟩

/-- A `ServerHelloDone` and the record behind it. -/
def doneStream : HandshakeStream where
  messageType := 0x0E
  body := ⟨[], by decide⟩
  fits := by decide
  others := [[0x14, 3, 3, 0, 1, 1]]
  wellFormed := isRecord_changeCipherSpec

/-- The payload of the empty message is the beginning of the next record. -/
theorem doneStream_overrun :
    (∃ header, ParserForTls12.parseServerHelloDone doneStream.bytes =
        .ok (header, [0x14, 3, 3, 0], [0x14, 3, 3, 0, 1, 1])) ∧
      ¬ doneStream.SlicedInside ParserForTls12.parseServerHelloDone := by
  constructor
  · exact doneStream.parseHandshake_bytes.2 (List.cons_ne_nil _ _)
  · exact doneStream.not_slicedInside_parseHandshake

end DecodingProxy.Cryptography
