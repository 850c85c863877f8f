import DecodingProxy.Cryptography.RecordExtraction
import DecodingProxy.Lib.Prefixes
import DecodingProxy.Runtime.Memory

/-!
# `ParserForTls12`: records parsed out of a whole capture

`TryParse` takes one record off the front of the data. It gives up without an exception
on no data and on a header of a type it does not know; data that end inside a header or
a payload make `ToStruct` or `Slice` throw.
-/

namespace DecodingProxy.Cryptography
open DecodingProxy.Prefixes DecodingProxy.Runs DecodingProxy.Runtime

namespace ETlsProtocol

def changeCipherSpec : UInt8 := 0x14
def alertRecord : UInt8 := 0x15
def handshake : UInt8 := 0x16
def applicationData : UInt8 := 0x17

end ETlsProtocol

def TlsRecord.validate (r : TlsRecord) : Bool :=
  r.type = ETlsProtocol.handshake || r.type = ETlsProtocol.changeCipherSpec ||
    r.type = ETlsProtocol.applicationData || r.type = ETlsProtocol.alertRecord

structure HandshakeHeader where
  messageType : UInt8
  length1Follows : Bytes3
  deriving DecidableEq, Repr

def sizeHandshakeHeader : ℕ := 4

/-- `BufferReader.ToStruct<HandshakeHeader>`: throws on fewer than four bytes. -/
def HandshakeHeader.toStruct : List UInt8 → Except Fault HandshakeHeader
  | b0 :: b1 :: b2 :: b3 :: _ => .ok ⟨b0, b1, b2, b3⟩
  | _ => .error (.raised .indexOutOfRange)

structure FrameParseResult where
  record : TlsRecord
  /-- Stays `default` outside of a handshake. -/
  handsakeHeader : Option HandshakeHeader
  payload : List UInt8
  wholeFrame : List UInt8
  deriving DecidableEq, Repr

namespace FrameParseResult

def fromHandshake (record : TlsRecord) (data wholeFrame : List UInt8) :
    Except Fault (List UInt8 × FrameParseResult) := do
  let header ← HandshakeHeader.toStruct data
  let payload ← sliceTo data record.length
  let data ← sliceFrom data record.length
  .ok (data, ⟨record, some header, payload, wholeFrame⟩)

def fromChangeCipherSpec (record : TlsRecord) (data wholeFrame : List UInt8) :
    Except Fault (List UInt8 × FrameParseResult) := do
  let payload ← sliceTo data record.length
  let data ← sliceFrom data record.length
  .ok (data, ⟨record, none, payload, wholeFrame⟩)

def fromAlertRecord := fromChangeCipherSpec

def fromApplicationData := fromChangeCipherSpec

/-- The `switch` of `TryParse`. -/
def fromTypeProtocol (header : TlsRecord) (data wholeFrame : List UInt8) :
    Except Fault (List UInt8 × FrameParseResult) :=
  if header.type = ETlsProtocol.handshake then fromHandshake header data wholeFrame
  else if header.type = ETlsProtocol.changeCipherSpec then
    fromChangeCipherSpec header data wholeFrame
  else if header.type = ETlsProtocol.alertRecord then fromAlertRecord header data wholeFrame
  else if header.type = ETlsProtocol.applicationData then
    fromApplicationData header data wholeFrame
  else .error (.raised .argumentOutOfRange)

end FrameParseResult

namespace ParserForTls12

/-- The data after the call, and the record if there was one. -/
def tryParse (data : List UInt8) : Except Fault (List UInt8 × Option FrameParseResult) :=
  if 0 < data.length then do
    let header ← TlsRecord.toStruct data
    if header.validate then
      let wholeFrame ← sliceTo data ((sizeRecord + header.length : ℕ) : ℤ)
      let data ← sliceFrom data sizeRecord
      let (data, result) ← FrameParseResult.fromTypeProtocol header data wholeFrame
      .ok (data, some result)
    else .ok (data, none)
  else .ok (data, none)

end ParserForTls12

def TlsFrame.ofParseResult (parseResult : FrameParseResult) : TlsFrame :=
  ⟨parseResult.record.type, parseResult.wholeFrame.length, parseResult.record,
    parseResult.payload, parseResult.wholeFrame⟩

structure TlsFrameReader where
  slice : List UInt8
  deriving DecidableEq, Repr

def TlsFrameReader.tryReadFrame (reader : TlsFrameReader) :
    Except Fault (TlsFrameReader × Option TlsFrame) :=
  (ParserForTls12.tryParse reader.slice).map fun (slice, parseResult) =>
    (⟨slice⟩, parseResult.map TlsFrame.ofParseResult)

/-- A complete record whose type is one of the four. -/
def IsValidRecord (b : List UInt8) : Prop :=
  IsRecord b ∧ ∃ header, TlsRecord.toStruct b = .ok header ∧ header.validate = true

/-- A whole header stands in front, and its type is none of the four. -/
def Refused (data : List UInt8) : Prop :=
  ∃ header, TlsRecord.toStruct data = .ok header ∧ header.validate = false

/-- A handshake record is read only where four bytes follow its record header. -/
def HandshakeReadable (record tail : List UInt8) : Prop :=
  record.head? = some ETlsProtocol.handshake →
    sizeHandshakeHeader ≤ (record.drop sizeRecord ++ tail).length

theorem TlsRecord.toStruct_ok_iff {data : List UInt8} {header : TlsRecord} :
    TlsRecord.toStruct data = .ok header ↔
      ∃ b0 b1 b2 b3 b4 rest, data = b0 :: b1 :: b2 :: b3 :: b4 :: rest ∧
        header = ⟨b0, littleEndian b1 b2, littleEndian b3 b4⟩ := by
  constructor
  · intro h
    unfold TlsRecord.toStruct at h
    split at h
    · cases h
      exact ⟨_, _, _, _, _, _, rfl, rfl⟩
    · cases h
  · rintro ⟨b0, b1, b2, b3, b4, rest, rfl, rfl⟩
    rfl

theorem TlsRecord.toStruct_append {data tail : List UInt8} {header : TlsRecord}
    (h : TlsRecord.toStruct data = .ok header) :
    TlsRecord.toStruct (data ++ tail) = .ok header := by
  obtain ⟨b0, b1, b2, b3, b4, rest, rfl, rfl⟩ := TlsRecord.toStruct_ok_iff.mp h
  rfl

theorem HandshakeHeader.toStruct_ok_iff {data : List UInt8} :
    (∃ header, HandshakeHeader.toStruct data = .ok header) ↔
      sizeHandshakeHeader ≤ data.length := by
  unfold HandshakeHeader.toStruct sizeHandshakeHeader
  split
  · simp
  · rename_i hshort
    simp only [reduceCtorEq, exists_false, false_iff, Nat.not_le]
    match data, hshort with
    | [], _ | [_], _ | [_, _], _ | [_, _, _], _ => simp
    | b0 :: b1 :: b2 :: b3 :: tl, hshort => exact absurd rfl (hshort b0 b1 b2 b3 tl)

theorem isRecord_iff {b : List UInt8} :
    IsRecord b ↔ ∃ header, TlsRecord.toStruct b = .ok header ∧
      b.length = sizeRecord + header.length := by
  constructor
  · intro h
    obtain ⟨header, hs, hlen⟩ := h.toStruct rfl
    exact ⟨header, hs, by omega⟩
  · rintro ⟨header, hs, hlen⟩
    obtain ⟨b0, b1, b2, b3, b4, rest, rfl, rfl⟩ := TlsRecord.toStruct_ok_iff.mp hs
    refine ⟨b0, b1, b2, b3, b4, rest, rfl, ?_⟩
    simp only [List.length_cons, TlsRecord.length, reverseEndians_littleEndian,
      sizeRecord] at hlen
    omega

theorem isRecord_prefixFree : PrefixFree IsRecord := by
  intro a b ha hb hab
  obtain ⟨ha', hsa, hla⟩ := isRecord_iff.mp ha
  obtain ⟨hb', hsb, hlb⟩ := isRecord_iff.mp hb
  obtain ⟨tail, rfl⟩ := hab
  rw [TlsRecord.toStruct_append hsa] at hsb
  cases hsb
  exact (List.prefix_append a tail).eq_of_length (by omega)

theorem isValidRecord_prefixFree : PrefixFree IsValidRecord :=
  fun a b ha hb => isRecord_prefixFree a b ha.1 hb.1

theorem Refused.no_record {data : List UInt8} (h : Refused data) {record : List UInt8}
    (hr : IsValidRecord record) : ¬ record <+: data := by
  rintro ⟨tail, rfl⟩
  obtain ⟨header, hs, hv⟩ := hr.2
  obtain ⟨other, hs', hv'⟩ := h
  rw [TlsRecord.toStruct_append hs] at hs'
  cases hs'
  simp [hv] at hv'

namespace ParserForTls12

theorem tryParse_refused {data : List UInt8} (h : Refused data) :
    tryParse data = .ok (data, none) := by
  obtain ⟨header, hs, hv⟩ := h
  have hpos : 0 < data.length := by
    obtain ⟨b0, b1, b2, b3, b4, rest, rfl, -⟩ := TlsRecord.toStruct_ok_iff.mp hs
    simp
  rw [tryParse, if_pos hpos, do_of_ok hs, if_neg (by simp [hv])]

theorem fromTypeProtocol_eq {header : TlsRecord} (hv : header.validate = true)
    (data wholeFrame : List UInt8) :
    FrameParseResult.fromTypeProtocol header data wholeFrame =
      if header.type = ETlsProtocol.handshake then
        FrameParseResult.fromHandshake header data wholeFrame
      else FrameParseResult.fromChangeCipherSpec header data wholeFrame := by
  simp only [FrameParseResult.fromTypeProtocol, FrameParseResult.fromAlertRecord,
    FrameParseResult.fromApplicationData]
  split_ifs with h1 h2 h3 h4
  · rfl
  · rfl
  · rfl
  · rfl
  · simp [TlsRecord.validate, h1, h2, h3, h4] at hv

theorem tryParse_of_header {data : List UInt8} {header : TlsRecord}
    (hs : TlsRecord.toStruct data = .ok header) (hv : header.validate = true) :
    tryParse data = (do
      let wholeFrame ← sliceTo data ((sizeRecord + header.length : ℕ) : ℤ)
      let data ← sliceFrom data sizeRecord
      let (data, result) ← FrameParseResult.fromTypeProtocol header data wholeFrame
      .ok (data, some result)) := by
  have hpos : 0 < data.length := by
    obtain ⟨b0, b1, b2, b3, b4, rest, rfl, -⟩ := TlsRecord.toStruct_ok_iff.mp hs
    simp
  rw [tryParse, if_pos hpos, do_of_ok hs, if_pos hv]

theorem fromHandshake_ok_iff {record : TlsRecord} {data wholeFrame rest : List UInt8}
    {result : FrameParseResult} :
    FrameParseResult.fromHandshake record data wholeFrame = .ok (rest, result) ↔
      ∃ header payload, HandshakeHeader.toStruct data = .ok header ∧
        sliceTo data record.length = .ok payload ∧ sliceFrom data record.length = .ok rest ∧
        result = ⟨record, some header, payload, wholeFrame⟩ := by
  simp only [FrameParseResult.fromHandshake, do_ok_iff, Except.ok.injEq, Prod.mk.injEq]
  constructor
  · rintro ⟨header, hh, payload, hp, rest', hr, rfl, rfl⟩
    exact ⟨header, payload, hh, hp, hr, rfl⟩
  · rintro ⟨header, payload, hh, hp, hr, rfl⟩
    exact ⟨header, hh, payload, hp, rest, hr, rfl, rfl⟩

theorem fromChangeCipherSpec_ok_iff {record : TlsRecord} {data wholeFrame rest : List UInt8}
    {result : FrameParseResult} :
    FrameParseResult.fromChangeCipherSpec record data wholeFrame = .ok (rest, result) ↔
      ∃ payload, sliceTo data record.length = .ok payload ∧
        sliceFrom data record.length = .ok rest ∧
        result = ⟨record, none, payload, wholeFrame⟩ := by
  simp only [FrameParseResult.fromChangeCipherSpec, do_ok_iff, Except.ok.injEq, Prod.mk.injEq]
  constructor
  · rintro ⟨payload, hp, rest', hr, rfl, rfl⟩
    exact ⟨payload, hp, hr, rfl⟩
  · rintro ⟨payload, hp, hr, rfl⟩
    exact ⟨payload, hp, rest, hr, rfl, rfl⟩

theorem tryParse_record {record tail : List UInt8} (h : IsValidRecord record)
    (hread : HandshakeReadable record tail) :
    ∃ result, tryParse (record ++ tail) = .ok (tail, some result) ∧
      result.wholeFrame = record := by
  obtain ⟨header, hs, hv⟩ := h.2
  obtain ⟨other, hs', hlen⟩ := isRecord_iff.mp h.1
  rw [hs] at hs'
  cases hs'
  rw [tryParse_of_header (TlsRecord.toStruct_append hs) hv, ← hlen,
    do_of_ok (sliceTo_append record tail)]
  have h5 := h.1.five_le
  set payload := record.drop sizeRecord with hpayload
  have hsplit : record ++ tail = record.take sizeRecord ++ (payload ++ tail) := by
    rw [hpayload, ← List.append_assoc, List.take_append_drop]
  have hsize : ((record.take sizeRecord).length : ℤ) = sizeRecord := by simp [h5]
  have hplen : (payload.length : ℤ) = header.length := by
    simp only [hpayload, List.length_drop]
    omega
  have hdata : sliceFrom (record ++ tail) sizeRecord = .ok (payload ++ tail) := by
    rw [hsplit, ← hsize, sliceFrom_append]
  have hto : sliceTo (payload ++ tail) header.length = .ok payload := by
    rw [← hplen, sliceTo_append]
  have hfrom : sliceFrom (payload ++ tail) header.length = .ok tail := by
    rw [← hplen, sliceFrom_append]
  rw [do_of_ok hdata, fromTypeProtocol_eq hv]
  split_ifs with htype
  · obtain ⟨handshake, hh⟩ : ∃ handshake, HandshakeHeader.toStruct (payload ++ tail) =
        .ok handshake := by
      refine HandshakeHeader.toStruct_ok_iff.mpr (hread ?_)
      obtain ⟨b0, b1, b2, b3, b4, rest, rfl, rfl⟩ := TlsRecord.toStruct_ok_iff.mp hs
      exact congrArg some htype
    rw [do_of_ok (fromHandshake_ok_iff.mpr ⟨handshake, payload, hh, hto, hfrom, rfl⟩)]
    exact ⟨_, rfl, rfl⟩
  · rw [do_of_ok (fromChangeCipherSpec_ok_iff.mpr ⟨payload, hto, hfrom, rfl⟩)]
    exact ⟨_, rfl, rfl⟩

/-- A call that does not throw stops in front of no data or of an unknown type, or takes
one whole record. -/
theorem tryParse_inv {data rest : List UInt8} {result : Option FrameParseResult}
    (h : tryParse data = .ok (rest, result)) :
    (result = none ∧ rest = data ∧ (data = [] ∨ Refused data)) ∨
      ∃ record f, result = some f ∧ f.wholeFrame = record ∧ data = record ++ rest ∧
        IsValidRecord record ∧ HandshakeReadable record rest := by
  by_cases hpos : 0 < data.length
  case neg =>
    rw [tryParse, if_neg hpos] at h
    cases h
    exact .inl ⟨rfl, rfl, .inl (by simpa using hpos)⟩
  obtain ⟨header, hs⟩ : ∃ header, TlsRecord.toStruct data = .ok header := by
    rw [tryParse, if_pos hpos] at h
    obtain ⟨header, hs, -⟩ := do_ok_iff.mp h
    exact ⟨header, hs⟩
  cases hv : header.validate with
  | false =>
    rw [tryParse_refused ⟨header, hs, hv⟩] at h
    cases h
    exact .inl ⟨rfl, rfl, .inr ⟨header, hs, hv⟩⟩
  | true =>
    rw [tryParse_of_header hs hv] at h
    obtain ⟨record, hto, h⟩ := do_ok_iff.mp h
    obtain ⟨data', hfrom, h⟩ := do_ok_iff.mp h
    obtain ⟨⟨rest', f⟩, hread, h⟩ := do_ok_iff.mp h
    cases h
    rw [fromTypeProtocol_eq hv] at hread
    obtain ⟨-, hle, rfl⟩ := sliceTo_inv hto
    obtain ⟨-, h5, rfl⟩ := sliceFrom_inv hfrom
    simp only [Int.toNat_natCast] at hread ⊢
    set record := data.take (sizeRecord + header.length) with hrecord
    have hlen : record.length = sizeRecord + header.length := by
      rw [hrecord, List.length_take]
      omega
    obtain ⟨hwhole, hrest, hfour⟩ : f.wholeFrame = record ∧
        rest = data.drop (sizeRecord + header.length) ∧
        (header.type = ETlsProtocol.handshake →
          sizeHandshakeHeader ≤ (data.drop sizeRecord).length) := by
      split_ifs at hread with htype
      · obtain ⟨hh, payload, hstruct, -, hslice, rfl⟩ := fromHandshake_ok_iff.mp hread
        obtain ⟨-, -, rfl⟩ := sliceFrom_inv hslice
        exact ⟨rfl, by simp, fun _ => HandshakeHeader.toStruct_ok_iff.mp ⟨hh, hstruct⟩⟩
      · obtain ⟨payload, -, hslice, rfl⟩ := fromChangeCipherSpec_ok_iff.mp hread
        obtain ⟨-, -, rfl⟩ := sliceFrom_inv hslice
        exact ⟨rfl, by simp, fun htype' => absurd htype' htype⟩
    have hdata : data = record ++ rest := by rw [hrest, hrecord, List.take_append_drop]
    have hhead : TlsRecord.toStruct record = .ok header ∧
        record.head? = some header.type := by
      obtain ⟨b0, b1, b2, b3, b4, tl, hd, rfl⟩ := TlsRecord.toStruct_ok_iff.mp hs
      rw [hrecord, hd, Nat.add_comm]
      exact ⟨rfl, rfl⟩
    refine .inr ⟨record, f, rfl, hwhole, hdata,
      ⟨isRecord_iff.mpr ⟨header, hhead.1, hlen⟩, header, hhead.1, hv⟩, fun htype => ?_⟩
    have htype' : header.type = ETlsProtocol.handshake := by
      simpa [hhead.2] using htype
    have := hfour htype'
    rw [hdata] at this
    simp only [List.length_drop, List.length_append] at this ⊢
    omega

end ParserForTls12

end DecodingProxy.Cryptography
