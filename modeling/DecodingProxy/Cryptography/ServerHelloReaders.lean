import DecodingProxy.Cryptography.HandshakePayloads
import DecodingProxy.Cryptography.HelloRecords
import DecodingProxy.Runtime.BufferReader

/-!
# Readers of the `ServerHello`

`TlsHelloFromServer.Read` counts down one variable and looks at another one, so that only the end
of the frame ends its loop. `HandshakeHelloFromServerAnalyz.TryAnalyz` repeats the `switch` on the
type of the message while anything is left, and throws when nothing is.
-/

namespace DecodingProxy.Cryptography
open DecodingProxy.Runtime DecodingProxy.Vectors DecodingProxy.Runs

/-- What is read by index and by range. Not every range need be available. -/
structure IndexReader where
  bytes : List UInt8
  item : ℕ → Except Fault UInt8
  getSpan : ℕ → ℤ → Except Fault (List UInt8)
  item_ok : ∀ i b, item i = .ok b → bytes[i]? = some b
  getSpan_ok : ∀ i length span, getSpan i length = .ok span →
    0 ≤ length ∧ i + length ≤ bytes.length ∧ span = (bytes.drop i).take length.toNat

namespace IndexReader

def toUshort (frame : IndexReader) (offset : ℕ) : Except Fault ℕ := do
  let v1 ← frame.item offset
  let v2 ← frame.item (offset + 1)
  .ok (Cryptography.toUshort v1 v2)

/-- `BufferReader.ToShort` of two items. -/
def toShort (frame : IndexReader) (offset : ℕ) : Except Fault ℤ := do
  let n ← frame.toUshort offset
  .ok (if n < 2 ^ 15 then n else n - 2 ^ 16)

end IndexReader

/-- `IndexReaderForArray<byte>` -/
def indexReaderForArray (array : List UInt8) : IndexReader where
  bytes := array
  item := byteAt array
  getSpan offset length :=
    if length < 0 ∨ array.length < offset + length then .error (.raised .argumentOutOfRange)
    else .ok ((array.drop offset).take length.toNat)
  item_ok _ _ h := byteAt_ok_iff.mp h
  getSpan_ok i length span h := by
    split_ifs at h with hout
    cases h
    exact ⟨by omega, by omega, rfl⟩

section
variable {array : List UInt8} {i : ℕ}

theorem item_array (h : i < array.length) : ∃ b, (indexReaderForArray array).item i = .ok b :=
  ⟨_, byteAt_ok_iff.mpr (List.getElem?_eq_getElem h)⟩

theorem toUshort_array (h : i + 1 < array.length) :
    ∃ n, (indexReaderForArray array).toUshort i = .ok n := by
  obtain ⟨v1, h1⟩ := item_array (Nat.lt_of_succ_lt h)
  obtain ⟨v2, h2⟩ := item_array h
  exact ⟨_, (do_of_ok h1).trans (do_of_ok h2)⟩

theorem getSpan_array {length : ℕ} (h : i + length ≤ array.length) :
    ∃ span, (indexReaderForArray array).getSpan i length = .ok span := by
  refine ⟨(array.drop i).take length, if_neg ?_⟩
  omega

end

namespace TlsHelloFromServer

/-- One turn of the loop. -/
def extensionAt (frame : IndexReader) (i : ℕ) : Except Fault TlsExtensionInfo := do
  let extensionType ← frame.toUshort i
  let extensionLength ← frame.toShort (i + 2)
  let extensionData ← frame.getSpan (i + 4) extensionLength
  .ok ⟨extensionType, extensionLength.toNat, extensionData⟩

theorem extensionAt_lt {frame : IndexReader} {i : ℕ} {extension : TlsExtensionInfo}
    (h : extensionAt frame i = .ok extension) : i < frame.bytes.length := by
  obtain ⟨_, htype, _⟩ := do_ok_iff.mp h
  obtain ⟨b, hb, _⟩ := do_ok_iff.mp htype
  exact (List.getElem?_eq_some_iff.mp (frame.item_ok i b hb)).1

/-- The loop. It looks at `extensionsLength`. -/
def readExtensions (frame : IndexReader) (extensionsLength : ℕ) (i : ℕ)
    (extensionsLengthLeft : ℤ) (visited : List TlsExtensionInfo) :
    Except Fault (List TlsExtensionInfo × ℕ) :=
  if 0 < extensionsLength then
    match _ : extensionAt frame i with
    | .error fault => .error fault
    | .ok extension =>
      readExtensions frame extensionsLength (i + 4 + extension.length)
        (extensionsLengthLeft - (extension.length + 4)) (visited ++ [extension])
  else .ok (visited, i)
termination_by frame.bytes.length - i
decreasing_by
  have hlt := extensionAt_lt ‹extensionAt _ _ = .ok _›
  omega

/-- The extensions that were visited, and the index behind the last of them. -/
def read (frame : IndexReader) : Except Fault (List TlsExtensionInfo × ℕ) := do
  let _ ← frame.item 0
  let _ ← frame.toUshort 1
  let _ ← frame.toUshort 3
  let _ ← frame.item 5
  let _ ← frame.item 6
  let _ ← frame.item 7
  let _ ← frame.item 8
  let _ ← frame.toUshort 9
  let _ ← frame.getSpan 11 32
  let sessionIDLength ← frame.item 43
  let _ ← frame.getSpan 44 sessionIDLength.toNat
  let i := 44 + sessionIDLength.toNat
  let _ ← frame.toUshort i
  let _ ← frame.item (i + 2)
  let extensionsLength ← frame.toUshort (i + 3)
  readExtensions frame extensionsLength (i + 5) extensionsLength []

theorem readExtensions_zero (frame : IndexReader) (i : ℕ) (left : ℤ)
    (visited : List TlsExtensionInfo) :
    readExtensions frame 0 i left visited = .ok (visited, i) := by
  rw [readExtensions, if_neg (Nat.lt_irrefl 0)]

/-- Only the end of the frame ends the loop. -/
theorem readExtensions_ne_ok (frame : IndexReader) {extensionsLength : ℕ}
    (h : 0 < extensionsLength) (i : ℕ) (left : ℤ) (visited : List TlsExtensionInfo)
    (result : List TlsExtensionInfo × ℕ) :
    readExtensions frame extensionsLength i left visited ≠ .ok result := by
  induction hn : frame.bytes.length - i using Nat.strong_induction_on
    generalizing i left visited with
  | _ n ih =>
    subst hn
    rw [readExtensions, if_pos h]
    split
    · exact nofun
    · next extension hextension =>
      have hlt := extensionAt_lt hextension
      exact ih _ (by omega) _ _ _ rfl

theorem extensionAt_array (pre tail : List UInt8) {e : HelloExtension}
    (hshort : e.data.1.length < 2 ^ 15) :
    extensionAt (indexReaderForArray (pre ++ (e.encode ++ tail))) pre.length = .ok e.info := by
  have hdata : pre ++ (e.encode ++ tail) =
      pre ++ e.typeMajor :: e.typeMinor :: (e.data.encode ++ tail) := rfl
  have htype : (indexReaderForArray (pre ++ (e.encode ++ tail))).toUshort pre.length =
      .ok e.type := ushortAt_behind hdata rfl
  have hdata₂ : pre ++ (e.encode ++ tail) =
      (pre ++ [e.typeMajor, e.typeMinor]) ++ (e.data.encode ++ tail) := by
    rw [hdata]
    simp
  have hushort : (indexReaderForArray (pre ++ (e.encode ++ tail))).toUshort (pre.length + 2) =
      .ok e.data.1.length := ushortAt_prefixed hdata₂ (by simp)
  have hlength : (indexReaderForArray (pre ++ (e.encode ++ tail))).toShort (pre.length + 2) =
      .ok e.data.1.length := by
    rw [IndexReader.toShort, do_of_ok hushort, if_pos hshort]
  have hspan : (indexReaderForArray (pre ++ (e.encode ++ tail))).getSpan (pre.length + 4)
      e.data.1.length = .ok e.data.1 := by
    have hdata₄ : pre ++ (e.encode ++ tail) =
        (pre ++ [e.typeMajor, e.typeMinor] ++ bigEndian 2 e.data.1.length) ++
          (e.data.1 ++ tail) := by
      rw [hdata₂, Prefixed.encode]
      simp
    have hpre : pre.length + 4 =
        (pre ++ [e.typeMajor, e.typeMinor] ++ bigEndian 2 e.data.1.length).length := by simp
    rw [hpre, hdata₄]
    refine (if_neg ?_).trans ?_
    · simp only [List.length_append]
      omega
    · rw [Int.toNat_natCast, List.drop_left, List.take_left]
  rw [extensionAt, do_of_ok htype, do_of_ok hlength, do_of_ok hspan, Int.toNat_natCast]
  rfl

/-- Behind the last extension of the block the loop goes on. -/
theorem readExtensions_block {extensionsLength : ℕ} (h : 0 < extensionsLength)
    (es : List HelloExtension) (hshort : ∀ e ∈ es, e.data.1.length < 2 ^ 15)
    (pre tail : List UInt8) (left : ℤ) (visited : List TlsExtensionInfo) :
    readExtensions (indexReaderForArray (pre ++ (es.flatMap HelloExtension.encode ++ tail)))
        extensionsLength pre.length left visited =
      readExtensions (indexReaderForArray (pre ++ (es.flatMap HelloExtension.encode ++ tail)))
        extensionsLength (pre ++ es.flatMap HelloExtension.encode).length
        (left - (es.flatMap HelloExtension.encode).length)
        (visited ++ es.map HelloExtension.info) := by
  induction es generalizing pre left visited with
  | nil => simp
  | cons e es ih =>
    have hdata : pre ++ ((e :: es).flatMap HelloExtension.encode ++ tail) =
        pre ++ (e.encode ++ (es.flatMap HelloExtension.encode ++ tail)) := by
      rw [List.flatMap_cons, List.append_assoc]
    have hread := extensionAt_array pre (es.flatMap HelloExtension.encode ++ tail)
      (hshort e List.mem_cons_self)
    have hnext : pre.length + 4 + e.info.length = (pre ++ e.encode).length := by
      rw [List.length_append, e.length_encode, e.info_length]
      omega
    have hrest := ih (fun x hx => hshort x (List.mem_cons_of_mem e hx)) (pre ++ e.encode)
      (left - (e.info.length + 4)) (visited ++ [e.info])
    rw [hdata]
    conv_lhs => rw [readExtensions, if_pos h]
    rw [hread]
    dsimp only
    rw [hnext]
    rw [List.append_assoc] at hrest
    rw [hrest]
    congr 1
    · rw [List.flatMap_cons, List.append_assoc]
    · rw [List.flatMap_cons, List.length_append, e.length_encode, e.info_length]
      push_cast
      omega
    · rw [List.map_cons, List.append_assoc, List.singleton_append]

end TlsHelloFromServer

namespace TlsExtensionInfo

/-- The extension, and the memory behind it. -/
def tryReadConsume (mem : List UInt8) :
    Except Fault (Option (TlsExtensionInfo × List UInt8)) :=
  if 4 < mem.length then do
    let type ← ushortAt mem 0
    let length ← ushortAt mem 2
    let payload ← sliceAt mem 4 length
    let mem ← sliceFrom mem ((4 + length : ℕ) : ℤ)
    .ok (some (⟨type, length, payload⟩, mem))
  else .ok none

theorem tryReadConsume_lt {mem mem' : List UInt8} {extension : TlsExtensionInfo}
    (h : tryReadConsume mem = .ok (some (extension, mem'))) : mem'.length < mem.length := by
  unfold tryReadConsume at h
  split_ifs at h with hlong
  · obtain ⟨type, _, h⟩ := do_ok_iff.mp h
    obtain ⟨length, _, h⟩ := do_ok_iff.mp h
    obtain ⟨payload, _, h⟩ := do_ok_iff.mp h
    obtain ⟨rest, hrest, h⟩ := do_ok_iff.mp h
    cases h
    obtain ⟨_, _, rfl⟩ := sliceFrom_inv hrest
    rw [List.length_drop]
    omega
  · cases h

end TlsExtensionInfo

namespace ETlsTypeHandshakeMessage

def serverKeyExchange : UInt8 := 0x0C
def certificateRequest : UInt8 := 0x0D
def serverHelloDone : UInt8 := 0x0E
def certificateVerify : UInt8 := 0x0F
def clientKeyExchange : UInt8 := 0x10
def finished : UInt8 := 0x14

end ETlsTypeHandshakeMessage

namespace HandshakeHelloFromServerAnalyz
open BufferReader

/-- The cases whose body is `goto REPEAT`. -/
def repeatedTypes : List UInt8 :=
  [ETlsTypeHandshakeMessage.helloRequest, ETlsTypeHandshakeMessage.clientHello,
    ETlsTypeHandshakeMessage.certificate, ETlsTypeHandshakeMessage.serverKeyExchange,
    ETlsTypeHandshakeMessage.certificateRequest, ETlsTypeHandshakeMessage.serverHelloDone,
    ETlsTypeHandshakeMessage.certificateVerify, ETlsTypeHandshakeMessage.clientKeyExchange,
    ETlsTypeHandshakeMessage.finished]

/-- `while (TlsExtensionInfo.TryReadConsume(ref mem, out var ext))` -/
def consumeExtensions (mem : List UInt8) : Except Fault (List UInt8) :=
  match _ : TlsExtensionInfo.tryReadConsume mem with
  | .error fault => .error fault
  | .ok none => .ok mem
  | .ok (some (_, mem)) => consumeExtensions mem
termination_by mem.length
decreasing_by exact TlsExtensionInfo.tryReadConsume_lt ‹_›

-- The runtime lays out the struct `ServerHello`, and decides on its size.
variable (sizeServerHello : ℕ)

/-- The case `ServerHello`. The length of the session id overlaps the random. -/
def serverHello (mem : List UInt8) : Except Fault (List UInt8) := do
  let (_, _) ← toStructConsume sizeServerHello mem
  let sessionIdLength ← byteAt mem 2
  let _ ← sliceTo mem sessionIdLength.toNat
  let mem ← sliceFrom mem sessionIdLength.toNat
  let (_, mem) ← toStructConsume sizeCipherSuiteValue mem
  let (_, mem) ← toStructConsume sizeCompressionMethod mem
  consumeExtensions mem

theorem consumeExtensions_le {mem mem' : List UInt8} (h : consumeExtensions mem = .ok mem') :
    mem'.length ≤ mem.length := by
  induction hn : mem.length using Nat.strong_induction_on generalizing mem with
  | _ n ih =>
    subst hn
    rw [consumeExtensions] at h
    split at h
    · cases h
    · cases h
      exact le_rfl
    · next hread =>
      have hlt := TlsExtensionInfo.tryReadConsume_lt hread
      exact (ih _ hlt h rfl).trans hlt.le

theorem toStructConsume_inv {size : ℕ} {mem bytes rest : List UInt8}
    (h : toStructConsume size mem = .ok (bytes, rest)) : rest.length + size = mem.length := by
  unfold toStructConsume at h
  split_ifs at h with hshort
  cases h
  rw [List.length_drop]
  omega

/-- The cipher suite and the compression method are consumed. -/
theorem serverHello_lt {mem mem' : List UInt8} (h : serverHello sizeServerHello mem = .ok mem') :
    mem'.length < mem.length := by
  obtain ⟨⟨_, _⟩, _, h⟩ := do_ok_iff.mp h
  obtain ⟨_, _, h⟩ := do_ok_iff.mp h
  obtain ⟨_, _, h⟩ := do_ok_iff.mp h
  obtain ⟨behind, hbehind, h⟩ := do_ok_iff.mp h
  obtain ⟨⟨_, rest⟩, hcipher, h⟩ := do_ok_iff.mp h
  obtain ⟨⟨_, last⟩, hcompression, h⟩ := do_ok_iff.mp h
  have hbehind : behind.length ≤ mem.length := by
    obtain ⟨_, _, rfl⟩ := sliceFrom_inv hbehind
    rw [List.length_drop]
    omega
  have hcipher := toStructConsume_inv hcipher
  have hcompression := toStructConsume_inv hcompression
  have hextensions := consumeExtensions_le h
  simp only [sizeCipherSuiteValue, sizeCompressionMethod] at hcipher hcompression
  omega

/-- From the label `REPEAT` on. -/
def repeatFrom (type : UInt8) (mem : List UInt8) : Except Halt Bool :=
  if 0 < mem.length then
    if type = ETlsTypeHandshakeMessage.serverHello then
      match _ : serverHello sizeServerHello mem with
      | .error fault => .error (.threw fault)
      | .ok mem => repeatFrom type mem
    else if type ∈ repeatedTypes then .error .diverges
    else .error (.threw (.raised .notImplemented))
  else .error (.threw (.raised .notImplemented))
termination_by mem.length
decreasing_by exact serverHello_lt sizeServerHello ‹_›

/-- The result holds nothing. -/
def tryAnalyz (serverHello : HandshakeRecord) (payloadServerHello : List UInt8) :
    Except Halt Bool := do
  let header := serverHello.handshakeHeader
  let mem ← (sliceFrom payloadServerHello sizeHandshakeHeader).mapError .threw
  let _ ← (sliceTo mem header.length1Follows.toInt).mapError .threw
  repeatFrom sizeServerHello header.messageType mem

theorem repeatFrom_serverHello (mem : List UInt8) : ∃ fault,
    repeatFrom sizeServerHello ETlsTypeHandshakeMessage.serverHello mem =
      .error (.threw fault) := by
  induction hn : mem.length using Nat.strong_induction_on generalizing mem with
  | _ n ih =>
    subst hn
    rw [repeatFrom, if_pos rfl]
    by_cases hmem : 0 < mem.length
    · rw [if_pos hmem]
      split
      · exact ⟨_, rfl⟩
      · next hturn => exact ih _ (serverHello_lt sizeServerHello hturn) _ rfl
    · rw [if_neg hmem]
      exact ⟨_, rfl⟩

theorem serverHello_not_repeated : ETlsTypeHandshakeMessage.serverHello ∉ repeatedTypes := by
  decide

/-- Nothing is returned, and a type that is only repeated is repeated for ever. -/
theorem repeatFrom_spec (type : UInt8) (mem : List UInt8) :
    (∃ halt, repeatFrom sizeServerHello type mem = .error halt) ∧
      (repeatFrom sizeServerHello type mem = .error .diverges ↔
        mem ≠ [] ∧ type ∈ repeatedTypes) := by
  by_cases htype : type = ETlsTypeHandshakeMessage.serverHello
  · subst htype
    obtain ⟨fault, hthrows⟩ := repeatFrom_serverHello sizeServerHello mem
    refine ⟨⟨_, hthrows⟩, ?_⟩
    rw [hthrows]
    exact iff_of_false nofun fun h => serverHello_not_repeated h.2
  · rw [repeatFrom]
    split_ifs with hmem hrepeated
    · refine ⟨⟨_, rfl⟩, iff_of_true rfl ⟨?_, hrepeated⟩⟩
      exact List.ne_nil_of_length_pos hmem
    · exact ⟨⟨_, rfl⟩, iff_of_false nofun fun h => hrepeated h.2⟩
    · refine ⟨⟨_, rfl⟩, iff_of_false nofun fun h => hmem ?_⟩
      exact List.length_pos_of_ne_nil h.1

/-- A message of a type that is only repeated, with its body. -/
def Repeats (serverHello : HandshakeRecord) (payload : List UInt8) : Prop :=
  serverHello.handshakeHeader.messageType ∈ repeatedTypes ∧
    sizeHandshakeHeader < payload.length ∧
    sizeHandshakeHeader + serverHello.handshakeHeader.length1Follows.toInt ≤ payload.length

theorem tryAnalyz_spec (serverHello : HandshakeRecord) (payload : List UInt8) :
    (∃ halt, tryAnalyz sizeServerHello serverHello payload = .error halt) ∧
      (tryAnalyz sizeServerHello serverHello payload = .error .diverges ↔
        Repeats serverHello payload) := by
  unfold tryAnalyz Repeats
  by_cases hfour : payload.length < sizeHandshakeHeader
  · have hmem : sliceFrom payload sizeHandshakeHeader = .error (.raised .argumentOutOfRange) :=
      if_pos (by omega)
    rw [hmem]
    exact ⟨⟨_, rfl⟩, iff_of_false nofun fun h => by omega⟩
  · have hmem : sliceFrom payload sizeHandshakeHeader = .ok (payload.drop sizeHandshakeHeader) :=
      if_neg (by omega)
    rw [hmem]
    obtain ⟨record, type, length⟩ := serverHello
    dsimp only
    by_cases hbody : payload.length < sizeHandshakeHeader + length.toInt
    · have hthrows : sliceTo (payload.drop sizeHandshakeHeader) length.toInt =
          .error (.raised .argumentOutOfRange) := by
        apply if_pos
        rw [List.length_drop]
        omega
      simp only [Except.mapError, bind, Except.bind, hthrows]
      exact ⟨⟨_, rfl⟩, iff_of_false nofun fun h => by omega⟩
    · have htakes : sliceTo (payload.drop sizeHandshakeHeader) length.toInt =
          .ok ((payload.drop sizeHandshakeHeader).take length.toInt) := by
        apply if_neg
        rw [List.length_drop]
        omega
      simp only [Except.mapError, bind, Except.bind, htakes]
      obtain ⟨hhalt, hdiverges⟩ := repeatFrom_spec sizeServerHello type
        (payload.drop sizeHandshakeHeader)
      refine ⟨hhalt, hdiverges.trans ?_⟩
      rw [ne_eq, List.drop_eq_nil_iff]
      constructor
      · rintro ⟨hlong, htype⟩
        exact ⟨htype, by omega, by omega⟩
      · rintro ⟨htype, hlong, _⟩
        exact ⟨by omega, htype⟩

end HandshakeHelloFromServerAnalyz

/-! ### Well-formed blocks -/

/-- A `ServerHello` whose block is a list of extensions. -/
structure ServerHelloBlock extends HelloRecord where
  cipherMajor : UInt8
  cipherMinor : UInt8
  compressionMethod : UInt8
  isServer : parameters = .server cipherMajor cipherMinor compressionMethod
  extensions : List HelloExtension
  block_eq : block.1 = extensions.flatMap HelloExtension.encode

namespace ServerHelloBlock
open TlsHelloFromServer

/-- Each extension is visited once, and the reading ends behind the block. -/
def VisitsAll (h : ServerHelloBlock) (more : List UInt8) : Prop :=
  read (indexReaderForArray (h.frame ++ more)) =
    .ok (h.extensions.map HelloExtension.info, h.start.length + h.block.1.length)

/-- The loop starts in front of the block. -/
theorem read_eq (h : ServerHelloBlock) (more : List UInt8) :
    read (indexReaderForArray (h.frame ++ more)) =
      readExtensions (indexReaderForArray (h.frame ++ more)) h.block.1.length h.start.length
        h.block.1.length [] := by
  obtain ⟨b, hb, hsession⟩ := h.toHelloRecord.sessionId_data more
  obtain ⟨hleft, _⟩ := h.block_at more
  have hupTo : h.upToBlock.length = 44 + b.toNat + 3 := by
    rw [HelloRecord.upToBlock, h.isServer, ← List.append_assoc, List.length_append, ← hsession]
    rfl
  have hstart : h.start.length = 44 + b.toNat + 5 := by
    rw [HelloRecord.start, List.length_append, hupTo, length_bigEndian]
  have hlong : 44 + b.toNat + 5 ≤ (h.frame ++ more).length := by
    rw [h.data_start, List.length_append, hstart]
    omega
  rw [hupTo] at hleft
  have hitem (i : ℕ) (hi : i < 44 + b.toNat + 5) := item_array (hi.trans_le hlong)
  have hushort (i : ℕ) (hi : i + 1 < 44 + b.toNat + 5) := toUshort_array (hi.trans_le hlong)
  have hspan (i n : ℕ) (hi : i + n ≤ 44 + b.toNat + 5) := getSpan_array (hi.trans hlong)
  obtain ⟨_, h0⟩ := hitem 0 (by omega)
  obtain ⟨_, h1⟩ := hushort 1 (by omega)
  obtain ⟨_, h3⟩ := hushort 3 (by omega)
  obtain ⟨_, h5⟩ := hitem 5 (by omega)
  obtain ⟨_, h6⟩ := hitem 6 (by omega)
  obtain ⟨_, h7⟩ := hitem 7 (by omega)
  obtain ⟨_, h8⟩ := hitem 8 (by omega)
  obtain ⟨_, h9⟩ := hushort 9 (by omega)
  obtain ⟨_, h11⟩ := hspan 11 32 (by omega)
  obtain ⟨_, h44⟩ := hspan 44 b.toNat (by omega)
  obtain ⟨_, hcipher⟩ := hushort (44 + b.toNat) (by omega)
  obtain ⟨_, hcompression⟩ := hitem (44 + b.toNat + 2) (by omega)
  rw [TlsHelloFromServer.read, do_of_ok h0, do_of_ok h1, do_of_ok h3, do_of_ok h5, do_of_ok h6,
    do_of_ok h7, do_of_ok h8, do_of_ok h9]
  apply (do_of_ok h11).trans
  apply (do_of_ok hb).trans
  apply (do_of_ok h44).trans
  dsimp only
  rw [do_of_ok hcipher, do_of_ok hcompression]
  apply (do_of_ok hleft).trans
  rw [hstart]

theorem visitsAll_iff (h : ServerHelloBlock) (more : List UInt8) :
    h.VisitsAll more ↔ h.extensions = [] := by
  rw [VisitsAll, read_eq]
  constructor
  · intro hvisits
    by_contra hne
    obtain ⟨e, es, hcons⟩ := List.exists_cons_of_ne_nil hne
    have hblock : 0 < h.block.1.length := by
      rw [h.block_eq, hcons, List.flatMap_cons, List.length_append, e.length_encode]
      omega
    exact readExtensions_ne_ok _ hblock _ _ _ _ hvisits
  · intro hnil
    have hblock : h.block.1.length = 0 := by
      rw [h.block_eq, hnil]
      rfl
    rw [hblock, readExtensions_zero, hnil]
    rfl

/-- The block is read through, and the loop goes on with what is behind it. -/
theorem read_behind (h : ServerHelloBlock) (more : List UInt8) (hne : 0 < h.block.1.length)
    (hshort : ∀ e ∈ h.extensions, e.data.1.length < 2 ^ 15) :
    read (indexReaderForArray (h.frame ++ more)) =
      readExtensions (indexReaderForArray (h.frame ++ more)) h.block.1.length
        (h.start ++ h.block.1).length 0 (h.extensions.map HelloExtension.info) := by
  have hblock := readExtensions_block hne h.extensions hshort h.start (h.behind ++ more)
    h.block.1.length []
  rw [← h.block_eq, ← h.data_start, Int.sub_self, List.nil_append] at hblock
  rw [read_eq, hblock]

/-- `Read` visits an empty block only. `TryAnalyz` returns on no input, and repeats for ever the
types that it does nothing about. -/
theorem serverHello_readers (h : ServerHelloBlock) (more : List UInt8) (sizeServerHello : ℕ) :
    (h.VisitsAll more ↔ h.extensions = []) ∧
      ∀ serverHello payload,
        (∀ result, HandshakeHelloFromServerAnalyz.tryAnalyz sizeServerHello serverHello payload ≠
          .ok result) ∧
        (HandshakeHelloFromServerAnalyz.tryAnalyz sizeServerHello serverHello payload =
          .error .diverges ↔ HandshakeHelloFromServerAnalyz.Repeats serverHello payload) := by
  refine ⟨h.visitsAll_iff more, ?_⟩
  intro serverHello payload
  obtain ⟨⟨halt, hhalt⟩, hdiverges⟩ :=
    HandshakeHelloFromServerAnalyz.tryAnalyz_spec sizeServerHello serverHello payload
  refine ⟨?_, hdiverges⟩
  rw [hhalt]
  exact nofun

end ServerHelloBlock

theorem renegotiationInfo_fits : ([0] : List UInt8).length < 256 ^ 2 := by decide

/-- A `ServerHello` with the one extension of secure renegotiation. -/
def renegotiationHello : ServerHelloBlock where
  recordMajor := 3
  recordMinor := 3
  versionMajor := 3
  versionMinor := 3
  random := zeroRandom
  sessionId := noSession
  parameters := .server 0xC0 0x2F 0
  block := ⟨[0xFF, 1, 0, 1, 0], by decide⟩
  behind := []
  random_length := length_zeroRandom
  fits := by decide
  cipherMajor := 0xC0
  cipherMinor := 0x2F
  compressionMethod := 0
  isServer := rfl
  extensions := [⟨0xFF, 1, ⟨[0], renegotiationInfo_fits⟩⟩]
  block_eq := rfl

/-- `Read` does not end behind the block, and `TryAnalyz` loops for ever on a `ClientHello`. -/
theorem renegotiationHello_unread :
    ¬ renegotiationHello.VisitsAll [] ∧
      ∃ serverHello payload, ∀ sizeServerHello,
        HandshakeHelloFromServerAnalyz.tryAnalyz sizeServerHello serverHello payload =
          .error .diverges := by
  constructor
  · rw [ServerHelloBlock.visitsAll_iff]
    exact List.cons_ne_nil _ _
  · refine ⟨⟨⟨0x16, 0x0303, 5⟩, ⟨1, 0, 0, 1⟩⟩, [1, 0, 0, 1, 0], fun sizeServerHello => ?_⟩
    apply (HandshakeHelloFromServerAnalyz.tryAnalyz_spec sizeServerHello _ _).2.mpr
    exact ⟨by decide, by decide, by decide⟩

end DecodingProxy.Cryptography
