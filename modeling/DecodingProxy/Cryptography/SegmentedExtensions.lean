import DecodingProxy.Cryptography.HandshakePayloads
import DecodingProxy.Cryptography.HelloRecords

/-!
# The extensions of a hello in several segments

Both enumerators have a path of their own for data in several segments. It copies all that is
left of the data into a buffer of two bytes, which throws where more than two bytes are left.
-/

namespace DecodingProxy.Cryptography
open DecodingProxy.Runtime DecodingProxy.Vectors DecodingProxy.Runs

/-- `ReadOnlySequence<byte>`, by its segments from the start up to the end. -/
structure ByteSequence where
  segments : List (List UInt8)
  deriving DecidableEq

namespace ByteSequence

def bytes (data : ByteSequence) : List UInt8 := data.segments.flatten

def isSingleSegment (data : ByteSequence) : Bool := data.segments.length ≤ 1

def firstSpan (data : ByteSequence) : List UInt8 := data.segments.headD []

/-- `Slice(0)` is the sequence itself, also with an empty first segment. -/
def getItemAt (data : ByteSequence) (index : ℕ) : Except Fault UInt8 :=
  if data.isSingleSegment ∨ index = 0 then byteAt data.firstSpan index
  else do
    let slice ← sliceFrom data.bytes index
    byteAt slice 0

/-- `data.Slice(offset).CopyTo(destination)`. -/
def copyTo (data : ByteSequence) (offset : ℕ) (destination : List UInt8) :
    Except Fault (List UInt8) := do
  let slice ← sliceFrom data.bytes offset
  if destination.length < slice.length then .error (.raised .argumentOutOfRange)
  else .ok (slice ++ destination.drop slice.length)

variable {data : ByteSequence}

theorem firstSpan_single (h : data.isSingleSegment = true) : data.firstSpan = data.bytes := by
  obtain ⟨segments⟩ := data
  match segments with
  | [] => rfl
  | [segment] => exact (List.append_nil segment).symm
  | _ :: _ :: _ => cases h

theorem firstSpan_prefix (data : ByteSequence) : data.firstSpan <+: data.bytes := by
  obtain ⟨segments⟩ := data
  cases segments with
  | nil => exact List.nil_prefix
  | cons segment segments => exact List.prefix_append segment segments.flatten

theorem getItemAt_ok {index : ℕ} {b : UInt8} (h : byteAt data.bytes index = .ok b)
    (hfirst : 0 < index ∨ data.firstSpan ≠ []) : data.getItemAt index = .ok b := by
  unfold getItemAt
  split_ifs with hspan
  · by_cases hsingle : data.isSingleSegment = true
    · rwa [firstSpan_single hsingle]
    · obtain rfl := hspan.resolve_left hsingle
      obtain ⟨behind, hbehind⟩ := data.firstSpan_prefix
      have hne := hfirst.resolve_left (lt_irrefl 0)
      rw [byteAt_ok_iff, ← List.head?_eq_getElem?] at h ⊢
      rwa [← hbehind, List.head?_append_of_ne_nil _ hne] at h
  · have hb := byteAt_ok_iff.mp h
    have hlt := (List.getElem?_eq_some_iff.mp hb).1
    have hslice : sliceFrom data.bytes index = .ok (data.bytes.drop index) := if_neg (by omega)
    rw [do_of_ok hslice, byteAt_ok_iff, List.getElem?_drop, Nat.add_zero]
    exact hb

/-- More is left than fits. -/
theorem copyTo_throws {offset : ℕ} {destination : List UInt8}
    (h : offset + destination.length < data.bytes.length) :
    data.copyTo offset destination = .error (.raised .argumentOutOfRange) := by
  have hslice : sliceFrom data.bytes offset = .ok (data.bytes.drop offset) := if_neg (by omega)
  rw [copyTo, do_of_ok hslice]
  apply if_pos
  rw [List.length_drop]
  omega

end ByteSequence

structure SegmentedEnumerator where
  data : ByteSequence
  isError : Bool := false
  offset : ℕ := 0
  lengthLeft : ℕ := 0

namespace SegmentedEnumerator

/-- The enumerator of data in one segment. -/
def single (e : SegmentedEnumerator) : ExtensionsEnumerator :=
  ⟨e.data.firstSpan, e.isError, e.offset, e.lengthLeft⟩

def ofSingle (data : ByteSequence) (e : ExtensionsEnumerator) : SegmentedEnumerator :=
  ⟨data, e.isError, e.offset, e.lengthLeft⟩

/-- The fields of a `ClientHello` in several segments, from the session id at `index` on. -/
def clientFields (index : ℕ) (data : ByteSequence) (isError : Bool) :
    Except Fault SegmentedEnumerator := do
  let sessionIdLength ← data.getItemAt index
  let offset := index + 1 + sessionIdLength.toNat
  let span2b ← data.copyTo offset [0, 0]
  let lengthCipherSuiteData ← ushortAt span2b 0
  let offset := offset + 2 + lengthCipherSuiteData
  let lengthCompressionMethodsData ← data.getItemAt offset
  let offset := offset + 1 + lengthCompressionMethodsData.toNat
  let span2b ← data.copyTo offset span2b
  let lengthLeft ← ushortAt span2b 0
  .ok { data, isError, offset := offset + 2, lengthLeft }

/-- The constructor that takes the headers besides the data. -/
def fromClientRecord (clientHello : HandshakeRecord) (data : ByteSequence) :
    Except Fault SegmentedEnumerator :=
  if data.bytes.length ≠ clientHello.record.length then
    .error (.thrown .argument "Size must match")
  else if data.isSingleSegment then
    (ExtensionsEnumerator.clientFields 34 data.firstSpan).map (ofSingle data)
  else clientFields 34 data false

def fromClient (data : ByteSequence) : Except Fault SegmentedEnumerator :=
  if data.isSingleSegment then
    (ExtensionsEnumerator.fromClient data.firstSpan).map (ofSingle data)
  else
    let isError := decide (data.bytes.length < 46)
    if data.firstSpan.length < 5 then .error (.raised .notImplemented)
    else do
      let msgSize ← ushortAt data.firstSpan 3
      if data.bytes.length - 5 < msgSize then .ok { data, isError := true }
      else clientFields 43 data isError

/-- `TlsHandshakeReadOperation.CheckIntegrity` of a sequence. -/
def checkIntegrity (data : ByteSequence) : Except Fault Bool :=
  if data.isSingleSegment then ExtensionsEnumerator.checkIntegrity data.firstSpan
  else if data.bytes.length < 5 then .ok false
  else do
    let first ← data.getItemAt 0
    if first ≠ ConstantsForTls.handshakeRecord then
      .error (.thrown .format "First Byte Must be 0x16")
    else do
      let v1 ← data.getItemAt 3
      let v2 ← data.getItemAt 4
      .ok (5 + toUshort v1 v2 ≤ data.bytes.length)

def fromServer (data : ByteSequence) : Except Fault SegmentedEnumerator :=
  if data.isSingleSegment then
    (ExtensionsEnumerator.fromServer data.firstSpan).map (ofSingle data)
  else do
    if ← checkIntegrity data then do
      let sessionIDLength ← data.getItemAt 43
      let offset := 44 + sessionIDLength.toNat + 3
      let v1 ← data.getItemAt offset
      let v2 ← data.getItemAt (offset + 1)
      .ok { data, offset := offset + 2, lengthLeft := toUshort v1 v2 }
    else .error (.thrown .format "Tls Frame is Not Valid")

/-- `MoveNext`, with `Current`. -/
def moveNext (e : SegmentedEnumerator) :
    Except Fault (Option (TlsExtensionInfo × SegmentedEnumerator)) :=
  if e.data.isSingleSegment then
    e.single.moveNext.map (Option.map fun (current, next) => (current, ofSingle e.data next))
  else if e.isError = false ∧ 0 < e.lengthLeft then do
    let span2 ← e.data.copyTo e.offset [0, 0]
    let type ← ushortAt span2 0
    let span2 ← e.data.copyTo (e.offset + 2) span2
    let length ← ushortAt span2 0
    let data ← sliceAt e.data.bytes (e.offset + 4) length
    .ok (some (⟨type, length, data⟩, { e with
      offset := e.offset + 4 + length
      lengthLeft := (e.lengthLeft + 2 ^ 16 - (4 + length) % 2 ^ 16) % 2 ^ 16 }))
  else .ok none

theorem moveNext_lt {e e' : SegmentedEnumerator} {extension : TlsExtensionInfo}
    (h : e.moveNext = .ok (some (extension, e'))) :
    e'.data.bytes.length - e'.offset < e.data.bytes.length - e.offset := by
  unfold moveNext at h
  split_ifs at h with hsingle
  · obtain ⟨moved, hmoved, h⟩ := map_ok_iff.mp h
    cases moved with
    | none => cases h
    | some moved =>
      obtain ⟨current, next⟩ := moved
      cases h
      have hlt := ExtensionsEnumerator.moveNext_lt hmoved
      rw [(ExtensionsEnumerator.moveNext_inv hmoved).1] at hlt
      rwa [single, ByteSequence.firstSpan_single hsingle] at hlt
  · obtain ⟨_, _, h⟩ := do_ok_iff.mp h
    obtain ⟨_, _, h⟩ := do_ok_iff.mp h
    obtain ⟨_, _, h⟩ := do_ok_iff.mp h
    obtain ⟨length, _, h⟩ := do_ok_iff.mp h
    obtain ⟨data, hdata, h⟩ := do_ok_iff.mp h
    cases h
    unfold sliceAt at hdata
    split_ifs at hdata
    dsimp only
    omega
  · cases h

end SegmentedEnumerator

/-- What was yielded, and the fault that ended the enumeration, if one did. -/
structure Enumeration where
  yielded : List TlsExtensionInfo
  fault : Option Fault := none
  deriving DecidableEq, Repr

def Enumeration.cons (current : TlsExtensionInfo) (r : Enumeration) : Enumeration :=
  { r with yielded := current :: r.yielded }

/-- `while (enumerator.MoveNext())` -/
def SegmentedEnumerator.enumerate (e : SegmentedEnumerator) : Enumeration :=
  match _ : e.moveNext with
  | .error fault => ⟨[], some fault⟩
  | .ok none => ⟨[], none⟩
  | .ok (some (current, next)) => (enumerate next).cons current
termination_by e.data.bytes.length - e.offset
decreasing_by exact moveNext_lt ‹_›

/-! ### One segment -/

namespace ExtensionsEnumerator

def enumerate (e : ExtensionsEnumerator) : Enumeration :=
  match _ : e.moveNext with
  | .error fault => ⟨[], some fault⟩
  | .ok none => ⟨[], none⟩
  | .ok (some (current, next)) => (enumerate next).cons current
termination_by e.data.length - e.offset
decreasing_by exact moveNext_lt ‹_›

variable {e : ExtensionsEnumerator}

theorem enumerate_error {fault : Fault} (h : e.moveNext = .error fault) :
    e.enumerate = ⟨[], some fault⟩ := by
  rw [enumerate]
  split <;> simp_all

theorem enumerate_none (h : e.moveNext = .ok none) : e.enumerate = ⟨[], none⟩ := by
  rw [enumerate]
  split <;> simp_all

theorem enumerate_some {current : TlsExtensionInfo} {next : ExtensionsEnumerator}
    (h : e.moveNext = .ok (some (current, next))) :
    e.enumerate = next.enumerate.cons current := by
  rw [enumerate]
  split <;> simp_all

end ExtensionsEnumerator

namespace SegmentedEnumerator

theorem enumerate_ofSingle {data : ByteSequence} (hsingle : data.isSingleSegment = true)
    {e : ExtensionsEnumerator} (hdata : e.data = data.bytes) :
    (ofSingle data e).enumerate = e.enumerate := by
  induction hn : e.data.length - e.offset using Nat.strong_induction_on generalizing e with
  | _ n ih =>
    subst hn
    have hmove : (ofSingle data e).moveNext =
        e.moveNext.map (Option.map fun (current, next) => (current, ofSingle data next)) := by
      have he : (ofSingle data e).single = e := by
        rw [single, ofSingle, ByteSequence.firstSpan_single hsingle, ← hdata]
      have hsingle' : (ofSingle data e).data.isSingleSegment = true := hsingle
      rw [moveNext, if_pos hsingle', he]
      rfl
    rw [enumerate]
    cases hnext : e.moveNext with
    | error fault =>
      rw [hnext] at hmove
      rw [ExtensionsEnumerator.enumerate_error hnext]
      split <;> simp_all [Except.map]
    | ok moved =>
      rw [hnext] at hmove
      cases moved with
      | none =>
        rw [ExtensionsEnumerator.enumerate_none hnext]
        split <;> simp_all [Except.map]
      | some moved =>
        obtain ⟨current, next⟩ := moved
        have hrest := ih _ (ExtensionsEnumerator.moveNext_lt hnext)
          ((ExtensionsEnumerator.moveNext_inv hnext).1.trans hdata) rfl
        rw [ExtensionsEnumerator.enumerate_some hnext, ← hrest]
        split <;> simp_all [Except.map]

end SegmentedEnumerator

namespace ExtensionsEnumerator

end ExtensionsEnumerator

/-- What is yielded lies in the block, and all of a list of extensions is yielded. -/
structure Bounded (block : List UInt8) (r : Enumeration) : Prop where
  inside : ∃ es : List HelloExtension, r.yielded = es.map HelloExtension.info ∧
    es.flatMap HelloExtension.encode <+: block
  whole : ∀ es : List HelloExtension, block = es.flatMap HelloExtension.encode →
    r = ⟨es.map HelloExtension.info, none⟩

namespace SegmentedEnumerator

/-- Behind the session id more than two bytes are left. -/
theorem clientFields_throws {data : ByteSequence} {front tail : List UInt8}
    {sessionId compressionMethods : Prefixed 1} {cipherSuites block : Prefixed 2}
    (hdata : data.bytes = front ++ (sessionId.encode ++ (cipherSuites.encode ++
      (compressionMethods.encode ++ (block.encode ++ tail))))) {index : ℕ}
    (hindex : index = front.length) (hpos : 0 < index) (isError : Bool) :
    clientFields index data isError = .error (.raised .argumentOutOfRange) := by
  obtain ⟨b, hb, hsession⟩ := byteAt_prefixed hdata hindex
  have hcopy : data.copyTo (index + 1 + b.toNat) [0, 0] =
      .error (.raised .argumentOutOfRange) := by
    apply ByteSequence.copyTo_throws
    rw [hdata, hindex, hsession]
    simp only [List.length_append, Prefixed.length_encode, List.length_cons, List.length_nil]
    omega
  rw [clientFields, do_of_ok (ByteSequence.getItemAt_ok hb (.inl hpos))]
  dsimp only
  rw [hcopy]
  rfl

theorem checkIntegrity_eq {data : ByteSequence} (h : HelloRecord) {more : List UInt8}
    (hbytes : data.bytes = h.frame ++ more) (hspan : data.firstSpan ≠ []) :
    checkIntegrity data = .ok true := by
  by_cases hsingle : data.isSingleSegment = true
  · rw [checkIntegrity, if_pos hsingle, ByteSequence.firstSpan_single hsingle, hbytes]
    exact h.checkIntegrity_data more
  · have hfirst : data.getItemAt 0 = .ok ConstantsForTls.handshakeRecord := by
      refine ByteSequence.getItemAt_ok ?_ (.inr hspan)
      rw [hbytes]
      rfl
    have hsize := h.size_data more
    rw [← hbytes] at hsize
    obtain ⟨v1, v2, h3, h4, hn⟩ := ushortAt_ok_iff.mp hsize
    have hlength : data.bytes.length = 5 + h.payload.1.length + more.length := by
      rw [hbytes, List.length_append, h.length_frame]
    rw [checkIntegrity, if_neg hsingle, if_neg (by omega), do_of_ok hfirst,
      if_neg (not_not.mpr rfl),
      do_of_ok (ByteSequence.getItemAt_ok (byteAt_ok_iff.mpr h3) (.inr hspan)),
      do_of_ok (ByteSequence.getItemAt_ok (byteAt_ok_iff.mpr h4) (.inr hspan)), hn, hlength]
    exact congrArg Except.ok (decide_eq_true (Nat.le_add_right _ _))

/-- The enumerator of a `ServerHello` starts in front of the block, however the data are cut
behind the first byte. -/
theorem fromServer_eq {data : ByteSequence} {h : HelloRecord} {more : List UInt8}
    (hbytes : data.bytes = h.frame ++ more) (hspan : data.firstSpan ≠ [])
    {cipherMajor cipherMinor compressionMethod : UInt8}
    (hserver : h.parameters = .server cipherMajor cipherMinor compressionMethod) :
    fromServer data = .ok (ofSingle data (.atBlock h.start h.block.1 (h.behind ++ more))) := by
  by_cases hsingle : data.isSingleSegment = true
  · rw [fromServer, if_pos hsingle, ByteSequence.firstSpan_single hsingle, hbytes,
      HelloRecord.fromServer_data more hserver]
    rfl
  · obtain ⟨b, hb, hsession⟩ := h.sessionId_data more
    have hoffset : 44 + b.toNat + 3 = h.upToBlock.length := by
      rw [HelloRecord.upToBlock, hserver, ← List.append_assoc, List.length_append, ← hsession]
      rfl
    obtain ⟨hleft, hat⟩ := h.block_at more
    rw [← hbytes] at hb hleft hat
    obtain ⟨v1, v2, h1, h2, hn⟩ := ushortAt_ok_iff.mp hleft
    rw [← hoffset] at h1 h2 hat
    rw [fromServer, if_neg hsingle, do_of_ok (checkIntegrity_eq h hbytes hspan), if_pos rfl,
      do_of_ok (ByteSequence.getItemAt_ok hb (.inr hspan))]
    dsimp only
    rw [do_of_ok (ByteSequence.getItemAt_ok (byteAt_ok_iff.mpr h1) (.inr hspan)),
      do_of_ok (ByteSequence.getItemAt_ok (byteAt_ok_iff.mpr h2) (.inr hspan)), hn, ← hat]
    rfl

/-- In several segments the first extension cannot be copied. -/
theorem enumerate_segments {data : ByteSequence} (hsegments : ¬ data.isSingleSegment = true)
    {pre block tail : List UInt8} (hbytes : data.bytes = pre ++ (block ++ tail))
    (hblock : block ≠ []) (hlong : 2 < (block ++ tail).length) :
    (ofSingle data (.atBlock pre block tail)).enumerate =
      ⟨[], some (.raised .argumentOutOfRange)⟩ := by
  let e := ofSingle data (.atBlock pre block tail)
  have hcopy : e.data.copyTo e.offset [0, 0] = .error (.raised .argumentOutOfRange) := by
    apply ByteSequence.copyTo_throws
    change pre.length + 2 < data.bytes.length
    rw [hbytes, List.length_append]
    omega
  have hthrows : e.moveNext = .error (.raised .argumentOutOfRange) := by
    have hcut : ¬ e.data.isSingleSegment = true := hsegments
    have hleft : e.isError = false ∧ 0 < e.lengthLeft := ⟨rfl, List.length_pos_of_ne_nil hblock⟩
    rw [moveNext, if_neg hcut, if_pos hleft, hcopy]
    rfl
  change e.enumerate = _
  rw [enumerate]
  split <;> simp_all

end SegmentedEnumerator

/-- A `ClientHello` whose block may hold anything. -/
structure ClientHello extends HelloRecord where
  cipherSuites : Prefixed 2
  compressionMethods : Prefixed 1
  isClient : parameters = .client cipherSuites compressionMethods

/-- How a `ClientHello` comes to an enumerator: as the data from the record on, or as headers and
the data behind them. -/
inductive ClientSource (h : ClientHello)
  | frame (more : List UInt8) (data : ByteSequence) (frame_eq : data.bytes = h.frame ++ more)
  | body (clientHello : HandshakeRecord) (more : List UInt8) (data : ByteSequence)
    (body_eq : data.bytes = h.body ++ more)
    (size_eq : data.bytes.length = clientHello.record.length)

namespace ClientSource
variable {h : ClientHello}

def data : ClientSource h → ByteSequence
  | frame _ data _ => data
  | body _ _ data _ _ => data

/-- What follows the block. -/
def tail : ClientSource h → List UInt8
  | frame more _ _ => h.behind ++ more
  | body _ more _ _ _ => more

/-- The constructor, of these bytes in any segments. -/
def enumerator : ClientSource h → ByteSequence → Except Fault SegmentedEnumerator
  | frame _ _ _, data => SegmentedEnumerator.fromClient data
  | body clientHello _ _ _ _, data => SegmentedEnumerator.fromClientRecord clientHello data

def extensions (s : ClientSource h) (data : ByteSequence) : Except Fault Enumeration :=
  (s.enumerator data).map SegmentedEnumerator.enumerate

/-- The segments do not matter, and what is yielded lies in the block. -/
structure Faithful (s : ClientSource h) : Prop where
  independent : s.extensions s.data = s.extensions ⟨[s.data.bytes]⟩
  bounded : ∀ r, s.extensions s.data = .ok r → Bounded h.block.1 r

/-- The body behind the front of two version bytes and the random. -/
theorem body_split (h : ClientHello) (more : List UInt8) : h.body ++ more =
    (h.versionMajor :: h.versionMinor :: h.random) ++ (h.sessionId.encode ++
      (h.cipherSuites.encode ++ (h.compressionMethods.encode ++ (h.block.encode ++ more)))) := by
  rw [HelloRecord.body, h.isClient, HelloParameters.encode]
  simp only [List.cons_append, List.append_assoc]

theorem frame_split (h : ClientHello) (more : List UInt8) : h.frame ++ more =
    h.front ++ (h.sessionId.encode ++ (h.cipherSuites.encode ++ (h.compressionMethods.encode ++
      (h.block.encode ++ (h.behind ++ more))))) := by
  rw [h.data_eq, h.isClient, HelloParameters.encode, List.append_assoc]

theorem body_front_length (h : ClientHello) :
    34 = (h.versionMajor :: h.versionMinor :: h.random).length := by
  rw [List.length_cons, List.length_cons, h.random_length]
  rfl

/-- In one segment the enumerator starts in front of the block. -/
theorem enumerator_single (s : ClientSource h) {data : ByteSequence}
    (hsingle : data.isSingleSegment = true) (hbytes : data.bytes = s.data.bytes) :
    ∃ pre, s.enumerator data = .ok (.ofSingle data (.atBlock pre h.block.1 s.tail)) ∧
      pre ++ (h.block.1 ++ s.tail) = data.bytes := by
  have hspan := ByteSequence.firstSpan_single hsingle
  cases s with
  | frame more data' frame_eq =>
    rw [ClientSource.data, frame_eq] at hbytes
    refine ⟨h.start, ?_, ?_⟩
    · rw [enumerator, SegmentedEnumerator.fromClient, if_pos hsingle, hspan, hbytes,
        HelloRecord.fromClient_data more h.isClient]
      rfl
    · rw [hbytes, h.data_start]
      rfl
  | body clientHello more data' body_eq size_eq =>
    rw [ClientSource.data] at hbytes
    have hsize : ¬ data.bytes.length ≠ clientHello.record.length := by
      rw [hbytes, not_not]
      exact size_eq
    have hfields := ExtensionsEnumerator.clientFields_eq (body_split h more)
      (body_front_length h)
    refine ⟨h.versionMajor :: h.versionMinor :: h.random ++ (h.sessionId.encode ++
      (h.cipherSuites.encode ++ h.compressionMethods.encode)) ++ bigEndian 2 h.block.1.length,
      ?_, ?_⟩
    · rw [enumerator, SegmentedEnumerator.fromClientRecord, if_neg hsize, if_pos hsingle, hspan,
        hbytes, body_eq, hfields]
      rfl
    · have hblock : h.block.encode = bigEndian 2 h.block.1.length ++ h.block.1 := rfl
      rw [hbytes, body_eq, body_split, hblock]
      simp only [List.append_assoc]
      rfl

theorem enumerator_segments (s : ClientSource h) (hsegments : ¬ s.data.isSingleSegment = true) :
    ∃ fault, s.enumerator s.data = .error fault := by
  cases s with
  | frame more data frame_eq =>
    rw [ClientSource.data] at hsegments
    rw [ClientSource.data, enumerator, SegmentedEnumerator.fromClient, if_neg hsegments]
    by_cases hshort : data.firstSpan.length < 5
    · exact ⟨_, if_pos hshort⟩
    · have hsize : ushortAt data.firstSpan 3 = .ok h.payload.1.length := by
        have hall := h.size_data more
        rw [← frame_eq] at hall
        rw [← hall]
        exact ushortAt_front data.firstSpan_prefix (by omega)
      have hlong : ¬ data.bytes.length - 5 < h.payload.1.length := by
        rw [frame_eq, List.length_append, h.length_frame]
        omega
      have hdata := frame_eq.trans (frame_split h more)
      refine ⟨.raised .argumentOutOfRange, ?_⟩
      dsimp only
      rw [if_neg hshort, do_of_ok hsize, if_neg hlong]
      exact SegmentedEnumerator.clientFields_throws hdata h.front_length.symm (by decide) _
  | body clientHello more data body_eq size_eq =>
    rw [ClientSource.data] at hsegments
    have hsize : ¬ data.bytes.length ≠ clientHello.record.length := not_not.mpr size_eq
    have hdata := body_eq.trans (body_split h more)
    refine ⟨.raised .argumentOutOfRange, ?_⟩
    rw [ClientSource.data, enumerator, SegmentedEnumerator.fromClientRecord, if_neg hsize,
      if_neg hsegments]
    exact SegmentedEnumerator.clientFields_throws hdata (body_front_length h) (by decide) _

/-- In one segment the extensions are those of the walk over the block. -/
theorem extensions_single (s : ClientSource h) (data : ByteSequence)
    (hsingle : data.isSingleSegment = true) (hbytes : data.bytes = s.data.bytes) :
    ∃ pre, pre ++ (h.block.1 ++ s.tail) = s.data.bytes ∧ s.extensions data =
      .ok (ExtensionsEnumerator.atBlock pre h.block.1 s.tail).enumerate := by
  obtain ⟨pre, hstart, hpre⟩ := s.enumerator_single hsingle hbytes
  refine ⟨pre, hpre.trans hbytes, ?_⟩
  rw [extensions, hstart]
  exact congrArg Except.ok (SegmentedEnumerator.enumerate_ofSingle hsingle hpre)

theorem bytes_single (s : ClientSource h) :
    (⟨[s.data.bytes]⟩ : ByteSequence).bytes = s.data.bytes :=
  List.append_nil _

namespace Faithful

theorem isSingleSegment {s : ClientSource h} (hfaithful : s.Faithful) :
    s.data.isSingleSegment = true := by
  by_contra hsegments
  obtain ⟨fault, hfault⟩ := s.enumerator_segments hsegments
  obtain ⟨_, _, hsingle⟩ := s.extensions_single ⟨[s.data.bytes]⟩ rfl s.bytes_single
  have hindependent := hfaithful.independent
  rw [hsingle, ClientSource.extensions, hfault] at hindependent
  cases hindependent

end Faithful

end ClientSource

end DecodingProxy.Cryptography
