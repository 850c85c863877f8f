import DecodingProxy.Cryptography.HelloRecords
import Mathlib.Data.Nat.Bitwise

/-!
# Detection of the protocols of a hello

A search in the raw data of the protocol negotiation finds the name of a protocol also inside a
longer name, and across the bytes of a length. `HandleExtAlpn` walks over the list and takes
whole names only.
-/

namespace DecodingProxy.Cryptography
open DecodingProxy.Runtime DecodingProxy.Vectors DecodingProxy.Runs DecodingProxy.Searches

structure ProtocolNameList where
  names : List (Prefixed 1)
  fits : 2 + (Prefixed.encodeAll names).length < 256 ^ 2

namespace ProtocolNameList

def list (l : ProtocolNameList) : Prefixed 2 :=
  ⟨Prefixed.encodeAll l.names, (Nat.le_add_left _ 2).trans_lt l.fits⟩

def data (l : ProtocolNameList) : Prefixed 2 :=
  ⟨l.list.encode, by
    rw [Prefixed.length_encode]
    exact l.fits⟩

def contents (l : ProtocolNameList) : List (List UInt8) := l.names.map Subtype.val

end ProtocolNameList

def HelloExtension.alpn (l : ProtocolNameList) : HelloExtension := ⟨0, 16, l.data⟩

/-- A hello that has one extension for the protocol negotiation, in a record of its own or with
other messages behind it. -/
structure Hello where
  recordMajor : UInt8
  recordMinor : UInt8
  versionMajor : UInt8
  versionMinor : UInt8
  random : List UInt8
  sessionId : Prefixed 1
  parameters : HelloParameters
  before : List HelloExtension
  names : ProtocolNameList
  after : List HelloExtension
  behind : List UInt8
  random_length : random.length = sizeTlsRandom
  others : ∀ e ∈ before ++ after, e.type ≠ ETlsExtensions.applicationLayerProtocolNegotiation
  extensions_fit :
    ((before ++ HelloExtension.alpn names :: after).flatMap HelloExtension.encode).length < 256 ^ 2
  fits : 4 + 2 + sizeTlsRandom + sessionId.encode.length + parameters.encode.length + 2 +
    ((before ++ HelloExtension.alpn names :: after).flatMap HelloExtension.encode).length +
    behind.length < 256 ^ 2

namespace Hello

def extensions (h : Hello) : List HelloExtension := h.before ++ .alpn h.names :: h.after

def extensionList (h : Hello) : Prefixed 2 :=
  ⟨h.extensions.flatMap HelloExtension.encode, h.extensions_fit⟩

def body (h : Hello) : List UInt8 :=
  h.versionMajor :: h.versionMinor :: (h.random ++ (h.sessionId.encode ++
    (h.parameters.encode ++ h.extensionList.encode)))

/-- The handshake messages of the record. -/
def fragment (h : Hello) : List UInt8 :=
  h.parameters.messageType :: (bigEndian 3 h.body.length ++ (h.body ++ h.behind))

theorem fragment_length (h : Hello) : h.fragment.length = 4 + 2 + sizeTlsRandom +
    h.sessionId.encode.length + h.parameters.encode.length + 2 + h.extensionList.1.length +
    h.behind.length := by
  simp only [fragment, body, List.length_cons, List.length_append, length_bigEndian,
    h.random_length, Prefixed.length_encode]
  omega

def payload (h : Hello) : Prefixed 2 :=
  ⟨h.fragment, by
    rw [fragment_length]
    exact h.fits⟩

def frame (h : Hello) : List UInt8 :=
  ConstantsForTls.handshakeRecord :: h.recordMajor :: h.recordMinor :: h.payload.encode

def analyz (h : Hello) (reader : TlsHandshakeReadOperation) : Except Fault HandshakeAnalyzResult :=
  match h.parameters with
  | .client _ _ => reader.analyzAsClient
  | .server _ _ _ => reader.analyzAsServer

end Hello

/-- The flags of the three protocols say which of them are in the list. -/
structure FlagsExact (protocols : ℕ) (l : ProtocolNameList) : Prop where
  http3 : hasFlag protocols ENetworkProtocols.http3 = true ↔ ALPN.h3 ∈ l.contents
  http2 : hasFlag protocols ENetworkProtocols.http2 = true ↔ ALPN.h2 ∈ l.contents
  http11 : hasFlag protocols ENetworkProtocols.http11 = true ↔ ALPN.http11 ∈ l.contents

/-- A reader that holds the record finds the protocols of the list, and the searches find them
in the data of the extension, cut in any way. -/
structure DetectsExactly (h : Hello) : Prop where
  analyzed : ∀ reader : TlsHandshakeReadOperation, reader.getFrameAsMemory = h.frame →
    ∃ result, h.analyz reader = .ok result ∧ FlagsExact result.protocols h.names
  searched : ∀ segs : List (List UInt8), segs.flatten = h.names.data.1 →
    ∃ protocols, alpnProtocols segs ENetworkProtocols.none = .ok protocols ∧
      FlagsExact protocols h.names

/-- The version that a client may have. -/
def VersionKnown (h : Hello) : Prop :=
  match h.parameters with
  | .client _ _ => toUshort h.versionMajor h.versionMinor = ConstantsForTls.clientVersionTls11 ∨
      toUshort h.versionMajor h.versionMinor = ConstantsForTls.clientVersionTls12 ∨
      toUshort h.versionMajor h.versionMinor = ConstantsForTls.clientVersionTls13
  | .server _ _ _ => True

/-- Where the bytes of a protocol stand in the data, the protocol is in the list. -/
def NamesApart (l : ProtocolNameList) : Prop :=
  ∀ name ∈ [ALPN.h3, ALPN.h2, ALPN.http11], name <:+: l.data.1 → name ∈ l.contents

/-! ### The walk over the extensions -/

namespace ExtensionsEnumerator

/-- One turn, where there is another extension. -/
theorem analyz_next {e next : ExtensionsEnumerator} {extension : TlsExtensionInfo} {protocols : ℕ}
    (hnext : e.moveNext = .ok (some (extension, next))) :
    e.analyz protocols =
      if extension.type = ETlsExtensions.applicationLayerProtocolNegotiation then
        match alpnProtocols [extension.data] protocols with
        | .error fault => .error fault
        | .ok protocols => next.analyz protocols
      else next.analyz protocols := by
  rw [analyz]
  split
  · rename_i h
    rw [hnext] at h
    cases h
  · rename_i h
    rw [hnext] at h
    cases h
  · rename_i h
    rw [hnext] at h
    cases h
    rfl

theorem analyz_others {es more : List HelloExtension} {pre tail : List UInt8} {protocols : ℕ}
    (hothers : ∀ e ∈ es, e.type ≠ ETlsExtensions.applicationLayerProtocolNegotiation)
    (hfit : ((es ++ more).flatMap HelloExtension.encode).length < 2 ^ 16) :
    (startAt pre (es ++ more) tail).analyz protocols =
      (startAt (pre ++ es.flatMap HelloExtension.encode) more tail).analyz protocols := by
  induction es generalizing pre with
  | nil => simp
  | cons e es ih =>
    have hnext := moveNext_cons pre e (es ++ more) tail hfit
    have hother : e.info.type ≠ ETlsExtensions.applicationLayerProtocolNegotiation :=
      hothers e List.mem_cons_self
    have hrest : ((es ++ more).flatMap HelloExtension.encode).length < 2 ^ 16 := by
      simp only [List.cons_append, List.flatMap_cons, List.length_append] at hfit ⊢
      omega
    rw [List.cons_append, analyz_next hnext, if_neg hother,
      ih (fun x hx => hothers x (List.mem_cons_of_mem e hx)) hrest, List.flatMap_cons,
      List.append_assoc]

theorem analyz_nil {pre tail : List UInt8} {protocols : ℕ} :
    (startAt pre [] tail).analyz protocols = .ok protocols := by
  rw [analyz]
  split
  · rename_i h
    cases h
  · rfl
  · rename_i h
    cases h

theorem analyz_alpn {l : ProtocolNameList} {more : List HelloExtension} {pre tail : List UInt8}
    {protocols found : ℕ}
    (hfit : ((HelloExtension.alpn l :: more).flatMap HelloExtension.encode).length < 2 ^ 16)
    (hfound : alpnProtocols [l.data.1] protocols = .ok found) :
    (startAt pre (.alpn l :: more) tail).analyz protocols =
      (startAt (pre ++ (HelloExtension.alpn l).encode) more tail).analyz found := by
  have hnext := moveNext_cons pre (.alpn l) more tail hfit
  have htype : (HelloExtension.alpn l).info.type =
      ETlsExtensions.applicationLayerProtocolNegotiation := rfl
  have hdata : (HelloExtension.alpn l).info.data = l.data.1 := rfl
  rw [analyz_next hnext, if_pos htype]
  simp only [hdata, hfound]

end ExtensionsEnumerator

/-! ### The searches -/

theorem firstOnce_alpn : ∀ name ∈ [ALPN.h3, ALPN.h2, ALPN.http11], FirstOnce name := by
  intro name hname
  simp only [List.mem_cons, List.not_mem_nil, or_false] at hname
  rcases hname with rfl | rfl | rfl
  · exact firstOnce_cons (by decide)
  · exact firstOnce_cons (by decide)
  · exact firstOnce_cons (by decide)

theorem containSequence_alpn (name : List UInt8)
    (hname : name ∈ [ALPN.h3, ALPN.h2, ALPN.http11]) (segs : List (List UInt8)) :
    containSequence name segs 0 = .ok (decide (name <:+: segs.flatten)) := by
  have hne : name ≠ [] := by
    rintro rfl
    simp [ALPN.h3, ALPN.h2, ALPN.http11] at hname
  have hcontain := containSequence_eq (firstOnce_alpn name hname) segs (matched_nil hne)
    (by simpa using hne)
  rwa [List.nil_append] at hcontain

theorem hasFlag_found (h3 h2 http11 : Bool) :
    let protocols := if h3 then ENetworkProtocols.none ||| ENetworkProtocols.http3
      else ENetworkProtocols.none
    let protocols := if h2 then protocols ||| ENetworkProtocols.http2 else protocols
    let protocols := if http11 then protocols ||| ENetworkProtocols.http11 else protocols
    hasFlag protocols ENetworkProtocols.http3 = h3 ∧
      hasFlag protocols ENetworkProtocols.http2 = h2 ∧
      hasFlag protocols ENetworkProtocols.http11 = http11 := by
  cases h3 <;> cases h2 <;> cases http11 <;> decide

theorem alpnProtocols_flags (segs : List (List UInt8)) :
    ∃ protocols, alpnProtocols segs ENetworkProtocols.none = .ok protocols ∧
      (hasFlag protocols ENetworkProtocols.http3 = true ↔ ALPN.h3 <:+: segs.flatten) ∧
      (hasFlag protocols ENetworkProtocols.http2 = true ↔ ALPN.h2 <:+: segs.flatten) ∧
      (hasFlag protocols ENetworkProtocols.http11 = true ↔ ALPN.http11 <:+: segs.flatten) := by
  have h3 := containSequence_alpn ALPN.h3 (by simp) segs
  have h2 := containSequence_alpn ALPN.h2 (by simp) segs
  have h11 := containSequence_alpn ALPN.http11 (by simp) segs
  obtain ⟨hflag3, hflag2, hflag11⟩ := hasFlag_found (decide (ALPN.h3 <:+: segs.flatten))
    (decide (ALPN.h2 <:+: segs.flatten)) (decide (ALPN.http11 <:+: segs.flatten))
  unfold alpnProtocols
  rw [do_of_ok h3, do_of_ok h2, do_of_ok h11]
  refine ⟨_, rfl, ?_, ?_, ?_⟩
  · rw [hflag3, decide_eq_true_iff]
  · rw [hflag2, decide_eq_true_iff]
  · rw [hflag11, decide_eq_true_iff]

/-! ### The frame of a hello -/

namespace Hello

variable {h : Hello}

/-- The record of the hello, with its extensions in the block. -/
def toRecord (h : Hello) : HelloRecord where
  recordMajor := h.recordMajor
  recordMinor := h.recordMinor
  versionMajor := h.versionMajor
  versionMinor := h.versionMinor
  random := h.random
  sessionId := h.sessionId
  parameters := h.parameters
  block := h.extensionList
  behind := h.behind
  random_length := h.random_length
  fits := h.fits

theorem frame_toRecord (h : Hello) : h.frame = h.toRecord.frame ++ [] :=
  (List.append_nil _).symm

/-- The walk over the extensions starts in front of them. -/
theorem atBlock_toRecord (h : Hello) :
    .atBlock h.toRecord.start h.toRecord.block.1 (h.toRecord.behind ++ []) =
      ExtensionsEnumerator.startAt h.toRecord.start h.extensions h.behind := by
  rw [List.append_nil]
  rfl

theorem size_frame (h : Hello) : ushortAt h.frame 3 = .ok h.payload.1.length := by
  rw [frame_toRecord]
  exact h.toRecord.size_data []

theorem fromClient_frame {cipherSuites : Prefixed 2} {compressionMethods : Prefixed 1}
    (hclient : h.parameters = .client cipherSuites compressionMethods) :
    ExtensionsEnumerator.fromClient h.frame =
      .ok (.startAt h.toRecord.start h.extensions h.behind) := by
  rw [frame_toRecord, ← atBlock_toRecord]
  exact HelloRecord.fromClient_data (h := h.toRecord) [] hclient

theorem fromServer_frame {cipherMajor cipherMinor compressionMethod : UInt8}
    (hserver : h.parameters = .server cipherMajor cipherMinor compressionMethod) :
    ExtensionsEnumerator.fromServer h.frame =
      .ok (.startAt h.toRecord.start h.extensions h.behind) := by
  rw [frame_toRecord, ← atBlock_toRecord]
  exact HelloRecord.fromServer_data (h := h.toRecord) [] hserver

/-- The walk searches the data of the protocol negotiation, and nothing else. -/
theorem analyz_extensions (h : Hello) (pre : List UInt8) {found : ℕ}
    (hfound : alpnProtocols [h.names.data.1] ENetworkProtocols.none = .ok found) :
    (ExtensionsEnumerator.startAt pre h.extensions h.behind).analyz ENetworkProtocols.none =
      .ok found := by
  have hfit : (h.extensions.flatMap HelloExtension.encode).length < 2 ^ 16 := h.extensions_fit
  unfold extensions at hfit ⊢
  have hmiddle : ((HelloExtension.alpn h.names :: h.after).flatMap HelloExtension.encode).length <
      2 ^ 16 := by
    rw [List.flatMap_append, List.length_append] at hfit
    omega
  have hlast : (h.after.flatMap HelloExtension.encode).length < 2 ^ 16 := by
    rw [List.flatMap_cons, List.length_append] at hmiddle
    omega
  have hbefore := fun e he => h.others e (List.mem_append_left _ he)
  have hafter := fun e he => h.others e (List.mem_append_right _ he)
  rw [ExtensionsEnumerator.analyz_others hbefore hfit,
    ExtensionsEnumerator.analyz_alpn hmiddle hfound]
  have hnone : ((h.after ++ []).flatMap HelloExtension.encode).length < 2 ^ 16 := by
    rwa [List.append_nil]
  rw [← List.append_nil h.after, ExtensionsEnumerator.analyz_others hafter hnone,
    ExtensionsEnumerator.analyz_nil]

theorem version_frame (h : Hello) :
    ushortAt h.frame 9 = .ok (toUshort h.versionMajor h.versionMinor) := by
  rw [frame_toRecord]
  exact h.toRecord.version_data []

theorem analyz_reader (h : Hello) {reader : TlsHandshakeReadOperation}
    (hreader : reader.getFrameAsMemory = h.frame) {found : ℕ}
    (hfound : alpnProtocols [h.names.data.1] ENetworkProtocols.none = .ok found) :
    (VersionKnown h → ∃ result, h.analyz reader = .ok result ∧ result.protocols = found) ∧
      (¬ VersionKnown h → ∃ fault, h.analyz reader = .error fault) := by
  unfold VersionKnown Hello.analyz
  cases hparameters : h.parameters with
  | client cipherSuites compressionMethods =>
    have hfrom := fromClient_frame hparameters
    have hwalk := h.analyz_extensions h.toRecord.start hfound
    dsimp only
    unfold TlsHandshakeReadOperation.analyzAsClient
    rw [hreader, do_of_ok h.size_frame, do_of_ok h.version_frame]
    have hrest : ∀ protocolsSsl : SslProtocols, (do
        let tlsExtensions ← ExtensionsEnumerator.fromClient h.frame
        let protocols ← tlsExtensions.analyz ENetworkProtocols.none
        .ok ({ protocols, protocolsSsl } : HandshakeAnalyzResult)) =
          (.ok { protocols := found, protocolsSsl } : Except Fault HandshakeAnalyzResult) :=
      fun _ => by rw [do_of_ok hfrom, do_of_ok hwalk]
    split_ifs with h13 h12 h11
    · exact ⟨fun _ => ⟨_, hrest .tls13, rfl⟩, fun hnot => absurd (.inr (.inr h13)) hnot⟩
    · exact ⟨fun _ => ⟨_, hrest .tls12, rfl⟩, fun hnot => absurd (.inr (.inl h12)) hnot⟩
    · exact ⟨fun _ => ⟨_, hrest .tls11, rfl⟩, fun hnot => absurd (.inl h11) hnot⟩
    · refine ⟨fun hknown => ?_, fun _ => ⟨_, rfl⟩⟩
      rcases hknown with hv | hv | hv
      · exact absurd hv h11
      · exact absurd hv h12
      · exact absurd hv h13
  | server cipherMajor cipherMinor compressionMethod =>
    have hfrom := fromServer_frame hparameters
    have hwalk := h.analyz_extensions h.toRecord.start hfound
    dsimp only
    unfold TlsHandshakeReadOperation.analyzAsServer
    rw [hreader, do_of_ok h.size_frame, do_of_ok hfrom, do_of_ok hwalk]
    exact ⟨fun _ => ⟨_, rfl, rfl⟩, fun hnot => absurd trivial hnot⟩

end Hello

/-! ### Names in the data -/

theorem ProtocolNameList.infix_of_mem {l : ProtocolNameList} {name : List UInt8}
    (hname : name ∈ l.contents) : name <:+: l.data.1 := by
  obtain ⟨v, hv, rfl⟩ := List.mem_map.mp hname
  obtain ⟨before, after, hsplit⟩ := List.append_of_mem hv
  have hdata : l.data.1 = bigEndian 2 l.list.1.length ++ Prefixed.encodeAll l.names := rfl
  rw [hdata, hsplit, Prefixed.encodeAll, List.flatMap_append, List.flatMap_cons, Prefixed.encode]
  refine ⟨bigEndian 2 l.list.1.length ++ (before.flatMap Prefixed.encode ++
    bigEndian 1 v.1.length), after.flatMap Prefixed.encode, ?_⟩
  simp

theorem namesApart_iff {l : ProtocolNameList} : NamesApart l ↔
    (ALPN.h3 <:+: l.data.1 ↔ ALPN.h3 ∈ l.contents) ∧
      (ALPN.h2 <:+: l.data.1 ↔ ALPN.h2 ∈ l.contents) ∧
      (ALPN.http11 <:+: l.data.1 ↔ ALPN.http11 ∈ l.contents) := by
  unfold NamesApart
  simp only [List.forall_mem_cons, List.not_mem_nil, false_implies, implies_true, and_true]
  constructor
  · rintro ⟨h3, h2, h11⟩
    exact ⟨⟨h3, ProtocolNameList.infix_of_mem⟩, ⟨h2, ProtocolNameList.infix_of_mem⟩,
      ⟨h11, ProtocolNameList.infix_of_mem⟩⟩
  · rintro ⟨h3, h2, h11⟩
    exact ⟨h3.mp, h2.mp, h11.mp⟩

theorem flagsExact_iff {segs : List (List UInt8)} {l : ProtocolNameList}
    (hsegs : segs.flatten = l.data.1) : ∃ protocols,
      alpnProtocols segs ENetworkProtocols.none = .ok protocols ∧
        (FlagsExact protocols l ↔ NamesApart l) := by
  obtain ⟨protocols, hok, h3, h2, h11⟩ := alpnProtocols_flags segs
  rw [hsegs] at h3 h2 h11
  refine ⟨protocols, hok, ?_⟩
  rw [namesApart_iff]
  constructor
  · intro h
    exact ⟨h3.symm.trans h.http3, h2.symm.trans h.http2, h11.symm.trans h.http11⟩
  · rintro ⟨hn3, hn2, hn11⟩
    exact ⟨h3.trans hn3, h2.trans hn2, h11.trans hn11⟩

/-- The flags are right where the version of a client is known and the bytes of no protocol stand
in the data unless it is in the list. -/
theorem detectsExactly_iff (h : Hello) :
    DetectsExactly h ↔ VersionKnown h ∧ NamesApart h.names := by
  obtain ⟨found, hfound, hexact⟩ := @flagsExact_iff [h.names.data.1] h.names (by simp)
  constructor
  · intro hdetects
    obtain ⟨result, hresult, hflags⟩ := hdetects.analyzed
      { buffer := h.frame, offset := h.frame.length } (List.take_length ..)
    obtain ⟨hknown, hunknown⟩ := @Hello.analyz_reader h
      { buffer := h.frame, offset := h.frame.length } (List.take_length ..) found hfound
    have hversion : VersionKnown h := by
      by_contra hnot
      obtain ⟨fault, hfault⟩ := hunknown hnot
      rw [hresult] at hfault
      cases hfault
    obtain ⟨other, hother, hprotocols⟩ := hknown hversion
    cases hresult.symm.trans hother
    exact ⟨hversion, hexact.mp (hprotocols ▸ hflags)⟩
  · rintro ⟨hversion, hapart⟩
    refine ⟨fun reader hreader => ?_, fun segs hsegs => ?_⟩
    · obtain ⟨result, hresult, hprotocols⟩ := (h.analyz_reader hreader hfound).1 hversion
      exact ⟨result, hresult, hprotocols ▸ hexact.mpr hapart⟩
    · obtain ⟨protocols, hok, hiff⟩ := flagsExact_iff hsegs
      exact ⟨protocols, hok, hiff.mpr hapart⟩

/-! ### The walk over the list -/

theorem hasFlag_shiftLeft (flags i : ℕ) : hasFlag flags (1 <<< i) = flags.testBit i := by
  rw [hasFlag, Nat.one_shiftLeft, Nat.and_two_pow]
  cases flags.testBit i with
  | true => simp
  | false => simp [(Nat.two_pow_pos i).ne]

theorem alpnItems_cons {v : Prefixed 1} {vs : List (Prefixed 1)} {alpn : ℕ} :
    TlsPlayerWithProxy.alpnItems (Prefixed.encodeAll (v :: vs)) alpn =
      TlsPlayerWithProxy.alpnItems (Prefixed.encodeAll vs) (alpn ||| getAlpnProtocol v.1) := by
  obtain ⟨b, hbytes⟩ : ∃ b, bigEndian 1 v.1.length = [b] := ⟨_, rfl⟩
  have hnumber := v.number_length
  rw [hbytes] at hnumber
  have hb : b.toNat = v.1.length := by simpa [number] using hnumber
  have hconsume : BufferReader.consume b.toNat (v.1 ++ Prefixed.encodeAll vs) =
      .ok (v.1, Prefixed.encodeAll vs) := by
    rw [hb]
    exact BufferReader.consume_append _ _
  rw [Prefixed.encodeAll_cons, hbytes, List.singleton_append, TlsPlayerWithProxy.alpnItems]
  split
  · rename_i h
    rw [hconsume] at h
    cases h
  · rename_i h
    rw [hconsume] at h
    cases h
    rfl

/-- What the flags say after the walk over `vs`: what they said before, or what a name says. -/
theorem alpnItems_flags (vs : List (Prefixed 1)) (alpn : ℕ) : ∃ result,
    TlsPlayerWithProxy.alpnItems (Prefixed.encodeAll vs) alpn = .ok result ∧
      ∀ i, result.testBit i = true ↔
        alpn.testBit i = true ∨ ∃ v ∈ vs, (getAlpnProtocol v.1).testBit i = true := by
  induction vs generalizing alpn with
  | nil =>
    refine ⟨alpn, ?_, by simp⟩
    rw [Prefixed.encodeAll_nil, TlsPlayerWithProxy.alpnItems]
  | cons v vs ih =>
    obtain ⟨result, hok, hflags⟩ := ih (alpn ||| getAlpnProtocol v.1)
    refine ⟨result, alpnItems_cons.trans hok, fun i => ?_⟩
    rw [hflags, Nat.testBit_or, Bool.or_eq_true, or_assoc, List.exists_mem_cons_iff]

theorem getAlpnProtocol_testBit (data : List UInt8) :
    ((getAlpnProtocol data).testBit 1 = true ↔ data = ALPN.h3) ∧
      ((getAlpnProtocol data).testBit 2 = true ↔ data = ALPN.h2) ∧
      ((getAlpnProtocol data).testBit 3 = true ↔ data = ALPN.http11) := by
  unfold getAlpnProtocol
  split_ifs with h3 h2 h11
  · subst h3
    decide
  · subst h2
    decide
  · subst h11
    decide
  · simp [h3, h2, h11, EAlpn.unknown]

/-- `HandleExtAlpn` finds the protocols of the list. -/
theorem handleExtAlpn_exact (l : ProtocolNameList) : ∃ alpn,
    TlsPlayerWithProxy.handleExtAlpn l.data.1 EAlpn.unknown = .ok alpn ∧
      (hasFlag alpn EAlpn.h3 = true ↔ ALPN.h3 ∈ l.contents) ∧
      (hasFlag alpn EAlpn.h2 = true ↔ ALPN.h2 ∈ l.contents) ∧
      (hasFlag alpn EAlpn.http11 = true ↔ ALPN.http11 ∈ l.contents) := by
  obtain ⟨alpn, hok, hflags⟩ := alpnItems_flags l.names EAlpn.unknown
  have hstruct : BufferReader.toStructConsume sizeExtDataAlpnProtocolList l.data.1 =
      .ok (bigEndian 2 l.list.1.length, l.list.1) :=
    BufferReader.toStructConsume_append (length_bigEndian _ _) _
  have hconsume : BufferReader.consume (number (bigEndian 2 l.list.1.length)) l.list.1 =
      .ok (l.list.1, []) := by
    rw [l.list.number_length]
    simpa using BufferReader.consume_append l.list.1 []
  have hmem : ∀ i name, (∀ data, (getAlpnProtocol data).testBit i = true ↔ data = name) →
      (hasFlag alpn (1 <<< i) = true ↔ name ∈ l.contents) := by
    intro i name hname
    rw [hasFlag_shiftLeft, hflags]
    simp [hname, EAlpn.unknown, ProtocolNameList.contents, eq_comm]
  refine ⟨alpn, ?_, hmem 1 _ fun data => (getAlpnProtocol_testBit data).1,
    hmem 2 _ fun data => (getAlpnProtocol_testBit data).2.1,
    hmem 3 _ fun data => (getAlpnProtocol_testBit data).2.2⟩
  unfold TlsPlayerWithProxy.handleExtAlpn
  rw [do_of_ok hstruct]
  dsimp only
  rw [do_of_ok hconsume]
  exact hok

theorem alpnAlone_lt {names : ProtocolNameList} (hfits : names.data.1.length < 256) :
    (([] ++ HelloExtension.alpn names :: []).flatMap HelloExtension.encode).length < 512 := by
  simp [HelloExtension.encode, HelloExtension.alpn]
  omega

theorem plain_fits {k : ℕ} {block : List UInt8} (hk : k ≤ 64) (hblock : block.length < 512) :
    k + block.length + ([] : List UInt8).length < 256 ^ 2 := by
  rw [List.length_nil]
  omega

/-- A client that offers the protocols of `names` and nothing else. -/
def plainHello (names : ProtocolNameList) (hfits : names.data.1.length < 256) : Hello where
  recordMajor := 3
  recordMinor := 1
  versionMajor := 3
  versionMinor := 3
  random := List.replicate sizeTlsRandom 0
  sessionId := ⟨[], by decide⟩
  parameters := .client ⟨[0x13, 0x01], by decide⟩ ⟨[0], by decide⟩
  before := []
  names
  after := []
  behind := []
  random_length := List.length_replicate
  others := by simp
  extensions_fit := (alpnAlone_lt hfits).trans (by simp)
  fits := plain_fits (by simp [HelloParameters.encode, sizeTlsRandom]) (alpnAlone_lt hfits)

/-- The name `h2c` contains the name `h2`. -/
theorem not_detectsExactly_h2c :
    ¬ DetectsExactly (plainHello ⟨[⟨[0x68, 0x32, 0x63], by decide⟩], by decide⟩ (by decide)) := by
  rw [detectsExactly_iff]
  rintro ⟨-, hapart⟩
  exact absurd (hapart ALPN.h2 (by decide) (by decide)) (by decide)

end DecodingProxy.Cryptography
