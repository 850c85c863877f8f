import DecodingProxy.Cryptography.TlsHandshakeReadOperation
import DecodingProxy.Cryptography.TlsPlayerWithProxy
import DecodingProxy.Lib.Searches

/-!
# The extensions of a hello

`AnalyzAsClient` and `AnalyzAsServer` walk over the extensions of the hello that a
`TlsHandshakeReadOperation` has collected. The data of the protocol negotiation are searched for
the names of the protocols, without regard to the list that they are.
-/

namespace DecodingProxy.Cryptography
open DecodingProxy.Runtime DecodingProxy.Vectors DecodingProxy.Runs

/-- `span[index]`. -/
def byteAt (span : List UInt8) (index : ℕ) : Except Fault UInt8 :=
  match span[index]? with
  | none => .error (.raised .indexOutOfRange)
  | some b => .ok b

/-- `BufferReader.ToUshort(span[index], span[index + 1])`. -/
def ushortAt (span : List UInt8) (index : ℕ) : Except Fault ℕ := do
  let v1 ← byteAt span index
  let v2 ← byteAt span (index + 1)
  .ok (toUshort v1 v2)

theorem byteAt_ok_iff {span : List UInt8} {index : ℕ} {b : UInt8} :
    byteAt span index = .ok b ↔ span[index]? = some b := by
  unfold byteAt
  cases span[index]? <;> simp

theorem ushortAt_ok_iff {span : List UInt8} {index n : ℕ} :
    ushortAt span index = .ok n ↔ ∃ v1 v2, span[index]? = some v1 ∧
      span[index + 1]? = some v2 ∧ toUshort v1 v2 = n := by
  simp only [ushortAt, do_ok_iff, byteAt_ok_iff, Except.ok.injEq]
  constructor
  · rintro ⟨v1, h1, v2, h2, hn⟩
    exact ⟨v1, v2, h1, h2, hn⟩
  · rintro ⟨v1, v2, h1, h2, hn⟩
    exact ⟨v1, h1, v2, h2, hn⟩

theorem ushortAt_lt {span : List UInt8} {index n : ℕ} (h : ushortAt span index = .ok n) :
    index + 1 < span.length := by
  obtain ⟨_, _, -, h2, -⟩ := ushortAt_ok_iff.mp h
  exact (List.getElem?_eq_some_iff.mp h2).1

/-- `data.Slice(offset, length)`. -/
def sliceAt (data : List UInt8) (offset length : ℕ) : Except Fault (List UInt8) :=
  if data.length < offset + length then .error (.raised .argumentOutOfRange)
  else .ok ((data.drop offset).take length)

/-- One segment of `ContainSequence`: how far the pattern is matched behind it, or nothing when
the pattern was found. -/
def containSegment (ethalon : List UInt8) : List UInt8 → ℕ → Except Fault (Option ℕ)
  | [], index => .ok (some index)
  | b :: span, index =>
    match ethalon[index]?, ethalon[0]? with
    | some e, some first =>
      if b = e then
        if index + 1 = ethalon.length then .ok none else containSegment ethalon span (index + 1)
      else containSegment ethalon span (if b = first then 1 else 0)
    | _, _ => .error (.raised .indexOutOfRange)

def containSequence (ethalon : List UInt8) : List (List UInt8) → ℕ → Except Fault Bool
  | [], _ => .ok false
  | seg :: seq, index => do
    match ← containSegment ethalon seg index with
    | none => .ok true
    | some index => containSequence ethalon seq index

section
open Searches

variable {p text : List UInt8} {n : ℕ}

theorem containSegment_spec (hp : FirstOnce p) (span : List UInt8) (h : Matched p text n)
    (hnot : ¬ p <:+: text) :
    (containSegment p span n = .ok none ∧ p <:+: text ++ span) ∨
      ∃ m, containSegment p span n = .ok (some m) ∧ Matched p (text ++ span) m ∧
        ¬ p <:+: text ++ span := by
  induction span generalizing text n with
  | nil => exact .inr ⟨n, rfl, by simpa using h, by simpa using hnot⟩
  | cons b span ih =>
    have hsplit : text ++ b :: span = text ++ [b] ++ span := by
      rw [List.append_assoc, List.singleton_append]
    obtain ⟨e, he⟩ : ∃ e, p[n]? = some e := ⟨_, List.getElem?_eq_getElem h.1⟩
    obtain ⟨first, hfirst⟩ : ∃ first, p[0]? = some first :=
      ⟨_, List.getElem?_eq_getElem (Nat.zero_lt_of_lt h.1)⟩
    have hsuffix := h.suffix_iff (b := b)
    rw [hsplit]
    unfold containSegment
    rw [he, hfirst]
    dsimp only
    split_ifs with hbe hend hbfirst
    · refine .inl ⟨rfl, ?_⟩
      have hwhole : p <:+ text ++ [b] := hsuffix.mpr ⟨hend, hbe ▸ he⟩
      exact hwhole.isInfix.trans (List.prefix_append _ _).isInfix
    · have hlt : n + 1 < p.length := by
        have hlt := h.1
        omega
      apply ih (h.goOn hp (hbe ▸ he) hlt)
      rw [List.infix_concat_iff, hsuffix]
      rintro (⟨hlength, -⟩ | hmem)
      · exact hend hlength
      · exact hnot hmem
    all_goals
      have hne : p[n]? ≠ some b := by
        rw [he]
        rintro ⟨⟩
        exact hbe rfl
      have hrestart := h.restart hne
      rw [hfirst] at hrestart
      have hnot' : ¬ p <:+: text ++ [b] := by
        rw [List.infix_concat_iff, hsuffix]
        rintro (⟨-, hb⟩ | hmem)
        · exact hne hb
        · exact hnot hmem
    · rw [if_pos (by rw [hbfirst])] at hrestart
      exact ih hrestart hnot'
    · rw [if_neg (fun heq => hbfirst (Option.some.inj heq).symm)] at hrestart
      exact ih hrestart hnot'

/-- The cuts do not matter to the search. -/
theorem containSequence_eq (hp : FirstOnce p) (segs : List (List UInt8)) (h : Matched p text n)
    (hnot : ¬ p <:+: text) :
    containSequence p segs n = .ok (decide (p <:+: text ++ segs.flatten)) := by
  induction segs generalizing text n with
  | nil => simpa [containSequence] using hnot
  | cons seg segs ih =>
    rw [List.flatten_cons, ← List.append_assoc]
    unfold containSequence
    rcases containSegment_spec hp seg h hnot with ⟨hfound, hinfix⟩ | ⟨m, hgo, hm, hnot'⟩
    · rw [do_of_ok hfound]
      have hall := hinfix.trans (List.prefix_append (text ++ seg) segs.flatten).isInfix
      exact congrArg Except.ok (decide_eq_true hall).symm
    · rw [do_of_ok hgo]
      exact ih hm hnot'

end

namespace ENetworkProtocols

def none : ℕ := 0
def http11 : ℕ := 1 <<< 2
def http2 : ℕ := 1 <<< 3
def http3 : ℕ := 1 <<< 4

end ENetworkProtocols

inductive SslProtocols
  | none
  | tls11
  | tls12
  | tls13
  deriving DecidableEq, Repr

namespace ConstantsForTls

def clientVersionTls11 : ℕ := 0x0302
def clientVersionTls12 : ℕ := 0x0303
def clientVersionTls13 : ℕ := 0x0304
def handshakeRecord : UInt8 := 0x16

end ConstantsForTls

structure HandshakeAnalyzResult where
  protocols : ℕ := ENetworkProtocols.none
  protocolsSsl : SslProtocols := .none
  deriving DecidableEq, Repr

/-- The searches in the data of the protocol negotiation. -/
def alpnProtocols (data : List (List UInt8)) (protocols : ℕ) : Except Fault ℕ := do
  let h3 ← containSequence ALPN.h3 data 0
  let protocols := if h3 then protocols ||| ENetworkProtocols.http3 else protocols
  let h2 ← containSequence ALPN.h2 data 0
  let protocols := if h2 then protocols ||| ENetworkProtocols.http2 else protocols
  let http11 ← containSequence ALPN.http11 data 0
  .ok (if http11 then protocols ||| ENetworkProtocols.http11 else protocols)

structure TlsExtensionInfo where
  type : ℕ
  length : ℕ
  data : List UInt8
  deriving DecidableEq, Repr

/-- Both enumerators of extensions, over data in one segment. -/
structure ExtensionsEnumerator where
  data : List UInt8
  isError : Bool := false
  offset : ℕ := 0
  lengthLeft : ℕ := 0
  deriving DecidableEq, Repr

namespace ExtensionsEnumerator

/-- `new TlsHelloFromClientExtensionsEnumerator(data)`. -/
def fromClient (data : List UInt8) : Except Fault ExtensionsEnumerator :=
  if 4 < data.length then do
    let msgSize ← ushortAt data 3
    if data.length - 5 < msgSize then .ok { data, isError := true }
    else do
      let sessionIdLength ← byteAt data 43
      let offset := 44 + sessionIdLength.toNat
      let lengthCipherSuiteData ← ushortAt data offset
      let offset := offset + 2 + lengthCipherSuiteData
      let lengthCompressionMethodsData ← byteAt data offset
      let offset := offset + 1 + lengthCompressionMethodsData.toNat
      let lengthLeft ← ushortAt data offset
      .ok { data, offset := offset + 2, lengthLeft }
  else .ok { data }

/-- `TlsHandshakeReadOperation.CheckIntegrity`. -/
def checkIntegrity (data : List UInt8) : Except Fault Bool :=
  if data.length < 5 then .ok false
  else do
    let first ← byteAt data 0
    if first ≠ ConstantsForTls.handshakeRecord then
      .error (.thrown .format "First Byte Must be 0x16")
    else do
      let length ← ushortAt data 3
      .ok (5 + length ≤ data.length)

/-- `new TlsHelloFromServerExtensionsEnumerator(data)`. -/
def fromServer (data : List UInt8) : Except Fault ExtensionsEnumerator := do
  if ← checkIntegrity data then do
    let sessionIDLength ← byteAt data 43
    let offset := 44 + sessionIDLength.toNat + 3
    let lengthLeft ← ushortAt data offset
    .ok { data, offset := offset + 2, lengthLeft }
  else .error (.thrown .format "Tls Frame is Not Valid")

/-- `MoveNext`, with `Current`. The count of what is left is a `ushort`. -/
def moveNext (e : ExtensionsEnumerator) :
    Except Fault (Option (TlsExtensionInfo × ExtensionsEnumerator)) :=
  if e.isError = false ∧ 0 < e.lengthLeft then do
    let type ← ushortAt e.data e.offset
    let length ← ushortAt e.data (e.offset + 2)
    let data ← sliceAt e.data (e.offset + 4) length
    .ok (some (⟨type, length, data⟩, { e with
      offset := e.offset + 4 + length
      lengthLeft := (e.lengthLeft + 2 ^ 16 - (4 + length) % 2 ^ 16) % 2 ^ 16 }))
  else .ok none

theorem moveNext_lt {e e' : ExtensionsEnumerator} {extension : TlsExtensionInfo}
    (h : e.moveNext = .ok (some (extension, e'))) :
    e'.data.length - e'.offset < e.data.length - e.offset := by
  unfold moveNext at h
  split_ifs at h
  · obtain ⟨type, htype, h⟩ := do_ok_iff.mp h
    obtain ⟨length, -, h⟩ := do_ok_iff.mp h
    obtain ⟨data, -, h⟩ := do_ok_iff.mp h
    cases h
    have hlt := ushortAt_lt htype
    dsimp only
    omega
  · cases h

/-- The loop over the extensions. -/
def analyz (e : ExtensionsEnumerator) (protocols : ℕ) : Except Fault ℕ :=
  match _ : e.moveNext with
  | .error fault => .error fault
  | .ok none => .ok protocols
  | .ok (some (extension, e)) =>
    if extension.type = ETlsExtensions.applicationLayerProtocolNegotiation then
      match alpnProtocols [extension.data] protocols with
      | .error fault => .error fault
      | .ok protocols => analyz e protocols
    else analyz e protocols
termination_by e.data.length - e.offset
decreasing_by
  all_goals exact moveNext_lt ‹moveNext _ = .ok (some (_, _))›

end ExtensionsEnumerator

namespace TlsHandshakeReadOperation

def analyzAsServer (reader : TlsHandshakeReadOperation) : Except Fault HandshakeAnalyzResult := do
  let mem := reader.getFrameAsMemory
  let _ ← ushortAt mem 3
  let extensions ← ExtensionsEnumerator.fromServer mem
  let protocols ← extensions.analyz ENetworkProtocols.none
  .ok { protocols }

def analyzAsClient (reader : TlsHandshakeReadOperation) : Except Fault HandshakeAnalyzResult := do
  let mem := reader.getFrameAsMemory
  let _ ← ushortAt mem 3
  let clientVersion ← ushortAt mem 9
  let protocolsSsl ←
    (if clientVersion = ConstantsForTls.clientVersionTls13 then .ok .tls13
    else if clientVersion = ConstantsForTls.clientVersionTls12 then .ok .tls12
    else if clientVersion = ConstantsForTls.clientVersionTls11 then .ok .tls11
    else .error (.raised .notImplemented))
  let tlsExtensions ← ExtensionsEnumerator.fromClient mem
  let protocols ← tlsExtensions.analyz ENetworkProtocols.none
  .ok { protocols, protocolsSsl }

end TlsHandshakeReadOperation

end DecodingProxy.Cryptography
