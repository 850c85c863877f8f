import DecodingProxy.Cryptography.TlsPlayerWithProxy
import DecodingProxy.Http.Messages
import DecodingProxy.Nodes.NodeSocketReader
import DecodingProxy.Socks.ServerForSocks5

/-!
# `NodeGate`: the protocol of a first fragment

A fragment is asked for TLS, then for the words that HTTP requests begin with, then for a SOCKS5
greeting. Below five bytes it is too short, and the words are looked for from seven bytes on: in
between a request is of no known protocol.
-/

namespace DecodingProxy.Nodes
open DecodingProxy.Cryptography DecodingProxy.Http DecodingProxy.Runs DecodingProxy.Runtime
open DecodingProxy.Socks DecodingProxy.Vectors

inductive EGateProtocol
  | none
  | tooShortToIdentify
  | unknown
  | HTTP11
  | HTTP_CONNECT
  | SOCKS4
  | SOCKS5
  | TLS_SERVER
  | TLS_CLIENT
  | TLS_ERROR
  deriving DecidableEq, Repr

/-- The versions of `ETlsProtocolVersion` that name a TLS. -/
def tlsVersions : List UInt16 := [0x0304, 0x0303, 0x0302, 0x0301]

def isTls (r : TlsRecord) : Bool :=
  r.validate && decide (reverseEndians r.protocolVersion ∈ tlsVersions) && decide (r.length > 0)

/-- `ConstantsForTls.SIZE_RECORD_HANDSHAKE`. -/
def sizeRecordHandshake : ℕ := sizeRecord + sizeHandshakeHeader

/-- The loop of `DetectTls` over the messages of a record. -/
def detectHandshake (mem : List UInt8) : Except Fault EGateProtocol :=
  match mem with
  | [] => .ok .TLS_ERROR
  | b0 :: b1 :: b2 :: b3 :: mem =>
    let handshakeHeader : HandshakeHeader := ⟨b0, b1, b2, b3⟩
    if handshakeHeader.messageType = ETlsTypeHandshakeMessage.clientHello then .ok .TLS_CLIENT
    else if handshakeHeader.messageType = ETlsTypeHandshakeMessage.serverHello then .ok .TLS_SERVER
    else if mem.length < handshakeHeader.length1Follows.toInt then
      .error (.raised .argumentOutOfRange)
    else detectHandshake (mem.drop handshakeHeader.length1Follows.toInt)
  | _ => .error (.raised .indexOutOfRange)
termination_by mem.length
decreasing_by
  simp only [List.length_drop, List.length_cons]
  omega

def detectTls (dataFragment : DataFragment) : Except Fault EGateProtocol := do
  let tlsRecord ← TlsRecord.toStruct dataFragment
  if isTls tlsRecord then
    if dataFragment.length ≥ sizeRecordHandshake then
      detectHandshake (dataFragment.drop sizeRecord)
    else .ok .tooShortToIdentify
  else .ok .TLS_ERROR

def isSocks5 (c : ClientGreetingsSocks5) : Bool :=
  c.version = ESocksType.SOCKS5 && c.numberOfAuthMethods > 0

/-- The protocol of the words that the first seven bytes begin with. -/
def detectHttp (culture : CurrentCulture) (mem : List UInt8) : Option EGateProtocol :=
  if mem.length > 6 then
    let str := culture.toUpper (Utf8.getString (mem.take 7))
    if culture.equalsIgnoreCase str (ascii "CONNECT") then some .HTTP_CONNECT
    else if culture.startsWith str (ascii "GET") || culture.startsWith str (ascii "POST") ||
        culture.startsWith str (ascii "PUT") then some .HTTP11
    else none
  else none

def detectSocks5 (mem : List UInt8) : Except Fault EGateProtocol := do
  let (clientGreetingsSocks5, _) ← ClientGreetingsSocks5.toStructConsume mem
  .ok (if isSocks5 clientGreetingsSocks5 then .SOCKS5 else .unknown)

def detectProtocol (culture : CurrentCulture) (dataFragment : DataFragment) :
    Except Fault EGateProtocol := do
  if dataFragment.length ≥ 5 then
    let result ← detectTls dataFragment
    if result ≠ .TLS_ERROR then .ok result
    else
      match detectHttp culture dataFragment with
      | some protocol => .ok protocol
      | none => detectSocks5 dataFragment
  else .ok .tooShortToIdentify

/-! ### First flights -/

/-- A record with one `ClientHello`. -/
structure ClientHelloRecord where
  /-- Of the version, whose other byte is 3. -/
  minor : UInt8
  message : List UInt8
  fits : message.length + 4 < 2 ^ 16
  deriving DecidableEq, Repr

def ClientHelloRecord.bytes (r : ClientHelloRecord) : List UInt8 :=
  ETlsProtocol.handshake :: 0x03 :: r.minor :: (bigEndian 2 (r.message.length + 4) ++
    ETlsTypeHandshakeMessage.clientHello :: (bigEndian 3 r.message.length ++ r.message))

inductive RequestMethod
  | get
  | post
  | put
  | connect
  deriving DecidableEq, Repr

namespace RequestMethod

def token : RequestMethod → List UInt8
  | get => asciiBytes "GET"
  | post => asciiBytes "POST"
  | put => asciiBytes "PUT"
  | connect => asciiBytes "CONNECT"

def protocol : RequestMethod → EGateProtocol
  | connect => .HTTP_CONNECT
  | _ => .HTTP11

end RequestMethod

/-- What a client sends first. -/
inductive FirstFlight
  | clientHello (record : ClientHelloRecord)
  | request (method : RequestMethod) (target following : List UInt8)
  | greeting (g : Greeting)
  deriving DecidableEq, Repr

namespace FirstFlight

def bytes : FirstFlight → List UInt8
  | clientHello record => record.bytes
  | request method target following =>
    method.token ++ (0x20 :: (target ++ asciiBytes " HTTP/1.1" ++ CRLF ++ following))
  | greeting g => g.bytes

def protocol : FirstFlight → EGateProtocol
  | clientHello _ => .TLS_CLIENT
  | request method _ _ => method.protocol
  | greeting _ => .SOCKS5

end FirstFlight

/-- The flight is identified as what it is, and so is its first part `p` or it is too short. -/
def Stable (culture : CurrentCulture) (s : FirstFlight) (p : List UInt8) : Prop :=
  detectProtocol culture s.bytes = .ok s.protocol ∧
    (detectProtocol culture p = .ok .tooShortToIdentify ∨
      detectProtocol culture p = detectProtocol culture s.bytes)

/-- A `ClientHello` under a version of TLS; a request of which not just five or six bytes came; a
greeting with three methods at least, in which the culture finds no request. -/
def Identifiable (culture : CurrentCulture) (p : List UInt8) : FirstFlight → Prop
  | .clientHello record => record.minor ∈ [(0x01 : UInt8), 0x02, 0x03, 0x04]
  | .request _ _ _ => p.length ∉ [5, 6]
  | .greeting g => 3 ≤ g.methods.length ∧ detectHttp culture g.bytes = none

/-! ### The tests one by one -/

variable {culture : CurrentCulture} {mem p s : List UInt8} {protocol : EGateProtocol}

theorem detectProtocol_short (culture : CurrentCulture) (h : mem.length < 5) :
    detectProtocol culture mem = .ok .tooShortToIdentify :=
  if_neg (Nat.not_le.mpr h)

theorem detectProtocol_tls (culture : CurrentCulture) (h : 5 ≤ mem.length)
    (htls : detectTls mem = .ok protocol) (hne : protocol ≠ .TLS_ERROR) :
    detectProtocol culture mem = .ok protocol := by
  unfold detectProtocol
  rw [if_pos h, do_of_ok htls, if_pos hne]

theorem detectProtocol_other (culture : CurrentCulture) (h : 5 ≤ mem.length)
    (htls : detectTls mem = .ok .TLS_ERROR) :
    detectProtocol culture mem =
      match detectHttp culture mem with
      | some protocol => .ok protocol
      | none => detectSocks5 mem := by
  unfold detectProtocol
  rw [if_pos h, do_of_ok htls]
  rfl

/-- What begins with another byte than a record is no TLS. -/
theorem detectTls_first {b : UInt8} (hmem : mem.head? = some b) (h : 5 ≤ mem.length)
    (hb : b ∉ [ETlsProtocol.handshake, ETlsProtocol.changeCipherSpec, ETlsProtocol.applicationData,
      ETlsProtocol.alertRecord]) :
    detectTls mem = .ok .TLS_ERROR := by
  match mem, hmem, h with
  | b0 :: b1 :: b2 :: b3 :: b4 :: rest, hmem, _ =>
    cases hmem
    simp only [List.mem_cons, List.not_mem_nil, or_false, not_or] at hb
    simp [detectTls, TlsRecord.toStruct, isTls, TlsRecord.validate, hb, bind, Except.bind]

theorem detectHttp_short (culture : CurrentCulture) (h : mem.length ≤ 6) :
    detectHttp culture mem = none :=
  if_neg (Nat.not_lt.mpr h)

/-- The words decide on requests only. -/
theorem detectHttp_some (h : detectHttp culture mem = some protocol) :
    protocol = .HTTP_CONNECT ∨ protocol = .HTTP11 := by
  unfold detectHttp at h
  simp only at h
  split_ifs at h
  · cases h
    exact .inl rfl
  · cases h
    exact .inr rfl

/-- Only the first seven bytes count. -/
theorem detectHttp_front (culture : CurrentCulture) (hp : p <+: s) (h : 6 < p.length) :
    detectHttp culture p = detectHttp culture s := by
  have hs : 6 < s.length := h.trans_le hp.length_le
  have htake : p.take 7 = s.take 7 := by
    obtain ⟨rest, rfl⟩ := hp
    rw [List.take_append_of_le_length h]
  unfold detectHttp
  rw [if_pos h, if_pos hs, htake]

theorem detectSocks5_cons (version numberOfAuthMethods : UInt8) (slice : List UInt8) :
    detectSocks5 (version :: numberOfAuthMethods :: slice) =
      .ok (if isSocks5 ⟨version, numberOfAuthMethods⟩ then .SOCKS5 else .unknown) := rfl

/-- What neither begins with a record nor with one of the words is left to SOCKS5. -/
theorem detectProtocol_first {b : UInt8} (culture : CurrentCulture) (hmem : mem.head? = some b)
    (h : 5 ≤ mem.length)
    (hb : b ∉ [ETlsProtocol.handshake, ETlsProtocol.changeCipherSpec, ETlsProtocol.applicationData,
      ETlsProtocol.alertRecord]) :
    detectProtocol culture mem =
      match detectHttp culture mem with
      | some protocol => .ok protocol
      | none => detectSocks5 mem :=
  detectProtocol_other culture h (detectTls_first hmem h hb)

/-! ### `ClientHello` -/

theorem tlsVersion_iff (minor : UInt8) :
    reverseEndians (littleEndian 0x03 minor) ∈ tlsVersions ↔
      minor ∈ [(0x01 : UInt8), 0x02, 0x03, 0x04] := by
  have hnumber := reverseEndians_littleEndian 0x03 minor
  have hlt := minor.toNat_lt
  simp only [tlsVersions, List.mem_cons, List.not_mem_nil, or_false, ← UInt16.toNat_inj, hnumber,
    ← UInt8.toNat_inj]
  simp only [UInt16.reduceToNat, UInt8.reduceToNat]
  omega

/-- The header that five bytes of such a record give. -/
theorem ClientHelloRecord.prefix_cons (r : ClientHelloRecord) (hp : p <+: r.bytes)
    (h : 5 ≤ p.length) :
    ∃ high low rest, 256 * high.toNat + low.toNat = r.message.length + 4 ∧
      p = ETlsProtocol.handshake :: 0x03 :: r.minor :: high :: low :: rest ∧
      rest <+: ETlsTypeHandshakeMessage.clientHello ::
        (bigEndian 3 r.message.length ++ r.message) := by
  have hnumber : Vectors.number (bigEndian 2 (r.message.length + 4)) = r.message.length + 4 :=
    Vectors.number_bigEndian r.fits
  match p, h, hp with
  | b0 :: b1 :: b2 :: b3 :: b4 :: rest, _, hp =>
    simp only [ClientHelloRecord.bytes, bigEndian, List.nil_append, List.cons_append,
      List.cons_prefix_cons] at hp
    obtain ⟨rfl, rfl, rfl, rfl, rfl, hrest⟩ := hp
    simp only [bigEndian, List.nil_append, List.cons_append, Vectors.number, List.foldl_cons,
      List.foldl_nil] at hnumber
    exact ⟨_, _, rest, by omega, rfl, by simpa [bigEndian] using hrest⟩

theorem detectTls_clientHello (r : ClientHelloRecord) (hp : p <+: r.bytes) (h : 5 ≤ p.length) :
    detectTls p = .ok (
      if r.minor ∉ [(0x01 : UInt8), 0x02, 0x03, 0x04] then .TLS_ERROR
      else if p.length < 9 then .tooShortToIdentify
      else .TLS_CLIENT) := by
  obtain ⟨high, low, rest, hlength, rfl, hrest⟩ := r.prefix_cons hp h
  have hversion := tlsVersion_iff r.minor
  have hpos : (TlsRecord.mk ETlsProtocol.handshake (littleEndian 0x03 r.minor)
      (littleEndian high low)).length > 0 := by
    simp only [TlsRecord.length, reverseEndians_littleEndian]
    omega
  simp only [detectTls, TlsRecord.toStruct, isTls, TlsRecord.validate, bind, Except.bind, hpos,
    hversion]
  by_cases hminor : r.minor ∈ [(0x01 : UInt8), 0x02, 0x03, 0x04]
  · by_cases hlen : 9 ≤ rest.length + 5
    · rcases rest with _ | ⟨b0, _ | ⟨b1, _ | ⟨b2, _ | ⟨b3, rest⟩⟩⟩⟩
      case cons.cons.cons.cons =>
        obtain ⟨rfl, -⟩ := List.cons_prefix_cons.mp hrest
        simp [hminor, sizeRecordHandshake, sizeRecord, sizeHandshakeHeader, detectHandshake]
      all_goals simp at hlen
    · have hshort : ¬ 4 ≤ rest.length := by omega
      have hp9 : rest.length + 1 + 1 + 1 + 1 + 1 < 9 := by omega
      simp [hminor, sizeRecordHandshake, sizeRecord, sizeHandshakeHeader, hshort, hp9]
  · simp [hminor]

theorem stable_clientHello (culture : CurrentCulture) (r : ClientHelloRecord)
    (hp : p <+: r.bytes) :
    Stable culture (.clientHello r) p ↔ Identifiable culture p (.clientHello r) := by
  have hlen : 9 ≤ r.bytes.length := by
    simp only [ClientHelloRecord.bytes, List.length_cons, List.length_append, length_bigEndian]
    omega
  have hwhole := detectTls_clientHello r List.prefix_rfl (by omega)
  by_cases hminor : r.minor ∈ [(0x01 : UInt8), 0x02, 0x03, 0x04]
  · rw [if_neg (not_not.mpr hminor), if_neg (by omega)] at hwhole
    have hs : detectProtocol culture r.bytes = .ok .TLS_CLIENT :=
      detectProtocol_tls culture (by omega) hwhole (by decide)
    refine iff_of_true ⟨hs, ?_⟩ hminor
    rcases Nat.lt_or_ge p.length 5 with hshort | h5
    · exact .inl (detectProtocol_short culture hshort)
    · have htls := detectTls_clientHello r hp h5
      rw [if_neg (not_not.mpr hminor)] at htls
      by_cases h9 : p.length < 9
      · rw [if_pos h9] at htls
        exact .inl (detectProtocol_tls culture h5 htls (by decide))
      · rw [if_neg h9] at htls
        exact .inr ((detectProtocol_tls culture h5 htls (by decide)).trans hs.symm)
  · refine iff_of_false ?_ hminor
    rintro ⟨hs, -⟩
    rw [if_pos hminor] at hwhole
    rw [FirstFlight.bytes, detectProtocol_other culture (by omega) hwhole] at hs
    cases hhttp : detectHttp culture r.bytes with
    | some protocol =>
      rw [hhttp] at hs
      cases hs
      rcases detectHttp_some hhttp with h | h <;> cases h
    | none =>
      rw [hhttp] at hs
      cases hs

/-! ### Requests -/

theorem getString_ascii_append {word : List UInt8} (h : ∀ b ∈ word, b < 0x80)
    (rest : List UInt8) :
    Utf8.getString (word ++ rest) = chars word ++ Utf8.getString rest := by
  induction word with
  | nil => rfl
  | cons b word ih =>
    obtain ⟨hb, hword⟩ := List.forall_mem_cons.mp h
    have hstep : Utf8.step .start b = (.start, [b.toUInt16]) := if_pos hb
    calc Utf8.getString (b :: word ++ rest)
        = b.toUInt16 :: Utf8.getString (word ++ rest) := by
          rw [Utf8.getString, List.cons_append, Utf8.decodeFrom_cons, hstep]
          rfl
      _ = chars (b :: word) ++ Utf8.getString rest := by rw [ih hword]; rfl

theorem ascii_lt_of_isCapital {word : List UInt8}
    (h : (chars word).all Str.isCapital = true) : ∀ b ∈ word, b < 0x80 := by
  intro b hb
  have hcapital := List.all_eq_true.mp h b.toUInt16 (List.mem_map_of_mem hb)
  simp only [Str.isCapital, Bool.and_eq_true, decide_eq_true_eq, UInt16.le_iff_toNat_le,
    UInt8.toNat_toUInt16, UInt16.reduceToNat] at hcapital
  exact UInt8.lt_iff_toNat_lt.mpr (by simp only [UInt8.reduceToNat]; omega)

/-- A word of the six that is not `CONNECT` is seen in front of its space. -/
theorem detectHttp_word (culture : CurrentCulture) {method : RequestMethod} {rest : List UInt8}
    (hmethod : method ≠ .connect) (h : 6 < (method.token ++ 0x20 :: rest).length) :
    detectHttp culture (method.token ++ 0x20 :: rest) = some .HTTP11 := by
  have hcapital : (chars method.token).all Str.isCapital = true := by cases method <;> decide
  have hlen : method.token.length < 7 := by
    cases method <;> first | decide | exact absurd rfl hmethod
  have htake : (method.token ++ 0x20 :: rest).take 7 =
      method.token ++ 0x20 :: rest.take (6 - method.token.length) := by
    rw [List.take_append, List.take_of_length_le hlen.le,
      show 7 - method.token.length = (6 - method.token.length) + 1 by omega, List.take_succ_cons]
  obtain ⟨rest', hupper⟩ := culture.upper_words (chars method.token)
    (Utf8.getString (rest.take (6 - method.token.length))) hcapital
  have hstring : Utf8.getString ((method.token ++ 0x20 :: rest).take 7) =
      chars method.token ++ 0x20 :: Utf8.getString (rest.take (6 - method.token.length)) := by
    rw [htake, getString_ascii_append (ascii_lt_of_isCapital hcapital)]
    have hspace : ∀ b ∈ ([0x20] : List UInt8), b < 0x80 := by decide
    exact congrArg _ (getString_ascii_append hspace _)
  have hstarts := culture.starts_word (chars method.token) rest' hcapital
  unfold detectHttp
  simp only [gt_iff_lt, if_pos h, hstring, hupper]
  rw [if_neg]
  · rw [if_pos]
    cases method with
    | get => simp [show ascii "GET" = chars RequestMethod.get.token by decide, hstarts]
    | post => simp [show ascii "POST" = chars RequestMethod.post.token by decide, hstarts]
    | put => simp [show ascii "PUT" = chars RequestMethod.put.token by decide, hstarts]
    | connect => exact absurd rfl hmethod
  · intro hequal
    -- The first letters differ.
    cases method with
    | get => exact absurd (culture.equals_first _ _ _ _ (by decide) (by decide) hequal) (by decide)
    | post => exact absurd (culture.equals_first _ _ _ _ (by decide) (by decide) hequal) (by decide)
    | put => exact absurd (culture.equals_first _ _ _ _ (by decide) (by decide) hequal) (by decide)
    | connect => exact absurd rfl hmethod

theorem detectHttp_connect (culture : CurrentCulture) (rest : List UInt8) :
    detectHttp culture (RequestMethod.connect.token ++ rest) = some .HTTP_CONNECT := by
  have hstring : Utf8.getString ((RequestMethod.connect.token ++ rest).take 7) =
      ascii "CONNECT" := by
    rw [List.take_left' (by decide)]
    decide
  have hlen : 6 < (RequestMethod.connect.token ++ rest).length := by
    simp only [List.length_append, show RequestMethod.connect.token.length = 7 by decide]
    omega
  have hupper : culture.toUpper (ascii "CONNECT") = ascii "CONNECT" :=
    culture.upper_word _ (by decide)
  unfold detectHttp
  simp only [gt_iff_lt, if_pos hlen, hstring, hupper, culture.equals_self, if_true]

/-- A byte that begins neither a record nor a greeting. -/
def IsLetter (b : UInt8) : Prop := 0x40 < b

instance (b : UInt8) : Decidable (IsLetter b) := inferInstanceAs (Decidable (0x40 < b))

theorem RequestMethod.first (method : RequestMethod) (rest : List UInt8) :
    ∃ b, (method.token ++ rest).head? = some b ∧ IsLetter b := by
  cases method <;> exact ⟨_, rfl, by decide⟩

theorem IsLetter.not_record {b : UInt8} (h : IsLetter b) :
    b ∉ [ETlsProtocol.handshake, ETlsProtocol.changeCipherSpec, ETlsProtocol.applicationData,
      ETlsProtocol.alertRecord] := by
  intro hb
  simp only [List.mem_cons, List.not_mem_nil, or_false] at hb
  rcases hb with rfl | rfl | rfl | rfl <;> exact absurd h (by decide)

theorem IsLetter.not_socks5 {b : UInt8} (h : IsLetter b) (hmem : mem.head? = some b)
    (hlen : 2 ≤ mem.length) : detectSocks5 mem = .ok .unknown := by
  match mem, hmem, hlen with
  | b0 :: numberOfAuthMethods :: slice, hmem, _ =>
    cases hmem
    have hversion : b ≠ ESocksType.SOCKS5 := by
      rintro rfl
      exact absurd h (by decide)
    rw [detectSocks5_cons, isSocks5, decide_eq_false hversion]
    rfl

theorem length_request (method : RequestMethod) (target following : List UInt8) :
    13 ≤ (FirstFlight.request method target following).bytes.length := by
  have htoken : 3 ≤ method.token.length := by cases method <;> decide
  have hversion : (asciiBytes " HTTP/1.1").length = 9 := by decide
  simp only [FirstFlight.bytes, List.length_append, List.length_cons, hversion]
  omega

theorem detectHttp_request (culture : CurrentCulture) (method : RequestMethod)
    (target following : List UInt8) :
    detectHttp culture (FirstFlight.request method target following).bytes =
      some method.protocol := by
  have hlen := length_request method target following
  cases method with
  | connect => exact detectHttp_connect culture _
  | _ => exact detectHttp_word culture (by decide) (lt_of_lt_of_le (by decide) hlen)

theorem head?_front (hp : p <+: s) (hne : p ≠ []) : p.head? = s.head? := by
  obtain ⟨rest, rfl⟩ := hp
  rw [List.head?_append_of_ne_nil _ hne]

theorem stable_request (culture : CurrentCulture) (method : RequestMethod)
    (target following : List UInt8)
    (hp : p <+: (FirstFlight.request method target following).bytes) :
    Stable culture (.request method target following) p ↔
      Identifiable culture p (.request method target following) := by
  obtain ⟨b, hfirst, hb⟩ :
      ∃ b, (FirstFlight.request method target following).bytes.head? = some b ∧ IsLetter b :=
    method.first _
  have hlen := length_request method target following
  have hhttp := detectHttp_request culture method target following
  have hs : detectProtocol culture (FirstFlight.request method target following).bytes =
      .ok method.protocol := by
    rw [detectProtocol_first culture hfirst (by omega) hb.not_record, hhttp]
  rcases Nat.lt_or_ge p.length 5 with hshort | h5
  · refine iff_of_true ⟨hs, .inl (detectProtocol_short culture hshort)⟩ ?_
    simp only [Identifiable, List.mem_cons, List.not_mem_nil, or_false]
    omega
  have hpfirst : p.head? = some b := (head?_front hp (by rintro rfl; cases h5)).trans hfirst
  have hdetect := detectProtocol_first culture hpfirst h5 hb.not_record
  rcases Nat.lt_or_ge 6 p.length with h7 | h6
  · rw [detectHttp_front culture hp h7, hhttp] at hdetect
    refine iff_of_true ⟨hs, .inr (hdetect.trans hs.symm)⟩ ?_
    simp only [Identifiable, List.mem_cons, List.not_mem_nil, or_false]
    omega
  · -- Five or six bytes: the words are not looked for, and no greeting begins with a letter.
    rw [detectHttp_short culture h6] at hdetect
    simp only [hb.not_socks5 hpfirst (by omega)] at hdetect
    refine iff_of_false ?_ fun h => h ?_
    · rintro ⟨-, hshort | hsame⟩
      · rw [hdetect] at hshort
        cases hshort
      · rw [hdetect, hs] at hsame
        cases method <;> cases hsame
    · simp only [List.mem_cons, List.not_mem_nil, or_false]
      omega

/-! ### Greetings -/

theorem detectSocks5_greeting (g : Greeting) (hp : p <+: g.bytes) (hlen : 2 ≤ p.length) :
    detectSocks5 p = .ok .SOCKS5 := by
  match p, hp, hlen with
  | version :: numberOfAuthMethods :: slice, hp, _ =>
    simp only [Greeting.bytes, List.cons_prefix_cons] at hp
    obtain ⟨rfl, rfl, -⟩ := hp
    have hpos : (0 : UInt8) < UInt8.ofNat g.methods.length := by
      have hmethods := List.length_pos_iff.mpr g.nonempty
      have hcounted : (UInt8.ofNat g.methods.length).toNat = g.methods.length := by
        simpa using g.counted
      rw [UInt8.lt_iff_toNat_lt, hcounted]
      exact hmethods
    rw [detectSocks5_cons, isSocks5]
    simp [hpos]

theorem stable_greeting (culture : CurrentCulture) (g : Greeting) (hp : p <+: g.bytes) :
    Stable culture (.greeting g) p ↔ Identifiable culture p (.greeting g) := by
  have hfirst : g.bytes.head? = some ESocksType.SOCKS5 := rfl
  have hwhole (h5 : 5 ≤ g.bytes.length) :=
    detectProtocol_first culture hfirst h5 (by decide)
  constructor
  · rintro ⟨hs, -⟩
    rw [FirstFlight.bytes] at hs
    rcases Nat.lt_or_ge g.bytes.length 5 with hshort | h5
    · rw [detectProtocol_short culture hshort] at hs
      cases hs
    · refine ⟨by rw [Greeting.length_bytes] at h5; omega, ?_⟩
      cases hhttp : detectHttp culture g.bytes with
      | none => rfl
      | some protocol =>
        rw [hwhole h5, hhttp] at hs
        cases hs
        rcases detectHttp_some hhttp with h | h <;> cases h
  · rintro ⟨hmethods, hhttp⟩
    have h5 : 5 ≤ g.bytes.length := by rw [Greeting.length_bytes]; omega
    have hs : detectProtocol culture g.bytes = .ok .SOCKS5 := by
      rw [hwhole h5, hhttp]
      exact detectSocks5_greeting g List.prefix_rfl (by omega)
    refine ⟨hs, ?_⟩
    rcases Nat.lt_or_ge p.length 5 with hshort | hp5
    · exact .inl (detectProtocol_short culture hshort)
    have hphttp : detectHttp culture p = none := by
      rcases Nat.lt_or_ge 6 p.length with h7 | h6
      · rw [detectHttp_front culture hp h7, hhttp]
      · exact detectHttp_short culture h6
    have hpfirst : p.head? = some ESocksType.SOCKS5 :=
      (head?_front hp (by rintro rfl; cases hp5)).trans hfirst
    refine .inr ?_
    rw [FirstFlight.bytes, hs, detectProtocol_first culture hpfirst hp5 (by decide), hphttp]
    exact detectSocks5_greeting g hp (by omega)

/-- Which first fragments of which flights are identified, for any culture. -/
theorem stable_iff (culture : CurrentCulture) (s : FirstFlight) (p : List UInt8)
    (hp : p <+: s.bytes) : Stable culture s p ↔ Identifiable culture p s := by
  cases s with
  | clientHello record => exact stable_clientHello culture record hp
  | request method target following => exact stable_request culture method target following hp
  | greeting g => exact stable_greeting culture g hp

/-- Seven bytes of a request. -/
theorem stable_iff_seven :
    Stable .invariantGlobalization (.request .get [0x2F] []) (asciiBytes "GET / H") ↔
      Identifiable .invariantGlobalization (asciiBytes "GET / H") (.request .get [0x2F] []) :=
  stable_iff .invariantGlobalization (.request .get [0x2F] []) (asciiBytes "GET / H")
    ⟨asciiBytes "TTP/1.1\r\n", by decide⟩

/-- Five bytes of it are of no known protocol. -/
theorem not_stable_five :
    ¬ ∀ (culture : CurrentCulture) (s : FirstFlight) (p : List UInt8), p ≠ [] → p <+: s.bytes →
      Stable culture s p := by
  intro h
  have hstable := h .invariantGlobalization (.request .get [0x2F] []) (asciiBytes "GET /")
    (by decide) ⟨asciiBytes " HTTP/1.1\r\n", by decide⟩
  have hunknown : detectProtocol .invariantGlobalization (asciiBytes "GET /") = .ok .unknown := by
    decide
  obtain ⟨hs, hshort | hsame⟩ := hstable
  · rw [hunknown] at hshort
    cases hshort
  · rw [hunknown, hs] at hsame
    cases hsame

end DecodingProxy.Nodes
