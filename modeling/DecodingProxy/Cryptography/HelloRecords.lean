import DecodingProxy.Cryptography.HelloExtensions

/-!
# The records of hellos

A hello stands at the front of its record, perhaps with other messages behind it, and the record
at the front of the data. Behind a random, a session id and what the sides say about ciphers and
compression comes the block of the extensions, whose length is declared in front of it. What is
in the block is not looked at here.
-/

namespace DecodingProxy.Cryptography
open DecodingProxy.Runtime DecodingProxy.Vectors DecodingProxy.Runs

structure HelloExtension where
  typeMajor : UInt8
  typeMinor : UInt8
  data : Prefixed 2

namespace HelloExtension

def type (e : HelloExtension) : ℕ := toUshort e.typeMajor e.typeMinor

def encode (e : HelloExtension) : List UInt8 := e.typeMajor :: e.typeMinor :: e.data.encode

/-- What the enumerators yield for it. -/
def info (e : HelloExtension) : TlsExtensionInfo := ⟨e.type, e.data.1.length, e.data.1⟩

@[simp] theorem info_length (e : HelloExtension) : e.info.length = e.data.1.length := rfl

theorem length_encode (e : HelloExtension) : e.encode.length = 4 + e.data.1.length := by
  simp only [encode, List.length_cons, Prefixed.length_encode]
  omega

end HelloExtension

/-- What the sides say about ciphers and compression: a client offers, a server chooses. -/
inductive HelloParameters
  | client (cipherSuites : Prefixed 2) (compressionMethods : Prefixed 1)
  | server (cipherMajor cipherMinor compressionMethod : UInt8)

namespace HelloParameters

def encode : HelloParameters → List UInt8
  | client cipherSuites compressionMethods => cipherSuites.encode ++ compressionMethods.encode
  | server cipherMajor cipherMinor compressionMethod =>
    [cipherMajor, cipherMinor, compressionMethod]

def messageType : HelloParameters → UInt8
  | client _ _ => ETlsTypeHandshakeMessage.clientHello
  | server _ _ _ => ETlsTypeHandshakeMessage.serverHello

end HelloParameters

theorem noSession_fits : ([] : List UInt8).length < 256 ^ 1 := by decide

def noSession : Prefixed 1 := ⟨[], noSession_fits⟩

def zeroRandom : List UInt8 := List.replicate sizeTlsRandom 0

theorem length_zeroRandom : zeroRandom.length = sizeTlsRandom := List.length_replicate

/-! ### Reading at a position -/

section
variable {data pre rest : List UInt8} {i : ℕ}

theorem getElem?_behind (pre rest : List UInt8) (i : ℕ) :
    (pre ++ rest)[pre.length + i]? = rest[i]? := by
  rw [List.getElem?_append_right (Nat.le_add_right _ _), Nat.add_sub_cancel_left]

theorem byteAt_behind {b : UInt8} (hdata : data = pre ++ b :: rest) (hi : i = pre.length) :
    byteAt data i = .ok b := by
  subst hdata hi
  exact byteAt_ok_iff.mpr (getElem?_behind pre _ 0)

theorem ushortAt_behind {v1 v2 : UInt8} (hdata : data = pre ++ v1 :: v2 :: rest)
    (hi : i = pre.length) : ushortAt data i = .ok (toUshort v1 v2) := by
  subst hdata hi
  exact ushortAt_ok_iff.mpr ⟨v1, v2, getElem?_behind pre _ 0, getElem?_behind pre _ 1, rfl⟩

theorem ushortAt_front {part : List UInt8} (h : part <+: data) (hi : i + 1 < part.length) :
    ushortAt part i = ushortAt data i := by
  obtain ⟨behind, rfl⟩ := h
  unfold ushortAt byteAt
  rw [List.getElem?_append_left hi, List.getElem?_append_left (Nat.lt_of_succ_lt hi)]

theorem toUshort_eq_number (v1 v2 : UInt8) : toUshort v1 v2 = number [v1, v2] := by
  simp [toUshort, number]

theorem drop_eq_cons {b : UInt8} (h : data[i]? = some b) :
    data.drop i = b :: data.drop (i + 1) := by
  obtain ⟨hlt, rfl⟩ := List.getElem?_eq_some_iff.mp h
  exact List.drop_eq_getElem_cons hlt

theorem bigEndian_toUshort (v1 v2 : UInt8) : bigEndian 2 (toUshort v1 v2) = [v1, v2] := by
  have h1 := v1.toNat_lt
  have h2 := v2.toNat_lt
  have hhigh : UInt8.ofNat (toUshort v1 v2 / 256) = v1 := by
    apply UInt8.toNat_inj.mp
    rw [UInt8.toNat_ofNat', toUshort]
    omega
  have hlow : UInt8.ofNat (toUshort v1 v2) = v2 := by
    apply UInt8.toNat_inj.mp
    rw [UInt8.toNat_ofNat', toUshort]
    omega
  rw [bigEndian, bigEndian, bigEndian, hhigh, hlow]
  rfl

/-- The two bytes of a length. -/
theorem bigEndian_two (v : Prefixed 2) :
    ∃ v1 v2, bigEndian 2 v.1.length = [v1, v2] ∧ toUshort v1 v2 = v.1.length := by
  refine ⟨_, _, rfl, ?_⟩
  rw [toUshort_eq_number]
  exact v.number_length

theorem ushortAt_prefixed {v : Prefixed 2} (hdata : data = pre ++ (v.encode ++ rest))
    (hi : i = pre.length) : ushortAt data i = .ok v.1.length := by
  obtain ⟨v1, v2, hbytes, hnumber⟩ := bigEndian_two v
  rw [← hnumber]
  have hsplit : data = pre ++ v1 :: v2 :: (v.1 ++ rest) := by
    rw [hdata, Prefixed.encode, hbytes]
    simp
  exact ushortAt_behind hsplit hi

theorem byteAt_prefixed {v : Prefixed 1} (hdata : data = pre ++ (v.encode ++ rest))
    (hi : i = pre.length) : ∃ b, byteAt data i = .ok b ∧ b.toNat = v.1.length := by
  obtain ⟨b, hbytes⟩ : ∃ b, bigEndian 1 v.1.length = [b] := ⟨_, rfl⟩
  have hnumber := v.number_length
  rw [hbytes] at hnumber
  refine ⟨b, ?_, by simpa [number] using hnumber⟩
  rw [Prefixed.encode, hbytes] at hdata
  exact byteAt_behind hdata hi

theorem sliceAt_behind {d : List UInt8} (hdata : data = pre ++ (d ++ rest))
    (hi : i = pre.length) : sliceAt data i d.length = .ok d := by
  subst hdata hi
  unfold sliceAt
  rw [if_neg (by simp), List.drop_left, List.take_left]

end

/-! ### The walk over the extensions -/

namespace ExtensionsEnumerator

/-- In front of a block that stands behind `pre`. -/
def atBlock (pre block tail : List UInt8) : ExtensionsEnumerator where
  data := pre ++ (block ++ tail)
  offset := pre.length
  lengthLeft := block.length

/-- In front of the extensions `es`, which stand behind `pre`. -/
def startAt (pre : List UInt8) (es : List HelloExtension) (tail : List UInt8) :
    ExtensionsEnumerator where
  data := pre ++ (es.flatMap HelloExtension.encode ++ tail)
  offset := pre.length
  lengthLeft := (es.flatMap HelloExtension.encode).length

/-- An extension at the offset is yielded, whatever is left of the count. -/
theorem moveNext_extension {x : ExtensionsEnumerator} {pre rest : List UInt8} {e : HelloExtension}
    (herror : x.isError = false) (hleft : 0 < x.lengthLeft)
    (hdata : x.data = pre ++ (e.encode ++ rest)) (hoffset : x.offset = pre.length) :
    x.moveNext = .ok (some (e.info, { x with
      offset := (pre ++ e.encode).length
      lengthLeft := (x.lengthLeft + 2 ^ 16 - (4 + e.data.1.length) % 2 ^ 16) % 2 ^ 16 })) := by
  have hdata₀ : x.data = pre ++ e.typeMajor :: e.typeMinor :: (e.data.encode ++ rest) := hdata
  have htype := ushortAt_behind hdata₀ hoffset
  have hdata₂ : x.data = (pre ++ [e.typeMajor, e.typeMinor]) ++ (e.data.encode ++ rest) := by
    rw [hdata₀]
    simp
  have hsize := ushortAt_prefixed hdata₂ (i := x.offset + 2) (by simp [hoffset])
  have hdata₄ : x.data =
      (pre ++ [e.typeMajor, e.typeMinor] ++ bigEndian 2 e.data.1.length) ++ (e.data.1 ++ rest) := by
    rw [hdata₂, Prefixed.encode]
    simp
  have hslice := sliceAt_behind hdata₄ (i := x.offset + 4) (by simp [hoffset])
  have hnext : x.offset + 4 + e.data.1.length = (pre ++ e.encode).length := by
    rw [List.length_append, e.length_encode, hoffset]
    omega
  rw [moveNext, if_pos ⟨herror, hleft⟩, do_of_ok htype, do_of_ok hsize, do_of_ok hslice, hnext]
  rfl

/-- What is yielded is an extension at the offset. -/
theorem moveNext_inv {x x' : ExtensionsEnumerator} {current : TlsExtensionInfo}
    (h : x.moveNext = .ok (some (current, x'))) :
    x'.data = x.data ∧ ∃ (e : HelloExtension) (rest : List UInt8),
      x.data.drop x.offset = e.encode ++ rest ∧ current = e.info := by
  unfold moveNext at h
  split_ifs at h
  · obtain ⟨type, htype, h⟩ := do_ok_iff.mp h
    obtain ⟨length, hlength, h⟩ := do_ok_iff.mp h
    obtain ⟨slice, hslice, h⟩ := do_ok_iff.mp h
    cases h
    obtain ⟨v1, v2, h0, h1, rfl⟩ := ushortAt_ok_iff.mp htype
    obtain ⟨l1, l2, h2, h3, rfl⟩ := ushortAt_ok_iff.mp hlength
    unfold sliceAt at hslice
    split_ifs at hslice with hshort
    cases hslice
    set tail := x.data.drop (x.offset + 4) with htail
    have hlen : (tail.take (toUshort l1 l2)).length = toUshort l1 l2 := by
      rw [List.length_take, htail, List.length_drop]
      omega
    have hfits : (tail.take (toUshort l1 l2)).length < 256 ^ 2 := by
      have := l1.toNat_lt
      have := l2.toNat_lt
      rw [hlen, toUshort]
      omega
    refine ⟨rfl, ⟨v1, v2, ⟨_, hfits⟩⟩, tail.drop (toUshort l1 l2), ?_, ?_⟩
    · rw [drop_eq_cons h0, drop_eq_cons h1, drop_eq_cons h2, drop_eq_cons h3, HelloExtension.encode,
        Prefixed.encode, hlen, bigEndian_toUshort]
      simp [htail]
    · rw [HelloExtension.info, hlen]
      rfl
  · cases h

/-- The fields of a `ClientHello` from the session id at `index` on. -/
def clientFields (index : ℕ) (data : List UInt8) : Except Fault ExtensionsEnumerator := do
  let sessionIdLength ← byteAt data index
  let offset := index + 1 + sessionIdLength.toNat
  let lengthCipherSuiteData ← ushortAt data offset
  let offset := offset + 2 + lengthCipherSuiteData
  let lengthCompressionMethodsData ← byteAt data offset
  let offset := offset + 1 + lengthCompressionMethodsData.toNat
  let lengthLeft ← ushortAt data offset
  .ok { data, offset := offset + 2, lengthLeft }

theorem clientFields_eq {data front tail : List UInt8} {sessionId compressionMethods : Prefixed 1}
    {cipherSuites block : Prefixed 2}
    (hdata : data = front ++ (sessionId.encode ++ (cipherSuites.encode ++
      (compressionMethods.encode ++ (block.encode ++ tail))))) {index : ℕ}
    (hindex : index = front.length) :
    clientFields index data = .ok (atBlock (front ++ (sessionId.encode ++ (cipherSuites.encode ++
      compressionMethods.encode)) ++ bigEndian 2 block.1.length) block.1 tail) := by
  obtain ⟨b, hb, hsession⟩ := byteAt_prefixed hdata hindex
  have hdata₁ : data = (front ++ sessionId.encode) ++ (cipherSuites.encode ++
      (compressionMethods.encode ++ (block.encode ++ tail))) := by
    rw [hdata]
    simp only [List.append_assoc]
  have hoffset₁ : index + 1 + b.toNat = (front ++ sessionId.encode).length := by
    rw [List.length_append, Prefixed.length_encode, hsession, hindex]
    omega
  have hciphers := ushortAt_prefixed hdata₁ hoffset₁
  have hdata₂ : data = (front ++ sessionId.encode ++ cipherSuites.encode) ++
      (compressionMethods.encode ++ (block.encode ++ tail)) := by
    rw [hdata₁]
    simp only [List.append_assoc]
  have hoffset₂ : index + 1 + b.toNat + 2 + cipherSuites.1.length =
      (front ++ sessionId.encode ++ cipherSuites.encode).length := by
    rw [List.length_append, Prefixed.length_encode, hoffset₁]
    omega
  obtain ⟨c, hc, hcompression⟩ := byteAt_prefixed hdata₂ hoffset₂
  have hdata₃ : data = (front ++ (sessionId.encode ++ (cipherSuites.encode ++
      compressionMethods.encode))) ++ (block.encode ++ tail) := by
    rw [hdata₂]
    simp only [List.append_assoc]
  have hoffset₃ : index + 1 + b.toNat + 2 + cipherSuites.1.length + 1 + c.toNat =
      (front ++ (sessionId.encode ++ (cipherSuites.encode ++
        compressionMethods.encode))).length := by
    rw [hoffset₂, hcompression]
    simp only [List.length_append, Prefixed.length_encode]
    omega
  have hleft := ushortAt_prefixed hdata₃ hoffset₃
  rw [clientFields, do_of_ok hb]
  dsimp only
  rw [do_of_ok hciphers, do_of_ok hc, do_of_ok hleft, hoffset₃]
  have hblock : block.encode = bigEndian 2 block.1.length ++ block.1 := rfl
  have hdata₄ : data = front ++ (sessionId.encode ++ (cipherSuites.encode ++
      compressionMethods.encode)) ++ bigEndian 2 block.1.length ++ (block.1 ++ tail) := by
    rw [hdata₃, hblock]
    simp only [List.append_assoc]
  generalize front ++ (sessionId.encode ++ (cipherSuites.encode ++
    compressionMethods.encode)) = pre at hdata₄ ⊢
  have hend : pre.length + 2 = (pre ++ bigEndian 2 block.1.length).length := by
    rw [List.length_append, length_bigEndian]
  rw [atBlock, ← hdata₄, hend]

/-- An extension at the front of what is left of the block is yielded. -/
theorem moveNext_block (pre : List UInt8) (e : HelloExtension) (block tail : List UInt8)
    (hfit : (e.encode ++ block).length < 2 ^ 16) :
    (atBlock pre (e.encode ++ block) tail).moveNext =
      .ok (some (e.info, atBlock (pre ++ e.encode) block tail)) := by
  have hlength : (e.encode ++ block).length = 4 + e.data.1.length + block.length := by
    rw [List.length_append, e.length_encode]
  have hleft : 0 < (atBlock pre (e.encode ++ block) tail).lengthLeft := by
    simp only [atBlock, hlength]
    omega
  have hdata : (atBlock pre (e.encode ++ block) tail).data =
      pre ++ (e.encode ++ (block ++ tail)) := by
    simp only [atBlock, List.append_assoc]
  have hless : ((atBlock pre (e.encode ++ block) tail).lengthLeft + 2 ^ 16 -
      (4 + e.data.1.length) % 2 ^ 16) % 2 ^ 16 = block.length := by
    simp only [atBlock, hlength] at hfit ⊢
    omega
  rw [moveNext_extension rfl hleft hdata rfl, hless, hdata]
  simp [atBlock]

theorem moveNext_cons (pre : List UInt8) (e : HelloExtension) (es : List HelloExtension)
    (tail : List UInt8)
    (hfit : ((e :: es).flatMap HelloExtension.encode).length < 2 ^ 16) :
    (startAt pre (e :: es) tail).moveNext =
      .ok (some (e.info, startAt (pre ++ e.encode) es tail)) :=
  moveNext_block pre e (es.flatMap HelloExtension.encode) tail hfit

end ExtensionsEnumerator

/-! ### The record -/

structure HelloRecord where
  recordMajor : UInt8
  recordMinor : UInt8
  versionMajor : UInt8
  versionMinor : UInt8
  random : List UInt8
  sessionId : Prefixed 1
  parameters : HelloParameters
  block : Prefixed 2
  behind : List UInt8
  random_length : random.length = sizeTlsRandom
  fits : 4 + 2 + sizeTlsRandom + sessionId.encode.length + parameters.encode.length + 2 +
    block.1.length + behind.length < 256 ^ 2

namespace HelloRecord

def body (h : HelloRecord) : List UInt8 :=
  h.versionMajor :: h.versionMinor :: (h.random ++ (h.sessionId.encode ++
    (h.parameters.encode ++ h.block.encode)))

/-- The handshake messages of the record. -/
def fragment (h : HelloRecord) : List UInt8 :=
  h.parameters.messageType :: (bigEndian 3 h.body.length ++ (h.body ++ h.behind))

theorem fragment_length (h : HelloRecord) : h.fragment.length = 4 + 2 + sizeTlsRandom +
    h.sessionId.encode.length + h.parameters.encode.length + 2 + h.block.1.length +
    h.behind.length := by
  simp only [fragment, body, List.length_cons, List.length_append, length_bigEndian,
    h.random_length, Prefixed.length_encode]
  omega

def payload (h : HelloRecord) : Prefixed 2 :=
  ⟨h.fragment, by
    rw [fragment_length]
    exact h.fits⟩

def frame (h : HelloRecord) : List UInt8 :=
  ConstantsForTls.handshakeRecord :: h.recordMajor :: h.recordMinor :: h.payload.encode

/-- What stands in front of the session id. -/
def front (h : HelloRecord) : List UInt8 :=
  ConstantsForTls.handshakeRecord :: h.recordMajor :: h.recordMinor ::
    (bigEndian 2 h.fragment.length ++ h.parameters.messageType ::
      (bigEndian 3 h.body.length ++ h.versionMajor :: h.versionMinor :: h.random))

/-- What stands in front of the length of the block. -/
def upToBlock (h : HelloRecord) : List UInt8 :=
  h.front ++ (h.sessionId.encode ++ h.parameters.encode)

/-- What stands in front of the block. -/
def start (h : HelloRecord) : List UInt8 := h.upToBlock ++ bigEndian 2 h.block.1.length

variable (h : HelloRecord) (more : List UInt8)

theorem front_length : h.front.length = 43 := by
  simp [front, h.random_length, sizeTlsRandom]

theorem frame_eq : h.frame = h.front ++ (h.sessionId.encode ++
    (h.parameters.encode ++ (h.block.encode ++ h.behind))) := by
  have hpayload : h.payload.encode = bigEndian 2 h.fragment.length ++ h.fragment := rfl
  rw [frame, hpayload]
  conv_lhs => rw [fragment, body]
  simp [front, body, fragment]

/-- The data, with the session id and what follows it taken apart. -/
theorem data_eq : h.frame ++ more = h.front ++ (h.sessionId.encode ++
    (h.parameters.encode ++ (h.block.encode ++ (h.behind ++ more)))) := by
  rw [frame_eq]
  simp only [List.append_assoc]

theorem data_start : h.frame ++ more = h.start ++ (h.block.1 ++ (h.behind ++ more)) := by
  have hblock : h.block.encode = bigEndian 2 h.block.1.length ++ h.block.1 := rfl
  rw [data_eq, start, upToBlock, hblock]
  simp only [List.append_assoc]

theorem size_data : ushortAt (h.frame ++ more) 3 = .ok h.payload.1.length := by
  have hdata : h.frame ++ more = [ConstantsForTls.handshakeRecord, h.recordMajor, h.recordMinor] ++
      (h.payload.encode ++ more) := by simp [frame]
  exact ushortAt_prefixed hdata rfl

theorem length_frame : h.frame.length = 5 + h.payload.1.length := by
  simp only [frame, List.length_cons, Prefixed.length_encode]
  omega

/-- The walk starts behind the length of the block. -/
theorem block_at : ushortAt (h.frame ++ more) h.upToBlock.length = .ok h.block.1.length ∧
    ({ data := h.frame ++ more, offset := h.upToBlock.length + 2,
       lengthLeft := h.block.1.length } : ExtensionsEnumerator) =
      .atBlock h.start h.block.1 (h.behind ++ more) := by
  have hdata : h.frame ++ more = h.upToBlock ++ (h.block.encode ++ (h.behind ++ more)) := by
    rw [data_eq, upToBlock]
    simp only [List.append_assoc]
  refine ⟨ushortAt_prefixed hdata rfl, ?_⟩
  rw [ExtensionsEnumerator.atBlock, ← data_start, start, List.length_append, length_bigEndian]

theorem version_data :
    ushortAt (h.frame ++ more) 9 = .ok (toUshort h.versionMajor h.versionMinor) := by
  have hsplit : h.frame ++ more =
      (ConstantsForTls.handshakeRecord :: h.recordMajor :: h.recordMinor ::
        (bigEndian 2 h.fragment.length ++ h.parameters.messageType ::
          bigEndian 3 h.body.length)) ++
        h.versionMajor :: h.versionMinor :: (h.random ++ (h.sessionId.encode ++
          (h.parameters.encode ++ (h.block.encode ++ (h.behind ++ more))))) := by
    rw [data_eq, front]
    simp
  exact ushortAt_behind hsplit (by simp)

theorem checkIntegrity_data : ExtensionsEnumerator.checkIntegrity (h.frame ++ more) = .ok true := by
  have hlong : ¬ (h.frame ++ more).length < 5 := by
    rw [List.length_append, length_frame]
    omega
  have hfirst : byteAt (h.frame ++ more) 0 = .ok ConstantsForTls.handshakeRecord := rfl
  rw [ExtensionsEnumerator.checkIntegrity, if_neg hlong, do_of_ok hfirst,
    if_neg (not_not.mpr rfl), do_of_ok (h.size_data more), List.length_append, length_frame]
  simp

/-- The session id, and the length of the front up to its end. -/
theorem sessionId_data : ∃ b, byteAt (h.frame ++ more) 43 = .ok b ∧
    44 + b.toNat = (h.front ++ h.sessionId.encode).length := by
  obtain ⟨b, hb, hsession⟩ := byteAt_prefixed (h.data_eq more) h.front_length.symm
  refine ⟨b, hb, ?_⟩
  rw [List.length_append, front_length, Prefixed.length_encode, hsession]
  omega

theorem fromClient_data {h : HelloRecord} (more : List UInt8) {cipherSuites : Prefixed 2}
    {compressionMethods : Prefixed 1}
    (hclient : h.parameters = .client cipherSuites compressionMethods) :
    ExtensionsEnumerator.fromClient (h.frame ++ more) =
      .ok (.atBlock h.start h.block.1 (h.behind ++ more)) := by
  have hlong : 4 < (h.frame ++ more).length ∧
      ¬ (h.frame ++ more).length - 5 < h.payload.1.length := by
    rw [List.length_append, length_frame]
    omega
  have hdata := h.data_eq more
  rw [hclient, HelloParameters.encode, List.append_assoc] at hdata
  have hfields := ExtensionsEnumerator.clientFields_eq hdata h.front_length.symm
  rw [ExtensionsEnumerator.fromClient, if_pos hlong.1, do_of_ok (h.size_data more),
    if_neg hlong.2]
  rw [start, upToBlock, hclient]
  exact hfields

theorem fromServer_data {h : HelloRecord} (more : List UInt8)
    {cipherMajor cipherMinor compressionMethod : UInt8}
    (hserver : h.parameters = .server cipherMajor cipherMinor compressionMethod) :
    ExtensionsEnumerator.fromServer (h.frame ++ more) =
      .ok (.atBlock h.start h.block.1 (h.behind ++ more)) := by
  obtain ⟨b, hb, hsession⟩ := h.sessionId_data more
  have hlength : 44 + b.toNat + 3 = h.upToBlock.length := by
    rw [upToBlock, hserver, ← List.append_assoc, List.length_append, ← hsession]
    rfl
  obtain ⟨hleft, hat⟩ := h.block_at more
  rw [ExtensionsEnumerator.fromServer, do_of_ok (h.checkIntegrity_data more), if_pos rfl,
    do_of_ok hb]
  dsimp only
  rw [hlength, do_of_ok hleft, hat]

end HelloRecord

end DecodingProxy.Cryptography
