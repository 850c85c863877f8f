import DecodingProxy.Lib.Lines
import DecodingProxy.Runtime.Text

/-!
# HTTP/1.1 messages as bytes

The syntax that parsers are measured against: a header block of nonempty lines ended by
an empty one, a body delimited by a `Content-Length` field, and a chunked body without
extensions and trailers. Field names may be in any letter case, and white space may
stand around a value.
-/

namespace DecodingProxy.Http
open DecodingProxy.Runtime DecodingProxy.Lines

/-- The line feed. -/
def LF : UInt8 := 0x0A
def CR : UInt8 := 0x0D
def CRLF : List UInt8 := [CR, LF]
def COLON : UInt8 := 0x3A

/-- A property of the bytes of a list is decided along the list, not over all bytes. -/
instance decidableBytes {P : UInt8 → Prop} [DecidablePred P] (bytes : List UInt8) :
    Decidable (∀ b ∈ bytes, P b) :=
  List.decidableBAll P bytes

/-- Chars that stand for single bytes. -/
def chars (bytes : List UInt8) : Str := bytes.map UInt8.toUInt16

/-- The start line and the field lines, without their line ends. -/
structure HeaderBlock where
  startLine : List UInt8
  fields : List (List UInt8)
  content : ∀ l ∈ startLine :: fields, l ≠ [] ∧ LF ∉ l

namespace HeaderBlock

def fieldLines (h : HeaderBlock) : List (List UInt8) :=
  (h.startLine :: h.fields).map fun l => l ++ CRLF

def lines (h : HeaderBlock) : List (List UInt8) := h.fieldLines ++ [CRLF]

def bytes (h : HeaderBlock) : List UInt8 := h.lines.flatten

end HeaderBlock

def lowerByte (b : UInt8) : UInt8 := if 0x41 ≤ b ∧ b ≤ 0x5A then b + 0x20 else b

def asciiBytes (s : String) : List UInt8 := s.toList.map fun c => UInt8.ofNat c.toNat

/-- Spaces and tabs. -/
def IsOws (bytes : List UInt8) : Prop := ∀ b ∈ bytes, b = 0x20 ∨ b = 0x09

instance (bytes : List UInt8) : Decidable (IsOws bytes) := decidableBytes bytes

def IsDigits (bytes : List UInt8) : Prop := bytes ≠ [] ∧ ∀ b ∈ bytes, 0x30 ≤ b ∧ b ≤ 0x39

instance (bytes : List UInt8) : Decidable (IsDigits bytes) := instDecidableAnd

/-- `field` has the name, in any letter case, and the value, with optional white space. -/
def IsField (name : String) (value field : List UInt8) : Prop :=
  ∃ spelled before after, spelled.map lowerByte = asciiBytes name ∧ IsOws before ∧ IsOws after ∧
    field = spelled ++ COLON :: (before ++ value ++ after)

def IsContentLength (field : List UInt8) (length : ℕ) : Prop :=
  ∃ digits, IsDigits digits ∧ Str.decimal (digits.map UInt8.toUInt16) = length ∧
    IsField "content-length" digits field

/-- The last transfer coding is `chunked`. -/
def IsChunkedEncoding (field : List UInt8) : Prop :=
  ∃ codings chunked, chunked.map lowerByte = asciiBytes "chunked" ∧
    (codings = [] ∨ ∃ others ows, IsOws ows ∧ codings = others ++ 0x2C :: ows) ∧
    IsField "transfer-encoding" (codings ++ chunked) field

structure ContentLengthMessage where
  header : HeaderBlock
  body : List UInt8
  declared : ∃ field ∈ header.fields, IsContentLength field body.length

def ContentLengthMessage.bytes (m : ContentLengthMessage) : List UInt8 := m.header.bytes ++ m.body

/-- The body is absent, or a `Content-Length` field delimits it. -/
structure PlainMessage where
  header : HeaderBlock
  body : List UInt8
  delimited : body = [] ∨ ∃ field ∈ header.fields, IsContentLength field body.length

def PlainMessage.bytes (m : PlainMessage) : List UInt8 := m.header.bytes ++ m.body

/-- The messages one after the other. -/
def stream (ms : List PlainMessage) : List UInt8 := (ms.map PlainMessage.bytes).flatten

/-- A chunk with its size in hexadecimal digits. -/
structure Chunk where
  size : List UInt8
  data : List UInt8
  digits : ∀ b ∈ size, (Str.hexValue b.toUInt16).isSome
  value : Str.hexadecimal (size.map UInt8.toUInt16) = data.length
  nonempty : data ≠ []

def Chunk.bytes (c : Chunk) : List UInt8 := c.size ++ CRLF ++ c.data ++ CRLF

structure ChunkedBody where
  chunks : List Chunk
  /-- The size of the chunk that ends the body: one or more zeros. -/
  last : List UInt8
  zero : last ≠ [] ∧ ∀ b ∈ last, b = 0x30

/-- The raw bytes up to and with the line end after the last chunk. -/
def ChunkedBody.bytes (b : ChunkedBody) : List UInt8 :=
  (b.chunks.map Chunk.bytes).flatten ++ (b.last ++ CRLF ++ CRLF)

structure ChunkedMessage where
  header : HeaderBlock
  body : ChunkedBody
  declared : ∃ field ∈ header.fields, IsChunkedEncoding field

def ChunkedMessage.bytes (m : ChunkedMessage) : List UInt8 := m.header.bytes ++ m.body.bytes

/-- The reads that deliver a message and what follows it on the connection. -/
structure Delivery (message : List UInt8) where
  following : List UInt8
  reads : List (List UInt8)
  split : reads.flatten = message ++ following

/-- Everything comes in one read. -/
def Delivery.atOnce (message following : List UInt8) : Delivery message :=
  ⟨following, [message ++ following], List.append_nil _⟩

/-! ### Lines of a header block -/

theorem isLine_append_crlf {l : List UInt8} (h : LF ∉ l) : IsLine LF (l ++ CRLF) :=
  ⟨l ++ [CR], by simpa [CR, LF] using h, by simp [CRLF]⟩

theorem isLine_crlf : IsLine LF CRLF := by simpa using isLine_append_crlf (l := []) (by simp)

theorem HeaderBlock.isLine_fieldLines (h : HeaderBlock) {l : List UInt8} (hl : l ∈ h.fieldLines) :
    IsLine LF l := by
  obtain ⟨content, hc, rfl⟩ := List.mem_map.mp hl
  exact isLine_append_crlf (h.content content hc).2

theorem HeaderBlock.isLine_lines (h : HeaderBlock) {l : List UInt8} (hl : l ∈ h.lines) :
    IsLine LF l := by
  rcases List.mem_append.mp hl with hf | he
  · exact h.isLine_fieldLines hf
  · exact List.mem_singleton.mp he ▸ isLine_crlf

theorem HeaderBlock.bytes_ne_nil (h : HeaderBlock) : h.bytes ≠ [] := by
  simp [bytes, lines, CRLF]

theorem PlainMessage.body_absent {m : PlainMessage} (h : m.header.bytes = m.bytes) :
    m.body = [] := by
  rw [PlainMessage.bytes] at h
  simpa using h

theorem stream_cons (m : PlainMessage) (ms : List PlainMessage) :
    stream (m :: ms) = m.header.bytes ++ (m.body ++ stream ms) := by
  simp [stream, PlainMessage.bytes]

theorem ChunkedBody.bytes_ne_nil (b : ChunkedBody) : b.bytes ≠ [] := by
  simp [bytes, CRLF]

/-! ### The line of a size -/

theorem hexValue_not_white {c : UInt16} (h : (Str.hexValue c).isSome) : Str.isWhite c = false := by
  have hrange : 0x30 ≤ c := by
    unfold Str.hexValue at h
    split_ifs at h with h1 h2 h3
    · exact h1.1
    · exact UInt16.le_trans (by decide) h2.1
    · exact UInt16.le_trans (by decide) h3.1
    · cases h
  simp only [Str.isWhite, Bool.or_eq_false_iff, Bool.and_eq_false_iff, decide_eq_false_iff_not]
  simp only [UInt16.le_iff_toNat_le, ← UInt16.toNat_inj] at hrange ⊢
  have h30 : (0x30 : UInt16).toNat = 0x30 := rfl
  have h20 : (0x20 : UInt16).toNat = 0x20 := rfl
  have h0D : (0x0D : UInt16).toNat = 0x0D := rfl
  omega

theorem parseHex_sizeLine {size : List UInt8} (hne : size ≠ [])
    (hdigits : ∀ b ∈ size, (Str.hexValue b.toUInt16).isSome)
    (hsmall : Str.hexadecimal (chars size) < 2 ^ 31) :
    Str.parseHex (chars (size ++ CRLF)) = .ok (Str.hexadecimal (chars size)) := by
  have hall : ∀ c ∈ chars size, (Str.hexValue c).isSome := by
    intro c hc
    obtain ⟨b, hb, rfl⟩ := List.mem_map.mp hc
    exact hdigits b hb
  have hsplit : chars (size ++ CRLF) = chars size ++ [0x0D, 0x0A] := by
    simp only [chars, List.map_append]
    rfl
  have hwhite : (chars size ++ [0x0D, 0x0A]).dropWhile Str.isWhite = chars size ++ [0x0D, 0x0A] := by
    obtain ⟨b, more, rfl⟩ := List.exists_cons_of_ne_nil hne
    have hb := hexValue_not_white (hdigits b List.mem_cons_self)
    simp [chars, hb]
  have htake : (chars size ++ [0x0D, 0x0A]).takeWhile (fun c => (Str.hexValue c).isSome) =
      chars size := by
    rw [List.takeWhile_append_of_pos hall]
    simp [Str.hexValue]
  have hdrop : (chars size ++ [0x0D, 0x0A]).dropWhile (fun c => (Str.hexValue c).isSome) =
      [0x0D, 0x0A] := by
    rw [List.dropWhile_append_of_pos hall]
    simp [Str.hexValue]
  have hchars : chars size ≠ [] := by simpa [chars] using hne
  unfold Str.parseHex
  rw [hsplit, hwhite]
  simp only [htake, hdrop]
  rw [if_neg (by simp [hchars, Str.isTrailing, Str.isWhite]), if_neg (by omega),
    int32_of_range (by omega) (by omega)]

theorem isLine_sizeLine {size : List UInt8}
    (hdigits : ∀ b ∈ size, (Str.hexValue b.toUInt16).isSome) : IsLine LF (size ++ CRLF) := by
  apply isLine_append_crlf
  intro hm
  have := hdigits LF hm
  simp [LF, Str.hexValue] at this

theorem Chunk.size_ne_nil (c : Chunk) : c.size ≠ [] := by
  intro hnil
  have hvalue := c.value
  rw [hnil] at hvalue
  exact c.nonempty (List.length_eq_zero_iff.mp hvalue.symm)

theorem ChunkedBody.last_digits (b : ChunkedBody) :
    ∀ d ∈ b.last, (Str.hexValue d.toUInt16).isSome := by
  intro d hd
  rw [b.zero.2 d hd]
  decide

theorem ChunkedBody.last_value (b : ChunkedBody) : Str.hexadecimal (chars b.last) = 0 := by
  have hzero : ∀ (digits : List UInt8), (∀ d ∈ digits, d = 0x30) →
      Str.hexadecimal (chars digits) = 0 := by
    intro digits
    induction digits using List.reverseRecOn with
    | nil => exact fun _ => rfl
    | append_singleton digits d ih =>
      intro h
      have hd := h d (by simp)
      have hrest := ih fun e he => h e (by simp [he])
      unfold Str.hexadecimal chars at hrest ⊢
      rw [List.map_append, List.foldl_append, hrest, hd]
      rfl
  exact hzero b.last b.zero.2

end DecodingProxy.Http
