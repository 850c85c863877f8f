import DecodingProxy.Http.HttpBody
import DecodingProxy.Lib.Runs
import DecodingProxy.Streams.ExtensionsForStream
import Mathlib.Data.List.TakeWhile

/-!
# `HttpBody.ReadChunks`

The lines, the data and the line ends of a chunked body are read one behind the other into a rented
array. There is made room for the data of a chunk and the line end behind them, and for the last
line end; nothing makes room for the line of a size.
-/

namespace DecodingProxy.Http
open DecodingProxy.Arrays DecodingProxy.Runs DecodingProxy.Runtime DecodingProxy.Streams

/-- The stream, and what `HttpBody` keeps while it reads from it. -/
structure ChunkReads where
  stream : NetworkStream
  buffer : List UInt8
  bufferLength : ℕ := 0

namespace HttpBody

def DEFAULT_SIZE_FIRST_LINE : ℕ := 128
def INITIAL_BUFFER_SIZE : ℕ := 2 ^ 20 * 8

end HttpBody

namespace ChunkReads
open HttpBody

/-- The pool takes back what it handed out. -/
def ensureSizeToAppend (pool : RentedArrays) (size : ℤ) (s : ChunkReads) :
    Except Fault ChunkReads :=
  let sizeTarget := int32 (s.bufferLength + size)
  if sizeTarget ≤ s.buffer.length then .ok s
  else do
    -- longer than any array that was rented before, so the pool may answer each call in its own way
    let newBuffer ← pool.rent sizeTarget
    let newBuffer ← arrayCopy s.buffer newBuffer s.bufferLength
    .ok { s with buffer := newBuffer }

def readCRLF (s : ChunkReads) : Except Fault ChunkReads := do
  let (buffer, stream) ← Streams.readCRLF s.stream s.buffer s.bufferLength
  .ok { stream, buffer, bufferLength := s.bufferLength + 2 }

/-- The line of a size, and the size. -/
def readSize (s : ChunkReads) : Except Fault (ℤ × ChunkReads) := do
  let line ← readLine s.stream DEFAULT_SIZE_FIRST_LINE s.buffer s.bufferLength
  if 0x3B ∈ line.text then
    .error (.thrown .notImplemented "There is no implementation for chunk extensions")
  else
    let size ← Str.parseHex line.text
    .ok (size, {
      stream := line.stream
      buffer := line.buffer
      bufferLength := s.bufferLength + line.bufferLength })

/-- The data of a chunk and the line end behind them. -/
def readData (pool : RentedArrays) (size : ℤ) (s : ChunkReads) : Except Halt ChunkReads := do
  let s ← (s.ensureSizeToAppend pool (int32 (size + 2))).mapError .threw
  let (buffer, stream) ← readForSure s.stream s.buffer s.bufferLength size
  (readCRLF { stream, buffer, bufferLength := s.bufferLength + size.toNat }).mapError .threw

/-- The loop, for at most so many turns. -/
def readLoop (pool : RentedArrays) : ℕ → ChunkReads → Except Halt ChunkReads
  | 0, _ => .error .diverges
  | fuel + 1, s => do
    let (size, s) ← s.readSize.mapError .threw
    if size = 0 then .ok s
    else
      let s ← s.readData pool size
      readLoop pool fuel s

/-- The line end behind the last chunk. -/
def readEnd (pool : RentedArrays) (s : ChunkReads) : Except Fault ChunkReads := do
  let s ← s.ensureSizeToAppend pool 2
  s.readCRLF

def readChunks (pool : RentedArrays) (fuel : ℕ) (s : ChunkReads) : Except Halt ChunkReads := do
  let s ← s.readLoop pool fuel
  (s.readEnd pool).mapError .threw

end ChunkReads

/-- Nothing was read into the body before. -/
def HttpBody.readChunks (pool : RentedArrays) (fuel : ℕ) (stream : NetworkStream) (b : HttpBody) :
    Except Halt (NetworkStream × HttpBody) := do
  let buffer ← (pool.rent HttpBody.INITIAL_BUFFER_SIZE).mapError .threw
  let s ← ChunkReads.readChunks pool fuel { stream, buffer }
  .ok (s.stream, { b with buffer := s.buffer, datas := s.buffer.take s.bufferLength })

/-! ### Chunked bodies -/

/-- Nothing, or white space and a semicolon before the name of the first extension. -/
def IsChunkExtensions (bytes : List UInt8) : Prop :=
  bytes = [] ∨ ∃ ows rest, IsOws ows ∧ bytes = ows ++ 0x3B :: rest ∧ CR ∉ rest ∧ LF ∉ rest

/-- The line of a size. -/
structure SizeLine where
  size : List UInt8
  extensions : List UInt8
  nonempty : size ≠ []
  digits : ∀ b ∈ size, (Str.hexValue b.toUInt16).isSome
  extended : IsChunkExtensions extensions

namespace SizeLine

def text (l : SizeLine) : List UInt8 := l.size ++ l.extensions

def bytes (l : SizeLine) : List UInt8 := l.text ++ CRLF

def value (l : SizeLine) : ℕ := Str.hexadecimal (chars l.size)

end SizeLine

structure SizedChunk where
  line : SizeLine
  data : List UInt8
  value : line.value = data.length
  nonempty : data ≠ []

def SizedChunk.bytes (c : SizedChunk) : List UInt8 := c.line.bytes ++ (c.data ++ CRLF)

/-- A chunked body with its extensions and its trailer section. -/
structure CodedBody where
  chunks : List SizedChunk
  last : SizeLine
  zero : last.value = 0
  trailers : List (List UInt8)
  fields : ∀ field ∈ trailers, field ≠ [] ∧ CR ∉ field ∧ LF ∉ field

def chunkBytes (chunks : List SizedChunk) : List UInt8 := (chunks.map SizedChunk.bytes).flatten

namespace CodedBody

/-- What is behind the last size. -/
def trailerSection (b : CodedBody) : List UInt8 := (b.trailers.map (· ++ CRLF)).flatten ++ CRLF

def bytes (b : CodedBody) : List UInt8 :=
  chunkBytes b.chunks ++ (b.last.bytes ++ b.trailerSection)

end CodedBody

/-- `ReadChunks` returns with exactly the body, and leaves what follows it in the stream. -/
def ReadsBody (pool : RentedArrays) (body : CodedBody) (following : List UInt8)
    (stream : NetworkStream) (b : HttpBody) : Prop :=
  ∃ fuel next after, b.readChunks pool fuel stream = .ok (next, after) ∧
    after.datas = body.bytes ∧ next.bytes = following

/-! ### Where a body fits -/

/-- The length of an array of which `target` bytes are asked for. -/
def grown (pool : RentedArrays) (length target : ℕ) : ℕ :=
  if target ≤ length then length else (pool.contents target).length

/-- The length of the array behind the chunks, the first of which begins at `offset`. -/
def capacity (pool : RentedArrays) : ℕ → ℕ → List SizedChunk → ℕ
  | length, _, [] => length
  | length, offset, c :: chunks =>
    capacity pool (grown pool length (offset + c.bytes.length)) (offset + c.bytes.length) chunks

/-- The line at the offset is one that `ReadLine` takes in an array of that length. -/
structure SizeLine.Fits (l : SizeLine) (offset length : ℕ) : Prop where
  plain : l.extensions = []
  short : l.text.length < HttpBody.DEFAULT_SIZE_FIRST_LINE
  index : offset + HttpBody.DEFAULT_SIZE_FIRST_LINE < 2 ^ 31
  room : offset + l.bytes.length ≤ length

namespace CodedBody

/-- The line of the first of the chunks, or else the last line. -/
def lineOf (b : CodedBody) : List SizedChunk → SizeLine
  | [] => b.last
  | c :: _ => c.line

/-- Each line fits the array that was rented for the chunks before it, nothing is behind a size or
the last line, and an array can hold the body. -/
structure Readable (pool : RentedArrays) (b : CodedBody) : Prop where
  lines : ∀ before after, b.chunks = before ++ after → (b.lineOf after).Fits
    (chunkBytes before).length
    (capacity pool (pool.contents HttpBody.INITIAL_BUFFER_SIZE).length 0 before)
  trailers : b.trailers = []
  fits : b.bytes.length ≤ arrayMaxLength

end CodedBody

/-! ### The line of a size -/

namespace SizeLine

theorem text_no_cr (l : SizeLine) : CR ∉ l.text := by
  intro hmem
  rcases List.mem_append.mp hmem with hsize | hext
  · have hdigit := l.digits CR hsize
    simp [CR, Str.hexValue] at hdigit
  · obtain hnil | ⟨ows, rest, hows, hbytes, hcr, -⟩ := l.extended
    · simp [hnil] at hext
    · rw [hbytes, List.mem_append, List.mem_cons] at hext
      rcases hext with h | h | h
      · have := hows CR h
        simp [CR] at this
      · simp [CR] at h
      · exact hcr h

/-- The text has a semicolon if there are extensions, and only then. -/
theorem semicolon_iff (l : SizeLine) : 0x3B ∈ chars l.text ↔ l.extensions ≠ [] := by
  have hchars : ∀ bytes : List UInt8, (0x3B : UInt16) ∈ chars bytes ↔ 0x3B ∈ bytes := by
    intro bytes
    refine ⟨fun h => ?_, fun h => List.mem_map_of_mem h⟩
    obtain ⟨b, hb, hchar⟩ := List.mem_map.mp h
    have heq : b = 0x3B := UInt8.toUInt16_inj.mp (hchar.trans (by decide))
    rwa [heq] at hb
  have hsize : (0x3B : UInt8) ∉ l.size := fun h => by
    have hdigit := l.digits _ h
    simp [Str.hexValue] at hdigit
  rw [hchars, text, List.mem_append, or_iff_right hsize]
  obtain hnil | ⟨ows, rest, -, hbytes, -, -⟩ := l.extended
  · simp [hnil]
  · simp [hbytes]

end SizeLine

/-- Hexadecimal digits without anything else. -/
theorem parseHex_digits {size : List UInt8} (hne : size ≠ [])
    (hdigits : ∀ b ∈ size, (Str.hexValue b.toUInt16).isSome) :
    Str.parseHex (chars size) =
      if 2 ^ 32 ≤ Str.hexadecimal (chars size) then .error (.raised .overflow)
      else .ok (int32 (Str.hexadecimal (chars size))) := by
  have hall : ∀ c ∈ chars size, (Str.hexValue c).isSome := by
    intro c hc
    obtain ⟨b, hb, rfl⟩ := List.mem_map.mp hc
    exact hdigits b hb
  have hwhite : (chars size).dropWhile Str.isWhite = chars size := by
    obtain ⟨b, more, rfl⟩ := List.exists_cons_of_ne_nil hne
    have hb := hexValue_not_white (hdigits b List.mem_cons_self)
    simp [chars, hb]
  have hchars : chars size ≠ [] := by simpa [chars] using hne
  unfold Str.parseHex
  rw [hwhite]
  simp only [List.takeWhile_eq_self_iff.mpr hall, List.dropWhile_eq_nil_iff.mpr hall]
  rw [if_neg (by simp [hchars, Str.isTrailing])]

theorem SizeLine.parseHex_text {l : SizeLine} (hplain : l.extensions = []) :
    Str.parseHex (chars l.text) =
      if 2 ^ 32 ≤ l.value then .error (.raised .overflow) else .ok (int32 l.value) := by
  rw [text, hplain, List.append_nil]
  exact parseHex_digits l.nonempty l.digits

/-! ### One turn -/

namespace ChunkReads
open HttpBody

/-- The bytes that were read are in the array, which has the length. -/
structure Holds (s : ChunkReads) (bytes : List UInt8) (length : ℕ) : Prop where
  count : s.bufferLength = bytes.length
  rented : s.buffer.length = length
  room : bytes.length ≤ length
  fits : length ≤ arrayMaxLength
  take : s.buffer.take bytes.length = bytes

theorem Holds.wrote {s : ChunkReads} {bytes : List UInt8} {length : ℕ} (h : s.Holds bytes length)
    {buffer data : List UInt8} (hwrote : Wrote s.buffer buffer s.bufferLength data)
    (hroom : bytes.length + data.length ≤ length) (stream : NetworkStream) {n : ℕ}
    (hn : n = data.length) :
    Holds { stream, buffer, bufferLength := s.bufferLength + n } (bytes ++ data) length where
  count := by simp [h.count, hn]
  rented := hwrote.length.trans h.rented
  room := by simpa using hroom
  fits := h.fits
  take := by
    have htake := hwrote.take
    rw [h.count, h.take] at htake
    simpa using htake

theorem Holds.index {s : ChunkReads} {bytes : List UInt8} {length : ℕ} (h : s.Holds bytes length) :
    s.bufferLength < 2 ^ 31 := by
  have hroom := h.room
  have hfits := h.fits
  rw [h.count]
  unfold arrayMaxLength at hfits
  omega

theorem readSize_ok {s : ChunkReads} {bytes rest : List UInt8} {length : ℕ} {l : SizeLine}
    (h : s.Holds bytes length) (hs : s.stream.bytes = l.bytes ++ rest)
    (hfits : l.Fits bytes.length length) (hvalue : l.value < 2 ^ 32) :
    ∃ s', s.readSize = .ok (int32 l.value, s') ∧ s'.Holds (bytes ++ l.bytes) length ∧
      s'.stream.bytes = rest := by
  have hlength : l.bytes.length = l.text.length + 2 := by simp [SizeLine.bytes, CRLF]
  have hroom := hfits.room
  rw [SizeLine.bytes, List.append_assoc] at hs
  obtain ⟨line, hline, htext, hlineLength, hwrote, hrest⟩ := readLine_ok hs l.text_no_cr hfits.short
    (h.count ▸ hfits.index) (by rw [h.count, h.rented]; omega)
  have hplain : (0x3B : UInt16) ∉ chars l.text := fun hmem => l.semicolon_iff.mp hmem hfits.plain
  refine ⟨_, ?_, h.wrote hwrote (by rwa [← SizeLine.bytes]) line.stream (hlineLength.trans
    hlength.symm), hrest⟩
  unfold readSize
  rw [hline]
  simp only [Except.bind, bind, htext, if_neg hplain]
  rw [SizeLine.parseHex_text hfits.plain, if_neg (Nat.not_le.mpr hvalue)]

theorem readSize_throws {s : ChunkReads} {bytes rest : List UInt8} {length : ℕ} {l : SizeLine}
    (h : s.Holds bytes length) (hs : s.stream.bytes = l.bytes ++ rest)
    (hnot : ¬ (l.Fits bytes.length length ∧ l.value < 2 ^ 32)) :
    ∃ fault, s.readSize = .error fault := by
  have hlength : l.bytes.length = l.text.length + 2 := by simp [SizeLine.bytes, CRLF]
  rw [SizeLine.bytes, List.append_assoc] at hs
  unfold readSize
  by_cases hread : l.text.length < DEFAULT_SIZE_FIRST_LINE ∧
      s.bufferLength + DEFAULT_SIZE_FIRST_LINE < 2 ^ 31 ∧
      s.bufferLength + l.text.length + 2 ≤ s.buffer.length
  · obtain ⟨hshort, hindex, hroom⟩ := hread
    obtain ⟨line, hline, htext, -, -, -⟩ := readLine_ok hs l.text_no_cr hshort hindex hroom
    rw [hline]
    simp only [Except.bind, bind, htext]
    by_cases hplain : l.extensions = []
    · have hfits : l.Fits bytes.length length := by
        refine ⟨hplain, hshort, h.count ▸ hindex, ?_⟩
        rw [← h.rented, ← h.count]
        omega
      have hvalue : 2 ^ 32 ≤ l.value := Nat.not_lt.mp fun hlt => hnot ⟨hfits, hlt⟩
      rw [if_neg fun hmem => l.semicolon_iff.mp hmem hplain, SizeLine.parseHex_text hplain,
        if_pos hvalue]
      exact ⟨_, rfl⟩
    · rw [if_pos (l.semicolon_iff.mpr hplain)]
      exact ⟨_, rfl⟩
  · obtain ⟨fault, hfault⟩ := readLine_throws hs l.text_no_cr h.index (by decide) hread
    rw [hfault]
    exact ⟨fault, rfl⟩

/-- Room for so many bytes, if an array can have it. -/
theorem ensureSizeToAppend_ok {s : ChunkReads} {bytes : List UInt8} {length n : ℕ}
    (h : s.Holds bytes length) (pool : RentedArrays) (hfits : bytes.length + n ≤ arrayMaxLength) :
    ∃ s', s.ensureSizeToAppend pool n = .ok s' ∧
      s'.Holds bytes (grown pool length (bytes.length + n)) ∧
      bytes.length + n ≤ grown pool length (bytes.length + n) ∧ s'.stream = s.stream := by
  have htarget : int32 (s.bufferLength + n) = (bytes.length + n : ℕ) := by
    unfold arrayMaxLength at hfits
    rw [h.count, int32_of_range (by omega) (by omega)]
    push_cast
    rfl
  unfold ensureSizeToAppend grown
  simp only [htarget, h.rented, Nat.cast_le]
  by_cases hroom : bytes.length + n ≤ length
  · simp only [if_pos hroom]
    exact ⟨s, rfl, h, hroom, rfl⟩
  · simp only [if_neg hroom, pool.rent_ok hfits, Except.bind, bind]
    have hlong := pool.le_length (bytes.length + n)
    have hsource : bytes.length ≤ s.buffer.length := h.rented ▸ h.room
    rw [h.count, arrayCopy_ok hsource (by omega), h.take]
    have hwrote : Wrote (pool.contents (bytes.length + n)) _ 0 bytes := wrote_writeAt (by omega)
    exact ⟨_, rfl, ⟨rfl, hwrote.length, by omega, pool.length_le _ hfits,
      by simpa using hwrote.take⟩, hlong, rfl⟩

/-- No array that is longer than an array can be. -/
theorem ensureSizeToAppend_length {s s' : ChunkReads} {bytes : List UInt8} {length : ℕ}
    (h : s.Holds bytes length) {pool : RentedArrays} {size : ℤ}
    (hcall : s.ensureSizeToAppend pool size = .ok s') :
    s'.buffer.length ≤ arrayMaxLength ∧ int32 (bytes.length + size) ≤ s'.buffer.length ∧
      s'.bufferLength = bytes.length ∧ s'.stream = s.stream := by
  unfold ensureSizeToAppend at hcall
  rw [h.count] at hcall
  simp only at hcall
  split_ifs at hcall with hroom
  · cases hcall
    exact ⟨h.rented ▸ h.fits, hroom, h.count, rfl⟩
  · cases hrent : pool.rent (int32 (bytes.length + size)) with
    | error fault =>
      rw [hrent] at hcall
      cases hcall
    | ok newBuffer =>
      obtain ⟨hpos, hmax, rfl⟩ := RentedArrays.rent_inv hrent
      rw [hrent] at hcall
      simp only [Except.bind, bind] at hcall
      cases hcopy : arrayCopy s.buffer (pool.contents (int32 (bytes.length + size)).toNat)
          bytes.length with
      | error fault =>
        rw [hcopy] at hcall
        cases hcall
      | ok copied =>
        rw [hcopy] at hcall
        cases hcall
        obtain ⟨-, -, hlength, -⟩ := arrayCopy_inv hcopy
        have hlong := pool.le_length (int32 (bytes.length + size)).toNat
        have hshort := pool.length_le (int32 (bytes.length + size)).toNat (by omega)
        exact ⟨hlength ▸ hshort, by rw [hlength]; omega, rfl, rfl⟩

theorem readCRLF_ok {s : ChunkReads} {bytes rest : List UInt8} {length : ℕ}
    (h : s.Holds bytes length) (hs : s.stream.bytes = CRLF ++ rest)
    (hroom : bytes.length + 2 ≤ length) :
    ∃ s', s.readCRLF = .ok s' ∧ s'.Holds (bytes ++ CRLF) length ∧ s'.stream.bytes = rest := by
  have hroom' : s.bufferLength + 2 ≤ s.buffer.length := by rwa [h.count, h.rented]
  obtain ⟨buffer, stream, hcall, hwrote, hrest⟩ := Streams.readCRLF_ok hs hroom'
  refine ⟨_, ?_, h.wrote hwrote hroom stream rfl, hrest⟩
  unfold readCRLF
  rw [hcall]
  rfl

theorem readData_ok {s : ChunkReads} {bytes data rest : List UInt8} {length : ℕ}
    (h : s.Holds bytes length) (pool : RentedArrays) (hs : s.stream.bytes = data ++ (CRLF ++ rest))
    (hne : data ≠ []) (hfits : bytes.length + (data ++ CRLF).length ≤ arrayMaxLength) :
    ∃ s', s.readData pool data.length = .ok s' ∧
      s'.Holds (bytes ++ (data ++ CRLF))
        (grown pool length (bytes.length + (data ++ CRLF).length)) ∧ s'.stream.bytes = rest := by
  have hlength : (data ++ CRLF).length = data.length + 2 := by simp [CRLF]
  rw [hlength] at hfits ⊢
  obtain ⟨s₁, hgrow, hs₁, hroom, hstream⟩ := ensureSizeToAppend_ok h pool hfits
  rw [← hstream] at hs
  have hroomData : s₁.bufferLength + data.length ≤ s₁.buffer.length := by
    rw [hs₁.count, hs₁.rented]
    omega
  obtain ⟨buffer, stream, hread, hwrote, hrest⟩ := readForSure_ok hs hne hroomData
  obtain ⟨s₂, hcrlf, hs₂, hend⟩ :=
    readCRLF_ok (hs₁.wrote hwrote (by omega) stream rfl) hrest (by rw [List.length_append]; omega)
  refine ⟨s₂, ?_, by rwa [← List.append_assoc], hend⟩
  have hsize : int32 ((data.length : ℤ) + 2) = (data.length + 2 : ℕ) := by
    unfold arrayMaxLength at hfits
    exact int32_of_range (by omega) (by omega)
  unfold readData
  rw [hsize, hgrow]
  simp only [Except.mapError, Except.bind, bind, hread, Int.toNat_natCast, hcrlf]

/-- A size with which the target exceeds an array, or wraps around. -/
theorem refused_of_long {offset n length : ℕ} (hsmall : n < 2 ^ 32)
    (hlong : arrayMaxLength < offset + n + 2) (hoffset : offset ≤ arrayMaxLength)
    (hlength : length ≤ arrayMaxLength) (htarget : int32 (offset + int32 (int32 n + 2)) ≤ length) :
    int32 n ≤ 0 ∨ (length : ℤ) < offset + int32 n := by
  unfold arrayMaxLength at hlong hoffset hlength
  by_cases hneg : 2 ^ 31 ≤ n
  · left
    rw [int32_of_wrap (by omega) (by omega)]
    omega
  right
  have hn : int32 n = n := int32_of_range (by omega) (by omega)
  rw [hn] at htarget ⊢
  by_cases hwrap : offset + n + 2 < 2 ^ 31
  · have hsize : int32 ((n : ℤ) + 2) = n + 2 := int32_of_range (by omega) (by omega)
    rw [hsize, int32_of_range (by omega) (by omega)] at htarget
    omega
  · omega

/-- Only data that an array can hold behind what was read. -/
theorem readData_inv {s s' : ChunkReads} {bytes : List UInt8} {length n : ℕ} {pool : RentedArrays}
    (h : s.Holds bytes length) (hsmall : n < 2 ^ 32) (hcall : s.readData pool (int32 n) = .ok s') :
    bytes.length + n + 2 ≤ arrayMaxLength := by
  by_contra hlong
  obtain ⟨s₁, hgrow, hcall⟩ := do_ok_iff.mp hcall
  obtain ⟨read, hread, -⟩ := do_ok_iff.mp hcall
  obtain ⟨hmax, htarget, hcount, -⟩ := ensureSizeToAppend_length h (mapError_ok_iff.mp hgrow)
  have hrefused : int32 n ≤ 0 ∨ (s₁.buffer.length : ℤ) < s₁.bufferLength + int32 n := by
    rw [hcount]
    exact refused_of_long hsmall (Nat.not_le.mp hlong) (h.room.trans h.fits) hmax htarget
  obtain ⟨halt, hhalt⟩ := readForSure_throws hrefused s₁.stream
  cases hread.symm.trans hhalt

/-! ### The loop -/

theorem readSize_inv {s s' : ChunkReads} {bytes rest : List UInt8} {length : ℕ} {l : SizeLine}
    {size : ℤ} (h : s.Holds bytes length) (hs : s.stream.bytes = l.bytes ++ rest)
    (hcall : s.readSize = .ok (size, s')) :
    l.Fits bytes.length length ∧ l.value < 2 ^ 32 ∧ size = int32 l.value ∧
      s'.Holds (bytes ++ l.bytes) length ∧ s'.stream.bytes = rest := by
  by_cases hfits : l.Fits bytes.length length ∧ l.value < 2 ^ 32
  · obtain ⟨s₁, hread, hs₁, hrest⟩ := readSize_ok h hs hfits.1 hfits.2
    obtain ⟨rfl, rfl⟩ := Prod.mk.inj (Except.ok.inj (hread.symm.trans hcall))
    exact ⟨hfits.1, hfits.2, rfl, hs₁, hrest⟩
  · obtain ⟨fault, hfault⟩ := readSize_throws h hs hfits
    cases hfault.symm.trans hcall

theorem readEnd_ok {s : ChunkReads} {bytes rest : List UInt8} {length : ℕ}
    (h : s.Holds bytes length) (pool : RentedArrays) (hs : s.stream.bytes = CRLF ++ rest)
    (hfits : bytes.length + 2 ≤ arrayMaxLength) :
    ∃ s' after, s.readEnd pool = .ok s' ∧ s'.Holds (bytes ++ CRLF) after ∧
      s'.stream.bytes = rest := by
  obtain ⟨s₁, hgrow, hs₁, hroom, hstream⟩ := ensureSizeToAppend_ok h pool hfits
  rw [Nat.cast_ofNat] at hgrow
  rw [← hstream] at hs
  obtain ⟨s₂, hcrlf, hs₂, hrest⟩ := readCRLF_ok hs₁ hs hroom
  refine ⟨s₂, _, ?_, hs₂, hrest⟩
  unfold readEnd
  rw [do_of_ok hgrow, hcrlf]

/-- A trailer section begins with another byte than the line end. -/
theorem readEnd_inv {s s' : ChunkReads} {bytes following : List UInt8} {length : ℕ}
    {pool : RentedArrays} {b : CodedBody} (h : s.Holds bytes length)
    (hs : s.stream.bytes = b.trailerSection ++ following) (hcall : s.readEnd pool = .ok s') :
    b.trailers = [] ∧ bytes.length + 2 ≤ arrayMaxLength := by
  obtain ⟨s₁, hgrow, hcall⟩ := do_ok_iff.mp hcall
  obtain ⟨hmax, htarget, -, hstream⟩ := ensureSizeToAppend_length h hgrow
  constructor
  · by_contra hne
    obtain ⟨field, more, htrailers⟩ := List.exists_cons_of_ne_nil hne
    obtain ⟨hfield, hcr, -⟩ := b.fields field (by simp [htrailers])
    obtain ⟨first, rest, rfl⟩ := List.exists_cons_of_ne_nil hfield
    have hfirst : first ≠ CR := Ne.symm (List.ne_of_not_mem_cons hcr)
    rw [CodedBody.trailerSection, htrailers, ← hstream] at hs
    obtain ⟨read, hread, -⟩ := do_ok_iff.mp hcall
    obtain ⟨fault, hfault⟩ := Streams.readCRLF_throws hs hfirst
    cases hread.symm.trans hfault
  · have hroom := h.room
    have hfits := h.fits
    unfold arrayMaxLength at *
    rw [int32_of_range (by omega) (by omega)] at htarget
    omega

/-- The turns: a size of zero ends the loop. -/
theorem readChunks_ok_iff {pool : RentedArrays} {s s' : ChunkReads} :
    (∃ fuel, s.readChunks pool fuel = .ok s') ↔ ∃ size s₁, s.readSize = .ok (size, s₁) ∧
      ((size = 0 ∧ s₁.readEnd pool = .ok s') ∨ size ≠ 0 ∧ ∃ s₂, s₁.readData pool size = .ok s₂ ∧
        ∃ fuel, s₂.readChunks pool fuel = .ok s') := by
  constructor
  · rintro ⟨fuel, hcall⟩
    obtain ⟨last, hloop, hend⟩ := do_ok_iff.mp hcall
    cases fuel with
    | zero => cases hloop
    | succ fuel =>
      obtain ⟨⟨size, s₁⟩, hsize, hloop⟩ := do_ok_iff.mp hloop
      refine ⟨size, s₁, mapError_ok_iff.mp hsize, ?_⟩
      simp only at hloop
      split_ifs at hloop with hzero
      · cases hloop
        exact .inl ⟨hzero, mapError_ok_iff.mp hend⟩
      · obtain ⟨s₂, hdata, hloop⟩ := do_ok_iff.mp hloop
        exact .inr ⟨hzero, s₂, hdata, fuel, do_ok_iff.mpr ⟨last, hloop, hend⟩⟩
  · rintro ⟨size, s₁, hsize, ⟨rfl, hend⟩ | ⟨hzero, s₂, hdata, fuel, hcall⟩⟩
    · refine ⟨1, do_ok_iff.mpr ⟨s₁, do_ok_iff.mpr ⟨(0, s₁), mapError_ok_iff.mpr hsize, rfl⟩,
        mapError_ok_iff.mpr hend⟩⟩
    · obtain ⟨last, hloop, hend⟩ := do_ok_iff.mp hcall
      refine ⟨fuel + 1, do_ok_iff.mpr ⟨last, ?_, hend⟩⟩
      refine do_ok_iff.mpr ⟨(size, s₁), mapError_ok_iff.mpr hsize, ?_⟩
      simp only
      rw [if_neg hzero, do_of_ok hdata, hloop]

/-- A chunk that fits is read in one turn. -/
theorem readChunks_chunk {s : ChunkReads} {bytes rest : List UInt8} {length : ℕ} {c : SizedChunk}
    (h : s.Holds bytes length) (pool : RentedArrays) (hs : s.stream.bytes = c.bytes ++ rest)
    (hfits : c.line.Fits bytes.length length)
    (hmax : bytes.length + c.bytes.length ≤ arrayMaxLength) :
    ∃ s₂ : ChunkReads,
      s₂.Holds (bytes ++ c.bytes) (grown pool length (bytes.length + c.bytes.length)) ∧
      s₂.stream.bytes = rest ∧ ∀ s', (∃ fuel, s.readChunks pool fuel = .ok s') ↔
        ∃ fuel, s₂.readChunks pool fuel = .ok s' := by
  have hpos := List.length_pos_iff.mpr c.nonempty
  have hlength : bytes.length + c.bytes.length =
      (bytes ++ c.line.bytes).length + (c.data ++ CRLF).length := by
    simp only [SizedChunk.bytes, List.length_append]
    omega
  have hdata : c.data.length < 2 ^ 31 := by
    have hcrlf : (c.data ++ CRLF).length = c.data.length + 2 := List.length_append
    unfold arrayMaxLength at hmax
    omega
  rw [SizedChunk.bytes, List.append_assoc, List.append_assoc] at hs
  obtain ⟨s₁, hsize, hs₁, hrest⟩ := readSize_ok h hs hfits (by rw [c.value]; omega)
  rw [c.value, int32_of_range (by omega) (by omega)] at hsize
  rw [hlength] at hmax ⊢
  obtain ⟨s₂, hread, hs₂, hend⟩ := readData_ok hs₁ pool hrest c.nonempty hmax
  rw [List.append_assoc] at hs₂
  refine ⟨s₂, hs₂, hend, fun s' => ?_⟩
  rw [readChunks_ok_iff]
  constructor
  · rintro ⟨size, t₁, ht₁, hturn⟩
    obtain ⟨rfl, rfl⟩ := Prod.mk.inj (Except.ok.inj (hsize.symm.trans ht₁))
    rcases hturn with ⟨hzero, -⟩ | ⟨-, t₂, ht₂, hcall⟩
    · omega
    · cases hread.symm.trans ht₂
      exact hcall
  · intro hcall
    exact ⟨_, s₁, hsize, .inr ⟨by omega, s₂, hread, hcall⟩⟩

/-- Only chunks that fit are read. -/
theorem fits_of_readChunks {s s' : ChunkReads} {bytes rest : List UInt8} {length : ℕ}
    {pool : RentedArrays} {c : SizedChunk} (h : s.Holds bytes length)
    (hs : s.stream.bytes = c.bytes ++ rest) (hcall : ∃ fuel, s.readChunks pool fuel = .ok s') :
    c.line.Fits bytes.length length ∧ bytes.length + c.bytes.length ≤ arrayMaxLength := by
  have hpos := List.length_pos_iff.mpr c.nonempty
  rw [SizedChunk.bytes, List.append_assoc] at hs
  obtain ⟨size, s₁, hsize, hturn⟩ := readChunks_ok_iff.mp hcall
  obtain ⟨hfits, hsmall, hvalue, hs₁, -⟩ := readSize_inv h hs hsize
  rw [c.value] at hsmall hvalue
  rw [hvalue] at hturn
  rcases hturn with ⟨hzero, -⟩ | ⟨-, s₂, hdata, -⟩
  · rw [int32_eq_iff (by omega) (by omega)] at hzero
    omega
  · have hmax := readData_inv hs₁ hsmall hdata
    refine ⟨hfits, ?_⟩
    simp only [SizedChunk.bytes, CRLF, List.length_append, List.length_cons,
      List.length_nil] at hmax ⊢
    omega

/-- The chunks, the last line and the last line end fit, from the offset on. -/
def RoomFrom (pool : RentedArrays) (b : CodedBody) : ℕ → ℕ → List SizedChunk → Prop
  | offset, length, [] => b.last.Fits offset length ∧ b.trailers = [] ∧
      offset + b.last.bytes.length + 2 ≤ arrayMaxLength
  | offset, length, c :: chunks => c.line.Fits offset length ∧
      offset + c.bytes.length ≤ arrayMaxLength ∧
      RoomFrom pool b (offset + c.bytes.length)
        (grown pool length (offset + c.bytes.length)) chunks

/-- The calls return, with the bytes in the array, and leave what follows in the stream. -/
def ReadsTo (pool : RentedArrays) (s : ChunkReads) (bytes following : List UInt8) : Prop :=
  ∃ s', (∃ fuel, s.readChunks pool fuel = .ok s') ∧ s'.buffer.take s'.bufferLength = bytes ∧
    s'.stream.bytes = following

theorem readsTo_last_iff {s : ChunkReads} {bytes following : List UInt8} {length : ℕ}
    {b : CodedBody} (h : s.Holds bytes length) (pool : RentedArrays)
    (hs : s.stream.bytes = b.last.bytes ++ (b.trailerSection ++ following)) :
    s.ReadsTo pool (bytes ++ (b.last.bytes ++ b.trailerSection)) following ↔
      RoomFrom pool b bytes.length length [] := by
  have hzero : int32 b.last.value = 0 := by
    rw [b.zero]
    rfl
  constructor
  · rintro ⟨s', hcall, -, -⟩
    obtain ⟨size, s₁, hsize, hturn⟩ := readChunks_ok_iff.mp hcall
    obtain ⟨hfits, -, hvalue, hs₁, hrest⟩ := readSize_inv h hs hsize
    rcases hturn with ⟨-, hend⟩ | ⟨hne, -⟩
    · obtain ⟨htrailers, hmax⟩ := readEnd_inv hs₁ hrest hend
      rw [List.length_append] at hmax
      exact ⟨hfits, htrailers, hmax⟩
    · exact absurd (hvalue.trans hzero) hne
  · rintro ⟨hfits, htrailers, hmax⟩
    obtain ⟨s₁, hsize, hs₁, hrest⟩ := readSize_ok h hs hfits (by rw [b.zero]; decide)
    have hsection : b.trailerSection = CRLF := by simp [CodedBody.trailerSection, htrailers]
    rw [hsection] at hrest ⊢
    obtain ⟨s₂, after, hend, hs₂, hfollowing⟩ :=
      readEnd_ok hs₁ pool hrest (by rwa [List.length_append])
    refine ⟨s₂, readChunks_ok_iff.mpr ⟨_, s₁, hsize, .inl ⟨hzero, hend⟩⟩, ?_, hfollowing⟩
    rw [hs₂.count, hs₂.take, List.append_assoc]

/-- From any chunk on, the rest of the body is read just if it fits. -/
theorem readsTo_iff (pool : RentedArrays) (b : CodedBody) (following : List UInt8)
    (chunks : List SizedChunk) : ∀ {s : ChunkReads} {bytes : List UInt8} {length : ℕ},
    s.Holds bytes length →
    s.stream.bytes = chunkBytes chunks ++ (b.last.bytes ++ (b.trailerSection ++ following)) →
    (s.ReadsTo pool (bytes ++ (chunkBytes chunks ++ (b.last.bytes ++ b.trailerSection))) following ↔
      RoomFrom pool b bytes.length length chunks) := by
  induction chunks with
  | nil => exact fun h hs => readsTo_last_iff h pool hs
  | cons c chunks ih =>
    intro s bytes length h hs
    have hbytes : chunkBytes (c :: chunks) = c.bytes ++ chunkBytes chunks := by
      simp [chunkBytes]
    rw [hbytes, List.append_assoc] at hs
    have hsame : ∀ read, bytes ++ (c.bytes ++ chunkBytes chunks ++ read) =
        bytes ++ c.bytes ++ (chunkBytes chunks ++ read) := by simp
    rw [RoomFrom, hbytes, hsame]
    constructor
    · rintro ⟨s', hcall, htake, hfollowing⟩
      obtain ⟨hfits, hmax⟩ := fits_of_readChunks h hs hcall
      obtain ⟨s₂, hs₂, hrest, hturn⟩ := readChunks_chunk h pool hs hfits hmax
      rw [← List.length_append] at hs₂ ⊢
      exact ⟨hfits, by rwa [List.length_append],
        (ih hs₂ hrest).mp ⟨s', (hturn s').mp hcall, htake, hfollowing⟩⟩
    · rintro ⟨hfits, hmax, hroom⟩
      obtain ⟨s₂, hs₂, hrest, hturn⟩ := readChunks_chunk h pool hs hfits hmax
      rw [← List.length_append] at hs₂ hroom
      obtain ⟨s', hcall, htake, hfollowing⟩ := (ih hs₂ hrest).mpr hroom
      exact ⟨s', (hturn s').mpr hcall, htake, hfollowing⟩

theorem roomFrom_iff {pool : RentedArrays} {b : CodedBody} {chunks : List SizedChunk} :
    ∀ {offset length : ℕ}, RoomFrom pool b offset length chunks ↔
      (∀ before after, chunks = before ++ after → (b.lineOf after).Fits
        (offset + (chunkBytes before).length) (capacity pool length offset before)) ∧
      b.trailers = [] ∧
      offset + (chunkBytes chunks).length + b.last.bytes.length + 2 ≤ arrayMaxLength := by
  induction chunks with
  | nil =>
    intro offset length
    refine and_congr ⟨fun h before after heq => ?_, fun h => h [] [] rfl⟩ Iff.rfl
    obtain ⟨rfl, rfl⟩ := List.append_eq_nil_iff.mp heq.symm
    exact h
  | cons c chunks ih =>
    intro offset length
    have hbytes : (chunkBytes (c :: chunks)).length =
        c.bytes.length + (chunkBytes chunks).length := by
      simp [chunkBytes]
    rw [RoomFrom, ih, hbytes]
    constructor
    · rintro ⟨hfits, -, hlines, htrailers, hmax⟩
      refine ⟨fun before after heq => ?_, htrailers, by omega⟩
      rcases List.cons_eq_append_iff.mp heq with ⟨rfl, rfl⟩ | ⟨before, rfl, hchunks⟩
      · exact hfits
      · have hline := hlines before after hchunks
        rwa [Nat.add_assoc, ← List.length_append] at hline
    · rintro ⟨hlines, htrailers, hmax⟩
      refine ⟨hlines [] _ rfl, by omega, fun before after heq => ?_, htrailers, by omega⟩
      have hline := hlines (c :: before) after (by rw [heq, List.cons_append])
      rw [Nat.add_assoc, ← List.length_append]
      exact hline

end ChunkReads

/-! ### The call -/

theorem readsBody_iff_room {pool : RentedArrays} {body : CodedBody} {following : List UInt8}
    {stream : NetworkStream} (hs : stream.bytes = body.bytes ++ following) (b : HttpBody) :
    ReadsBody pool body following stream b ↔ ChunkReads.RoomFrom pool body 0
      (pool.contents HttpBody.INITIAL_BUFFER_SIZE).length body.chunks := by
  have hinitial : HttpBody.INITIAL_BUFFER_SIZE ≤ arrayMaxLength := by decide
  have hstart : ChunkReads.Holds ⟨stream, pool.contents HttpBody.INITIAL_BUFFER_SIZE, 0⟩ []
      (pool.contents HttpBody.INITIAL_BUFFER_SIZE).length :=
    ⟨rfl, rfl, Nat.zero_le _, pool.length_le _ hinitial, rfl⟩
  rw [CodedBody.bytes, List.append_assoc, List.append_assoc] at hs
  have hreads := ChunkReads.readsTo_iff pool body following body.chunks hstart hs
  rw [List.length_nil] at hreads
  rw [← hreads]
  have hrent : (pool.rent HttpBody.INITIAL_BUFFER_SIZE).mapError Halt.threw =
      .ok (pool.contents HttpBody.INITIAL_BUFFER_SIZE) :=
    mapError_ok_iff.mpr (pool.rent_ok hinitial)
  constructor
  · rintro ⟨fuel, next, after, hcall, hdatas, hnext⟩
    unfold HttpBody.readChunks at hcall
    rw [do_of_ok hrent] at hcall
    obtain ⟨s', hs', hafter⟩ := do_ok_iff.mp hcall
    obtain ⟨rfl, rfl⟩ := Prod.mk.inj (Except.ok.inj hafter)
    exact ⟨s', ⟨fuel, hs'⟩, hdatas, hnext⟩
  · rintro ⟨s', ⟨fuel, hs'⟩, hdatas, hnext⟩
    refine ⟨fuel, s'.stream,
      { b with buffer := s'.buffer, datas := s'.buffer.take s'.bufferLength }, ?_, hdatas, hnext⟩
    unfold HttpBody.readChunks
    rw [do_of_ok hrent]
    exact do_ok_iff.mpr ⟨s', hs', rfl⟩

/-- However the stream is split, the body is read just if each line of a size fits what is left of
the array, and there are neither extensions nor trailers. -/
theorem readsBody_iff {pool : RentedArrays} {body : CodedBody} {following : List UInt8}
    {stream : NetworkStream} (hs : stream.bytes = body.bytes ++ following) (b : HttpBody) :
    ReadsBody pool body following stream b ↔ body.Readable pool := by
  rw [readsBody_iff_room hs, ChunkReads.roomFrom_iff]
  simp only [Nat.zero_add]
  have hlength : body.trailers = [] → body.bytes.length =
      (chunkBytes body.chunks).length + body.last.bytes.length + 2 := by
    intro htrailers
    simp [CodedBody.bytes, CodedBody.trailerSection, htrailers, CRLF, Nat.add_assoc]
  constructor
  · rintro ⟨hlines, htrailers, hmax⟩
    exact ⟨hlines, htrailers, by rwa [hlength htrailers]⟩
  · rintro ⟨hlines, htrailers, hmax⟩
    exact ⟨hlines, htrailers, by rwa [← hlength htrailers]⟩

/-- A size of the digit without extensions. -/
def SizeLine.ofDigit (digit : UInt8) (h : (Str.hexValue digit.toUInt16).isSome) : SizeLine where
  size := [digit]
  extensions := []
  nonempty := List.cons_ne_nil _ _
  digits := by simpa using h
  extended := .inl rfl

/-- One byte in one chunk. -/
def oneByte : CodedBody where
  chunks := [⟨.ofDigit 0x31 (by decide), [0x41], by decide, by decide⟩]
  last := .ofDigit 0x30 (by decide)
  zero := by decide
  trailers := []
  fields := by simp

theorem readsBody_iff_oneByte :
    ReadsBody .exact oneByte [0x42] ⟨[oneByte.bytes ++ [0x42]], by decide⟩ {} ↔
      oneByte.Readable .exact :=
  readsBody_iff (by decide) {}

/-- The first chunk fills an array of the initial size, with the line of its size and with its line
end. -/
def fullChunk : SizedChunk where
  line := {
    size := asciiBytes "7FFFF6"
    extensions := []
    nonempty := by decide
    digits := by decide
    extended := .inl rfl }
  data := List.replicate 0x7FFFF6 0
  value := by
    rw [List.length_replicate]
    decide
  nonempty := by
    rw [ne_eq, List.replicate_eq_nil_iff]
    decide

theorem fullChunk_length : fullChunk.bytes.length = 2 ^ 23 := by
  have hline : fullChunk.line.bytes.length = 8 := by decide
  have hdata : fullChunk.data.length = 0x7FFFF6 := List.length_replicate
  rw [SizedChunk.bytes, List.length_append, List.length_append, hline, hdata]
  decide

def fullBuffer : CodedBody where
  chunks := [fullChunk]
  last := .ofDigit 0x30 (by decide)
  zero := by decide
  trailers := []
  fields := by simp

theorem rentLength_initial : rentLength HttpBody.INITIAL_BUFFER_SIZE = 2 ^ 23 := by
  have hsize : HttpBody.INITIAL_BUFFER_SIZE = 2 ^ 23 := by decide
  have hlog : Nat.clog 2 (2 ^ 23) = 23 := Nat.clog_pow 2 23 (by decide)
  rw [hsize, rentLength, if_neg (by decide), if_pos (by decide), hlog]
  decide

/-- The shared pool gives an array of just the initial size, and the line of the last chunk begins
where it ends. -/
theorem not_readsBody : ¬ ∀ (pool : RentedArrays) (body : CodedBody) (following : List UInt8)
    (stream : NetworkStream) (b : HttpBody), stream.bytes = body.bytes ++ following →
    ReadsBody pool body following stream b := by
  intro h
  have hne : ∀ piece ∈ [fullBuffer.bytes], piece ≠ [] := by
    simp [CodedBody.bytes, CodedBody.trailerSection, CRLF]
  have hs : NetworkStream.bytes ⟨[fullBuffer.bytes], hne⟩ = fullBuffer.bytes ++ [] :=
    List.flatten_singleton.trans (List.append_nil _).symm
  obtain ⟨-, -, hlast, -⟩ :=
    (readsBody_iff_room hs {}).mp (h ArrayPool.zeroed.rentedArrays _ _ _ _ hs)
  have hroom := hlast.room
  have hrented : (ArrayPool.zeroed.rentedArrays.contents HttpBody.INITIAL_BUFFER_SIZE).length =
      2 ^ 23 := (ArrayPool.zeroed.contents_length _).trans rentLength_initial
  have hline : fullBuffer.last.bytes.length = 3 := by decide
  rw [fullChunk_length, hrented, grown, if_pos (Nat.zero_add _).le, hline] at hroom
  omega

end DecodingProxy.Http
