import DecodingProxy.Http.ChunkedReading
import DecodingProxy.Piped.ObjectReaderHttp11Piped

/-!
# Chunked bodies through `ReadBodyChunkedV1`

A turn that finds no line end goes back to the read without `AdvanceTo`, and the line end
after the data of a chunk is taken from the buffer without a look at its length. So the
body is framed exactly when every read that begins at a size holds the whole line of it,
and no read ends at the end of a chunk's data or between the CR and the LF after them.
-/

namespace DecodingProxy.Piped
open DecodingProxy.Runtime DecodingProxy.Lines DecodingProxy.Runs DecodingProxy.Http
open ConstantsForHttp

/-- A call that has read nothing yet. -/
def ChunkedBodyRead.start (item : HttpBinaryMapped) : ChunkedBodyRead := { loop := { item } }

/-- The reads deliver the body; then the call is given as many turns as it takes. -/
def FramesBody (pool : ArrayPool) (item : HttpBinaryMapped) (body : ChunkedBody)
    (d : Delivery body.bytes) : Prop :=
  ∃ turns r, run (ChunkedBodyRead.step pool) (.start item)
      (d.reads ++ List.replicate turns []) = .ok r ∧
    r.loop.isEnd = true ∧ r.loop.item.memory = item.memory ++ body.bytes ∧
    r.pipe.consumed = body.bytes.length ∧ r.pipe.pending = d.following

/-- Of `held` bytes that begin with `left` bytes of data, the data are not the whole, nor are
they with one byte of their line end. -/
def Encloses (left : ℤ) (held : ℕ) : Prop := held < left ∨ left + LENGTH_LF ≤ held

/-- The read does not end where the loop cannot go on. -/
def ReadsWhole (r : ChunkedBodyRead) (arrived : List UInt8) : Prop :=
  let buffer := r.pipe.pending ++ arrived
  r.loop.isEnd = true ∨ buffer = [] ∨
    if r.loop.isReadingControl then
      ∃ controline more, lines LF buffer = controline :: more ∧
        ∀ size, Str.parseHex (chars controline) = .ok size →
          Encloses size (buffer.drop controline.length).length
    else Encloses r.loop.lengthLeft buffer.length

/-! ### What is added to the item -/

/-- `taken` was added to the bytes of the item. -/
structure Appends (taken : List UInt8) (item item' : HttpBinaryMapped) : Prop where
  wellFormed : item'.WellFormed
  length : item'.length = item.length + taken.length
  memory : item'.memory = item.memory ++ taken

theorem HttpBinaryMapped.Added.appends {seq : List UInt8} {item item' : HttpBinaryMapped}
    (h : HttpBinaryMapped.Added seq item item') : Appends seq item item' :=
  ⟨h.wellFormed, h.length, h.memory⟩

theorem Appends.trans {as bs : List UInt8} {x y z : HttpBinaryMapped} (h : Appends as x y)
    (h' : Appends bs y z) : Appends (as ++ bs) x z := by
  refine ⟨h'.wellFormed, ?_, ?_⟩
  · rw [h'.length, h.length, List.length_append, Nat.add_assoc]
  · rw [h'.memory, h.memory, List.append_assoc]

theorem Appends.bodyEnd {as : List UInt8} {x y : HttpBinaryMapped} (h : Appends as x y) :
    Appends as x y.bodyEnd :=
  ⟨⟨h.wellFormed.room, h.wellFormed.fits, h.wellFormed.returnable⟩, h.length, h.memory⟩

/-! ### One turn -/

/-- What a call between two turns still has to read. -/
inductive Expects (s : ChunkedBodyLoop) : List UInt8 → Prop
  | control (body : ChunkedBody) (hcontrol : s.isReadingControl = true)
      (henclosure : s.isReadingEnclosure = false) (hend : s.isEnd = false) : Expects s body.bytes
  | chunk (data : List UInt8) (body : ChunkedBody) (hdata : data ≠ [])
      (hcontrol : s.isReadingControl = false) (hchunk : s.isReadingChunk = true)
      (henclosure : s.isReadingEnclosure = false) (hend : s.isEnd = false)
      (hleft : s.lengthLeft = data.length) : Expects s (data ++ (CRLF ++ body.bytes))
  | done (hend : s.isEnd = true) : Expects s []

namespace ChunkedBodyLoop

/-- The state after a part of a chunk went to the item. -/
def afterChunk (item : HttpBinaryMapped) (lengthLoop : ℕ) (s : ChunkedBodyLoop) :
    ChunkedBodyLoop :=
  let isReadingEnclosure := decide (s.lengthLeft - lengthLoop = 0) || s.isReadingEnclosure
  { s with
    item
    lengthLeft := s.lengthLeft - lengthLoop
    isReadingEnclosure
    isReadingChunk := !isReadingEnclosure }

/-- The state after the line end. -/
def afterEnclosure (item : HttpBinaryMapped) (s : ChunkedBodyLoop) : ChunkedBodyLoop :=
  { s with item, isReadingControl := true, isReadingEnclosure := false }

theorem readEnclosure_ok (pool : ArrayPool) {s : ChunkedBodyLoop} (hitem : s.item.WellFormed)
    (henclosure : s.isReadingEnclosure = true) (buffer : List UInt8)
    (hfits : s.item.length + CRLF.length ≤ arrayMaxLength) :
    ∃ item, s.readEnclosure pool (CRLF ++ buffer) = .ok (s.afterEnclosure item, buffer) ∧
      Appends CRLF s.item item := by
  obtain ⟨item, hadd, hadded⟩ := HttpBinaryMapped.addBodyForSure_ok pool _ hitem hfits
  have hto : sliceTo (CRLF ++ buffer) LENGTH_LF = .ok CRLF := sliceTo_append CRLF buffer
  have hfrom : sliceFrom (CRLF ++ buffer) LENGTH_LF = .ok buffer := sliceFrom_append CRLF buffer
  refine ⟨item, ?_, hadded.appends⟩
  unfold readEnclosure
  rw [if_pos henclosure]
  exact do_ok_iff.mpr ⟨_, hto, do_ok_iff.mpr ⟨_, hadd, do_ok_iff.mpr ⟨_, hfrom, rfl⟩⟩⟩

theorem readEnclosure_skip {pool : ArrayPool} {s : ChunkedBodyLoop}
    (henclosure : s.isReadingEnclosure = false) (buffer : List UInt8) :
    s.readEnclosure pool buffer = .ok (s, buffer) := by
  rw [readEnclosure, if_neg (by simp [henclosure])]

theorem readChunk_ok (pool : ArrayPool) {s : ChunkedBodyLoop} (hitem : s.item.WellFormed)
    (hchunk : s.isReadingChunk = true) (slice buffer : List UInt8)
    (hfits : s.item.length + slice.length ≤ arrayMaxLength) :
    ∃ item, s.readChunk pool slice.length (slice ++ buffer) =
        .ok (s.afterChunk item slice.length, buffer) ∧ Appends slice s.item item := by
  obtain ⟨item, hadd, hadded⟩ := HttpBinaryMapped.addBodyForSure_ok pool _ hitem hfits
  refine ⟨item, ?_, hadded.appends⟩
  unfold readChunk
  rw [if_pos hchunk]
  exact do_ok_iff.mpr ⟨_, sliceTo_append slice buffer, do_ok_iff.mpr ⟨_, hadd,
    do_ok_iff.mpr ⟨_, sliceFrom_append slice buffer, rfl⟩⟩⟩

section Data
variable (pool : ArrayPool) {s : ChunkedBodyLoop} (hitem : s.item.WellFormed)
  (hcontrol : s.isReadingControl = false) (hchunk : s.isReadingChunk = true)
  (henclosure : s.isReadingEnclosure = false) (hend : s.isEnd = false)
  {data : List UInt8} (hleft : s.lengthLeft = data.length)
include hitem hcontrol hchunk henclosure hend hleft

/-- A buffer that ends within the data of the chunk goes to the item as a whole. -/
theorem readData_part (body : ChunkedBody) {buffer more : List UInt8}
    (hmore : data = buffer ++ more) (hne : more ≠ [])
    (hfits : s.item.length + data.length ≤ arrayMaxLength) :
    ∃ s', (s.readChunk pool buffer.length buffer >>= fun r => r.1.readEnclosure pool r.2) =
        .ok (s', []) ∧
      Appends buffer s.item s'.item ∧ Expects s' (more ++ (CRLF ++ body.bytes)) := by
  have hpos := List.length_pos_iff.mpr hne
  have hlength : data.length = buffer.length + more.length := by simp [hmore]
  obtain ⟨item, hok, happends⟩ := readChunk_ok pool hitem hchunk buffer [] (by omega)
  rw [List.append_nil] at hok
  have henc : (s.afterChunk item buffer.length).isReadingEnclosure = false := by
    have hnot : ¬ ((data.length : ℤ) - buffer.length = 0) := by omega
    simp [afterChunk, hleft, hnot, henclosure]
  refine ⟨s.afterChunk item buffer.length, ?_, happends,
    .chunk more body hne hcontrol ?_ henc hend ?_⟩
  · exact do_ok_iff.mpr ⟨_, hok, readEnclosure_skip henc _⟩
  · simpa [afterChunk] using henc
  · simp only [afterChunk, hleft, hlength]
    omega

omit hcontrol henclosure in
/-- A buffer that holds the line end after the data loses the data and the line end. -/
theorem readData_whole (body : ChunkedBody) (rest : List UInt8)
    (hfits : s.item.length + (data ++ CRLF).length ≤ arrayMaxLength) :
    ∃ s', (s.readChunk pool data.length (data ++ (CRLF ++ rest)) >>= fun r =>
        r.1.readEnclosure pool r.2) = .ok (s', rest) ∧
      Appends (data ++ CRLF) s.item s'.item ∧ Expects s' body.bytes := by
  simp only [List.length_append] at hfits
  obtain ⟨item, hok, happends⟩ :=
    readChunk_ok pool hitem hchunk data (CRLF ++ rest) (by omega)
  have henc : (s.afterChunk item data.length).isReadingEnclosure = true := by
    simp [afterChunk, hleft]
  obtain ⟨item', hok', happends'⟩ := readEnclosure_ok pool
    (s := s.afterChunk item data.length) happends.wellFormed henc rest
    (by rw [show (s.afterChunk item data.length).item = item from rfl, happends.length]; omega)
  exact ⟨(s.afterChunk item data.length).afterEnclosure item',
    do_ok_iff.mpr ⟨_, hok, hok'⟩, happends.trans happends', .control body rfl rfl hend⟩

theorem readData {body : ChunkedBody} {buffer future following : List UInt8}
    (hstream : buffer ++ future = data ++ (CRLF ++ body.bytes) ++ following)
    (hfits : s.item.length + (data ++ CRLF).length ≤ arrayMaxLength)
    (hread : Encloses data.length buffer.length) :
    ∃ s' buffer' taken left',
      (s.readChunk pool (if buffer.length < s.lengthLeft then buffer.length else s.lengthLeft)
        buffer >>= fun r => r.1.readEnclosure pool r.2) = .ok (s', buffer') ∧
      buffer = taken ++ buffer' ∧ data ++ (CRLF ++ body.bytes) = taken ++ left' ∧
      Appends taken s.item s'.item ∧ Expects s' left' ∧ (buffer ≠ [] → taken ≠ []) := by
  have hbuffer : buffer <+: data ++ (CRLF ++ body.bytes) ++ following :=
    hstream ▸ List.prefix_append buffer future
  rcases hread with hshort | hlong
  · -- all of the buffer is data
    rw [hleft, if_pos hshort]
    obtain ⟨more, hmore⟩ : buffer <+: data := by
      refine List.prefix_of_prefix_length_le hbuffer ?_ (by omega)
      rw [List.append_assoc]
      exact List.prefix_append _ _
    have hne : more ≠ [] := by
      rintro rfl
      rw [← hmore] at hshort
      simp at hshort
    obtain ⟨s', hok, happends, hexpects⟩ := readData_part pool hitem hcontrol hchunk henclosure
      hend hleft body hmore.symm hne (by rw [List.length_append] at hfits; omega)
    refine ⟨s', [], buffer, more ++ (CRLF ++ body.bytes), hok, (List.append_nil _).symm, ?_,
      happends, hexpects, id⟩
    rw [← hmore, List.append_assoc]
  · -- the buffer holds the line end after the data
    have hheld : (data ++ CRLF).length ≤ buffer.length := by
      simp only [LENGTH_LF] at hlong
      rw [List.length_append, show CRLF.length = 2 from rfl]
      omega
    obtain ⟨rest, rfl⟩ : data ++ CRLF <+: buffer := by
      refine List.prefix_of_prefix_length_le ?_ hbuffer hheld
      simp only [List.append_assoc]
      rw [← List.append_assoc]
      exact List.prefix_append _ _
    have hnot : ¬ (((data ++ CRLF ++ rest).length : ℤ) < data.length) := by
      simp only [List.length_append]
      omega
    rw [hleft, if_neg hnot]
    obtain ⟨s', hok, happends, hexpects⟩ := readData_whole pool hitem hchunk hend hleft
      body rest hfits
    refine ⟨s', rest, data ++ CRLF, body.bytes, ?_, rfl, ?_, happends, hexpects, ?_⟩
    · rw [List.append_assoc]
      exact hok
    · rw [List.append_assoc]
    · intro _
      simp [CRLF]

end Data

/-- The state after the line of the size of a chunk. -/
def afterSize (item : HttpBinaryMapped) (chunkLength : ℤ) (s : ChunkedBodyLoop) :
    ChunkedBodyLoop :=
  { s with item, isReadingControl := false, isReadingChunk := true, lengthLeft := chunkLength }

/-- The state after the line of the last size. -/
def afterLastSize (item : HttpBinaryMapped) (s : ChunkedBodyLoop) : ChunkedBodyLoop :=
  { s with
    item := item.bodyEnd, isReadingControl := false, isReadingEnclosure := true, isEnd := true }

section Control
variable {pool : ArrayPool} {s : ChunkedBodyLoop} {controline : List UInt8}
  {item : HttpBinaryMapped} (hadd : s.item.addBodyForSure pool controline = .ok item)
include hadd

theorem readControl_last (hparse : Str.parseHex (chars controline) = .ok 0)
    (buffer : List UInt8) :
    s.readControl pool controline buffer = (s.afterLastSize item).readEnclosure pool buffer := by
  unfold readControl
  rw [do_of_ok hadd, do_of_ok hparse, if_pos rfl]
  rfl

theorem readControl_size {chunkLength : ℤ}
    (hparse : Str.parseHex (chars controline) = .ok chunkLength) (hne : chunkLength ≠ 0)
    (buffer : List UInt8) :
    s.readControl pool controline buffer =
      ((s.afterSize item chunkLength).readChunk pool
        (if buffer.length < chunkLength then buffer.length else chunkLength) buffer >>=
        fun r => r.1.readEnclosure pool r.2) := by
  unfold readControl
  rw [do_of_ok hadd, do_of_ok hparse, if_neg hne]
  rfl

end Control

/-- Bytes off the front of the buffer were those the body goes on with. -/
def Progresses (s : ChunkedBodyLoop) (buffer left : List UInt8)
    (result : Except Fault (ChunkedBodyLoop × List UInt8)) : Prop :=
  ∃ s' buffer' taken left', result = .ok (s', buffer') ∧ buffer = taken ++ buffer' ∧
    left = taken ++ left' ∧ Appends taken s.item s'.item ∧ Expects s' left' ∧ taken ≠ []

section Control
variable (pool : ArrayPool) {s : ChunkedBodyLoop} (hitem : s.item.WellFormed)
  {buffer future following controline : List UInt8} {more : List (List UInt8)}
  (hlines : lines LF buffer = controline :: more)
  (hread : ∀ size, Str.parseHex (chars controline) = .ok size →
    Encloses size (buffer.drop controline.length).length)
include hitem hlines hread

theorem readControl_lastSize {last : List UInt8} (zero : last ≠ [] ∧ ∀ b ∈ last, b = 0x30)
    (hstream : buffer ++ future = (ChunkedBody.mk [] last zero).bytes ++ following)
    (hfits : s.item.length + (ChunkedBody.mk [] last zero).bytes.length ≤ arrayMaxLength) :
    Progresses s buffer (ChunkedBody.mk [] last zero).bytes
      (s.readControl pool controline (buffer.drop controline.length)) := by
  have hheld : lines LF buffer ≠ [] := by simp [hlines]
  have hdigits := (ChunkedBody.mk [] last zero).last_digits
  have hline : IsLine LF (last ++ CRLF) := isLine_sizeLine hdigits
  have hbytes : (ChunkedBody.mk [] last zero).bytes = last ++ CRLF ++ CRLF := rfl
  have hparse : Str.parseHex (chars (last ++ CRLF)) = .ok 0 := by
    have hvalue := (ChunkedBody.mk [] last zero).last_value
    rw [parseHex_sizeLine zero.1 hdigits (by rw [hvalue]; decide), hvalue]
    rfl
  rw [hbytes] at hstream hfits ⊢
  rw [List.append_assoc] at hstream
  obtain ⟨rest, rfl⟩ := line_of_lines_ne_nil hline hstream hheld
  obtain ⟨rfl, -⟩ := List.cons.inj ((lines_line hline rest).symm.trans hlines)
  rw [List.drop_left] at hread ⊢
  have hlong : 2 ≤ rest.length := by
    rcases hread 0 hparse with h | h
    · omega
    · simp only [LENGTH_LF] at h
      omega
  obtain ⟨rest', rfl⟩ : ∃ rest', rest = CRLF ++ rest' := by
    have htail : rest ++ future = CRLF ++ following := by
      rw [List.append_assoc] at hstream
      exact List.append_cancel_left hstream
    have hp : CRLF <+: rest := List.prefix_of_prefix_length_le
      (htail ▸ List.prefix_append CRLF following) (List.prefix_append rest future) hlong
    obtain ⟨rest', hrest⟩ := hp
    exact ⟨rest', hrest.symm⟩
  simp only [List.length_append] at hfits
  obtain ⟨item, hadd, hadded⟩ := HttpBinaryMapped.addBodyForSure_ok pool
    (last ++ CRLF) hitem (by simp only [List.length_append]; omega)
  have happends := hadded.appends.bodyEnd
  have hroom : item.bodyEnd.length + CRLF.length ≤ arrayMaxLength := by
    rw [happends.length, List.length_append]
    omega
  obtain ⟨item', hok, happends'⟩ := readEnclosure_ok pool (s := s.afterLastSize item)
    happends.wellFormed rfl rest' hroom
  refine ⟨(s.afterLastSize item).afterEnclosure item', rest', last ++ CRLF ++ CRLF, [], ?_, ?_,
    (List.append_nil _).symm, happends.trans happends', .done rfl, ?_⟩
  · rw [readControl_last hadd hparse, hok]
  · rw [List.append_assoc (last ++ CRLF)]
  · simp [CRLF]

theorem readControl_chunkSize (henclosure : s.isReadingEnclosure = false) (hend : s.isEnd = false)
    {c : Chunk} {chunks : List Chunk} {last : List UInt8}
    (zero : last ≠ [] ∧ ∀ b ∈ last, b = 0x30)
    (hstream : buffer ++ future = (ChunkedBody.mk (c :: chunks) last zero).bytes ++ following)
    (hfits : s.item.length + (ChunkedBody.mk (c :: chunks) last zero).bytes.length ≤
      arrayMaxLength) :
    Progresses s buffer (ChunkedBody.mk (c :: chunks) last zero).bytes
      (s.readControl pool controline (buffer.drop controline.length)) := by
  have hsmall : arrayMaxLength < 2 ^ 31 := by decide
  have hheld : lines LF buffer ≠ [] := by simp [hlines]
  have hline : IsLine LF (c.size ++ CRLF) := isLine_sizeLine c.digits
  have hbytes : (ChunkedBody.mk (c :: chunks) last zero).bytes =
      c.size ++ CRLF ++ (c.data ++ (CRLF ++ (ChunkedBody.mk chunks last zero).bytes)) := by
    simp [ChunkedBody.bytes, Chunk.bytes]
  rw [hbytes] at hstream hfits ⊢
  rw [List.append_assoc] at hstream
  obtain ⟨rest, rfl⟩ := line_of_lines_ne_nil hline hstream hheld
  obtain ⟨rfl, -⟩ := List.cons.inj ((lines_line hline rest).symm.trans hlines)
  rw [List.drop_left] at hread ⊢
  simp only [List.length_append] at hfits
  have hvalue : Str.hexadecimal (chars c.size) = c.data.length := c.value
  have hparse : Str.parseHex (chars (c.size ++ CRLF)) = .ok (c.data.length : ℤ) := by
    rw [parseHex_sizeLine (Chunk.size_ne_nil c) c.digits (by omega), hvalue]
  have hdata := List.length_pos_iff.mpr c.nonempty
  obtain ⟨item, hadd, hadded⟩ := HttpBinaryMapped.addBodyForSure_ok pool
    (c.size ++ CRLF) hitem (by simp only [List.length_append]; omega)
  have htail : rest ++ future =
      c.data ++ (CRLF ++ (ChunkedBody.mk chunks last zero).bytes) ++ following := by
    rw [List.append_assoc (c.size ++ CRLF)] at hstream
    exact List.append_cancel_left hstream
  have hroom : item.length + (c.data ++ CRLF).length ≤ arrayMaxLength := by
    rw [hadded.length]
    simp only [List.length_append]
    omega
  obtain ⟨s', buffer', taken, left', hok, hbuffer, hleft', happends, hexpects, -⟩ :=
    readData pool (s := s.afterSize item c.data.length) hadded.wellFormed rfl rfl
      henclosure hend rfl htail hroom (hread _ hparse)
  refine ⟨s', buffer', c.size ++ CRLF ++ taken, left', ?_, ?_, ?_,
    hadded.appends.trans happends, hexpects, ?_⟩
  · have hzero : (c.data.length : ℤ) ≠ 0 := by omega
    rw [readControl_size hadd hparse hzero]
    exact hok
  · rw [hbuffer, List.append_assoc (c.size ++ CRLF)]
  · rw [hleft', List.append_assoc (c.size ++ CRLF)]
  · simp [CRLF]

theorem readControl_ok (henclosure : s.isReadingEnclosure = false) (hend : s.isEnd = false)
    (body : ChunkedBody) (hstream : buffer ++ future = body.bytes ++ following)
    (hfits : s.item.length + body.bytes.length ≤ arrayMaxLength) :
    Progresses s buffer body.bytes
      (s.readControl pool controline (buffer.drop controline.length)) := by
  obtain ⟨chunks, last, zero⟩ := body
  cases chunks with
  | nil => exact readControl_lastSize pool hitem hlines hread zero hstream hfits
  | cons c chunks =>
    exact readControl_chunkSize pool hitem hlines hread henclosure hend zero hstream hfits

end Control

theorem turn_ok (pool : ArrayPool) {s : ChunkedBodyLoop} (hitem : s.item.WellFormed)
    {left : List UInt8} (hexpects : Expects s left) (hopen : s.isEnd = false)
    {buffer future following : List UInt8} (hne : buffer ≠ [])
    (hstream : buffer ++ future = left ++ following)
    (hfits : s.item.length + left.length ≤ arrayMaxLength)
    (hread : if s.isReadingControl then
        ∃ controline more, lines LF buffer = controline :: more ∧
          ∀ size, Str.parseHex (chars controline) = .ok size →
            Encloses size (buffer.drop controline.length).length
      else Encloses s.lengthLeft buffer.length) :
    ∃ s' buffer' taken left', s.turn pool buffer = .ok (s', some buffer') ∧
      buffer = taken ++ buffer' ∧ left = taken ++ left' ∧
      Appends taken s.item s'.item ∧ Expects s' left' ∧ taken ≠ [] := by
  unfold turn
  cases hexpects with
  | control body hcontrol henclosure hend =>
    rw [if_pos hcontrol] at hread ⊢
    obtain ⟨controline, more, hlines, hwhole⟩ := hread
    obtain ⟨s', buffer', taken, left', hok, hspec⟩ :=
      readControl_ok pool hitem hlines hwhole henclosure hend body hstream hfits
    refine ⟨s', buffer', taken, left', ?_, hspec⟩
    simp only [hlines]
    exact do_ok_iff.mpr ⟨_, hok, rfl⟩
  | chunk data body hdata hcontrol hchunk henclosure hend hleft =>
    have hnot : ¬ s.isReadingControl = true := by simp [hcontrol]
    rw [if_neg hnot] at hread ⊢
    rw [hleft] at hread
    have hroom : s.item.length + (data ++ CRLF).length ≤ arrayMaxLength := by
      simp only [List.length_append] at hfits ⊢
      omega
    obtain ⟨s', buffer', taken, left', hok, hbuffer, hleft', happends, hexpects, htaken⟩ :=
      readData pool hitem hcontrol hchunk henclosure hend hleft hstream hroom hread
    obtain ⟨r, hr, hr'⟩ := do_ok_iff.mp hok
    refine ⟨s', buffer', taken, left', ?_, hbuffer, hleft', happends, hexpects, htaken hne⟩
    exact do_ok_iff.mpr ⟨r, hr, do_ok_iff.mpr ⟨_, hr', rfl⟩⟩
  | done hend =>
    rw [hend] at hopen
    cases hopen

end ChunkedBodyLoop

/-! ### A whole call -/

/-- `left` of the body is still to be read, and `future` to arrive. -/
structure Underway (item : HttpBinaryMapped) (body following future : List UInt8)
    (r : ChunkedBodyRead) (left : List UInt8) : Prop where
  expects : Expects r.loop left
  wellFormed : r.loop.item.WellFormed
  memory : r.loop.item.memory ++ left = item.memory ++ body
  length : r.loop.item.length + left.length = item.length + body.length
  stream : r.pipe.pending ++ future = left ++ following
  consumed : r.pipe.consumed + left.length = body.length
  reading : r.pipe.reading = false

theorem Underway.start {item : HttpBinaryMapped} (hitem : item.WellFormed) (body : ChunkedBody)
    {following future : List UInt8} (hstream : future = body.bytes ++ following) :
    Underway item body.bytes following future (.start item) body.bytes where
  expects := .control body rfl rfl rfl
  wellFormed := hitem
  memory := rfl
  length := rfl
  stream := hstream
  consumed := Nat.zero_add _
  reading := rfl

theorem Expects.left_ne_nil {s : ChunkedBodyLoop} {left : List UInt8} (h : Expects s left)
    (hopen : s.isEnd = false) : left ≠ [] := by
  cases h with
  | control body => exact body.bytes_ne_nil
  | chunk data body hdata => simp [hdata]
  | done hend => simp [hend] at hopen

section Underway
variable (pool : ArrayPool) {item : HttpBinaryMapped} {body following : List UInt8}
  (hfits : item.length + body.length ≤ arrayMaxLength)
include hfits

theorem Underway.step {future arrived left : List UInt8} {r : ChunkedBodyRead}
    (h : Underway item body following (arrived ++ future) r left) (hread : ReadsWhole r arrived) :
    ∃ r' left', r.step pool arrived = .ok r' ∧ Underway item body following future r' left' ∧
      (r.loop.isEnd = true ∨ r.pipe.pending ++ arrived = [] → r'.loop = r.loop ∧ left' = left) ∧
      (r.loop.isEnd = false → r.pipe.pending ++ arrived ≠ [] → left'.length < left.length) := by
  have hstream : (r.pipe.pending ++ arrived) ++ future = left ++ following := by
    rw [List.append_assoc, h.stream]
  have hidle : Underway item body following future { r with pipe := r.pipe.arrive arrived } left :=
    ⟨h.expects, h.wellFormed, h.memory, h.length, hstream, h.consumed, h.reading⟩
  unfold ChunkedBodyRead.step
  dsimp only
  by_cases hend : r.loop.isEnd = true
  · rw [if_pos hend]
    exact ⟨_, left, rfl, hidle, fun _ => ⟨rfl, rfl⟩, fun hopen => by simp [hend] at hopen⟩
  · have hopen : r.loop.isEnd = false := by simpa using hend
    rw [if_neg hend, if_neg (by simp [h.reading]), Pipe.arrive_pending]
    by_cases hnil : r.pipe.pending ++ arrived = []
    · rw [if_pos hnil]
      exact ⟨_, left, rfl, hidle, fun _ => ⟨rfl, rfl⟩, fun _ hne => absurd hnil hne⟩
    · rw [if_neg hnil]
      have hlength := h.length
      obtain ⟨s', buffer', taken, left', hturn, hbuffer, hleft, happends, hexpects, htaken⟩ :=
        ChunkedBodyLoop.turn_ok pool h.wellFormed h.expects hopen hnil hstream (by omega)
          ((hread.resolve_left hend).resolve_left hnil)
      have hpos := List.length_pos_iff.mpr htaken
      have hleftlen := congrArg List.length hleft
      rw [List.length_append] at hleftlen
      refine ⟨⟨s', report (r.pipe.arrive arrived) (some buffer')⟩, left',
        do_ok_iff.mpr ⟨_, hturn, rfl⟩, ⟨hexpects, happends.wellFormed, ?_, ?_, ?_, ?_, rfl⟩, ?_, ?_⟩
      · rw [happends.memory, List.append_assoc, ← hleft, h.memory]
      · rw [happends.length]
        omega
      · rw [hbuffer, hleft, List.append_assoc, List.append_assoc] at hstream
        exact List.append_cancel_left hstream
      · have hconsumed := h.consumed
        have hadvance := @Pipe.advanceTo_consumed _ _ (r.pipe.arrive arrived) hbuffer
        rw [Pipe.arrive_consumed] at hadvance
        rw [show (report (r.pipe.arrive arrived) (some buffer')).consumed = _ from hadvance]
        omega
      · rintro (h' | h')
        · exact absurd h' hend
        · exact absurd h' hnil
      · intro _ _
        omega

theorem Underway.run {arrivals : List (List UInt8)} {future left : List UInt8}
    {r : ChunkedBodyRead} (h : Underway item body following (arrivals.flatten ++ future) r left)
    (hread : Along (ChunkedBodyRead.step pool) ReadsWhole r arrivals) :
    ∃ r' left', run (ChunkedBodyRead.step pool) r arrivals = .ok r' ∧
      Underway item body following future r' left' := by
  induction arrivals generalizing r left with
  | nil => exact ⟨r, left, rfl, h⟩
  | cons arrived arrivals ih =>
    rw [List.flatten_cons, List.append_assoc] at h
    obtain ⟨r', left', hstep, h', -, -⟩ := h.step pool hfits hread.1
    obtain ⟨r'', left'', hrun, h''⟩ := ih h' (hread.2 r' hstep)
    exact ⟨r'', left'', run_cons_ok_iff.mpr ⟨r', hstep, hrun⟩, h''⟩

theorem Underway.finish {turns : ℕ} {left : List UInt8} {r : ChunkedBodyRead}
    (h : Underway item body following [] r left) (hturns : left.length ≤ turns)
    (hread : Along (ChunkedBodyRead.step pool) ReadsWhole r (List.replicate turns [])) :
    ∃ r', Runs.run (ChunkedBodyRead.step pool) r (List.replicate turns []) = .ok r' ∧
      r'.loop.isEnd = true ∧ Underway item body following [] r' [] := by
  induction turns generalizing r left with
  | zero =>
    obtain rfl : left = [] := List.length_eq_zero_iff.mp (Nat.le_zero.mp hturns)
    refine ⟨r, rfl, ?_, h⟩
    by_contra hopen
    exact h.expects.left_ne_nil (by simpa using hopen) rfl
  | succ turns ih =>
    rw [List.replicate_succ] at hread ⊢
    obtain ⟨r', left', hstep, h', hidle, hless⟩ := h.step pool hfits
      hread.1
    have hshort : left'.length ≤ turns := by
      by_cases hend : r.loop.isEnd = true
      · obtain ⟨-, rfl⟩ := hidle (.inl hend)
        cases h.expects with
        | done => exact Nat.zero_le _
        | control body hcontrol henclosure hopen => simp [hend] at hopen
        | chunk data body hdata hcontrol hchunk henclosure hopen => simp [hend] at hopen
      · have hopen : r.loop.isEnd = false := by simpa using hend
        have hne := h.expects.left_ne_nil hopen
        have hpending : r.pipe.pending ++ [] ≠ [] := by
          have hstream := h.stream
          intro hnil
          rw [hnil] at hstream
          exact hne (List.append_eq_nil_iff.mp hstream.symm).1
        have := hless hopen hpending
        omega
    obtain ⟨r'', hrun, hend, h''⟩ := ih h' hshort (hread.2 r' hstep)
    exact ⟨r'', run_cons_ok_iff.mpr ⟨r', hstep, hrun⟩, hend, h''⟩

end Underway

/-! ### Calls that return -/

/-- What holds between two turns of any call. -/
structure Settled (s : ChunkedBodyLoop) : Prop where
  wellFormed : s.item.WellFormed
  isReadingEnclosure : s.isReadingEnclosure = false
  isReadingChunk : s.isReadingControl = false → s.isReadingChunk = true

namespace ChunkedBodyLoop

theorem readEnclosure_inv {pool : ArrayPool} {s s' : ChunkedBodyLoop} {buffer left : List UInt8}
    (hitem : s.item.WellFormed) (h : s.readEnclosure pool buffer = .ok (s', left)) :
    s'.item.WellFormed ∧ s'.isReadingEnclosure = false ∧ s'.isEnd = s.isEnd ∧
      (s.isReadingEnclosure = true → LENGTH_LF ≤ buffer.length ∧ s'.isReadingControl = true) ∧
      (s.isReadingEnclosure = false → s' = s) := by
  unfold readEnclosure at h
  split_ifs at h with henclosure
  · obtain ⟨lf, hlf, h⟩ := do_ok_iff.mp h
    obtain ⟨item, hadd, h⟩ := do_ok_iff.mp h
    obtain ⟨buffer', -, h⟩ := do_ok_iff.mp h
    obtain ⟨-, hlen, -⟩ := sliceTo_inv hlf
    cases h
    exact ⟨(HttpBinaryMapped.addBodyForSure_added hitem hadd).wellFormed, rfl, rfl,
      fun _ => ⟨by omega, rfl⟩, fun hopen => by simp [henclosure] at hopen⟩
  · cases h
    have hopen : s.isReadingEnclosure = false := by simpa using henclosure
    exact ⟨hitem, hopen, rfl, fun h => absurd h henclosure, fun _ => rfl⟩

theorem readData_inv {pool : ArrayPool} {s s' : ChunkedBodyLoop} {buffer left : List UInt8}
    (hitem : s.item.WellFormed) (hchunk : s.isReadingChunk = true)
    (henclosure : s.isReadingEnclosure = false)
    (h : (s.readChunk pool (if buffer.length < s.lengthLeft then buffer.length else s.lengthLeft)
      buffer >>= fun r => r.1.readEnclosure pool r.2) = .ok (s', left)) :
    Settled s' ∧ s'.isEnd = s.isEnd ∧ Encloses s.lengthLeft buffer.length := by
  obtain ⟨⟨t, buffer'⟩, ht, h⟩ := do_ok_iff.mp h
  unfold readChunk at ht
  rw [if_pos hchunk] at ht
  obtain ⟨slice, hslice, ht⟩ := do_ok_iff.mp ht
  obtain ⟨item, hadd, ht⟩ := do_ok_iff.mp ht
  obtain ⟨buffer'', hfrom, ht⟩ := do_ok_iff.mp ht
  obtain ⟨hnonneg, hle, rfl⟩ := sliceFrom_inv hfrom
  cases ht
  have hadded := (HttpBinaryMapped.addBodyForSure_added hitem hadd).wellFormed
  obtain ⟨hitem', henclosure', hend, henclosed, hskip⟩ := readEnclosure_inv (by exact hadded) h
  dsimp only at henclosed hskip hend
  by_cases hshort : (buffer.length : ℤ) < s.lengthLeft
  · rw [if_pos hshort] at henclosed hskip
    have hnot : (decide (s.lengthLeft - buffer.length = 0) || s.isReadingEnclosure) = false := by
      have hne : ¬ s.lengthLeft - buffer.length = 0 := by omega
      simp [hne, henclosure]
    refine ⟨⟨hitem', henclosure', fun _ => ?_⟩, hend, .inl hshort⟩
    rw [hskip hnot]
    simp [hnot]
  · rw [if_neg hshort] at henclosed hskip hnonneg hle
    obtain ⟨hlong, hcontrol⟩ := henclosed (by simp)
    rw [List.length_drop] at hlong
    refine ⟨⟨hitem', henclosure', fun hnot => ?_⟩, hend, .inr ?_⟩
    · rw [hcontrol] at hnot
      cases hnot
    · omega

theorem readControl_inv {pool : ArrayPool} {s s' : ChunkedBodyLoop}
    {controline buffer left : List UInt8} (hsettled : Settled s)
    (h : s.readControl pool controline buffer = .ok (s', left)) :
    Settled s' ∧ ∀ size, Str.parseHex (chars controline) = .ok size →
      Encloses size buffer.length := by
  obtain ⟨item, hadd, -⟩ := do_ok_iff.mp h
  have hitem := (HttpBinaryMapped.addBodyForSure_added hsettled.wellFormed hadd).wellFormed
  cases hparse : Str.parseHex (chars controline) with
  | error fault =>
    unfold readControl at h
    rw [do_of_ok hadd, hparse] at h
    cases h
  | ok chunkLength =>
    by_cases hzero : chunkLength = 0
    · subst hzero
      rw [readControl_last hadd hparse] at h
      have hwell : (s.afterLastSize item).item.WellFormed :=
        ⟨hitem.room, hitem.fits, hitem.returnable⟩
      obtain ⟨hitem', henclosure', -, henclosed, -⟩ := readEnclosure_inv hwell h
      obtain ⟨hlong, hcontrol⟩ := henclosed rfl
      refine ⟨⟨hitem', henclosure', fun hnot => ?_⟩, ?_⟩
      · rw [hcontrol] at hnot
        cases hnot
      · rintro _ ⟨⟩
        exact .inr (by omega)
    · rw [readControl_size hadd hparse hzero] at h
      obtain ⟨hsettled', -, hencloses⟩ := readData_inv (s := s.afterSize item chunkLength)
        hitem rfl hsettled.isReadingEnclosure h
      refine ⟨hsettled', ?_⟩
      rintro _ ⟨⟩
      exact hencloses

end ChunkedBodyLoop

/-- A read after which the loop goes back to the read without `AdvanceTo`. -/
def Stuck (r : ChunkedBodyRead) : Prop := r.pipe.reading = true ∧ r.loop.isEnd = false

theorem step_inv {pool : ArrayPool} {r r' : ChunkedBodyRead} {arrived : List UInt8}
    (hsettled : Settled r.loop) (h : r.step pool arrived = .ok r') :
    Settled r'.loop ∧ (ReadsWhole r arrived ∨ Stuck r') := by
  unfold ChunkedBodyRead.step at h
  dsimp only at h
  split_ifs at h with hend hreading hnil
  · cases h
    exact ⟨hsettled, .inl (.inl hend)⟩
  · cases h
    exact ⟨hsettled, .inl (.inr (.inl hnil))⟩
  · obtain ⟨⟨s', left⟩, hturn, h⟩ := do_ok_iff.mp h
    cases h
    rw [Pipe.arrive_pending] at hturn
    unfold ChunkedBodyLoop.turn at hturn
    by_cases hcontrol : r.loop.isReadingControl = true
    · rw [if_pos hcontrol] at hturn
      split at hturn
      · cases hturn
        exact ⟨hsettled, .inr ⟨rfl, by simpa using hend⟩⟩
      · rename_i controline more hlines
        obtain ⟨⟨s'', left'⟩, hread, hturn⟩ := do_ok_iff.mp hturn
        cases hturn
        obtain ⟨hsettled', hencloses⟩ := ChunkedBodyLoop.readControl_inv hsettled hread
        refine ⟨hsettled', .inl (.inr (.inr ?_))⟩
        rw [if_pos hcontrol]
        exact ⟨controline, more, hlines, hencloses⟩
    · rw [if_neg hcontrol] at hturn
      obtain ⟨r', hchunk, hturn⟩ := do_ok_iff.mp hturn
      obtain ⟨⟨s'', left'⟩, henclosure, hturn⟩ := do_ok_iff.mp hturn
      cases hturn
      obtain ⟨hsettled', -, hencloses⟩ := ChunkedBodyLoop.readData_inv hsettled.wellFormed
        (hsettled.isReadingChunk (by simpa using hcontrol)) hsettled.isReadingEnclosure
        (do_ok_iff.mpr ⟨r', hchunk, henclosure⟩)
      refine ⟨hsettled', .inl (.inr (.inr ?_))⟩
      rw [if_neg hcontrol]
      exact hencloses

theorem Stuck.step {pool : ArrayPool} {r : ChunkedBodyRead} (h : Stuck r) (arrived : List UInt8) :
    r.step pool arrived = .error (.raised .invalidOperation) := by
  unfold ChunkedBodyRead.step
  dsimp only
  rw [if_neg (by simp [h.2]), if_pos (by simp [h.1])]

theorem along_of_returned {pool : ArrayPool} {arrivals : List (List UInt8)}
    {r r' : ChunkedBodyRead} (hsettled : Settled r.loop)
    (h : run (ChunkedBodyRead.step pool) r arrivals = .ok r') (hend : r'.loop.isEnd = true) :
    Along (ChunkedBodyRead.step pool) ReadsWhole r arrivals ∧ Settled r'.loop := by
  induction arrivals generalizing r with
  | nil =>
    cases h
    exact ⟨trivial, hsettled⟩
  | cons arrived arrivals ih =>
    obtain ⟨m, hstep, hrun⟩ := run_cons_ok_iff.mp h
    obtain ⟨hsettled', hwhole⟩ := step_inv hsettled hstep
    obtain ⟨halong, hlast⟩ := ih hsettled' hrun
    refine ⟨⟨hwhole.resolve_right fun hstuck => ?_, fun t ht => ?_⟩, hlast⟩
    · cases arrivals with
      | nil =>
        cases hrun
        rw [hstuck.2] at hend
        cases hend
      | cons next arrivals =>
        obtain ⟨m', hstep', -⟩ := run_cons_ok_iff.mp hrun
        rw [hstuck.step] at hstep'
        cases hstep'
    · rw [hstep] at ht
      cases ht
      exact halong

theorem along_after_end {pool : ArrayPool} {arrivals : List (List UInt8)} {r : ChunkedBodyRead}
    (hend : r.loop.isEnd = true) : Along (ChunkedBodyRead.step pool) ReadsWhole r arrivals := by
  induction arrivals generalizing r with
  | nil => trivial
  | cons arrived arrivals ih =>
    refine ⟨.inl hend, fun t ht => ih ?_⟩
    unfold ChunkedBodyRead.step at ht
    dsimp only at ht
    rw [if_pos hend] at ht
    cases ht
    exact hend

/-- The reads, and then as many turns as there are bytes. -/
def turnsOf {body : ChunkedBody} (d : Delivery body.bytes) : List (List UInt8) :=
  d.reads ++ List.replicate body.bytes.length []

theorem framesBody_iff (pool : ArrayPool) {item : HttpBinaryMapped} (hitem : item.WellFormed)
    (body : ChunkedBody) (d : Delivery body.bytes) :
    FramesBody pool item body d ↔
      item.length + body.bytes.length ≤ arrayMaxLength ∧
        Along (ChunkedBodyRead.step pool) ReadsWhole (.start item) (turnsOf d) := by
  constructor
  · rintro ⟨turns, r, hrun, hend, hmemory, -, -⟩
    obtain ⟨halong, hsettled⟩ := along_of_returned ⟨hitem, rfl, fun h => by cases h⟩ hrun hend
    constructor
    · have hlen := congrArg List.length hmemory
      rw [List.length_append, hitem.memory_length, hsettled.wellFormed.memory_length] at hlen
      have hroom := hsettled.wellFormed.room
      have hmax := hsettled.wellFormed.fits
      omega
    · unfold turnsOf
      rcases Nat.le_total body.bytes.length turns with hle | hle
      · obtain ⟨more, rfl⟩ := Nat.exists_eq_add_of_le hle
        rw [List.replicate_add, ← List.append_assoc] at halong
        exact halong.of_prefix (List.prefix_append _ _)
      · obtain ⟨more, hmore⟩ := Nat.exists_eq_add_of_le hle
        rw [hmore, List.replicate_add, ← List.append_assoc]
        refine along_append_iff.mpr ⟨halong, fun t ht => along_after_end ?_⟩
        cases hrun.symm.trans ht
        exact hend
  · rintro ⟨hfits, halong⟩
    obtain ⟨hreads, hturns⟩ := along_append_iff.mp halong
    have hstart : Underway item body.bytes d.following (d.reads.flatten ++ []) (.start item)
        body.bytes := Underway.start hitem body (by rw [List.append_nil, d.split])
    obtain ⟨r, left, hrun, h⟩ := hstart.run pool hfits hreads
    have hleft : left.length ≤ body.bytes.length := by
      have := h.consumed
      omega
    obtain ⟨r', hrun', hend, h'⟩ := h.finish pool hfits hleft (hturns r hrun)
    refine ⟨body.bytes.length, r', run_append_ok_iff.mpr ⟨r, hrun, hrun'⟩, hend, ?_, ?_, ?_⟩
    · simpa using h'.memory
    · simpa using h'.consumed
    · simpa using h'.stream

/-- A chunk of one byte that arrives in two reads, cut between the CR and the LF after it. -/
def cutBody : ChunkedBody :=
  ⟨[⟨[0x31], [0x78], by decide, by decide, by decide⟩], [0x30], by decide⟩

def cutDelivery : Delivery cutBody.bytes where
  following := []
  reads := [asciiBytes "1\r\nx\r", asciiBytes "\n0\r\n\r\n"]
  split := by decide

theorem framesBody_iff_cut :
    FramesBody .zeroed { type := .response } cutBody cutDelivery ↔
      ({ type := .response } : HttpBinaryMapped).length + cutBody.bytes.length ≤ arrayMaxLength ∧
        Along (ChunkedBodyRead.step .zeroed) ReadsWhole (.start { type := .response })
          (turnsOf cutDelivery) :=
  framesBody_iff .zeroed (HttpBinaryMapped.wellFormed_empty .response) cutBody cutDelivery

theorem not_framesBody_cut : ¬ FramesBody .zeroed { type := .response } cutBody cutDelivery := by
  rintro ⟨turns, r, hrun, -⟩
  have hfirst : ChunkedBodyRead.step .zeroed (.start { type := .response })
      (asciiBytes "1\r\nx\r") = .error (.raised .argumentOutOfRange) := by rfl
  obtain ⟨t, ht, -⟩ := run_cons_ok_iff.mp hrun
  rw [hfirst] at ht
  cases ht

end DecodingProxy.Piped
