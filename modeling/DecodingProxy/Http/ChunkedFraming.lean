import DecodingProxy.Http.ContentLengthFraming

/-!
# Chunked messages through `Push`

`EndChunked` stores the body in a private array and leaves `datas`, which everyone reads
the body from, empty. So no message that the code takes for a chunked one is assembled,
and before that a call whose buffer ends inside the line of a size does not return.
-/

namespace DecodingProxy.Http
open DecodingProxy.Runtime DecodingProxy.Lines

/-- The object gets complete with the last byte of the message and holds the raw bytes of the
chunked body. -/
def AssemblesChunked (p : Platform) (kind : HttpKind) (m : ChunkedMessage)
    (reads : List (List UInt8)) : Prop :=
  Framed p kind reads m.header.bytes m.body.bytes []

/-- Only a body that a `Content-Length` of the same message delimits gets to `datas`. -/
theorem assemblesChunked_iff (p : Platform) (kind : HttpKind) (m : ChunkedMessage)
    {reads : List (List UInt8)} (split : reads.flatten = m.bytes) :
    AssemblesChunked p kind m reads ↔
      headerLength p kind m.header = .ok (m.body.bytes.length : ℤ) ∧
        m.body.bytes.length ≤ arrayMaxLength := by
  have hne := m.body.bytes_ne_nil
  have hall : reads.flatten = m.header.bytes ++ (m.body.bytes ++ []) := by
    rw [split, List.append_nil]
    rfl
  refine (framed_iff p kind m.header hall).trans ⟨?_, ?_⟩
  · rintro ⟨length, hlength, ⟨hnil, -⟩ | ⟨-, rfl, hmax, -⟩⟩
    · exact absurd hnil hne
    · exact ⟨hlength, hmax⟩
  · rintro ⟨hlength, hmax⟩
    refine ⟨_, hlength, .inr ⟨hne, rfl, hmax, reads.length, ?_⟩⟩
    rw [List.take_length, split]
    rfl

/-- A chunked message whose `Transfer-Encoding` the code understands. -/
def chunkedMessage : ChunkedMessage where
  header := ⟨asciiBytes "HTTP/1.1 200 OK", [asciiBytes "Transfer-Encoding: chunked"], by decide⟩
  body := ⟨[⟨asciiBytes "1", asciiBytes "x", by decide, by decide, by decide⟩], asciiBytes "0",
    by decide⟩
  declared := ⟨_, List.mem_singleton_self _, [], asciiBytes "chunked", by decide, .inl rfl,
    asciiBytes "Transfer-Encoding", asciiBytes " ", [], by decide, by decide,
    by decide, by decide⟩

theorem assemblesChunked_iff_at_once :
    AssemblesChunked {} .response chunkedMessage [chunkedMessage.bytes] ↔
      headerLength {} .response chunkedMessage.header = .ok (chunkedMessage.body.bytes.length : ℤ) ∧
        chunkedMessage.body.bytes.length ≤ arrayMaxLength :=
  assemblesChunked_iff {} .response chunkedMessage (List.append_nil _)

theorem headerLength_chunkedMessage :
    headerLength {} .response chunkedMessage.header = .ok (-2) := by rfl

theorem not_assemblesChunked_at_once :
    ¬ AssemblesChunked {} .response chunkedMessage [chunkedMessage.bytes] := by
  intro h
  have hall : [chunkedMessage.bytes].flatten =
      chunkedMessage.header.bytes ++ (chunkedMessage.body.bytes ++ []) := by
    simp [ChunkedMessage.bytes]
  obtain ⟨length, hlength, hd⟩ := (framed_iff {} .response chunkedMessage.header hall).mp h
  rw [headerLength_chunkedMessage] at hlength
  cases hlength
  rcases hd with ⟨-, -, hne⟩ | ⟨-, hlen, -⟩
  · exact hne rfl
  · omega

/-! ### Reads that end inside the line of a size -/

theorem fillBodyChunked_stuck {o : HttpObject} (hchunk : o.body.isRedingChunk = false)
    (henc : o.body.isRedingEnclosure = false) {seq : List UInt8} (hne : seq ≠ [])
    (hline : LF ∉ seq) : o.fillBodyChunked seq = .error .diverges := by
  unfold HttpObject.fillBodyChunked
  rw [if_neg (by simp [hchunk])]
  change (HttpObject.chunkLoop seq.length (seq.length + 2) ⟨o.body, seq, 0⟩ >>= fun done =>
    (o.enclose seq done).mapError .threw) = _
  rw [HttpObject.chunkLoop_stuck (lines_of_not_mem hline) hne henc]
  rfl

/-- The read that ends the header block must not end inside the first line of the body. -/
theorem readMessage_diverges (p : Platform) (kind : HttpKind) (h : HeaderBlock)
    (hlength : headerLength p kind h = .ok (-2)) {part : List UInt8} (hne : part ≠ [])
    (hline : LF ∉ part) (more : List (List UInt8)) :
    readMessage p kind ((h.bytes ++ part) :: more) = .error .diverges := by
  have hpush := push_block (fun _ hl => h.decodeLine_ne_two p hl)
    (fun _ hl => h.isLine_fieldLines hl) (atHeader_new kind) part
  rw [show (h.fieldLines ++ [CRLF]).flatten = h.bytes from rfl,
    show h.fieldLines ++ [CRLF] = h.lines from rfl] at hpush
  have ho := (atHeader_new kind).addLines (p := p) h.lines
  unfold headerLength at hlength
  unfold readMessage
  rw [pushAll_cons (by simp [hne]), List.nil_append, hpush]
  generalize (HttpObject.new kind).beginMsg.addLines p h.lines = o at ho hlength ⊢
  obtain ⟨fields, hfields⟩ := bodyLength_parse hlength
  rw [endFields_ok_iff.mpr ⟨fields, -2, hfields, hlength, rfl⟩]
  dsimp only
  rw [HttpObject.pushBody, if_neg (by simp [ho.isReadingBody]), if_pos rfl,
    fillBodyChunked_stuck (by simp [ho.body, HttpBody.beginChunked])
      (by simp [ho.body, HttpBody.beginChunked]) hne hline]
  rfl

end DecodingProxy.Http
