import DecodingProxy.Piped.HeaderMap

/-!
# The indexes of a message

`indexEndFields` is set at the end of the header block, and `indexEndBody` by `BodyEnd`. A body of
known length is marked when all of it is there, and so is a body that is not announced. Of a body
of length zero nothing is marked, and a chunked body is marked before its last line end.
-/

namespace DecodingProxy.Piped
open DecodingProxy.Runtime DecodingProxy.Lines DecodingProxy.Runs DecodingProxy.Http
open DecodingProxy.Piped.ConstantsForHttp

namespace HttpBinaryMapped

def lengthBody (item : HttpBinaryMapped) : ℤ := item.indexEndBody - item.indexEndFields

/-- The bytes from the end of the fields to the end of the body. -/
def bodySlice (item : HttpBinaryMapped) : List UInt8 :=
  (item.datas.take item.indexEndBody).drop item.indexEndFields

end HttpBinaryMapped

/-- The indexes are in order and bound the body, of which the length is reported. -/
structure IndexesExact (body : List UInt8) (item : HttpBinaryMapped) : Prop where
  fields_le : item.indexEndFields ≤ item.indexEndBody
  body_le : item.indexEndBody ≤ item.length
  slice : item.bodySlice = body
  lengthBody : item.lengthBody = item.bodySlice.length

/-- The item holds a header block and `got` of what follows it. -/
structure HoldsBody (ls : List (List UInt8)) (got : List UInt8) (item : HttpBinaryMapped) :
    Prop where
  wellFormed : item.WellFormed
  endsShort : EndsShort ls
  memory : item.memory = ls.flatten ++ got
  indexEndFields : item.indexEndFields = ls.flatten.length

section Indexes
variable {ls : List (List UInt8)} {got body : List UInt8} {item item' : HttpBinaryMapped}

theorem HoldsBody.length (h : HoldsBody ls got item) :
    item.length = ls.flatten.length + got.length := by
  rw [← h.wellFormed.memory_length, h.memory, List.length_append]

theorem HoldsBody.added {seq : List UInt8} (h : HoldsBody ls got item)
    (hadded : HttpBinaryMapped.Added seq item item') : HoldsBody ls (got ++ seq) item' where
  wellFormed := hadded.wellFormed
  endsShort := h.endsShort
  memory := by rw [hadded.memory, h.memory, List.append_assoc]
  indexEndFields := hadded.indexEndFields.trans h.indexEndFields

/-- A mark at the end of what was read is right. -/
theorem HoldsBody.exact (h : HoldsBody ls got item) (hmark : item.indexEndBody = item.length) :
    IndexesExact got item := by
  have hlength := h.length
  have hfields := h.indexEndFields
  have hslice : item.bodySlice = got := by
    rw [HttpBinaryMapped.bodySlice, hmark, ← HttpBinaryMapped.memory, h.memory, hfields,
      List.drop_left]
  refine ⟨by omega, hmark.le, hslice, ?_⟩
  rw [hslice, HttpBinaryMapped.lengthBody]
  omega

/-- A mark anywhere else is wrong. -/
theorem HoldsBody.not_exact (h : HoldsBody ls got item) (hmark : item.indexEndBody ≠ item.length) :
    ¬ IndexesExact got item := by
  intro hexact
  have hlength := h.length
  have hfields := h.indexEndFields
  have hle := hexact.fields_le
  have hbody := hexact.lengthBody
  rw [hexact.slice, HttpBinaryMapped.lengthBody] at hbody
  omega

end Indexes

/-! ### A turn in a chunked body -/

namespace ChunkedBodyLoop
variable {pool : ArrayPool} {s s' : ChunkedBodyLoop} {buffer left : List UInt8}

theorem readChunk_added {lengthLoop : ℤ} (hitem : s.item.WellFormed)
    (h : s.readChunk pool lengthLoop buffer = .ok (s', left)) :
    ∃ taken, buffer = taken ++ left ∧ HttpBinaryMapped.Added taken s.item s'.item ∧
      s'.isEnd = s.isEnd := by
  unfold readChunk at h
  split_ifs at h
  · obtain ⟨slice, hto, h⟩ := do_ok_iff.mp h
    obtain ⟨item, hadd, h⟩ := do_ok_iff.mp h
    obtain ⟨rest, hfrom, h⟩ := do_ok_iff.mp h
    cases h
    obtain ⟨-, -, rfl⟩ := sliceTo_inv hto
    obtain ⟨-, -, rfl⟩ := sliceFrom_inv hfrom
    exact ⟨_, (List.take_append_drop _ _).symm,
      HttpBinaryMapped.addBodyForSure_added hitem hadd, rfl⟩
  · cases h
    exact ⟨[], rfl, .refl hitem, rfl⟩

theorem readEnclosure_added (hitem : s.item.WellFormed)
    (h : s.readEnclosure pool buffer = .ok (s', left)) :
    ∃ taken, buffer = taken ++ left ∧ HttpBinaryMapped.Added taken s.item s'.item ∧
      s'.isEnd = s.isEnd ∧ (s.isReadingEnclosure = true → taken.length = LENGTH_LF) := by
  unfold readEnclosure at h
  split_ifs at h with henclosure
  · obtain ⟨lf, hto, h⟩ := do_ok_iff.mp h
    obtain ⟨item, hadd, h⟩ := do_ok_iff.mp h
    obtain ⟨rest, hfrom, h⟩ := do_ok_iff.mp h
    cases h
    obtain ⟨-, hle, rfl⟩ := sliceTo_inv hto
    obtain ⟨-, -, rfl⟩ := sliceFrom_inv hfrom
    refine ⟨_, (List.take_append_drop _ _).symm,
      HttpBinaryMapped.addBodyForSure_added hitem hadd, rfl, fun _ => ?_⟩
    rw [List.length_take]
    omega
  · cases h
    exact ⟨[], rfl, .refl hitem, rfl, fun hnot => absurd hnot henclosure⟩

/-- The bytes that a turn took went to the item. The mark of the body is not moved before the turn
that ends it, and that turn adds one more line end behind the mark. -/
structure Takes (taken : List UInt8) (s s' : ChunkedBodyLoop) : Prop where
  wellFormed : s'.item.WellFormed
  memory : s'.item.memory = s.item.memory ++ taken
  indexEndFields : s'.item.indexEndFields = s.item.indexEndFields
  going : s'.isEnd = false → s'.item.indexEndBody = s.item.indexEndBody
  ended : s'.isEnd = true → s'.item.indexEndBody + LENGTH_LF = s'.item.length

theorem takes_of_added {taken : List UInt8} (hend : s'.isEnd = false)
    (h : HttpBinaryMapped.Added taken s.item s'.item) : Takes taken s s' where
  wellFormed := h.wellFormed
  memory := h.memory
  indexEndFields := h.indexEndFields
  going := fun _ => h.indexEndBody
  ended := fun hnot => absurd hnot (by simp [hend])

theorem readControl_takes (hitem : s.item.WellFormed) (hend : s.isEnd = false)
    {controline : List UInt8} (h : s.readControl pool controline buffer = .ok (s', left)) :
    ∃ taken, buffer = taken ++ left ∧ Takes (controline ++ taken) s s' := by
  obtain ⟨item, hadd, h⟩ := do_ok_iff.mp h
  have hadded := HttpBinaryMapped.addBodyForSure_added hitem hadd
  obtain ⟨chunkLength, -, h⟩ := do_ok_iff.mp h
  split at h
  · have hmarked : item.bodyEnd.WellFormed :=
      ⟨hadded.wellFormed.room, hadded.wellFormed.fits, hadded.wellFormed.returnable⟩
    obtain ⟨taken, hbuffer, henclosed, hended, htwo⟩ := readEnclosure_added hmarked h
    have hmark := henclosed.indexEndBody
    have hlength := henclosed.length
    rw [htwo rfl] at hlength
    refine ⟨taken, hbuffer, henclosed.wellFormed, ?_, ?_, ?_, fun _ => ?_⟩
    · rw [henclosed.memory, ← List.append_assoc, ← hadded.memory]
      rfl
    · exact henclosed.indexEndFields.trans hadded.indexEndFields
    · exact fun hnot => absurd (hended.symm.trans hnot) (by simp)
    · rw [hmark, hlength]
      rfl
  · obtain ⟨⟨s₁, buffer₁⟩, hchunk, hrest⟩ := do_ok_iff.mp h
    obtain ⟨data, hbuffer, hdata, hsame⟩ := readChunk_added hadded.wellFormed hchunk
    obtain ⟨taken, hbuffer₁, henclosed, hsame', -⟩ := readEnclosure_added hdata.wellFormed hrest
    refine ⟨data ++ taken, ?_, takes_of_added ?_ (hadded.trans (hdata.trans henclosed))⟩
    · rw [hbuffer, hbuffer₁, List.append_assoc]
    · exact (hsame'.trans hsame).trans hend

/-- What a turn leaves of the buffer; without a line end nothing is taken. -/
theorem turn_takes {rest : Option (List UInt8)} (hitem : s.item.WellFormed) (hend : s.isEnd = false)
    (h : s.turn pool buffer = .ok (s', rest)) :
    ∃ taken, buffer = taken ++ rest.getD buffer ∧ Takes taken s s' := by
  unfold turn at h
  split at h
  · split at h
    case h_1 =>
      cases h
      exact ⟨[], rfl, takes_of_added hend (.refl hitem)⟩
    case h_2 controline more hlines =>
      obtain ⟨⟨s₁, left⟩, hcontrol, h⟩ := do_ok_iff.mp h
      cases h
      obtain ⟨part, hpart⟩ : ∃ part, buffer = (lines LF buffer).flatten ++ part :=
        lines_append_part buffer
      rw [hlines, List.flatten_cons, List.append_assoc] at hpart
      obtain ⟨taken, htaken, htakes⟩ := readControl_takes hitem hend hcontrol
      refine ⟨controline ++ taken, ?_, htakes⟩
      rw [hpart, List.drop_left] at htaken
      rw [Option.getD_some, List.append_assoc, ← htaken]
      exact hpart
  · obtain ⟨⟨s₁, buffer₁⟩, hchunk, h⟩ := do_ok_iff.mp h
    obtain ⟨⟨s₂, left⟩, henclosure, h⟩ := do_ok_iff.mp h
    cases h
    obtain ⟨data, hbuffer, hdata, hsame⟩ := readChunk_added hitem hchunk
    obtain ⟨taken, hbuffer₁, henclosed, hsame', -⟩ :=
      readEnclosure_added hdata.wellFormed henclosure
    refine ⟨data ++ taken, ?_, takes_of_added ?_ (hdata.trans henclosed)⟩
    · rw [Option.getD_some, hbuffer, hbuffer₁, List.append_assoc]
    · exact (hsame'.trans hsame).trans hend

end ChunkedBodyLoop

/-! ### Calls -/

/-- The item of a call holds `read`, what the call has read so far. -/
inductive InCall (type : MessageType) : List UInt8 → Phase → Prop
  | fields {done : List (List UInt8)} {item : HttpBinaryMapped} (hitem : Holds done item)
      (htype : item.type = type) (hmark : item.indexEndBody = 0)
      (hlines : ∀ l ∈ done, IsLine LF l ∧ l.length ≠ LENGTH_LF) :
      InCall type done.flatten (.fields item done.flatten.length)
  | body {ls : List (List UInt8)} {got : List UInt8} {item : HttpBinaryMapped} {length left : ℤ}
      (hitem : HoldsBody ls got item) (hlength : bodyLengthOf type ls ls = .ok length)
      (hpos : 0 < length) : InCall type (ls.flatten ++ got) (.body item left)
  | chunked {ls : List (List UInt8)} {got : List UInt8} {loop : ChunkedBodyLoop}
      (hitem : HoldsBody ls got loop.item) (hlength : bodyLengthOf type ls ls = .ok (-2))
      (hend : loop.isEnd = false) : InCall type (ls.flatten ++ got) (.chunked loop)

/-- The message is a header block and a raw body, and what `GetBodyLength` finds in the header
block decides whether the indexes are right. -/
def Indexed (type : MessageType) (item : HttpBinaryMapped) : Prop :=
  ∃ ls body length, EndsShort ls ∧ item.memory = ls.flatten ++ body ∧
    bodyLengthOf type ls ls = .ok length ∧ (IndexesExact body item ↔ 0 < length ∨ length = -3)

/-- The messages that were returned, the current call and the pipe hold what has arrived. -/
structure Tracked (type : MessageType) (arrived : List UInt8) (r : ObjectReader) : Prop where
  typed : r.type = type
  returned : ∀ item ∈ r.returned, Indexed type item
  stream : ∃ read, InCall type read r.phase ∧
    arrived = (r.returned.map HttpBinaryMapped.memory).flatten ++ (read ++ r.pipe.pending)

theorem inCall_start (type : MessageType) : InCall type [] (.start type) :=
  .fields (holds_start type) rfl rfl (by simp)

section Step
variable {pool : ArrayPool} {type : MessageType} {r r' : ObjectReader} {item : HttpBinaryMapped}
  {arrived : List UInt8} {ls : List (List UInt8)} {got : List UInt8}

theorem tracked_complete (r : ObjectReader) (htyped : r.type = type)
    (hreturned : ∀ item ∈ r.returned, Indexed type item) (hitem : Indexed type item)
    (hstream : arrived = (r.returned.map HttpBinaryMapped.memory).flatten ++
      (item.memory ++ r.pipe.pending)) : Tracked type arrived (r.complete item) where
  typed := htyped
  returned := by
    intro other hother
    rcases List.mem_append.mp hother with hother | hother
    · exact hreturned other hother
    · exact List.mem_singleton.mp hother ▸ hitem
  stream := by
    refine ⟨[], htyped ▸ inCall_start r.type, ?_⟩
    rw [hstream]
    simp [ObjectReader.complete]

theorem HoldsBody.indexed {length : ℤ} (h : HoldsBody ls got item)
    (hlength : bodyLengthOf type ls ls = .ok length)
    (hmark : item.indexEndBody = item.length ↔ 0 < length ∨ length = -3) : Indexed type item := by
  refine ⟨ls, got, length, h.endsShort, h.memory, hlength, ?_⟩
  rw [← hmark]
  constructor
  · intro hexact
    by_contra hne
    exact h.not_exact hne hexact
  · exact h.exact

theorem HoldsBody.bodyEnd (h : HoldsBody ls got item) : HoldsBody ls got item.bodyEnd where
  wellFormed := ⟨h.wellFormed.room, h.wellFormed.fits, h.wellFormed.returnable⟩
  endsShort := h.endsShort
  memory := h.memory
  indexEndFields := h.indexEndFields

/-- After `BodyEnd` the mark is at the end. -/
theorem HoldsBody.indexed_bodyEnd {length : ℤ} (h : HoldsBody ls got item)
    (hlength : bodyLengthOf type ls ls = .ok length) (hmarked : 0 < length ∨ length = -3) :
    Indexed type item.bodyEnd :=
  h.bodyEnd.indexed hlength (iff_of_true rfl hmarked)

theorem tracked_beginBody (htyped : r.type = type)
    (hreturned : ∀ item ∈ r.returned, Indexed type item) (hitem : Holds ls item)
    (hends : EndsShort ls) (htype : item.type = type)
    (hfields : item.indexEndFields = ls.flatten.length) (hmark : item.indexEndBody = 0)
    (hstream : arrived = (r.returned.map HttpBinaryMapped.memory).flatten ++
      (ls.flatten ++ r.pipe.pending))
    (h : r.beginBody pool item = .ok r') : Tracked type arrived r' := by
  have hbody : HoldsBody ls [] item :=
    ⟨hitem.wellFormed, hends, by rw [List.append_nil, hitem.memory], hfields⟩
  obtain ⟨length, hlength, h⟩ := do_ok_iff.mp h
  rw [hitem.getBodyLength, htype] at hlength
  have hpos := hends.flatten_pos
  have hsize := hitem.length
  split_ifs at h with hknown hchunked hclose
  · obtain ⟨⟨grown, size⟩, hgrow, h⟩ := do_ok_iff.mp h
    cases h
    have hgrown := hbody.added (HttpBinaryMapped.ensureCapacity_added hitem.wellFormed hgrow)
    refine ⟨htyped, hreturned, _, .body hgrown hlength hknown, ?_⟩
    rw [hstream, List.append_nil, List.append_nil]
  · cases h
    refine ⟨htyped, hreturned, _, .chunked hbody (hchunked ▸ hlength) rfl, ?_⟩
    rw [hstream, List.append_nil]
  · cases h
    have hclosing : HoldsBody ls [] { item with isReadingUntilCloseConnection := true } :=
      ⟨⟨hbody.wellFormed.room, hbody.wellFormed.fits, hbody.wellFormed.returnable⟩, hends,
        hbody.memory, hfields⟩
    refine tracked_complete r htyped hreturned (hclosing.indexed_bodyEnd hlength (.inr hclose)) ?_
    rw [hstream, ← hitem.memory]
    rfl
  · cases h
    refine tracked_complete r htyped hreturned (hbody.indexed hlength (iff_of_false ?_ ?_)) ?_
    · omega
    · omega
    · rw [hstream, hitem.memory]

theorem tracked_turn_fields (htyped : r.type = type)
    (hreturned : ∀ item ∈ r.returned, Indexed type item) {done : List (List UInt8)}
    (hphase : r.phase = .fields item done.flatten.length) (hitem : Holds done item)
    (htype : item.type = type) (hmark : item.indexEndBody = 0)
    (hlines : ∀ l ∈ done, IsLine LF l ∧ l.length ≠ LENGTH_LF)
    (hstream : arrived = (r.returned.map HttpBinaryMapped.memory).flatten ++
      (done.flatten ++ r.pipe.pending))
    (hturn : r.turn pool = .ok r') : Tracked type arrived r' := by
  unfold ObjectReader.turn at hturn
  simp only [hphase] at hturn
  obtain ⟨⟨isEnd, item', taken⟩, hparse, hturn⟩ := do_ok_iff.mp hturn
  obtain ⟨content, last, more, hsplit, rfl, hmapped, hbody, hcontent, hlast⟩ :=
    parseLineRecursive_inv hitem.adding hparse
  obtain ⟨part, hpart⟩ :
      ∃ part, r.pipe.pending = (lines LF r.pipe.pending).flatten ++ part :=
    lines_append_part r.pipe.pending
  have hnew : ∀ l ∈ content ++ last, IsLine LF l := by
    intro l hl
    have hmem : l ∈ lines LF r.pipe.pending := by
      rw [hsplit]
      exact List.mem_append_left more hl
    exact isLine_of_mem_lines hmem
  have hitem' := hitem.append hmapped
  have htype' := hmapped.type.trans htype
  rw [hsplit, List.flatten_append, List.append_assoc] at hpart
  have hdrop : r.pipe.pending.drop (content ++ last).flatten.length = more.flatten ++ part := by
    rw [hpart, List.drop_left]
  dsimp only at hturn
  rw [hdrop] at hturn
  have hstream' : arrived = (r.returned.map HttpBinaryMapped.memory).flatten ++
      ((done ++ (content ++ last)).flatten ++ (more.flatten ++ part)) := by
    rw [hstream, hpart]
    simp only [List.flatten_append, List.append_assoc]
  cases isEnd with
  | false =>
    obtain rfl : last = [] := hlast
    cases hturn
    rw [List.append_nil] at hitem' hnew hstream'
    have hcall := InCall.fields hitem' htype' (hbody.trans hmark) (by
      refine List.forall_mem_append.mpr ⟨hlines, fun l hl => ?_⟩
      exact ⟨hnew l hl, hcontent l hl⟩)
    rw [← hitem'.length] at hcall
    exact ⟨htyped, hreturned, _, hcall, hstream'⟩
  | true =>
    obtain ⟨l, rfl, htwo⟩ : ∃ l, last = [l] ∧ l.length = LENGTH_LF := hlast
    have hends : EndsShort (done ++ (content ++ [l])) := by
      refine ⟨?_, done ++ content, l, (List.append_assoc _ _ _).symm, htwo, ?_⟩
      · exact List.forall_mem_append.mpr ⟨fun m hm => (hlines m hm).1, hnew⟩
      · exact List.forall_mem_append.mpr ⟨fun m hm => (hlines m hm).2, hcontent⟩
    have hfields := (parseLineRecursive_marks hparse).trans hitem'.length
    refine tracked_beginBody ?_ ?_ hitem' hends htype' hfields (hbody.trans hmark) ?_ hturn
    · exact htyped
    · exact hreturned
    · exact hstream'

theorem tracked_turn_body (htyped : r.type = type)
    (hreturned : ∀ item ∈ r.returned, Indexed type item) {length left : ℤ}
    (hphase : r.phase = .body item left) (hitem : HoldsBody ls got item)
    (hlength : bodyLengthOf type ls ls = .ok length) (hpos : 0 < length)
    (hstream : arrived = (r.returned.map HttpBinaryMapped.memory).flatten ++
      (ls.flatten ++ got ++ r.pipe.pending))
    (hturn : r.turn pool = .ok r') : Tracked type arrived r' := by
  unfold ObjectReader.turn at hturn
  simp only [hphase] at hturn
  split_ifs at hturn with hshort
  · obtain ⟨item', hadd, hturn⟩ := do_ok_iff.mp hturn
    cases hturn
    have hadded := hitem.added (HttpBinaryMapped.addBody_added hitem.wellFormed hadd)
    refine ⟨htyped, hreturned, _, .body hadded hlength hpos, ?_⟩
    rw [hstream]
    simp
  · obtain ⟨item', hadd, hturn⟩ := do_ok_iff.mp hturn
    cases hturn
    have hadded := hitem.added (HttpBinaryMapped.addBody_added hitem.wellFormed hadd)
    refine tracked_complete _ htyped hreturned (hadded.indexed_bodyEnd hlength (.inl hpos)) ?_
    rw [hadded.bodyEnd.memory, hstream]
    simp

theorem tracked_turn_chunked (htyped : r.type = type)
    (hreturned : ∀ item ∈ r.returned, Indexed type item) {loop : ChunkedBodyLoop}
    (hphase : r.phase = .chunked loop) (hitem : HoldsBody ls got loop.item)
    (hlength : bodyLengthOf type ls ls = .ok (-2)) (hend : loop.isEnd = false)
    (hstream : arrived = (r.returned.map HttpBinaryMapped.memory).flatten ++
      (ls.flatten ++ got ++ r.pipe.pending))
    (hturn : r.turn pool = .ok r') : Tracked type arrived r' := by
  unfold ObjectReader.turn at hturn
  simp only [hphase] at hturn
  obtain ⟨⟨loop', left⟩, hloop, hturn⟩ := do_ok_iff.mp hturn
  obtain ⟨taken, hpending, htakes⟩ := loop.turn_takes hitem.wellFormed hend hloop
  have hitem' : HoldsBody ls (got ++ taken) loop'.item :=
    ⟨htakes.wellFormed, hitem.endsShort, by rw [htakes.memory, hitem.memory, List.append_assoc],
      htakes.indexEndFields.trans hitem.indexEndFields⟩
  have hleft : (report r.pipe left).pending = left.getD r.pipe.pending := by
    cases left <;> rfl
  have hstream' : arrived = (r.returned.map HttpBinaryMapped.memory).flatten ++
      (ls.flatten ++ (got ++ taken) ++ (report r.pipe left).pending) := by
    rw [hstream, hpending, hleft]
    simp
  dsimp only at hturn
  split_ifs at hturn with hended
  · cases hturn
    have hmark := htakes.ended hended
    refine tracked_complete _ htyped hreturned
      (hitem'.indexed hlength (iff_of_false ?_ (by omega))) ?_
    · have htwo : LENGTH_LF = 2 := rfl
      omega
    · rw [hitem'.memory]
      exact hstream'
  · cases hturn
    refine ⟨htyped, hreturned, _, .chunked hitem' hlength ?_, hstream'⟩
    exact Bool.eq_false_of_not_eq_true hended

theorem Tracked.turn (h : Tracked type arrived r) (hturn : r.turn pool = .ok r') :
    Tracked type arrived r' := by
  obtain ⟨htyped, hreturned, read, hcall, hstream⟩ := h
  generalize hphase : r.phase = phase at hcall
  cases hcall with
  | fields hitem htype hmark hlines =>
    exact tracked_turn_fields htyped hreturned hphase hitem htype hmark hlines hstream hturn
  | body hitem hlength hpos =>
    exact tracked_turn_body htyped hreturned hphase hitem hlength hpos hstream hturn
  | chunked hitem hlength hend =>
    exact tracked_turn_chunked htyped hreturned hphase hitem hlength hend hstream hturn

theorem Tracked.step {more : List UInt8} (h : Tracked type arrived r)
    (hstep : r.step pool more = .ok r') : Tracked type (arrived ++ more) r' := by
  obtain ⟨htyped, hreturned, read, hcall, hstream⟩ := h
  have harrive : Tracked type (arrived ++ more) { r with pipe := r.pipe.arrive more } := by
    refine ⟨htyped, hreturned, read, hcall, ?_⟩
    rw [hstream]
    simp
  unfold ObjectReader.step at hstep
  dsimp only at hstep
  split_ifs at hstep
  · cases hstep
    exact harrive
  · exact harrive.turn hstep

end Step

end DecodingProxy.Piped
