import DecodingProxy.Piped.HeaderMap

/-!
# Messages framed by `ObjectReaderHttp11Piped`

However the messages are cut into reads, the reader gives them back, as long as
`GetBodyLength` finds the length of the body in every header block. Where it finds
another one there are reads after which the stream is out of step.
-/

namespace DecodingProxy.Piped
open DecodingProxy.Runtime DecodingProxy.Lines DecodingProxy.Runs DecodingProxy.Http
open ConstantsForHttp

/-- However the messages arrive, successive calls return them, when the last one is given as
many turns as it takes, and nothing is left to read. -/
def FramesMessages (pool : ArrayPool) (type : MessageType) (ms : List PlainMessage) : Prop :=
  ∀ reads : List (List UInt8), reads.flatten = stream ms →
    ∃ turns r, run (ObjectReader.step pool) { type } (reads ++ List.replicate turns []) = .ok r ∧
      r.returned.map HttpBinaryMapped.memory = ms.map PlainMessage.bytes ∧ r.pipe.pending = []

/-- The message fits an array, and `GetBodyLength` gives the length of its body, or of an absent
body anything that does not start a body. -/
def Framable (type : MessageType) (m : PlainMessage) : Prop :=
  m.bytes.length ≤ arrayMaxLength ∧
    ∃ length, bodyLengthOf type m.header.lines m.header.lines = .ok length ∧
      (0 < length ∧ length = m.body.length ∨ length ≤ 0 ∧ length ≠ -2 ∧ m.body = [])

/-! ### The lines of a header block -/

theorem fieldLine_length {h : HeaderBlock} {l : List UInt8} (hl : l ∈ h.fieldLines) :
    l.length ≠ LENGTH_LF := by
  obtain ⟨content, hc, rfl⟩ := List.mem_map.mp hl
  have hpos := List.length_pos_iff.mpr (h.content content hc).1
  have hcrlf : CRLF.length = LENGTH_LF := rfl
  rw [List.length_append]
  omega

theorem lines_todo {h : HeaderBlock} {done todo : List (List UInt8)}
    (hlines : h.lines = done ++ todo) (htodo : todo ≠ []) :
    ∃ ls, todo = ls ++ [CRLF] ∧ ∀ l ∈ ls, l.length ≠ LENGTH_LF := by
  obtain ⟨ls, last, rfl⟩ := (List.eq_nil_or_concat' todo).resolve_left htodo
  rw [HeaderBlock.lines, ← List.append_assoc] at hlines
  obtain ⟨hfields, hlast⟩ := List.append_inj' hlines rfl
  refine ⟨ls, by rw [List.singleton_inj.mp hlast], fun l hl => fieldLine_length (h := h) ?_⟩
  rw [hfields]
  exact List.mem_append_right done hl

theorem endsShort_of_header {h : HeaderBlock} {done todo : List (List UInt8)}
    (hlines : h.lines = done ++ todo) (htodo : todo ≠ []) : EndsShort todo := by
  obtain ⟨ls, rfl, content⟩ := lines_todo hlines htodo
  refine ⟨fun l hl => h.isLine_lines ?_, ls, CRLF, rfl, rfl, content⟩
  rw [hlines]
  exact List.mem_append_right done hl

/-! ### What is still to come -/

/-- A reader in this phase returns the messages when the bytes come. -/
inductive Awaits (type : MessageType) : List PlainMessage → Phase → List UInt8 → Prop
  | idle : Awaits type [] (.start type) []
  | header {m : PlainMessage} {after : List PlainMessage} {done todo : List (List UInt8)}
      {item : HttpBinaryMapped} (hlines : m.header.lines = done ++ todo) (htodo : todo ≠ [])
      (hitem : Holds done item) (htype : item.type = type) :
      Awaits type (m :: after) (.fields item done.flatten.length)
        (todo.flatten ++ (m.body ++ stream after))
  | body {m : PlainMessage} {after : List PlainMessage} {got left : List UInt8}
      {item : HttpBinaryMapped} (hbody : m.body = got ++ left) (hleft : left ≠ [])
      (hitem : item.WellFormed) (hmemory : item.memory = m.header.bytes ++ got)
      (hroom : item.length + left.length ≤ item.datas.length) :
      Awaits type (m :: after) (.body item left.length) (left ++ stream after)

theorem awaits_start (type : MessageType) (ms : List PlainMessage) :
    Awaits type ms (.start type) (stream ms) := by
  cases ms with
  | nil => exact .idle
  | cons m after =>
    rw [stream_cons]
    have hlines : m.header.lines = [] ++ m.header.lines := rfl
    exact .header hlines (by simp [HeaderBlock.lines]) (holds_start type) rfl

theorem Awaits.of_nil {type : MessageType} {after : List PlainMessage} {phase : Phase}
    (h : Awaits type after phase []) : after = [] ∧ phase = .start type := by
  generalize hleft : ([] : List UInt8) = left at h
  cases h with
  | idle => exact ⟨rfl, rfl⟩
  | @header m after done todo item hlines htodo =>
    obtain ⟨ls, rfl, -⟩ := lines_todo hlines htodo
    simp [CRLF] at hleft
  | body hbody hne =>
    exact absurd (List.append_eq_nil_iff.mp hleft.symm).1 hne

/-- The reader between two reads: `after` are the messages it has not returned. -/
structure Framing (type : MessageType) (ms after : List PlainMessage) (future : List UInt8)
    (r : ObjectReader) : Prop where
  typed : r.type = type
  reading : r.pipe.reading = false
  returned : r.returned.map HttpBinaryMapped.memory ++ after.map PlainMessage.bytes =
    ms.map PlainMessage.bytes
  framable : ∀ m ∈ after, Framable type m
  awaits : Awaits type after r.phase (r.pipe.pending ++ future)

theorem framing_start {type : MessageType} {ms : List PlainMessage}
    (hms : ∀ m ∈ ms, Framable type m) {future : List UInt8} (hstream : future = stream ms) :
    Framing type ms ms future { type } := by
  refine ⟨rfl, rfl, rfl, hms, ?_⟩
  rw [hstream]
  exact awaits_start type ms

/-! ### One turn -/

section Turn
variable {pool : ArrayPool} {r : ObjectReader} {item : HttpBinaryMapped}

/-- The reader after `taken` bytes of the pipe. -/
def ObjectReader.consume (taken : ℕ) (r : ObjectReader) : ObjectReader :=
  { r with pipe := r.pipe.advanceTo (r.pipe.pending.drop taken) }

theorem turn_fields {offset taken : ℕ} {isEnd : Bool} {item' : HttpBinaryMapped}
    (hphase : r.phase = .fields item offset)
    (hparse : parseLineRecursive pool item offset (lines LF r.pipe.pending) =
      .ok (isEnd, item', taken)) :
    r.turn pool = if isEnd then (r.consume taken).beginBody pool item'
      else .ok { r.consume taken with phase := .fields item' item'.length } := by
  unfold ObjectReader.turn
  rw [hphase]
  dsimp only
  rw [do_of_ok hparse]
  rfl

theorem turn_body {length : ℕ} (hphase : r.phase = .body item length) :
    r.turn pool = if r.pipe.pending.length < length then
        (item.addBody r.pipe.pending).map fun item =>
          { r.consume r.pipe.pending.length with
            phase := .body item (length - r.pipe.pending.length : ℕ) }
      else (item.addBody (r.pipe.pending.take length)).map fun item =>
        (r.consume length).complete item.bodyEnd := by
  unfold ObjectReader.turn
  rw [hphase]
  dsimp only
  by_cases hshort : r.pipe.pending.length < length
  · rw [if_pos (by omega), if_pos hshort, Int.ofNat_sub (Nat.le_of_lt hshort),
      ObjectReader.consume, List.drop_length]
    rfl
  · rw [if_neg (by omega), if_neg hshort, Int.toNat_natCast]
    rfl

variable (pool) in
theorem turn_whole_header {h : HeaderBlock} {done todo : List (List UInt8)}
    (hlines : h.lines = done ++ todo) (htodo : todo ≠ []) (hitem : Holds done item)
    (hphase : r.phase = .fields item done.flatten.length) {more : List UInt8}
    (hpending : r.pipe.pending = todo.flatten ++ more) (hfits : h.bytes.length ≤ arrayMaxLength) :
    ∃ item', r.turn pool = (r.consume todo.flatten.length).beginBody pool item' ∧
      Holds h.lines item' ∧ item'.type = item.type := by
  obtain ⟨item', hparse, hitem', htype⟩ := parseLineRecursive_whole pool hitem
    (endsShort_of_header hlines htodo) (hlines ▸ hfits) hpending
  refine ⟨item', ?_, hlines ▸ hitem', htype⟩
  rw [turn_fields hphase hparse, if_pos rfl]

variable (pool) in
theorem turn_part_of_header {h : HeaderBlock} {done todo : List (List UInt8)}
    (hlines : h.lines = done ++ todo) (hitem : Holds done item)
    (hphase : r.phase = .fields item done.flatten.length)
    (hpending : r.pipe.pending <+: todo.flatten) (hshort : r.pipe.pending.length < todo.flatten.length)
    (hfits : h.bytes.length ≤ arrayMaxLength) :
    ∃ item' done' todo', h.lines = done' ++ todo' ∧ todo' ≠ [] ∧ Holds done' item' ∧
      item'.type = item.type ∧ ∃ taken part, r.pipe.pending = taken ++ part ∧
        todo.flatten = taken ++ todo'.flatten ∧ r.turn pool =
          .ok { r.consume taken.length with phase := .fields item' done'.flatten.length } := by
  have htodo : todo ≠ [] := by
    intro hnil
    simp [hnil] at hshort
  obtain ⟨item', new, todo', part, rfl, hends, hsplit, -, hparse, hitem', htype⟩ :=
    parseLineRecursive_some pool hitem (endsShort_of_header hlines htodo) (hlines ▸ hfits)
      hpending hshort
  rw [← List.append_assoc] at hlines
  refine ⟨item', done ++ new, todo', hlines, hends.ne_nil, hitem', htype, new.flatten, part,
    hsplit, List.flatten_append, ?_⟩
  rw [turn_fields hphase hparse, if_neg Bool.false_ne_true, hitem'.length]

end Turn

/-! ### From one read to the next -/

section Framing
variable (pool : ArrayPool) {type : MessageType} {ms : List PlainMessage}

theorem Framing.complete {m : PlainMessage} {after : List PlainMessage} {future : List UInt8}
    {r : ObjectReader} {item : HttpBinaryMapped} (htyped : r.type = type)
    (hreading : r.pipe.reading = false)
    (hreturned : r.returned.map HttpBinaryMapped.memory ++ (m :: after).map PlainMessage.bytes =
      ms.map PlainMessage.bytes)
    (hafter : ∀ m ∈ after, Framable type m)
    (hmemory : item.memory = m.bytes) (hstream : r.pipe.pending ++ future = stream after) :
    Framing type ms after future (r.complete item) := by
  refine ⟨htyped, hreading, ?_, hafter, ?_⟩
  · rw [← hreturned]
    simp [ObjectReader.complete, hmemory]
  · rw [ObjectReader.complete, htyped]
    change Awaits type after (.start type) (r.pipe.pending ++ future)
    rw [hstream]
    exact awaits_start type after

theorem Framing.beginBody {m : PlainMessage} {after : List PlainMessage} {future : List UInt8}
    {r : ObjectReader} {item : HttpBinaryMapped} (hall : ∀ n ∈ m :: after, Framable type n)
    (hitem : Holds m.header.lines item) (htype : item.type = type) (htyped : r.type = type)
    (hreading : r.pipe.reading = false)
    (hreturned : r.returned.map HttpBinaryMapped.memory ++ (m :: after).map PlainMessage.bytes =
      ms.map PlainMessage.bytes)
    (hstream : r.pipe.pending ++ future = m.body ++ stream after) :
    ∃ r' after', r.beginBody pool item = .ok r' ∧ Framing type ms after' future r' ∧
      r'.pipe = r.pipe := by
  have hafter : ∀ n ∈ after, Framable type n := fun n hn => hall n (List.mem_cons_of_mem m hn)
  obtain ⟨hfits, length, hlength, hbody⟩ := hall m List.mem_cons_self
  rw [← htype, ← hitem.getBodyLength] at hlength
  have hmemory : item.memory = m.header.bytes := hitem.memory
  unfold ObjectReader.beginBody
  rw [do_of_ok hlength]
  rcases hbody with ⟨hpos, rfl⟩ | ⟨hnone, hchunked, hempty⟩
  · have hroom : item.length + m.body.length ≤ arrayMaxLength := by
      rw [hitem.length]
      rwa [PlainMessage.bytes, List.length_append] at hfits
    obtain ⟨array, hensure, htake, henough, hmax, hreturn⟩ :=
      HttpBinaryMapped.ensureCapacity_ok pool hitem.wellFormed hroom
    have hwell : ({ item with datas := array } : HttpBinaryMapped).WellFormed :=
      ⟨(Nat.le_add_right _ _).trans henough, hmax, hreturn⟩
    rw [if_pos hpos, Int.toNat_natCast, do_of_ok hensure]
    refine ⟨_, m :: after, rfl, ⟨htyped, hreading, hreturned, hall, ?_⟩, rfl⟩
    change Awaits type (m :: after) (.body { item with datas := array } m.body.length)
      (r.pipe.pending ++ future)
    rw [hstream]
    have hbody : m.body = [] ++ m.body := rfl
    refine .body hbody (List.length_pos_iff.mp (by omega)) hwell ?_ henough
    rw [List.append_nil, ← hmemory]
    exact htake
  · have hbytes : m.bytes = m.header.bytes := by rw [PlainMessage.bytes, hempty, List.append_nil]
    rw [hempty, List.nil_append] at hstream
    rw [if_neg (Int.not_lt.mpr hnone), if_neg hchunked]
    split_ifs with hclose
    · exact ⟨_, after, rfl, Framing.complete htyped hreading hreturned hafter
        (hbytes ▸ hmemory) hstream, rfl⟩
    · exact ⟨_, after, rfl, Framing.complete htyped hreading hreturned hafter
        (hbytes ▸ hmemory) hstream, rfl⟩

section
variable {m : PlainMessage} {after : List PlainMessage} {future : List UInt8} {r : ObjectReader}
  {item : HttpBinaryMapped} (htyped : r.type = type)
  (hreturned : r.returned.map HttpBinaryMapped.memory ++ (m :: after).map PlainMessage.bytes =
    ms.map PlainMessage.bytes)
  (hall : ∀ n ∈ m :: after, Framable type n) (hne : r.pipe.pending ≠ [])
include htyped hreturned hall hne

/-- A turn in the header block leaves a part of it to come, or begins the body. -/
theorem Framing.header_turn {done todo : List (List UInt8)} (hlines : m.header.lines = done ++ todo)
    (htodo : todo ≠ []) (hitem : Holds done item) (htype : item.type = type)
    (hphase : r.phase = .fields item done.flatten.length)
    (hleft : r.pipe.pending ++ future = todo.flatten ++ (m.body ++ stream after)) :
    ∃ r' after', r.turn pool = .ok r' ∧ Framing type ms after' future r' ∧
      (future = [] → r'.pipe.pending.length < r.pipe.pending.length) := by
  have hpos := List.length_pos_iff.mpr hne
  have hfits : m.header.bytes.length ≤ arrayMaxLength := by
    have := (hall m List.mem_cons_self).1
    rw [PlainMessage.bytes, List.length_append] at this
    omega
  rcases Nat.lt_or_ge r.pipe.pending.length todo.flatten.length with hshort | hwhole
  · have hpart : r.pipe.pending <+: todo.flatten :=
      List.prefix_of_prefix_length_le (hleft ▸ List.prefix_append _ _)
        (List.prefix_append _ _) (Nat.le_of_lt hshort)
    obtain ⟨item', done', todo', hlines', htodo', hitem', htype', taken, part, hpending, hsplit,
      hturn⟩ := turn_part_of_header pool hlines hitem hphase hpart hshort hfits
    refine ⟨_, m :: after, hturn, ⟨htyped, rfl, hreturned, hall, ?_⟩, ?_⟩
    · change Awaits type (m :: after) (.fields item' done'.flatten.length)
        (r.pipe.pending.drop taken.length ++ future)
      rw [hpending, hsplit, List.append_assoc, List.append_assoc] at hleft
      rw [hpending, List.drop_left, List.append_cancel_left hleft]
      exact .header hlines' htodo' hitem' (htype'.trans htype)
    · rintro rfl
      have hlength := congrArg List.length hleft
      simp only [List.length_append, List.length_nil] at hlength
      omega
  · obtain ⟨more, hmore⟩ := List.prefix_of_prefix_length_le (List.prefix_append _ _)
      (hleft ▸ List.prefix_append r.pipe.pending future) hwhole
    obtain ⟨item', hturn, hitem', htype'⟩ :=
      turn_whole_header pool hlines htodo hitem hphase hmore.symm hfits
    have hdrop : r.pipe.pending.drop todo.flatten.length = more := by
      rw [← hmore, List.drop_left]
    have hstream : (r.consume todo.flatten.length).pipe.pending ++ future =
        m.body ++ stream after := by
      rw [← hmore, List.append_assoc] at hleft
      change r.pipe.pending.drop todo.flatten.length ++ future = _
      rw [hdrop]
      exact List.append_cancel_left hleft
    obtain ⟨r', after', hbegin, hframing, hpipe⟩ := Framing.beginBody pool
      (r := r.consume todo.flatten.length) hall hitem' (htype'.trans htype) htyped rfl hreturned
      hstream
    refine ⟨r', after', hturn.trans hbegin, hframing, fun _ => ?_⟩
    have htaken : 0 < todo.flatten.length := by
      obtain ⟨ls, rfl, -⟩ := lines_todo hlines htodo
      simp [CRLF]
    rw [hpipe]
    change (r.pipe.pending.drop todo.flatten.length).length < _
    rw [List.length_drop]
    omega

/-- A turn in the body takes all that is there, or the rest of the body. -/
theorem Framing.body_turn {got rest : List UInt8} (hbody : m.body = got ++ rest) (hrest : rest ≠ [])
    (hitem : item.WellFormed) (hmemory : item.memory = m.header.bytes ++ got)
    (hroom : item.length + rest.length ≤ item.datas.length)
    (hphase : r.phase = .body item rest.length)
    (hleft : r.pipe.pending ++ future = rest ++ stream after) :
    ∃ r' after', r.turn pool = .ok r' ∧ Framing type ms after' future r' ∧
      (future = [] → r'.pipe.pending.length < r.pipe.pending.length) := by
  have hpos := List.length_pos_iff.mpr hne
  have hlen := List.length_pos_iff.mpr hrest
  rw [turn_body hphase]
  rcases Nat.lt_or_ge r.pipe.pending.length rest.length with hshort | hwhole
  · obtain ⟨more, hmore⟩ := List.prefix_of_prefix_length_le
      (hleft ▸ List.prefix_append r.pipe.pending future) (List.prefix_append _ _)
      (Nat.le_of_lt hshort)
    rw [← hmore, List.length_append] at hroom hshort
    obtain ⟨item', hadd, hadded, hroom'⟩ := HttpBinaryMapped.addBody_ok
      r.pipe.pending hitem (by omega)
    rw [if_pos (by rw [← hmore, List.length_append]; exact hshort), hadd]
    have hrest' : ((rest.length - r.pipe.pending.length : ℕ) : ℤ) = (more.length : ℕ) := by
      rw [← hmore, List.length_append, Nat.add_sub_cancel_left]
    refine ⟨_, m :: after, rfl, ⟨htyped, rfl, hreturned, hall, ?_⟩, ?_⟩
    · change Awaits type (m :: after) (.body item' (rest.length - r.pipe.pending.length : ℕ))
        (r.pipe.pending.drop r.pipe.pending.length ++ future)
      rw [← hmore, List.append_assoc] at hleft
      rw [hrest', List.drop_length, List.nil_append, List.append_cancel_left hleft]
      have hbody' : m.body = (got ++ r.pipe.pending) ++ more := by
        rw [hbody, ← hmore, List.append_assoc]
      refine .body hbody' ?_ hadded.wellFormed ?_ ?_
      · exact List.length_pos_iff.mp (by omega)
      · rw [hadded.memory, hmemory, List.append_assoc]
      · rw [hroom', hadded.length]
        omega
    · intro _
      change (r.pipe.pending.drop r.pipe.pending.length).length < _
      rw [List.drop_length]
      exact hpos
  · obtain ⟨more, hmore⟩ := List.prefix_of_prefix_length_le (List.prefix_append _ _)
      (hleft ▸ List.prefix_append r.pipe.pending future) hwhole
    obtain ⟨item', hadd, hadded, -⟩ := HttpBinaryMapped.addBody_ok rest hitem hroom
    have htake : r.pipe.pending.take rest.length = rest := by rw [← hmore, List.take_left]
    rw [if_neg (Nat.not_lt.mpr hwhole), htake, hadd]
    refine ⟨_, after, rfl, Framing.complete htyped rfl hreturned
      (fun n hn => hall n (List.mem_cons_of_mem m hn)) ?_ ?_, ?_⟩
    · change item'.memory = m.bytes
      rw [hadded.memory, hmemory, PlainMessage.bytes, hbody, List.append_assoc]
    · change r.pipe.pending.drop rest.length ++ future = stream after
      rw [← hmore, List.append_assoc] at hleft
      rw [← hmore, List.drop_left]
      exact List.append_cancel_left hleft
    · intro _
      change (r.pipe.pending.drop rest.length).length < _
      rw [List.length_drop]
      omega

end

theorem Framing.turn {after : List PlainMessage} {future : List UInt8} {r : ObjectReader}
    (h : Framing type ms after future r) (hne : r.pipe.pending ≠ []) :
    ∃ r' after', r.turn pool = .ok r' ∧ Framing type ms after' future r' ∧
      (future = [] → r'.pipe.pending.length < r.pipe.pending.length) := by
  obtain ⟨htyped, -, hreturned, hall, hawaits⟩ := h
  generalize hphase : r.phase = phase at hawaits
  generalize hleft : r.pipe.pending ++ future = left at hawaits
  cases hawaits with
  | idle => exact absurd (List.append_eq_nil_iff.mp hleft).1 hne
  | header hlines htodo hitem htype =>
    exact Framing.header_turn pool htyped hreturned hall hne hlines htodo hitem htype hphase hleft
  | body hbody hrest hitem hmemory hroom =>
    exact Framing.body_turn pool htyped hreturned hall hne hbody hrest hitem hmemory hroom hphase
      hleft

theorem Framing.step {after : List PlainMessage} {future arrived : List UInt8} {r : ObjectReader}
    (h : Framing type ms after (arrived ++ future) r) :
    ∃ r' after', r.step pool arrived = .ok r' ∧ Framing type ms after' future r' ∧
      (future = [] → r'.pipe.pending.length ≤ r.pipe.pending.length + arrived.length - 1) := by
  have harrive : Framing type ms after future { r with pipe := r.pipe.arrive arrived } := by
    refine ⟨h.typed, h.reading, h.returned, h.framable, ?_⟩
    rw [Pipe.arrive_pending, List.append_assoc]
    exact h.awaits
  unfold ObjectReader.step
  dsimp only
  rw [if_neg (by simp [h.reading])]
  by_cases hnil : (r.pipe.arrive arrived).pending = []
  · rw [if_pos hnil]
    refine ⟨_, after, rfl, harrive, fun _ => ?_⟩
    simp only [hnil, List.length_nil]
    exact Nat.zero_le _
  · rw [if_neg hnil]
    obtain ⟨r', after', hturn, hframing, hless⟩ := harrive.turn pool hnil
    refine ⟨r', after', hturn, hframing, fun hfuture => ?_⟩
    have := hless hfuture
    rw [Pipe.arrive_pending, List.length_append] at this
    omega

theorem Framing.run {reads : List (List UInt8)} {after : List PlainMessage} {future : List UInt8}
    {r : ObjectReader} (h : Framing type ms after (reads.flatten ++ future) r) :
    ∃ r' after', run (ObjectReader.step pool) r reads = .ok r' ∧ Framing type ms after' future r' := by
  induction reads generalizing r after with
  | nil => exact ⟨r, after, rfl, h⟩
  | cons arrived reads ih =>
    rw [List.flatten_cons, List.append_assoc] at h
    obtain ⟨r', after', hstep, h', -⟩ := h.step pool
    obtain ⟨r'', after'', hrun, h''⟩ := ih h'
    exact ⟨r'', after'', run_cons_ok_iff.mpr ⟨r', hstep, hrun⟩, h''⟩

theorem Framing.finish {turns : ℕ} {after : List PlainMessage} {r : ObjectReader}
    (h : Framing type ms after [] r) (hturns : r.pipe.pending.length ≤ turns) :
    ∃ r', Runs.run (ObjectReader.step pool) r (List.replicate turns []) = .ok r' ∧
      Framing type ms [] [] r' ∧ r'.pipe.pending = [] := by
  induction turns generalizing r after with
  | zero =>
    have hnil := List.length_eq_zero_iff.mp (Nat.le_zero.mp hturns)
    have hawaits := h.awaits
    rw [hnil] at hawaits
    obtain ⟨rfl, -⟩ := hawaits.of_nil
    exact ⟨r, rfl, h, hnil⟩
  | succ turns ih =>
    have hnothing : Framing type ms after ([] ++ []) r := h
    obtain ⟨r', after', hstep, h', hless⟩ := hnothing.step pool
    have hshort := hless rfl
    rw [List.length_nil] at hshort
    obtain ⟨r'', hrun, h'', hnil⟩ := ih h' (by omega)
    exact ⟨r'', run_cons_ok_iff.mpr ⟨r', hstep, hrun⟩, h'', hnil⟩

/-- Between messages, with `ms` returned. -/
theorem frames_of_framable (hms : ∀ m ∈ ms, Framable type m) {reads : List (List UInt8)}
    (hreads : reads.flatten = stream ms) :
    ∃ turns r, Runs.run (ObjectReader.step pool) { type } (reads ++ List.replicate turns []) =
        .ok r ∧ Framing type ms [] [] r ∧ r.pipe.pending = [] := by
  have hstart : Framing type ms ms (reads.flatten ++ []) { type } :=
    framing_start hms (by rw [List.append_nil, hreads])
  obtain ⟨r, after, hrun, h⟩ := hstart.run pool
  obtain ⟨r', hturns, h', hnil⟩ := h.finish pool (le_refl r.pipe.pending.length)
  exact ⟨_, r', run_append_ok_iff.mpr ⟨r, hrun, hturns⟩, h', hnil⟩

end Framing

/-! ### What a reader that frames every delivery needs -/

section Necessary
variable {pool : ArrayPool} {type : MessageType} {r r' : ObjectReader}

theorem beginBody_returned {item : HttpBinaryMapped} (h : r.beginBody pool item = .ok r') :
    r.returned <+: r'.returned := by
  unfold ObjectReader.beginBody at h
  obtain ⟨length, -, h⟩ := do_ok_iff.mp h
  split_ifs at h
  · obtain ⟨grown, -, h⟩ := do_ok_iff.mp h
    cases h
    exact List.prefix_rfl
  · cases h
    exact List.prefix_rfl
  · cases h
    exact List.prefix_append _ _
  · cases h
    exact List.prefix_append _ _

theorem turn_returned (h : r.turn pool = .ok r') : r.returned <+: r'.returned := by
  unfold ObjectReader.turn at h
  cases hphase : r.phase with
  | fields item offset =>
    simp only [hphase] at h
    obtain ⟨⟨isEnd, item', taken⟩, -, h⟩ := do_ok_iff.mp h
    dsimp only at h
    split_ifs at h
    · have hle := beginBody_returned h
      exact hle
    · cases h
      exact List.prefix_rfl
  | body item length =>
    simp only [hphase] at h
    split_ifs at h
    · obtain ⟨item', -, h⟩ := do_ok_iff.mp h
      cases h
      exact List.prefix_rfl
    · obtain ⟨item', -, h⟩ := do_ok_iff.mp h
      cases h
      exact List.prefix_append _ _
  | chunked loop =>
    simp only [hphase] at h
    obtain ⟨⟨loop', left⟩, -, h⟩ := do_ok_iff.mp h
    dsimp only at h
    split_ifs at h
    · cases h
      exact List.prefix_append _ _
    · cases h
      exact List.prefix_rfl

theorem step_returned {arrived : List UInt8} (h : r.step pool arrived = .ok r') :
    r.returned <+: r'.returned := by
  unfold ObjectReader.step at h
  dsimp only at h
  split_ifs at h
  · cases h
    exact List.prefix_rfl
  · have hle := turn_returned h
    exact hle

theorem run_returned {reads : List (List UInt8)} (h : run (ObjectReader.step pool) r reads = .ok r') :
    r.returned <+: r'.returned := by
  induction reads generalizing r with
  | nil =>
    cases h
    exact List.prefix_rfl
  | cons arrived reads ih =>
    obtain ⟨s, hstep, hrun⟩ := run_cons_ok_iff.mp h
    exact (step_returned hstep).trans (ih hrun)

/-- The reader when more has come. -/
def ObjectReader.arrive (arrived : List UInt8) (r : ObjectReader) : ObjectReader :=
  { r with pipe := r.pipe.arrive arrived }

theorem step_eq (hreading : r.pipe.reading = false) {arrived : List UInt8} :
    r.step pool arrived = if (r.arrive arrived).pipe.pending = [] then .ok (r.arrive arrived)
      else (r.arrive arrived).turn pool := by
  unfold ObjectReader.step
  dsimp only
  rw [if_neg (by simp [hreading])]
  rfl

theorem run_idle (hreading : r.pipe.reading = false) (hpending : r.pipe.pending = []) (turns : ℕ) :
    run (ObjectReader.step pool) r (List.replicate turns []) = .ok r := by
  have hstep : r.step pool [] = .ok r := by
    rw [step_eq hreading, if_pos (by simp [ObjectReader.arrive, hpending])]
    simp [ObjectReader.arrive, Pipe.arrive]
  induction turns with
  | zero => rfl
  | succ turns ih =>
    rw [List.replicate_succ]
    exact run_cons_ok_iff.mpr ⟨r, hstep, ih⟩

/-- Between two messages. -/
structure Fresh (type : MessageType) (r : ObjectReader) : Prop where
  typed : r.type = type
  phase : r.phase = .start type
  pending : r.pipe.pending = []
  reading : r.pipe.reading = false

variable (pool) in
theorem Fresh.step_header (h : Fresh type r) {header : HeaderBlock}
    (hfits : header.bytes.length ≤ arrayMaxLength) :
    ∃ (item : HttpBinaryMapped) (s : ObjectReader), r.step pool header.bytes =
        s.beginBody pool item ∧ Holds header.lines item ∧ item.type = type ∧
      s.pipe.pending = [] ∧ s.pipe.reading = false ∧ s.returned = r.returned := by
  let s : ObjectReader := { r with pipe := r.pipe.arrive header.bytes }
  have hlines : header.lines = [] ++ header.lines := rfl
  have hpending : s.pipe.pending = header.lines.flatten ++ [] := by
    simp [s, h.pending, HeaderBlock.bytes]
  obtain ⟨item, hturn, hitem, htype⟩ := turn_whole_header pool (r := s) hlines
    (by simp [HeaderBlock.lines]) (holds_start type) h.phase hpending hfits
  refine ⟨item, s.consume header.lines.flatten.length, ?_, hitem, htype, ?_, rfl, rfl⟩
  · unfold ObjectReader.step
    dsimp only
    rw [if_neg (by simp [h.reading]), if_neg (by simp [header.bytes_ne_nil]), hturn]
  · simp [s, ObjectReader.consume, h.pending, HeaderBlock.bytes]

theorem Fresh.header_fits (h : Fresh type r) {header : HeaderBlock}
    (hstep : r.step pool header.bytes = .ok r') : header.bytes.length ≤ arrayMaxLength := by
  have hall : header.lines = [] ++ header.lines := rfl
  obtain ⟨ls, hls, content⟩ := lines_todo hall (by simp [HeaderBlock.lines])
  have hoffer : lines LF header.bytes = ls ++ CRLF :: [] := by
    have hlines := lines_flatten (fun l hl => header.isLine_lines hl) []
    rw [List.append_nil, lines, List.append_nil] at hlines
    rw [HeaderBlock.bytes, hlines, hls]
  unfold ObjectReader.step at hstep
  dsimp only at hstep
  rw [if_neg (by simp [h.reading]), if_neg (by simp [header.bytes_ne_nil])] at hstep
  unfold ObjectReader.turn at hstep
  simp only [h.phase, Phase.start, Pipe.arrive_pending, h.pending, List.nil_append] at hstep
  obtain ⟨result, hparse, -⟩ := do_ok_iff.mp hstep
  rw [hoffer] at hparse
  have hfits := parseLineRecursive_fits content (holds_start type).adding hparse
  rwa [← hls, List.flatten_nil, List.length_nil, Nat.zero_add] at hfits

/-- The first item that is returned is the message. -/
theorem memory_of_returned {s : ObjectReader} {bytes : List UInt8} {more : List (List UInt8)}
    {item : HttpBinaryMapped} {reads : List (List UInt8)}
    (hrun : run (ObjectReader.step pool) s reads = .ok r') (hs : s.returned = r.returned ++ [item])
    (hreturned : r'.returned.map HttpBinaryMapped.memory =
      r.returned.map HttpBinaryMapped.memory ++ bytes :: more) : item.memory = bytes := by
  obtain ⟨others, hothers⟩ := run_returned hrun
  rw [← hothers, hs, List.map_append, List.map_append, List.append_assoc] at hreturned
  exact (List.cons.inj (List.append_cancel_left hreturned)).1

theorem not_returned {s : ObjectReader} {bytes : List UInt8} {more : List (List UInt8)}
    (hs : s.returned = r.returned) :
    s.returned.map HttpBinaryMapped.memory ≠
      r.returned.map HttpBinaryMapped.memory ++ bytes :: more := by
  rw [hs]
  simp

theorem ChunkedBodyLoop.turn_byte {item : HttpBinaryMapped} {b : UInt8}
    {result : ChunkedBodyLoop × Option (List UInt8)}
    (h : ({ item } : ChunkedBodyLoop).turn pool [b] = .ok result) : result = ({ item }, none) := by
  unfold ChunkedBodyLoop.turn at h
  rw [if_pos rfl] at h
  by_cases hb : b = LF
  · rw [hb, show lines LF [LF] = [[LF]] from rfl] at h
    obtain ⟨⟨loop, left⟩, hcontrol, -⟩ := do_ok_iff.mp h
    obtain ⟨item', -, hcontrol⟩ := do_ok_iff.mp hcontrol
    obtain ⟨size, hparse, -⟩ := do_ok_iff.mp hcontrol
    have hformat : Str.parseHex (chars [LF]) = .error (.raised .format) := rfl
    rw [hformat] at hparse
    cases hparse
  · rw [lines_of_not_mem (by simpa using Ne.symm hb)] at h
    cases h
    rfl

section Body
variable {item : HttpBinaryMapped} {following bytes : List UInt8} {more : List (List UInt8)}
  {turns : ℕ} (hreading : r.pipe.reading = false)
  (hreturned : r'.returned.map HttpBinaryMapped.memory =
    r.returned.map HttpBinaryMapped.memory ++ bytes :: more)
include hreading hreturned

theorem length_of_body {length : ℕ} (hphase : r.phase = .body item length)
    (hmax : item.datas.length ≤ arrayMaxLength)
    (hrun : run (ObjectReader.step pool) r ([following] ++ List.replicate turns []) = .ok r') :
    bytes.length = item.length + length ∧ bytes.length ≤ arrayMaxLength := by
  obtain ⟨s, hstep, hturns⟩ := run_append_ok_iff.mp hrun
  obtain ⟨_, hstep, hnil⟩ := run_cons_ok_iff.mp hstep
  cases hnil
  rw [step_eq hreading] at hstep
  split_ifs at hstep with hnothing
  · cases hstep
    rw [run_idle (r := r.arrive following) hreading hnothing] at hturns
    cases hturns
    exact absurd hreturned (not_returned rfl)
  · rw [turn_body (r := r.arrive following) hphase] at hstep
    split_ifs at hstep with hshort
    · obtain ⟨item', -, rfl⟩ := map_ok_iff.mp hstep
      rw [run_idle rfl (List.drop_length)] at hturns
      cases hturns
      exact absurd hreturned (not_returned rfl)
    · obtain ⟨item', hadd, rfl⟩ := map_ok_iff.mp hstep
      have hmemory := memory_of_returned hturns rfl hreturned
      obtain ⟨copied, hcopy, hitem'⟩ := do_ok_iff.mp hadd
      obtain ⟨hroom, rfl⟩ := HttpBinaryMapped.copyIn_inv hcopy
      cases hitem'
      have htake : ((r.arrive following).pipe.pending.take length).length = length := by
        rw [List.length_take]
        omega
      have hlen := Arrays.writeAt_length hroom
      rw [htake] at hroom
      rw [← hmemory]
      simp only [HttpBinaryMapped.bodyEnd, HttpBinaryMapped.memory, List.length_take, hlen]
      rw [List.length_take] at htake
      omega

/-- When the body is taken for a chunked one, a read of its first byte leaves the call stuck. -/
theorem not_chunked (hpending : r.pipe.pending = []) (hphase : r.phase = .chunked { item })
    (hrun : run (ObjectReader.step pool) r
      (following.map (fun b => [b]) ++ List.replicate turns []) = .ok r') : False := by
  cases following with
  | nil =>
    rw [List.map_nil, List.nil_append, run_idle hreading hpending] at hrun
    cases hrun
    exact not_returned rfl hreturned
  | cons b following =>
    rw [List.map_cons, List.cons_append] at hrun
    obtain ⟨s, hstep, hrun⟩ := run_cons_ok_iff.mp hrun
    have hpending' : (r.arrive [b]).pipe.pending = [b] := by simp [ObjectReader.arrive, hpending]
    rw [step_eq hreading, if_neg (by simp [hpending'])] at hstep
    unfold ObjectReader.turn at hstep
    simp only [show (r.arrive [b]).phase = .chunked { item } from hphase, hpending'] at hstep
    obtain ⟨result, hturn, hstep⟩ := do_ok_iff.mp hstep
    obtain rfl := ChunkedBodyLoop.turn_byte hturn
    cases hstep
    cases hall : following.map (fun b => [b]) ++ List.replicate turns [] with
    | nil =>
      rw [hall] at hrun
      cases hrun
      exact not_returned rfl hreturned
    | cons arrived reads =>
      rw [hall] at hrun
      obtain ⟨s, hstep, -⟩ := run_cons_ok_iff.mp hrun
      cases hstep

end Body

/-- What a reader that frames every delivery does after the first messages. -/
theorem frames_after {before after : List PlainMessage} {m : PlainMessage}
    (hbefore : ∀ n ∈ before, Framable type n)
    (hframes : FramesMessages pool type (before ++ m :: after)) :
    ∃ s, Fresh type s ∧ ∀ reads : List (List UInt8),
      reads.flatten = m.header.bytes ++ (m.body ++ stream after) →
      ∃ turns r, run (ObjectReader.step pool) s (reads ++ List.replicate turns []) = .ok r ∧
        r.returned.map HttpBinaryMapped.memory =
          s.returned.map HttpBinaryMapped.memory ++ m.bytes :: after.map PlainMessage.bytes := by
  obtain ⟨turns, s, hs, hframing, hnil⟩ := frames_of_framable pool hbefore
    (show [stream before].flatten = stream before from List.append_nil _)
  obtain ⟨htyped, hreading, hreturned, -, hawaits⟩ := hframing
  rw [hnil] at hawaits
  refine ⟨s, ⟨htyped, hawaits.of_nil.2, hnil, hreading⟩, fun reads hreads => ?_⟩
  have hdelivery : (([stream before] ++ List.replicate turns []) ++ reads).flatten =
      stream (before ++ m :: after) := by
    rw [List.flatten_append, List.flatten_append, hreads, ← stream_cons]
    simp [stream]
  obtain ⟨turns', r, hrun, hall, -⟩ := hframes _ hdelivery
  rw [List.append_assoc] at hrun
  obtain ⟨s', hs', hrun⟩ := run_append_ok_iff.mp hrun
  cases hs.symm.trans hs'
  refine ⟨turns', r, hrun, ?_⟩
  rw [List.map_nil, List.append_nil] at hreturned
  rw [hall, hreturned, List.map_append, List.map_cons]

theorem framable_of_frames {before after : List PlainMessage} {m : PlainMessage}
    (hbefore : ∀ n ∈ before, Framable type n)
    (hframes : FramesMessages pool type (before ++ m :: after)) : Framable type m := by
  obtain ⟨s, hs, hall⟩ := frames_after hbefore hframes
  obtain ⟨turns, r, hrun, hreturned⟩ := hall [m.header.bytes, m.body ++ stream after] (by simp)
  obtain ⟨s₁, hstep, hrun⟩ := run_cons_ok_iff.mp hrun
  have hfits := hs.header_fits hstep
  obtain ⟨item, t, hheader, hitem, htype, hpending, hreading, hsame⟩ :=
    hs.step_header pool hfits
  have hbegin := hheader.symm.trans hstep
  have hmemory : item.memory = m.header.bytes := hitem.memory
  have hcount : item.length = m.header.bytes.length := hitem.length
  rw [← hsame] at hreturned
  obtain ⟨length, hlength, hphase⟩ := do_ok_iff.mp hbegin
  have hbody := hlength
  rw [hitem.getBodyLength, htype] at hbody
  have hbytes : m.bytes.length = m.header.bytes.length + m.body.length := List.length_append
  -- The cases are those of `GetBodyLength`.
  split_ifs at hphase with hpos hchunked hclose
  · obtain ⟨⟨grown, size⟩, hgrow, hphase⟩ := do_ok_iff.mp hphase
    cases hphase
    obtain ⟨hkept, hmax⟩ := HttpBinaryMapped.ensureCapacity_inv hitem.wellFormed hgrow
    have hsize : length = ((length.toNat : ℕ) : ℤ) := by omega
    let u : ObjectReader := { t with phase := .body grown length }
    obtain ⟨htotal, hroom⟩ := length_of_body (r := u) hreading hreturned
      (congrArg (Phase.body grown) hsize) hmax hrun
    refine ⟨hroom, length, hbody, .inl ⟨hpos, ?_⟩⟩
    omega
  · cases hphase
    obtain ⟨turns, r, hrun, hreturned⟩ := hall
      (m.header.bytes :: (m.body ++ stream after).map fun b => [b])
      (by rw [List.flatten_cons, ← List.flatMap_def, List.flatMap_singleton'])
    obtain ⟨s₁, hstep, hrun⟩ := run_cons_ok_iff.mp hrun
    rw [← hsame] at hreturned
    cases hbegin.symm.trans (hheader.symm.trans hstep)
    let u : ObjectReader := { t with phase := .chunked { item } }
    exact (not_chunked (r := u) hreading hreturned hpending rfl hrun).elim
  · cases hphase
    let closed := { item with isReadingUntilCloseConnection := true }.bodyEnd
    have htaken : closed.memory = m.bytes := memory_of_returned hrun rfl hreturned
    have hbare := hmemory.symm.trans htaken
    exact ⟨hbare ▸ hfits, length, hbody,
      .inr ⟨Int.not_lt.mp hpos, hchunked, PlainMessage.body_absent hbare⟩⟩
  · cases hphase
    have htaken : item.memory = m.bytes := memory_of_returned hrun rfl hreturned
    have hbare := hmemory.symm.trans htaken
    exact ⟨hbare ▸ hfits, length, hbody,
      .inr ⟨Int.not_lt.mp hpos, hchunked, PlainMessage.body_absent hbare⟩⟩

end Necessary

theorem framesMessages_iff (pool : ArrayPool) (type : MessageType) (ms : List PlainMessage) :
    FramesMessages pool type ms ↔ ∀ m ∈ ms, Framable type m := by
  constructor
  · intro hframes
    have hfirst : ∀ before after, ms = before ++ after → ∀ m ∈ before, Framable type m := by
      intro before
      induction before using List.reverseRecOn with
      | nil => simp
      | append_singleton before n ih =>
        intro after hms
        rw [List.append_assoc, List.singleton_append] at hms
        have hbefore := ih (n :: after) hms
        intro m hm
        rcases List.mem_append.mp hm with hm | hm
        · exact hbefore m hm
        · rw [List.mem_singleton.mp hm]
          exact framable_of_frames hbefore (hms ▸ hframes)
    exact hfirst ms [] (List.append_nil ms).symm
  · intro hms reads hreads
    obtain ⟨turns, r, hrun, hframing, hnil⟩ := frames_of_framable pool hms hreads
    have hreturned := hframing.returned
    rw [List.map_nil, List.append_nil] at hreturned
    exact ⟨turns, r, hrun, hreturned, hnil⟩

/-- `POST / HTTP/1.1` with a field name in lower case and a body of one byte. -/
def lowerCaseMessage : PlainMessage where
  header := ⟨asciiBytes "POST / HTTP/1.1", [asciiBytes "content-length: 1"], by decide⟩
  body := asciiBytes "x"
  delimited := by
    refine .inr ⟨_, List.mem_singleton_self _, asciiBytes "1", by decide,
      by decide, asciiBytes "content-length", asciiBytes " ", [], by decide,
      by decide, by decide, by decide⟩

/-- The name is compared byte by byte, so the body is left for the next call. -/
theorem not_framesMessages_lower_case :
    ¬ FramesMessages .zeroed .request [lowerCaseMessage] := by
  intro hframes
  have hnone : ∀ n ∈ ([] : List PlainMessage), Framable .request n := by simp
  obtain ⟨-, length, hlength, hbody⟩ := framable_of_frames hnone hframes
  have hvalue : bodyLengthOf .request lowerCaseMessage.header.lines lowerCaseMessage.header.lines =
      .ok (-3) := rfl
  cases hvalue.symm.trans hlength
  rcases hbody with ⟨hpos, -⟩ | ⟨-, -, hempty⟩
  · exact absurd hpos (by decide)
  · exact absurd hempty (by decide)

end DecodingProxy.Piped
