import DecodingProxy.Lib.Runs
import DecodingProxy.Runtime.ArrayPool
import DecodingProxy.Runtime.ReadOnlySequence

/-!
# The bytes that `PipedSocket` counts

`available` goes up by what the socket gives, and down by the difference of two integers of
positions. Each of these counts from the start of its own segment, so the difference is the count
of the bytes that were consumed only where no bytes lie in the segments in between.
-/

namespace DecodingProxy.Sockets
open DecodingProxy.Runtime DecodingProxy.Runs

structure PipedSocket where
  totalBytesFilled : UInt32 := 0
  totalBytesConsumed : UInt32 := 0
  available : ℤ := 0
  /-- The integer of the position at the last read or report. -/
  position : ℤ := 0
  buffer : ReadOnlySequence := {}
  bufferCurrent : ReadOnlySequence := {}
  /-- A read of the pipe was not followed by `AdvanceTo`. -/
  reading : Bool := false
  deriving DecidableEq

namespace PipedSocket

/-- A turn of `FillPipeAsync` in which the socket gives `bytesRead` bytes. -/
def fill (bytesRead : ArrayLength) (s : PipedSocket) : PipedSocket :=
  if bytesRead.val > 0 then
    { s with
      totalBytesFilled := s.totalBytesFilled + .ofNat bytesRead.val
      available := int32 (s.available + bytesRead.val) }
  else s

/-- `ReadAsync`, where the pipe gives `buffer`. Where `rereads` holds, a pipe gives its bytes again
to a read that comes before `AdvanceTo`; otherwise that read throws. -/
def readAsync (rereads : Bool) (buffer : ReadOnlySequence) (s : PipedSocket) :
    PipedSocket × Except Fault Unit :=
  if s.reading && !rereads then (s, .error (.raised .invalidOperation))
  else
    ({ s with buffer, bufferCurrent := buffer, position := buffer.start, reading := true }, .ok ())

/-- The position that is given back is the one up to which the pipe was advanced. -/
def reportConsume (position : SequencePosition) (s : PipedSocket) :
    PipedSocket × Except Fault SequencePosition :=
  match s.bufferCurrent.slice position with
  | .error fault => (s, .error fault)
  | .ok bufferCurrent =>
    let s := { s with bufferCurrent }
    -- `AdvanceTo` throws when there is no read to complete
    if s.reading = false then (s, .error (.raised .invalidOperation))
    else
      let newPos : ℤ := position.integer
      let consumed := newPos - s.position
      ({ s with
        reading := false
        totalBytesConsumed := s.totalBytesConsumed + .ofInt consumed
        available := int32 (s.available - consumed)
        position := newPos }, .ok position)

/-- `Slice(0, length)` ends where `Seek` gets to. -/
def consume (length : ℕ) (s : PipedSocket) : PipedSocket × Except Fault SequencePosition :=
  match s.bufferCurrent.seek length, s.bufferCurrent.sliceFrom length with
  | .ok sliceEnd, .ok bufferCurrent => { s with bufferCurrent }.reportConsume sliceEnd
  | .error fault, _ => (s, .error fault)
  | _, .error fault => (s, .error fault)

variable {s : PipedSocket} {position : SequencePosition} {length : ℕ}

@[simp] theorem fill_reading (bytesRead : ArrayLength) (s : PipedSocket) :
    (s.fill bytesRead).reading = s.reading := by
  unfold fill
  split_ifs <;> rfl

@[simp] theorem fill_bufferCurrent (bytesRead : ArrayLength) (s : PipedSocket) :
    (s.fill bytesRead).bufferCurrent = s.bufferCurrent := by
  unfold fill
  split_ifs <;> rfl

@[simp] theorem fill_buffer (bytesRead : ArrayLength) (s : PipedSocket) :
    (s.fill bytesRead).buffer = s.buffer := by
  unfold fill
  split_ifs <;> rfl

@[simp] theorem fill_position (bytesRead : ArrayLength) (s : PipedSocket) :
    (s.fill bytesRead).position = s.position := by
  unfold fill
  split_ifs <;> rfl

theorem fill_available (hlow : -2 ^ 31 ≤ s.available) (hhigh : s.available < 2 ^ 31)
    (bytesRead : ArrayLength) :
    (s.fill bytesRead).available = int32 (s.available + bytesRead.val) := by
  unfold fill
  split_ifs with hpos
  · rfl
  · rw [int32_of_range] <;> omega

theorem reportConsume_refused {fault : Fault} (h : s.bufferCurrent.slice position = .error fault) :
    s.reportConsume position = (s, .error fault) := by
  simp only [reportConsume, h]

variable {bufferCurrent : ReadOnlySequence}

theorem reportConsume_idle (h : s.bufferCurrent.slice position = .ok bufferCurrent)
    (hreading : s.reading = false) :
    s.reportConsume position =
      ({ s with bufferCurrent }, .error (.raised .invalidOperation)) := by
  simp only [reportConsume, h, hreading, if_true]

theorem reportConsume_ok (h : s.bufferCurrent.slice position = .ok bufferCurrent)
    (hreading : s.reading = true) :
    s.reportConsume position =
      ({ s with
        bufferCurrent
        reading := false
        totalBytesConsumed := s.totalBytesConsumed + .ofInt (position.integer - s.position)
        available := int32 (s.available - (position.integer - s.position))
        position := position.integer }, .ok position) := by
  simp only [reportConsume, h, hreading, Bool.true_eq_false, if_false]

/-- `Consume` is the report of the position that `Seek` gives. -/
theorem consume_eq (hseek : s.bufferCurrent.seek length = .ok position) :
    s.consume length = s.reportConsume position := by
  obtain ⟨⟨bufferCurrent, hslice⟩, -⟩ := ReadOnlySequence.seek_spec hseek
  unfold consume
  rw [hseek, ReadOnlySequence.sliceFrom]
  split_ifs with hzero
  · rfl
  · rw [do_of_ok hseek, hslice]
    simp only [reportConsume, hslice, ReadOnlySequence.slice_self hslice]

theorem consume_refused {fault : Fault} (h : s.bufferCurrent.seek length = .error fault) :
    s.consume length = (s, .error fault) := by
  simp only [consume, h]

end PipedSocket

inductive PipedSocketCall
  | fill (bytesRead : ArrayLength)
  | readAsync (buffer : ReadOnlySequence)
  | reportConsume (position : SequencePosition)
  | consume (length : ℕ)
  deriving DecidableEq

/-- A socket with the count of the bytes filled, and of those up to which the pipe was advanced. -/
structure PipedSocketSession where
  socket : PipedSocket := {}
  filled : ℕ := 0
  consumed : ℕ := 0
  deriving DecidableEq

namespace PipedSocketSession

/-- A pipe gives no more bytes than were filled and not consumed, in segments that arrays hold. -/
def Offers (s : PipedSocketSession) (buffer : ReadOnlySequence) : Prop :=
  buffer.length + s.consumed ≤ s.filled ∧ ∀ length ∈ buffer.lengths, length ≤ arrayMaxLength

instance (s : PipedSocketSession) (buffer : ReadOnlySequence) : Decidable (s.Offers buffer) := by
  unfold Offers
  infer_instance

/-- The pipe gives up what lies before the position in the buffer that was read. -/
def record (s : PipedSocketSession) :
    PipedSocket × Except Fault SequencePosition → PipedSocketSession
  | (socket, .ok position) =>
    { s with socket, consumed := s.consumed + s.socket.buffer.distance position }
  | (socket, .error _) => { s with socket }

/-- A buffer that the pipe does not give is an error. A call that throws is not. -/
def step (rereads : Bool) (s : PipedSocketSession) :
    PipedSocketCall → Except Unit PipedSocketSession
  | .fill bytesRead =>
    .ok { s with socket := s.socket.fill bytesRead, filled := s.filled + bytesRead.val }
  | .readAsync buffer =>
    if s.Offers buffer then .ok { s with socket := (s.socket.readAsync rereads buffer).1 }
    else .error ()
  | .reportConsume position => .ok (s.record (s.socket.reportConsume position))
  | .consume length => .ok (s.record (s.socket.consume length))

structure Exact (s : PipedSocketSession) : Prop where
  available : s.socket.available = s.filled - s.consumed
  nonneg : 0 ≤ s.socket.available

def CountsExactly (rereads : Bool) (calls : List PipedSocketCall) : Prop :=
  ∀ s, Reached (step rereads) {} calls s → s.Exact

/-- A report of the position that is not refused comes from the segment in which the buffer begins,
or only empty segments lie in between. -/
def Stays (s : PipedSocketSession) (position : SequencePosition) : Prop :=
  s.socket.reading = true → (s.socket.bufferCurrent.slice position).isOk = true →
    s.socket.buffer.before position = 0

/-- A call that consumes ends in the segment in which the buffer begins, and the bytes that are
filled and not consumed are no more than an `int` counts. -/
def Tallies (s : PipedSocketSession) : PipedSocketCall → Prop
  | .fill bytesRead => s.filled + bytesRead.val < s.consumed + 2 ^ 31
  | .readAsync _ => True
  | .reportConsume position => s.Stays position
  | .consume length => ∀ position, s.socket.bufferCurrent.seek length = .ok position →
    s.Stays position

structure Sound (s : PipedSocketSession) : Prop where
  range : s.socket.available < 2 ^ 31
  current : s.socket.reading = true → s.socket.bufferCurrent = s.socket.buffer
  position : s.socket.reading = true → s.socket.position = s.socket.buffer.start
  offered : s.socket.reading = true → s.Offers s.socket.buffer

variable {rereads : Bool} {s t : PipedSocketSession} {position : SequencePosition} {length : ℕ}

theorem sound_start : Sound {} := by
  constructor <;> simp

theorem sound_of_idle (hrange : s.socket.available < 2 ^ 31) (hreading : s.socket.reading = false) :
    s.Sound := by
  refine ⟨hrange, ?_, ?_, ?_⟩
  all_goals
    rw [hreading]
    exact fun h => absurd h Bool.false_ne_true

theorem Sound.fill (h : s.Sound) (hexact : s.Exact) {bytesRead : ArrayLength}
    (ht : step rereads s (.fill bytesRead) = .ok t) :
    (t.Exact ↔ s.Tallies (.fill bytesRead)) ∧ t.Sound := by
  cases ht
  have havailable := hexact.available
  have hnonneg := hexact.nonneg
  have hint := PipedSocket.fill_available (by omega) h.range bytesRead
  have hbounds := int32_range (s.socket.available + bytesRead.val)
  rw [← hint] at hbounds
  refine ⟨⟨fun hall => ?_, fun htallies => ?_⟩, ⟨hbounds.2, ?_, ?_, ?_⟩⟩
  · have hsum := hall.available
    dsimp only at hsum
    change s.filled + bytesRead.val < s.consumed + 2 ^ 31
    push_cast at hsum
    omega
  · change s.filled + bytesRead.val < s.consumed + 2 ^ 31 at htallies
    rw [int32_of_range (by omega) (by omega)] at hint
    have hsum : (s.socket.fill bytesRead).available =
        ((s.filled + bytesRead.val : ℕ) : ℤ) - s.consumed := by
      push_cast
      omega
    exact ⟨hsum, by dsimp only; omega⟩
  · simpa using h.current
  · simpa using h.position
  · intro hreading
    obtain ⟨hlength, hlengths⟩ := h.offered (by simpa using hreading)
    simp only [Offers, PipedSocket.fill_buffer]
    exact ⟨by omega, hlengths⟩

theorem Sound.readAsync (h : s.Sound) (hexact : s.Exact) {buffer : ReadOnlySequence}
    (ht : step rereads s (.readAsync buffer) = .ok t) : t.Exact ∧ t.Sound := by
  rw [step] at ht
  split_ifs at ht with hoffers
  cases ht
  unfold PipedSocket.readAsync
  split_ifs with hrefused
  · exact ⟨⟨hexact.available, hexact.nonneg⟩, ⟨h.range, h.current, h.position, h.offered⟩⟩
  · refine ⟨⟨hexact.available, hexact.nonneg⟩, ⟨h.range, fun _ => rfl, fun _ => rfl, fun _ => ?_⟩⟩
    exact hoffers

/-- The difference of the integers is the distance up to the bytes of the segments in between. -/
theorem report_exact_iff {pending before integer start : ℕ} (hpending : pending < 2 ^ 31)
    (hstart : start ≤ arrayMaxLength) (hle : start ≤ before + integer)
    (hlast : before + integer - start ≤ pending) :
    int32 (pending - (integer - start)) = pending - (before + integer - start : ℕ) ↔
      before = 0 := by
  have hmax : arrayMaxLength < 2 ^ 31 := by decide
  constructor
  · intro h
    obtain ⟨k, hk⟩ := (int32_eq_iff (by omega) (by omega)).mp h
    omega
  · rintro rfl
    rw [int32_of_range] <;> omega

/-- A report that is not refused. -/
theorem Sound.accepted (h : s.Sound) (hexact : s.Exact) {bufferCurrent : ReadOnlySequence}
    (hslice : s.socket.bufferCurrent.slice position = .ok bufferCurrent)
    (hreading : s.socket.reading = true) (ht : t = s.record (s.socket.reportConsume position)) :
    (t.Exact ↔ s.Stays position) ∧ t.Sound := by
  rw [PipedSocket.reportConsume_ok hslice hreading] at ht
  subst ht
  refine ⟨?_, sound_of_idle (int32_range _).2 rfl⟩
  have hposition := h.position hreading
  have hcurrent := h.current hreading
  obtain ⟨hoffered, hlengths⟩ := h.offered hreading
  have hstays : s.Stays position ↔ s.socket.buffer.before position = 0 := by
    simp [Stays, hreading, hslice, Except.isOk, Except.toBool]
  rw [hcurrent] at hslice
  obtain ⟨hle, hdistance⟩ := ReadOnlySequence.slice_bounds hslice
  have hfirst : s.socket.buffer.start ≤ arrayMaxLength :=
    s.socket.buffer.start_le.trans (hlengths _ List.mem_cons_self)
  have hrange := h.range
  have havailable := hexact.available
  have hnonneg := hexact.nonneg
  have hpending : s.filled - s.consumed < 2 ^ 31 := by omega
  have hdistance : s.socket.buffer.distance position ≤ s.filled - s.consumed := by omega
  have hiff := report_exact_iff hpending hfirst hle hdistance
  have hcast : ((s.filled - s.consumed : ℕ) : ℤ) = s.socket.available := by omega
  rw [hcast, ← hposition] at hiff
  rw [hstays, ← hiff]
  unfold ReadOnlySequence.distance at hdistance
  constructor
  · intro hall
    have hleft := hall.available
    simp only [record, ReadOnlySequence.distance] at hleft
    omega
  · intro heq
    refine ⟨?_, ?_⟩
    · simp only [record, ReadOnlySequence.distance]
      omega
    · simp only [record]
      omega

theorem Sound.report (h : s.Sound) (hexact : s.Exact)
    (ht : t = s.record (s.socket.reportConsume position)) :
    (t.Exact ↔ s.Stays position) ∧ t.Sound := by
  rcases hslice : s.socket.bufferCurrent.slice position with fault | bufferCurrent
  · rw [PipedSocket.reportConsume_refused hslice] at ht
    subst ht
    refine ⟨iff_of_true ⟨hexact.available, hexact.nonneg⟩ fun _ hok => ?_, ?_⟩
    · rw [hslice] at hok
      cases hok
    · exact ⟨h.range, h.current, h.position, h.offered⟩
  · cases hreading : s.socket.reading with
    | false =>
      rw [PipedSocket.reportConsume_idle hslice hreading] at ht
      subst ht
      refine ⟨iff_of_true ⟨hexact.available, hexact.nonneg⟩ fun hr => ?_, ?_⟩
      · rw [hreading] at hr
        cases hr
      · exact sound_of_idle h.range hreading
    | true => exact h.accepted hexact hslice hreading ht

theorem Sound.consume (h : s.Sound) (hexact : s.Exact)
    (ht : t = s.record (s.socket.consume length)) :
    (t.Exact ↔ s.Tallies (.consume length)) ∧ t.Sound := by
  rcases hseek : s.socket.bufferCurrent.seek length with fault | position
  · rw [PipedSocket.consume_refused hseek] at ht
    subst ht
    refine ⟨iff_of_true ⟨hexact.available, hexact.nonneg⟩ fun position hposition => ?_, ?_⟩
    · rw [hseek] at hposition
      cases hposition
    · exact ⟨h.range, h.current, h.position, h.offered⟩
  · rw [PipedSocket.consume_eq hseek] at ht
    have hreport := h.report hexact ht
    refine ⟨hreport.1.trans ⟨fun hstays position' hposition => ?_, fun hall => ?_⟩, hreport.2⟩
    · rw [hseek] at hposition
      cases hposition
      exact hstays
    · exact hall position hseek

/-- In every run, the bytes that are available are counted exactly just when every step meets the
condition. -/
theorem countsPiped_iff (rereads : Bool) (calls : List PipedSocketCall) :
    CountsExactly rereads calls ↔ Along (step rereads) Tallies {} calls := by
  refine reached_iff_along (I := Sound) ?_ ?_ ?_ sound_start ⟨by simp, le_rfl⟩
  · intro s call _ _
    cases call with
    | readAsync buffer => exact .inr trivial
    | fill bytesRead => exact .inl ⟨_, rfl⟩
    | reportConsume position => exact .inl ⟨_, rfl⟩
    | consume length => exact .inl ⟨_, rfl⟩
  · intro s call t h hexact ht _
    cases call with
    | readAsync buffer => exact (h.readAsync hexact ht).2
    | fill bytesRead => exact (h.fill hexact ht).2
    | reportConsume position => exact (h.report hexact (Except.ok.inj ht).symm).2
    | consume length => exact (h.consume hexact (Except.ok.inj ht).symm).2
  · intro s call t h hexact ht
    cases call with
    | readAsync buffer => exact iff_of_true (h.readAsync hexact ht).1 trivial
    | fill bytesRead => exact (h.fill hexact ht).1
    | reportConsume position => exact (h.report hexact (Except.ok.inj ht).symm).1
    | consume length => exact (h.consume hexact (Except.ok.inj ht).symm).1

/-- Six bytes come in two segments of four and two; five are consumed, one is counted. -/
theorem not_countsExactly_segments :
    ¬ CountsExactly false [.fill ⟨4, by decide⟩, .fill ⟨2, by decide⟩,
      .readAsync { first := 4, rest := [2] }, .consume 5] := by
  intro h
  have hexact := h _ (reached_of_run rfl)
  exact absurd hexact.available (by decide)

end PipedSocketSession

end DecodingProxy.Sockets
