import DecodingProxy.Cryptography.TlsPlayerWithProxy

/-!
# `StreamForTlsFrames`: the frames read as a stream

`Read` gives the bytes of one frame at most. A frame that is longer than the buffer is kept, with
an offset, for the next call; `HelloRequest` frames are passed over on the way to a new one.
-/

namespace DecodingProxy.Cryptography
open DecodingProxy.Arrays DecodingProxy.Runs DecodingProxy.Runtime

namespace TlsFrame

def getMemSlice (offsetRead length : ℕ) (f : TlsFrame) : Except Fault (List UInt8) :=
  slice f.dataWholeFrame offsetRead length

/-- For the exception only: the text is written to the console. -/
def toStringInfoAsClient (f : TlsFrame) : Except Fault Unit :=
  if f.record.type = ETlsProtocol.handshake then do
    let _ ← HandshakeHeader.toStruct f.payload
    .ok ()
  else .ok ()

def isRequestHello (f : TlsFrame) : Except Fault Bool :=
  if f.record.type = ETlsProtocol.handshake then do
    let handshakeHeader ← HandshakeHeader.toStruct f.payload
    .ok (handshakeHeader.messageType = ETlsTypeHandshakeMessage.helloRequest)
  else .ok false

/-- A handshake frame whose first message is of this type. -/
def IsHelloRequest (f : TlsFrame) : Prop :=
  f.record.type = ETlsProtocol.handshake ∧
    f.payload.head? = some ETlsTypeHandshakeMessage.helloRequest

instance (f : TlsFrame) : Decidable f.IsHelloRequest := inferInstanceAs (Decidable (_ ∧ _))

end TlsFrame

structure StreamForTlsFrames where
  queue : List TlsFrame
  currentRead : Option TlsFrame := none
  offsetRead : ℕ := 0
  deriving DecidableEq, Repr

namespace StreamForTlsFrames

def new (frames : List TlsFrame) : StreamForTlsFrames := { queue := frames }

/-- From `REPEAT` on: what is left of the queue, and the frame that came off it. -/
def dequeue : List TlsFrame → List TlsFrame × Except Fault (Option TlsFrame)
  | [] => ([], .ok none)
  | result :: queue =>
    match result.isRequestHello with
    | .error fault => (queue, .error fault)
    | .ok true => dequeue queue
    | .ok false => (queue, .ok (some result))

/-! A branch of `Read` gives the frame that the debug build names, the buffer as it leaves it, and
the length it returns. -/

/-- With no `currentRead`. -/
def readNext (buffer : List UInt8) (s : StreamForTlsFrames) :
    StreamForTlsFrames × Except Fault (Option TlsFrame × List UInt8 × ℕ) :=
  match dequeue s.queue with
  | (queue, .error fault) => ({ s with queue }, .error fault)
  | (queue, .ok none) => ({ s with queue }, .ok (none, buffer, 0))
  | (queue, .ok (some result)) =>
    let length := result.dataWholeFrame.length
    let lengthToRead := if length > buffer.length then buffer.length else length
    if length > lengthToRead then
      ({ queue, currentRead := some result, offsetRead := lengthToRead }, do
        let slice ← result.getMemSlice 0 lengthToRead
        let buffer ← copyTo slice buffer 0
        .ok (some result, buffer, lengthToRead))
    else
      ({ s with queue }, do
        let buffer ← copyTo result.dataWholeFrame buffer 0
        .ok (some result, buffer, lengthToRead))

def readCurrent (currentRead : TlsFrame) (buffer : List UInt8) (s : StreamForTlsFrames) :
    StreamForTlsFrames × Except Fault (Option TlsFrame × List UInt8 × ℕ) :=
  let lengthFrame := currentRead.dataWholeFrame.length
  let lengthLeftToRead := lengthFrame - s.offsetRead
  let lengthToRead := if lengthLeftToRead > buffer.length then buffer.length else lengthLeftToRead
  if lengthLeftToRead > lengthToRead then
    ({ s with offsetRead := s.offsetRead + lengthToRead }, do
      let mem ← currentRead.getMemSlice s.offsetRead lengthToRead
      let buffer ← copyTo mem buffer 0
      .ok (some currentRead, buffer, lengthToRead))
  else
    ({ s with currentRead := none, offsetRead := 0 }, do
      let mem ← currentRead.getMemSlice s.offsetRead lengthLeftToRead
      let buffer ← copyTo mem buffer 0
      .ok (some currentRead, buffer, lengthToRead))

/-- The line that the debug build writes; without a frame there is nothing to name. -/
def writeInfo (debug : Bool) (frameDebug : Option TlsFrame) : Except Fault Unit :=
  match debug, frameDebug with
  | false, _ => .ok ()
  | true, none => .error (.raised .nullReference)
  | true, some f => f.toStringInfoAsClient

def read (debug : Bool) (buffer : List UInt8) (s : StreamForTlsFrames) :
    StreamForTlsFrames × Except Fault (List UInt8 × ℕ) :=
  let (s, result) :=
    match s.currentRead with
    | none => s.readNext buffer
    | some currentRead => s.readCurrent currentRead buffer
  (s, do
    let (frameDebug, buffer, lengthToRead) ← result
    writeInfo debug frameDebug
    .ok (buffer, lengthToRead))

end StreamForTlsFrames

/-- A stream with the bytes that `Read` has returned. -/
structure FrameReading where
  stream : StreamForTlsFrames
  returned : List UInt8 := []

namespace FrameReading

/-- A call that returns. -/
def step (debug : Bool) (s : FrameReading) (buffer : List UInt8) : Except Fault FrameReading :=
  let (stream, result) := s.stream.read debug buffer
  result.map fun (buffer, length) => { stream, returned := s.returned ++ buffer.take length }

/-- A call after which the caller goes on even if it threw. -/
def goOn (debug : Bool) (s : FrameReading) (buffer : List UInt8) : FrameReading :=
  let (stream, result) := s.stream.read debug buffer
  match result with
  | .ok (buffer, length) => { stream, returned := s.returned ++ buffer.take length }
  | .error _ => { stream, returned := s.returned }

end FrameReading

/-- The frames that are kept, one behind the other. -/
def framesBytes (keep : TlsFrame → Bool) (frames : List TlsFrame) : List UInt8 :=
  (frames.filter keep).flatMap (·.dataWholeFrame)

/-- Wherever `IsRequestHello` returns, the frames that it refuses are kept, and no others. -/
def KeepsOthers (keep : TlsFrame → Bool) : Prop :=
  ∀ f b, f.isRequestHello = .ok b → keep f = !b

variable {keep : TlsFrame → Bool}

/-- The type of the first message is the first byte of the payload. -/
theorem head?_of_toStruct {payload : List UInt8} {header : HandshakeHeader}
    (h : HandshakeHeader.toStruct payload = .ok header) :
    payload.head? = some header.messageType := by
  match payload, h with
  | b0 :: b1 :: b2 :: b3 :: rest, h =>
    cases h
    rfl

theorem isRequestHello_eq {f : TlsFrame} {b : Bool} (h : f.isRequestHello = .ok b) :
    b = decide f.IsHelloRequest := by
  unfold TlsFrame.isRequestHello at h
  split_ifs at h with htype
  · obtain ⟨header, hheader, h⟩ := do_ok_iff.mp h
    cases h
    have hhead := head?_of_toStruct hheader
    simp [TlsFrame.IsHelloRequest, htype, hhead]
  · cases h
    simp [TlsFrame.IsHelloRequest, htype]

theorem keepsOthers_isHelloRequest : KeepsOthers fun f => !decide f.IsHelloRequest := by
  intro f b h
  rw [isRequestHello_eq h]

theorem keepsOthers_isRequestHello :
    KeepsOthers fun f => decide (f.isRequestHello = .ok false) := by
  intro f b h
  cases b <;> simp [h]

/-- A frame that was not passed over can be named. -/
theorem toStringInfoAsClient_ok {f : TlsFrame} {b : Bool} (h : f.isRequestHello = .ok b) :
    f.toStringInfoAsClient = .ok () := by
  unfold TlsFrame.isRequestHello at h
  unfold TlsFrame.toStringInfoAsClient
  split_ifs at h ⊢ with htype
  · obtain ⟨header, hheader, -⟩ := do_ok_iff.mp h
    exact do_ok_iff.mpr ⟨header, hheader, rfl⟩
  · rfl

namespace StreamForTlsFrames

/-- The bytes that are still to come. -/
def left (keep : TlsFrame → Bool) (s : StreamForTlsFrames) : List UInt8 :=
  (match s.currentRead with
    | none => []
    | some f => f.dataWholeFrame.drop s.offsetRead) ++ framesBytes keep s.queue

/-- The frame that is kept was not passed over, and the offset is inside it. -/
def Sound (s : StreamForTlsFrames) : Prop :=
  ∀ f ∈ s.currentRead, f.isRequestHello = .ok false ∧ s.offsetRead ≤ f.dataWholeFrame.length

theorem dequeue_ok (hkeep : KeepsOthers keep) {frames queue : List TlsFrame}
    {result : Option TlsFrame} (h : dequeue frames = (queue, .ok result)) :
    (∀ f ∈ result, f.isRequestHello = .ok false) ∧
      framesBytes keep frames =
        (result.map (·.dataWholeFrame)).getD [] ++ framesBytes keep queue := by
  induction frames with
  | nil =>
    cases h
    exact ⟨by simp, rfl⟩
  | cons f frames ih =>
    unfold dequeue at h
    cases hf : f.isRequestHello with
    | error fault =>
      rw [hf] at h
      cases h
    | ok b =>
      have hb := hkeep f b hf
      rw [hf] at h
      cases b with
      | true =>
        have hskip : framesBytes keep (f :: frames) = framesBytes keep frames := by
          simp [framesBytes, hb]
        rw [hskip]
        exact ih h
      | false =>
        cases h
        refine ⟨by simpa using hf, ?_⟩
        simp [framesBytes, hb]

/-- A throw loses the frame that `IsRequestHello` cannot tell, and those passed over. -/
theorem dequeue_error (hkeep : KeepsOthers keep)
    (hthrows : ∀ f fault, f.isRequestHello = .error fault → keep f = false)
    {frames queue : List TlsFrame} {fault : Fault} (h : dequeue frames = (queue, .error fault)) :
    framesBytes keep frames = framesBytes keep queue := by
  induction frames with
  | nil => cases h
  | cons f frames ih =>
    unfold dequeue at h
    cases hf : f.isRequestHello with
    | error fault' =>
      rw [hf] at h
      have hlost := hthrows f fault' hf
      obtain ⟨rfl, -⟩ := Prod.mk.inj h
      simp [framesBytes, hlost]
    | ok b =>
      have hb := hkeep f b hf
      rw [hf] at h
      cases b with
      | true =>
        rw [← ih h]
        simp [framesBytes, hb]
      | false => cases h

/-- Bytes that fit are at the front of the buffer they were copied into. -/
theorem copied {source buffer : List UInt8} (h : source.length ≤ buffer.length) :
    ∃ buffer', copyTo source buffer 0 = .ok buffer' ∧ buffer'.take source.length = source := by
  refine ⟨writeAt buffer 0 source, copyTo_ok (by omega), ?_⟩
  have htake : (writeAt buffer 0 source).take (0 + source.length) = buffer.take 0 ++ source :=
    take_writeAt (Nat.zero_le _)
  simpa using htake

/-- A slice that fits, copied. -/
theorem slice_copied {f : TlsFrame} (offset : ℕ) {length : ℕ} {buffer : List UInt8}
    (hin : offset + length ≤ f.dataWholeFrame.length) (hfit : length ≤ buffer.length) :
    ∃ mem buffer', f.getMemSlice offset length = .ok mem ∧ copyTo mem buffer 0 = .ok buffer' ∧
      buffer'.take length = (f.dataWholeFrame.drop offset).take length := by
  have hlen : ((f.dataWholeFrame.drop offset).take length).length = length := by
    simp only [List.length_take, List.length_drop]
    omega
  obtain ⟨buffer', hcopy, htake⟩ := copied (hlen.le.trans hfit)
  rw [hlen] at htake
  exact ⟨_, buffer', slice_ok hin, hcopy, htake⟩

theorem drop_eq_take_append_drop (l : List UInt8) (offset length : ℕ) :
    l.drop offset = (l.drop offset).take length ++ l.drop (offset + length) := by
  rw [← List.drop_drop, List.take_append_drop]

/-- The kept frame is read on from the offset, which never throws. -/
theorem readCurrent_ok (keep : TlsFrame → Bool) {s : StreamForTlsFrames} {f : TlsFrame}
    (hcur : s.currentRead = some f) (hs : s.Sound) (buffer : List UInt8) :
    ∃ s' buffer' length, s.readCurrent f buffer = (s', .ok (some f, buffer', length)) ∧ s'.Sound ∧
      s.left keep = buffer'.take length ++ s'.left keep := by
  obtain ⟨hf, hoffset⟩ := hs f (by simp [hcur])
  simp only [readCurrent, gt_iff_lt]
  split_ifs with hlong hpart
  · have hin : s.offsetRead + buffer.length ≤ f.dataWholeFrame.length := by omega
    obtain ⟨mem, buffer', hmem, hcopy, htake⟩ := slice_copied s.offsetRead hin le_rfl
    refine ⟨_, buffer', buffer.length, by rw [do_of_ok hmem, do_of_ok hcopy], ?_, ?_⟩
    · intro g hg
      rw [show s.currentRead = some f from hcur] at hg
      cases hg
      exact ⟨hf, by simp only; omega⟩
    · simp only [left, hcur, htake, ← List.append_assoc]
      rw [← drop_eq_take_append_drop]
  · omega
  · have hin : s.offsetRead + (f.dataWholeFrame.length - s.offsetRead) ≤
        f.dataWholeFrame.length := by omega
    have hfit : f.dataWholeFrame.length - s.offsetRead ≤ buffer.length := by omega
    obtain ⟨mem, buffer', hmem, hcopy, htake⟩ := slice_copied s.offsetRead hin hfit
    refine ⟨_, buffer', _, by rw [do_of_ok hmem, do_of_ok hcopy], by simp [Sound], ?_⟩
    rw [htake, List.take_of_length_le (by simp)]
    simp [left, hcur]

/-- A frame off the queue that is no `HelloRequest`: read to its end or kept with the offset. -/
theorem readNext_some (keep : TlsFrame → Bool) {s : StreamForTlsFrames} {queue : List TlsFrame}
    {f : TlsFrame} (hcur : s.currentRead = none) (hdeq : dequeue s.queue = (queue, .ok (some f)))
    (hf : f.isRequestHello = .ok false) (buffer : List UInt8) :
    ∃ s' buffer' length, s.readNext buffer = (s', .ok (some f, buffer', length)) ∧ s'.Sound ∧
      f.dataWholeFrame ++ framesBytes keep queue = buffer'.take length ++ s'.left keep := by
  simp only [readNext, hdeq, gt_iff_lt]
  split_ifs with hlong hpart
  · have hin : 0 + buffer.length ≤ f.dataWholeFrame.length := by omega
    obtain ⟨mem, buffer', hmem, hcopy, htake⟩ := slice_copied 0 hin le_rfl
    refine ⟨_, buffer', buffer.length, by rw [do_of_ok hmem, do_of_ok hcopy], ?_, ?_⟩
    · intro g hg
      cases hg
      exact ⟨hf, hlong.le⟩
    · simp only [left, htake, List.drop_zero, ← List.append_assoc]
      rw [List.take_append_drop]
  · omega
  · obtain ⟨buffer', hcopy, htake⟩ := copied (not_lt.mp hlong)
    refine ⟨_, buffer', _, by rw [do_of_ok hcopy], ?_, ?_⟩
    · simp [Sound, hcur]
    · rw [htake]
      simp [left, hcur]

/-- What a branch of `Read` does: it leaves the state sound; what it returns was to come next; a
frame is named only if it was not passed over; and a throw loses no frame that is kept. -/
structure Gives (keep : TlsFrame → Bool) (s s' : StreamForTlsFrames)
    (result : Except Fault (Option TlsFrame × List UInt8 × ℕ)) : Prop where
  sound : s'.Sound
  returns : ∀ frame buffer length, result = .ok (frame, buffer, length) →
    s.left keep = buffer.take length ++ s'.left keep
  names : ∀ f buffer length, result = .ok (some f, buffer, length) →
    f.isRequestHello = .ok false
  empty : ∀ buffer length, result = .ok (none, buffer, length) → length = 0
  throws : (∀ f fault, f.isRequestHello = .error fault → keep f = false) →
    ∀ fault, result = .error fault → s.left keep = s'.left keep

theorem readCurrent_gives {s : StreamForTlsFrames} {f : TlsFrame} (hcur : s.currentRead = some f)
    (hs : s.Sound) (buffer : List UInt8) :
    Gives keep s (s.readCurrent f buffer).1 (s.readCurrent f buffer).2 := by
  obtain ⟨s', buffer', length, hread, hsound, hleft⟩ := readCurrent_ok keep hcur hs buffer
  obtain ⟨hf, -⟩ := hs f (by simp [hcur])
  rw [hread]
  constructor
  case sound => exact hsound
  case returns => rintro _ _ _ ⟨⟩; exact hleft
  case names => rintro _ _ _ ⟨⟩; exact hf
  case empty => rintro _ _ ⟨⟩
  case throws => rintro - _ ⟨⟩

theorem readNext_gives (hkeep : KeepsOthers keep) {s : StreamForTlsFrames}
    (hcur : s.currentRead = none) (buffer : List UInt8) :
    Gives keep s (s.readNext buffer).1 (s.readNext buffer).2 := by
  have hs : s.left keep = framesBytes keep s.queue := by simp [left, hcur]
  have hnone (queue : List TlsFrame) : ({ s with queue } : StreamForTlsFrames).Sound := by
    simp [Sound, hcur]
  cases hdeq : dequeue s.queue with
  | mk queue result =>
    match result with
    | .error fault =>
      simp only [readNext, hdeq]
      constructor
      case sound => exact hnone queue
      case returns => rintro _ _ _ ⟨⟩
      case names => rintro _ _ _ ⟨⟩
      case empty => rintro _ _ ⟨⟩
      case throws =>
        intro hthrows _ _
        rw [hs, dequeue_error hkeep hthrows hdeq]
        simp [left, hcur]
    | .ok none =>
      obtain ⟨-, hbytes⟩ := dequeue_ok hkeep hdeq
      simp only [readNext, hdeq]
      constructor
      case sound => exact hnone queue
      case returns =>
        rintro _ _ _ ⟨⟩
        rw [hs, hbytes]
        simp [left, hcur]
      case names => rintro _ _ _ ⟨⟩
      case empty => rintro _ _ ⟨⟩; rfl
      case throws => rintro - _ ⟨⟩
    | .ok (some f) =>
      obtain ⟨hf, hbytes⟩ := dequeue_ok hkeep hdeq
      have hf := hf f rfl
      obtain ⟨s', buffer', length, hread, hsound, hleft⟩ :=
        readNext_some keep hcur hdeq hf buffer
      rw [hread]
      constructor
      case sound => exact hsound
      case returns =>
        rintro _ _ _ ⟨⟩
        rw [hs, hbytes]
        exact hleft
      case names => rintro _ _ _ ⟨⟩; exact hf
      case empty => rintro _ _ ⟨⟩
      case throws => rintro - _ ⟨⟩

theorem read_gives (hkeep : KeepsOthers keep) {s : StreamForTlsFrames} (hs : s.Sound)
    (debug : Bool) (buffer : List UInt8) :
    ∃ s' result, Gives keep s s' result ∧ s.read debug buffer =
      (s', do
        let (frameDebug, buffer, lengthToRead) ← result
        writeInfo debug frameDebug
        .ok (buffer, lengthToRead)) := by
  cases hcur : s.currentRead with
  | none => exact ⟨_, _, readNext_gives hkeep hcur buffer, by simp only [read, hcur]⟩
  | some f => exact ⟨_, _, readCurrent_gives hcur hs buffer, by simp only [read, hcur]⟩

/-- A call that returns takes what it returns off the front of what was to come. -/
theorem read_ok (hkeep : KeepsOthers keep) {debug : Bool} {buffer buffer' : List UInt8}
    {length : ℕ} {s s' : StreamForTlsFrames} (hs : s.Sound)
    (h : s.read debug buffer = (s', .ok (buffer', length))) :
    s'.Sound ∧ s.left keep = buffer'.take length ++ s'.left keep := by
  obtain ⟨_, result, hgives, hread⟩ := read_gives hkeep hs debug buffer
  obtain ⟨rfl, hresult⟩ := Prod.mk.inj (h.symm.trans hread)
  obtain ⟨⟨frame, buffer₁, length₁⟩, hok, hrest⟩ := do_ok_iff.mp hresult.symm
  obtain ⟨_, -, hrest⟩ := do_ok_iff.mp hrest
  cases hrest
  exact ⟨hgives.sound, hgives.returns _ _ _ hok⟩

/-- A call that throws returns nothing and loses nothing that is kept: past the queue, the debug
line fails on an empty one only. -/
theorem read_error (hkeep : KeepsOthers keep)
    (hthrows : ∀ f fault, f.isRequestHello = .error fault → keep f = false) {debug : Bool}
    {buffer : List UInt8} {fault : Fault} {s s' : StreamForTlsFrames} (hs : s.Sound)
    (h : s.read debug buffer = (s', .error fault)) :
    s'.Sound ∧ s.left keep = s'.left keep := by
  obtain ⟨_, result, hgives, hread⟩ := read_gives hkeep hs debug buffer
  obtain ⟨rfl, hresult⟩ := Prod.mk.inj (h.symm.trans hread)
  refine ⟨hgives.sound, ?_⟩
  match result, hresult with
  | .error fault', _ => exact hgives.throws hthrows fault' rfl
  | .ok (some f, buffer', length), hresult =>
    have hf := toStringInfoAsClient_ok (hgives.names f buffer' length rfl)
    cases debug <;> simp [writeInfo, hf, bind, Except.bind] at hresult
  | .ok (none, buffer', length), _ =>
    have hleft := hgives.returns none buffer' length rfl
    rw [hgives.empty buffer' length rfl, List.take_zero] at hleft
    exact hleft

theorem sound_new (frames : List TlsFrame) : (new frames).Sound := by simp [new, Sound]

@[simp] theorem left_new (frames : List TlsFrame) :
    (new frames).left keep = framesBytes keep frames := by
  simp [new, left]

end StreamForTlsFrames

namespace FrameReading

/-- What was returned and what is still to come is all of the frames that are kept. -/
structure Returns (keep : TlsFrame → Bool) (frames : List TlsFrame) (s : FrameReading) : Prop where
  sound : s.stream.Sound
  bytes : s.returned ++ s.stream.left keep = framesBytes keep frames

variable {frames : List TlsFrame} {s s' : FrameReading}

theorem Returns.returned (h : Returns keep frames s) : s.returned <+: framesBytes keep frames :=
  ⟨_, h.bytes⟩

theorem returns_new (frames : List TlsFrame) :
    Returns keep frames { stream := .new frames } :=
  ⟨StreamForTlsFrames.sound_new frames, by simp⟩

theorem Returns.read_ok (hkeep : KeepsOthers keep) (h : Returns keep frames s) {debug : Bool}
    {buffer buffer' : List UInt8} {length : ℕ} {stream : StreamForTlsFrames}
    (hread : s.stream.read debug buffer = (stream, .ok (buffer', length))) :
    Returns keep frames { stream, returned := s.returned ++ buffer'.take length } := by
  obtain ⟨hsound, hleft⟩ := StreamForTlsFrames.read_ok hkeep h.sound hread
  refine ⟨hsound, ?_⟩
  rw [List.append_assoc, ← hleft, h.bytes]

theorem Returns.step (hkeep : KeepsOthers keep) (h : Returns keep frames s) {debug : Bool}
    {buffer : List UInt8} (hstep : s.step debug buffer = .ok s') : Returns keep frames s' := by
  unfold FrameReading.step at hstep
  obtain ⟨⟨buffer', length⟩, hresult, rfl⟩ := map_ok_iff.mp hstep
  exact h.read_ok hkeep (Prod.ext rfl hresult)

theorem Returns.goOn (hkeep : KeepsOthers keep)
    (hthrows : ∀ f fault, f.isRequestHello = .error fault → keep f = false)
    (h : Returns keep frames s) (debug : Bool) (buffer : List UInt8) :
    Returns keep frames (s.goOn debug buffer) := by
  unfold FrameReading.goOn
  match hread : s.stream.read debug buffer with
  | (stream, .ok (buffer', length)) => exact h.read_ok hkeep hread
  | (stream, .error fault) =>
    obtain ⟨hsound, hleft⟩ := StreamForTlsFrames.read_error hkeep hthrows h.sound hread
    exact ⟨hsound, by simp only; rw [← hleft, h.bytes]⟩

/-- Up to the first exception the bytes returned are a first part of the frames that are no
`HelloRequest`. A caller that goes on after exceptions gets a first part of the frames on which
`IsRequestHello` returns `false`: the frames it throws on are lost. -/
theorem returned_frames (debug : Bool) (frames : List TlsFrame) (buffers : List (List UInt8)) :
    (∀ s, Reached (step debug) { stream := .new frames } buffers s →
      s.returned <+: framesBytes (fun f => !decide f.IsHelloRequest) frames) ∧
    (buffers.foldl (goOn debug) { stream := .new frames }).returned <+:
      framesBytes (fun f => decide (f.isRequestHello = .ok false)) frames := by
  constructor
  · rintro s ⟨calls, -, hrun⟩
    have hreturns : Returns (fun f => !decide f.IsHelloRequest) frames s :=
      run_history (I := fun _ => Returns (fun f => !decide f.IsHelloRequest) frames)
        (returns_new frames)
        (fun _ _ _ _ h hstep => h.step keepsOthers_isHelloRequest hstep) hrun
    exact hreturns.returned
  · have hreturns : Returns (fun f => decide (f.isRequestHello = .ok false)) frames
        (buffers.foldl (goOn debug) { stream := .new frames }) := by
      refine List.foldlRecOn buffers (goOn debug) (returns_new frames) fun s h buffer _ => ?_
      exact h.goOn keepsOthers_isRequestHello (fun f fault hf => by simp [hf]) debug buffer
    exact hreturns.returned

end FrameReading

end DecodingProxy.Cryptography
