import DecodingProxy.Lib.Runs
import DecodingProxy.Streams.StreamBufferedForReads
import DecodingProxy.Threading.AsyncSignaler
import Mathlib.Tactic.Common

/-!
# `HelperForStreams.CopyStreamToStream`

A producer reads segments, enqueues them and signals each one; a consumer waits for a
signal, dequeues a segment and writes it. An action is a piece of one of the two loops
between two accesses to what they share, in a run without cancellation.
-/

namespace DecodingProxy.Streams
open DecodingProxy.Arrays DecodingProxy.Runs DecodingProxy.Runtime DecodingProxy.Threading

inductive Producer
  | reading
  | enqueueing (segment : BufferSegment)
  | setting

inductive Consumer
  | looping
  | awaiting (token : UInt16)
  | signaled
  | writing (segment : BufferSegment)
  | ended

/-- The segment a party holds outside of the queue. -/
def Producer.inHand : Producer → List (List UInt8)
  | .enqueueing segment => [segment.bytes]
  | _ => []

def Consumer.inHand : Consumer → List (List UInt8)
  | .writing segment => [segment.bytes]
  | _ => []

structure CopyStreamToStream where
  control : AsyncSignaler
  segments : List BufferSegment := []
  producer : Producer := .reading
  consumer : Consumer := .looping
  /-- The segments read from the source, and those written to the destination. -/
  readed : List (List UInt8) := []
  written : List (List UInt8) := []

inductive CopyAction
  | read (chunk : List UInt8)
  | enqueue
  | set
  | consume
  deriving DecidableEq, Repr

namespace CopyStreamToStream

variable (pool : ArrayPool) (bufferSize : ℤ) (ct : Option ℕ)

/-- The token of the call, which nobody cancels. -/
def token : Option CancellationToken := ct.map fun source => ⟨source, false⟩

/-- `ReadAsync` puts `chunk` at the front of a rented array; after an empty read the
producer waits for a while and reads again. -/
def read (s : CopyStreamToStream) (chunk : List UInt8) : Except Refusal CopyStreamToStream :=
  match s.producer, pool.rent bufferSize with
  | .reading, .ok buffer =>
    if h : chunk.length ≤ buffer.length then
      if chunk.length > 0 then
        let segment : BufferSegment :=
          { buffer := writeAt buffer 0 chunk
            length := chunk.length
            inBuffer := by
              have hw : (writeAt buffer 0 chunk).length = buffer.length := writeAt_length (by omega)
              omega }
        .ok { s with producer := .enqueueing segment, readed := s.readed ++ [chunk] }
      else .ok s
    else .error .notPossible
  | .reading, .error fault => .error (.throws fault)
  | _, _ => .error .notPossible

def set (s : CopyStreamToStream) : Except Refusal CopyStreamToStream :=
  match s.producer, s.control.set with
  | .setting, (control, .ok ()) => .ok { s with control, producer := .reading }
  | .setting, (_, .error fault) => .error (.throws fault)
  | _, _ => .error .notPossible

/-- The value of the await decides whether the consumer goes on. -/
def awaited (s : CopyStreamToStream) (value : Bool) : CopyStreamToStream :=
  { s with consumer := if value then .signaled else .ended }

/-- The consumer goes on with a completed task at once; else it is resumed later. -/
def consume (s : CopyStreamToStream) : Except Refusal CopyStreamToStream :=
  match s.consumer with
  | .looping =>
    match s.control.await (token ct) with
    | (control, .ok (.result value)) => .ok ({ s with control }.awaited value)
    | (control, .ok (.source version)) => .ok { s with control, consumer := .awaiting version }
    | (_, .error fault) => .error (.throws fault)
  | .awaiting version =>
    match s.control.getStatus version with
    | .ok false => .error .notPossible
    | .error fault => .error (.throws fault)
    | .ok true =>
      match s.control.getResult version with
      | (control, .ok value) => .ok ({ s with control }.awaited value)
      | (_, .error fault) => .error (.throws fault)
  | .signaled =>
    match s.segments with
    | segment :: segments => .ok { s with segments, consumer := .writing segment }
    | [] => .ok { s with consumer := .looping }
  | .writing segment =>
    .ok { s with written := s.written ++ [segment.bytes], consumer := .looping }
  | .ended => .error .notPossible

def step (s : CopyStreamToStream) : CopyAction → Except Refusal CopyStreamToStream
  | .read chunk => s.read pool bufferSize chunk
  | .enqueue =>
    match s.producer with
    | .enqueueing segment =>
      .ok { s with segments := s.segments ++ [segment], producer := .setting }
    | _ => .error .notPossible
  | .set => s.set
  | .consume => s.consume ct

/-! ### What holds at every step -/

/-- The signaler fits the place of the consumer: a wait is open or answered, never both,
and only while the consumer awaits. -/
def SignalFits (s : CopyStreamToStream) : Prop :=
  match s.consumer with
  | .awaiting version =>
    version = s.control.manualReset.version ∧
      (s.control.requests = 1 ∧ s.control.manualReset.completed = false ∧
          s.control.responses ≤ 0 ∨
        s.control.requests = 0 ∧ s.control.manualReset.completed = true)
  | .ended => False
  | _ => s.control.requests = 0 ∧ s.control.manualReset.completed = false

/-- The segments in the queue whose signal is not stored: not given yet, or under way to
the consumer. -/
def unstored (s : CopyStreamToStream) : ℕ :=
  (match s.producer with | .setting => 1 | _ => 0) +
    (if s.control.manualReset.completed then 1 else 0) +
    (match s.consumer with | .signaled => 1 | _ => 0)

structure Sound (s : CopyStreamToStream) : Prop where
  bytes : s.readed = s.written ++ s.consumer.inHand ++ s.segments.map BufferSegment.bytes ++
    s.producer.inHand
  clean : s.control.manualReset.error = false
  signal : s.SignalFits
  balance : ∃ stored : ℕ, s.control.responses = int32 stored ∧
    s.segments.length = stored + s.unstored

variable {pool bufferSize ct} {s t : CopyStreamToStream}

theorem Sound.read (h : s.Sound) {chunk : List UInt8}
    (hs : s.read pool bufferSize chunk = .ok t) : t.Sound := by
  unfold CopyStreamToStream.read at hs
  split at hs
  · rename_i buffer hproducer hrent
    split_ifs at hs with hfit hpos
    · cases hs
      refine ⟨?_, h.clean, h.signal, ?_⟩
      · have hb := h.bytes
        simp only [hproducer, Producer.inHand, List.append_nil] at hb
        simp [hb, Producer.inHand, BufferSegment.bytes, BufferSegment.memory, writeAt]
      · obtain ⟨stored, hstored, hlen⟩ := h.balance
        refine ⟨stored, hstored, ?_⟩
        simpa [unstored, hproducer] using hlen
    · cases hs
      exact h
  · cases hs
  · cases hs

theorem Sound.enqueue (h : s.Sound) (hs : s.step pool bufferSize ct .enqueue = .ok t) :
    t.Sound := by
  simp only [step] at hs
  split at hs
  · rename_i segment hproducer
    cases hs
    refine ⟨?_, h.clean, h.signal, ?_⟩
    · have hb := h.bytes
      simp only [hproducer, Producer.inHand] at hb
      simp [hb, Producer.inHand]
    · obtain ⟨stored, hstored, hlen⟩ := h.balance
      refine ⟨stored, hstored, ?_⟩
      simp only [unstored, hproducer, List.length_append, List.length_singleton] at hlen ⊢
      omega
  · cases hs

theorem Sound.requested (h : s.Sound) (hr : 0 < s.control.requests) :
    s.consumer = .awaiting s.control.manualReset.version ∧ s.control.requests = 1 ∧
      s.control.manualReset.completed = false ∧ s.control.responses ≤ 0 := by
  have hfits := h.signal
  unfold SignalFits at hfits
  cases hc : s.consumer with
  | awaiting version =>
    simp only [hc] at hfits
    obtain ⟨rfl, ⟨hone, hopen, hresponses⟩ | ⟨hzero, -⟩⟩ := hfits
    · exact ⟨rfl, hone, hopen, hresponses⟩
    · omega
  | ended => simp only [hc] at hfits
  | looping | signaled | writing segment =>
    simp only [hc] at hfits
    omega

theorem Sound.set (h : s.Sound) (hs : s.set = .ok t) : t.Sound := by
  unfold CopyStreamToStream.set at hs
  split at hs
  · rename_i control hproducer hset
    cases hs
    obtain ⟨stored, hstored, hlen⟩ := h.balance
    have hbytes : s.readed = s.written ++ s.consumer.inHand ++
        s.segments.map BufferSegment.bytes ++ Producer.reading.inHand := by
      have hb := h.bytes
      rwa [hproducer] at hb
    by_cases hr : 0 < s.control.requests
    · obtain ⟨hconsumer, hone, hopen, hresponses⟩ := h.requested hr
      have hcontrol : control = { s.control with
          requests := 0, manualReset := { s.control.manualReset with completed := true } } := by
        simpa [AsyncSignaler.set, ManualResetValueTaskSourceCore.setResult,
          ManualResetValueTaskSourceCore.signalCompletion, hone, hopen] using hset.symm
      subst hcontrol
      refine ⟨hbytes, h.clean, ?_, stored, hstored, ?_⟩
      · simp [SignalFits, hconsumer]
      · simpa [unstored, hproducer, hconsumer, hopen] using hlen
    · have hcontrol : control =
          { s.control with responses := int32 (s.control.responses + 1) } := by
        simpa [AsyncSignaler.set, hr] using hset.symm
      subst hcontrol
      refine ⟨hbytes, h.clean, ?_, stored + 1, ?_, ?_⟩
      · have hfits := h.signal
        unfold SignalFits at hfits ⊢
        cases hc : s.consumer with
        | awaiting version =>
          simp only [hc] at hfits ⊢
          refine ⟨hfits.1, .inr ?_⟩
          rcases hfits.2 with ⟨hone, -⟩ | hdone
          · omega
          · exact hdone
        | ended => simp only [hc] at hfits
        | looping | signaled | writing segment => simpa only [hc] using hfits
      · calc int32 (s.control.responses + 1) = int32 (stored + 1) := by
              rw [hstored, int32_succ]
          _ = int32 ((stored + 1 : ℕ) : ℤ) := rfl
      · simp only [unstored, hproducer] at hlen ⊢
        omega
  · cases hs
  · cases hs

variable (ct) in
theorem Sound.await (h : s.Sound) (hc : s.consumer = .looping) :
    (0 < s.control.responses ∧ s.control.await (token ct) =
        ({ s.control with responses := s.control.responses - 1 }, .ok (.result true))) ∨
      s.control.responses ≤ 0 ∧ ∃ registered, s.control.await (token ct) =
        ({ s.control with requests := 1, cancellationToken := registered },
          .ok (.source s.control.manualReset.version)) := by
  have hfits := h.signal
  simp only [SignalFits, hc] at hfits
  have hlive : (token ct).any CancellationToken.isCancellationRequested = false := by
    cases ct <;> rfl
  by_cases hr : 0 < s.control.responses
  · exact .inl ⟨hr, by simp [AsyncSignaler.await, hr, hlive]⟩
  · refine .inr ⟨by omega, ?_⟩
    have hone : int32 1 = 1 := by decide
    by_cases hreg : s.control.registers (token ct) = true
    · exact ⟨(token ct).map CancellationToken.source,
        by simp [AsyncSignaler.await, hr, AsyncSignaler.register, hreg, hlive, hfits.1, hone]⟩
    · exact ⟨s.control.cancellationToken,
        by simp [AsyncSignaler.await, hr, AsyncSignaler.register, hreg, hfits.1, hone]⟩

variable (ct) in
theorem Sound.consume_looping (h : s.Sound) (hc : s.consumer = .looping) :
    ∃ t, s.consume ct = .ok t ∧ t.Sound := by
  obtain ⟨stored, hstored, hlen⟩ := h.balance
  have hfits := h.signal
  simp only [SignalFits, hc] at hfits
  have hb := h.bytes
  simp only [hc, Consumer.inHand] at hb
  rcases h.await ct hc with ⟨hr, hawait⟩ | ⟨hr, registered, hawait⟩
  · refine ⟨{ s with
        control := { s.control with responses := s.control.responses - 1 }
        consumer := .signaled }, ?_, ⟨hb, h.clean, hfits, stored - 1, ?_, ?_⟩⟩
    · simp [consume, hc, hawait, awaited]
    · have hpos : 0 < int32 stored := hstored ▸ hr
      have hone : stored ≠ 0 := by
        rintro rfl
        exact absurd hpos (by decide)
      have hcast : ((stored - 1 : ℕ) : ℤ) = stored - 1 := by omega
      rw [hcast, int32_pred hpos, hstored]
    · have hone : stored ≠ 0 := by
        rintro rfl
        exact absurd (hstored ▸ hr : 0 < int32 (0 : ℕ)) (by decide)
      simp only [unstored, hc] at hlen ⊢
      omega
  · refine ⟨{ s with
        control := { s.control with requests := 1, cancellationToken := registered }
        consumer := .awaiting s.control.manualReset.version }, ?_,
      ⟨hb, h.clean, ⟨rfl, .inl ⟨rfl, hfits.2, hr⟩⟩, stored, hstored, ?_⟩⟩
    · simp [consume, hc, hawait]
    · simpa [unstored, hc] using hlen

theorem Sound.consume_awaiting (h : s.Sound) {version : UInt16}
    (hc : s.consumer = .awaiting version) (hs : s.consume ct = .ok t) : t.Sound := by
  obtain ⟨stored, hstored, hlen⟩ := h.balance
  have hfits := h.signal
  simp only [SignalFits, hc] at hfits
  obtain ⟨rfl, ⟨-, hopen, -⟩ | ⟨hzero, hdone⟩⟩ := hfits
  · simp [consume, hc, AsyncSignaler.getStatus, hopen] at hs
  · have ht : t = { s with
        control := { s.control with manualReset := s.control.manualReset.reset }
        consumer := .signaled } := by
      simpa [consume, hc, AsyncSignaler.getStatus, hdone, AsyncSignaler.getResult,
        ManualResetValueTaskSourceCore.getResult, h.clean, awaited] using hs.symm
    subst ht
    have hb := h.bytes
    simp only [hc, Consumer.inHand] at hb
    refine ⟨hb, rfl, ⟨hzero, rfl⟩, stored, hstored, ?_⟩
    simp only [unstored, hc, hdone, ManualResetValueTaskSourceCore.reset] at hlen ⊢
    simpa using hlen

theorem Sound.segments_ne_nil (h : s.Sound) (hc : s.consumer = .signaled) : s.segments ≠ [] := by
  obtain ⟨stored, -, hlen⟩ := h.balance
  intro hnil
  simp only [hnil, unstored, hc, List.length_nil] at hlen
  omega

variable (ct) in
theorem Sound.consume_signaled (h : s.Sound) (hc : s.consumer = .signaled) :
    ∃ t, s.consume ct = .ok t ∧ t.Sound := by
  obtain ⟨segment, segments, hsegments⟩ := List.exists_cons_of_ne_nil (h.segments_ne_nil hc)
  refine ⟨{ s with segments, consumer := .writing segment }, by simp [consume, hc, hsegments], ?_⟩
  have hfits := h.signal
  simp only [SignalFits, hc] at hfits
  have hb := h.bytes
  simp only [hc, Consumer.inHand, hsegments] at hb
  refine ⟨by simp [hb, Consumer.inHand], h.clean, hfits, ?_⟩
  obtain ⟨stored, hstored, hlen⟩ := h.balance
  refine ⟨stored, hstored, ?_⟩
  simp only [unstored, hc, hsegments, List.length_cons] at hlen ⊢
  omega

variable (ct) in
theorem Sound.consume_writing (h : s.Sound) {segment : BufferSegment}
    (hc : s.consumer = .writing segment) : ∃ t, s.consume ct = .ok t ∧ t.Sound := by
  refine ⟨{ s with written := s.written ++ [segment.bytes], consumer := .looping },
    by simp [consume, hc], ?_⟩
  have hfits := h.signal
  simp only [SignalFits, hc] at hfits
  have hb := h.bytes
  simp only [hc, Consumer.inHand] at hb
  refine ⟨by simp [hb, Consumer.inHand], h.clean, hfits, ?_⟩
  obtain ⟨stored, hstored, hlen⟩ := h.balance
  exact ⟨stored, hstored, by simpa [unstored, hc] using hlen⟩

theorem Sound.consume (h : s.Sound) (hs : s.consume ct = .ok t) : t.Sound := by
  cases hc : s.consumer with
  | looping =>
    obtain ⟨u, hu, hsound⟩ := h.consume_looping ct hc
    cases hu.symm.trans hs
    exact hsound
  | awaiting version => exact h.consume_awaiting hc hs
  | signaled =>
    obtain ⟨u, hu, hsound⟩ := h.consume_signaled ct hc
    cases hu.symm.trans hs
    exact hsound
  | writing segment =>
    obtain ⟨u, hu, hsound⟩ := h.consume_writing ct hc
    cases hu.symm.trans hs
    exact hsound
  | ended => simp [CopyStreamToStream.consume, hc] at hs

theorem Sound.step {action : CopyAction} (h : s.Sound)
    (hs : s.step pool bufferSize ct action = .ok t) : t.Sound := by
  cases action with
  | read chunk => exact h.read hs
  | enqueue => exact h.enqueue hs
  | set => exact h.set hs
  | consume => exact h.consume hs

/-- The call after it rented its signaler, whose source is at any version. -/
def start (version : UInt16) : CopyStreamToStream :=
  { control := { manualReset := { version } } }

theorem sound_start (version : UInt16) : (start version).Sound :=
  ⟨rfl, rfl, ⟨rfl, rfl⟩, 0, rfl, rfl⟩

/-- What was written is what was read first, segment by segment, and the signaler never
holds an open wait next to a stored response. -/
structure TransfersFaithfully (s : CopyStreamToStream) : Prop where
  bytes : s.written.flatten <+: s.readed.flatten
  segments : s.written <+: s.readed
  exclusive : ¬ (0 < s.control.requests ∧ 0 < s.control.responses)

theorem Sound.transfersFaithfully (h : s.Sound) : s.TransfersFaithfully := by
  have hprefix : s.written <+: s.readed := by
    rw [h.bytes, List.append_assoc, List.append_assoc]
    exact List.prefix_append _ _
  refine ⟨?_, hprefix, ?_⟩
  · obtain ⟨later, hlater⟩ := hprefix
    exact ⟨later.flatten, by rw [← hlater, List.flatten_append]⟩
  · rintro ⟨hr, hresponses⟩
    obtain ⟨-, -, -, hnone⟩ := h.requested hr
    omega

/-- No interleaving makes the signaler throw: a fault comes from renting an array. -/
theorem Sound.throws (h : s.Sound) {action : CopyAction} {fault : Fault}
    (hs : s.step pool bufferSize ct action = .error (.throws fault)) :
    pool.rent bufferSize = .error fault := by
  cases action with
  | read chunk =>
    simp only [CopyStreamToStream.step, CopyStreamToStream.read] at hs
    split at hs
    · split_ifs at hs
      cases hs
    · rename_i hrent
      cases hs
      exact hrent
    · cases hs
  | enqueue =>
    simp only [CopyStreamToStream.step] at hs
    split at hs <;> cases hs
  | set =>
    simp only [CopyStreamToStream.step, CopyStreamToStream.set] at hs
    split at hs
    · cases hs
    · rename_i hset
      by_cases hr : 0 < s.control.requests
      · obtain ⟨-, -, hopen, -⟩ := h.requested hr
        simp [AsyncSignaler.set, ManualResetValueTaskSourceCore.setResult,
          ManualResetValueTaskSourceCore.signalCompletion, hr, hopen] at hset
      · simp [AsyncSignaler.set, hr] at hset
    · cases hs
  | consume =>
    change s.consume ct = _ at hs
    cases hc : s.consumer with
    | looping =>
      obtain ⟨t, ht, -⟩ := h.consume_looping ct hc
      cases ht.symm.trans hs
    | awaiting version =>
      have hfits := h.signal
      simp only [SignalFits, hc] at hfits
      obtain ⟨rfl, ⟨-, hopen, -⟩ | ⟨-, hdone⟩⟩ := hfits
      · simp [CopyStreamToStream.consume, hc, AsyncSignaler.getStatus, hopen] at hs
      · simp [CopyStreamToStream.consume, hc, AsyncSignaler.getStatus, hdone,
          AsyncSignaler.getResult, ManualResetValueTaskSourceCore.getResult, h.clean] at hs
    | signaled =>
      obtain ⟨t, ht, -⟩ := h.consume_signaled ct hc
      cases ht.symm.trans hs
    | writing segment =>
      obtain ⟨t, ht, -⟩ := h.consume_writing ct hc
      cases ht.symm.trans hs
    | ended => simp [CopyStreamToStream.consume, hc] at hs

variable (pool bufferSize ct)

theorem sound_reached {version : UInt16} {actions : List CopyAction}
    (hr : Reached (step pool bufferSize ct) (start version) actions s) : s.Sound :=
  Along.reached_invariant (C := fun _ _ => True) (fun _ _ _ hi _ hs => hi.step hs)
    (sound_start version) (along_of_forall fun _ _ _ => trivial) hr

end CopyStreamToStream

/-- Every state of every interleaving transfers faithfully. -/
theorem copyStreamToStream_faithful (pool : ArrayPool) (bufferSize : ℤ) (ct : Option ℕ)
    (version : UInt16) (actions : List CopyAction) :
    ∀ s, Reached (CopyStreamToStream.step pool bufferSize ct) (.start version) actions s →
      s.TransfersFaithfully :=
  fun _ hr => (CopyStreamToStream.sound_reached pool bufferSize ct hr).transfersFaithfully

theorem copyStreamToStream_faithful_one_segment :
    ∃ s, Reached (CopyStreamToStream.step .zeroed 16 none) (.start 0)
        [.consume, .read [1, 2], .enqueue, .set, .consume, .consume, .consume] s ∧
      s.written = [[1, 2]] ∧ s.TransfersFaithfully := by
  have hrun : (run (CopyStreamToStream.step .zeroed 16 none) (.start 0)
      [.consume, .read [1, 2], .enqueue, .set, .consume, .consume, .consume]).map
        CopyStreamToStream.written = .ok [[1, 2]] := rfl
  obtain ⟨s, hs, hw⟩ := map_ok_iff.mp hrun
  have hr := reached_of_run hs
  exact ⟨s, hr, hw, copyStreamToStream_faithful .zeroed 16 none 0 _ s hr⟩

end DecodingProxy.Streams
