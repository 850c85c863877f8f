import DecodingProxy.Sockets.SocketBufferDefault

/-!
# `SocketReaderBuffered`

A reader with a socket buffer between its source and those who read from it.
`ReadToBufferAsync` and `TransferToAsync` pass every byte through the buffer. `TransferTo`
reads from the source past the buffer, and advances the buffer all the same.
-/

namespace DecodingProxy.Sockets
open DecodingProxy.Runtime DecodingProxy.Arrays DecodingProxy.Runs

structure SocketReaderBuffered where
  buffer : SocketBufferDefault
  deriving DecidableEq, Repr

namespace SocketReaderBuffered

def initilize (pool : ArrayPool) (buffer : SocketBufferDefault) :
    Except Fault SocketReaderBuffered := do
  let buffer ← buffer.initilize pool ((1 <<< 20) * 4)
  .ok { buffer }

/-! The bytes a method reads from the source come first in what it gives back. A source gives
as many of `offered` as the memory it is asked to fill holds. -/

def readToBufferAsync (offered : List UInt8) (r : SocketReaderBuffered) :
    Except Fault (List UInt8 × SocketReaderBuffered) := do
  let (readed, buffer) ← r.buffer.fill offered
  .ok (readed, { buffer })

/-- The second list is what was copied to the memory of `size` bytes. -/
def transferToAsync (size : ArrayLength) (offered : List UInt8) (r : SocketReaderBuffered) :
    Except Fault (List UInt8 × List UInt8 × SocketReaderBuffered) := do
  let (readed, r) ← (if r.buffer.length = 0 then r.readToBufferAsync offered else .ok ([], r))
  let (copied, buffer) ← r.buffer.transferTo size
  .ok (readed, copied, { buffer })

/-- The source fills `length` bytes of the array itself. -/
def transferTo (length : ArrayLength) (offered : List UInt8) (r : SocketReaderBuffered) :
    List UInt8 × SocketReaderBuffered :=
  let readed := offered.take length
  (readed, { buffer := r.buffer.advance readed.length })

end SocketReaderBuffered

/-- A call, with what the source has to offer. -/
inductive ReaderCall
  | readToBufferAsync (offered : List UInt8)
  | transferToAsync (size : ArrayLength) (offered : List UInt8)
  | transferTo (length : ArrayLength) (offered : List UInt8)
  deriving DecidableEq, Repr

/-- A reader with the bytes it has read from its source and copied to the destinations. -/
structure ReaderSession where
  reader : SocketReaderBuffered
  readed : List UInt8 := []
  copied : List UInt8 := []
  deriving DecidableEq, Repr

namespace ReaderSession

def step (s : ReaderSession) : ReaderCall → Except Fault ReaderSession
  | .readToBufferAsync offered => do
    let (readed, reader) ← s.reader.readToBufferAsync offered
    .ok { s with reader, readed := s.readed ++ readed }
  | .transferToAsync size offered => do
    let (readed, copied, reader) ← s.reader.transferToAsync size offered
    .ok { reader, readed := s.readed ++ readed, copied := s.copied ++ copied }
  | .transferTo length offered =>
    let (readed, reader) := s.reader.transferTo length offered
    .ok { reader, readed := s.readed ++ readed, copied := s.copied ++ readed }

/-- What was copied, followed by what the buffer shows, is what was read. -/
def Accounted (s : ReaderSession) : Prop :=
  ∃ left, s.reader.buffer.peekAsReadOnlyMemory = .ok left ∧ s.copied ++ left = s.readed

def DeliversOnce (pool : ArrayPool) (calls : List ReaderCall) : Prop :=
  ∃ reader, SocketReaderBuffered.initilize pool {} = .ok reader ∧
    RunsWell step Accounted { reader } calls

/-- `TransferTo` gets bytes from the source. -/
def Bypasses : ReaderCall → Prop
  | .transferTo length offered => offered.take length ≠ []
  | _ => False

instance (a : ReaderCall) : Decidable (Bypasses a) := by
  cases a <;> unfold Bypasses <;> infer_instance

def Sound (s : ReaderSession) : Prop :=
  ∃ content, s.reader.buffer.Holds content ∧ s.copied ++ content = s.readed

variable {s t : ReaderSession}

theorem Sound.accounted (h : s.Sound) : s.Accounted := by
  obtain ⟨content, hholds, hreaded⟩ := h
  exact ⟨content, hholds.peek, hreaded⟩

theorem readToBufferAsync_holds {r : SocketReaderBuffered} {content : List UInt8}
    (h : r.buffer.Holds content) (offered : List UInt8) :
    ∃ readed r', r.readToBufferAsync offered = .ok (readed, r') ∧
      r'.buffer.Holds (content ++ readed) := by
  obtain ⟨readed, b, hfill, hholds⟩ := h.fill offered
  exact ⟨readed, _, do_of_ok hfill, hholds⟩

theorem transferToAsync_holds {r : SocketReaderBuffered} {content : List UInt8}
    (h : r.buffer.Holds content) (size : ArrayLength) (offered : List UInt8) :
    ∃ readed r', r.transferToAsync size offered =
        .ok (readed, (content ++ readed).take size, r') ∧
      r'.buffer.Holds ((content ++ readed).drop size) := by
  have hread : ∃ readed r', (if r.buffer.length = 0 then r.readToBufferAsync offered
      else .ok ([], r)) = .ok (readed, r') ∧ r'.buffer.Holds (content ++ readed) := by
    split_ifs
    · exact readToBufferAsync_holds h offered
    · exact ⟨[], r, rfl, by simpa using h⟩
  obtain ⟨readed, r', hread, hholds⟩ := hread
  obtain ⟨b, htransfer, hholds'⟩ := hholds.transferTo size
  refine ⟨readed, { buffer := b }, ?_, hholds'⟩
  unfold SocketReaderBuffered.transferToAsync
  rw [do_of_ok hread]
  dsimp only
  rw [do_of_ok htransfer]

theorem Sound.step (h : s.Sound) {a : ReaderCall} (hc : ¬ Bypasses a) :
    ∃ t, s.step a = .ok t ∧ t.Sound := by
  obtain ⟨content, hholds, hreaded⟩ := h
  cases a with
  | readToBufferAsync offered =>
    obtain ⟨readed, r, hread, hholds'⟩ := readToBufferAsync_holds hholds offered
    refine ⟨_, do_of_ok hread, _, hholds', ?_⟩
    simp only [← List.append_assoc, hreaded]
  | transferToAsync size offered =>
    obtain ⟨readed, r, htransfer, hholds'⟩ := transferToAsync_holds hholds size offered
    refine ⟨_, do_of_ok htransfer, _, hholds', ?_⟩
    simp only [List.append_assoc, List.take_append_drop]
    rw [← List.append_assoc, hreaded]
  | transferTo length offered =>
    have hnil : offered.take length = [] := not_not.mp hc
    refine ⟨_, rfl, content, ?_, ?_⟩
    · simp only [hnil, List.length_nil, hholds.advance_zero]
      exact hholds
    · simpa only [SocketReaderBuffered.transferTo, hnil, List.append_nil] using hreaded

/-- The bytes that went past the buffer are counted twice. -/
theorem Sound.step_bypass (h : s.Sound) {a : ReaderCall} (hc : Bypasses a)
    (ht : s.step a = .ok t) : ¬ t.Accounted := by
  obtain ⟨content, hholds, hreaded⟩ := h
  cases a with
  | readToBufferAsync offered => exact absurd hc id
  | transferToAsync size offered => exact absurd hc id
  | transferTo length offered =>
    cases ht
    rintro ⟨left, hpeek, hcounted⟩
    have hpos : 0 < (offered.take length).length := List.length_pos_iff.mpr hc
    have hle : (offered.take length).length ≤ arrayMaxLength :=
      (List.length_take_le _ _).trans length.2
    have hroom := hholds.room
    have hfits := hholds.fits
    have hmax : arrayMaxLength < 2 ^ 31 := by decide
    have hshown : left.length = content.length := by
      have hlen := congrArg List.length hcounted
      have hlen' := congrArg List.length hreaded
      simp only [List.length_append] at hlen hlen'
      omega
    have hlength := SocketBufferDefault.peek_length hpeek
    simp only [SocketBufferDefault.advance, hholds.length, hshown] at hlength
    have hdvd := (int32_eq_iff (by omega) (by omega)).mp hlength.symm
    omega

theorem deliversOnce_iff (pool : ArrayPool) (calls : List ReaderCall) :
    DeliversOnce pool calls ↔ ∀ a ∈ calls, ¬ Bypasses a := by
  obtain ⟨b, hinit, -, -, -, hholds⟩ :=
    @SocketBufferDefault.initilize_ok {} pool ((1 <<< 20) * 4) (by decide) (by decide) rfl
  have hreader : SocketReaderBuffered.initilize pool {} = .ok { buffer := b } := do_of_ok hinit
  have hsound : Sound { reader := { buffer := b } } := ⟨[], hholds rfl, rfl⟩
  have hiff : RunsWell step Accounted { reader := { buffer := b } } calls ↔
      Along step (fun _ a => ¬ Bypasses a) { reader := { buffer := b } } calls :=
    runsWell_iff_along (A := fun _ _ => True) (fun _ h => h.accounted) (fun _ _ h _ hc => h.step hc)
      (fun _ _ h _ hc _ ht => h.step_bypass (not_not.mp hc) ht) hsound
      (along_of_forall fun _ _ _ => trivial)
  constructor
  · rintro ⟨reader, hreader', hwell⟩
    cases hreader.symm.trans hreader'
    obtain ⟨t, ht⟩ := hwell.1
    exact (hiff.mp hwell).forall_of_run ht
  · exact fun h => ⟨_, hreader, hiff.mpr (along_of_forall fun a ha _ => h a ha)⟩

/-- One byte past an empty buffer. -/
theorem not_deliversOnce_transferTo :
    ¬ DeliversOnce .zeroed [.transferTo ⟨1, by decide⟩ [0x2A]] := by
  rw [deliversOnce_iff]
  decide

end ReaderSession

end DecodingProxy.Sockets
