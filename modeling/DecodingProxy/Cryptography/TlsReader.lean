import DecodingProxy.Lib.Runs
import DecodingProxy.Runtime.ArrayPool
import Mathlib.Tactic.Common

/-!
# `TlsReader`: records out of appended data

The reader appends every piece it is given to one rented array and looks at the
record that starts at the beginning of that array. Nothing ever moves that start.
-/

namespace DecodingProxy.Cryptography
open DecodingProxy.Arrays DecodingProxy.Runs DecodingProxy.Runtime

/-- `ConstantsForTls.SIZE_RECORD`. -/
def sizeRecord : ℕ := 5

/-- The five header bytes as `StructLayout` places them in memory; multi-byte fields
are read in the little-endian order of the machine. -/
structure TlsRecord where
  type : UInt8
  protocolVersion : UInt16
  lengthFollows : UInt16
  deriving DecidableEq, Repr

def littleEndian (low high : UInt8) : UInt16 := UInt16.ofNat (low.toNat + 256 * high.toNat)

def reverseEndians (v : UInt16) : UInt16 := UInt16.ofNat (v.toNat / 256 + 256 * (v.toNat % 256))

theorem reverseEndians_littleEndian (low high : UInt8) :
    (reverseEndians (littleEndian low high)).toNat = 256 * low.toNat + high.toNat := by
  have hl := low.toNat_lt
  have hh := high.toNat_lt
  have hlow : (low.toNat + 256 * high.toNat) % 2 ^ 16 = low.toNat + 256 * high.toNat :=
    Nat.mod_eq_of_lt (by omega)
  have hdiv : (low.toNat + 256 * high.toNat) / 256 = high.toNat := by omega
  have hmod : (low.toNat + 256 * high.toNat) % 256 = low.toNat := by omega
  simp only [reverseEndians, littleEndian, UInt16.toNat_ofNat', hlow, hdiv, hmod]
  omega

/-- `BufferReader.ToStruct<TlsRecord>`: throws on fewer than five bytes. -/
def TlsRecord.toStruct : List UInt8 → Except Fault TlsRecord
  | b0 :: b1 :: b2 :: b3 :: b4 :: _ => .ok ⟨b0, littleEndian b1 b2, littleEndian b3 b4⟩
  | _ => .error (.raised .indexOutOfRange)

def TlsRecord.length (r : TlsRecord) : ℕ := (reverseEndians r.lengthFollows).toNat

structure TlsFrame where
  type : UInt8
  lengthTotal : ℕ
  record : TlsRecord
  payload : List UInt8
  dataWholeFrame : List UInt8
  deriving DecidableEq, Repr

def TlsFrame.new (record : TlsRecord) (dataWholeFrame : List UInt8) : TlsFrame :=
  ⟨record.type, dataWholeFrame.length, record, dataWholeFrame.drop sizeRecord, dataWholeFrame⟩

structure TlsReader where
  frame : Option (List UInt8) := none
  /-- Length of current payload -/
  offset : ℕ := 0
  lengthLeftFree : ℤ := 0
  deriving DecidableEq, Repr

namespace TlsReader

def bufferSize : ℕ := 1024

/-- What the old array holds goes to the start of the new one, and the old one back
to the pool. -/
def moveFrame (length : ℕ) (newBuffer : List UInt8) :
    Option (List UInt8) → Except Fault (List UInt8)
  | none => .ok newBuffer
  | some frame => do
    let copied ← arrayCopy frame newBuffer length
    ArrayPool.giveBack frame
    .ok copied

def ensureCapacity (pool : ArrayPool) (lengthToAdd : ℕ) (r : TlsReader) :
    Except Fault TlsReader :=
  if r.lengthLeftFree < lengthToAdd then do
    let newBuffer ← pool.rent (int32 (lengthToAdd + r.offset))
    let newBuffer ← moveFrame r.offset newBuffer r.frame
    .ok { r with frame := some newBuffer, lengthLeftFree := newBuffer.length - r.offset }
  else .ok r

def new (pool : ArrayPool) : Except Fault TlsReader := ensureCapacity pool bufferSize {}

/-- The record at the start of the array, once `offset` says that all of it is there. -/
def peekFrame (frame : List UInt8) (offset : ℕ) : Except Fault (Option TlsFrame) :=
  if sizeRecord ≤ offset then do
    let header ← TlsRecord.toStruct frame
    let frameSize := header.length + sizeRecord
    .ok (if frameSize ≤ offset then some (.new header (frame.take frameSize)) else none)
  else .ok none

def tryParseOnAppendData (pool : ArrayPool) (readOnlyMemory : List UInt8) (r : TlsReader) :
    Except Fault (TlsReader × Option TlsFrame) := do
  let r ← r.ensureCapacity pool readOnlyMemory.length
  let frame ← copyTo readOnlyMemory (r.frame.getD []) r.offset
  let offset := r.offset + readOnlyMemory.length
  let tlsFrame ← peekFrame frame offset
  .ok (⟨some frame, offset, r.lengthLeftFree - readOnlyMemory.length⟩, tlsFrame)

/-- What the array holds and no call has given up: everything from its start on. -/
def buffered (r : TlsReader) : List UInt8 := (r.frame.getD []).take r.offset

/-! ### One append -/

/-- The part of the array that is filled lies inside it, and the rest is free. -/
structure Sound (r : TlsReader) : Prop where
  fits : r.offset ≤ (r.frame.getD []).length
  free : r.lengthLeftFree = (r.frame.getD []).length - r.offset

theorem ensureCapacity_spec {pool : ArrayPool} {n : ℕ} {r t : TlsReader} (hs : r.Sound)
    (h : r.ensureCapacity pool n = .ok t) :
    t.Sound ∧ t.offset = r.offset ∧ t.buffered = r.buffered := by
  unfold ensureCapacity at h
  split_ifs at h with hfull
  · obtain ⟨array, hrent, h⟩ := do_ok_iff.mp h
    obtain ⟨copied, hmove, h⟩ := do_ok_iff.mp h
    cases h
    cases hf : r.frame with
    | none =>
      have h0 : r.offset = 0 := by simpa [hf] using hs.fits
      exact ⟨⟨by simp [h0], rfl⟩, rfl, by simp [buffered, h0]⟩
    | some frame =>
      rw [hf] at hmove
      obtain ⟨copied', harray, hback⟩ := do_ok_iff.mp hmove
      obtain ⟨-, -, hback⟩ := do_ok_iff.mp hback
      cases hback
      obtain ⟨-, hfit, hlen, htake⟩ := arrayCopy_inv harray
      exact ⟨⟨by simpa [hlen] using hfit, rfl⟩, rfl, by simpa [buffered, hf] using htake⟩
  · cases h
    exact ⟨hs, rfl, rfl⟩

theorem new_spec {pool : ArrayPool} {r : TlsReader} (h : new pool = .ok r) :
    r.Sound ∧ r.buffered = [] := by
  obtain ⟨hs, -, hb⟩ := ensureCapacity_spec ⟨Nat.le_refl _, rfl⟩ h
  exact ⟨hs, hb⟩

theorem new_eq (pool : ArrayPool) :
    new pool = .ok ⟨some (pool.contents bufferSize), 0, (pool.contents bufferSize).length⟩ := by
  have hrent := pool.rent_ok (n := bufferSize) (by decide)
  unfold new ensureCapacity
  rw [if_pos (by decide), show int32 ((bufferSize : ℕ) + (0 : ℕ)) = bufferSize from by decide,
    hrent]
  change Except.ok (TlsReader.mk _ _ ((pool.contents bufferSize).length - (0 : ℕ))) = _
  simp

theorem tryParseOnAppendData_spec {pool : ArrayPool} {data : List UInt8} {r t : TlsReader}
    {f : Option TlsFrame} (hs : r.Sound) (h : r.tryParseOnAppendData pool data = .ok (t, f)) :
    t.Sound ∧ t.buffered = r.buffered ++ data ∧
      peekFrame (t.frame.getD []) t.offset = .ok f := by
  obtain ⟨m, hm, h⟩ := do_ok_iff.mp h
  obtain ⟨frame, hcopy, h⟩ := do_ok_iff.mp h
  obtain ⟨tlsFrame, hpeek, h⟩ := do_ok_iff.mp h
  cases h
  obtain ⟨hsm, -, hb⟩ := ensureCapacity_spec hs hm
  obtain ⟨hfit, rfl⟩ := copyTo_inv hcopy
  have hlen := writeAt_length hfit
  refine ⟨⟨?_, ?_⟩, ?_, hpeek⟩
  · simpa [hlen] using hfit
  · simp only [hsm.free, Option.getD_some, hlen]
    omega
  · rw [← hb]
    exact take_writeAt hsm.fits

theorem tryParseOnAppendData_nil (pool : ArrayPool) {r : TlsReader} (hs : r.Sound)
    (h0 : r.offset = 0) :
    r.tryParseOnAppendData pool [] =
      .ok (⟨some (r.frame.getD []), 0, r.lengthLeftFree⟩, none) := by
  have hfree : ¬ r.lengthLeftFree < (0 : ℕ) := by
    rw [hs.free, h0]
    omega
  simp only [tryParseOnAppendData, ensureCapacity, List.length_nil, if_neg hfree, h0]
  change (copyTo [] (r.frame.getD []) r.offset >>= _) = _
  rw [h0, copyTo_ok (by simp), writeAt_nil]
  change Except.ok (TlsReader.mk _ _ (r.lengthLeftFree - (0 : ℕ)), none) = _
  simp

end TlsReader

end DecodingProxy.Cryptography
