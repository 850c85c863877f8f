import DecodingProxy.Runtime.Faults
import Mathlib.Tactic.Common

/-!
# Slices of memory and the byte vectors read from it
-/

namespace DecodingProxy.Runtime

/-- `buffer.Slice(0, length)`. -/
def sliceTo (buffer : List UInt8) (length : ℤ) : Except Fault (List UInt8) :=
  if length < 0 ∨ buffer.length < length then .error (.raised .argumentOutOfRange)
  else .ok (buffer.take length.toNat)

/-- `buffer.Slice(length)`. -/
def sliceFrom (buffer : List UInt8) (length : ℤ) : Except Fault (List UInt8) :=
  if length < 0 ∨ buffer.length < length then .error (.raised .argumentOutOfRange)
  else .ok (buffer.drop length.toNat)

/-- `buffer.Slice(start, length)`. -/
def slice (buffer : List UInt8) (start length : ℕ) : Except Fault (List UInt8) :=
  if buffer.length < start + length then .error (.raised .argumentOutOfRange)
  else .ok ((buffer.drop start).take length)

theorem slice_ok {buffer : List UInt8} {start length : ℕ} (h : start + length ≤ buffer.length) :
    slice buffer start length = .ok ((buffer.drop start).take length) :=
  if_neg (Nat.not_lt.mpr h)

theorem sliceTo_inv {buffer part : List UInt8} {length : ℤ} (h : sliceTo buffer length = .ok part) :
    0 ≤ length ∧ length ≤ buffer.length ∧ part = buffer.take length.toNat := by
  unfold sliceTo at h
  split_ifs at h with hc
  cases h
  exact ⟨by omega, by omega, rfl⟩

theorem sliceFrom_inv {buffer part : List UInt8} {length : ℤ}
    (h : sliceFrom buffer length = .ok part) :
    0 ≤ length ∧ length ≤ buffer.length ∧ part = buffer.drop length.toNat := by
  unfold sliceFrom at h
  split_ifs at h with hc
  cases h
  exact ⟨by omega, by omega, rfl⟩

theorem sliceTo_append (as bs : List UInt8) : sliceTo (as ++ bs) as.length = .ok as := by
  unfold sliceTo
  rw [if_neg (by simp only [List.length_append]; omega), Int.toNat_natCast, List.take_left]

theorem sliceFrom_append (as bs : List UInt8) : sliceFrom (as ++ bs) as.length = .ok bs := by
  unfold sliceFrom
  rw [if_neg (by simp only [List.length_append]; omega), Int.toNat_natCast, List.drop_left]

structure Bytes3 where
  byte0 : UInt8
  byte1 : UInt8
  byte2 : UInt8
  deriving DecidableEq, Repr

/-- The conversion to `int`: the first byte is the highest. -/
def Bytes3.toInt (b : Bytes3) : ℕ := (b.byte0.toNat * 256 + b.byte1.toNat) * 256 + b.byte2.toNat

end DecodingProxy.Runtime
