import DecodingProxy.Lib.Arrays
import DecodingProxy.Runtime.Faults
import Mathlib.Data.Nat.Log

/-!
# Arrays, slices and the shared array pool

`ArrayPool<T>.Shared` rents arrays of the next power of two, at least 16 and up to
`2^30`; above that it allocates the length asked for. A rented array holds whatever
its last user left there. `Return` accepts only arrays of such a length.
-/

namespace DecodingProxy.Runtime
open DecodingProxy.Arrays

/-- `Array.MaxLength`: no byte array is longer. -/
def arrayMaxLength : ℕ := 0x7FFFFFC7

/-- The length of an array. -/
abbrev ArrayLength := { n : ℕ // n ≤ arrayMaxLength }

/-- The largest array the pool keeps. -/
def poolMaxLength : ℕ := 2 ^ 30

def rentLength (n : ℕ) : ℕ :=
  if n = 0 then 0 else if n ≤ poolMaxLength then max 16 (2 ^ Nat.clog 2 n) else n

theorem le_rentLength (n : ℕ) : n ≤ rentLength n := by
  unfold rentLength
  split_ifs with h0 hm
  · omega
  · exact (Nat.le_pow_clog (by decide) n).trans (le_max_right _ _)
  · exact le_rfl

theorem rentLength_le {n : ℕ} (h : n ≤ arrayMaxLength) : rentLength n ≤ arrayMaxLength := by
  unfold rentLength
  split_ifs with h0 hm
  · exact Nat.zero_le _
  · have hc : Nat.clog 2 n ≤ 30 := Nat.clog_le_of_le_pow hm
    have hp : 2 ^ Nat.clog 2 n ≤ 2 ^ 30 := Nat.pow_le_pow_right (by decide) hc
    have hs : (2 : ℕ) ^ 30 ≤ arrayMaxLength := by decide
    exact max_le (by decide) (hp.trans hs)
  · exact h

/-- The lengths `Return` accepts; arrays past the largest bucket are dropped unchecked. -/
def returnable (length : ℕ) : Bool :=
  length = 0 || poolMaxLength < length || (16 ≤ length && 2 ^ Nat.log 2 length = length)

theorem returnable_rentLength (n : ℕ) : returnable (rentLength n) = true := by
  unfold rentLength
  split_ifs with h0 hm
  · rfl
  · rcases le_total 16 (2 ^ Nat.clog 2 n) with h | h
    · simp only [returnable, max_eq_right h, Nat.log_pow (by decide : 1 < 2), h]
      simp
    · rw [max_eq_left h]
      decide
  · simp only [returnable]
    simp [show poolMaxLength < n by omega]

/-- What the pool's arrays hold when they are handed out. -/
structure ArrayPool where
  contents : ℕ → List UInt8
  contents_length : ∀ n, (contents n).length = rentLength n

namespace ArrayPool

/-- A pool whose arrays are cleared. -/
def zeroed : ArrayPool := ⟨fun n => List.replicate (rentLength n) 0, fun n => by simp⟩

def rent (pool : ArrayPool) (minimumLength : ℤ) : Except Fault (List UInt8) :=
  if minimumLength < 0 then .error (.raised .argumentOutOfRange)
  else if arrayMaxLength < minimumLength then .error (.raised .outOfMemory)
  else .ok (pool.contents minimumLength.toNat)

def giveBack (array : List UInt8) : Except Fault Unit :=
  if returnable array.length then .ok () else .error (.raised .argument)

theorem rent_ok (pool : ArrayPool) {n : ℕ} (h : n ≤ arrayMaxLength) :
    pool.rent n = .ok (pool.contents n) := by
  unfold rent
  rw [if_neg (by omega), if_neg (by exact_mod_cast Nat.not_lt.mpr h), Int.toNat_natCast]

theorem rent_inv {pool : ArrayPool} {z : ℤ} {array : List UInt8} (h : pool.rent z = .ok array) :
    0 ≤ z ∧ z ≤ array.length ∧ array.length ≤ arrayMaxLength ∧
      returnable array.length = true := by
  unfold rent at h
  split_ifs at h with hn hm
  cases h
  rw [pool.contents_length]
  have hle := le_rentLength z.toNat
  exact ⟨by omega, by omega, rentLength_le (by omega), returnable_rentLength _⟩

end ArrayPool

/-- A pool of which no more is known than that its arrays are as long as asked, or longer. -/
structure RentedArrays where
  contents : ℕ → List UInt8
  le_length : ∀ n, n ≤ (contents n).length
  length_le : ∀ n ≤ arrayMaxLength, (contents n).length ≤ arrayMaxLength

namespace RentedArrays

def rent (pool : RentedArrays) (minimumLength : ℤ) : Except Fault (List UInt8) :=
  if minimumLength < 0 then .error (.raised .argumentOutOfRange)
  else if arrayMaxLength < minimumLength then .error (.raised .outOfMemory)
  else .ok (pool.contents minimumLength.toNat)

/-- Arrays that are just as long as asked. -/
def exact : RentedArrays where
  contents n := List.replicate n 0
  le_length n := by simp
  length_le n h := by simpa using h

theorem rent_ok (pool : RentedArrays) {n : ℕ} (h : n ≤ arrayMaxLength) :
    pool.rent n = .ok (pool.contents n) := by
  unfold rent
  rw [if_neg (by omega), if_neg (by exact_mod_cast Nat.not_lt.mpr h), Int.toNat_natCast]

theorem rent_inv {pool : RentedArrays} {z : ℤ} {array : List UInt8} (h : pool.rent z = .ok array) :
    0 ≤ z ∧ z ≤ arrayMaxLength ∧ array = pool.contents z.toNat := by
  unfold rent at h
  split_ifs at h with hn hm
  cases h
  exact ⟨by omega, by omega, rfl⟩

end RentedArrays

/-- The shared pool is one of these. -/
def ArrayPool.rentedArrays (pool : ArrayPool) : RentedArrays where
  contents := pool.contents
  le_length n := by
    rw [pool.contents_length]
    exact le_rentLength n
  length_le n h := by
    rw [pool.contents_length]
    exact rentLength_le h

/-- `source.CopyTo(target.Slice(offset))`. -/
def copyTo (source target : List UInt8) (offset : ℕ) : Except Fault (List UInt8) :=
  if target.length < offset then .error (.raised .argumentOutOfRange)
  else if target.length - offset < source.length then .error (.raised .argument)
  else .ok (writeAt target offset source)

/-- `Array.Copy(source, 0, target, 0, length)`. -/
def arrayCopy (source target : List UInt8) (length : ℕ) : Except Fault (List UInt8) :=
  if source.length < length ∨ target.length < length then .error (.raised .argument)
  else .ok (writeAt target 0 (source.take length))

theorem copyTo_ok {source target : List UInt8} {offset : ℕ}
    (h : offset + source.length ≤ target.length) :
    copyTo source target offset = .ok (writeAt target offset source) := by
  unfold copyTo
  rw [if_neg (by omega), if_neg (by omega)]

theorem copyTo_inv {source target array : List UInt8} {offset : ℕ}
    (h : copyTo source target offset = .ok array) :
    offset + source.length ≤ target.length ∧ array = writeAt target offset source := by
  unfold copyTo at h
  split_ifs at h with ho hl
  cases h
  exact ⟨by omega, rfl⟩

theorem arrayCopy_inv {source target array : List UInt8} {length : ℕ}
    (h : arrayCopy source target length = .ok array) :
    length ≤ source.length ∧ length ≤ target.length ∧ array.length = target.length ∧
      array.take length = source.take length := by
  unfold arrayCopy at h
  split_ifs at h with hl
  cases h
  have hs : length ≤ source.length ∧ length ≤ target.length := by omega
  have hlen : (source.take length).length = length := by simp [hs.1]
  refine ⟨hs.1, hs.2, writeAt_length (by omega), ?_⟩
  have ht : (writeAt target 0 (source.take length)).take (0 + (source.take length).length) =
      target.take 0 ++ source.take length := take_writeAt (Nat.zero_le _)
  simpa [hlen] using ht

theorem arrayCopy_ok {source target : List UInt8} {length : ℕ} (hs : length ≤ source.length)
    (ht : length ≤ target.length) :
    arrayCopy source target length = .ok (writeAt target 0 (source.take length)) := by
  unfold arrayCopy
  rw [if_neg (by omega)]

end DecodingProxy.Runtime
