import DecodingProxy.Lib.Vectors
import DecodingProxy.Runtime.Memory

/-!
# `BufferReader`

Structs are taken off the front of a memory as their bytes. All numbers in them are written with
the highest byte first.
-/

namespace DecodingProxy.Runtime
open DecodingProxy.Vectors

namespace BufferReader

def toInt32Size3 : List UInt8 → Except Fault ℕ
  | b0 :: b1 :: b2 :: _ => .ok (number [b0, b1, b2])
  | _ => .error (.raised .indexOutOfRange)

/-- `ToStructConsume<T>`, for a `T` of `size` bytes. -/
def toStructConsume (size : ℕ) (mem : List UInt8) : Except Fault (List UInt8 × List UInt8) :=
  if mem.length < size then .error (.raised .indexOutOfRange)
  else .ok (mem.take size, mem.drop size)

def consume (length : ℕ) (slice : List UInt8) : Except Fault (List UInt8 × List UInt8) := do
  let result ← sliceTo slice length
  let slice ← sliceFrom slice length
  .ok (result, slice)

theorem toStructConsume_append {size : ℕ} {bytes : List UInt8} (h : bytes.length = size)
    (rest : List UInt8) : toStructConsume size (bytes ++ rest) = .ok (bytes, rest) := by
  subst h
  unfold toStructConsume
  rw [if_neg (by simp), List.take_left, List.drop_left]

theorem consume_append (bytes rest : List UInt8) :
    consume bytes.length (bytes ++ rest) = .ok (bytes, rest) := by
  unfold consume
  rw [sliceTo_append, sliceFrom_append]
  rfl

theorem consume_inv {length : ℕ} {slice bytes rest : List UInt8}
    (h : consume length slice = .ok (bytes, rest)) :
    slice = bytes ++ rest ∧ bytes.length = length := by
  unfold consume at h
  cases hto : sliceTo slice length with
  | error e =>
    rw [hto] at h
    cases h
  | ok part =>
    obtain ⟨-, hle, rfl⟩ := sliceTo_inv hto
    cases hfrom : sliceFrom slice length with
    | error e =>
      rw [hto, hfrom] at h
      cases h
    | ok back =>
      obtain ⟨-, -, rfl⟩ := sliceFrom_inv hfrom
      rw [hto, hfrom] at h
      cases h
      refine ⟨(List.take_append_drop _ _).symm, ?_⟩
      rw [List.length_take]
      omega

theorem consume_length_le {length : ℕ} {slice bytes rest : List UInt8}
    (h : consume length slice = .ok (bytes, rest)) : rest.length ≤ slice.length := by
  rw [(consume_inv h).1, List.length_append]
  exact Nat.le_add_left _ _

end BufferReader

end DecodingProxy.Runtime
