import Mathlib.Algebra.Order.Ring.Int

/-!
# Exceptions and 32-bit integers of the base class library

`thrown` is a `throw` statement of the source with the text it carries; `raised`
is an exception a framework method throws by itself, whose text is not ours.
-/

namespace DecodingProxy.Runtime

inductive ExceptionType
  | argument
  | argumentNull
  | argumentOutOfRange
  | cryptographic
  | divideByZero
  | format
  | indexOutOfRange
  | invalidOperation
  | keyNotFound
  | notImplemented
  | notSupported
  | nullReference
  | objectDisposed
  | operationCanceled
  | outOfMemory
  | overflow
  deriving DecidableEq, Repr

inductive Fault
  | thrown (type : ExceptionType) (message : String)
  | raised (type : ExceptionType)
  deriving DecidableEq, Repr

/-- How a call fails to return: it throws, or it loops for ever. -/
inductive Halt
  | threw (fault : Fault)
  | diverges
  deriving DecidableEq, Repr

/-- Unchecked `int` arithmetic: the representative of `z` in `[-2^31, 2^31)`. -/
def int32 (z : ℤ) : ℤ := z.bmod (2 ^ 32)

theorem int32_of_range {z : ℤ} (hl : -2 ^ 31 ≤ z) (hu : z < 2 ^ 31) : int32 z = z := by
  unfold int32
  rw [Int.bmod_eq_of_le] <;> omega

theorem int32_range (z : ℤ) : -2 ^ 31 ≤ int32 z ∧ int32 z < 2 ^ 31 := by
  have hl := Int.le_bmod (x := z) (m := 2 ^ 32) (by decide)
  have hu := Int.bmod_lt (x := z) (m := 2 ^ 32) (by decide)
  unfold int32
  omega

@[simp] theorem int32_int32 (z : ℤ) : int32 (int32 z) = int32 z :=
  int32_of_range (int32_range z).1 (int32_range z).2

theorem int32_add (z k : ℤ) : int32 (int32 z + k) = int32 (z + k) :=
  Int.bmod_add_bmod

theorem int32_succ (z : ℤ) : int32 (int32 z + 1) = int32 (z + 1) :=
  int32_add z 1

theorem int32_sub_one (z : ℤ) : int32 (int32 z - 1) = int32 (z - 1) :=
  Int.bmod_sub_bmod

theorem int32_pred {z : ℤ} (h : 0 < int32 z) : int32 (z - 1) = int32 z - 1 := by
  have hr := int32_range z
  calc int32 (z - 1) = int32 (int32 z - 1) := (int32_sub_one z).symm
    _ = int32 z - 1 := int32_of_range (by omega) (by omega)

theorem int32_eq_iff {z e : ℤ} (hl : -2 ^ 31 ≤ e) (hu : e < 2 ^ 31) :
    int32 z = e ↔ (2 ^ 32 : ℤ) ∣ z - e := by
  constructor
  · intro h
    have hemod : int32 z % (2 ^ 32 : ℕ) = z % (2 ^ 32 : ℕ) := Int.bmod_emod
    rw [h] at hemod
    omega
  · rintro ⟨k, hk⟩
    have hz : z = e + ((2 ^ 32 : ℕ) : ℤ) * k := by omega
    rw [hz]
    unfold int32
    rw [Int.add_mul_bmod_self_left]
    exact int32_of_range hl hu

/-- One turn over the end. -/
theorem int32_of_wrap {z : ℤ} (hl : 2 ^ 31 ≤ z) (hu : z < 3 * 2 ^ 31) : int32 z = z - 2 ^ 32 := by
  rw [int32_eq_iff (by omega) (by omega)]
  exact ⟨1, by omega⟩

theorem exists_int32_succ {z : ℤ} (h : int32 z = z) : ∃ n : ℕ, int32 (n + 1) = z := by
  refine ⟨((z - 1) % 2 ^ 32).toNat, ?_⟩
  have hn : 0 ≤ (z - 1) % 2 ^ 32 := Int.emod_nonneg _ (by decide)
  rw [Int.toNat_of_nonneg hn]
  have hw : (2 : ℤ) ^ 32 = ((2 ^ 32 : ℕ) : ℤ) := by decide
  calc int32 ((z - 1) % 2 ^ 32 + 1) = int32 (z - 1 + 1) := by
        rw [hw]
        exact Int.emod_add_bmod (z - 1) (2 ^ 32)
    _ = int32 z := by rw [Int.sub_add_cancel]
    _ = z := h

end DecodingProxy.Runtime
