import Mathlib.Algebra.Group.Nat.Even
import Mathlib.Data.List.Basic
import Mathlib.Tactic.Common

/-!
# Byte strings behind their length

Numbers are written in a fixed count of bytes, the highest byte first. A vector is a string
that is short enough for its length to be written so, and is sent behind this length.
-/

namespace DecodingProxy.Vectors

/-- `n` in `k` bytes. -/
def bigEndian : ℕ → ℕ → List UInt8
  | 0, _ => []
  | k + 1, n => bigEndian k (n / 256) ++ [UInt8.ofNat n]

def number (bytes : List UInt8) : ℕ := bytes.foldl (fun n b => 256 * n + b.toNat) 0

@[simp] theorem length_bigEndian (k n : ℕ) : (bigEndian k n).length = k := by
  induction k generalizing n with
  | zero => rfl
  | succ k ih => rw [bigEndian, List.length_append, ih, List.length_singleton]

theorem number_concat (bytes : List UInt8) (b : UInt8) :
    number (bytes ++ [b]) = 256 * number bytes + b.toNat := by
  rw [number, List.foldl_append]
  rfl

theorem number_bigEndian {k n : ℕ} (h : n < 256 ^ k) : number (bigEndian k n) = n := by
  induction k generalizing n with
  | zero =>
    rw [pow_zero, Nat.lt_one_iff] at h
    subst h
    rfl
  | succ k ih =>
    have hhigh : n / 256 < 256 ^ k := by
      rw [Nat.div_lt_iff_lt_mul (by decide)]
      rwa [pow_succ] at h
    have hlow : (UInt8.ofNat n).toNat = n % 256 := UInt8.toNat_ofNat'
    rw [bigEndian, number_concat, ih hhigh, hlow]
    exact Nat.div_add_mod n 256

/-- A string whose length can be written in `k` bytes. -/
abbrev Prefixed (k : ℕ) := { body : List UInt8 // body.length < 256 ^ k }

namespace Prefixed

variable {k : ℕ}

def encode (v : Prefixed k) : List UInt8 := bigEndian k v.1.length ++ v.1

def encodeAll (vs : List (Prefixed k)) : List UInt8 := vs.flatMap encode

@[simp] theorem length_encode (v : Prefixed k) : v.encode.length = k + v.1.length := by
  rw [encode, List.length_append, length_bigEndian]

theorem number_length (v : Prefixed k) : number (bigEndian k v.1.length) = v.1.length :=
  number_bigEndian v.2

@[simp] theorem encodeAll_nil : encodeAll ([] : List (Prefixed k)) = [] := rfl

theorem encodeAll_cons (v : Prefixed k) (vs : List (Prefixed k)) :
    encodeAll (v :: vs) = bigEndian k v.1.length ++ (v.1 ++ encodeAll vs) := by
  rw [encodeAll, List.flatMap_cons, encode, List.append_assoc]
  rfl

theorem length_encodeAll_cons (v : Prefixed k) (vs : List (Prefixed k)) :
    (encodeAll (v :: vs)).length = k + v.1.length + (encodeAll vs).length := by
  rw [encodeAll_cons, List.length_append, List.length_append, length_bigEndian, Nat.add_assoc]

end Prefixed

end DecodingProxy.Vectors
