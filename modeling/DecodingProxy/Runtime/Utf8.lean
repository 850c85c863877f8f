import Mathlib.Data.List.Basic

/-!
# `Encoding.UTF8.GetString`

A string is the list of its UTF-16 code units. The decoder reads byte by byte and
keeps what it owes of the character it is in; the longest part of a sequence that
cannot go on becomes one U+FFFD.
-/

namespace DecodingProxy.Runtime

abbrev Str := List UInt16

def ascii (s : String) : Str := s.toList.map fun c => UInt16.ofNat c.toNat

namespace Utf8

/-- Between characters, or inside one: how many bytes are owed, where the next one has to
lie, and the bits read so far. -/
inductive State
  | start
  | inside (owed : ℕ) (low high : UInt8) (value : ℕ) (tail : 0x80 ≤ low)

def replacement : Str := [0xFFFD]

def encodeUtf16 (value : ℕ) : Str :=
  if value < 0x10000 then [UInt16.ofNat value]
  else
    [UInt16.ofNat (0xD800 + (value - 0x10000) / 0x400),
      UInt16.ofNat (0xDC00 + (value - 0x10000) % 0x400)]

/-- The first byte of a character. -/
def first (b : UInt8) : State × Str :=
  if b < 0x80 then (.start, [b.toUInt16])
  else if b < 0xC2 then (.start, replacement)
  else if b < 0xE0 then (.inside 1 0x80 0xBF (b.toNat % 0x20) (by decide), [])
  else if b = 0xE0 then (.inside 2 0xA0 0xBF (b.toNat % 0x10) (by decide), [])
  else if b = 0xED then (.inside 2 0x80 0x9F (b.toNat % 0x10) (by decide), [])
  else if b < 0xF0 then (.inside 2 0x80 0xBF (b.toNat % 0x10) (by decide), [])
  else if b = 0xF0 then (.inside 3 0x90 0xBF (b.toNat % 0x08) (by decide), [])
  else if b < 0xF4 then (.inside 3 0x80 0xBF (b.toNat % 0x08) (by decide), [])
  else if b = 0xF4 then (.inside 3 0x80 0x8F (b.toNat % 0x08) (by decide), [])
  else (.start, replacement)

def step : State → UInt8 → State × Str
  | .start, b => first b
  | .inside owed low high value _, b =>
    if low ≤ b ∧ b ≤ high then
      let value := value * 0x40 + b.toNat % 0x40
      if owed ≤ 1 then (.start, encodeUtf16 value)
      else (.inside (owed - 1) 0x80 0xBF value (by decide), [])
    else ((first b).1, replacement ++ (first b).2)

def decodeFrom : State → List UInt8 → Str
  | .start, [] => []
  | .inside _ _ _ _ _, [] => replacement
  | q, b :: bs => (step q b).2 ++ decodeFrom (step q b).1 bs

def getString (bytes : List UInt8) : Str := decodeFrom .start bytes

theorem decodeFrom_cons (q : State) (b : UInt8) (bs : List UInt8) :
    decodeFrom q (b :: bs) = (step q b).2 ++ decodeFrom (step q b).1 bs := by
  cases q <;> rfl

/-- An ASCII byte ends whatever came before it and stands for itself. -/
theorem step_ascii {b : UInt8} (hb : b < 0x80) (q : State) :
    step q b = (.start, decodeFrom q [] ++ [b.toUInt16]) := by
  cases q with
  | start => simp [step, first, hb, decodeFrom]
  | inside owed low high value tail =>
    have hlow : ¬ low ≤ b := fun h => absurd (UInt8.le_trans tail h) (UInt8.not_le.mpr hb)
    simp [step, first, hb, hlow, decodeFrom]

theorem decodeFrom_append_ascii {suffix : List UInt8} (hs : ∀ b ∈ suffix, b < 0x80)
    (q : State) (bytes : List UInt8) :
    decodeFrom q (bytes ++ suffix) = decodeFrom q bytes ++ suffix.map UInt8.toUInt16 := by
  induction bytes generalizing q with
  | nil =>
    induction suffix generalizing q with
    | nil => simp
    | cons b suffix ih =>
      have hb := hs b List.mem_cons_self
      have hrest := ih (fun c hc => hs c (List.mem_cons_of_mem _ hc)) .start
      simp only [List.nil_append] at hrest ⊢
      rw [decodeFrom_cons, step_ascii hb, hrest]
      simp [decodeFrom]
  | cons b bytes ih =>
    rw [List.cons_append, decodeFrom_cons, ih, decodeFrom_cons, List.append_assoc]

theorem getString_append_ascii {suffix : List UInt8} (hs : ∀ b ∈ suffix, b < 0x80)
    (bytes : List UInt8) :
    getString (bytes ++ suffix) = getString bytes ++ suffix.map UInt8.toUInt16 :=
  decodeFrom_append_ascii hs .start bytes

theorem getString_ascii {bytes : List UInt8} (h : ∀ b ∈ bytes, b < 0x80) :
    getString bytes = bytes.map UInt8.toUInt16 := by
  simpa [getString, decodeFrom] using decodeFrom_append_ascii h .start []

theorem encodeUtf16_ne_nil (value : ℕ) : encodeUtf16 value ≠ [] := by
  unfold encodeUtf16
  split_ifs <;> simp

theorem decodeFrom_inside_ne_nil (owed : ℕ) (low high : UInt8) (value : ℕ) (tail : 0x80 ≤ low)
    (bytes : List UInt8) : decodeFrom (.inside owed low high value tail) bytes ≠ [] := by
  induction bytes generalizing owed low high value with
  | nil => simp [decodeFrom, replacement]
  | cons b bytes ih =>
    rw [decodeFrom_cons, step]
    split_ifs with hin howed
    · simp [encodeUtf16_ne_nil]
    · simpa using ih _ _ _ _ _
    · simp [replacement]

theorem getString_ne_nil {bytes : List UInt8} (h : bytes ≠ []) : getString bytes ≠ [] := by
  cases bytes with
  | nil => exact absurd rfl h
  | cons b bytes =>
    rw [getString, decodeFrom_cons, step]
    unfold first
    split_ifs <;> simp [replacement, decodeFrom_inside_ne_nil]

end Utf8

end DecodingProxy.Runtime
