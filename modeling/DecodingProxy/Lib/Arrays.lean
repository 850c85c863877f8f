import Mathlib.Data.List.Basic

/-!
# Fixed-size arrays written piece by piece

An array is a list whose length never changes: `writeAt` overwrites the cells from
an offset on. Reading back the cells before the end of a write that continues the
data already there gives that data followed by what was written.
-/

namespace DecodingProxy.Arrays

variable {α : Type*}

def writeAt (dst : List α) (offset : ℕ) (src : List α) : List α :=
  dst.take offset ++ src ++ dst.drop (offset + src.length)

theorem writeAt_length {dst src : List α} {offset : ℕ} (h : offset + src.length ≤ dst.length) :
    (writeAt dst offset src).length = dst.length := by
  simp only [writeAt, List.length_append, List.length_take, List.length_drop]
  omega

theorem take_writeAt {dst src : List α} {offset : ℕ} (h : offset ≤ dst.length) :
    (writeAt dst offset src).take (offset + src.length) = dst.take offset ++ src := by
  have hl : (dst.take offset ++ src).length = offset + src.length := by simp [h]
  rw [writeAt, ← hl, List.take_left]

theorem getElem?_writeAt {dst src : List α} {offset j : ℕ} (h : offset ≤ dst.length) :
    (writeAt dst offset src)[j]? =
      if offset ≤ j ∧ j < offset + src.length then src[j - offset]? else dst[j]? := by
  have htake : (dst.take offset).length = offset := by simp [h]
  rw [writeAt, List.append_assoc]
  split_ifs with hin
  · rw [List.getElem?_append_right (by omega), htake, List.getElem?_append_left (by omega)]
  · by_cases hfront : j < offset
    · rw [List.getElem?_append_left (by omega), List.getElem?_take_of_lt hfront]
    · rw [List.getElem?_append_right (by omega), htake, List.getElem?_append_right (by omega),
        List.getElem?_drop]
      congr 1
      omega

/-- `after` is as long as `before`, and up to the end of `data` holds what `before` holds in front
of `offset`, and `data`. -/
structure Wrote (before after : List α) (offset : ℕ) (data : List α) : Prop where
  length : after.length = before.length
  take : after.take (offset + data.length) = before.take offset ++ data

theorem wrote_writeAt {dst src : List α} {offset : ℕ} (h : offset + src.length ≤ dst.length) :
    Wrote dst (writeAt dst offset src) offset src :=
  ⟨writeAt_length h, take_writeAt (by omega)⟩

/-- One write behind the other. -/
theorem Wrote.trans {before between after front back : List α} {offset : ℕ}
    (hfront : Wrote before between offset front)
    (hback : Wrote between after (offset + front.length) back) :
    Wrote before after offset (front ++ back) where
  length := hback.length.trans hfront.length
  take := by
    rw [List.length_append, ← Nat.add_assoc, hback.take, hfront.take, List.append_assoc]

/-- Nothing in front of a write changes. -/
theorem Wrote.take_front {before after data : List α} {offset : ℕ}
    (h : Wrote before after offset data) (hoffset : offset ≤ before.length) :
    after.take offset = before.take offset := by
  have hlength : (before.take offset).length = offset := by simp [hoffset]
  calc after.take offset = (after.take (offset + data.length)).take offset := by
        rw [List.take_take, Nat.min_eq_left (Nat.le_add_right _ _)]
    _ = (before.take offset ++ data).take (before.take offset).length := by rw [h.take, hlength]
    _ = before.take offset := List.take_left

/-- The cells behind `first`, up to `last`, each moved one cell down. -/
def shiftDown (dst : List α) (first last : ℕ) : List α :=
  writeAt dst first ((dst.drop (first + 1)).take (last - first))

theorem shiftDown_length {dst : List α} {first last : ℕ} (hle : first ≤ last)
    (hlast : last < dst.length) : (shiftDown dst first last).length = dst.length := by
  apply writeAt_length
  simp
  omega

theorem getElem?_shiftDown {dst : List α} {first last j : ℕ} (hle : first ≤ last)
    (hlast : last < dst.length) :
    (shiftDown dst first last)[j]? = if first ≤ j ∧ j < last then dst[j + 1]? else dst[j]? := by
  have hmoved : ((dst.drop (first + 1)).take (last - first)).length = last - first := by
    simp
    omega
  rw [shiftDown, getElem?_writeAt (by omega), hmoved]
  by_cases hin : first ≤ j ∧ j < last
  · rw [if_pos (by omega), if_pos hin, List.getElem?_take_of_lt (by omega), List.getElem?_drop]
    congr 1
    omega
  · rw [if_neg (by omega), if_neg hin]

@[simp] theorem writeAt_nil (dst : List α) (offset : ℕ) : writeAt dst offset [] = dst := by
  simp [writeAt]

end DecodingProxy.Arrays
