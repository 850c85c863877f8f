import DecodingProxy.Runtime.ArrayPool

/-!
# `SequenceFactory`

`FromEnumerable` rents a segment for each piece of memory and links it behind the last one. The
length of the segments so far is counted in an `int`.
-/

namespace DecodingProxy.Recording
open DecodingProxy.Arrays DecodingProxy.Runtime

structure BufferSegmentDefault where
  memory : List UInt8
  runningIndex : ℤ := 0
  deriving DecidableEq, Repr

namespace SequenceFactory

/-- The loop over all memories but the first; `length` is that of the segments before `tail`. -/
def segmentsAfter (length : ℤ) (tail : BufferSegmentDefault) :
    List (List UInt8) → List BufferSegmentDefault
  | [] => []
  | mem :: more =>
    let length := int32 (length + tail.memory.length)
    let next : BufferSegmentDefault := ⟨mem, length⟩
    next :: segmentsAfter length next more

/-- The segments of the sequence. -/
def fromEnumerable : List (List UInt8) → Except Fault (List BufferSegmentDefault)
  | [] => .error (.raised .invalidOperation)
  | firstMem :: more =>
    let head : BufferSegmentDefault := { memory := firstMem }
    let segments := head :: segmentsAfter 0 head more
    match segments.getLast? with
    | some tail =>
      if tail.runningIndex < head.runningIndex then .error (.raised .argumentOutOfRange)
      else .ok segments
    | none => .error (.raised .invalidOperation)

/-- `sequence.Length`: where the last segment ends. -/
def sequenceLength (segments : List BufferSegmentDefault) : ℤ :=
  match segments.getLast? with
  | some tail => tail.runningIndex + tail.memory.length
  | none => 0

/-- `sequence.ToArray()`: an array of the sequence's length, filled segment by segment. -/
def toArray (segments : List BufferSegmentDefault) : Except Fault (List UInt8) :=
  let content := (segments.map BufferSegmentDefault.memory).flatten
  if sequenceLength segments < 0 then .error (.raised .overflow)
  else copyTo content (List.replicate (sequenceLength segments).toNat 0) 0

theorem segmentsAfter_memory (length : ℤ) (tail : BufferSegmentDefault) (mems : List (List UInt8)) :
    (segmentsAfter length tail mems).map BufferSegmentDefault.memory = mems := by
  induction mems generalizing length tail with
  | nil => rfl
  | cons mem mems ih => simp [segmentsAfter, ih]

/-! ### Every list of pieces -/

/-- How many bytes stand before piece `i`. -/
def lengthBefore (mems : List (List UInt8)) (i : ℕ) : ℕ := ((mems.take i).map List.length).sum

/-- What the sequence is to be: a segment for each piece, the bytes of the pieces one after the
other, and in each segment how many bytes stand before it. -/
structure Concatenates (mems : List (List UInt8)) (segments : List BufferSegmentDefault) :
    Prop where
  memory : segments.map BufferSegmentDefault.memory = mems
  content : (segments.map BufferSegmentDefault.memory).flatten = mems.flatten
  length : sequenceLength segments = (mems.map List.length).sum
  runningIndex : ∀ (i : ℕ) (segment : BufferSegmentDefault), segments[i]? = some segment →
    segment.runningIndex = lengthBefore mems i

theorem lengthBefore_cons (mem : List UInt8) (mems : List (List UInt8)) (i : ℕ) :
    lengthBefore (mem :: mems) (i + 1) = mem.length + lengthBefore mems i := by
  rw [lengthBefore, List.take_succ_cons, List.map_cons, List.sum_cons, lengthBefore]

theorem lengthBefore_dropLast (mems : List (List UInt8)) :
    lengthBefore mems (mems.length - 1) = mems.dropLast.flatten.length := by
  rw [lengthBefore, ← List.dropLast_eq_take, List.length_flatten]

theorem lengthBefore_le (mems : List (List UInt8)) {i : ℕ} (hi : i < mems.length) :
    lengthBefore mems i ≤ mems.dropLast.flatten.length := by
  have hfront : mems.take i <+: mems.dropLast := by
    rw [List.dropLast_eq_take]
    exact List.take_prefix_take_left (by omega)
  obtain ⟨more, hmore⟩ := hfront
  rw [lengthBefore, ← List.length_flatten, ← hmore, List.flatten_append, List.length_append]
  exact Nat.le_add_right _ _

/-- The `int` that counts the bytes comes to the index of every segment. -/
theorem segmentsAfter_runningIndex {length : ℤ} {tail segment : BufferSegmentDefault}
    {mems : List (List UInt8)} {i : ℕ}
    (h : (segmentsAfter length tail mems)[i]? = some segment) :
    segment.runningIndex =
      int32 (length + (tail.memory.length + lengthBefore mems i : ℕ)) := by
  induction mems generalizing length tail i with
  | nil => simp [segmentsAfter] at h
  | cons mem mems ih =>
    rw [segmentsAfter] at h
    cases i with
    | zero =>
      rw [List.getElem?_cons_zero, Option.some.injEq] at h
      rw [← h]
      simp [lengthBefore]
    | succ i =>
      rw [List.getElem?_cons_succ] at h
      rw [ih h, int32_add, lengthBefore_cons]
      dsimp only
      push_cast
      rw [Int.add_assoc]

/-- A sequence has the segments that the loop gives. -/
theorem fromEnumerable_inv {firstMem : List UInt8} {more : List (List UInt8)}
    {segments : List BufferSegmentDefault}
    (h : fromEnumerable (firstMem :: more) = .ok segments) :
    segments = { memory := firstMem } :: segmentsAfter 0 { memory := firstMem } more := by
  rw [fromEnumerable] at h
  dsimp only at h
  split at h
  · split_ifs at h
    exact (Except.ok.inj h).symm
  · cases h

/-- Up to the turns over the end of an `int`, each index is that of its segment. -/
theorem segments_runningIndex {firstMem : List UInt8} {more : List (List UInt8)} {i : ℕ}
    {segment : BufferSegmentDefault}
    (hi : (({ memory := firstMem } : BufferSegmentDefault) ::
      segmentsAfter 0 { memory := firstMem } more)[i]? = some segment) :
    segment.runningIndex = int32 (lengthBefore (firstMem :: more) i) := by
  cases i with
  | zero =>
    rw [List.getElem?_cons_zero, Option.some.injEq] at hi
    have hnone : lengthBefore (firstMem :: more) 0 = 0 := rfl
    rw [← hi, hnone, int32_of_range (by decide) (by decide)]
    rfl
  | succ i =>
    rw [List.getElem?_cons_succ] at hi
    rw [segmentsAfter_runningIndex hi, lengthBefore_cons, Int.zero_add]

theorem fromEnumerable_memory {mems : List (List UInt8)} {segments : List BufferSegmentDefault}
    (h : fromEnumerable mems = .ok segments) :
    segments.map BufferSegmentDefault.memory = mems := by
  cases mems with
  | nil => cases h
  | cons firstMem more => rw [fromEnumerable_inv h, List.map_cons, segmentsAfter_memory]

theorem fromEnumerable_runningIndex {mems : List (List UInt8)}
    {segments : List BufferSegmentDefault} (h : fromEnumerable mems = .ok segments) {i : ℕ}
    {segment : BufferSegmentDefault} (hi : segments[i]? = some segment) :
    segment.runningIndex = int32 (lengthBefore mems i) := by
  cases mems with
  | nil => cases h
  | cons firstMem more =>
    rw [fromEnumerable_inv h] at hi
    exact segments_runningIndex hi

/-- Where an `int` counts the bytes in front of the last piece, the last segment is not in front of
the first one. -/
theorem fromEnumerable_ok {firstMem : List UInt8} {more : List (List UInt8)}
    (hfits : (firstMem :: more).dropLast.flatten.length < 2 ^ 31) :
    ∃ segments, fromEnumerable (firstMem :: more) = .ok segments := by
  rw [fromEnumerable]
  dsimp only
  have hcell := @segments_runningIndex firstMem more
  have hlength : (({ memory := firstMem } : BufferSegmentDefault) ::
      segmentsAfter 0 { memory := firstMem } more).length = (firstMem :: more).length := by
    rw [List.length_cons, ← List.length_map BufferSegmentDefault.memory, segmentsAfter_memory]
    rfl
  generalize hsegments : ({ memory := firstMem } : BufferSegmentDefault) ::
    segmentsAfter 0 { memory := firstMem } more = segments at hcell hlength ⊢
  obtain ⟨tail, htail⟩ : ∃ tail, segments.getLast? = some tail := by
    rw [← hsegments]
    exact ⟨_, List.getLast?_eq_some_getLast (List.cons_ne_nil _ _)⟩
  have hindex := hcell (List.getLast?_eq_getElem? ▸ htail)
  rw [hlength, lengthBefore_dropLast, int32_of_range (by omega) (by omega)] at hindex
  rw [htail]
  dsimp only
  rw [if_neg (by omega)]
  exact ⟨segments, rfl⟩

theorem flatten_length_of_getLast? {mems : List (List UInt8)} {mem : List UInt8}
    (h : mems.getLast? = some mem) :
    mems.flatten.length = mems.dropLast.flatten.length + mem.length := by
  obtain ⟨front, rfl⟩ := List.getLast?_eq_some_iff.mp h
  simp

theorem fromEnumerable_concatenates {mems : List (List UInt8)}
    {segments : List BufferSegmentDefault} (h : fromEnumerable mems = .ok segments)
    (hfits : mems.dropLast.flatten.length < 2 ^ 31) : Concatenates mems segments := by
  have hmemory := fromEnumerable_memory h
  have hindex : ∀ (i : ℕ) (segment : BufferSegmentDefault), segments[i]? = some segment →
      segment.runningIndex = lengthBefore mems i := by
    intro i segment hi
    have hin : i < mems.length := by
      rw [← hmemory, List.length_map]
      exact (List.getElem?_eq_some_iff.mp hi).1
    have hle := lengthBefore_le mems hin
    rw [fromEnumerable_runningIndex h hi, int32_of_range (by omega) (by omega)]
  refine ⟨hmemory, by rw [hmemory], ?_, hindex⟩
  have hne : segments ≠ [] := by
    rintro rfl
    rw [← hmemory] at h
    cases h
  have htail := List.getLast?_eq_some_getLast hne
  have hmem : mems.getLast? = some (segments.getLast hne).memory := by
    rw [← hmemory, List.getLast?_map, htail]
    rfl
  have hlength : segments.length = mems.length := by
    rw [← hmemory, List.length_map]
  have hbefore := hindex _ _ (List.getLast?_eq_getElem? ▸ htail)
  rw [hlength, lengthBefore_dropLast] at hbefore
  rw [sequenceLength, htail]
  dsimp only
  rw [hbefore, ← List.length_flatten, flatten_length_of_getLast? hmem]
  push_cast
  rfl

/-- No `int` is the index of a segment that `2 ^ 31` bytes stand in front of. -/
theorem Concatenates.fits {mems : List (List UInt8)} {segments : List BufferSegmentDefault}
    (h : fromEnumerable mems = .ok segments) (hright : Concatenates mems segments) :
    mems ≠ [] ∧ mems.dropLast.flatten.length < 2 ^ 31 := by
  have hne : mems ≠ [] := by
    rintro rfl
    cases h
  refine ⟨hne, ?_⟩
  have hlength : segments.length = mems.length := by
    rw [← hright.memory, List.length_map]
  have hlast : mems.length - 1 < segments.length := by
    rw [hlength]
    exact Nat.sub_lt (List.length_pos_of_ne_nil hne) one_pos
  have hcell := List.getElem?_eq_getElem hlast
  have hindex := (fromEnumerable_runningIndex h hcell).symm.trans
    (hright.runningIndex _ _ hcell)
  have hrange := int32_range (lengthBefore mems (mems.length - 1))
  rw [lengthBefore_dropLast] at hindex hrange
  omega

/-- The sequence is right just when there is a piece, and an `int` counts the bytes in front of the
last one. -/
theorem concatenates_iff (mems : List (List UInt8)) :
    (∃ segments, fromEnumerable mems = .ok segments ∧ Concatenates mems segments) ↔
      mems ≠ [] ∧ mems.dropLast.flatten.length < 2 ^ 31 := by
  constructor
  · intro ⟨segments, hbuilt, hright⟩
    exact hright.fits hbuilt
  · intro ⟨hne, hfits⟩
    obtain ⟨firstMem, more, rfl⟩ := List.exists_cons_of_ne_nil hne
    obtain ⟨segments, hbuilt⟩ := fromEnumerable_ok hfits
    exact ⟨segments, hbuilt, fromEnumerable_concatenates hbuilt hfits⟩

/-- No pieces, and an empty piece behind `2 ^ 31` bytes. -/
theorem not_concatenates :
    (¬ ∃ segments, fromEnumerable [] = .ok segments ∧ Concatenates [] segments) ∧
      ¬ ∃ segments, fromEnumerable [List.replicate (2 ^ 31 - 1) 0, [0], []] = .ok segments ∧
        Concatenates [List.replicate (2 ^ 31 - 1) 0, [0], []] segments := by
  constructor
  · intro ⟨segments, hbuilt, hright⟩
    exact (hright.fits hbuilt).1 rfl
  · intro ⟨segments, hbuilt, hright⟩
    have hfits := (hright.fits hbuilt).2
    rw [List.dropLast_cons_cons, List.dropLast_cons_cons, List.dropLast_singleton,
      List.flatten_cons, List.length_append, List.length_replicate] at hfits
    simp at hfits

theorem toArray_fromEnumerable {mems : List (List UInt8)} (hne : mems ≠ [])
    (hfits : mems.flatten.length < 2 ^ 31) :
    ∃ segments, fromEnumerable mems = .ok segments ∧ toArray segments = .ok mems.flatten := by
  have hfront : mems.dropLast.flatten.length < 2 ^ 31 := by
    rw [flatten_length_of_getLast? (List.getLast?_eq_some_getLast hne)] at hfits
    omega
  obtain ⟨firstMem, more, rfl⟩ := List.exists_cons_of_ne_nil hne
  obtain ⟨segments, hbuilt⟩ := fromEnumerable_ok hfront
  have hright := fromEnumerable_concatenates hbuilt hfront
  refine ⟨segments, hbuilt, ?_⟩
  rw [toArray, hright.length, ← List.length_flatten, hright.content, if_neg (by omega),
    Int.toNat_natCast, copyTo_ok (by simp)]
  simp [writeAt]

end SequenceFactory

end DecodingProxy.Recording
