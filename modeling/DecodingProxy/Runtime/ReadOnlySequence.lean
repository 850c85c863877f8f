import DecodingProxy.Runtime.Faults
import Mathlib.Algebra.Order.Group.Nat
import Mathlib.Algebra.BigOperators.Group.List.Basic
import Mathlib.Tactic.Common

/-!
# `ReadOnlySequence<byte>` over segments

The integer of a position counts from the start of its segment. `Seek` gives the end of a segment
as the start of the next one, and passes over empty segments.
-/

namespace DecodingProxy.Runtime

structure SequencePosition where
  /-- The number of the segment. -/
  segment : ℕ
  integer : ℕ
  deriving DecidableEq, Repr

/-- The lengths of the segments, the first one with what is before the start, the last one up to
the end. -/
structure ReadOnlySequence where
  segment : ℕ := 0
  start : ℕ := 0
  first : ℕ := 0
  rest : List ℕ := []
  start_le : start ≤ first := by decide
  deriving DecidableEq

namespace ReadOnlySequence

def lengths (b : ReadOnlySequence) : List ℕ := b.first :: b.rest

def length (b : ReadOnlySequence) : ℕ := b.lengths.sum - b.start

/-- `SeekMultiSegment` in the segments from number `segment` on. -/
def seekMultiSegment (segment : ℕ) : List ℕ → ℕ → Except Fault SequencePosition
  | [], _ => .error (.raised .argumentOutOfRange)
  | [length], offset =>
    if length < offset then .error (.raised .argumentOutOfRange) else .ok ⟨segment, offset⟩
  | length :: next :: lengths, offset =>
    if length > offset then .ok ⟨segment, offset⟩
    else seekMultiSegment (segment + 1) (next :: lengths) (offset - length)

/-- `Seek`; `Slice(0, offset)` ends there, too. -/
def seek (offset : ℕ) (b : ReadOnlySequence) : Except Fault SequencePosition :=
  let currentLength := b.first - b.start
  match b.rest with
  | [] =>
    if currentLength < offset then .error (.raised .argumentOutOfRange)
    else .ok ⟨b.segment, b.start + offset⟩
  | next :: lengths =>
    if currentLength > offset then .ok ⟨b.segment, b.start + offset⟩
    else seekMultiSegment (b.segment + 1) (next :: lengths) (offset - currentLength)

def getPosition (offset : ℤ) (b : ReadOnlySequence) : Except Fault SequencePosition :=
  if offset < 0 then .error (.raised .argumentOutOfRange) else b.seek offset.toNat

/-- `Slice(start)` of a position. -/
def slice (p : SequencePosition) (b : ReadOnlySequence) : Except Fault ReadOnlySequence :=
  match b.lengths.drop (p.segment - b.segment) with
  | [] => .error (.raised .argumentOutOfRange)
  | first :: rest =>
    if h : b.segment ≤ p.segment ∧ p.integer ≤ first ∧
        (p.segment = b.segment → b.start ≤ p.integer) then
      .ok { segment := p.segment, start := p.integer, first, rest, start_le := h.2.1 }
    else .error (.raised .argumentOutOfRange)

/-- `Slice(start)` of a count of bytes. -/
def sliceFrom (offset : ℕ) (b : ReadOnlySequence) : Except Fault ReadOnlySequence :=
  if offset = 0 then .ok b
  else do
    let p ← b.seek offset
    b.slice p

/-- How many bytes are in the segments before that of the position. -/
def before (p : SequencePosition) (b : ReadOnlySequence) : ℕ :=
  (b.lengths.take (p.segment - b.segment)).sum

/-- How many bytes of the sequence come before the position. -/
def distance (p : SequencePosition) (b : ReadOnlySequence) : ℕ := b.before p + p.integer - b.start

variable {b b' : ReadOnlySequence} {p : SequencePosition} {offset : ℕ}

theorem seekMultiSegment_spec {segment : ℕ} {lengths : List ℕ}
    (h : seekMultiSegment segment lengths offset = .ok p) :
    segment ≤ p.segment ∧ ∃ length tail, lengths.drop (p.segment - segment) = length :: tail ∧
      p.integer ≤ length ∧ (lengths.take (p.segment - segment)).sum + p.integer = offset := by
  induction lengths generalizing segment offset with
  | nil => cases h
  | cons length lengths ih =>
    cases lengths with
    | nil =>
      rw [seekMultiSegment] at h
      split_ifs at h with hoffset
      cases h
      exact ⟨le_rfl, length, [], by simp, by simpa using hoffset, by simp⟩
    | cons next lengths =>
      rw [seekMultiSegment] at h
      split_ifs at h with hoffset
      · cases h
        exact ⟨le_rfl, length, next :: lengths, by simp, by simpa using hoffset.le, by simp⟩
      · obtain ⟨hle, l, tail, hdrop, hinteger, hsum⟩ := ih h
        have hsucc : p.segment - segment = (p.segment - (segment + 1)) + 1 := by omega
        refine ⟨by omega, l, tail, ?_, hinteger, ?_⟩
        · rw [hsucc, List.drop_succ_cons, hdrop]
        · rw [hsucc, List.take_succ_cons, List.sum_cons]
          omega

theorem seekMultiSegment_ok {segment : ℕ} {lengths : List ℕ} (hne : lengths ≠ [])
    (hle : offset ≤ lengths.sum) : ∃ p, seekMultiSegment segment lengths offset = .ok p := by
  induction lengths generalizing segment offset with
  | nil => exact absurd rfl hne
  | cons length lengths ih =>
    cases lengths with
    | nil => exact ⟨_, if_neg (by simpa using hle)⟩
    | cons next lengths =>
      rw [seekMultiSegment]
      rw [List.sum_cons] at hle
      split_ifs with hoffset
      · exact ⟨_, rfl⟩
      · exact ih (List.cons_ne_nil _ _) (by omega)

/-- Each count of bytes up to the length is a position. -/
theorem seek_ok (hle : offset ≤ b.length) : ∃ p, b.seek offset = .ok p := by
  have hstart := b.start_le
  unfold length lengths at hle
  rw [List.sum_cons] at hle
  unfold seek
  dsimp only
  split
  case h_1 hrest =>
    rw [hrest, List.sum_nil] at hle
    exact ⟨_, if_neg (by omega)⟩
  case h_2 next lengths hrest =>
    split_ifs with hoffset
    · exact ⟨_, rfl⟩
    · rw [hrest] at hle
      exact seekMultiSegment_ok (List.cons_ne_nil _ _) (by omega)

theorem slice_ok (hle : b.segment ≤ p.segment) {first : ℕ} {rest : List ℕ}
    (hdrop : b.lengths.drop (p.segment - b.segment) = first :: rest) (hinteger : p.integer ≤ first)
    (hstart : p.segment = b.segment → b.start ≤ p.integer) :
    b.slice p = .ok ⟨p.segment, p.integer, first, rest, hinteger⟩ := by
  unfold slice
  rw [hdrop]
  exact dif_pos ⟨hle, hinteger, hstart⟩

/-- The position that is found is in the sequence, and as far from its start as was asked. -/
theorem seek_spec (h : b.seek offset = .ok p) :
    (∃ b', b.slice p = .ok b') ∧ b.distance p = offset := by
  have hle := b.start_le
  have hhere : p = ⟨b.segment, b.start + offset⟩ → offset ≤ b.first - b.start →
      (∃ b', b.slice p = .ok b') ∧ b.distance p = offset := by
    rintro rfl hoffset
    have hdrop : b.lengths.drop (b.segment - b.segment) = b.first :: b.rest := by simp [lengths]
    refine ⟨⟨_, slice_ok le_rfl hdrop ?_ ?_⟩, ?_⟩
    · dsimp only
      omega
    · exact fun _ => Nat.le_add_right _ _
    · simp [distance, before]
  unfold seek at h
  dsimp only at h
  split at h
  case h_1 =>
    split_ifs at h with hoffset
    exact hhere (Except.ok.inj h).symm (by omega)
  case h_2 next lengths hrest =>
    split_ifs at h with hoffset
    · exact hhere (Except.ok.inj h).symm hoffset.le
    · obtain ⟨hsegment, l, tail, hdrop, hinteger, hsum⟩ := seekMultiSegment_spec h
      have hsucc : p.segment - b.segment = (p.segment - (b.segment + 1)) + 1 := by omega
      have hhead : b.lengths.drop (p.segment - b.segment) = l :: tail := by
        rw [hsucc, ReadOnlySequence.lengths, List.drop_succ_cons, hrest, hdrop]
      refine ⟨⟨_, slice_ok (by omega) hhead hinteger (by omega)⟩, ?_⟩
      rw [distance, before, hsucc, ReadOnlySequence.lengths, List.take_succ_cons, List.sum_cons,
        hrest]
      omega

theorem getPosition_natCast (offset : ℕ) : b.getPosition offset = b.seek offset := by
  rw [getPosition, if_neg (by omega), Int.toNat_natCast]

theorem slice_inv (h : b.slice p = .ok b') :
    b'.segment = p.segment ∧ b'.start = p.integer ∧ b.segment ≤ p.segment ∧
      b.lengths.drop (p.segment - b.segment) = b'.lengths ∧
      (p.segment = b.segment → b.start ≤ p.integer) := by
  unfold slice at h
  split at h
  case h_1 => cases h
  case h_2 first rest hdrop =>
    split_ifs at h with hin
    cases h
    exact ⟨rfl, rfl, hin.1, hdrop, hin.2.2⟩

/-- A position that can be sliced at is in the sequence. -/
theorem slice_bounds (h : b.slice p = .ok b') :
    b.start ≤ b.before p + p.integer ∧ b.distance p ≤ b.length := by
  obtain ⟨-, hstart, hle, hdrop, hsame⟩ := slice_inv h
  have hsum : b.before p + b'.lengths.sum = b.lengths.sum := by
    rw [before, ← hdrop, ← List.sum_append, List.take_append_drop]
  have hinteger : p.integer ≤ b'.lengths.sum := by
    rw [← hstart, lengths, List.sum_cons]
    exact b'.start_le.trans (Nat.le_add_right _ _)
  refine ⟨?_, ?_⟩
  · by_cases hsegment : p.segment = b.segment
    · exact (hsame hsegment).trans (Nat.le_add_left _ _)
    · have hfirst : b.first ≤ b.before p := by
        obtain ⟨k, hk⟩ : ∃ k, p.segment - b.segment = k + 1 := ⟨p.segment - b.segment - 1, by omega⟩
        rw [before, hk, lengths, List.take_succ_cons, List.sum_cons]
        exact Nat.le_add_right _ _
      exact (b.start_le.trans hfirst).trans (Nat.le_add_right _ _)
  · unfold distance length
    omega

theorem slice_self (h : b.slice p = .ok b') : b'.slice p = .ok b' := by
  obtain ⟨hsegment, hstart, -⟩ := slice_inv h
  rcases p with ⟨segment, integer⟩
  obtain rfl : b'.segment = segment := hsegment
  obtain rfl : b'.start = integer := hstart
  have hdrop : b'.lengths.drop (b'.segment - b'.segment) = b'.first :: b'.rest := by
    simp [lengths]
  exact slice_ok le_rfl hdrop b'.start_le fun _ => le_rfl

end ReadOnlySequence

end DecodingProxy.Runtime
