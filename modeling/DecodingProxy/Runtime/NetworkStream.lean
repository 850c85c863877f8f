import DecodingProxy.Runtime.Faults
import Mathlib.Tactic.Common

/-!
# A stream that gives its bytes in pieces

A read returns bytes of one piece only: the first one, or what the buffer holds of it.
-/

namespace DecodingProxy.Runtime

/-- The pieces that are still to be read. A read past the last one returns nothing. -/
structure NetworkStream where
  pieces : List (List UInt8)
  nonempty : ∀ piece ∈ pieces, piece ≠ []
  deriving DecidableEq, Repr

namespace NetworkStream

def bytes (s : NetworkStream) : List UInt8 := s.pieces.flatten

/-- `Read` into a buffer of `count` bytes. -/
def read (count : ℕ) (s : NetworkStream) : List UInt8 × NetworkStream :=
  match s with
  | ⟨[], _⟩ => ([], s)
  | ⟨piece :: pieces, hne⟩ =>
    if h : count < piece.length then
      (piece.take count, {
        pieces := piece.drop count :: pieces
        nonempty := by
          rw [List.forall_mem_cons] at hne ⊢
          exact ⟨by simpa using h, hne.2⟩ })
    else (piece, { pieces, nonempty := (List.forall_mem_cons.mp hne).2 })

theorem read_fst (count : ℕ) (s : NetworkStream) :
    (s.read count).1 = (s.pieces.headD []).take count := by
  match s with
  | ⟨[], _⟩ => simp [read]
  | ⟨piece :: pieces, _⟩ =>
    simp only [read, List.headD_cons]
    split_ifs with h
    · rfl
    · exact (List.take_of_length_le (Nat.not_lt.mp h)).symm

theorem read_bytes (count : ℕ) (s : NetworkStream) :
    (s.read count).1 ++ (s.read count).2.bytes = s.bytes := by
  match s with
  | ⟨[], _⟩ => rfl
  | ⟨piece :: pieces, _⟩ =>
    simp only [read, bytes]
    split_ifs with h
    · rw [List.flatten_cons, List.flatten_cons, ← List.append_assoc, List.take_append_drop]
    · rfl

theorem read_length_le (count : ℕ) (s : NetworkStream) : (s.read count).1.length ≤ count := by
  match s with
  | ⟨[], _⟩ => exact Nat.zero_le _
  | ⟨piece :: pieces, _⟩ =>
    simp only [read]
    split_ifs with h
    · exact List.length_take_le _ _
    · exact Nat.not_lt.mp h

/-- Only the end of the stream gives nothing. -/
theorem read_ne_nil {count : ℕ} (hcount : 0 < count) {s : NetworkStream} (hs : s.bytes ≠ []) :
    (s.read count).1 ≠ [] := by
  match s, hs with
  | ⟨[], _⟩, hs => exact absurd rfl hs
  | ⟨piece :: pieces, hne⟩, _ =>
    have hpiece := (List.forall_mem_cons.mp hne).1
    simp only [read]
    split_ifs with h
    · simp only [ne_eq, List.take_eq_nil_iff, not_or]
      exact ⟨hcount.ne', hpiece⟩
    · exact hpiece

theorem read_front (count : ℕ) (s : NetworkStream) : (s.read count).1 <+: s.bytes :=
  ⟨_, read_bytes count s⟩

/-- `ReadByte`: nothing at the end. -/
def readByte (s : NetworkStream) : Option UInt8 × NetworkStream :=
  ((s.read 1).1.head?, (s.read 1).2)

theorem readByte_cons {s : NetworkStream} {b : UInt8} {rest : List UInt8}
    (h : s.bytes = b :: rest) : ∃ s', s.readByte = (some b, s') ∧ s'.bytes = rest := by
  have hbytes := read_bytes 1 s
  have hne : (s.read 1).1 ≠ [] := read_ne_nil one_pos (by rw [h]; exact List.cons_ne_nil _ _)
  obtain ⟨c, more, hread⟩ := List.exists_cons_of_ne_nil hne
  have hmore : more = [] := by
    have hle := read_length_le 1 s
    rw [hread] at hle
    exact List.eq_nil_of_length_eq_zero (by simpa using hle)
  rw [hread, hmore, h, List.singleton_append, List.cons.injEq] at hbytes
  exact ⟨(s.read 1).2, by rw [readByte, hread, hbytes.1]; rfl, hbytes.2⟩

theorem readByte_eq (s : NetworkStream) :
    s.readByte.1 = s.bytes.head? ∧ s.readByte.2.bytes = s.bytes.tail := by
  cases hbytes : s.bytes with
  | nil =>
    match s, hbytes with
    | ⟨[], _⟩, _ => exact ⟨rfl, rfl⟩
    | ⟨piece :: pieces, hne⟩, hbytes =>
      have hpiece : piece = [] := (List.append_eq_nil_iff.mp hbytes).1
      exact absurd hpiece (List.forall_mem_cons.mp hne).1
  | cons b rest =>
    obtain ⟨s', hread, hrest⟩ := readByte_cons hbytes
    rw [hread]
    exact ⟨rfl, hrest⟩

end NetworkStream

end DecodingProxy.Runtime
