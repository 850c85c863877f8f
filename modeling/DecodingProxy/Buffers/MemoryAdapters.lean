import DecodingProxy.Lib.Prefixes
import DecodingProxy.Lib.Runs
import DecodingProxy.Runtime.ArrayPool
import DecodingProxy.Runtime.Memory

/-!
# The stream adapters over memory

`AdapterForReadFromReadOnlyMemory` and `AdapterForWriteToMemory` have an offset, and nothing ever
moves it: each read gives the front of the memory once more, and each write goes to the front.
-/

namespace DecodingProxy.Buffers
open DecodingProxy.Arrays DecodingProxy.Prefixes DecodingProxy.Runs DecodingProxy.Runtime

namespace CopyUtil

/-- `Copy` of a span into `toCount` bytes of an array. -/
def copyToArray (source : List UInt8) (fromOffset fromLength : ℕ) (target : List UInt8)
    (toOffset toCount : ℕ) : Except Fault (List UInt8 × ℕ) := do
  let lengthToCopy := if toCount > fromLength then fromLength else toCount
  let span ← slice source fromOffset lengthToCopy
  let _ ← slice target toOffset lengthToCopy
  .ok (writeAt target toOffset span, lengthToCopy)

/-- `Copy` of a span into a span. -/
def copyToSpan (source : List UInt8) (fromOffset fromLength : ℕ) (target : List UInt8) :
    Except Fault (List UInt8 × ℕ) := do
  let toCount := target.length
  let lengthToCopy := if toCount > fromLength then fromLength else toCount
  let span ← slice source fromOffset lengthToCopy
  let target ← copyTo span target 0
  .ok (target, lengthToCopy)

end CopyUtil

structure AdapterForReadFromReadOnlyMemory where
  sourceAdapter : Option (List UInt8) := none
  offset : ℕ := 0
  lengthLeft : ℕ := 0
  deriving DecidableEq, Repr

namespace AdapterForReadFromReadOnlyMemory

def setSource (source : List UInt8) (a : AdapterForReadFromReadOnlyMemory) :
    AdapterForReadFromReadOnlyMemory :=
  { a with sourceAdapter := some source, lengthLeft := source.length }

/-! A read gives the buffer as it leaves it and the number it returns. -/

def read (buffer : List UInt8) (offset count : ℕ) (a : AdapterForReadFromReadOnlyMemory) :
    Except Fault (List UInt8 × ℕ) :=
  match a.sourceAdapter with
  | none => .error (.raised .nullReference)
  | some source => CopyUtil.copyToArray source a.offset a.lengthLeft buffer offset count

def readSpan (buffer : List UInt8) (a : AdapterForReadFromReadOnlyMemory) :
    Except Fault (List UInt8 × ℕ) :=
  match a.sourceAdapter with
  | none => .error (.raised .nullReference)
  | some source => CopyUtil.copyToSpan source a.offset a.lengthLeft buffer

def readAsync (buffer : List UInt8) (a : AdapterForReadFromReadOnlyMemory) :
    Except Fault (List UInt8 × ℕ) :=
  match a.sourceAdapter with
  | none => .error (.raised .nullReference)
  | some source => CopyUtil.copyToSpan source a.offset a.lengthLeft buffer

end AdapterForReadFromReadOnlyMemory

structure AdapterForWriteToMemory where
  sourceMem : List UInt8 := []
  offset : ℕ := 0
  lengthLeft : ℕ := 0
  deriving DecidableEq, Repr

namespace AdapterForWriteToMemory

def setSource (source : List UInt8) (a : AdapterForWriteToMemory) : AdapterForWriteToMemory :=
  { a with sourceMem := source, lengthLeft := source.length }

def writeAsync (buffer : List UInt8) (a : AdapterForWriteToMemory) :
    Except Fault AdapterForWriteToMemory := do
  let lengthToWrite := if a.lengthLeft > buffer.length then buffer.length else a.lengthLeft
  let toWrite ← slice buffer 0 lengthToWrite
  let _ ← slice a.sourceMem a.offset lengthToWrite
  .ok { a with sourceMem := writeAt a.sourceMem a.offset toWrite }

end AdapterForWriteToMemory

/-- The overloads that read. An array is asked to be filled where it has room. -/
inductive ReadCall
  | array (buffer : List UInt8) (offset count : ℕ) (fits : offset + count ≤ buffer.length)
  | span (buffer : List UInt8)
  | async (buffer : List UInt8)

/-- How many bytes the call asks for. -/
def ReadCall.size : ReadCall → ℕ
  | array _ _ count _ => count
  | span buffer | async buffer => buffer.length

/-- The bytes of the buffer that the call says it has filled. -/
def ReadCall.perform (a : AdapterForReadFromReadOnlyMemory) : ReadCall → Except Fault (List UInt8)
  | array buffer offset count _ => do
    let (buffer, readed) ← a.read buffer offset count
    .ok ((buffer.drop offset).take readed)
  | span buffer => do
    let (buffer, readed) ← a.readSpan buffer
    .ok (buffer.take readed)
  | async buffer => do
    let (buffer, readed) ← a.readAsync buffer
    .ok (buffer.take readed)

/-- An adapter with the bytes that were read through it. -/
structure Reading where
  adapter : AdapterForReadFromReadOnlyMemory
  returned : List UInt8 := []

/-- No method that reads assigns a field of the adapter. -/
def Reading.step (s : Reading) (call : ReadCall) : Except Fault Reading := do
  let readed ← call.perform s.adapter
  .ok { s with returned := s.returned ++ readed }

/-- An adapter with the pieces that were written through it. -/
structure Writing where
  adapter : AdapterForWriteToMemory
  written : List UInt8 := []

def Writing.step (s : Writing) (piece : List UInt8) : Except Fault Writing := do
  let adapter ← s.adapter.writeAsync piece
  .ok { adapter, written := s.written ++ piece }

/-- The reads return the bytes of the memory one after another. -/
def ReadsInSequence (memory : List UInt8) (calls : List ReadCall) : Prop :=
  ∃ s, run Reading.step { adapter := .setSource memory {} } calls = .ok s ∧ s.returned <+: memory

/-- The destination begins with what has been written. -/
def Writing.Kept (s : Writing) : Prop := s.written <+: s.adapter.sourceMem

/-- After each piece the destination holds the pieces so far. -/
def WritesInSequence (destination : List UInt8) (pieces : List (List UInt8)) : Prop :=
  RunsWell Writing.step Writing.Kept { adapter := .setSource destination {} } pieces

/-- What a read has to give next is each time the front of the memory once more. -/
def RepeatsFront (memory : List UInt8) (sizes : List ℕ) : Prop :=
  ∀ before size after, sizes = before ++ size :: after →
    memory.take size <+: memory.drop (before.map (min · memory.length)).sum

/-- Written to the front, the piece leaves there what was written before, and what is to stand
behind it stands there already. -/
def FitsInFront (destination written piece : List UInt8) : Prop :=
  piece <+: written ++ piece ∧
    piece.drop (piece.length - written.length) <+:
      destination.drop (max piece.length written.length)

/-! ### Reading -/

theorem slice_front (memory : List UInt8) (n : ℕ) :
    slice memory 0 (if n > memory.length then memory.length else n) = .ok (memory.take n) := by
  split_ifs with hlong
  · rw [slice_ok (by omega), List.drop_zero, List.take_length,
      List.take_of_length_le (Nat.le_of_lt hlong)]
  · rw [slice_ok (by omega), List.drop_zero]

theorem copyToArray_front {memory target : List UInt8} {toOffset toCount : ℕ}
    (hfits : toOffset + toCount ≤ target.length) :
    CopyUtil.copyToArray memory 0 memory.length target toOffset toCount =
      .ok (writeAt target toOffset (memory.take toCount), (memory.take toCount).length) := by
  have hcount : (if toCount > memory.length then memory.length else toCount) =
      (memory.take toCount).length := by
    rw [List.length_take]
    split_ifs <;> omega
  have hroom : toOffset + (memory.take toCount).length ≤ target.length := by
    rw [List.length_take]
    omega
  unfold CopyUtil.copyToArray
  rw [do_of_ok (slice_front memory toCount), hcount, do_of_ok (slice_ok hroom)]

theorem copyToSpan_front (memory target : List UInt8) :
    CopyUtil.copyToSpan memory 0 memory.length target =
      .ok (writeAt target 0 (memory.take target.length), (memory.take target.length).length) := by
  have hroom : 0 + (memory.take target.length).length ≤ target.length := by
    rw [List.length_take]
    omega
  have hcount : (if target.length > memory.length then memory.length else target.length) =
      (memory.take target.length).length := by
    rw [List.length_take]
    split_ifs <;> omega
  unfold CopyUtil.copyToSpan
  rw [do_of_ok (slice_front memory target.length), do_of_ok (copyTo_ok hroom), hcount]

theorem take_drop_writeAt {dst src : List UInt8} {offset : ℕ} (h : offset ≤ dst.length) :
    ((writeAt dst offset src).drop offset).take src.length = src := by
  rw [List.take_drop, take_writeAt h, List.drop_left' (by simp [h])]

/-- Whatever was read before, a read gives the front of the memory. -/
theorem perform_eq (memory : List UInt8) (call : ReadCall) :
    call.perform (.setSource memory {}) = .ok (memory.take call.size) := by
  cases call with
  | array buffer offset count fits =>
    have hback := @take_drop_writeAt buffer (memory.take count) offset (by omega)
    exact do_ok_iff.mpr ⟨_, copyToArray_front fits, congrArg Except.ok hback⟩
  | span buffer =>
    have hback := @take_drop_writeAt buffer (memory.take buffer.length) 0 (Nat.zero_le _)
    exact do_ok_iff.mpr ⟨_, copyToSpan_front memory buffer, congrArg Except.ok hback⟩
  | async buffer =>
    have hback := @take_drop_writeAt buffer (memory.take buffer.length) 0 (Nat.zero_le _)
    exact do_ok_iff.mpr ⟨_, copyToSpan_front memory buffer, congrArg Except.ok hback⟩

theorem run_reads (memory : List UInt8) (calls : List ReadCall) (returned : List UInt8) :
    run Reading.step { adapter := .setSource memory {}, returned } calls =
      .ok { adapter := .setSource memory {}
            returned := returned ++ (calls.map (memory.take ·.size)).flatten } := by
  induction calls generalizing returned with
  | nil => simp
  | cons call calls ih =>
    have hstep : Reading.step { adapter := .setSource memory {}, returned } call =
        .ok { adapter := .setSource memory {}, returned := returned ++ memory.take call.size } :=
      do_of_ok (perform_eq memory call)
    rw [run_cons, hstep]
    simp only [Except.bind]
    rw [ih, List.map_cons, List.flatten_cons, List.append_assoc]

theorem readsInSequence_iff (memory : List UInt8) (calls : List ReadCall) :
    ReadsInSequence memory calls ↔ RepeatsFront memory (calls.map ReadCall.size) := by
  have hlength : ∀ before : List ReadCall,
      (before.map (memory.take ·.size)).flatten.length =
        ((before.map ReadCall.size).map (min · memory.length)).sum := by
    intro before
    rw [List.length_flatten, List.map_map, List.map_map]
    congr 1
    exact List.map_congr_left fun call _ => List.length_take
  have hrun := run_reads memory calls []
  rw [List.nil_append] at hrun
  have hseq : ReadsInSequence memory calls ↔
      (calls.map (memory.take ·.size)).flatten <+: memory := by
    constructor
    · rintro ⟨s, hs, hprefix⟩
      cases hrun.symm.trans hs
      exact hprefix
    · exact fun h => ⟨_, hrun, h⟩
  rw [hseq, flatten_prefix_iff]
  constructor
  · intro h before size after hsizes
    obtain ⟨front, back, rfl, rfl, hback⟩ := List.map_eq_append_iff.mp hsizes
    obtain ⟨call, behind, rfl, rfl, rfl⟩ := List.map_eq_cons_iff.mp hback
    rw [← hlength]
    exact h _ _ _ (by rw [List.map_append, List.map_cons])
  · intro h before part after hparts
    obtain ⟨front, back, rfl, rfl, hback⟩ := List.map_eq_append_iff.mp hparts
    obtain ⟨call, behind, rfl, rfl, rfl⟩ := List.map_eq_cons_iff.mp hback
    rw [hlength]
    exact h _ _ _ (by rw [List.map_append, List.map_cons])

/-! ### Writing -/

/-- What has been written is at the front, and behind it stands what stood there at first. -/
def Writing.Holds (destination : List UInt8) (s : Writing) : Prop :=
  s.adapter.offset = 0 ∧ s.adapter.lengthLeft = destination.length ∧
    s.adapter.sourceMem = s.written ++ destination.drop s.written.length

theorem writeAsync_front {a : AdapterForWriteToMemory} {piece : List UInt8} (hoffset : a.offset = 0)
    (hleft : a.lengthLeft = a.sourceMem.length) (hfits : piece.length ≤ a.sourceMem.length) :
    a.writeAsync piece = .ok { a with sourceMem := piece ++ a.sourceMem.drop piece.length } := by
  have hlength : (if a.lengthLeft > piece.length then piece.length else a.lengthLeft) =
      piece.length := by
    split_ifs <;> omega
  unfold AdapterForWriteToMemory.writeAsync
  rw [hlength, do_of_ok (slice_ok (by omega)), hoffset, do_of_ok (slice_ok (by omega))]
  simp [writeAt]

theorem prefix_append_iff {as bs cs : List UInt8} (hle : bs.length ≤ as.length) :
    as <+: bs ++ cs ↔ bs <+: as ∧ as.drop bs.length <+: cs := by
  constructor
  · intro h
    obtain ⟨rest, rfl⟩ := List.prefix_of_prefix_length_le (List.prefix_append bs cs) h hle
    rw [List.drop_left]
    exact ⟨List.prefix_append _ _, (List.prefix_append_right_inj _).mp h⟩
  · rintro ⟨⟨rest, rfl⟩, h⟩
    rw [List.drop_left] at h
    exact (List.prefix_append_right_inj _).mpr h

/-- The concatenation comes out just when the piece fits in front. -/
theorem prefix_overwritten_iff (destination written piece : List UInt8) :
    written ++ piece <+: piece ++ (written ++ destination.drop written.length).drop piece.length ↔
      FitsInFront destination written piece := by
  have hmax : written.length + (piece.length - written.length) =
      max piece.length written.length := by
    omega
  rw [prefix_append_iff (by simp), List.drop_append, List.drop_append, List.drop_drop, hmax,
    List.prefix_append_right_inj, FitsInFront]

theorem Writing.Holds.step {destination : List UInt8} {s : Writing} {piece : List UInt8}
    (h : s.Holds destination)
    (hroom : s.written.length + piece.length ≤ destination.length) :
    ∃ t, s.step piece = .ok t ∧ t.written = s.written ++ piece ∧
      t.adapter.offset = 0 ∧ t.adapter.lengthLeft = destination.length ∧
      t.adapter.sourceMem =
        piece ++ (s.written ++ destination.drop s.written.length).drop piece.length := by
  obtain ⟨hoffset, hleft, hmem⟩ := h
  have hlength : s.adapter.sourceMem.length = destination.length := by
    rw [hmem, List.length_append, List.length_drop]
    omega
  have hwrite := @writeAsync_front s.adapter piece hoffset (hleft.trans hlength.symm)
    (by rw [hlength]; omega)
  rw [hmem] at hwrite
  exact ⟨_, do_of_ok hwrite, rfl, hoffset, hleft, rfl⟩

theorem Writing.Holds.kept {destination : List UInt8} {s : Writing} (h : s.Holds destination) :
    s.Kept := by
  unfold Writing.Kept
  rw [h.2.2]
  exact List.prefix_append _ _

/-- Where the concatenation stands in front, the rest of the destination is as it was. -/
theorem Writing.Holds.step_kept_iff {destination : List UInt8} {s t : Writing} {piece : List UInt8}
    (h : s.Holds destination) (hroom : s.written.length + piece.length ≤ destination.length)
    (hstep : s.step piece = .ok t) :
    (t.Kept ↔ FitsInFront destination s.written piece) ∧ (t.Kept → t.Holds destination) := by
  obtain ⟨t', ht', hwritten, hoffset, hleft, hmem⟩ := h.step hroom
  cases ht'.symm.trans hstep
  unfold Writing.Kept
  rw [hwritten, hmem]
  refine ⟨prefix_overwritten_iff destination s.written piece, ?_⟩
  rintro ⟨rest, hrest⟩
  have hbehind : rest = destination.drop (s.written ++ piece).length := by
    calc rest = (s.written ++ piece ++ rest).drop (s.written ++ piece).length :=
          List.drop_left.symm
      _ = (s.written ++ destination.drop s.written.length).drop
          (piece.length + s.written.length) := by
        rw [hrest, List.length_append, Nat.add_comm, List.drop_append,
          List.drop_eq_nil_of_le (Nat.le_add_right _ _), Nat.add_sub_cancel_left, List.nil_append,
          List.drop_drop]
      _ = destination.drop (s.written ++ piece).length := by
        rw [List.drop_append, List.drop_eq_nil_of_le (Nat.le_add_left _ _), Nat.add_sub_cancel,
          List.nil_append, List.drop_drop, List.length_append]
  refine ⟨hoffset, hleft, ?_⟩
  rw [hmem, hwritten, ← hrest, hbehind]

/-- Each piece fits in front, with those before it written. -/
def FitInFront (destination : List UInt8) (pieces : List (List UInt8)) : Prop :=
  ∀ before piece after, pieces = before ++ piece :: after →
    FitsInFront destination before.flatten piece

theorem runsWell_writing_iff {destination : List UInt8} {s : Writing} {pieces : List (List UInt8)}
    (h : s.Holds destination)
    (hroom : s.written.length + pieces.flatten.length ≤ destination.length) :
    RunsWell Writing.step Writing.Kept s pieces ↔
      ∀ before piece after, pieces = before ++ piece :: after →
        FitsInFront destination (s.written ++ before.flatten) piece := by
  induction pieces generalizing s with
  | nil =>
    refine iff_of_true ⟨⟨s, rfl⟩, fun t ht => ?_⟩ (by simp)
    rw [reached_nil_iff.mp ht]
    exact h.kept
  | cons piece pieces ih =>
    rw [List.flatten_cons, List.length_append] at hroom
    obtain ⟨t, ht, hwritten, -⟩ := @h.step _ _ piece (by omega)
    obtain ⟨hkept, hholds⟩ := h.step_kept_iff (by omega) ht
    rw [runsWell_cons_iff]
    constructor
    · rintro ⟨-, t', ht', hwell⟩ before c after hsplit
      cases ht.symm.trans ht'
      have hgood : t.Kept := hwell.2 t ⟨[], List.nil_prefix, rfl⟩
      cases before with
      | nil =>
        obtain ⟨rfl, -⟩ := List.cons.inj hsplit
        rw [List.flatten_nil, List.append_nil]
        exact hkept.mp hgood
      | cons first before =>
        obtain ⟨rfl, hrest⟩ := List.cons.inj hsplit
        rw [List.flatten_cons, ← List.append_assoc, ← hwritten]
        exact (ih (hholds hgood) (by rw [hwritten, List.length_append]; omega)).mp hwell
          before c after hrest
    · intro hfits
      have hfirst := hfits [] piece pieces rfl
      rw [List.flatten_nil, List.append_nil] at hfirst
      refine ⟨h.kept, t, ht, ?_⟩
      refine (ih (hholds (hkept.mpr hfirst)) (by rw [hwritten, List.length_append]; omega)).mpr ?_
      intro before c after hsplit
      rw [hwritten, List.append_assoc, ← List.flatten_cons]
      exact hfits (piece :: before) c after (by rw [hsplit, List.cons_append])

theorem writesInSequence_iff {destination : List UInt8} {pieces : List (List UInt8)}
    (fit : pieces.flatten.length ≤ destination.length) :
    WritesInSequence destination pieces ↔ FitInFront destination pieces := by
  have hholds : Writing.Holds destination { adapter := .setSource destination {} } :=
    ⟨rfl, rfl, rfl⟩
  refine (runsWell_writing_iff hholds (by simpa using fit)).trans ?_
  simp only [List.nil_append, FitInFront]

/-- Reads are in sequence just when the memory repeats its front, and writes that fit in the
destination just when each piece fits in front. -/
theorem adaptersSequential_iff (memory : List UInt8) (reads : List ReadCall)
    {destination : List UInt8} {pieces : List (List UInt8)}
    (fit : pieces.flatten.length ≤ destination.length) :
    (ReadsInSequence memory reads ↔ RepeatsFront memory (reads.map ReadCall.size)) ∧
      (WritesInSequence destination pieces ↔ FitInFront destination pieces) :=
  ⟨readsInSequence_iff memory reads, writesInSequence_iff fit⟩

theorem adaptersSequential_iff_twice :
    (ReadsInSequence [1, 2] [.span [0], .span [0]] ↔
      RepeatsFront [1, 2] ([ReadCall.span [0], .span [0]].map ReadCall.size)) ∧
      (WritesInSequence [0, 0] [[1], [2]] ↔ FitInFront [0, 0] [[1], [2]]) :=
  adaptersSequential_iff [1, 2] [.span [0], .span [0]] (by decide)

/-- Two reads of one byte each, and two writes. -/
theorem not_adaptersSequential :
    ¬ ReadsInSequence [1, 2] [.span [0], .span [0]] ∧ ¬ WritesInSequence [0, 0] [[1], [2]] := by
  constructor
  · intro h
    have hsecond := (readsInSequence_iff _ _).mp h [1] 1 [] rfl
    exact absurd hsecond (by decide)
  · intro h
    have hsecond := (@writesInSequence_iff [0, 0] [[1], [2]] (by decide)).mp h [[1]] [2] [] rfl
    exact absurd hsecond.1 (by decide)

end DecodingProxy.Buffers
