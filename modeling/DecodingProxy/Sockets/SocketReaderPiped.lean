import DecodingProxy.Lib.Runs
import DecodingProxy.Runtime.ArrayPool
import DecodingProxy.Runtime.Pipe
import Mathlib.Data.List.Enum
import Mathlib.Tactic.Common

/-!
# `SocketReaderPiped`

A reader over a pipe that its writer loop fills. `TransferToAsync` and `ReadPipeAsync` with
`ReportConsume` advance the pipe by what they took; `TransferTo` does not advance it, and copies
everything the pipe holds into a span cut to the length of the destination.
-/

namespace DecodingProxy.Sockets
open DecodingProxy.Runtime DecodingProxy.Runs

namespace SocketReaderPiped

/-- What a method gives back beside the pipe: the bytes delivered, the exception, or that it
still waits for bytes. -/
inductive Outcome
  | delivered (bytes : List UInt8)
  | threw (fault : Fault)
  | waits
  deriving DecidableEq, Repr

/-- A read that is not followed by `AdvanceTo` is unfinished. Where `rereads` holds, the pipe
offers its bytes to the next read again; otherwise that read throws. -/
def refuses (rereads : Bool) (pipe : Pipe) : Bool := pipe.reading && !rereads

/-- `new Span<byte>(array, offset, toCopy)`, and `CopyTo` of the whole buffer. -/
def copyAll (buffer : List UInt8) (toCopy : ℤ) : Except Fault (List UInt8) :=
  if toCopy < 0 then .error (.raised .argumentOutOfRange)
  else if toCopy < buffer.length then .error (.raised .argument)
  else .ok buffer

def transferTo (rereads : Bool) (length : ArrayLength) (pipe : Pipe) : Pipe × Outcome :=
  if pipe.pending = [] then (pipe, .threw (.raised .notImplemented))
  else if refuses rereads pipe then (pipe, .threw (.raised .invalidOperation))
  else
    let readed := int32 pipe.pending.length
    let toCopy := if readed > length.val then (length.val : ℤ) else readed
    match copyAll pipe.pending toCopy with
    | .ok bytes => ({ pipe with reading := true }, .delivered bytes)
    | .error fault => ({ pipe with reading := true }, .threw fault)

def transferToAsync (rereads : Bool) (size : ArrayLength) (pipe : Pipe) : Pipe × Outcome :=
  if pipe.pending = [] then (pipe, .waits)
  else if refuses rereads pipe then (pipe, .threw (.raised .invalidOperation))
  else
    let lengthBuffer := int32 pipe.pending.length
    let length := if lengthBuffer > size.val then (size.val : ℤ) else lengthBuffer
    -- `result.Buffer.Slice(0, length)`
    if length < 0 then ({ pipe with reading := true }, .threw (.raised .argumentOutOfRange))
    else
      (pipe.advanceTo (pipe.pending.drop length.toNat),
        .delivered (pipe.pending.take length.toNat))

/-- `ReadPipeAsync`, and `ReportConsume` of a position up to `count` bytes into what it gave. -/
def readPipeAsync (rereads : Bool) (count : ℕ) (pipe : Pipe) : Pipe × Outcome :=
  if pipe.pending = [] then (pipe, .waits)
  else if refuses rereads pipe then (pipe, .threw (.raised .invalidOperation))
  else (pipe.advanceTo (pipe.pending.drop count), .delivered (pipe.pending.take count))

end SocketReaderPiped

open SocketReaderPiped

/-- A chunk is written to the pipe, or a method is called. -/
inductive PipedCall
  | arrive (chunk : List UInt8)
  | transferTo (length : ArrayLength)
  | transferToAsync (size : ArrayLength)
  | readPipeAsync (count : ℕ)
  deriving DecidableEq, Repr

/-- A pipe with all bytes written to it, those delivered, each with its place in the stream,
and the exceptions thrown. -/
structure PipedSession where
  pipe : Pipe := {}
  piped : List UInt8 := []
  delivered : List (UInt8 × ℕ) := []
  thrown : List Fault := []

namespace PipedSession

/-- What is delivered was the front of the pipe. -/
def record (s : PipedSession) : Pipe × Outcome → PipedSession
  | (pipe, .delivered bytes) =>
    { s with pipe, delivered := s.delivered ++ bytes.zipIdx s.pipe.consumed }
  | (pipe, .threw fault) => { s with pipe, thrown := s.thrown ++ [fault] }
  | (pipe, .waits) => { s with pipe }

def call (rereads : Bool) (s : PipedSession) : PipedCall → PipedSession
  | .arrive chunk => { s with pipe := s.pipe.arrive chunk, piped := s.piped ++ chunk }
  | .transferTo length => s.record (SocketReaderPiped.transferTo rereads length s.pipe)
  | .transferToAsync size => s.record (SocketReaderPiped.transferToAsync rereads size s.pipe)
  | .readPipeAsync count => s.record (SocketReaderPiped.readPipeAsync rereads count s.pipe)

def step (rereads : Bool) (s : PipedSession) (a : PipedCall) : Except Fault PipedSession :=
  .ok (s.call rereads a)

/-- The delivered bytes are the first ones of the stream, each once and in order, and whatever
was thrown says that a read is unfinished or that the pipe is empty. -/
structure Faithful (s : PipedSession) : Prop where
  delivered : s.delivered <+: s.piped.zipIdx
  thrown : ∀ fault ∈ s.thrown, fault = .raised .invalidOperation ∨ fault = .raised .notImplemented

def DeliversOnce (rereads : Bool) (calls : List PipedCall) : Prop :=
  RunsWell (step rereads) Faithful {} calls

/-- The call gets to the bytes of the pipe. -/
def reads (rereads : Bool) (s : PipedSession) : Prop :=
  s.pipe.pending ≠ [] ∧ refuses rereads s.pipe = false

/-- A `TransferTo` has delivered bytes that are in the pipe still. -/
def ahead (s : PipedSession) : Prop := s.pipe.consumed < s.delivered.length

/-- A call that gets to the bytes of the pipe delivers none again, and `TransferTo` has room for
all of them. `TransferToAsync` needs their number to be an `int`. -/
def Fits (rereads : Bool) (s : PipedSession) : PipedCall → Prop
  | .arrive _ => True
  | .transferTo length =>
    s.reads rereads → s.pipe.pending.length ≤ length.val ∧ ¬ s.ahead
  | .transferToAsync size =>
    s.reads rereads →
      0 ≤ int32 s.pipe.pending.length ∧
        (0 < size.val ∧ 0 < int32 s.pipe.pending.length → ¬ s.ahead)
  | .readPipeAsync count => s.reads rereads → 0 < count → ¬ s.ahead

instance (rereads : Bool) (s : PipedSession) : Decidable (s.reads rereads) :=
  instDecidableAnd

instance (s : PipedSession) : Decidable s.ahead := Nat.decLt _ _

instance (rereads : Bool) (s : PipedSession) (a : PipedCall) : Decidable (s.Fits rereads a) := by
  cases a <;> unfold Fits <;> infer_instance

structure Sound (s : PipedSession) : Prop where
  consumed : s.pipe.consumed ≤ s.delivered.length
  pending : s.pipe.pending = s.piped.drop s.pipe.consumed
  faithful : s.Faithful

variable {rereads : Bool} {s : PipedSession}

theorem sound_start : Sound {} := ⟨le_rfl, rfl, List.prefix_rfl, by simp⟩

theorem zipIdx_mono {as bs : List UInt8} (h : as <+: bs) (n : ℕ) :
    as.zipIdx n <+: bs.zipIdx n := by
  obtain ⟨cs, rfl⟩ := h
  rw [List.zipIdx_append]
  exact List.prefix_append _ _

theorem Sound.delivered_eq (h : s.Sound) :
    s.delivered = (s.piped.take s.delivered.length).zipIdx ∧
      s.delivered.length ≤ s.piped.length := by
  have hle : s.delivered.length ≤ s.piped.length := by
    simpa using h.faithful.delivered.length_le
  refine ⟨?_, hle⟩
  obtain ⟨rest, hrest⟩ := h.faithful.delivered
  rw [← List.take_append_drop s.delivered.length s.piped, List.zipIdx_append] at hrest
  refine (List.append_inj hrest ?_).1
  simp [hle]

/-- Bytes from the front of the pipe continue what was delivered just if none of it is in the
pipe still. -/
theorem Sound.continues (h : s.Sound) {bytes : List UInt8} (hfront : bytes <+: s.pipe.pending) :
    s.delivered ++ bytes.zipIdx s.pipe.consumed <+: s.piped.zipIdx ↔ (bytes ≠ [] → ¬ s.ahead) := by
  obtain ⟨hdelivered, hle⟩ := h.delivered_eq
  constructor
  · rintro ⟨more, hmore⟩ hne hahead
    obtain ⟨b, bytes, rfl⟩ := List.exists_cons_of_ne_nil hne
    -- the next place of the stream holds its own number
    have hplace := congrArg (·[s.delivered.length]?) hmore
    simp only [List.append_assoc, List.getElem?_append_right le_rfl, Nat.sub_self,
      List.zipIdx_cons, List.cons_append, List.getElem?_cons_zero, List.getElem?_zipIdx,
      Nat.zero_add] at hplace
    cases hbyte : s.piped[s.delivered.length]? with
    | none => simp [hbyte] at hplace
    | some byte =>
      simp only [hbyte, Option.map_some, Option.some.injEq, Prod.mk.injEq] at hplace
      exact absurd hplace.2 hahead.ne
  · intro hfresh
    by_cases hnil : bytes = []
    · simpa [hnil] using h.faithful.delivered
    · have hconsumed : s.pipe.consumed = s.delivered.length :=
        le_antisymm h.consumed (Nat.not_lt.mp (hfresh hnil))
      rw [h.pending, hconsumed] at hfront
      have hsplit : s.piped.zipIdx = s.delivered ++ (s.piped.drop s.delivered.length).zipIdx
          s.delivered.length := by
        conv_lhs => rw [← List.take_append_drop s.delivered.length s.piped, List.zipIdx_append]
        rw [← hdelivered, List.length_take, Nat.min_eq_left hle, Nat.zero_add]
      rw [hsplit, hconsumed]
      exact (List.prefix_append_right_inj _).mpr (zipIdx_mono hfront _)

/-! ### The calls -/

/-- What one call does: it keeps the session sound, or it breaks the promise. -/
structure Follows (good : Prop) (t : PipedSession) : Prop where
  kept : good → t.Sound
  broken : ¬ good → ¬ t.Faithful

theorem Sound.arrive (h : s.Sound) (chunk : List UInt8) :
    Follows True (s.call rereads (.arrive chunk)) := by
  refine ⟨fun _ => ⟨h.consumed, ?_, ?_, h.faithful.thrown⟩, fun hfalse => absurd trivial hfalse⟩
  · have hle := h.consumed.trans h.delivered_eq.2
    simp only [call, Pipe.arrive_pending, Pipe.arrive_consumed, h.pending]
    rw [List.drop_append_of_le_length hle]
  · simp only [call]
    exact h.faithful.delivered.trans (zipIdx_mono (List.prefix_append _ _) 0)

theorem Sound.stopped (h : s.Sound) {outcome : Outcome}
    (houtcome : outcome = .waits ∨ outcome = .threw (.raised .notImplemented) ∨
      outcome = .threw (.raised .invalidOperation)) {good : Prop} (hgood : good) :
    Follows good (s.record (s.pipe, outcome)) := by
  refine ⟨fun _ => ?_, fun hnot => absurd hgood hnot⟩
  rcases houtcome with rfl | rfl | rfl
  · exact h
  · refine ⟨h.consumed, h.pending, h.faithful.delivered, ?_⟩
    simp only [record, List.forall_mem_append, List.forall_mem_singleton]
    exact ⟨h.faithful.thrown, .inr trivial⟩
  · refine ⟨h.consumed, h.pending, h.faithful.delivered, ?_⟩
    simp only [record, List.forall_mem_append, List.forall_mem_singleton]
    exact ⟨h.faithful.thrown, .inl trivial⟩

theorem threw_not_faithful {pipe : Pipe} {fault : Fault}
    (hfault : fault ≠ .raised .invalidOperation ∧ fault ≠ .raised .notImplemented) :
    ¬ (s.record (pipe, .threw fault)).Faithful := by
  intro hfaithful
  have hlast := hfaithful.thrown fault (List.mem_append_right _ List.mem_cons_self)
  exact hlast.elim hfault.1 hfault.2

theorem Sound.delivers (h : s.Sound) {bytes : List UInt8} {pipe : Pipe}
    (hfront : bytes <+: s.pipe.pending)
    (hconsumed : pipe.consumed ≤ s.pipe.consumed + bytes.length)
    (hpending : pipe.pending = s.piped.drop pipe.consumed) :
    Follows (bytes ≠ [] → ¬ s.ahead) (s.record (pipe, .delivered bytes)) := by
  refine ⟨fun hfresh => ⟨?_, hpending, (h.continues hfront).mpr hfresh, h.faithful.thrown⟩,
    fun hnot hfaithful => hnot ((h.continues hfront).mp hfaithful.delivered)⟩
  have hle := h.consumed
  simp only [record, List.length_append, List.length_zipIdx]
  omega

theorem Sound.advances (h : s.Sound) (count : ℕ) :
    Follows (s.pipe.pending.take count ≠ [] → ¬ s.ahead)
      (s.record (s.pipe.advanceTo (s.pipe.pending.drop count),
        .delivered (s.pipe.pending.take count))) := by
  have hconsumed := Pipe.advanceTo_consumed (List.take_append_drop count s.pipe.pending).symm
  apply h.delivers (List.take_prefix _ _) hconsumed.le
  rw [Pipe.advanceTo_pending, hconsumed, List.length_take, h.pending, List.drop_drop]
  by_cases hcount : count ≤ (s.piped.drop s.pipe.consumed).length
  · rw [Nat.min_eq_left hcount]
  · have hle := Nat.le_of_not_le hcount
    rw [Nat.min_eq_right hle]
    simp only [List.length_drop] at hle ⊢
    rw [List.drop_of_length_le (by omega), List.drop_of_length_le (by omega)]

theorem not_reads (hpending : s.pipe.pending ≠ []) (hnot : ¬ s.reads rereads) :
    refuses rereads s.pipe = true := by
  by_contra hrefuses
  exact hnot ⟨hpending, by simpa using hrefuses⟩

theorem Sound.transferTo (h : s.Sound) (length : ArrayLength) :
    Follows (s.Fits rereads (.transferTo length)) (s.call rereads (.transferTo length)) := by
  simp only [call, SocketReaderPiped.transferTo]
  by_cases hempty : s.pipe.pending = []
  · rw [if_pos hempty]
    exact h.stopped (.inr (.inl rfl)) fun hreads => absurd hempty hreads.1
  by_cases hreads : s.reads rereads
  · rw [if_neg hempty, if_neg (by simp [hreads.2])]
    have hpos : 0 < s.pipe.pending.length := List.length_pos_iff.mpr hempty
    have hmax : arrayMaxLength < 2 ^ 31 := by decide
    have hlength := length.2
    by_cases hroom : s.pipe.pending.length ≤ length.val
    · have hreaded : int32 s.pipe.pending.length = s.pipe.pending.length :=
        int32_of_range (by omega) (by omega)
      have hall : copyAll s.pipe.pending s.pipe.pending.length = .ok s.pipe.pending := by
        rw [copyAll, if_neg (by omega), if_neg (by omega)]
      have hiff : s.Fits rereads (.transferTo length) ↔ (s.pipe.pending ≠ [] → ¬ s.ahead) := by
        simp [Fits, hreads, hempty, hroom]
      rw [hreaded, if_neg (by omega), hall, hiff]
      exact h.delivers List.prefix_rfl (Nat.le_add_right _ _) h.pending
    · refine ⟨fun hfits => absurd (hfits hreads).1 hroom, fun _ => ?_⟩
      have hshort : ∃ fault, copyAll s.pipe.pending
          (if int32 s.pipe.pending.length > length.val then (length.val : ℤ)
            else int32 s.pipe.pending.length) = .error fault ∧
          fault ≠ .raised .invalidOperation ∧ fault ≠ .raised .notImplemented := by
        unfold copyAll
        split_ifs <;> first | exact ⟨_, rfl, by decide⟩ | omega
      obtain ⟨fault, hcopy, hfault⟩ := hshort
      rw [hcopy]
      exact threw_not_faithful hfault
  · have hrefuses := not_reads hempty hreads
    rw [if_neg hempty, if_pos hrefuses]
    exact h.stopped (.inr (.inr rfl)) fun hreads' => absurd hreads' hreads

theorem Sound.transferToAsync (h : s.Sound) (size : ArrayLength) :
    Follows (s.Fits rereads (.transferToAsync size)) (s.call rereads (.transferToAsync size)) := by
  simp only [call, SocketReaderPiped.transferToAsync]
  by_cases hempty : s.pipe.pending = []
  · rw [if_pos hempty]
    exact h.stopped (.inl rfl) fun hreads => absurd hempty hreads.1
  by_cases hreads : s.reads rereads
  · rw [if_neg hempty, if_neg (by simp [hreads.2])]
    by_cases hneg : int32 s.pipe.pending.length < 0
    · have hless : ¬ int32 s.pipe.pending.length > size.val := by omega
      rw [if_neg hless, if_pos hneg]
      refine ⟨fun hfits => absurd (hfits hreads).1 (by omega), fun _ => ?_⟩
      exact threw_not_faithful (by decide)
    · have hcount : ∃ count : ℕ, (if int32 s.pipe.pending.length > size.val then (size.val : ℤ)
          else int32 s.pipe.pending.length) = count ∧
          (count = 0 ↔ ¬ (0 < size.val ∧ 0 < int32 s.pipe.pending.length)) := by
        refine ⟨(if int32 s.pipe.pending.length > size.val then (size.val : ℤ)
          else int32 s.pipe.pending.length).toNat, ?_, ?_⟩
        · split_ifs <;> omega
        · split_ifs <;> omega
      obtain ⟨count, hcount, hzero⟩ := hcount
      have hiff : s.Fits rereads (.transferToAsync size) ↔
          (s.pipe.pending.take count ≠ [] → ¬ s.ahead) := by
        simp only [Fits, hreads, forall_const, ne_eq, List.take_eq_nil_iff, hempty, or_false, hzero,
          not_not]
        exact and_iff_right (Int.not_lt.mp hneg)
      rw [hcount, if_neg (by omega), Int.toNat_natCast, hiff]
      exact h.advances count
  · have hrefuses := not_reads hempty hreads
    rw [if_neg hempty, if_pos hrefuses]
    exact h.stopped (.inr (.inr rfl)) fun hreads' => absurd hreads' hreads

theorem Sound.readPipeAsync (h : s.Sound) (count : ℕ) :
    Follows (s.Fits rereads (.readPipeAsync count)) (s.call rereads (.readPipeAsync count)) := by
  simp only [call, SocketReaderPiped.readPipeAsync]
  by_cases hempty : s.pipe.pending = []
  · rw [if_pos hempty]
    exact h.stopped (.inl rfl) fun hreads => absurd hempty hreads.1
  by_cases hreads : s.reads rereads
  · rw [if_neg hempty, if_neg (by simp [hreads.2])]
    have hiff : s.Fits rereads (.readPipeAsync count) ↔
        (s.pipe.pending.take count ≠ [] → ¬ s.ahead) := by
      simp [Fits, hreads, hempty, Nat.pos_iff_ne_zero]
    rw [hiff]
    exact h.advances count
  · have hrefuses := not_reads hempty hreads
    rw [if_neg hempty, if_pos hrefuses]
    exact h.stopped (.inr (.inr rfl)) fun hreads' => absurd hreads' hreads

theorem deliversPipedOnce_iff (rereads : Bool) (calls : List PipedCall) :
    DeliversOnce rereads calls ↔ Along (step rereads) (Fits rereads) {} calls := by
  have hfollows : ∀ (s : PipedSession) (a : PipedCall), s.Sound →
      Follows (s.Fits rereads a) (s.call rereads a) := by
    intro s a h
    cases a with
    | arrive chunk => exact h.arrive chunk
    | transferTo length => exact h.transferTo length
    | transferToAsync size => exact h.transferToAsync size
    | readPipeAsync count => exact h.readPipeAsync count
  refine runsWell_iff_along (A := fun _ _ => True) (fun _ h => h.faithful) ?_ ?_ sound_start
    (along_of_forall fun _ _ _ => trivial)
  · exact fun s a h _ hfits => ⟨_, rfl, (hfollows s a h).kept hfits⟩
  · intro s a h _ hnot t ht
    cases ht
    exact (hfollows s a h).broken hnot

/-- Two bytes in the pipe, and a destination for one. -/
theorem not_deliversOnce_short :
    ¬ DeliversOnce false [.arrive [0x2A, 0x2B], .transferTo ⟨1, by decide⟩] := by
  rw [deliversPipedOnce_iff]
  decide

end PipedSession

end DecodingProxy.Sockets
