import DecodingProxy.Cryptography.SegmentedExtensions
import DecodingProxy.Cryptography.TlsHandshakeReadOperation

/-!
# `TlsHandshakeReadOperation.CheckIntegrity`

Whether a record has come whole is asked of the operation that collects it, of a memory and of a
sequence. The operation compares its offset with itself, so its answer is the same for every part
of a record.
-/

namespace DecodingProxy.Cryptography
open DecodingProxy.Arrays DecodingProxy.Runs DecodingProxy.Runtime

namespace TlsHandshakeReadOperation

/-- Both overloads. A memory that does not fit is not copied in part: `CopyTo` throws. -/
def addData (mem : List UInt8) (op : TlsHandshakeReadOperation) :
    Except Fault (TlsHandshakeReadOperation × ℕ) :=
  let left := op.buffer.length - op.offset
  let toCopy := if left > mem.length then mem.length else left
  if toCopy < mem.length then .error (.raised .argument)
  else .ok ({ op with
    buffer := writeAt op.buffer op.offset mem
    offset := op.offset + toCopy }, toCopy)

def checkIntegrity (op : TlsHandshakeReadOperation) :
    Except Fault (TlsHandshakeReadOperation × Bool) := do
  let first ← byteAt op.buffer 0
  if first ≠ ConstantsForTls.handshakeRecord then .error (.thrown .format "")
  else do
    let handshakeLength ← ushortAt op.buffer 3
    .ok ({ op with handshakeLength }, !decide ((op.offset : ℤ) < op.offset - 5))

/-- The positions of the array that it reads. -/
def checkedPositions : List ℕ := [0, 3, 4]

def checkIntegrityOfMemory (mem : List UInt8) : Except Fault Bool :=
  if mem.length < 5 then .ok false
  else do
    let first ← byteAt mem 0
    if first ≠ ConstantsForTls.handshakeRecord then
      .error (.thrown .format "First Byte Must be = 0x16")
    else do
      let length ← ushortAt mem 3
      .ok (length + 5 ≤ mem.length)

/-- `taken` was appended. -/
structure Appended (taken : List UInt8) (op : TlsHandshakeReadOperation) : Prop where
  room : op.buffer.length = 8092
  offset : op.offset = taken.length
  frame : op.buffer.take op.offset = taken

def append (op : TlsHandshakeReadOperation) (mem : List UInt8) :
    Except Fault TlsHandshakeReadOperation :=
  (op.addData mem).map Prod.fst

/-- All three answer with whether the record is whole, and the operation reads what was appended
only. -/
structure Agree (op : TlsHandshakeReadOperation) (data : ByteSequence) (whole : Bool) : Prop where
  operation : ∃ op', op.checkIntegrity = .ok (op', whole)
  inside : ∀ i ∈ checkedPositions, i < op.offset
  memory : checkIntegrityOfMemory data.bytes = .ok whole
  sequence : SegmentedEnumerator.checkIntegrity data = .ok whole

/-- In several segments the first one is not empty. -/
def StartsInFirst (data : ByteSequence) : Prop :=
  data.isSingleSegment = true ∨ data.firstSpan ≠ []

instance (data : ByteSequence) : Decidable (StartsInFirst data) :=
  inferInstanceAs (Decidable (_ ∨ _))

variable {taken mem p record : List UInt8} {op : TlsHandshakeReadOperation}
  {pieces : List (List UInt8)} {data : ByteSequence}

theorem append_ok (h : Appended taken op) (hfits : taken.length + mem.length ≤ 8092) :
    ∃ op', op.append mem = .ok op' ∧ Appended (taken ++ mem) op' := by
  have hroom : op.offset + mem.length ≤ op.buffer.length := by
    rw [h.offset, h.room]
    exact hfits
  have hcopy : (if op.buffer.length - op.offset > mem.length then mem.length
      else op.buffer.length - op.offset) = mem.length := by
    split_ifs <;> omega
  simp only [append, addData, hcopy, lt_irrefl, if_false]
  refine ⟨_, rfl, ?_, ?_, ?_⟩
  · exact (writeAt_length hroom).trans h.room
  · rw [List.length_append, ← h.offset]
  · rw [← h.frame]
    exact take_writeAt (by omega)

/-- However the bytes are cut, they are appended. -/
theorem run_append (h : Appended taken op) (hfits : taken.length + pieces.flatten.length ≤ 8092) :
    ∃ op', run append op pieces = .ok op' ∧ Appended (taken ++ pieces.flatten) op' := by
  induction pieces generalizing taken op with
  | nil => exact ⟨op, rfl, by simpa using h⟩
  | cons mem pieces ih =>
    rw [List.flatten_cons, List.length_append] at hfits
    obtain ⟨op₁, hstep, h₁⟩ := append_ok h (show taken.length + mem.length ≤ 8092 by omega)
    obtain ⟨op', hrun, h'⟩ := ih h₁ (by rw [List.length_append]; omega)
    refine ⟨op', run_cons_ok_iff.mpr ⟨op₁, hstep, hrun⟩, ?_⟩
    rwa [List.flatten_cons, ← List.append_assoc]

/-- What the operation answers does not depend on how much there is. -/
theorem checkIntegrity_inv {whole : Bool} {op' : TlsHandshakeReadOperation}
    (h : op.checkIntegrity = .ok (op', whole)) :
    whole = true ∧ byteAt op.buffer 0 = .ok ConstantsForTls.handshakeRecord := by
  unfold checkIntegrity at h
  obtain ⟨first, hfirst, h⟩ := do_ok_iff.mp h
  split_ifs at h with htype
  obtain ⟨handshakeLength, -, h⟩ := do_ok_iff.mp h
  cases h
  obtain rfl := not_not.mp htype
  refine ⟨?_, hfirst⟩
  simp only [Bool.not_eq_true', decide_eq_false_iff_not]
  omega

/-- The header that five bytes of a handshake record give. -/
theorem header_of_prefix (hrecord : IsRecord record)
    (htype : record.head? = some ConstantsForTls.handshakeRecord) (hp : p <+: record)
    (hfive : 5 ≤ p.length) :
    byteAt p 0 = .ok ConstantsForTls.handshakeRecord ∧ ushortAt p 3 = .ok (record.length - 5) := by
  obtain ⟨type, v0, v1, l0, l1, payload, rfl, hlength⟩ := hrecord
  cases htype
  match p, hfive, hp with
  | b0 :: b1 :: b2 :: b3 :: b4 :: rest, _, hp =>
    simp only [List.cons_prefix_cons] at hp
    obtain ⟨rfl, rfl, rfl, rfl, rfl, -⟩ := hp
    refine ⟨rfl, ?_⟩
    rw [ushortAt_ok_iff]
    exact ⟨b3, b4, rfl, rfl, hlength.symm⟩

theorem checkIntegrity_whole {whole : List UInt8} (h : Appended whole op)
    (hrecord : IsRecord whole) (htype : whole.head? = some ConstantsForTls.handshakeRecord) :
    ∃ op', op.checkIntegrity = .ok (op', true) := by
  have hfive : 5 ≤ whole.length := hrecord.five_le
  obtain ⟨hfirst, hlength⟩ := header_of_prefix hrecord htype List.prefix_rfl hfive
  have hbuffer : whole <+: op.buffer := h.frame ▸ List.take_prefix _ _
  have hfirst' : byteAt op.buffer 0 = .ok ConstantsForTls.handshakeRecord := by
    obtain ⟨rest, hrest⟩ := hbuffer
    rw [byteAt_ok_iff] at hfirst ⊢
    rwa [← hrest, List.getElem?_append_left (by omega)]
  have hlength' : ushortAt op.buffer 3 = .ok (whole.length - 5) := by
    rw [← hlength]
    exact (ushortAt_front hbuffer (by omega)).symm
  have hanswer : (!decide ((op.offset : ℤ) < op.offset - 5)) = true := by
    simp only [Bool.not_eq_true', decide_eq_false_iff_not]
    omega
  refine ⟨{ op with handshakeLength := whole.length - 5 }, ?_⟩
  rw [checkIntegrity, do_of_ok hfirst', if_neg (not_not.mpr rfl), do_of_ok hlength', hanswer]

/-- The answer for a memory is right for every part of a handshake record. -/
theorem checkIntegrityOfMemory_eq (hrecord : IsRecord record)
    (htype : record.head? = some ConstantsForTls.handshakeRecord) (hp : p <+: record) :
    checkIntegrityOfMemory p = .ok (decide (record.length ≤ p.length)) := by
  have hfive : 5 ≤ record.length := hrecord.five_le
  unfold checkIntegrityOfMemory
  rcases Nat.lt_or_ge p.length 5 with hshort | hlong
  · rw [if_pos hshort, decide_eq_false (by omega)]
  · obtain ⟨hfirst, hlength⟩ := header_of_prefix hrecord htype hp hlong
    rw [if_neg (by omega), do_of_ok hfirst, if_neg (not_not.mpr rfl), do_of_ok hlength,
      Nat.sub_add_cancel hfive]

/-- So is that for a sequence that does not start with an empty segment. -/
theorem checkIntegrityOfSequence_eq (hrecord : IsRecord record)
    (htype : record.head? = some ConstantsForTls.handshakeRecord) (hp : data.bytes <+: record)
    (hstart : StartsInFirst data) :
    SegmentedEnumerator.checkIntegrity data =
      .ok (decide (record.length ≤ data.bytes.length)) := by
  have hfive : 5 ≤ record.length := hrecord.five_le
  have hadd : 5 + (record.length - 5) = record.length := by omega
  unfold SegmentedEnumerator.checkIntegrity
  by_cases hsingle : data.isSingleSegment = true
  · rw [if_pos hsingle, ByteSequence.firstSpan_single hsingle, ExtensionsEnumerator.checkIntegrity]
    rcases Nat.lt_or_ge data.bytes.length 5 with hshort | hlong
    · rw [if_pos hshort, decide_eq_false (by omega)]
    · obtain ⟨hfirst, hlength⟩ := header_of_prefix hrecord htype hp hlong
      rw [if_neg (by omega), do_of_ok hfirst, if_neg (not_not.mpr rfl), do_of_ok hlength, hadd]
  · have hspan := hstart.resolve_left hsingle
    rw [if_neg hsingle]
    rcases Nat.lt_or_ge data.bytes.length 5 with hshort | hlong
    · rw [if_pos hshort, decide_eq_false (by omega)]
    · obtain ⟨hfirst, hlength⟩ := header_of_prefix hrecord htype hp hlong
      obtain ⟨v1, v2, h3, h4, hnumber⟩ := ushortAt_ok_iff.mp hlength
      rw [if_neg (by omega), do_of_ok (ByteSequence.getItemAt_ok hfirst (.inr hspan)),
        if_neg (not_not.mpr rfl),
        do_of_ok (ByteSequence.getItemAt_ok (byteAt_ok_iff.mpr h3) (.inr hspan)),
        do_of_ok (ByteSequence.getItemAt_ok (byteAt_ok_iff.mpr h4) (.inr hspan)), hnumber, hadd]

/-- The first byte is looked for in the first segment. -/
theorem startsInFirst_of_ok {whole : Bool} (hlong : 5 ≤ data.bytes.length)
    (h : SegmentedEnumerator.checkIntegrity data = .ok whole) : StartsInFirst data := by
  by_contra hstart
  obtain ⟨hsingle, hspan⟩ := not_or.mp hstart
  have hempty : data.firstSpan = [] := not_not.mp hspan
  have hfirst : data.getItemAt 0 = .error (.raised .indexOutOfRange) := by
    rw [ByteSequence.getItemAt, if_pos (.inr rfl), hempty]
    rfl
  rw [SegmentedEnumerator.checkIntegrity, if_neg hsingle, if_neg (by omega), hfirst] at h
  cases h

/-- The three checks agree on the whole handshake record only. -/
theorem agree_iff (op : TlsHandshakeReadOperation) (hempty : Appended [] op)
    (record : List UInt8) (hrecord : IsRecord record) (pieces : List (List UInt8))
    (hp : pieces.flatten <+: record) (hfits : pieces.flatten.length ≤ 8092) (data : ByteSequence)
    (hdata : data.bytes = pieces.flatten) :
    (∃ op', run append op pieces = .ok op' ∧
        Agree op' data (decide (record.length ≤ pieces.flatten.length))) ↔
      pieces.flatten = record ∧ record.head? = some ConstantsForTls.handshakeRecord ∧
        StartsInFirst data := by
  obtain ⟨op', hrun, happended⟩ := run_append hempty (by simpa using hfits)
  rw [List.nil_append] at happended
  have hfive : 5 ≤ record.length := hrecord.five_le
  constructor
  · rintro ⟨_, hrun', hagree⟩
    obtain rfl := Except.ok.inj (hrun.symm.trans hrun')
    obtain ⟨_, hoperation⟩ := hagree.operation
    obtain ⟨hwhole, hfirst⟩ := checkIntegrity_inv hoperation
    obtain rfl := hp.eq_of_length_le (of_decide_eq_true hwhole)
    refine ⟨rfl, ?_, startsInFirst_of_ok (by rw [hdata]; exact hfive) hagree.sequence⟩
    rw [byteAt_ok_iff, ← List.head?_eq_getElem?] at hfirst
    rw [← hfirst, ← happended.frame, List.head?_take, if_neg]
    rw [happended.offset]
    omega
  · rintro ⟨rfl, htype, hstart⟩
    refine ⟨op', hrun, ?_⟩
    rw [← hdata] at hrecord htype hfive
    have hsame : decide (pieces.flatten.length ≤ pieces.flatten.length) = true :=
      decide_eq_true le_rfl
    constructor
    case operation =>
      rw [hsame]
      exact checkIntegrity_whole happended (hdata ▸ hrecord) (hdata ▸ htype)
    case inside =>
      intro i hi
      rw [happended.offset, ← hdata]
      simp only [checkedPositions, List.mem_cons, List.not_mem_nil, or_false] at hi
      omega
    case memory =>
      rw [← hdata]
      exact checkIntegrityOfMemory_eq hrecord htype List.prefix_rfl
    case sequence =>
      rw [← hdata]
      exact checkIntegrityOfSequence_eq hrecord htype List.prefix_rfl hstart

theorem appended_new : Appended [] {} := ⟨List.length_replicate, rfl, rfl⟩

theorem agree_iff_small :
    (∃ op', run append {} [smallRecord] = .ok op' ∧
        Agree op' ⟨[smallRecord]⟩ (decide (smallRecord.length ≤ [smallRecord].flatten.length))) ↔
      [smallRecord].flatten = smallRecord ∧
        smallRecord.head? = some ConstantsForTls.handshakeRecord ∧ StartsInFirst ⟨[smallRecord]⟩ :=
  agree_iff {} appended_new smallRecord isRecord_small [smallRecord] (by decide) (by decide)
    ⟨[smallRecord]⟩ rfl

/-- Without its last byte. -/
theorem not_agree_short :
    ¬ ∀ (op : TlsHandshakeReadOperation), Appended [] op → ∀ record, IsRecord record →
      ∀ pieces : List (List UInt8), pieces.flatten <+: record → pieces.flatten.length ≤ 8092 →
      ∀ data : ByteSequence, data.bytes = pieces.flatten →
      ∃ op', run append op pieces = .ok op' ∧
        Agree op' data (decide (record.length ≤ pieces.flatten.length)) := by
  intro h
  obtain ⟨op', -, hagree⟩ := h {} appended_new smallRecord isRecord_small [smallRecord.take 6]
    (by decide) (by decide) ⟨[smallRecord.take 6]⟩ rfl
  obtain ⟨_, hoperation⟩ := hagree.operation
  exact absurd (checkIntegrity_inv hoperation).1 (by decide)

end TlsHandshakeReadOperation

end DecodingProxy.Cryptography
