import DecodingProxy.Lib.Vectors
import DecodingProxy.Runtime.Faults
import Mathlib.Algebra.BigOperators.Group.List.Basic
import Mathlib.Data.List.Induction
import Mathlib.Logic.Function.Basic

/-!
# `StreamForRecording`

What passes a stream is recorded in two files, one for each direction. Every slice is appended to
its file behind a `Delimeter` of sixteen bytes, whose numbers stand in the order of the machine,
the lowest byte first.
-/

namespace DecodingProxy.Recording
open DecodingProxy.Runtime DecodingProxy.Vectors

def littleEndian (k : ℕ) (z : ℤ) : List UInt8 := (bigEndian k (z % 256 ^ k).toNat).reverse

/-- A `long`. -/
def int64 (z : ℤ) : ℤ := z.bmod (2 ^ 64)

def toInt32 (bytes : List UInt8) : ℤ := int32 (number bytes.reverse)
def toInt64 (bytes : List UInt8) : ℤ := int64 (number bytes.reverse)

@[simp] theorem length_littleEndian (k : ℕ) (z : ℤ) : (littleEndian k z).length = k := by
  simp [littleEndian]

theorem number_littleEndian (k : ℕ) (z : ℤ) :
    (number (littleEndian k z).reverse : ℤ) = z % 256 ^ k := by
  have hpos : (0 : ℤ) < 256 ^ k := Int.pow_pos (by decide)
  have hlow : 0 ≤ z % 256 ^ k := Int.emod_nonneg z hpos.ne'
  have hhigh : z % 256 ^ k < 256 ^ k := Int.emod_lt_of_pos z hpos
  have hnat : (z % 256 ^ k).toNat < 256 ^ k := (Int.toNat_lt hlow).mpr (by exact_mod_cast hhigh)
  rw [littleEndian, List.reverse_reverse, number_bigEndian hnat, Int.toNat_of_nonneg hlow]

theorem toInt32_littleEndian (z : ℤ) : toInt32 (littleEndian 4 z) = int32 z := by
  rw [toInt32, number_littleEndian]
  exact Int.emod_bmod z (2 ^ 32)

theorem toInt64_littleEndian (z : ℤ) : toInt64 (littleEndian 8 z) = int64 z := by
  rw [toInt64, number_littleEndian]
  exact Int.emod_bmod z (2 ^ 64)

structure Delimeter where
  index : ℤ
  length : ℤ
  /-- The ticks of `DateTime.Now`. -/
  dateTime : ℤ
  deriving DecidableEq, Repr

namespace Delimeter

/-- The struct as it lies in memory. -/
def toBytes (d : Delimeter) : List UInt8 :=
  littleEndian 4 d.index ++ (littleEndian 4 d.length ++ littleEndian 8 d.dateTime)

/-- `BufferReader.ToStruct<Delimeter>`. -/
def toStruct (mem : List UInt8) : Except Fault Delimeter :=
  if mem.length < 16 then .error (.raised .indexOutOfRange)
  else
    .ok ⟨toInt32 (mem.take 4), toInt32 ((mem.drop 4).take 4), toInt64 ((mem.drop 8).take 8)⟩

@[simp] theorem length_toBytes (d : Delimeter) : d.toBytes.length = 16 := by
  simp [toBytes]

theorem toStruct_toBytes (d : Delimeter) :
    toStruct d.toBytes = .ok ⟨int32 d.index, int32 d.length, int64 d.dateTime⟩ := by
  have hindex : d.toBytes.take 4 = littleEndian 4 d.index :=
    List.take_left' (length_littleEndian 4 _)
  have hrest : d.toBytes.drop 4 = littleEndian 4 d.length ++ littleEndian 8 d.dateTime :=
    List.drop_left' (length_littleEndian 4 _)
  have hlast : d.toBytes.drop 8 = littleEndian 8 d.dateTime := by
    rw [show 8 = 4 + 4 from rfl, ← List.drop_drop, hrest]
    exact List.drop_left' (length_littleEndian 4 _)
  rw [toStruct, if_neg (by simp), hindex, hrest, hlast,
    List.take_left' (length_littleEndian 4 _), List.take_of_length_le (by simp),
    toInt32_littleEndian, toInt32_littleEndian, toInt64_littleEndian]

end Delimeter

/-- The files, by directory and name. -/
abbrev Files := String × String → Option (List UInt8)

/-- `FileHelper.AppendAllBytes16`. -/
def appendAllBytes16 (dir filename : String) (header16 data : List UInt8) (files : Files) : Files :=
  Function.update files (dir, filename)
    (some ((files (dir, filename)).getD [] ++ (header16 ++ data)))

structure StreamForRecording where
  dir : String
  filename : String
  countHeadersWriter : ℤ := 0
  countHeadersReader : ℤ := 0
  deriving DecidableEq, Repr

/-- The two directions. -/
inductive RecordSide
  | writer
  | reader
  deriving DecidableEq, Repr

def RecordSide.ext : RecordSide → String
  | .writer => ".writer"
  | .reader => ".reader"

/-- A call of `actionRecordWriter` or `actionRecordReader`, and when it is made. -/
structure RecordCall where
  side : RecordSide
  arg : List UInt8
  ticks : ℤ
  deriving DecidableEq, Repr

structure Recorder where
  stream : StreamForRecording
  files : Files := fun _ => none

namespace Recorder

/-- What both actions do with their file. -/
def append (side : RecordSide) (count : ℤ) (arg : List UInt8) (ticks : ℤ) (r : Recorder) : Files :=
  let header : Delimeter := ⟨count, arg.length, ticks⟩
  appendAllBytes16 r.stream.dir (r.stream.filename ++ side.ext) header.toBytes arg r.files

def recordWriter (arg : List UInt8) (ticks : ℤ) (r : Recorder) : Recorder where
  stream := { r.stream with countHeadersWriter := int32 (r.stream.countHeadersWriter + 1) }
  files := r.append .writer r.stream.countHeadersWriter arg ticks

def recordReader (arg : List UInt8) (ticks : ℤ) (r : Recorder) : Recorder where
  stream := { r.stream with countHeadersReader := int32 (r.stream.countHeadersReader + 1) }
  files := r.append .reader r.stream.countHeadersReader arg ticks

def call (r : Recorder) (c : RecordCall) : Recorder :=
  match c.side with
  | .writer => r.recordWriter c.arg c.ticks
  | .reader => r.recordReader c.arg c.ticks

end Recorder

/-- The files after the calls on a stream that has not recorded before. -/
def recordAll (stream : StreamForRecording) (calls : List RecordCall) : Recorder :=
  calls.foldl Recorder.call { stream }

/-- The slices recorded in one direction. -/
def recorded (side : RecordSide) (calls : List RecordCall) : List (List UInt8) :=
  (calls.filter fun c => c.side = side).map RecordCall.arg

/-- The content is the slices, each behind a delimeter with its length. -/
def Framed (content : List UInt8) (slices : List (List UInt8)) : Prop :=
  ∃ delimeters : List Delimeter,
    delimeters.map Delimeter.length = slices.map (fun s => (s.length : ℤ)) ∧
    content = (List.zipWith (fun d s => d.toBytes ++ s) delimeters slices).flatten

theorem framed_nil : Framed [] [] := ⟨[], rfl, rfl⟩

theorem Framed.append {content slice : List UInt8} {slices : List (List UInt8)}
    (h : Framed content slices) {d : Delimeter} (hd : d.length = slice.length) :
    Framed (content ++ (d.toBytes ++ slice)) (slices ++ [slice]) := by
  obtain ⟨delimeters, hlengths, rfl⟩ := h
  have hcount : delimeters.length = slices.length := by simpa using congrArg List.length hlengths
  refine ⟨delimeters ++ [d], by simp [hlengths, hd], ?_⟩
  rw [List.zipWith_append hcount, List.flatten_append]
  simp

/-- How many bytes the file of some slices has. -/
def framedLength (slices : List (List UInt8)) : ℕ := (slices.map fun s => 16 + s.length).sum

theorem framedLength_eq (slices : List (List UInt8)) :
    framedLength slices = 16 * slices.length + slices.flatten.length := by
  induction slices with
  | nil => rfl
  | cons s slices ih =>
    simp only [framedLength, List.map_cons, List.sum_cons, List.length_cons, List.flatten_cons,
      List.length_append] at ih ⊢
    omega

theorem Framed.length {content : List UInt8} {slices : List (List UInt8)}
    (h : Framed content slices) : content.length = framedLength slices := by
  obtain ⟨delimeters, hlengths, rfl⟩ := h
  induction slices generalizing delimeters with
  | nil => simp [framedLength]
  | cons s slices ih =>
    cases delimeters with
    | nil => cases hlengths
    | cons d delimeters =>
      have htail := ih delimeters (List.cons.inj hlengths).2
      rw [framedLength] at htail ⊢
      rw [List.zipWith_cons_cons, List.flatten_cons, List.length_append, htail]
      simp

theorem files_ne {filename : String} {side other : RecordSide} (h : side ≠ other) :
    filename ++ side.ext ≠ filename ++ other.ext := by
  intro heq
  have hlist := congrArg String.toList heq
  rw [String.toList_append, String.toList_append] at hlist
  have hext := List.append_cancel_left hlist
  cases side <;> cases other <;> first | exact h rfl | exact absurd hext (by decide)

theorem recorded_concat (side : RecordSide) (calls : List RecordCall) (c : RecordCall) :
    recorded side (calls ++ [c]) =
      recorded side calls ++ if c.side = side then [c.arg] else [] := by
  simp only [recorded, List.filter_append, List.map_append]
  split_ifs with h <;> simp [h]

namespace Recorder

variable {stream : StreamForRecording} {side : RecordSide} {slices : List (List UInt8)}
  {r : Recorder}

/-- The file of one direction has the slices of this direction, once there are any. -/
structure Holds (stream : StreamForRecording) (side : RecordSide) (slices : List (List UInt8))
    (r : Recorder) : Prop where
  dir : r.stream.dir = stream.dir
  filename : r.stream.filename = stream.filename
  none : slices = [] → r.files (stream.dir, stream.filename ++ side.ext) = none
  some : slices ≠ [] → ∃ content,
    r.files (stream.dir, stream.filename ++ side.ext) = some content ∧ Framed content slices

theorem call_files (r : Recorder) (c : RecordCall) :
    (r.call c).stream.dir = r.stream.dir ∧ (r.call c).stream.filename = r.stream.filename ∧
      ∃ count, (r.call c).files = r.append c.side count c.arg c.ticks := by
  unfold call
  cases c.side with
  | writer => exact ⟨rfl, rfl, _, rfl⟩
  | reader => exact ⟨rfl, rfl, _, rfl⟩

theorem Holds.call (h : r.Holds stream side slices) (c : RecordCall) :
    (r.call c).Holds stream side (slices ++ if c.side = side then [c.arg] else []) := by
  obtain ⟨hdir, hfilename, count, hfiles⟩ := r.call_files c
  refine ⟨hdir.trans h.dir, hfilename.trans h.filename, fun hnil => ?_, fun hne => ?_⟩
  · obtain ⟨hslices, hother⟩ := List.append_eq_nil_iff.mp hnil
    have hside : c.side ≠ side := fun he => by simp [he] at hother
    rw [hfiles, append, h.dir, h.filename, appendAllBytes16, Function.update_of_ne]
    · exact h.none hslices
    · intro heq
      exact files_ne hside (Prod.mk.inj heq).2.symm
  · by_cases hside : c.side = side
    · rw [if_pos hside, hfiles, append, h.dir, h.filename, hside, appendAllBytes16,
        Function.update_self]
      refine ⟨_, rfl, Framed.append ?_ rfl⟩
      by_cases hslices : slices = []
      · rw [h.none hslices, hslices]
        exact framed_nil
      · obtain ⟨content, hcontent, hframed⟩ := h.some hslices
        rw [hcontent]
        exact hframed
    · rw [if_neg hside, List.append_nil] at hne ⊢
      rw [hfiles, append, h.dir, h.filename, appendAllBytes16, Function.update_of_ne]
      · exact h.some hne
      · intro heq
        exact files_ne hside (Prod.mk.inj heq).2.symm

end Recorder

theorem recordAll_holds (stream : StreamForRecording) (side : RecordSide)
    (calls : List RecordCall) :
    (recordAll stream calls).Holds stream side (recorded side calls) := by
  induction calls using List.reverseRecOn with
  | nil => exact ⟨rfl, rfl, fun _ => rfl, fun hne => absurd rfl hne⟩
  | append_singleton calls c ih =>
    rw [recordAll, List.foldl_append, recorded_concat]
    exact ih.call c

end DecodingProxy.Recording
