import DecodingProxy.Lib.Runs
import DecodingProxy.Runtime.Memory

/-!
# `EnumeratorFromBufferForHttp20`

`MoveNext` steps over the header of a frame and not over its payload, and it never
answers that the frames are over: a `foreach` over it ends with an exception whatever
the buffer holds.
-/

namespace DecodingProxy.Http20
open DecodingProxy.Runs DecodingProxy.Runtime

def FRAME_SIZE : ℕ := 9

structure FrameHttp20 where
  /-- Payload length -/
  length : Bytes3
  type : UInt8
  flags : UInt8
  streamIdentifier : UInt32
  deriving DecidableEq, Repr

namespace FrameHttp20

def littleEndian (b0 b1 b2 b3 : UInt8) : UInt32 :=
  UInt32.ofNat (b0.toNat + 256 * (b1.toNat + 256 * (b2.toNat + 256 * b3.toNat)))

/-- `BufferReader.ToStruct<FrameHttp20>`: throws on fewer than nine bytes. -/
def toStruct : List UInt8 → Except Fault FrameHttp20
  | b0 :: b1 :: b2 :: b3 :: b4 :: b5 :: b6 :: b7 :: b8 :: _ =>
    .ok ⟨⟨b0, b1, b2⟩, b3, b4, littleEndian b5 b6 b7 b8⟩
  | _ => .error (.raised .indexOutOfRange)

def getTypeName (f : FrameHttp20) : Except Fault String :=
  match f.type.toNat with
  | 0x00 => .ok "DATA"
  | 0x01 => .ok "HEADERS"
  | 0x02 => .ok "PRIORITY"
  | 0x03 => .ok "RST_STREAM"
  | 0x04 => .ok "SETTINGS"
  | 0x05 => .ok "PUSH_PROMISE"
  | 0x06 => .ok "PING"
  | 0x07 => .ok "GOAWAY"
  | 0x08 => .ok "WINDOW_UPDATE"
  | 0x09 => .ok "CONTINUATION"
  | _ => .error (.raised .argumentOutOfRange)

end FrameHttp20

structure MapMessageHttp20 where
  frame : FrameHttp20
  payload : List UInt8
  deriving DecidableEq, Repr

structure EnumeratorFromBufferForHttp20 where
  mem : List UInt8
  current : Option MapMessageHttp20 := none
  deriving DecidableEq, Repr

namespace EnumeratorFromBufferForHttp20

def moveNext (e : EnumeratorFromBufferForHttp20) :
    Except Fault (EnumeratorFromBufferForHttp20 × Bool) := do
  let frame ← FrameHttp20.toStruct e.mem
  let length := frame.length.toInt
  let _ ← frame.getTypeName -- part of the line that is logged
  let mem ← sliceFrom e.mem FRAME_SIZE
  let payload ← sliceTo mem length
  .ok (⟨mem, some ⟨frame, payload⟩⟩, true)

theorem moveNext_inv {e e' : EnumeratorFromBufferForHttp20} {more : Bool}
    (h : e.moveNext = .ok (e', more)) :
    more = true ∧ e.mem.length = FRAME_SIZE + e'.mem.length := by
  obtain ⟨frame, -, h⟩ := do_ok_iff.mp h
  obtain ⟨_, -, h⟩ := do_ok_iff.mp h
  obtain ⟨mem, hmem, h⟩ := do_ok_iff.mp h
  obtain ⟨payload, -, h⟩ := do_ok_iff.mp h
  cases h
  obtain ⟨-, hle, rfl⟩ := sliceFrom_inv hmem
  refine ⟨rfl, ?_⟩
  simp only [List.length_drop, Int.toNat_natCast]
  omega

/-- What a `foreach` over the frames is given. -/
def enumerate (e : EnumeratorFromBufferForHttp20) : Except Fault (List MapMessageHttp20) :=
  match _h : e.moveNext with
  | .error fault => .error fault
  | .ok (_, false) => .ok []
  | .ok (e', true) => (enumerate e').map (e'.current.toList ++ ·)
termination_by e.mem.length
decreasing_by
  have hsize : 0 < FRAME_SIZE := by decide
  have := (moveNext_inv _h).2
  omega

end EnumeratorFromBufferForHttp20

/-- Nine header bytes, then as many bytes as the first three of them declare. -/
def IsFrame (b : List UInt8) : Prop :=
  ∃ frame, FrameHttp20.toStruct b = .ok frame ∧ b.length = FRAME_SIZE + frame.length.toInt

structure FrameStream where
  frames : List (List UInt8)
  wellFormed : ∀ f ∈ frames, IsFrame f

/-- The enumeration ends, and each frame was given once, with its own header and payload. -/
def Partitions (s : FrameStream) : Prop :=
  ∃ maps, EnumeratorFromBufferForHttp20.enumerate ⟨s.frames.flatten, none⟩ = .ok maps ∧
    List.Forall₂ (fun f (m : MapMessageHttp20) =>
      FrameHttp20.toStruct f = .ok m.frame ∧ m.payload = f.drop FRAME_SIZE) s.frames maps

namespace EnumeratorFromBufferForHttp20

theorem toStruct_append {data tail : List UInt8} {frame : FrameHttp20}
    (h : FrameHttp20.toStruct data = .ok frame) :
    FrameHttp20.toStruct (data ++ tail) = .ok frame := by
  unfold FrameHttp20.toStruct at h
  split at h
  · cases h
    rfl
  · cases h

theorem moveNext_frame {f tail : List UInt8} {frame : FrameHttp20} {name : String}
    (current : Option MapMessageHttp20) (hs : FrameHttp20.toStruct f = .ok frame)
    (hlen : f.length = FRAME_SIZE + frame.length.toInt) (hname : frame.getTypeName = .ok name) :
    moveNext ⟨f ++ tail, current⟩ =
      .ok (⟨f.drop FRAME_SIZE ++ tail, some ⟨frame, f.drop FRAME_SIZE⟩⟩, true) := by
  have hsize : ((f.take FRAME_SIZE).length : ℤ) = FRAME_SIZE := by
    rw [List.length_take]
    omega
  have hpayload : ((f.drop FRAME_SIZE).length : ℤ) = frame.length.toInt := by
    rw [List.length_drop]
    omega
  have hfrom : sliceFrom (f ++ tail) FRAME_SIZE = .ok (f.drop FRAME_SIZE ++ tail) := by
    conv_lhs => rw [← List.take_append_drop FRAME_SIZE f, List.append_assoc]
    rw [← hsize, sliceFrom_append]
  have hto : sliceTo (f.drop FRAME_SIZE ++ tail) frame.length.toInt =
      .ok (f.drop FRAME_SIZE) := by
    rw [← hpayload, sliceTo_append]
  rw [moveNext, do_of_ok (toStruct_append hs), do_of_ok hname, do_of_ok hfrom, do_of_ok hto]

/-- No enumeration ends but by an exception. -/
theorem enumerate_throws (e : EnumeratorFromBufferForHttp20) :
    ∃ fault, e.enumerate = .error fault := by
  induction e using enumerate.induct with
  | case1 e fault herror =>
    refine ⟨fault, ?_⟩
    rw [enumerate]
    split <;> simp_all
  | case2 e e' hfalse => exact absurd (moveNext_inv hfalse).1 (by decide)
  | case3 e e' hnext ih =>
    obtain ⟨fault, hfault⟩ := ih
    refine ⟨fault, ?_⟩
    rw [enumerate]
    split <;> simp_all [Except.map]

end EnumeratorFromBufferForHttp20

theorem not_partitions (s : FrameStream) : ¬ Partitions s := by
  rintro ⟨maps, hrun, -⟩
  obtain ⟨fault, hfault⟩ := EnumeratorFromBufferForHttp20.enumerate_throws ⟨s.frames.flatten, none⟩
  rw [hfault] at hrun
  cases hrun

/-- A single `DATA` frame with one payload byte. -/
theorem not_partitions_one_data :
    ¬ Partitions ⟨[[0, 0, 1, 0, 0, 0, 0, 0, 1, 0xAA]], by
      simp [IsFrame, FrameHttp20.toStruct, Bytes3.toInt, FRAME_SIZE]⟩ := by
  rintro ⟨maps, hrun, -⟩
  obtain ⟨fault, hfault⟩ := EnumeratorFromBufferForHttp20.enumerate_throws
    ⟨[[0, 0, 1, 0, 0, 0, 0, 0, 1, 0xAA]].flatten, none⟩
  rw [hfault] at hrun
  cases hrun

end DecodingProxy.Http20
