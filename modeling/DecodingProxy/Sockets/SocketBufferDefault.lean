import DecodingProxy.Lib.Runs
import DecodingProxy.Runtime.ArrayPool
import Mathlib.Tactic.Common

/-!
# `SocketBufferDefault`

A rented array with the unread bytes in front. `length` counts them and `leftFree` the rest of
the array; each is kept up by itself.
-/

namespace DecodingProxy.Sockets
open DecodingProxy.Runtime DecodingProxy.Arrays DecodingProxy.Runs

structure SocketBufferDefault where
  isDisposed : Bool := true
  length : ℤ := 0
  buffer : List UInt8 := []
  leftFree : ℤ := 0
  deriving DecidableEq, Repr

namespace SocketBufferDefault

def exSize : Fault := .thrown .argument "Buffer size must Greater than 0"
def exNotDisposed : Fault := .thrown .objectDisposed "Object must be disposed befire reuse"
def exDisposed : Fault := .thrown .objectDisposed "Object is Already Disposed"

def initilize (pool : ArrayPool) (size : ℤ) (b : SocketBufferDefault) :
    Except Fault SocketBufferDefault :=
  if size ≤ 0 then .error exSize
  else if ¬ b.isDisposed then .error exNotDisposed
  else do
    let newBuffer ← pool.rent size
    .ok { b with isDisposed := false, buffer := newBuffer, leftFree := newBuffer.length }

def dispose (b : SocketBufferDefault) : Except Fault SocketBufferDefault :=
  if b.isDisposed then .error exDisposed
  else do
    let _ ← (if b.buffer.length > 0 then ArrayPool.giveBack b.buffer else .ok ())
    .ok { b with isDisposed := true, buffer := [] }

/-- `new Memory<byte>(buffer, start, length)`, as the place and the size of the part. -/
def memory (b : SocketBufferDefault) (start length : ℤ) : Except Fault (ℕ × ℕ) :=
  if start < 0 ∨ length < 0 ∨ b.buffer.length < start + length then
    .error (.raised .argumentOutOfRange)
  else .ok (start.toNat, length.toNat)

def getMemory (b : SocketBufferDefault) : Except Fault (ℕ × ℕ) := b.memory b.length b.leftFree

def peekAsReadOnlyMemory (b : SocketBufferDefault) : Except Fault (List UInt8) := do
  let (start, length) ← b.memory 0 b.length
  .ok ((b.buffer.drop start).take length)

def advance (readed : ℕ) (b : SocketBufferDefault) : SocketBufferDefault :=
  { b with length := int32 (b.length + readed), leftFree := int32 (b.leftFree - readed) }

/-- The bytes copied to a memory of `size` bytes. -/
def transferTo (size : ℕ) (b : SocketBufferDefault) :
    Except Fault (List UInt8 × SocketBufferDefault) :=
  if b.length > size then do
    let diff := int32 (b.length - size)
    let (start, length) ← b.memory 0 size
    -- `Array.Copy` checks its range by itself
    if b.buffer.length < size + diff then .error (.raised .argument)
    else .ok ((b.buffer.drop start).take length, { b with
      length := diff
      buffer := writeAt b.buffer 0 ((b.buffer.drop size).take diff.toNat)
      leftFree := int32 (b.leftFree + size) })
  else do
    let (start, length) ← b.memory 0 b.length
    .ok ((b.buffer.drop start).take length,
      { b with length := 0, leftFree := b.buffer.length })

/-- A writer asks for the free memory, writes as much of `bytes` as it holds, and advances. -/
def fill (bytes : List UInt8) (b : SocketBufferDefault) :
    Except Fault (List UInt8 × SocketBufferDefault) := do
  let (start, room) ← b.getMemory
  let written := bytes.take room
  .ok (written, { b with buffer := writeAt b.buffer start written }.advance written.length)

/-- The buffer is in use and holds `content`. -/
structure Holds (content : List UInt8) (b : SocketBufferDefault) : Prop where
  inUse : b.isDisposed = false
  fits : b.buffer.length ≤ arrayMaxLength
  returnable : returnable b.buffer.length = true
  room : content.length ≤ b.buffer.length
  unread : b.buffer.take content.length = content
  length : b.length = content.length
  leftFree : b.leftFree = b.buffer.length - content.length

variable {content : List UInt8} {b : SocketBufferDefault}

theorem memory_ok {b : SocketBufferDefault} {start length : ℕ} (h : start + length ≤ b.buffer.length) :
    b.memory start length = .ok (start, length) := by
  unfold memory
  rw [if_neg (by omega), Int.toNat_natCast, Int.toNat_natCast]

theorem memory_front_ok {b : SocketBufferDefault} {length : ℕ} (h : length ≤ b.buffer.length) :
    b.memory 0 length = .ok (0, length) := by
  have hfront : b.memory ((0 : ℕ) : ℤ) length = .ok (0, length) := memory_ok (by omega)
  simpa using hfront

theorem initilize_ok (pool : ArrayPool) {size : ℤ} (hpos : 0 < size)
    (hfits : size ≤ arrayMaxLength) (hdisposed : b.isDisposed = true) :
    ∃ b', b.initilize pool size = .ok b' ∧ b'.isDisposed = false ∧ b'.length = b.length ∧
      b'.leftFree = b'.buffer.length ∧ (b.length = 0 → Holds [] b') := by
  obtain ⟨n, rfl⟩ := Int.eq_ofNat_of_zero_le hpos.le
  have hrent := pool.rent_ok (Int.ofNat_le.mp hfits)
  obtain ⟨-, -, hmax, hreturnable⟩ := ArrayPool.rent_inv hrent
  have hinit : b.initilize pool n = .ok { b with
      isDisposed := false
      buffer := pool.contents n
      leftFree := (pool.contents n).length } := by
    unfold initilize
    rw [if_neg (by omega), if_neg (by simp [hdisposed]), do_of_ok hrent]
  refine ⟨_, hinit, rfl, rfl, rfl, fun hzero => ⟨rfl, hmax, hreturnable, Nat.zero_le _, rfl, hzero, ?_⟩⟩
  simp

theorem initilize_inv {pool : ArrayPool} {size : ℤ} {b' : SocketBufferDefault}
    (h : b.initilize pool size = .ok b') : 0 < size ∧ size ≤ arrayMaxLength := by
  unfold initilize at h
  split_ifs at h with hsize
  obtain ⟨newBuffer, hrent, -⟩ := do_ok_iff.mp h
  unfold ArrayPool.rent at hrent
  split_ifs at hrent with hneg hmax
  exact ⟨by omega, by omega⟩

theorem Holds.dispose (h : Holds content b) :
    ∃ b', b.dispose = .ok b' ∧ b'.isDisposed = true ∧ b'.length = content.length := by
  have hback : (if b.buffer.length > 0 then ArrayPool.giveBack b.buffer else .ok ()) =
      (.ok () : Except Fault Unit) := by
    split_ifs
    · rw [ArrayPool.giveBack, if_pos h.returnable]
    · rfl
  unfold SocketBufferDefault.dispose
  rw [if_neg (by simp [h.inUse]), do_of_ok hback]
  exact ⟨_, rfl, rfl, h.length⟩

theorem Holds.peek (h : Holds content b) : b.peekAsReadOnlyMemory = .ok content := by
  have hroom := h.room
  have hmemory : b.memory 0 b.length = .ok (0, content.length) := by
    rw [h.length]
    exact memory_front_ok hroom
  unfold peekAsReadOnlyMemory
  rw [do_of_ok hmemory]
  simp only [List.drop_zero, h.unread]

theorem peek_length {left : List UInt8} (h : b.peekAsReadOnlyMemory = .ok left) :
    (left.length : ℤ) = b.length := by
  obtain ⟨⟨start, count⟩, hmemory, hleft⟩ := do_ok_iff.mp h
  unfold memory at hmemory
  split_ifs at hmemory with hout
  cases hmemory
  cases hleft
  simp only [Int.toNat_zero, List.drop_zero, List.length_take]
  omega

theorem Holds.advance_zero (h : Holds content b) : b.advance 0 = b := by
  have hroom := h.room
  have hfits := h.fits
  have hlength := h.length
  have hfree := h.leftFree
  have hmax : arrayMaxLength < 2 ^ 31 := by decide
  unfold advance
  rw [Nat.cast_zero, add_zero, sub_zero, int32_of_range (by omega) (by omega),
    int32_of_range (by omega) (by omega)]

theorem Holds.fill (h : Holds content b) (bytes : List UInt8) :
    ∃ written b', b.fill bytes = .ok (written, b') ∧ Holds (content ++ written) b' := by
  have hroom := h.room
  have hfits := h.fits
  have hmax : arrayMaxLength < 2 ^ 31 := by decide
  have hmemory : b.getMemory = .ok (content.length, b.buffer.length - content.length) := by
    rw [getMemory, h.length, h.leftFree, ← Nat.cast_sub hroom]
    exact memory_ok (by omega)
  have hwritten : content.length + (bytes.take (b.buffer.length - content.length)).length ≤
      b.buffer.length := by
    rw [List.length_take]
    omega
  have hlen := writeAt_length hwritten
  unfold SocketBufferDefault.fill
  rw [do_of_ok hmemory]
  dsimp only
  generalize bytes.take (b.buffer.length - content.length) = written at hwritten hlen ⊢
  refine ⟨written, _, rfl, h.inUse, ?_, ?_, ?_, ?_, ?_, ?_⟩
  · simp only [advance, hlen, hfits]
  · simp only [advance, hlen, h.returnable]
  · simp only [advance, hlen, List.length_append]
    exact hwritten
  · simp only [advance, List.length_append, take_writeAt hroom, h.unread]
  · simp only [advance, h.length, List.length_append]
    rw [int32_of_range (by omega) (by omega)]
    omega
  · simp only [advance, h.leftFree, hlen, List.length_append]
    rw [int32_of_range (by omega) (by omega)]
    omega

theorem Holds.transferTo (h : Holds content b) (size : ℕ) :
    ∃ b', b.transferTo size = .ok (content.take size, b') ∧ Holds (content.drop size) b' := by
  have hroom := h.room
  have hfits := h.fits
  have hmax : arrayMaxLength < 2 ^ 31 := by decide
  have hlength := h.length
  unfold SocketBufferDefault.transferTo
  by_cases hlong : size < content.length
  · have hdiff : int32 (b.length - size) = ((content.length - size : ℕ) : ℤ) := by
      rw [hlength, int32_of_range (by omega) (by omega)]
      omega
    have hfront : b.memory 0 size = .ok (0, size) := memory_front_ok (by omega)
    have hrest : (b.buffer.drop size).take (content.length - size) = content.drop size := by
      rw [← List.drop_take, h.unread]
    have hwritten : 0 + (content.drop size).length ≤ b.buffer.length := by
      rw [List.length_drop]
      omega
    have hlen := writeAt_length hwritten
    rw [if_pos (by omega), hdiff]
    dsimp only
    have htake : (b.buffer.drop 0).take size = content.take size := by
      rw [← h.unread, List.take_take, Nat.min_eq_left hlong.le, List.drop_zero]
    rw [do_of_ok hfront]
    dsimp only
    rw [if_neg (by omega), Int.toNat_natCast, htake, hrest]
    refine ⟨_, rfl, h.inUse, ?_, ?_, ?_, ?_, ?_, ?_⟩
    · simp only [hlen, hfits]
    · simp only [hlen, h.returnable]
    · simp only [hlen]
      omega
    · simpa using @take_writeAt _ b.buffer (content.drop size) 0 (Nat.zero_le _)
    · simp only [List.length_drop]
    · simp only [hlen, List.length_drop, h.leftFree]
      rw [int32_of_range (by omega) (by omega)]
      omega
  · have hall : b.memory 0 b.length = .ok (0, content.length) := by
      rw [hlength]
      exact memory_front_ok hroom
    rw [if_neg (by omega), do_of_ok hall, List.take_of_length_le (Nat.not_lt.mp hlong),
      List.drop_of_length_le (Nat.not_lt.mp hlong)]
    simp only [List.drop_zero, h.unread]
    exact ⟨_, rfl, h.inUse, hfits, h.returnable, Nat.zero_le _, rfl, rfl, by simp⟩

end SocketBufferDefault

end DecodingProxy.Sockets
