import DecodingProxy.Runtime.ArrayPool
import Mathlib.Tactic.Common

/-!
# `QueueCircled<T>`

A queue of fixed size in one array. `head` is the first element, `tail` the cell of the
next `Enqueue`, `last` the last element; every method moves these by hand. `debug` says
whether the build defines `DEBUG`.
-/

namespace DecodingProxy.Collections
open DecodingProxy.Runtime

variable {T : Type}

/-- `items[index]`. -/
def elementAt (items : List T) (index : ℤ) : Except Fault T :=
  if index < 0 then .error (.raised .indexOutOfRange)
  else
    match items[index.toNat]? with
    | some item => .ok item
    | none => .error (.raised .indexOutOfRange)

/-- `items[index] = item`. -/
def setElement (items : List T) (index : ℤ) (item : T) : Except Fault (List T) :=
  if index < 0 ∨ items.length ≤ index then .error (.raised .indexOutOfRange)
  else .ok (items.set index.toNat item)

structure QueueCircled (T : Type) where
  items : List T
  count : ℤ := 0
  /-- Capacity -/
  capacity : ℤ
  /-- Which cell is next to enqueue. -/
  tail : ℤ := 0
  head : ℤ := 0
  /-- Index of the last item. -/
  last : ℤ := 0
  deriving DecidableEq, Repr

namespace QueueCircled

/-- The new array has default elements. -/
def new [Inhabited T] (capacity : ℤ) : Except Fault (QueueCircled T) :=
  if capacity < 0 then .error (.raised .overflow)
  else if arrayMaxLength < capacity then .error (.raised .outOfMemory)
  else .ok { items := List.replicate capacity.toNat default, capacity }

def fill (item : T) (q : QueueCircled T) : QueueCircled T :=
  { q with
    count := q.capacity
    head := 0
    tail := 0
    last := int32 (q.capacity - 1)
    items := q.items.map fun _ => item }

/-- A `DEBUG` build clears the cell it dequeues. -/
def clearHead [Inhabited T] (debug : Bool) (q : QueueCircled T) : Except Fault (List T) :=
  if debug then setElement q.items q.head default else .ok q.items

def dequeue [Inhabited T] (debug : Bool) (q : QueueCircled T) :
    Except Fault (QueueCircled T × T) := do
  let result ← elementAt q.items q.head
  let items ← q.clearHead debug
  let head := (int32 (q.head + 1)).tmod q.capacity
  let count := int32 (q.count - 1)
  if debug ∧ count < 0 then
    .error (.thrown .argumentOutOfRange "Keep calling dequeue when no items left")
  else .ok ({ q with items, head, count }, result)

def enqueue (item : T) (q : QueueCircled T) : Except Fault (QueueCircled T) := do
  let items ← setElement q.items q.tail item
  let count := int32 (q.count + 1)
  if q.capacity < count then
    let head := (int32 (q.head + 1)).tmod q.capacity
    .ok { q with items, last := q.head, head, tail := head, count := q.capacity }
  else
    .ok { q with items, last := q.tail, tail := (int32 (q.tail + 1)).tmod q.capacity, count }

def peak (q : QueueCircled T) : Except Fault T := elementAt q.items q.head

def peakFromEnd (q : QueueCircled T) : Except Fault T := elementAt q.items q.last

def peakDoubleFault : Fault :=
  .thrown .argumentOutOfRange "For peak double at least 2 items must be in queue"

def peakDouble (debug : Bool) (q : QueueCircled T) : Except Fault (T × T) :=
  if debug ∧ q.count < 2 then .error peakDoubleFault
  else do
    let first ← elementAt q.items q.head
    let second ← elementAt q.items ((int32 (q.head + 1)).tmod q.capacity)
    .ok (first, second)

def peakDoubleFromEnd (debug : Bool) (q : QueueCircled T) : Except Fault (T × T) :=
  if debug ∧ q.count < 2 then .error peakDoubleFault
  else do
    let indexOfPenultimate := int32 (q.last - 1)
    let indexOfPenultimate :=
      if indexOfPenultimate < 0 then int32 (q.capacity + indexOfPenultimate)
      else indexOfPenultimate
    let penultimate ← elementAt q.items indexOfPenultimate
    let last ← elementAt q.items q.last
    .ok (penultimate, last)

def sequenceIndexToActualIndex (q : QueueCircled T) (sequenceIndex : ℤ) : Except Fault ℤ :=
  if sequenceIndex < q.capacity then
    let index := int32 (q.head + sequenceIndex)
    .ok (if index < q.capacity then index else index.tmod q.capacity)
  else .error (.thrown .argumentOutOfRange s!"Given index {sequenceIndex}")

def getByIndex (q : QueueCircled T) (index : ℤ) : Except Fault T := do
  let actualIndex ← q.sequenceIndexToActualIndex index
  elementAt q.items actualIndex

def setByIndex (item : T) (index : ℤ) (q : QueueCircled T) : Except Fault (QueueCircled T) := do
  let actualIndex ← q.sequenceIndexToActualIndex index
  let items ← setElement q.items actualIndex item
  .ok { q with items }

def shiftForward (countToShift : ℤ) (q : QueueCircled T) : QueueCircled T :=
  { q with
    head := (int32 (q.head + countToShift)).tmod q.capacity
    tail := (int32 (q.tail + countToShift)).tmod q.capacity
    last := (int32 (q.last + countToShift)).tmod q.capacity }

def shiftBackward (countToShift : ℤ) (q : QueueCircled T) : QueueCircled T :=
  let shift := countToShift.tmod q.capacity
  let head := int32 (q.head - shift)
  let head := if head < 0 then int32 (q.capacity + head) else head
  let tail := int32 (q.tail - shift)
  let tail := if tail < 0 then int32 (q.capacity + tail) else tail
  let last := int32 (q.last - shift)
  let last := if last < 0 then int32 (q.capacity + shift) else last
  { q with head, tail, last }

/-- The `ref` the next four methods return is the index of its cell. -/
def refAt (q : QueueCircled T) (index : ℤ) : Except Fault (QueueCircled T × ℤ) := do
  let _ ← elementAt q.items index
  .ok (q, index)

def extendAfterLast (q : QueueCircled T) : Except Fault (QueueCircled T × ℤ) :=
  if q.count < q.capacity then
    refAt { q with
      last := q.tail
      tail := (int32 (q.tail + 1)).tmod q.capacity
      count := int32 (q.count + 1) } q.tail
  else .error (.thrown .overflow s!"Full capacity={q.capacity}")

def extendBeforeHead (q : QueueCircled T) : Except Fault (QueueCircled T × ℤ) :=
  if q.count < q.capacity then
    let head := int32 (q.head - 1)
    let head := if head < 0 then int32 (q.capacity + head) else head
    refAt { q with head, count := int32 (q.count + 1) } head
  else .error (.thrown .argumentOutOfRange "Full capacity")

def shrinkLast (q : QueueCircled T) : Except Fault (QueueCircled T × ℤ) :=
  if q.count > 0 then
    let last := int32 (q.last - 1)
    let last := if last < 0 then int32 (last + q.capacity) else last
    refAt { q with tail := q.last, last, count := int32 (q.count - 1) } q.last
  else .error (.thrown .argumentOutOfRange "Collection is Empty")

def shrinkHead (q : QueueCircled T) : Except Fault (QueueCircled T × ℤ) :=
  if q.count > 0 then
    refAt { q with
      head := (int32 (q.head + 1)).tmod q.capacity
      count := int32 (q.count - 1) } q.head
  else .error (.thrown .argumentOutOfRange "Collection is empty")

/-- The loop of `IndexOf` from index `i` on, with `left` elements to look at. -/
def indexOfFrom [BEq T] (q : QueueCircled T) (item : T) (i : ℕ) : ℕ → Except Fault ℤ
  | 0 => .ok (-1)
  | left + 1 => do
    let element ← q.getByIndex i
    if element == item then .ok i else q.indexOfFrom item (i + 1) left

def indexOf [BEq T] (q : QueueCircled T) (item : T) : Except Fault ℤ :=
  q.indexOfFrom item 0 q.count.toNat

def reset (q : QueueCircled T) : QueueCircled T :=
  { q with head := 0, tail := 0, last := 0, count := 0 }

end QueueCircled

end DecodingProxy.Collections
