import DecodingProxy.Collections.QueuePointers
import DecodingProxy.Lib.Arrays

/-!
# `QueueCircled<T>.RemoveAt`

The elements behind the removed one move one cell down. The copies leave out the last of them
where only one or two are to be moved, and a full queue that is wrapped is taken for one that
is not.
-/

namespace DecodingProxy.Collections
open DecodingProxy.Arrays DecodingProxy.Rings DecodingProxy.Runs DecodingProxy.Runtime

variable {T : Type}

/-- `Array.Copy(items, sourceIndex, items, destinationIndex, length)`. -/
def copyWithin (items : List T) (sourceIndex destinationIndex length : ℤ) :
    Except Fault (List T) :=
  if sourceIndex < 0 ∨ destinationIndex < 0 ∨ length < 0 then
    .error (.raised .argumentOutOfRange)
  else if items.length < sourceIndex + length ∨ items.length < destinationIndex + length then
    .error (.raised .argument)
  else .ok (writeAt items destinationIndex.toNat
    ((items.drop sourceIndex.toNat).take length.toNat))

namespace QueueCircled

/-- What a fault leaves of the queue. -/
def leaving {α : Type} (q : QueueCircled T) (x : Except Fault α) :
    Except (Fault × QueueCircled T) α :=
  x.mapError fun fault => (fault, q)

/-- `Clear`. -/
def clear [Inhabited T] (q : QueueCircled T) : QueueCircled T :=
  { q.reset with items := List.replicate q.items.length default }

def setByActualIndex (item : T) (index : ℤ) (q : QueueCircled T) :
    Except Fault (QueueCircled T) := do
  let items ← setElement q.items index item
  .ok { q with items }

theorem leaving_ok {α : Type} (q : QueueCircled T) (a : α) : q.leaving (.ok a) = .ok a := rfl

/-- The removed element goes to the cell of the last one, which the queue gives up. -/
def giveUpLast (preserve : T) (q : QueueCircled T) :
    Except (Fault × QueueCircled T) (QueueCircled T) := do
  let items ← q.leaving (setElement q.items q.last preserve)
  let last := int32 (q.last - 1)
  let last := if last < 0 then int32 (last + q.capacity) else last
  .ok { q with items, tail := q.last, last, count := int32 (q.count - 1) }

def simpleSlidingCopy (actualIndex : ℤ) (preserve : T) (q : QueueCircled T) :
    Except (Fault × QueueCircled T) (QueueCircled T) := do
  let indexToStartCopy := int32 (actualIndex + 1)
  let items ← q.leaving (
    if indexToStartCopy < q.last then
      copyWithin q.items indexToStartCopy actualIndex (int32 (q.last - actualIndex))
    else .ok q.items)
  giveUpLast preserve { q with items }

/-- The element is in front of the wrap: the first cell goes to the last cell of the array. -/
def removeRightPart (actualIndex : ℤ) (preserve : T) (q : QueueCircled T) :
    Except (Fault × QueueCircled T) (QueueCircled T) := do
  let indexToCopyAtRightPart := int32 (actualIndex + 1)
  let lastElement := int32 (q.capacity - 1)
  let items ← q.leaving (
    if indexToCopyAtRightPart < q.capacity then
      copyWithin q.items indexToCopyAtRightPart actualIndex (int32 (lastElement - actualIndex))
    else .ok q.items)
  let q := { q with items }
  let first ← q.leaving (elementAt q.items 0)
  let items ← q.leaving (setElement q.items lastElement first)
  let q := { q with items }
  let items ← q.leaving (
    if 1 < q.last then copyWithin q.items 1 0 (int32 (q.tail - 1)) else .ok q.items)
  giveUpLast preserve { q with items }

def removeAt (index : ℤ) (q : QueueCircled T) :
    Except (Fault × QueueCircled T) (QueueCircled T) := do
  let actualIndex ← q.leaving (q.sequenceIndexToActualIndex index)
  let preserve ← q.leaving (elementAt q.items actualIndex)
  if q.tail < q.head then
    if q.tail ≤ actualIndex ∧ actualIndex < q.head then
      .error (.raised .argumentOutOfRange, q)
    else if actualIndex < q.head then simpleSlidingCopy actualIndex preserve q
    else removeRightPart actualIndex preserve q
  else if q.head < q.tail ∧ (actualIndex < q.head ∨ q.tail ≤ actualIndex) then
    .error (.raised .argumentOutOfRange, q)
  else simpleSlidingCopy actualIndex preserve q

/-- The list between the pointers. -/
def contents (q : QueueCircled T) : List T := window q.items q.head.toNat q.count.toNat

end QueueCircled

/-- Exactly the element at `index` is gone, and the pointers agree. -/
def RemovesAt (n : ℕ) (q : QueueCircled T) (index : ℕ) : Prop :=
  ∃ q', q.removeAt index = .ok q' ∧ q'.contents = q.contents.eraseIdx index ∧
    q'.count = q.count - 1 ∧ PointersAgree n q'

/-- From `index` on all elements of the list are equal. -/
def AllEqualFrom (l : List T) (index : ℕ) : Prop :=
  ∀ j, index ≤ j → j + 1 < l.length → l[j]? = l[j + 1]?

/-- The queue is wrapped. In front of the wrap, the queue must not end with the array unless the
array has two cells, and two elements behind the wrap must be equal. Else the last but one may
only be removed if it is equal to the last one, and of a full queue an element in front of the
wrap only if all behind it are equal to it. -/
def Removable (n : ℕ) (q : QueueCircled T) (index : ℕ) : Prop :=
  q.last = (q.tail - 1) % n ∧ q.head + index < 2 ^ 31 ∧
    if q.tail < q.head ∧ q.head + index < n then
      (q.tail = 0 → n = 2) ∧ (q.tail = 2 → AllEqualFrom q.contents (q.contents.length - 2))
    else if q.tail = q.head ∧ 0 < q.head ∧ q.head + index < n then
      AllEqualFrom q.contents index
    else index + 2 = q.contents.length → AllEqualFrom q.contents index

/-- Everything a caller does with a queue. -/
inductive QueueAction (T : Type)
  | operation (made : QueueOperation T)
  | removeAt (index : ℕ)
  | clear
  | setByActualIndex (index : ℤ) (item : T)
  deriving DecidableEq, Repr

namespace QueueAction

/-- A removal that throws may have moved elements. The shifts divide by the capacity. -/
def step [BEq T] [Inhabited T] (debug : Bool) (q : QueueCircled T) :
    QueueAction T → Except Fault (QueueCircled T)
  | .operation made =>
    match made with
    | .call .dequeue =>
      -- the check of a `DEBUG` build comes after the changes
      match q.clearHead debug, q.dequeue false with
      | .ok items, .ok (q, _) => .ok { q with items }
      | _, _ => .ok q
    | .shiftForward _ | .shiftBackward _ =>
      if q.capacity = 0 then .error (.raised .divideByZero) else made.step debug q
    | _ => made.step debug q
  | .removeAt index =>
    match q.removeAt index with
    | .ok q => .ok q
    | .error (_, q) => .ok q
  | .clear => .ok q.clear
  | .setByActualIndex index item => q.setByActualIndex item index

def Allowed (q : QueueCircled T) : QueueAction T → Prop
  | .operation made => made.Allowed q
  | .removeAt index => index < q.count
  | .clear | .setByActualIndex _ _ => True

/-- A shift takes neither end out of the cells, and where `last` becomes the end it is not
stale. -/
def InPlace (n : ℕ) (q : QueueCircled T) : QueueAction T → Prop
  | .operation (.shiftForward countToShift) =>
    n = 1 ∨ ∀ p ∈ [q.head, q.tail], 0 ≤ p + countToShift ∧ p + countToShift < 2 ^ 31
  | .operation (.shiftBackward countToShift) =>
    ∀ p ∈ [q.head, q.tail], p - countToShift.tmod n < n
  | .operation .shrinkLast | .removeAt _ => q.last = (q.tail - 1) % n
  | _ => True

instance (q : QueueCircled T) : (action : QueueAction T) → Decidable (action.Allowed q)
  | .operation made => inferInstanceAs (Decidable (made.Allowed q))
  | .removeAt index => inferInstanceAs (Decidable ((index : ℤ) < q.count))
  | .clear | .setByActualIndex _ _ => isTrue trivial

instance (n : ℕ) (q : QueueCircled T) : (action : QueueAction T) → Decidable (action.InPlace n q)
  | .operation (.shiftForward k) => inferInstanceAs (Decidable (n = 1 ∨
      ∀ p ∈ [q.head, q.tail], 0 ≤ p + k ∧ p + k < 2 ^ 31))
  | .operation (.shiftBackward k) => inferInstanceAs (Decidable
      (∀ p ∈ [q.head, q.tail], p - k.tmod n < n))
  | .operation .shrinkLast | .removeAt _ =>
    inferInstanceAs (Decidable (q.last = (q.tail - 1) % n))
  | .operation (.call _) | .operation .extendAfterLast | .operation .extendBeforeHead
  | .operation .shrinkHead | .clear | .setByActualIndex _ _ => isTrue trivial

end QueueAction

/-! ### The copies -/

theorem copyWithin_shiftDown {items : List T} {first last : ℕ} (hle : first ≤ last)
    (hlast : last < items.length) :
    copyWithin items ((first + 1 : ℕ) : ℤ) first ((last - first : ℕ) : ℤ) =
      .ok (shiftDown items first last) := by
  unfold copyWithin
  rw [if_neg (by omega), if_neg (by omega), Int.toNat_natCast, Int.toNat_natCast,
    Int.toNat_natCast]
  rfl

theorem eraseIdx_eq_dropLast_iff {l : List T} {i : ℕ} (hi : i < l.length) :
    l.dropLast = l.eraseIdx i ↔ AllEqualFrom l i := by
  constructor
  · intro heq j hj hlt
    have hget : l.dropLast[j]? = (l.eraseIdx i)[j]? := by rw [heq]
    rwa [List.getElem?_dropLast, if_pos (by omega), List.getElem?_eraseIdx_of_ge hj] at hget
  · intro hall
    apply List.ext_getElem?
    intro j
    rw [List.getElem?_dropLast, List.getElem?_eraseIdx]
    split_ifs with hend hfront hfront
    · rfl
    · exact hall j (by omega) (by omega)
    · omega
    · exact (List.getElem?_eq_none (by omega)).symm

/-- The queue without its last cell. -/
def retracted (n : ℕ) (items : List T) (q : QueueCircled T) : QueueCircled T :=
  { q with items, tail := q.last, last := (q.last - 1) % n, count := q.count - 1 }

section Removal
variable {n h i : ℕ} {q : QueueCircled T}

theorem Pointers.retracted (hp : Pointers n q) (hsome : 0 < q.count) {items : List T}
    (hlen : items.length = n) : Pointers n (retracted n items q) := by
  have hcount := hp.count
  refine ⟨⟨hlen, hp.capacity, hp.fits, hp.head, ?_, ?_⟩, rfl⟩
  · simp only [Collections.retracted]
    omega
  · simp only [Collections.retracted]
    rw [hp.last, hp.tail, Int.emod_sub_emod]
    congr 1
    omega

theorem Pointers.giveUpLast (hp : Pointers n q) (preserve : T) (hsome : 0 < q.count)
    {items : List T} (hlen : items.length = n) :
    QueueCircled.giveUpLast preserve { q with items } =
      .ok (Collections.retracted n (items.set q.last.toNat preserve) q) := by
  have hmax := arrayMaxLength_lt
  have hfits := hp.fits
  have hcount := hp.count
  have hlast := hp.last_range
  have hset : setElement items q.last preserve = .ok (items.set q.last.toNat preserve) := by
    unfold setElement
    rw [if_neg (by omega)]
  have hprev : (if int32 (q.last - 1) < 0 then int32 (int32 (q.last - 1) + q.capacity)
      else int32 (q.last - 1)) = (q.last - 1) % n := by
    rw [Int.add_comm _ q.capacity, hp.capacity, back_eq hfits hlast (by omega) (by omega)]
  have hless : int32 (q.count - 1) = q.count - 1 := int32_of_range (by omega) (by omega)
  unfold QueueCircled.giveUpLast
  simp only [hset]
  rw [do_of_ok (QueueCircled.leaving_ok _ _)]
  simp only [hprev, hless]
  rfl

theorem Pointers.simpleSlidingCopy (hp : Pointers n q) (preserve : T) (hsome : 0 < q.count)
    {a last : ℕ} (ha : a < n) (hlast : q.last = last) :
    QueueCircled.simpleSlidingCopy a preserve q =
      .ok (Collections.retracted n
        ((if a + 1 < last then shiftDown q.items a last else q.items).set last preserve) q) := by
  have hmax := arrayMaxLength_lt
  have hfits := hp.fits
  have hlen := hp.length
  have hlastRange := hp.last_range
  have hstart : int32 ((a : ℤ) + 1) = ((a + 1 : ℕ) : ℤ) := int32_of_range (by omega) (by omega)
  unfold QueueCircled.simpleSlidingCopy
  simp only [hstart, hlast]
  by_cases hcopy : a + 1 < last
  · have hcount : int32 ((last : ℤ) - a) = ((last - a : ℕ) : ℤ) := by
      rw [int32_of_range] <;> omega
    rw [if_pos (by omega), if_pos hcopy, hcount,
      copyWithin_shiftDown (show a ≤ last by omega) (show last < q.items.length by omega)]
    have hgive := hp.giveUpLast preserve hsome
      ((shiftDown_length (show a ≤ last by omega) (by omega)).trans hlen)
    rw [hlast, Int.toNat_natCast] at hgive
    exact hgive
  · rw [if_neg (by omega), if_neg hcopy]
    have hgive := hp.giveUpLast preserve hsome hlen
    rw [hlast, Int.toNat_natCast] at hgive
    exact hgive

/-- The first cell of the array behind the elements in front of the wrap. -/
def firstBrought (items : List T) (a : ℕ) (first : T) : List T :=
  (shiftDown items a (items.length - 1)).set (items.length - 1) first

theorem firstBrought_length {items : List T} {a : ℕ} (ha : a < items.length) (first : T) :
    (firstBrought items a first).length = items.length := by
  rw [firstBrought, List.length_set, shiftDown_length (by omega) (by omega)]

theorem copy_rightPart {items : List T} {a : ℕ} (ha : a < items.length)
    (hfits : items.length ≤ arrayMaxLength) :
    (if int32 ((a : ℤ) + 1) < items.length then
      copyWithin items (int32 (a + 1)) a (int32 (int32 ((items.length : ℤ) - 1) - a))
    else .ok items) = .ok (shiftDown items a (items.length - 1)) := by
  have hmax := arrayMaxLength_lt
  have hstart : int32 ((a : ℤ) + 1) = ((a + 1 : ℕ) : ℤ) := int32_of_range (by omega) (by omega)
  have hend : int32 ((items.length : ℤ) - 1) = ((items.length - 1 : ℕ) : ℤ) := by
    rw [int32_of_range] <;> omega
  have hcount : int32 (((items.length - 1 : ℕ) : ℤ) - a) = ((items.length - 1 - a : ℕ) : ℤ) := by
    rw [int32_of_range] <;> omega
  rw [hstart, hend, hcount]
  split_ifs with hcopy
  · exact copyWithin_shiftDown (by omega) (by omega)
  · rw [shiftDown, show items.length - 1 - a = 0 by omega, List.take_zero, writeAt_nil]

theorem Pointers.removeRightPart (hp : Pointers n q) (preserve : T) (hsome : 0 < q.count)
    {a : ℕ} (ha : a < n) {first : T}
    (hfirst : (shiftDown q.items a (n - 1))[0]? = some first) :
    QueueCircled.removeRightPart a preserve q =
      if 1 < q.last ∧ q.tail = 0 then
        .error (.raised .argumentOutOfRange, { q with items := firstBrought q.items a first })
      else
        .ok (Collections.retracted n
          ((if 1 < q.last then shiftDown (firstBrought q.items a first) 0 q.last.toNat
            else firstBrought q.items a first).set q.last.toNat preserve) q) := by
  have hmax := arrayMaxLength_lt
  have hfits := hp.fits
  have hlen := hp.length
  have htailRange := hp.tail_range
  have hlastRange := hp.last_range
  have hlast := hp.last
  have hcopy : (if int32 ((a : ℤ) + 1) < q.capacity then
      copyWithin q.items (int32 (a + 1)) a (int32 (int32 (q.capacity - 1) - a))
      else .ok q.items) = .ok (shiftDown q.items a (n - 1)) := by
    rw [hp.capacity, ← hlen]
    exact copy_rightPart (by omega) (by omega)
  have helement : elementAt (shiftDown q.items a (n - 1)) 0 = .ok first := elementAt_natCast hfirst
  have hend : int32 (q.capacity - 1) = ((n - 1 : ℕ) : ℤ) := by
    rw [hp.capacity, int32_of_range] <;> omega
  have hshift := shiftDown_length (show a ≤ n - 1 by omega)
    (show n - 1 < q.items.length by omega)
  have hset : setElement (shiftDown q.items a (n - 1)) ((n - 1 : ℕ) : ℤ) first =
      .ok (firstBrought q.items a first) := by
    rw [setElement_natCast (by omega), firstBrought, hlen]
  have hbrought := firstBrought_length (show a < q.items.length by omega) first
  unfold QueueCircled.removeRightPart
  simp only
  rw [hcopy, do_of_ok (QueueCircled.leaving_ok _ _)]
  simp only [helement]
  rw [do_of_ok (QueueCircled.leaving_ok _ _)]
  simp only [hend, hset]
  rw [do_of_ok (QueueCircled.leaving_ok _ _)]
  by_cases hleft : 1 < q.last
  · by_cases hzero : q.tail = 0
    · have hfault : copyWithin (firstBrought q.items a first) 1 0 (int32 (q.tail - 1)) =
          .error (.raised .argumentOutOfRange) := by
        rw [hzero]
        rfl
      rw [if_pos hleft, if_pos ⟨hleft, hzero⟩, hfault]
      rfl
    · have hprev : q.last = q.tail - 1 := by
        rw [hlast, Int.emod_eq_of_lt (by omega) (by omega)]
      have hcount : int32 (q.tail - 1) = ((q.last.toNat - 0 : ℕ) : ℤ) := by
        rw [int32_of_range] <;> omega
      have hmove := copyWithin_shiftDown (Nat.zero_le q.last.toNat)
        (show q.last.toNat < (firstBrought q.items a first).length by omega)
      have hmoved := shiftDown_length (Nat.zero_le q.last.toNat)
        (show q.last.toNat < (firstBrought q.items a first).length by omega)
      rw [if_pos hleft, if_neg (by tauto), if_pos hleft, hcount]
      simp only [Nat.zero_add, Nat.cast_one, Nat.cast_zero] at hmove
      rw [hmove]
      exact hp.giveUpLast preserve hsome (hmoved.trans (hbrought.trans hlen))
  · rw [if_neg hleft, if_neg (by tauto), if_neg hleft]
    exact hp.giveUpLast preserve hsome (hbrought.trans hlen)

/-! ### The list after the copies -/

section Contents
variable {l : List T}

theorem retracted_cell (hr : RepresentsAt n q l h) {items : List T} (hlen : items.length = n)
    {j : ℕ} (hj : j + 1 < l.length) :
    (Collections.retracted n items q).contents[j]? = items[slot n h j]? := by
  have hle := hr.length_le
  have hhead : q.head.toNat = h := by rw [hr.head, Int.toNat_natCast]
  have hcount : (q.count - 1).toNat = l.length - 1 := by
    rw [hr.count]
    omega
  unfold QueueCircled.contents Collections.retracted
  simp only [hhead, hcount]
  rw [window_getElem? (by rw [hlen]; exact hr.head_lt) (by omega) (by omega), hlen]

theorem retracted_contents_length (hr : RepresentsAt n q l h) {items : List T}
    (hlen : items.length = n) :
    (Collections.retracted n items q).contents.length = l.length - 1 := by
  have hle := hr.length_le
  have hcount : (q.count - 1).toNat = l.length - 1 := by
    rw [hr.count]
    omega
  unfold QueueCircled.contents Collections.retracted
  simp only [hcount]
  exact window_length (by omega)

theorem retracted_contents (hr : RepresentsAt n q l h) {items : List T}
    (hlen : items.length = n) {rest : List T} (hrest : rest.length + 1 = l.length)
    (hcells : ∀ j < rest.length, items[slot n h j]? = rest[j]?) :
    (Collections.retracted n items q).contents = rest := by
  have hlength := retracted_contents_length hr hlen
  apply List.ext_getElem?
  intro j
  by_cases hj : j < rest.length
  · rw [retracted_cell hr hlen (by omega), hcells j hj]
  · rw [List.getElem?_eq_none (by omega), List.getElem?_eq_none (by omega)]

theorem RepresentsAt.cell (hr : RepresentsAt n q l h) {j : ℕ} (hj : j < l.length) :
    q.items[slot n h j]? = l[j]? := by
  obtain ⟨rfl, -, -, -, hh, -, hle, -, -, hl⟩ := hr
  exact Rings.cell hh hle hl hj

theorem contents_withoutLast (hr : RepresentsAt n q l h) (hne : 0 < l.length) (preserve : T) :
    (Collections.retracted n (q.items.set (slot n h (l.length - 1)) preserve) q).contents =
      l.dropLast := by
  have hle := hr.length_le
  apply retracted_contents hr (List.length_set.trans hr.length)
  · simp
    omega
  · intro j hj
    rw [List.length_dropLast] at hj
    rw [List.getElem?_set_ne (slot_ne (by omega) (by omega) (by omega)), hr.cell (by omega),
      List.getElem?_dropLast, if_pos hj]

/-- From the removed element on the cells follow each other. -/
theorem contents_slid (hr : RepresentsAt n q l h) (hi : i + 2 < l.length)
    (hcross : h + i < n → h + l.length ≤ n) (preserve : T) :
    (Collections.retracted n ((shiftDown q.items (slot n h i) (slot n h (l.length - 1))).set
      (slot n h (l.length - 1)) preserve) q).contents = l.eraseIdx i := by
  have hle := hr.length_le
  have hh := hr.head_lt
  have hlen := hr.length
  have hlast : slot n h (l.length - 1) < q.items.length := by
    rw [hlen]
    exact slot_lt hh (by omega)
  have hfollow : ∀ j, i ≤ j → j < l.length → slot n h j = slot n h i + (j - i) := by
    intro j hij hj
    unfold slot
    split_ifs <;> omega
  have hend := hfollow (l.length - 1) (by omega) (by omega)
  apply retracted_contents hr
  · rw [List.length_set, shiftDown_length (by omega) hlast, hlen]
  · rw [List.length_eraseIdx_of_lt (by omega)]
    omega
  · intro j hj
    rw [List.length_eraseIdx_of_lt (by omega)] at hj
    have hother : slot n h j ≠ slot n h (l.length - 1) :=
      slot_ne (by omega) (by omega) (by omega)
    rw [List.getElem?_set_ne hother.symm, getElem?_shiftDown (by omega) hlast]
    by_cases hij : i ≤ j
    · have hnext := hfollow (j + 1) (by omega) (by omega)
      have hthis := hfollow j hij (by omega)
      rw [if_pos (by omega), List.getElem?_eraseIdx_of_ge hij,
        show slot n h j + 1 = slot n h (j + 1) by omega, hr.cell (by omega)]
    · have hbefore : ¬ (slot n h i ≤ slot n h j ∧ slot n h j < slot n h (l.length - 1)) := by
        unfold slot
        split_ifs <;> omega
      rw [if_neg hbefore, List.getElem?_eraseIdx_of_lt (by omega), hr.cell (by omega)]

/-- The array after a removal in front of the wrap, with `t` elements behind it. -/
def rightPartRemoved (items : List T) (a t : ℕ) (first preserve : T) : List T :=
  (if 1 < t - 1 then shiftDown (firstBrought items a first) 0 (t - 1)
    else firstBrought items a first).set (t - 1) preserve

theorem rightPartRemoved_length {items : List T} {a t : ℕ} (ha : a < items.length)
    (ht : t ≤ items.length) (first preserve : T) :
    (rightPartRemoved items a t first preserve).length = items.length := by
  have hbrought := firstBrought_length ha first
  rw [rightPartRemoved, List.length_set]
  split_ifs
  · rw [shiftDown_length (by omega) (by omega), hbrought]
  · exact hbrought

/-- In front of the wrap, with `t` elements behind it: all is well but for the last element of
two behind the wrap. -/
theorem cells_rightPart (hr : RepresentsAt n q l h) (hi : h + i < n) {t : ℕ} (ht : 0 < t)
    (hwrap : h + l.length = n + t) {first : T} (hfirst : q.items[0]? = some first) {j : ℕ}
    (hj : j + 1 < l.length) (preserve : T) :
    (rightPartRemoved q.items (h + i) t first preserve)[slot n h j]? =
        if t = 2 ∧ j + 2 = l.length then l[j]? else (l.eraseIdx i)[j]? := by
  have hle := hr.length_le
  have hh := hr.head_lt
  have hlen := hr.length
  have hlength := firstBrought_length (show h + i < q.items.length by omega) first
  have hcell := hr.cell (show j < l.length by omega)
  have hnext := hr.cell hj
  have hzero : slot n h (n - h) = 0 := by
    unfold slot
    split_ifs <;> omega
  have hbrought : ∀ c, (firstBrought q.items (h + i) first)[c]? =
      if c = n - 1 then q.items[0]? else if h + i ≤ c ∧ c < n - 1 then q.items[c + 1]?
      else q.items[c]? := by
    intro c
    rw [firstBrought, List.getElem?_set, hlen]
    by_cases hc : n - 1 = c
    · rw [if_pos hc, if_pos (by rw [shiftDown_length (by omega) (by omega)]; omega),
        if_pos hc.symm, hfirst]
    · rw [if_neg hc, if_neg (Ne.symm hc), getElem?_shiftDown (by omega) (by omega)]
  have hlast : t - 1 ≠ slot n h j := by
    unfold slot
    split_ifs <;> omega
  rw [rightPartRemoved, List.getElem?_set_ne hlast, List.getElem?_eraseIdx]
  by_cases hleft : h + j < n
  · have hslot : slot n h j = h + j := by rw [slot, if_pos hleft]
    have hsame : (if 1 < t - 1 then shiftDown (firstBrought q.items (h + i) first) 0 (t - 1)
        else firstBrought q.items (h + i) first)[h + j]? =
          (firstBrought q.items (h + i) first)[h + j]? := by
      split_ifs
      · rw [getElem?_shiftDown (by omega) (by omega), if_neg (by omega)]
      · rfl
    rw [hslot, hsame, hbrought, if_neg (show ¬ (t = 2 ∧ j + 2 = l.length) by omega)]
    rw [hslot] at hcell
    by_cases hend : h + j = n - 1
    · have hwrapped : slot n h (j + 1) = 0 := by
        rw [← hzero]
        congr 1
        omega
      rw [if_pos hend, if_neg (by omega), ← hnext, hwrapped]
    · rw [if_neg hend]
      split_ifs with hmoved hfront hfront
      · omega
      · have hstep : slot n h (j + 1) = h + j + 1 := by
          rw [slot, if_pos (by omega)]
          omega
        rw [← hnext, hstep]
      · exact hcell
      · omega
  · have hslot : slot n h j = h + j - n := by rw [slot, if_neg hleft]
    have hstep : slot n h (j + 1) = h + j - n + 1 := by
      unfold slot
      split_ifs <;> omega
    rw [hslot] at hcell ⊢
    rw [hstep] at hnext
    split_ifs with hcopy htwo hfront htwo hfront
    · omega
    · omega
    · rw [getElem?_shiftDown (by omega) (by omega), if_pos (by omega), hbrought,
        if_neg (by omega), if_neg (by omega), hnext]
    · rw [hbrought, if_neg (by omega), if_neg (by omega), hcell]
    · omega
    · omega

end Contents

/-! ### One removal -/

/-- The occupied cells pass both range checks. -/
theorem Pointers.removeAt_eq (hp : Pointers n q) (hi : (i : ℤ) < q.count)
    (hrange : q.head + i < 2 ^ 31) :
    ∃ preserve, q.removeAt i =
      if q.tail < q.head ∧ q.head + i < n then
        QueueCircled.removeRightPart (slot n q.head.toNat i : ℤ) preserve q
      else QueueCircled.simpleSlidingCopy (slot n q.head.toNat i : ℤ) preserve q := by
  have hr := hp.represents
  have hhead := hp.head
  have hcount := hp.count
  have hlength := hr.count
  have hle := hr.length_le
  have htail := hr.tail
  have hindex := hr.sequenceIndex (i := i) (by omega) (by omega)
  obtain ⟨preserve, hget⟩ : ∃ x, (window q.items q.head.toNat q.count.toNat)[i]? = some x :=
    ⟨_, List.getElem?_eq_getElem (by omega)⟩
  refine ⟨preserve, ?_⟩
  unfold QueueCircled.removeAt
  rw [hindex, do_of_ok (QueueCircled.leaving_ok _ _), hr.element hget,
    do_of_ok (QueueCircled.leaving_ok _ _)]
  by_cases hwrap : q.tail < q.head
  · have hoccupied : ¬ (q.tail ≤ slot n q.head.toNat i ∧ slot n q.head.toNat i < q.head) := by
      rw [htail] at hwrap ⊢
      unfold slot at hwrap ⊢
      split_ifs at hwrap ⊢ <;> omega
    have hside : (slot n q.head.toNat i : ℤ) < q.head ↔ ¬ q.head + i < n := by
      unfold slot
      split_ifs <;> omega
    rw [if_pos hwrap, if_neg hoccupied]
    by_cases hright : q.head + i < n
    · rw [if_neg (by rw [hside]; tauto), if_pos ⟨hwrap, hright⟩]
    · rw [if_pos (hside.mpr hright), if_neg (by tauto)]
  · have hoccupied : ¬ (q.head < q.tail ∧
        ((slot n q.head.toNat i : ℤ) < q.head ∨ q.tail ≤ slot n q.head.toNat i)) := by
      rw [htail] at hwrap ⊢
      unfold slot at hwrap ⊢
      split_ifs at hwrap ⊢ <;> omega
    rw [if_neg hwrap, if_neg hoccupied, if_neg (by tauto)]

theorem Pointers.removesAt_iff_contents (hp : Pointers n q) (hi : (i : ℤ) < q.count)
    {items : List T} (hlen : items.length = n)
    (hok : q.removeAt i = .ok (Collections.retracted n items q)) :
    RemovesAt n q i ↔
      (Collections.retracted n items q).contents = q.contents.eraseIdx i := by
  have hagree := (hp.retracted (show 0 < q.count by omega) hlen).agree
  constructor
  · rintro ⟨q', hq', hcontents, -, -⟩
    cases hok.symm.trans hq'
    exact hcontents
  · intro hcontents
    exact ⟨_, hok, hcontents, rfl, hagree⟩

theorem Pointers.removesAt_sliding (hp : Pointers n q) (hi : (i : ℤ) < q.count)
    (hrange : q.head + i < 2 ^ 31) (hsliding : ¬ (q.tail < q.head ∧ q.head + i < n)) :
    RemovesAt n q i ↔
      if q.tail = q.head ∧ 0 < q.head ∧ q.head + i < n then AllEqualFrom q.contents i
      else i + 2 = q.contents.length → AllEqualFrom q.contents i := by
  have hr : RepresentsAt n q q.contents q.head.toNat := hp.represents
  have hhead := hp.head
  have hcount := hr.count
  have hle := hr.length_le
  have htail := hr.tail
  have hlen := hr.length
  have hlast : q.last = slot n q.head.toNat (q.contents.length - 1) :=
    hr.last (List.ne_nil_of_length_pos (by omega))
  obtain ⟨preserve, hremove⟩ := hp.removeAt_eq hi hrange
  have ha : slot n q.head.toNat i < n := slot_lt (by omega) (by omega)
  have hend : slot n q.head.toNat (q.contents.length - 1) < n := slot_lt (by omega) (by omega)
  rw [if_neg hsliding, hp.simpleSlidingCopy preserve (by omega) ha hlast] at hremove
  have hlength : ∀ items : List T, (if slot n q.head.toNat i + 1 <
      slot n q.head.toNat (q.contents.length - 1) then
        shiftDown q.items (slot n q.head.toNat i) (slot n q.head.toNat (q.contents.length - 1))
      else q.items).length = n := by
    intro
    split_ifs
    · rw [shiftDown_length (by omega) (by omega), hlen]
    · exact hlen
  rw [hp.removesAt_iff_contents hi (List.length_set.trans (hlength q.items)) hremove]
  by_cases hfull : q.tail = q.head ∧ 0 < q.head ∧ q.head + i < n
  · have hnot : ¬ slot n q.head.toNat i + 1 < slot n q.head.toNat (q.contents.length - 1) := by
      obtain ⟨heq, hpos, hright⟩ := hfull
      rw [htail] at heq
      unfold slot at heq ⊢
      split_ifs at heq ⊢ <;> omega
    rw [if_pos hfull, if_neg hnot, contents_withoutLast hr (by omega)]
    exact eraseIdx_eq_dropLast_iff (by omega)
  · have hcross : q.head.toNat + i < n → q.head.toNat + q.contents.length ≤ n := by
      intro hright
      rw [htail] at hsliding hfull
      unfold slot at hsliding hfull
      split_ifs at hsliding hfull <;> omega
    rw [if_neg hfull]
    by_cases hmany : i + 2 < q.contents.length
    · have hcopies : slot n q.head.toNat i + 1 <
          slot n q.head.toNat (q.contents.length - 1) := by
        unfold slot
        split_ifs <;> omega
      rw [if_pos hcopies, contents_slid hr hmany hcross]
      exact iff_of_true rfl fun h => absurd h (by omega)
    · have hcopies : ¬ slot n q.head.toNat i + 1 <
          slot n q.head.toNat (q.contents.length - 1) := by
        unfold slot
        split_ifs <;> omega
      rw [if_neg hcopies, contents_withoutLast hr (by omega),
        eraseIdx_eq_dropLast_iff (by omega)]
      refine ⟨fun hall _ => hall, fun hall => ?_⟩
      by_cases htwo : i + 2 = q.contents.length
      · exact hall htwo
      · intro j hj hlt
        omega

/-- A wrapped queue ends as many cells behind the wrap as its tail says. -/
theorem Pointers.tail_wrapped (hp : Pointers n q) (hwrapped : q.tail < q.head) :
    ∃ t : ℕ, q.tail = t ∧ q.head.toNat + q.contents.length = n + t := by
  have hr : RepresentsAt n q q.contents q.head.toNat := hp.represents
  have hhead := hp.head
  have hle := hr.length_le
  have htail := hr.tail
  refine ⟨q.tail.toNat, ?_, ?_⟩
  · rw [htail]
    rfl
  · rw [htail] at hwrapped ⊢
    unfold slot at hwrapped ⊢
    split_ifs at hwrapped ⊢ <;> omega

theorem Pointers.removeAt_rightPart (hp : Pointers n q) (hi : (i : ℤ) < q.count)
    (hrange : q.head + i < 2 ^ 31) (hright : q.tail < q.head ∧ q.head + i < n) :
    ∃ first preserve, q.items[0]? = some first ∧
      q.removeAt i =
        if 1 < q.last ∧ q.tail = 0 then
          .error (.raised .argumentOutOfRange,
            { q with items := firstBrought q.items (q.head.toNat + i) first })
        else
          .ok (Collections.retracted n
            ((if 1 < q.last then
                shiftDown (firstBrought q.items (q.head.toNat + i) first) 0 q.last.toNat
              else firstBrought q.items (q.head.toNat + i) first).set q.last.toNat preserve) q) := by
  have hr : RepresentsAt n q q.contents q.head.toNat := hp.represents
  have hhead := hp.head
  have hlen := hr.length
  have htailRange := hp.tail_range
  obtain ⟨preserve, hremove⟩ := hp.removeAt_eq hi hrange
  have hslot : slot n q.head.toNat i = q.head.toNat + i := by rw [slot, if_pos (by omega)]
  have hpos : 0 < q.items.length := by omega
  obtain ⟨first, hfirst⟩ : ∃ x, q.items[0]? = some x := ⟨_, List.getElem?_eq_getElem hpos⟩
  have hmoved : (shiftDown q.items (q.head.toNat + i) (n - 1))[0]? = some first := by
    rw [getElem?_shiftDown (by omega) (by omega), if_neg (by omega), hfirst]
  rw [if_pos hright, hslot, hp.removeRightPart preserve (by omega) (by omega) hmoved] at hremove
  exact ⟨first, preserve, hfirst, hremove⟩

/-- Where the queue ends with the array, a second copy would have a negative length. -/
theorem Pointers.removesAt_end (hp : Pointers n q) (hi : (i : ℤ) < q.count)
    (hrange : q.head + i < 2 ^ 31) (hright : q.tail < q.head ∧ q.head + i < n)
    (hzero : q.tail = 0) : RemovesAt n q i ↔ n = 2 := by
  have hr : RepresentsAt n q q.contents q.head.toNat := hp.represents
  have hhead := hp.head
  have hcount := hr.count
  have hlen := hr.length
  have hlast : q.last = slot n q.head.toNat (q.contents.length - 1) :=
    hr.last (List.ne_nil_of_length_pos (by omega))
  obtain ⟨t, ht, hwrap⟩ := hp.tail_wrapped hright.1
  obtain ⟨first, preserve, -, hremove⟩ := hp.removeAt_rightPart hi hrange hright
  have hend : q.last = ((n - 1 : ℕ) : ℤ) := by
    rw [hlast, slot, if_pos (by omega)]
    omega
  by_cases htwo : n = 2
  · refine iff_of_true ?_ htwo
    have hlength : ((firstBrought q.items (q.head.toNat + i) first).set q.last.toNat
        preserve).length = n :=
      List.length_set.trans ((firstBrought_length (by omega) first).trans hlen)
    have hnil : q.contents.eraseIdx i = [] := by
      apply List.eq_nil_of_length_eq_zero
      rw [List.length_eraseIdx_of_lt (by omega)]
      omega
    rw [if_neg (by omega), if_neg (by omega)] at hremove
    rw [hp.removesAt_iff_contents hi hlength hremove, hnil]
    apply retracted_contents hr hlength
    · simp
      omega
    · simp
  · refine iff_of_false ?_ htwo
    rw [if_pos (by omega)] at hremove
    intro hremoves
    obtain ⟨q', hq', -⟩ := hremoves
    cases hremove.symm.trans hq'

/-- With two elements behind the wrap the second one is not copied. -/
theorem Pointers.removesAt_behind (hp : Pointers n q) (hi : (i : ℤ) < q.count)
    (hrange : q.head + i < 2 ^ 31) (hright : q.tail < q.head ∧ q.head + i < n)
    (hzero : q.tail ≠ 0) :
    RemovesAt n q i ↔
      (q.tail = 2 → AllEqualFrom q.contents (q.contents.length - 2)) := by
  have hr : RepresentsAt n q q.contents q.head.toNat := hp.represents
  have hhead := hp.head
  have hcount := hr.count
  have hle := hr.length_le
  have hlen := hr.length
  have hlast : q.last = slot n q.head.toNat (q.contents.length - 1) :=
    hr.last (List.ne_nil_of_length_pos (by omega))
  obtain ⟨t, ht, hwrap⟩ := hp.tail_wrapped hright.1
  obtain ⟨first, preserve, hfirst, hremove⟩ := hp.removeAt_rightPart hi hrange hright
  have hend : q.last = ((t - 1 : ℕ) : ℤ) := by
    rw [hlast]
    unfold slot
    split_ifs <;> omega
  have hone : 1 < ((t - 1 : ℕ) : ℤ) ↔ 1 < t - 1 := by omega
  have hlength := (rightPartRemoved_length (show q.head.toNat + i < q.items.length by omega)
    (show t ≤ q.items.length by omega) first preserve).trans hlen
  have hcells := fun j (hj : j + 1 < q.contents.length) =>
    (retracted_cell hr hlength hj).trans
      (cells_rightPart hr (show q.head.toNat + i < n by omega) (by omega) hwrap hfirst hj preserve)
  have hrest := retracted_contents_length hr hlength
  rw [if_neg (by omega)] at hremove
  simp only [hend, Int.toNat_natCast, hone] at hremove
  rw [hp.removesAt_iff_contents hi hlength hremove]
  constructor
  · intro heq htwo j hj hlt
    have hlastCell := hcells j (by omega)
    rw [heq, if_pos (by omega), List.getElem?_eraseIdx_of_ge (by omega)] at hlastCell
    exact hlastCell.symm
  · intro hequal
    apply List.ext_getElem?
    intro j
    by_cases hj : j + 1 < q.contents.length
    · rw [hcells j hj]
      split_ifs with hlastCell
      · rw [hequal (by omega) j (by omega) (by omega), List.getElem?_eraseIdx_of_ge (by omega)]
      · rfl
    · rw [List.getElem?_eq_none (by omega),
        List.getElem?_eq_none (by rw [List.length_eraseIdx_of_lt (by omega)]; omega)]

theorem Pointers.removesAt_rightPart (hp : Pointers n q) (hi : (i : ℤ) < q.count)
    (hrange : q.head + i < 2 ^ 31) (hright : q.tail < q.head ∧ q.head + i < n) :
    RemovesAt n q i ↔
      (q.tail = 0 → n = 2) ∧
        (q.tail = 2 → AllEqualFrom q.contents (q.contents.length - 2)) := by
  by_cases hzero : q.tail = 0
  · rw [hp.removesAt_end hi hrange hright hzero]
    exact ⟨fun htwo => ⟨fun _ => htwo, fun h => absurd h (by omega)⟩, fun h => h.1 hzero⟩
  · rw [hp.removesAt_behind hi hrange hright hzero]
    exact ⟨fun hequal => ⟨fun h => absurd h hzero, hequal⟩, fun h => h.2⟩

/-- The end becomes the cell of `last`, so a stale `last` shows. -/
theorem giveUpLast_ok {preserve : T} {q q' : QueueCircled T}
    (h : q.giveUpLast preserve = .ok q') : q'.tail = q.last ∧ q'.head = q.head := by
  unfold QueueCircled.giveUpLast at h
  obtain ⟨items, -, h⟩ := do_ok_iff.mp h
  cases h
  exact ⟨rfl, rfl⟩

theorem removeAt_ok {index : ℤ} {q' : QueueCircled T} (h : q.removeAt index = .ok q') :
    q'.tail = q.last ∧ q'.head = q.head := by
  have hsliding : ∀ {a : ℤ} {preserve : T}, q.simpleSlidingCopy a preserve = .ok q' →
      q'.tail = q.last ∧ q'.head = q.head := by
    intro a preserve h
    unfold QueueCircled.simpleSlidingCopy at h
    obtain ⟨items, -, h⟩ := do_ok_iff.mp h
    have hfields := giveUpLast_ok h
    exact hfields
  unfold QueueCircled.removeAt at h
  obtain ⟨actualIndex, -, h⟩ := do_ok_iff.mp h
  obtain ⟨preserve, -, h⟩ := do_ok_iff.mp h
  split_ifs at h
  · exact hsliding h
  · unfold QueueCircled.removeRightPart at h
    obtain ⟨items, -, h⟩ := do_ok_iff.mp h
    obtain ⟨first, -, h⟩ := do_ok_iff.mp h
    obtain ⟨items, -, h⟩ := do_ok_iff.mp h
    obtain ⟨items, -, h⟩ := do_ok_iff.mp h
    have hfields := giveUpLast_ok h
    exact hfields
  · exact hsliding h

theorem Ends.removesAt (he : Ends n q) (hi : (i : ℤ) < q.count) :
    RemovesAt n q i ↔ Removable n q i := by
  by_cases hlast : q.last = (q.tail - 1) % n
  · have hp : Pointers n q := ⟨he, hlast⟩
    by_cases hrange : q.head + i < 2 ^ 31
    · by_cases hright : q.tail < q.head ∧ q.head + i < n
      · rw [hp.removesAt_rightPart hi hrange hright, Removable, if_pos hright]
        tauto
      · rw [hp.removesAt_sliding hi hrange hright, Removable, if_neg hright]
        tauto
    · have hr : RepresentsAt n q q.contents q.head.toNat := hp.represents
      have hhead := hp.head
      have hcount := hr.count
      refine iff_of_false ?_ fun h => hrange h.2.1
      rintro ⟨q', hq', -⟩
      obtain ⟨index, hindex, hneg⟩ := hr.sequenceIndex_overflow (i := i) (by omega) (by omega)
      have hfault : elementAt q.items index = .error (.raised .indexOutOfRange) := by
        rw [elementAt, if_pos hneg]
      rw [QueueCircled.removeAt, hindex, do_of_ok (QueueCircled.leaving_ok _ _), hfault] at hq'
      cases hq'
  · refine iff_of_false ?_ fun h => hlast h.1
    rintro ⟨q', hq', -, hcount, hagree⟩
    obtain ⟨htail, hhead⟩ := removeAt_ok hq'
    apply hlast
    rw [← htail, hagree.1, hhead, hcount, he.tail, Int.emod_sub_emod]
    congr 1
    omega

/-! ### Runs -/

theorem Pointers.with_items (hp : Pointers n q) {items : List T} (hlen : items.length = n) :
    Pointers n { q with items } :=
  ⟨⟨hlen, hp.capacity, hp.fits, hp.head, hp.count, hp.tail⟩, hp.last⟩

/-- Whether it returns or throws, a removal leaves pointers that agree. -/
theorem Pointers.removeAt (hp : Pointers n q) (hi : (i : ℤ) < q.count) :
    (∃ q', q.removeAt i = .ok q' ∧ Pointers n q') ∨
      ∃ fault q', q.removeAt i = .error (fault, q') ∧ Pointers n q' := by
  have hr : RepresentsAt n q q.contents q.head.toNat := hp.represents
  have hhead := hp.head
  have hcount := hr.count
  have hle := hr.length_le
  have hlen := hr.length
  by_cases hrange : q.head + i < 2 ^ 31
  · obtain ⟨preserve, hremove⟩ := hp.removeAt_eq hi hrange
    have ha : slot n q.head.toNat i < n := slot_lt (by omega) (by omega)
    by_cases hright : q.tail < q.head ∧ q.head + i < n
    · obtain ⟨first, hfirst⟩ : ∃ x, (shiftDown q.items (slot n q.head.toNat i) (n - 1))[0]? =
          some x := by
        refine ⟨_, List.getElem?_eq_getElem ?_⟩
        rw [shiftDown_length (by omega) (by omega)]
        omega
      have hbrought :=
        firstBrought_length (show slot n q.head.toNat i < q.items.length by omega) first
      have hlast := hp.last_range
      rw [if_pos hright, hp.removeRightPart preserve (by omega) ha hfirst] at hremove
      split_ifs at hremove
      · exact .inr ⟨_, _, hremove, hp.with_items (hbrought.trans hlen)⟩
      · refine .inl ⟨_, hremove, hp.retracted (by omega) (List.length_set.trans ?_)⟩
        rw [shiftDown_length (by omega) (by omega), hbrought, hlen]
      · exact .inl ⟨_, hremove,
          hp.retracted (by omega) (List.length_set.trans (hbrought.trans hlen))⟩
    · have hlast := hp.last_range
      have hlastCast : q.last = (q.last.toNat : ℤ) := (Int.toNat_of_nonneg hlast.1).symm
      rw [if_neg hright, hp.simpleSlidingCopy preserve (by omega) ha hlastCast] at hremove
      refine .inl ⟨_, hremove, hp.retracted (by omega) (List.length_set.trans ?_)⟩
      split_ifs
      · rw [shiftDown_length (by omega) (by omega), hlen]
      · exact hlen
  · obtain ⟨index, hindex, hneg⟩ := hr.sequenceIndex_overflow (i := i) (by omega) (by omega)
    have hfault : elementAt q.items index = .error (.raised .indexOutOfRange) := by
      rw [elementAt, if_pos hneg]
    refine .inr ⟨.raised .indexOutOfRange, q, ?_, hp⟩
    rw [QueueCircled.removeAt, hindex, do_of_ok (QueueCircled.leaving_ok _ _), hfault]
    rfl

theorem Ends.of_fields (he : Ends n q) {q' : QueueCircled T} (hlen : q'.items.length = n)
    (hcap : q'.capacity = q.capacity) (hhead : q'.head = q.head) (hcount : q'.count = q.count)
    (htail : q'.tail = q.tail) : Ends n q' := by
  refine ⟨hlen, hcap.trans he.capacity, he.fits, ?_, ?_, ?_⟩
  · rw [hhead]
    exact he.head
  · rw [hcount]
    exact he.count
  · rw [htail, hhead, hcount]
    exact he.tail

theorem setElement_length {items items' : List T} {index : ℤ} {item : T}
    (h : setElement items index item = .ok items') : items'.length = items.length := by
  unfold setElement at h
  split_ifs at h
  cases h
  exact List.length_set

theorem Ends.reset (he : Ends n q) : Ends n q.reset := by
  have hhead := he.head
  refine ⟨he.length, he.capacity, he.fits, ?_, ?_, ?_⟩
  · simp [QueueCircled.reset]
    omega
  · simp [QueueCircled.reset]
  · simp [QueueCircled.reset]

theorem Ends.fill (he : Ends n q) (item : T) : Ends n (q.fill item) := by
  have hhead := he.head
  have hcap := he.capacity
  refine ⟨?_, hcap, he.fits, ?_, ?_, ?_⟩
  · simp [QueueCircled.fill, he.length]
  · simp [QueueCircled.fill]
    omega
  · simp [QueueCircled.fill, hcap]
  · simp [QueueCircled.fill, hcap]

theorem Ends.enqueue (he : Ends n q) {item : T} {q' : QueueCircled T}
    (h : q.enqueue item = .ok q') : Ends n q' := by
  have hmax := arrayMaxLength_lt
  have hhead := he.head
  have hcount := he.count
  have hfits := he.fits
  have htail := he.tail_range
  unfold QueueCircled.enqueue at h
  obtain ⟨items, hitems, h⟩ := do_ok_iff.mp h
  have hlen := (setElement_length hitems).trans he.length
  have hmore : int32 (q.count + 1) = q.count + 1 := int32_of_range (by omega) (by omega)
  have hhead' : (int32 (q.head + 1)).tmod n = (q.head + 1) % n :=
    tmod_shift hhead (.inr (by omega))
  have htail' : (int32 (q.tail + 1)).tmod n = (q.tail + 1) % n :=
    tmod_shift htail (.inr (by omega))
  simp only [hmore, he.capacity, hhead', htail'] at h
  split_ifs at h with hfull
  · cases h
    refine ⟨hlen, rfl, hfits, ?_, by simp, ?_⟩
    · exact ⟨Int.emod_nonneg _ (by omega), Int.emod_lt_of_pos _ (by omega)⟩
    · simp only
      rw [Int.add_emod_right, Int.emod_emod]
  · cases h
    refine ⟨hlen, rfl, hfits, hhead, ?_, ?_⟩
    · simp only
      omega
    · simp only
      rw [he.tail, Int.emod_add_emod]
      congr 1
      omega

theorem Ends.shiftForward (he : Ends n q) {k : ℤ}
    (hk : QueueAction.InPlace n q (.operation (.shiftForward k))) : Ends n (q.shiftForward k) := by
  have hcell : ∀ p ∈ [q.head, q.tail], n = 1 ∨ 0 ≤ p + k ∧ p + k < 2 ^ 31 :=
    fun p hmem => hk.imp_right fun h => h p hmem
  refine (he.of_moved k).of_fields he.length rfl ?_ rfl ?_
  · simp only [QueueCircled.shiftForward, moved, he.capacity]
    exact tmod_shift he.head (hcell q.head (by simp))
  · simp only [QueueCircled.shiftForward, moved, he.capacity]
    exact tmod_shift he.tail_range (hcell q.tail (by simp))

theorem Ends.shiftBackward (he : Ends n q) {k : ℤ}
    (hk : QueueAction.InPlace n q (.operation (.shiftBackward k))) :
    Ends n (q.shiftBackward k) := by
  have hhead := he.head
  have hshift : k.tmod n ≤ n := (Int.tmod_lt_of_pos k (show (0 : ℤ) < n by omega)).le
  refine (he.of_moved (-k.tmod n)).of_fields he.length rfl ?_ rfl ?_
  · simp only [QueueCircled.shiftBackward, moved, he.capacity, ← Int.sub_eq_add_neg]
    exact back_eq he.fits he.head hshift (hk q.head (by simp))
  · simp only [QueueCircled.shiftBackward, moved, he.capacity, ← Int.sub_eq_add_neg]
    exact back_eq he.fits he.tail_range hshift (hk q.tail (by simp))

section Steps
variable [BEq T] [Inhabited T] {debug : Bool} {q' : QueueCircled T}

theorem Ends.call (he : Ends n q) {call : QueueCall T} (hallowed : call.Allowed q)
    (h : QueueOperation.step debug q (.call call) = .ok q') : Ends n q' := by
  rcases step_call_iff.mp h with ⟨seen, hactual⟩ | ⟨-, rfl⟩
  · cases call with
    | enqueue item =>
      obtain ⟨r, hr, heq⟩ := map_ok_iff.mp hactual
      cases heq
      exact he.enqueue hr
    | dequeue =>
      obtain ⟨⟨r, item⟩, hr, heq⟩ := map_ok_iff.mp hactual
      cases heq
      exact (he.dequeue hallowed hr).1
    | fill item =>
      cases hactual
      exact he.fill item
    | reset =>
      cases hactual
      exact he.reset
    | set index item =>
      obtain ⟨r, hr, heq⟩ := map_ok_iff.mp hactual
      cases heq
      exact (he.setByIndex hr).1
    | get index | peak | peakFromEnd | peakDouble | peakDoubleFromEnd | indexOf item =>
      obtain ⟨r, -, heq⟩ := map_ok_iff.mp hactual
      cases heq
      exact he
  · exact he

theorem Ends.operation (he : Ends n q) {op : QueueOperation T} (hallowed : op.Allowed q)
    (hin : QueueAction.InPlace n q (.operation op)) (h : op.step debug q = .ok q') :
    Ends n q' := by
  cases op with
  | call call => exact he.call hallowed h
  | extendAfterLast =>
    obtain ⟨⟨r, index⟩, hr, rfl⟩ := map_ok_iff.mp h
    exact (he.extendAfterLast hr).toEnds
  | extendBeforeHead =>
    obtain ⟨⟨r, index⟩, hr, rfl⟩ := map_ok_iff.mp h
    exact (he.extendBeforeHead hr).1
  | shrinkLast =>
    have hp : Pointers n q := ⟨he, hin⟩
    obtain ⟨⟨r, index⟩, hr, rfl⟩ := map_ok_iff.mp h
    exact (hp.shrinkLast hr).toEnds
  | shrinkHead =>
    obtain ⟨⟨r, index⟩, hr, rfl⟩ := map_ok_iff.mp h
    exact (he.shrinkHead hr).1
  | shiftForward k =>
    cases h
    exact he.shiftForward hin
  | shiftBackward k =>
    cases h
    exact he.shiftBackward hin

theorem QueueAction.step_operation {op : QueueOperation T} (hop : op ≠ .call .dequeue)
    (h : QueueAction.step debug q (.operation op) = .ok q') : op.step debug q = .ok q' := by
  cases op with
  | call call =>
    cases call with
    | dequeue => exact absurd rfl hop
    | _ => exact h
  | shiftForward k | shiftBackward k =>
    simp only [QueueAction.step] at h
    split_ifs at h
    exact h
  | _ => exact h

theorem Ends.step (he : Ends n q) {action : QueueAction T} (hallowed : action.Allowed q)
    (hin : action.InPlace n q) (h : action.step debug q = .ok q') : Ends n q' := by
  cases action with
  | operation op =>
    by_cases hdequeue : op = .call .dequeue
    · subst hdequeue
      simp only [QueueAction.step] at h
      split at h
      · rename_i items r item hitems hr
        cases h
        exact (he.dequeue hallowed hr).1.of_fields ((clearHead_length hitems).trans he.length)
          rfl rfl rfl rfl
      · cases h
        exact he
    · exact he.operation hallowed hin (QueueAction.step_operation hdequeue h)
  | removeAt index =>
    have hp : Pointers n q := ⟨he, hin⟩
    rcases hp.removeAt hallowed with ⟨r, hr, hends⟩ | ⟨fault, r, hr, hends⟩
    · simp only [QueueAction.step, hr] at h
      cases h
      exact hends.toEnds
    · simp only [QueueAction.step, hr] at h
      cases h
      exact hends.toEnds
  | clear =>
    cases h
    exact he.reset.of_fields (by simp [QueueCircled.clear, he.length]) rfl rfl rfl rfl
  | setByActualIndex index item =>
    obtain ⟨items, hitems, heq⟩ := do_ok_iff.mp h
    cases heq
    exact he.of_fields ((setElement_length hitems).trans he.length) rfl rfl rfl rfl

end Steps

end Removal

/-- In a queue that a run in place reaches, a removal is exact just when the copies it makes
are those that are needed. -/
theorem removesAt_iff [BEq T] [Inhabited T] (debug : Bool) {n : ℕ} (hn : 1 ≤ n)
    {queue q : QueueCircled T} (hnew : QueueCircled.new (n : ℤ) = .ok queue)
    {actions : List (QueueAction T)}
    (hin : Along (QueueAction.step debug) (fun q action => action.Allowed q ∧ action.InPlace n q)
      queue actions)
    (hrun : run (QueueAction.step debug) queue actions = .ok q) {index : ℕ}
    (hindex : index < q.count) : RemovesAt n q index ↔ Removable n q index := by
  have hends : Ends n q := hin.run_invariant
    (fun t action u ht hc hu => Ends.step ht hc.1 hc.2 hu) (RepresentsAt.new hn hnew).ends hrun
  exact hends.removesAt hindex

/-- Of five elements in six cells, the third is removed after the first. -/
theorem removesAt_iff_six :
    1 ≤ 6 ∧ ∃ queue q : QueueCircled ℕ, QueueCircled.new 6 = .ok queue ∧
      run (QueueAction.step false) queue
        [.operation (.call (.enqueue 1)), .operation (.call (.enqueue 2)),
          .operation (.call (.enqueue 3)), .operation (.call (.enqueue 4)),
          .operation (.call (.enqueue 5)), .removeAt 0] = .ok q ∧
      1 < q.count ∧ (RemovesAt 6 q 1 ↔ Removable 6 q 1) := by
  refine ⟨by decide, ⟨[0, 0, 0, 0, 0, 0], 0, 6, 0, 0, 0⟩, _, rfl, rfl, by decide, ?_⟩
  have hin : Along (QueueAction.step false)
      (fun q action => action.Allowed q ∧ action.InPlace 6 q)
      (⟨[0, 0, 0, 0, 0, 0], 0, 6, 0, 0, 0⟩ : QueueCircled ℕ)
      [.operation (.call (.enqueue 1)), .operation (.call (.enqueue 2)),
        .operation (.call (.enqueue 3)), .operation (.call (.enqueue 4)),
        .operation (.call (.enqueue 5)), .removeAt 0] := by decide
  exact removesAt_iff false (by decide) rfl hin rfl (by decide)

/-- The last but one of three elements stays where it is, and the last one is gone. -/
theorem not_removesAt_three :
    ∃ queue q : QueueCircled ℕ, QueueCircled.new 4 = .ok queue ∧
      run (QueueAction.step false) queue
        [.operation (.call (.enqueue 1)), .operation (.call (.enqueue 2)),
          .operation (.call (.enqueue 3))] = .ok q ∧
      1 < q.count ∧ ¬ RemovesAt 4 q 1 := by
  refine ⟨⟨[0, 0, 0, 0], 0, 4, 0, 0, 0⟩, _, rfl, rfl, by decide, ?_⟩
  rintro ⟨q', hq', hcontents, -⟩
  cases hq'
  revert hcontents
  decide

end DecodingProxy.Collections
