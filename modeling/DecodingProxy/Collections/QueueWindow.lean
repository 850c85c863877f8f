import DecodingProxy.Collections.CircledQueue
import DecodingProxy.Lib.Rings
import DecodingProxy.Lib.Runs

/-!
# The list that a `QueueCircled<T>` stands for

The queue stands for the list in the ring between its pointers. Every operation does to
that list what its name says, as long as the sum of the head and an index fits an `int`:
`SequenceIndexToActualIndex` adds them before it looks at the capacity.
-/

namespace DecodingProxy.Collections
open DecodingProxy.Rings DecodingProxy.Runs DecodingProxy.Runtime

variable {T : Type}

/-- The list appends at the back and drops its oldest element when it is full. -/
def pushBounded (capacity : ℕ) (l : List T) (item : T) : List T :=
  if l.length < capacity then l ++ [item] else l.tail ++ [item]

/-- How many elements a search looks at. -/
def scanned [BEq T] (l : List T) (item : T) : ℕ :=
  (l.findIdx? (· == item)).elim l.length (· + 1)

theorem scanned_cons [BEq T] (x : T) (l : List T) (item : T) :
    scanned (x :: l) item = if x == item then 1 else scanned l item + 1 := by
  unfold scanned
  rw [List.findIdx?_cons]
  split_ifs
  · rfl
  · cases l.findIdx? (· == item) <;> rfl

/-- The queue holds the list `l` from the cell `h` of its `n` cells on. -/
structure RepresentsAt (n : ℕ) (q : QueueCircled T) (l : List T) (h : ℕ) : Prop where
  length : q.items.length = n
  capacity : q.capacity = n
  fits : n ≤ arrayMaxLength
  head : q.head = h
  head_lt : h < n
  count : q.count = l.length
  length_le : l.length ≤ n
  tail : q.tail = slot n h l.length
  last : l ≠ [] → q.last = slot n h (l.length - 1)
  contents : window q.items h l.length = l

theorem elementAt_natCast {items : List T} {i : ℕ} {item : T} (h : items[i]? = some item) :
    elementAt items i = .ok item := by
  simp [elementAt, h]

theorem setElement_natCast {items : List T} {i : ℕ} (h : i < items.length) (item : T) :
    setElement items i item = .ok (items.set i item) := by
  unfold setElement
  rw [if_neg (by omega), Int.toNat_natCast]

theorem tmod_succ {n i : ℕ} (hi : i < n) (hn : n ≤ arrayMaxLength) :
    (int32 ((i : ℤ) + 1)).tmod n = slot n i 1 := by
  have hmax : (arrayMaxLength : ℤ) < 2 ^ 31 := by decide
  rw [int32_of_range (by omega) (by omega)]
  have hcast : ((i : ℤ) + 1) = ((i + 1 : ℕ) : ℤ) := rfl
  rw [hcast, ← Int.ofNat_tmod, slot_eq_mod hi (by omega)]

theorem arrayMaxLength_lt : (arrayMaxLength : ℤ) + 1 < 2 ^ 31 := by decide

namespace RepresentsAt

variable {n h : ℕ} {q : QueueCircled T} {l : List T}

theorem element (hr : RepresentsAt n q l h) {i : ℕ} {item : T} (hi : l[i]? = some item) :
    elementAt q.items (slot n h i) = .ok item := by
  have hlt : i < l.length := (List.getElem?_eq_some_iff.mp hi).1
  obtain ⟨rfl, -, -, -, hh, -, hle, -, -, hl⟩ := hr
  exact elementAt_natCast ((cell hh hle hl hlt).trans hi)

theorem new [Inhabited T] (hn : 1 ≤ n) (hq : QueueCircled.new (n : ℤ) = .ok q) :
    RepresentsAt n q [] 0 := by
  unfold QueueCircled.new at hq
  split_ifs at hq with hneg hmax
  cases hq
  refine ⟨by simp, rfl, by omega, rfl, by omega, rfl, by simp, ?_, by simp, by simp [window]⟩
  simp [slot_zero (show 0 < n by omega)]

theorem fill (hr : RepresentsAt n q l h) (item : T) :
    RepresentsAt n (q.fill item) (List.replicate n item) 0 := by
  obtain ⟨rfl, hcap, hfits, -, hh, -, -, -, -, -⟩ := hr
  have hmax := arrayMaxLength_lt
  refine ⟨by simp [QueueCircled.fill], hcap, hfits, rfl, by omega, by simp [QueueCircled.fill, hcap],
    by simp, ?_, fun _ => ?_, ?_⟩
  · simp [QueueCircled.fill, slot_full]
  · have hslot : slot q.items.length 0 (q.items.length - 1) = q.items.length - 1 := by
      unfold slot
      split_ifs <;> omega
    simp only [QueueCircled.fill, hcap, List.length_replicate, hslot]
    rw [int32_of_range] <;> omega
  · simp [QueueCircled.fill, window, List.map_const']

theorem reset (hr : RepresentsAt n q l h) : RepresentsAt n q.reset [] 0 := by
  have hh := hr.head_lt
  refine ⟨hr.length, hr.capacity, hr.fits, rfl, by omega, rfl, by simp, ?_, by simp,
    by simp [window]⟩
  simp [QueueCircled.reset, slot_zero (show 0 < n by omega)]

theorem enqueue_room (hr : RepresentsAt n q l h) (hroom : l.length < n) (item : T) :
    ∃ q', q.enqueue item = .ok q' ∧ RepresentsAt n q' (l ++ [item]) h := by
  obtain ⟨rfl, hcap, hfits, hhead, hh, hcount, hle, htail, hlast, hl⟩ := hr
  have hmax := arrayMaxLength_lt
  have hslot := slot_lt hh hroom
  have hitems := setElement_natCast hslot item
  have hnext : int32 (q.count + 1) = (l.length + 1 : ℕ) := by
    rw [hcount, int32_of_range] <;> omega
  have hnot : ¬ q.capacity < int32 (q.count + 1) := by
    rw [hnext, hcap]
    omega
  refine ⟨{ q with
      items := q.items.set (slot q.items.length h l.length) item
      last := q.tail
      tail := (int32 (q.tail + 1)).tmod q.capacity
      count := int32 (q.count + 1) }, ?_, ?_⟩
  · rw [QueueCircled.enqueue, htail, do_of_ok hitems]
    simp only [if_neg hnot]
  · refine ⟨by simp, hcap, hfits, hhead, hh, by simp [hnext], by simp; omega, ?_, fun _ => ?_, ?_⟩
    · simp only [hcap, htail, tmod_succ hslot hfits, slot_next hh hroom, List.length_append,
        List.length_singleton]
    · simp [htail]
    · exact window_push hh hle hl hroom item

theorem enqueue_full (hr : RepresentsAt n q l h) (hfull : l.length = n) (item : T) :
    ∃ q', q.enqueue item = .ok q' ∧ RepresentsAt n q' (l.tail ++ [item]) (slot n h 1) := by
  obtain ⟨rfl, hcap, hfits, hhead, hh, hcount, hle, htail, hlast, hl⟩ := hr
  have hmax := arrayMaxLength_lt
  have htailHead : slot q.items.length h l.length = h := by rw [hfull, slot_full]
  have hitems := setElement_natCast hh item
  have hnext : int32 (q.count + 1) = (l.length + 1 : ℕ) := by
    rw [hcount, int32_of_range] <;> omega
  have hover : q.capacity < int32 (q.count + 1) := by
    rw [hnext, hcap]
    omega
  have hpos : 0 < l.length := by omega
  have hone : slot q.items.length h 1 < q.items.length := by
    unfold slot
    split_ifs <;> omega
  have hlen : (l.tail ++ [item]).length = l.length := by
    simp
    omega
  refine ⟨{ q with
      items := q.items.set h item
      last := q.head
      head := (int32 (q.head + 1)).tmod q.capacity
      tail := (int32 (q.head + 1)).tmod q.capacity
      count := q.capacity }, ?_, ?_⟩
  · rw [QueueCircled.enqueue, htail, htailHead, do_of_ok hitems]
    simp only [if_pos hover]
  · have hstep : (int32 (q.head + 1)).tmod q.capacity = slot q.items.length h 1 := by
      rw [hhead, hcap, tmod_succ hh hfits]
    refine ⟨by simp, hcap, hfits, hstep, hone, ?_, by rw [hlen]; exact hle, ?_, fun _ => ?_, ?_⟩
    · simp only [hcap, hlen, hfull]
    · simp only [hstep, hlen, hfull, slot_full]
    · simp only [hhead, hlen]
      rw [slot_succ hh (by omega), Nat.sub_add_cancel hpos, htailHead]
    · exact window_overwrite hh hfull hl item

theorem enqueue (hr : RepresentsAt n q l h) (item : T) :
    ∃ q' h', q.enqueue item = .ok q' ∧ RepresentsAt n q' (pushBounded n l item) h' := by
  unfold pushBounded
  split_ifs with hroom
  · obtain ⟨q', hq, hr'⟩ := hr.enqueue_room hroom item
    exact ⟨q', h, hq, hr'⟩
  · have hle := hr.length_le
    obtain ⟨q', hq, hr'⟩ := hr.enqueue_full (by omega) item
    exact ⟨q', _, hq, hr'⟩

theorem dequeue [Inhabited T] (hr : RepresentsAt n q l h) (debug : Bool) {first : T}
    (hfirst : l.head? = some first) :
    ∃ q', q.dequeue debug = .ok (q', first) ∧ RepresentsAt n q' l.tail (slot n h 1) := by
  have hzero : l[0]? = some first := by rwa [← List.head?_eq_getElem?]
  have hresult := hr.element hzero
  obtain ⟨rfl, hcap, hfits, hhead, hh, hcount, hle, htail, hlast, hl⟩ := hr
  have hmax := arrayMaxLength_lt
  have hpos : 0 < l.length := (List.getElem?_eq_some_iff.mp hzero).1
  rw [slot_zero hh, ← hhead] at hresult
  have hone : slot q.items.length h 1 < q.items.length := by
    unfold slot
    split_ifs <;> omega
  have hstep : (int32 (q.head + 1)).tmod q.capacity = slot q.items.length h 1 := by
    rw [hhead, hcap, tmod_succ hh hfits]
  have hprev : int32 (q.count - 1) = (l.length - 1 : ℕ) := by
    rw [hcount, int32_of_range] <;> omega
  have hcell : slot q.items.length (slot q.items.length h 1) (q.items.length - 1) = h := by
    rw [slot_succ hh (by omega), Nat.sub_add_cancel (by omega), slot_full]
  have hrest := window_tail hh hle hl
  obtain ⟨items, hitems, hlen, hwindow⟩ : ∃ items,
      q.clearHead debug = .ok items ∧
        items.length = q.items.length ∧
        window items (slot q.items.length h 1) l.tail.length = l.tail := by
    cases debug with
    | false => exact ⟨q.items, rfl, rfl, hrest⟩
    | true =>
      refine ⟨q.items.set h default, ?_, by simp, ?_⟩
      · rw [QueueCircled.clearHead, if_pos rfl, hhead]
        exact setElement_natCast hh default
      · have hfree := window_set_free hone (by simp; omega) hrest
          (show l.tail.length ≤ q.items.length - 1 by simp; omega) (by omega) default
        rwa [hcell] at hfree
  refine ⟨{ q with
      items
      head := (int32 (q.head + 1)).tmod q.capacity
      count := int32 (q.count - 1) }, ?_, ?_⟩
  · rw [QueueCircled.dequeue, do_of_ok hresult, do_of_ok hitems]
    have hnot : ¬ (debug = true ∧ int32 (q.count - 1) < 0) := by
      rw [hprev]
      omega
    simp only [if_neg hnot]
  · refine ⟨hlen, hcap, hfits, hstep, hone, by simp [hprev], by simp; omega, ?_, fun hne => ?_,
      hwindow⟩
    · simp only [htail, List.length_tail]
      rw [slot_succ hh (by omega), Nat.sub_add_cancel hpos]
    · have htwo : 1 < l.length := by
        have := List.length_pos_iff.mpr hne
        simp at this
        omega
      simp only [hlast (List.ne_nil_of_length_pos hpos), List.length_tail]
      rw [slot_succ hh (by omega)]
      congr 2
      omega

/-! ### Readers -/

theorem peak (hr : RepresentsAt n q l h) {first : T} (hfirst : l.head? = some first) :
    q.peak = .ok first := by
  have hzero : l[0]? = some first := by rwa [← List.head?_eq_getElem?]
  have helement := hr.element hzero
  rwa [slot_zero hr.head_lt, ← hr.head] at helement

theorem peakFromEnd (hr : RepresentsAt n q l h) {last : T} (hlast : l.getLast? = some last) :
    q.peakFromEnd = .ok last := by
  have hne : l ≠ [] := by
    rintro rfl
    cases hlast
  have hget : l[l.length - 1]? = some last := by rwa [← List.getLast?_eq_getElem?]
  have helement := hr.element hget
  rwa [← hr.last hne] at helement

theorem peakDouble (hr : RepresentsAt n q l h) (debug : Bool) {first second : T}
    (hfirst : l[0]? = some first) (hsecond : l[1]? = some second) :
    q.peakDouble debug = .ok (first, second) := by
  have htwo : 1 < l.length := (List.getElem?_eq_some_iff.mp hsecond).1
  have h0 := hr.element hfirst
  have h1 := hr.element hsecond
  rw [slot_zero hr.head_lt, ← hr.head] at h0
  have hstep : (int32 (q.head + 1)).tmod q.capacity = slot n h 1 := by
    rw [hr.head, hr.capacity, tmod_succ hr.head_lt hr.fits]
  have hnot : ¬ (debug = true ∧ q.count < 2) := by
    rw [hr.count]
    omega
  rw [QueueCircled.peakDouble, if_neg hnot, do_of_ok h0, hstep, do_of_ok h1]

theorem peakDoubleFromEnd (hr : RepresentsAt n q l h) (debug : Bool) {penultimate last : T}
    (htwo : 2 ≤ l.length) (hpenultimate : l[l.length - 2]? = some penultimate)
    (hlast : l[l.length - 1]? = some last) :
    q.peakDoubleFromEnd debug = .ok (penultimate, last) := by
  have hmax := arrayMaxLength_lt
  have hfits := hr.fits
  have hh := hr.head_lt
  have hle := hr.length_le
  have hne : l ≠ [] := List.ne_nil_of_length_pos (by omega)
  have h2 := hr.element hpenultimate
  have h1 := hr.element hlast
  rw [← hr.last hne] at h1
  have hnot : ¬ (debug = true ∧ q.count < 2) := by
    rw [hr.count]
    omega
  have hprev : (if int32 (q.last - 1) < 0 then int32 (q.capacity + int32 (q.last - 1))
      else int32 (q.last - 1)) = slot n h (l.length - 2) := by
    have hrange : slot n h (l.length - 1) < n := slot_lt hh (by omega)
    have hone : int32 (q.last - 1) = (slot n h (l.length - 1) : ℤ) - 1 := by
      rw [hr.last hne, int32_of_range] <;> omega
    rw [hone, hr.capacity]
    split_ifs with hneg
    · rw [int32_of_range (by omega) (by omega)]
      unfold slot at hneg ⊢
      split_ifs at hneg ⊢ <;> omega
    · unfold slot at hneg ⊢
      split_ifs at hneg ⊢ <;> omega
  rw [QueueCircled.peakDoubleFromEnd, if_neg hnot]
  simp only [hprev]
  rw [do_of_ok h2, do_of_ok h1]

/-! ### Reading by index -/

theorem sequenceIndex (hr : RepresentsAt n q l h) {i : ℕ} (hi : i < l.length)
    (hrange : h + i < 2 ^ 31) : q.sequenceIndexToActualIndex i = .ok (slot n h i : ℤ) := by
  have hmax := arrayMaxLength_lt
  have hh := hr.head_lt
  have hle := hr.length_le
  have hcast : ((h + i : ℕ) : ℤ) = (h : ℤ) + i := rfl
  have hsum : int32 (q.head + i) = (h + i : ℕ) := by
    rw [hr.head, int32_of_range] <;> omega
  rw [QueueCircled.sequenceIndexToActualIndex, if_pos (by rw [hr.capacity]; omega)]
  simp only [hsum, hr.capacity, ← Int.ofNat_tmod]
  split_ifs with hlt
  · rw [slot, if_pos (by omega)]
  · rw [slot_eq_mod hh (by omega)]

/-- A sum that does not fit turns negative and passes for an index. -/
theorem sequenceIndex_overflow (hr : RepresentsAt n q l h) {i : ℕ} (hi : i < l.length)
    (hrange : 2 ^ 31 ≤ h + i) :
    ∃ index, q.sequenceIndexToActualIndex i = .ok index ∧ index < 0 := by
  have hmax := arrayMaxLength_lt
  have hfits := hr.fits
  have hh := hr.head_lt
  have hle := hr.length_le
  have hsum : int32 (q.head + i) = (h + i : ℕ) - 2 ^ 32 := by
    have hperiod : int32 (((h + i : ℕ) : ℤ)) = int32 ((h + i : ℕ) - 2 ^ 32) := by
      unfold int32
      rw [show ((h + i : ℕ) : ℤ) - 2 ^ 32 = ((h + i : ℕ) : ℤ) + ((2 ^ 32 : ℕ) : ℤ) * (-1) by omega,
        Int.add_mul_bmod_self_left]
    rw [hr.head, show (h : ℤ) + i = ((h + i : ℕ) : ℤ) from rfl, hperiod, int32_of_range] <;> omega
  refine ⟨int32 (q.head + i), ?_, by omega⟩
  rw [QueueCircled.sequenceIndexToActualIndex, if_pos (by rw [hr.capacity]; omega)]
  simp only [if_pos (show int32 (q.head + i) < q.capacity by rw [hr.capacity]; omega)]

theorem getByIndex (hr : RepresentsAt n q l h) {i : ℕ} {item : T} (hi : l[i]? = some item)
    (hrange : h + i < 2 ^ 31) : q.getByIndex i = .ok item := by
  have hlt : i < l.length := (List.getElem?_eq_some_iff.mp hi).1
  rw [QueueCircled.getByIndex, do_of_ok (hr.sequenceIndex hlt hrange), hr.element hi]

theorem getByIndex_overflow (hr : RepresentsAt n q l h) {i : ℕ} (hi : i < l.length)
    (hrange : 2 ^ 31 ≤ h + i) : q.getByIndex i = .error (.raised .indexOutOfRange) := by
  obtain ⟨index, hindex, hneg⟩ := hr.sequenceIndex_overflow hi hrange
  rw [QueueCircled.getByIndex, do_of_ok hindex, elementAt, if_pos hneg]

theorem setByIndex (hr : RepresentsAt n q l h) {i : ℕ} (hi : i < l.length)
    (hrange : h + i < 2 ^ 31) (item : T) :
    ∃ q', q.setByIndex item i = .ok q' ∧ RepresentsAt n q' (l.set i item) h := by
  have hindex := hr.sequenceIndex hi hrange
  obtain ⟨rfl, hcap, hfits, hhead, hh, hcount, hle, htail, hlast, hl⟩ := hr
  have hitems := setElement_natCast (slot_lt hh (show i < q.items.length by omega)) item
  refine ⟨{ q with items := q.items.set (slot q.items.length h i) item }, ?_, ?_⟩
  · rw [QueueCircled.setByIndex, do_of_ok hindex, do_of_ok hitems]
  · refine ⟨by simp, hcap, hfits, hhead, hh, by simp [hcount], by simpa using hle, by simpa using htail,
      fun hne => ?_, window_set hh hle hl hi item⟩
    have hold : l ≠ [] := by
      rintro rfl
      simp at hi
    simpa using hlast hold

theorem setByIndex_overflow (hr : RepresentsAt n q l h) {i : ℕ} (hi : i < l.length)
    (hrange : 2 ^ 31 ≤ h + i) (item : T) :
    q.setByIndex item i = .error (.raised .indexOutOfRange) := by
  obtain ⟨index, hindex, hneg⟩ := hr.sequenceIndex_overflow hi hrange
  rw [QueueCircled.setByIndex, do_of_ok hindex, setElement, if_pos (.inl hneg)]
  rfl

/-- The loop ends at the first equal element unless a sum leaves the `int`s before. -/
theorem indexOfFrom [BEq T] (hr : RepresentsAt n q l h) (item : T) {i left : ℕ}
    (hleft : i + left = l.length) :
    (h + i + scanned (l.drop i) item ≤ 2 ^ 31 → q.indexOfFrom item i left =
        .ok (((l.drop i).findIdx? (· == item)).elim (-1) fun k => ((i + k : ℕ) : ℤ))) ∧
      (0 < left → 2 ^ 31 < h + i + scanned (l.drop i) item →
        q.indexOfFrom item i left = .error (.raised .indexOutOfRange)) := by
  induction left generalizing i with
  | zero =>
    have hnil : l.drop i = [] := List.drop_eq_nil_of_le (by omega)
    exact ⟨fun _ => by simp [hnil, QueueCircled.indexOfFrom], fun hpos => absurd hpos (by omega)⟩
  | succ left ih =>
    have hlt : i < l.length := by omega
    have hdrop : l.drop i = l[i] :: l.drop (i + 1) := List.drop_eq_getElem_cons hlt
    have hget : l[i]? = some l[i] := List.getElem?_eq_getElem hlt
    obtain ⟨hok, hover⟩ := ih (i := i + 1) (by omega)
    rw [hdrop, scanned_cons, List.findIdx?_cons]
    by_cases hrange : h + i < 2 ^ 31
    · have helement := hr.getByIndex hget hrange
      rw [QueueCircled.indexOfFrom, do_of_ok helement]
      split_ifs with heq
      · exact ⟨fun _ => rfl, fun _ hfar => absurd hfar (by omega)⟩
      · refine ⟨fun hnear => ?_, fun _ hfar => ?_⟩
        · rw [hok (by omega)]
          cases (l.drop (i + 1)).findIdx? (· == item) with
          | none => rfl
          | some k =>
            simp only [Option.map_some, Option.elim_some]
            congr 2
            omega
        · by_cases hzero : left = 0
          · subst hzero
            have hnil : l.drop (i + 1) = [] := List.drop_eq_nil_of_le (by omega)
            simp only [hnil, scanned, List.findIdx?_nil, Option.elim_none, List.length_nil] at hfar
            omega
          · exact hover (by omega) (by omega)
    · have hfault := hr.getByIndex_overflow hlt (by omega)
      refine ⟨fun hnear => ?_, fun _ _ => ?_⟩
      · split_ifs at hnear <;> omega
      · rw [QueueCircled.indexOfFrom, hfault]
        rfl

theorem indexOf [BEq T] (hr : RepresentsAt n q l h) (item : T) :
    (h + scanned l item ≤ 2 ^ 31 → q.indexOf item =
        .ok ((l.findIdx? (· == item)).elim (-1) fun i => (i : ℤ))) ∧
      (2 ^ 31 < h + scanned l item → q.indexOf item = .error (.raised .indexOutOfRange)) := by
  have hcount : q.count.toNat = l.length := by rw [hr.count, Int.toNat_natCast]
  have hloop := hr.indexOfFrom item (show 0 + l.length = l.length by omega)
  simp only [List.drop_zero, Nat.add_zero, Nat.zero_add] at hloop
  rw [QueueCircled.indexOf, hcount]
  refine ⟨hloop.1, fun hfar => hloop.2 ?_ hfar⟩
  have hfits := hr.fits
  have hh := hr.head_lt
  have hmax := arrayMaxLength_lt
  by_contra hzero
  have hnil : l = [] := List.eq_nil_of_length_eq_zero (by omega)
  simp only [hnil, scanned, List.findIdx?_nil, Option.elim_none, List.length_nil] at hfar
  omega

end RepresentsAt

end DecodingProxy.Collections
