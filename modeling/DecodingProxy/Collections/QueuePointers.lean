import DecodingProxy.Collections.QueueRefinement

/-!
# The pointers of `QueueCircled<T>`

`tail` and `last` repeat what `head` and `count` say. The methods that resize and shift the
queue keep them so, except where `last` is stale from the start (a new queue and `Reset` have
it at the first cell) and where a shift takes a pointer past the wrap that it handles.
-/

namespace DecodingProxy.Collections
open DecodingProxy.Rings DecodingProxy.Runs DecodingProxy.Runtime

variable {T : Type}

inductive QueueOperation (T : Type)
  | call (made : QueueCall T)
  | extendAfterLast
  | extendBeforeHead
  | shrinkLast
  | shrinkHead
  | shiftForward (countToShift : ℤ)
  | shiftBackward (countToShift : ℤ)
  deriving DecidableEq, Repr

/-- What the callers see to; the methods that resize check their guard themselves. -/
def QueueCall.Allowed (q : QueueCircled T) : QueueCall T → Prop
  | .dequeue | .peak | .peakFromEnd => 0 < q.count
  | .peakDouble | .peakDoubleFromEnd => 2 ≤ q.count
  | .get index | .set index _ => index < q.count
  | .enqueue _ | .fill _ | .reset | .indexOf _ => True

namespace QueueOperation

/-- An allowed call that throws has not changed the queue yet. -/
def step [BEq T] [Inhabited T] (debug : Bool) (q : QueueCircled T) :
    QueueOperation T → Except Fault (QueueCircled T)
  | .call made =>
    match made.actual debug q with
    | .ok (q, _) => .ok q
    | .error _ => .ok q
  | .extendAfterLast => q.extendAfterLast.map Prod.fst
  | .extendBeforeHead => q.extendBeforeHead.map Prod.fst
  | .shrinkLast => q.shrinkLast.map Prod.fst
  | .shrinkHead => q.shrinkHead.map Prod.fst
  | .shiftForward countToShift => .ok (q.shiftForward countToShift)
  | .shiftBackward countToShift => .ok (q.shiftBackward countToShift)

def Allowed (q : QueueCircled T) : QueueOperation T → Prop
  | .call made => made.Allowed q
  | .shiftForward countToShift | .shiftBackward countToShift =>
    -2 ^ 31 ≤ countToShift ∧ countToShift < 2 ^ 31
  | .extendAfterLast | .extendBeforeHead | .shrinkLast | .shrinkHead => True

/-- The operation sets `last` without reading it. -/
def setsLast : QueueOperation T → Bool
  | .call (.enqueue _) | .call (.fill _) | .extendAfterLast => true
  | _ => false

/-- No pointer leaves the cells, and `ShiftBackward` takes `last` over no wrap. -/
def InPlace (n : ℕ) (q : QueueCircled T) : QueueOperation T → Prop
  | .call .reset => n = 1
  | .shiftForward countToShift =>
    n = 1 ∨ ∀ p ∈ [q.head, q.tail, q.last], 0 ≤ p + countToShift ∧ p + countToShift < 2 ^ 31
  | .shiftBackward countToShift =>
    countToShift.tmod n ≤ q.last ∧
      ∀ p ∈ [q.head, q.tail, q.last], p - countToShift.tmod n < n
  | _ => True

instance (q : QueueCircled T) : (call : QueueCall T) → Decidable (call.Allowed q)
  | .dequeue | .peak | .peakFromEnd => inferInstanceAs (Decidable (0 < q.count))
  | .peakDouble | .peakDoubleFromEnd => inferInstanceAs (Decidable (2 ≤ q.count))
  | .get index | .set index _ => inferInstanceAs (Decidable ((index : ℤ) < q.count))
  | .enqueue _ | .fill _ | .reset | .indexOf _ => isTrue trivial

instance (q : QueueCircled T) : (op : QueueOperation T) → Decidable (op.Allowed q)
  | .call made => inferInstanceAs (Decidable (made.Allowed q))
  | .shiftForward k | .shiftBackward k => inferInstanceAs (Decidable (-2 ^ 31 ≤ k ∧ k < 2 ^ 31))
  | .extendAfterLast | .extendBeforeHead | .shrinkLast | .shrinkHead => isTrue trivial

instance (n : ℕ) (q : QueueCircled T) : (op : QueueOperation T) → Decidable (op.InPlace n q)
  | .call .reset => inferInstanceAs (Decidable (n = 1))
  | .shiftForward k => inferInstanceAs (Decidable (n = 1 ∨
      ∀ p ∈ [q.head, q.tail, q.last], 0 ≤ p + k ∧ p + k < 2 ^ 31))
  | .shiftBackward k => inferInstanceAs (Decidable (k.tmod n ≤ q.last ∧
      ∀ p ∈ [q.head, q.tail, q.last], p - k.tmod n < n))
  | .call (.enqueue _) | .call .dequeue | .call (.fill _) | .call (.get _) | .call (.set _ _)
  | .call .peak | .call .peakFromEnd | .call .peakDouble | .call .peakDoubleFromEnd
  | .call (.indexOf _) | .extendAfterLast | .extendBeforeHead | .shrinkLast | .shrinkHead =>
    isTrue trivial

end QueueOperation

/-- `tail` and `last` as `head` and `count` give them. -/
def PointersAgree (n : ℕ) (q : QueueCircled T) : Prop :=
  q.tail = (q.head + q.count) % n ∧ q.last = (q.tail - 1) % n

/-- On a new queue the pointers agree after every operation of an allowed run, and shifting
forward and back by the same count changes nothing. -/
def KeepsPointers [BEq T] [Inhabited T] (debug : Bool) (n : ℕ) (ops : List (QueueOperation T)) :
    Prop :=
  ∀ queue, QueueCircled.new n = .ok queue →
    Along (QueueOperation.step debug) QueueOperation.Allowed queue ops →
      (∀ made op q, made ++ [op] <+: ops →
        run (QueueOperation.step debug) queue (made ++ [op]) = .ok q → PointersAgree n q) ∧
      ∀ made k q r, made ++ [.shiftForward k, .shiftBackward k] <+: ops →
        run (QueueOperation.step debug) queue made = .ok q →
          run (QueueOperation.step debug) q [.shiftForward k, .shiftBackward k] = .ok r → r = q

/-! ### Cells by `%` -/

theorem slot_cast {n h i : ℕ} (hh : h < n) (hi : i ≤ n) :
    (slot n h i : ℤ) = ((h : ℤ) + i) % n := by
  rw [slot_eq_mod hh hi]
  rfl

theorem tmod_shift {n : ℕ} {p k : ℤ} (hp : 0 ≤ p ∧ p < n)
    (hk : n = 1 ∨ 0 ≤ p + k ∧ p + k < 2 ^ 31) :
    (int32 (p + k)).tmod n = (p + k) % n := by
  rcases hk with rfl | ⟨hlow, hhigh⟩
  · simp
  · rw [int32_of_range (by omega) hhigh, Int.tmod_eq_emod_of_nonneg hlow]

theorem back_eq {n : ℕ} {p shift : ℤ} (hn : n ≤ arrayMaxLength) (hp : 0 ≤ p ∧ p < n)
    (hshift : shift ≤ n) (hback : p - shift < n) :
    (if int32 (p - shift) < 0 then int32 (n + int32 (p - shift)) else int32 (p - shift)) =
      (p - shift) % n := by
  have hmax := arrayMaxLength_lt
  rw [int32_of_range (by omega) (by omega)]
  split_ifs with hneg
  · rw [int32_of_range (by omega) (by omega), ← Int.emod_eq_of_lt (show 0 ≤ (n : ℤ) + (p - shift) by
      omega) (show (n : ℤ) + (p - shift) < n by omega), Int.add_emod_left]
  · rw [Int.emod_eq_of_lt (by omega) (by omega)]

/-! ### The pointers as an invariant -/

/-- All pointers but `last`. -/
structure Ends (n : ℕ) (q : QueueCircled T) : Prop where
  length : q.items.length = n
  capacity : q.capacity = n
  fits : n ≤ arrayMaxLength
  head : 0 ≤ q.head ∧ q.head < n
  count : 0 ≤ q.count ∧ q.count ≤ n
  tail : q.tail = (q.head + q.count) % n

structure Pointers (n : ℕ) (q : QueueCircled T) : Prop extends Ends n q where
  last : q.last = (q.tail - 1) % n

section Queue
variable {n h : ℕ} {q : QueueCircled T} {l : List T}

theorem RepresentsAt.ends (hr : RepresentsAt n q l h) : Ends n q := by
  have hh := hr.head_lt
  have hle := hr.length_le
  refine ⟨hr.length, hr.capacity, hr.fits, ?_, ?_, ?_⟩
  · rw [hr.head]
    omega
  · rw [hr.count]
    omega
  · rw [hr.tail, hr.head, hr.count, slot_cast hh hle]

theorem RepresentsAt.pointers (hr : RepresentsAt n q l h) (hne : l ≠ []) : Pointers n q := by
  have hpos := List.length_pos_iff.mpr hne
  have hle := hr.length_le
  refine ⟨hr.ends, ?_⟩
  rw [hr.last hne, hr.tail, slot_cast hr.head_lt (by omega), slot_cast hr.head_lt hle,
    Int.emod_sub_emod]
  congr 1
  omega

theorem Pointers.agree (hp : Pointers n q) : PointersAgree n q := ⟨hp.tail, hp.last⟩

theorem Ends.tail_range (he : Ends n q) : 0 ≤ q.tail ∧ q.tail < n := by
  have hhead := he.head
  rw [he.tail]
  exact ⟨Int.emod_nonneg _ (by omega), Int.emod_lt_of_pos _ (by omega)⟩

theorem Pointers.last_range (hp : Pointers n q) : 0 ≤ q.last ∧ q.last < n := by
  have hhead := hp.head
  rw [hp.last]
  exact ⟨Int.emod_nonneg _ (by omega), Int.emod_lt_of_pos _ (by omega)⟩

theorem Pointers.represents (hp : Pointers n q) :
    RepresentsAt n q (window q.items q.head.toNat q.count.toNat) q.head.toNat := by
  have hhead := hp.head
  have hcount := hp.count
  have hlen := hp.length
  have hh : q.head.toNat < n := by omega
  have hwindow : (window q.items q.head.toNat q.count.toNat).length = q.count.toNat :=
    window_length (by omega)
  have hheadCast : (q.head.toNat : ℤ) = q.head := Int.toNat_of_nonneg hhead.1
  have hcountCast : (q.count.toNat : ℤ) = q.count := Int.toNat_of_nonneg hcount.1
  refine ⟨hlen, hp.capacity, hp.fits, hheadCast.symm, hh, ?_, ?_, ?_, fun hne => ?_, ?_⟩
  · rw [hwindow, hcountCast]
  · omega
  · rw [hwindow, slot_cast hh (by omega), hheadCast, hcountCast, hp.tail]
  · have hpos := List.length_pos_iff.mpr hne
    rw [hwindow, slot_cast hh (by omega), hheadCast, hp.last, hp.tail, Int.emod_sub_emod]
    congr 1
    omega
  · rw [hwindow]

/-! ### Resizing -/

theorem refAt_ok_iff {index : ℤ} {r : QueueCircled T × ℤ} :
    QueueCircled.refAt q index = .ok r ↔
      (∃ item, elementAt q.items index = .ok item) ∧ r = (q, index) := by
  unfold QueueCircled.refAt
  rw [do_ok_iff]
  constructor
  · rintro ⟨item, hitem, heq⟩
    cases heq
    exact ⟨⟨item, hitem⟩, rfl⟩
  · rintro ⟨⟨item, hitem⟩, rfl⟩
    exact ⟨item, hitem, rfl⟩

theorem Ends.extendAfterLast (he : Ends n q) {q' : QueueCircled T} {index : ℤ}
    (h : q.extendAfterLast = .ok (q', index)) : Pointers n q' := by
  have hmax := arrayMaxLength_lt
  have htail := he.tail_range
  obtain ⟨hlen, hcap, hfits, hhead, hcount, heq⟩ := he
  unfold QueueCircled.extendAfterLast at h
  split_ifs at h with hroom
  obtain ⟨-, heq'⟩ := refAt_ok_iff.mp h
  cases heq'
  have hnext : (int32 (q.tail + 1)).tmod q.capacity = (q.tail + 1) % n := by
    rw [hcap, tmod_shift htail (.inr (by omega))]
  have hmore : int32 (q.count + 1) = q.count + 1 := int32_of_range (by omega) (by omega)
  refine ⟨⟨hlen, hcap, hfits, hhead, ?_, ?_⟩, ?_⟩
  · simp only [hmore]
    omega
  · simp only [hnext, hmore]
    rw [heq, Int.emod_add_emod]
    congr 1
    omega
  · simp only [hnext]
    rw [Int.emod_sub_emod, Int.add_sub_cancel, Int.emod_eq_of_lt htail.1 htail.2]

theorem Ends.extendBeforeHead (he : Ends n q) {q' : QueueCircled T} {index : ℤ}
    (h : q.extendBeforeHead = .ok (q', index)) :
    Ends n q' ∧ q'.tail = q.tail ∧ q'.last = q.last := by
  have hmax := arrayMaxLength_lt
  obtain ⟨hlen, hcap, hfits, hhead, hcount, htail⟩ := he
  unfold QueueCircled.extendBeforeHead at h
  split_ifs at h with hroom
  obtain ⟨-, heq⟩ := refAt_ok_iff.mp h
  cases heq
  have hprev : (if int32 (q.head - 1) < 0 then int32 (q.capacity + int32 (q.head - 1))
      else int32 (q.head - 1)) = (q.head - 1) % n := by
    rw [hcap, back_eq hfits hhead (by omega) (by omega)]
  have hmore : int32 (q.count + 1) = q.count + 1 := int32_of_range (by omega) (by omega)
  refine ⟨⟨hlen, hcap, hfits, ?_, ?_, ?_⟩, rfl, rfl⟩
  · simp only [hprev]
    exact ⟨Int.emod_nonneg _ (by omega), Int.emod_lt_of_pos _ (by omega)⟩
  · simp only [hmore]
    omega
  · simp only [hprev, hmore]
    rw [htail, Int.emod_add_emod]
    congr 1
    omega

theorem Pointers.extendBeforeHead (hp : Pointers n q) {q' : QueueCircled T} {index : ℤ}
    (h : q.extendBeforeHead = .ok (q', index)) : Pointers n q' := by
  obtain ⟨hends, htail, hlast⟩ := hp.toEnds.extendBeforeHead h
  exact ⟨hends, by rw [hlast, htail, hp.last]⟩

theorem Pointers.shrinkLast (hp : Pointers n q) {q' : QueueCircled T} {index : ℤ}
    (h : q.shrinkLast = .ok (q', index)) : Pointers n q' := by
  have hmax := arrayMaxLength_lt
  have hlastRange := hp.last_range
  obtain ⟨⟨hlen, hcap, hfits, hhead, hcount, htail⟩, hlast⟩ := hp
  unfold QueueCircled.shrinkLast at h
  split_ifs at h with hsome
  obtain ⟨-, heq⟩ := refAt_ok_iff.mp h
  cases heq
  have hprev : (if int32 (q.last - 1) < 0 then int32 (int32 (q.last - 1) + q.capacity)
      else int32 (q.last - 1)) = (q.last - 1) % n := by
    rw [Int.add_comm _ q.capacity, hcap, back_eq hfits hlastRange (by omega) (by omega)]
  have hless : int32 (q.count - 1) = q.count - 1 := int32_of_range (by omega) (by omega)
  refine ⟨⟨hlen, hcap, hfits, hhead, ?_, ?_⟩, ?_⟩
  · simp only [hless]
    omega
  · simp only [hless]
    rw [hlast, htail, Int.emod_sub_emod]
    congr 1
    omega
  · simp only [hprev]

theorem Ends.head_next (he : Ends n q) (hsome : 0 < q.count) {q' : QueueCircled T}
    (hlen : q'.items.length = n) (hcap : q'.capacity = q.capacity)
    (hhead : q'.head = (int32 (q.head + 1)).tmod q.capacity)
    (hcount : q'.count = int32 (q.count - 1)) (htail : q'.tail = q.tail) : Ends n q' := by
  have hmax := arrayMaxLength_lt
  have hfits := he.fits
  have hheadRange := he.head
  have hcountRange := he.count
  have hnext : q'.head = (q.head + 1) % n := by
    rw [hhead, he.capacity, tmod_shift hheadRange (.inr (by omega))]
  have hless : q'.count = q.count - 1 := by
    rw [hcount, int32_of_range (by omega) (by omega)]
  refine ⟨hlen, hcap.trans he.capacity, hfits, ?_, by omega, ?_⟩
  · rw [hnext]
    exact ⟨Int.emod_nonneg _ (by omega), Int.emod_lt_of_pos _ (by omega)⟩
  · rw [htail, he.tail, hnext, hless, Int.emod_add_emod]
    congr 1
    omega

theorem Ends.shrinkHead (he : Ends n q) {q' : QueueCircled T} {index : ℤ}
    (h : q.shrinkHead = .ok (q', index)) :
    Ends n q' ∧ q'.tail = q.tail ∧ q'.last = q.last := by
  unfold QueueCircled.shrinkHead at h
  split_ifs at h with hsome
  obtain ⟨-, heq⟩ := refAt_ok_iff.mp h
  cases heq
  exact ⟨he.head_next hsome he.length rfl rfl rfl rfl, rfl, rfl⟩

theorem Pointers.shrinkHead (hp : Pointers n q) {q' : QueueCircled T} {index : ℤ}
    (h : q.shrinkHead = .ok (q', index)) : Pointers n q' := by
  obtain ⟨hends, htail, hlast⟩ := hp.toEnds.shrinkHead h
  exact ⟨hends, by rw [hlast, htail, hp.last]⟩

theorem clearHead_length [Inhabited T] {debug : Bool} {items : List T}
    (h : q.clearHead debug = .ok items) : items.length = q.items.length := by
  unfold QueueCircled.clearHead setElement at h
  split_ifs at h
  · cases h
    exact List.length_set
  · cases h
    rfl

theorem Ends.dequeue [Inhabited T] (he : Ends n q) (hsome : 0 < q.count) {debug : Bool}
    {q' : QueueCircled T} {item : T} (h : q.dequeue debug = .ok (q', item)) :
    Ends n q' ∧ q'.tail = q.tail ∧ q'.last = q.last := by
  unfold QueueCircled.dequeue at h
  obtain ⟨result, -, h⟩ := do_ok_iff.mp h
  obtain ⟨items, hitems, h⟩ := do_ok_iff.mp h
  simp only at h
  split_ifs at h
  cases h
  exact ⟨he.head_next hsome ((clearHead_length hitems).trans he.length) rfl rfl rfl rfl, rfl, rfl⟩

theorem Pointers.dequeue [Inhabited T] (hp : Pointers n q) (hsome : 0 < q.count) {debug : Bool}
    {q' : QueueCircled T} {item : T} (h : q.dequeue debug = .ok (q', item)) : Pointers n q' := by
  obtain ⟨hends, htail, hlast⟩ := hp.toEnds.dequeue hsome h
  exact ⟨hends, by rw [hlast, htail, hp.last]⟩

/-! ### Shifting -/

/-- All three pointers `d` cells on. -/
def moved (n : ℕ) (d : ℤ) (q : QueueCircled T) : QueueCircled T :=
  { q with
    head := (q.head + d) % n
    tail := (q.tail + d) % n
    last := (q.last + d) % n }

theorem Ends.of_moved (he : Ends n q) (d : ℤ) : Ends n (moved n d q) := by
  have hhead := he.head
  refine ⟨he.length, he.capacity, he.fits, ?_, he.count, ?_⟩
  · exact ⟨Int.emod_nonneg _ (by omega), Int.emod_lt_of_pos _ (by omega)⟩
  · simp only [moved]
    rw [he.tail, Int.emod_add_emod, Int.emod_add_emod]
    congr 1
    omega

theorem Pointers.of_moved (hp : Pointers n q) (d : ℤ) : Pointers n (moved n d q) := by
  refine ⟨hp.toEnds.of_moved d, ?_⟩
  simp only [moved]
  rw [hp.last, Int.emod_add_emod, Int.emod_sub_emod]
  congr 1
  omega

theorem Pointers.shiftForward_eq (hp : Pointers n q) {k : ℤ}
    (hk : QueueOperation.InPlace n q (.shiftForward k)) : q.shiftForward k = moved n k q := by
  have hcell : ∀ p ∈ [q.head, q.tail, q.last], n = 1 ∨ 0 ≤ p + k ∧ p + k < 2 ^ 31 :=
    fun p hmem => hk.imp_right fun h => h p hmem
  unfold QueueCircled.shiftForward moved
  rw [hp.capacity, tmod_shift hp.head (hcell q.head (by simp)),
    tmod_shift hp.tail_range (hcell q.tail (by simp)),
    tmod_shift hp.last_range (hcell q.last (by simp))]

/-- Where the last pointer needs no wrap, `ShiftBackward` moves all three alike. -/
theorem Pointers.shiftBackward_eq (hp : Pointers n q) {k : ℤ}
    (hk : QueueOperation.InPlace n q (.shiftBackward k)) :
    q.shiftBackward k = moved n (-k.tmod n) q := by
  have hmax := arrayMaxLength_lt
  have hfits := hp.fits
  have hhead := hp.head
  have hlast := hp.last_range
  obtain ⟨hnowrap, hback⟩ := hk
  have hshift : k.tmod n ≤ n := (Int.tmod_lt_of_pos k (show (0 : ℤ) < n by omega)).le
  have hlastBack := hback q.last (by simp)
  have hlastEq : int32 (q.last - k.tmod n) = q.last - k.tmod n :=
    int32_of_range (by omega) (by omega)
  unfold QueueCircled.shiftBackward moved
  simp only [hp.capacity, back_eq hfits hhead hshift (hback q.head (by simp)),
    back_eq hfits hp.tail_range hshift (hback q.tail (by simp)), hlastEq,
    if_neg (show ¬ q.last - k.tmod n < 0 by omega)]
  rw [← Int.sub_eq_add_neg, ← Int.sub_eq_add_neg, ← Int.sub_eq_add_neg,
    Int.emod_eq_of_lt (show 0 ≤ q.last - k.tmod n by omega) hlastBack]

theorem emod_back {p k : ℤ} (hp : 0 ≤ p ∧ p < n) : ((p + k) % n + -k.tmod n) % n = p := by
  have hdiv := Int.tmod_def k n
  rw [Int.emod_add_emod, show p + k + -k.tmod n = p + n * k.tdiv n by omega,
    Int.add_mul_emod_self_left, Int.emod_eq_of_lt hp.1 hp.2]

theorem Pointers.moved_back (hp : Pointers n q) (k : ℤ) :
    moved n (-k.tmod n) (moved n k q) = q := by
  unfold moved
  simp only [emod_back hp.head, emod_back hp.tail_range, emod_back hp.last_range]

/-! ### Runs -/

theorem Ends.setByIndex (he : Ends n q) {q' : QueueCircled T} {item : T} {index : ℤ}
    (h : q.setByIndex item index = .ok q') : Ends n q' ∧ q'.tail = q.tail ∧ q'.last = q.last := by
  unfold QueueCircled.setByIndex at h
  obtain ⟨cell, -, h⟩ := do_ok_iff.mp h
  obtain ⟨items, hitems, h⟩ := do_ok_iff.mp h
  cases h
  unfold setElement at hitems
  split_ifs at hitems
  cases hitems
  exact ⟨⟨List.length_set.trans he.length, he.capacity, he.fits, he.head, he.count, he.tail⟩,
    rfl, rfl⟩

theorem set_pointers (hp : Pointers n q) {q' : QueueCircled T} {item : T} {index : ℤ}
    (h : q.setByIndex item index = .ok q') : Pointers n q' := by
  obtain ⟨hends, htail, hlast⟩ := hp.toEnds.setByIndex h
  exact ⟨hends, by rw [hlast, htail, hp.last]⟩

section Steps
variable [BEq T] [Inhabited T] {debug : Bool} {op : QueueOperation T} {q' : QueueCircled T}

theorem step_call_iff {call : QueueCall T} :
    QueueOperation.step debug q (.call call) = .ok q' ↔
      (∃ seen, call.actual debug q = .ok (q', seen)) ∨
        (∃ fault, call.actual debug q = .error fault) ∧ q' = q := by
  cases h : call.actual debug q with
  | ok r =>
    obtain ⟨r, seen⟩ := r
    simp [QueueOperation.step, h]
  | error fault => simp [QueueOperation.step, h, eq_comm]

/-- `Enqueue` and `Fill` leave an element, and so does a call that changes an element; every
other call but `Reset` moves at most the head. -/
theorem Pointers.call (hp : Pointers n q) {call : QueueCall T} (hallowed : call.Allowed q)
    (hin : QueueOperation.InPlace n q (.call call))
    (h : QueueOperation.step debug q (.call call) = .ok q') : Pointers n q' := by
  have hhead := hp.head
  rcases step_call_iff.mp h with ⟨seen, hactual⟩ | ⟨-, rfl⟩
  · cases call with
    | enqueue item =>
      obtain ⟨r, h', hr, hrep⟩ := hp.represents.enqueue item
      simp only [QueueCall.actual, hr, Except.map] at hactual
      cases hactual
      apply hrep.pointers
      unfold pushBounded
      split_ifs <;> simp
    | dequeue =>
      obtain ⟨⟨r, item⟩, hr, heq⟩ := map_ok_iff.mp hactual
      cases heq
      exact hp.dequeue hallowed hr
    | fill item =>
      cases hactual
      refine (hp.represents.fill item).pointers ?_
      simp
      omega
    | reset =>
      obtain rfl : n = 1 := hin
      cases hactual
      exact ⟨⟨hp.length, hp.capacity, hp.fits, by simp [QueueCircled.reset],
        by simp [QueueCircled.reset], by simp [QueueCircled.reset]⟩,
        by simp [QueueCircled.reset]⟩
    | set index item =>
      obtain ⟨r, hr, heq⟩ := map_ok_iff.mp hactual
      cases heq
      exact set_pointers hp hr
    | get index | peak | peakFromEnd | peakDouble | peakDoubleFromEnd | indexOf item =>
      obtain ⟨r, -, heq⟩ := map_ok_iff.mp hactual
      cases heq
      exact hp
  · exact hp

theorem Pointers.step (hp : Pointers n q) (hallowed : op.Allowed q) (hin : op.InPlace n q)
    (h : op.step debug q = .ok q') : Pointers n q' := by
  cases op with
  | call call => exact hp.call hallowed hin h
  | extendAfterLast =>
    obtain ⟨⟨r, index⟩, hr, rfl⟩ := map_ok_iff.mp h
    exact hp.toEnds.extendAfterLast hr
  | extendBeforeHead =>
    obtain ⟨⟨r, index⟩, hr, rfl⟩ := map_ok_iff.mp h
    exact hp.extendBeforeHead hr
  | shrinkLast =>
    obtain ⟨⟨r, index⟩, hr, rfl⟩ := map_ok_iff.mp h
    exact hp.shrinkLast hr
  | shrinkHead =>
    obtain ⟨⟨r, index⟩, hr, rfl⟩ := map_ok_iff.mp h
    exact hp.shrinkHead hr
  | shiftForward k =>
    cases h
    rw [hp.shiftForward_eq hin]
    exact hp.of_moved k
  | shiftBackward k =>
    cases h
    rw [hp.shiftBackward_eq hin]
    exact hp.of_moved _

theorem RepresentsAt.first (hr : RepresentsAt n q [] h) (hsets : op.setsLast)
    (hs : op.step debug q = .ok q') : Pointers n q' := by
  have hh := hr.head_lt
  cases op with
  | call call =>
    cases call with
    | enqueue item =>
      obtain ⟨r, h', hqueue, hrep⟩ := hr.enqueue item
      simp only [QueueOperation.step, QueueCall.actual, hqueue, Except.map] at hs
      cases hs
      apply hrep.pointers
      unfold pushBounded
      split_ifs <;> simp
    | fill item =>
      cases hs
      refine (hr.fill item).pointers ?_
      simp
      omega
    | dequeue | reset | get index | set index item | peak | peakFromEnd | peakDouble
      | peakDoubleFromEnd | indexOf item => cases hsets
  | extendAfterLast =>
    obtain ⟨⟨r, index⟩, hqueue, rfl⟩ := map_ok_iff.mp hs
    exact hr.ends.extendAfterLast hqueue
  | extendBeforeHead | shrinkLast | shrinkHead | shiftForward k | shiftBackward k => cases hsets

omit [BEq T] in
theorem RepresentsAt.pointers_one (hnew : QueueCircled.new ((1 : ℕ) : ℤ) = .ok q) :
    Pointers 1 q := by
  refine ⟨(RepresentsAt.new le_rfl hnew).ends, ?_⟩
  cases hnew
  rfl

theorem pointers_of_run (hn : 1 ≤ n) (hnew : QueueCircled.new (n : ℤ) = .ok q)
    {ops : List (QueueOperation T)} (hfirst : n = 1 ∨ ∀ first ∈ ops.head?, first.setsLast)
    (hsome : n = 1 ∨ ops ≠ [])
    (hin : Along (QueueOperation.step debug) (fun q op => op.Allowed q ∧ op.InPlace n q) q ops)
    (hrun : run (QueueOperation.step debug) q ops = .ok q') : Pointers n q' := by
  have hstep : ∀ (t : QueueCircled T) (op : QueueOperation T) u, Pointers n t →
      (op.Allowed t ∧ op.InPlace n t) → op.step debug t = .ok u → Pointers n u :=
    fun t op u ht hc hu => ht.step hc.1 hc.2 hu
  by_cases hone : n = 1
  · subst hone
    exact hin.run_invariant hstep (RepresentsAt.pointers_one hnew) hrun
  · cases ops with
    | nil => simp [hone] at hsome
    | cons first rest =>
      obtain ⟨t, ht, hrest⟩ := run_cons_ok_iff.mp hrun
      have hsets : first.setsLast := by simpa [hone] using hfirst
      exact (hin.2 t ht).run_invariant hstep ((RepresentsAt.new hn hnew).first hsets ht) hrest

end Steps

end Queue

/-- A run that starts with an operation that sets `last`, uses no `Reset`, and shifts no
pointer out of the cells keeps the pointers, and shifting back undoes shifting forward. -/
theorem keepsPointers [BEq T] [Inhabited T] (debug : Bool) {n : ℕ} (hn : 1 ≤ n)
    {queue : QueueCircled T} (hnew : QueueCircled.new (n : ℤ) = .ok queue)
    {ops : List (QueueOperation T)} (hfirst : n = 1 ∨ ∀ first ∈ ops.head?, first.setsLast)
    (hin : Along (QueueOperation.step debug) (QueueOperation.InPlace n) queue ops) :
    KeepsPointers debug n ops := by
  intro other hother hallowed
  rw [hnew] at hother
  cases hother
  have hboth := hallowed.and hin
  have hstart : ∀ {made : List (QueueOperation T)}, made <+: ops → made ≠ [] →
      n = 1 ∨ ∀ first ∈ made.head?, first.setsLast := by
    rintro made ⟨rest, rfl⟩ hne
    obtain ⟨first, made, rfl⟩ := List.exists_cons_of_ne_nil hne
    simpa using hfirst
  refine ⟨fun made op q hp hrun => ?_, fun made k q r hp hmade hshifts => ?_⟩
  · have hne : made ++ [op] ≠ [] := by simp
    exact (pointers_of_run hn hnew (hstart hp hne) (.inr hne) (hboth.of_prefix hp) hrun).agree
  · have hsome : n = 1 ∨ made ≠ [] := by
      by_contra hnot
      push Not at hnot
      obtain ⟨hone, rfl⟩ := hnot
      obtain ⟨rest, rfl⟩ := hp
      simp [hone, QueueOperation.setsLast] at hfirst
    have hmadePrefix : made <+: ops := (List.prefix_append _ _).trans hp
    have hfirstMade : n = 1 ∨ ∀ first ∈ made.head?, first.setsLast :=
      hsome.elim .inl fun hne => hstart hmadePrefix hne
    have hq : Pointers n q :=
      pointers_of_run hn hnew hfirstMade hsome (hboth.of_prefix hmadePrefix) hmade
    obtain ⟨⟨-, hforward⟩, hrest⟩ := (along_append_iff.mp (hboth.of_prefix hp)).2 q hmade
    obtain ⟨⟨-, hbackward⟩, -⟩ := hrest _ rfl
    have hr : r = (q.shiftForward k).shiftBackward k := by
      cases hshifts
      rfl
    rw [hq.shiftForward_eq hforward] at hbackward hr
    rw [hr, (hq.of_moved k).shiftBackward_eq hbackward, hq.moved_back]

theorem keepsPointers_four :
    1 ≤ 4 ∧
      KeepsPointers false 4 [.call (.enqueue 7), .extendBeforeHead, .shrinkLast, .extendAfterLast,
        .shiftForward 2, .shiftBackward 2, .shrinkHead, .call .dequeue] :=
  ⟨by decide, keepsPointers false (by decide) rfl (by decide) (by decide)⟩

/-- The last of two elements, shifted on and back, is behind the cells. -/
theorem not_keepsPointers_two :
    ¬ KeepsPointers false 2
      [.call (.enqueue 7), .call (.enqueue 8), .shiftForward 1, .shiftBackward 1] := by
  intro hkeeps
  obtain ⟨-, hback⟩ := hkeeps _ rfl (by decide)
  have hsame := hback [.call (.enqueue 7), .call (.enqueue 8)] 1 _ _ List.prefix_rfl rfl rfl
  revert hsame
  decide

end DecodingProxy.Collections
