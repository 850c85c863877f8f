import DecodingProxy.Collections.QueueRemoval

/-!
# `EnumeratorCircled<T>`

The enumerator goes through the cells from the head up to the tail. A full queue has them in
the same cell, so it enumerates nothing.
-/

namespace DecodingProxy.Collections
open DecodingProxy.Rings DecodingProxy.Runs DecodingProxy.Runtime

variable {T : Type}

structure EnumeratorCircled (T : Type) where
  items : List T
  index : ℤ
  tail : ℤ
  deriving DecidableEq, Repr

namespace EnumeratorCircled

def new (items : List T) (head tail : ℤ) : EnumeratorCircled T :=
  { items, tail, index := int32 (head - 1) }

def moveNext (e : EnumeratorCircled T) : Except Fault (EnumeratorCircled T × Bool) :=
  if e.items.length = 0 then .error (.raised .divideByZero)
  else
    let index := (int32 (e.index + 1)).tmod e.items.length
    .ok ({ e with index }, index ≠ e.tail)

def current (e : EnumeratorCircled T) : Except Fault T := elementAt e.items e.index

/-- `foreach`, for at most so many calls of `MoveNext`. -/
def forEach (e : EnumeratorCircled T) : ℕ → Except Halt (List T)
  | 0 => .error .diverges
  | fuel + 1 => do
    let (e, more) ← e.moveNext.mapError .threw
    if more then
      let item ← e.current.mapError .threw
      let rest ← e.forEach fuel
      .ok (item :: rest)
    else .ok []

end EnumeratorCircled

def QueueCircled.getEnumerator (q : QueueCircled T) : EnumeratorCircled T :=
  .new q.items q.head q.tail

/-- Enumerating the queue ends, gives `Count` elements, and these are those of the indexer. -/
def EnumeratesAsIndexed (q : QueueCircled T) : Prop :=
  ∃ fuel l, q.getEnumerator.forEach fuel = .ok l ∧ (l.length : ℤ) = q.count ∧
    ∀ (i : ℕ) item, l[i]? = some item → q.getByIndex i = .ok item

/-- The queue is not full, its tail is where head and count put it, and every index added to
the head is an `int`. -/
def Enumerable (q : QueueCircled T) : Prop :=
  0 < q.capacity ∧
    (if q.count = 0 then q.head.tmod q.capacity = q.tail
    else 0 ≤ q.head ∧ 0 < q.count ∧ q.count < q.capacity ∧ q.head + q.count ≤ 2 ^ 31 ∧
      q.tail = (q.head + q.count) % q.capacity)

/-- The fields are of their types, and the array is as long as the capacity says. -/
structure Typed (q : QueueCircled T) : Prop where
  length : q.capacity = q.items.length
  fits : q.items.length ≤ arrayMaxLength
  head : int32 q.head = q.head
  tail : int32 q.tail = q.tail
  count : int32 q.count = q.count
  last : int32 q.last = q.last

/-! ### The loop -/

section Loop
variable {items l : List T} {tail : ℤ} {fuel n : ℕ}

theorem forEach_end (hn : 0 < n) (hlen : items.length = n) {index : ℤ}
    (hnext : (int32 (index + 1)).tmod n = tail) :
    EnumeratorCircled.forEach ⟨items, index, tail⟩ (fuel + 1) = .ok [] := by
  have hmove : EnumeratorCircled.moveNext ⟨items, index, tail⟩ =
      .ok (⟨items, tail, tail⟩, false) := by
    unfold EnumeratorCircled.moveNext
    simp only [hlen, hnext]
    rw [if_neg (by omega)]
    simp
  rw [EnumeratorCircled.forEach, hmove]
  rfl

theorem forEach_more (hn : 0 < n) (hlen : items.length = n) {index p : ℤ}
    (hnext : (int32 (index + 1)).tmod n = p) (hmore : p ≠ tail) :
    EnumeratorCircled.forEach ⟨items, index, tail⟩ (fuel + 1) =
      (elementAt items p).mapError .threw >>= fun item =>
        EnumeratorCircled.forEach ⟨items, p, tail⟩ fuel >>= fun rest => .ok (item :: rest) := by
  have hmove : EnumeratorCircled.moveNext ⟨items, index, tail⟩ =
      .ok (⟨items, p, tail⟩, true) := by
    unfold EnumeratorCircled.moveNext
    simp only [hlen, hnext]
    rw [if_neg (by omega)]
    simp [hmore]
  rw [EnumeratorCircled.forEach, hmove]
  rfl

theorem elementAt_ok {index : ℤ} {item : T} (h : elementAt items index = .ok item) :
    0 ≤ index ∧ items[index.toNat]? = some item := by
  unfold elementAt at h
  split_ifs at h with hneg
  split at h
  · rename_i item' hitem
    cases h
    exact ⟨by omega, hitem⟩
  · cases h

/-- What the loop yields are the cells from `p` on, and the tail follows the last of them. -/
theorem forEach_ok (hn : 0 < n) (hfits : n ≤ arrayMaxLength) (hlen : items.length = n)
    {index p : ℤ} (hnext : (int32 (index + 1)).tmod n = p)
    (h : EnumeratorCircled.forEach ⟨items, index, tail⟩ fuel = .ok l) :
    (l = [] → p = tail) ∧ (l ≠ [] → 0 ≤ p ∧ p < n ∧ tail = (p + l.length) % n ∧
      ∀ j < l.length, tail ≠ (p + j) % n ∧ items[((p + j) % n).toNat]? = l[j]?) := by
  have hmax := arrayMaxLength_lt
  induction fuel generalizing index p l with
  | zero => cases h
  | succ fuel ih =>
    by_cases hend : p = tail
    · rw [forEach_end hn hlen (hnext.trans hend)] at h
      cases h
      exact ⟨fun _ => hend, fun hne => absurd rfl hne⟩
    · rw [forEach_more hn hlen hnext hend] at h
      obtain ⟨item, hitem, h⟩ := do_ok_iff.mp h
      obtain ⟨rest, hrest, h⟩ := do_ok_iff.mp h
      cases h
      obtain ⟨hpos, hcell⟩ := elementAt_ok (mapError_ok_iff.mp hitem)
      have hlt : p < n := by
        have := (List.getElem?_eq_some_iff.mp hcell).1
        omega
      have hstep : (int32 (p + 1)).tmod n = (p + 1) % n :=
        tmod_shift ⟨hpos, hlt⟩ (.inr (by omega))
      have hself : p % n = p := Int.emod_eq_of_lt hpos hlt
      obtain ⟨hnil, hcons⟩ := ih hstep hrest
      refine ⟨nofun, fun _ => ⟨hpos, hlt, ?_, fun j hj => ?_⟩⟩
      · by_cases hempty : rest = []
        · rw [← hnil hempty, hempty]
          rfl
        · rw [(hcons hempty).2.2.1, Int.emod_add_emod, List.length_cons]
          congr 1
          push_cast
          omega
      · cases j with
        | zero =>
          rw [Nat.cast_zero, Int.add_zero, hself]
          exact ⟨Ne.symm hend, by simpa using hcell⟩
        | succ j =>
          have hjlt : j < rest.length := by simpa using hj
          have hne : rest ≠ [] := List.ne_nil_of_length_pos (by omega)
          obtain ⟨htail, hget⟩ := (hcons hne).2.2.2 j hjlt
          rw [Int.emod_add_emod] at htail hget
          have hcast : p + ((j + 1 : ℕ) : ℤ) = p + 1 + j := by
            push_cast
            omega
          rw [hcast, List.getElem?_cons_succ]
          exact ⟨htail, hget⟩

/-- A tail less than one round away ends the loop. -/
theorem forEach_reaches (hn : 0 < n) (hfits : n ≤ arrayMaxLength) (hlen : items.length = n)
    {index p : ℤ} (hnext : (int32 (index + 1)).tmod n = p) (hp : 0 ≤ p ∧ p < n) {count : ℕ}
    (hcount : count < n) (htail : tail = (p + count) % n) :
    ∃ l, EnumeratorCircled.forEach ⟨items, index, tail⟩ (count + 1) = .ok l ∧
      l.length = count := by
  have hmax := arrayMaxLength_lt
  induction count generalizing index p with
  | zero =>
    have hend : p = tail := by
      rw [htail, Nat.cast_zero, Int.add_zero, Int.emod_eq_of_lt hp.1 hp.2]
    exact ⟨[], forEach_end hn hlen (hnext.trans hend), rfl⟩
  | succ count ih =>
    have hmore : p ≠ tail := by
      intro heq
      have hself : p % n = p := Int.emod_eq_of_lt hp.1 hp.2
      have hdvd : (n : ℤ) ∣ ((count + 1 : ℕ) : ℤ) := by
        rw [← heq] at htail
        have hmod := Int.emod_emod_of_dvd p (dvd_refl (n : ℤ))
        have hsub := Int.emod_eq_emod_iff_emod_sub_eq_zero.mp (hself.trans htail)
        rw [show p - (p + ((count + 1 : ℕ) : ℤ)) = -((count + 1 : ℕ) : ℤ) by omega] at hsub
        exact (Int.dvd_neg).mp (Int.dvd_of_emod_eq_zero hsub)
      have := Int.le_of_dvd (by omega) hdvd
      omega
    have hstep : (int32 (p + 1)).tmod n = (p + 1) % n := tmod_shift hp (.inr (by omega))
    obtain ⟨rest, hrest, hlength⟩ := ih hstep
      ⟨Int.emod_nonneg _ (by omega), Int.emod_lt_of_pos _ (by omega)⟩ (by omega) (by
        rw [htail, Int.emod_add_emod]
        congr 1
        push_cast
        omega)
    obtain ⟨item, hitem⟩ : ∃ item, items[p.toNat]? = some item :=
      ⟨_, List.getElem?_eq_getElem (by omega)⟩
    have helement : elementAt items p = .ok item := by
      rw [elementAt, if_neg (by omega), hitem]
    refine ⟨item :: rest, ?_, by simp [hlength]⟩
    rw [forEach_more hn hlen hnext hmore, helement]
    simp only [Except.mapError]
    rw [do_of_ok rfl, do_of_ok hrest]

end Loop

/-! ### The indexer -/

section Indexer
variable {q : QueueCircled T} {i : ℕ} {item : T}

theorem int32_wrap {z : ℤ} (hlow : 2 ^ 31 ≤ z) (hhigh : z < 2 ^ 32) : int32 z = z - 2 ^ 32 := by
  rw [int32_eq_iff (by omega) (by omega)]
  exact ⟨1, by omega⟩

theorem Typed.getByIndex_ok (hq : Typed q) (h : q.getByIndex i = .ok item) :
    0 < q.capacity ∧ 0 ≤ int32 (q.head + i) := by
  have hcap := hq.length
  unfold QueueCircled.getByIndex at h
  obtain ⟨cell, hcell, hitem⟩ := do_ok_iff.mp h
  obtain ⟨hpos, hget⟩ := elementAt_ok hitem
  have hlt := (List.getElem?_eq_some_iff.mp hget).1
  unfold QueueCircled.sequenceIndexToActualIndex at hcell
  split_ifs at hcell with hi
  cases hcell
  split_ifs at hpos
  · exact ⟨by omega, hpos⟩
  · exact ⟨by omega, by omega⟩

theorem getByIndex_of_cell (hhead : 0 ≤ q.head) (hi : (i : ℤ) < q.capacity)
    (hrange : q.head + i < 2 ^ 31)
    (hitem : q.items[((q.head + i) % q.capacity).toNat]? = some item) :
    q.getByIndex i = .ok item := by
  have hcell : q.sequenceIndexToActualIndex i = .ok ((q.head + i) % q.capacity) := by
    unfold QueueCircled.sequenceIndexToActualIndex
    rw [if_pos hi, int32_of_range (by omega) hrange]
    simp only
    split_ifs with hsmall
    · rw [Int.emod_eq_of_lt (by omega) hsmall]
    · rw [Int.tmod_eq_emod_of_nonneg (by omega)]
  have hpos : 0 ≤ (q.head + i) % q.capacity := Int.emod_nonneg _ (by omega)
  rw [QueueCircled.getByIndex, do_of_ok hcell, elementAt, if_neg (by omega), hitem]

theorem Typed.first_cell (hq : Typed q) :
    (int32 ((QueueCircled.getEnumerator q).index + 1)).tmod q.items.length =
      q.head.tmod q.items.length := by
  simp only [QueueCircled.getEnumerator, EnumeratorCircled.new]
  rw [int32_succ, Int.sub_add_cancel, hq.head]

theorem Typed.enumerable_of_enumerates (hq : Typed q) (h : EnumeratesAsIndexed q) :
    Enumerable q := by
  have hcap := hq.length
  have hfits := hq.fits
  have hmax := arrayMaxLength_lt
  obtain ⟨fuel, l, hl, hcount, hindexed⟩ := h
  by_cases hzero : q.items.length = 0
  · cases fuel with
    | zero => cases hl
    | succ fuel =>
      rw [EnumeratorCircled.forEach, EnumeratorCircled.moveNext,
        if_pos (show q.getEnumerator.items.length = 0 from hzero)] at hl
      cases hl
  · obtain ⟨hnil, hcons⟩ := forEach_ok (by omega) hfits rfl hq.first_cell hl
    refine ⟨by omega, ?_⟩
    split_ifs with hempty
    · rw [hcap]
      exact hnil (List.eq_nil_of_length_eq_zero (by omega))
    · have hne : l ≠ [] := by
        rintro rfl
        exact hempty hcount.symm
      obtain ⟨hpos, hlt, htail, hcells⟩ := hcons hne
      have hlen := List.length_pos_iff.mpr hne
      have hread : ∀ i < l.length, 0 ≤ int32 (q.head + i) := fun i hi =>
        (hq.getByIndex_ok (hindexed i _ (List.getElem?_eq_getElem hi))).2
      have hhead : 0 ≤ q.head := by
        have hfirst := hread 0 hlen
        rwa [Nat.cast_zero, Int.add_zero, hq.head] at hfirst
      have hheadRange := int32_range q.head
      have hcountRange := int32_range q.count
      rw [hq.head] at hheadRange
      rw [hq.count] at hcountRange
      have hp : q.head.tmod q.items.length = q.head % q.items.length :=
        Int.tmod_eq_emod_of_nonneg hhead
      refine ⟨hhead, by omega, ?_, ?_, ?_⟩
      · by_contra hfull
        obtain ⟨hnot, -⟩ := hcells (l.length - q.items.length) (by omega)
        apply hnot
        have hround : q.head.tmod q.items.length + ((l.length - q.items.length : ℕ) : ℤ) +
            (q.items.length : ℤ) = q.head.tmod q.items.length + l.length := by omega
        rw [htail, ← hround, Int.add_emod_right]
      · by_contra hover
        have hend := hread (l.length - 1) (by omega)
        rw [int32_wrap (by omega) (by omega)] at hend
        omega
      · have htail' : q.tail = (q.head.tmod q.items.length + l.length) % q.items.length := htail
        rw [htail', hp, Int.emod_add_emod, hcap, hcount]

theorem Typed.enumerates_of_enumerable (hq : Typed q) (h : Enumerable q) :
    EnumeratesAsIndexed q := by
  have hcap := hq.length
  have hfits := hq.fits
  obtain ⟨hpos, hends⟩ := h
  split_ifs at hends with hempty
  · rw [hcap] at hends
    exact ⟨1, [], forEach_end (by omega) rfl (hq.first_cell.trans hends), by simp [hempty], nofun⟩
  · obtain ⟨hhead, hsome, hroom, hrange, htail⟩ := hends
    have hp : q.head.tmod q.items.length = q.head % q.items.length :=
      Int.tmod_eq_emod_of_nonneg hhead
    have hfirst := hq.first_cell.trans hp
    have hcell : 0 ≤ q.head % q.items.length ∧ q.head % q.items.length < q.items.length :=
      ⟨Int.emod_nonneg _ (by omega), Int.emod_lt_of_pos _ (by omega)⟩
    have htail' : q.tail =
        (q.head % q.items.length + (q.count.toNat : ℤ)) % q.items.length := by
      rw [htail, hcap, Int.emod_add_emod, Int.toNat_of_nonneg hsome.le]
    obtain ⟨l, hl, hlength⟩ := forEach_reaches (by omega) hfits rfl hfirst hcell
      (show q.count.toNat < q.items.length by omega) htail'
    refine ⟨_, l, hl, by omega, fun i item hitem => ?_⟩
    have hi := (List.getElem?_eq_some_iff.mp hitem).1
    have hne : l ≠ [] := List.ne_nil_of_length_pos (by omega)
    obtain ⟨-, hget⟩ := ((forEach_ok (by omega) hfits rfl hfirst hl).2 hne).2.2.2 i hi
    rw [Int.emod_add_emod, hitem] at hget
    exact getByIndex_of_cell hhead (by omega) (by omega) (by rw [hcap]; exact hget)

theorem Typed.enumerates_iff (hq : Typed q) : EnumeratesAsIndexed q ↔ Enumerable q :=
  ⟨hq.enumerable_of_enumerates, hq.enumerates_of_enumerable⟩

/-- Where the pointers agree, the queue must not be full. -/
theorem Ends.enumerable_iff {n : ℕ} (he : Ends n q) :
    Enumerable q ↔ q.count < q.capacity ∧ q.head + q.count ≤ 2 ^ 31 := by
  have hhead := he.head
  have hcount := he.count
  have hfits := he.fits
  have hmax := arrayMaxLength_lt
  have hself : q.head.tmod n = q.head := by
    rw [Int.tmod_eq_emod_of_nonneg hhead.1, Int.emod_eq_of_lt hhead.1 hhead.2]
  rw [Enumerable, he.capacity]
  constructor
  · rintro ⟨-, hends⟩
    split_ifs at hends with hempty
    · omega
    · exact ⟨hends.2.2.1, hends.2.2.2.1⟩
  · rintro ⟨hroom, hrange⟩
    refine ⟨by omega, ?_⟩
    split_ifs with hempty
    · rw [hself, he.tail, hempty, Int.add_zero, Int.emod_eq_of_lt hhead.1 hhead.2]
    · exact ⟨hhead.1, by omega, hroom, hrange, he.tail⟩

end Indexer

/-! ### Runs -/

section Steps
variable {q q' : QueueCircled T}

theorem int32_tmod {z n : ℤ} (hz : int32 z = z) : int32 (z.tmod n) = z.tmod n := by
  have hrange := int32_range z
  rw [hz] at hrange
  have hle : (z.tmod n).natAbs ≤ z.natAbs := by
    rw [Int.natAbs_tmod]
    exact Nat.mod_le _ _
  rcases Int.le_total 0 z with hpos | hneg
  · have hsign := Int.tmod_nonneg n hpos
    exact int32_of_range (by omega) (by omega)
  · have hsign := Int.tmod_nonneg n (show 0 ≤ -z by omega)
    rw [Int.neg_tmod] at hsign
    exact int32_of_range (by omega) (by omega)

theorem int32_next (z n : ℤ) : int32 ((int32 z).tmod n) = (int32 z).tmod n :=
  int32_tmod (int32_int32 z)

theorem int32_back {z w : ℤ} : int32 (if int32 z < 0 then int32 w else int32 z) =
    if int32 z < 0 then int32 w else int32 z := by
  split_ifs <;> exact int32_int32 _

theorem Typed.new [Inhabited T] {capacity : ℤ} (h : QueueCircled.new capacity = .ok q) :
    Typed q := by
  unfold QueueCircled.new at h
  split_ifs at h with hneg hmax
  cases h
  have hzero : int32 0 = 0 := rfl
  exact ⟨by simp; omega, by simp; omega, hzero, hzero, hzero, hzero⟩

/-- The array keeps its length, and the pointers are results of `int` arithmetic. -/
theorem Typed.of_fields (hq : Typed q) (hlen : q'.items.length = q.items.length)
    (hcap : q'.capacity = q.capacity) (hhead : int32 q'.head = q'.head)
    (htail : int32 q'.tail = q'.tail) (hcount : int32 q'.count = q'.count)
    (hlast : int32 q'.last = q'.last) : Typed q' := by
  refine ⟨?_, ?_, hhead, htail, hcount, hlast⟩
  · rw [hcap, hlen, hq.length]
  · rw [hlen]
    exact hq.fits

theorem Typed.with_items (hq : Typed q) {items : List T} (hlen : items.length = q.items.length) :
    Typed { q with items } :=
  hq.of_fields hlen rfl hq.head hq.tail hq.count hq.last

theorem Typed.reset (hq : Typed q) : Typed q.reset :=
  hq.of_fields rfl rfl rfl rfl rfl rfl

theorem Typed.fill (hq : Typed q) (item : T) : Typed (q.fill item) := by
  have hmax := arrayMaxLength_lt
  have hfits := hq.fits
  have hcap : int32 q.capacity = q.capacity := by
    rw [hq.length]
    exact int32_of_range (by omega) (by omega)
  exact hq.of_fields (by simp [QueueCircled.fill]) rfl rfl rfl hcap (int32_int32 _)

theorem Typed.enqueue (hq : Typed q) {item : T} (h : q.enqueue item = .ok q') : Typed q' := by
  have hmax := arrayMaxLength_lt
  have hfits := hq.fits
  have hcap : int32 q.capacity = q.capacity := by
    rw [hq.length]
    exact int32_of_range (by omega) (by omega)
  unfold QueueCircled.enqueue at h
  obtain ⟨items, hitems, h⟩ := do_ok_iff.mp h
  simp only at h
  split_ifs at h
  · cases h
    exact hq.of_fields (setElement_length hitems) rfl (int32_next _ _) (int32_next _ _) hcap hq.head
  · cases h
    exact hq.of_fields (setElement_length hitems) rfl hq.head (int32_next _ _) (int32_int32 _)
      hq.tail

theorem Typed.dequeue [Inhabited T] (hq : Typed q) {debug : Bool} {item : T}
    (h : q.dequeue debug = .ok (q', item)) : Typed q' := by
  unfold QueueCircled.dequeue at h
  obtain ⟨result, -, h⟩ := do_ok_iff.mp h
  obtain ⟨items, hitems, h⟩ := do_ok_iff.mp h
  simp only at h
  split_ifs at h
  cases h
  exact hq.of_fields (clearHead_length hitems) rfl (int32_next _ _) hq.tail (int32_int32 _) hq.last

theorem dequeue_length [Inhabited T] {debug : Bool} {item : T}
    (h : q.dequeue debug = .ok (q', item)) : q'.items.length = q.items.length := by
  unfold QueueCircled.dequeue at h
  obtain ⟨result, -, h⟩ := do_ok_iff.mp h
  obtain ⟨items, hitems, h⟩ := do_ok_iff.mp h
  simp only at h
  split_ifs at h
  cases h
  exact clearHead_length hitems

theorem Typed.setByIndex (hq : Typed q) {item : T} {index : ℤ}
    (h : q.setByIndex item index = .ok q') : Typed q' := by
  unfold QueueCircled.setByIndex at h
  obtain ⟨cell, -, h⟩ := do_ok_iff.mp h
  obtain ⟨items, hitems, h⟩ := do_ok_iff.mp h
  cases h
  exact hq.with_items (setElement_length hitems)

theorem Typed.extendAfterLast (hq : Typed q) {index : ℤ}
    (h : q.extendAfterLast = .ok (q', index)) : Typed q' := by
  unfold QueueCircled.extendAfterLast at h
  split_ifs at h
  obtain ⟨-, heq⟩ := refAt_ok_iff.mp h
  cases heq
  exact hq.of_fields rfl rfl hq.head (int32_next _ _) (int32_int32 _) hq.tail

theorem Typed.extendBeforeHead (hq : Typed q) {index : ℤ}
    (h : q.extendBeforeHead = .ok (q', index)) : Typed q' := by
  unfold QueueCircled.extendBeforeHead at h
  split_ifs at h
  obtain ⟨-, heq⟩ := refAt_ok_iff.mp h
  cases heq
  exact hq.of_fields rfl rfl int32_back hq.tail (int32_int32 _) hq.last

theorem Typed.shrinkLast (hq : Typed q) {index : ℤ}
    (h : q.shrinkLast = .ok (q', index)) : Typed q' := by
  unfold QueueCircled.shrinkLast at h
  split_ifs at h
  obtain ⟨-, heq⟩ := refAt_ok_iff.mp h
  cases heq
  exact hq.of_fields rfl rfl hq.head hq.last (int32_int32 _) int32_back

theorem Typed.shrinkHead (hq : Typed q) {index : ℤ}
    (h : q.shrinkHead = .ok (q', index)) : Typed q' := by
  unfold QueueCircled.shrinkHead at h
  split_ifs at h
  obtain ⟨-, heq⟩ := refAt_ok_iff.mp h
  cases heq
  exact hq.of_fields rfl rfl (int32_next _ _) hq.tail (int32_int32 _) hq.last

theorem Typed.shiftForward (hq : Typed q) (k : ℤ) : Typed (q.shiftForward k) :=
  hq.of_fields rfl rfl (int32_next _ _) (int32_next _ _) hq.count (int32_next _ _)

theorem Typed.shiftBackward (hq : Typed q) (k : ℤ) : Typed (q.shiftBackward k) :=
  hq.of_fields rfl rfl int32_back int32_back hq.count int32_back

/-- What a removal leaves, whether it returns or throws. -/
def Leaves (P : QueueCircled T → Prop) : Except (Fault × QueueCircled T) (QueueCircled T) → Prop
  | .ok q => P q
  | .error (_, q) => P q

theorem Leaves.bind {α : Type} {P : QueueCircled T → Prop} {x : Except Fault α}
    {f : α → Except (Fault × QueueCircled T) (QueueCircled T)} (hq : P q)
    (hf : ∀ a, x = .ok a → Leaves P (f a)) : Leaves P (q.leaving x >>= f) := by
  cases x with
  | error fault => exact hq
  | ok a => exact hf a rfl

theorem copyWithin_length {items copied : List T} {source destination length : ℤ}
    (h : copyWithin items source destination length = .ok copied) :
    copied.length = items.length := by
  unfold copyWithin at h
  split_ifs at h with hneg hlong
  cases h
  apply Arrays.writeAt_length
  rw [List.length_take, List.length_drop]
  omega

theorem copied_length {items copied : List T} {source destination length : ℤ} {p : Prop}
    [Decidable p]
    (h : (if p then copyWithin items source destination length else .ok items) = .ok copied) :
    copied.length = items.length := by
  split_ifs at h
  · exact copyWithin_length h
  · cases h
    rfl

theorem Typed.giveUpLast (hq : Typed q) (preserve : T) : Leaves Typed (q.giveUpLast preserve) := by
  apply Leaves.bind hq
  intro items hitems
  exact hq.of_fields (setElement_length hitems) rfl hq.head hq.last (int32_int32 _) int32_back

theorem Typed.removeAt (hq : Typed q) (index : ℤ) : Leaves Typed (q.removeAt index) := by
  have hsliding : ∀ (a : ℤ) (preserve : T), Leaves Typed (q.simpleSlidingCopy a preserve) := by
    intro a preserve
    apply Leaves.bind hq
    intro items hitems
    exact (hq.with_items (copied_length hitems)).giveUpLast preserve
  apply Leaves.bind hq
  intro actualIndex _
  apply Leaves.bind hq
  intro preserve _
  split_ifs
  · exact hq
  · exact hsliding _ _
  · apply Leaves.bind hq
    intro items hitems
    have hq := hq.with_items (copied_length hitems)
    apply Leaves.bind hq
    intro first _
    apply Leaves.bind hq
    intro items hitems
    have hq := hq.with_items (setElement_length hitems)
    apply Leaves.bind hq
    intro items hitems
    exact (hq.with_items (copied_length hitems)).giveUpLast preserve
  · exact hq
  · exact hsliding _ _

variable [BEq T] [Inhabited T] {debug : Bool}

theorem Typed.call (hq : Typed q) {call : QueueCall T}
    (h : QueueOperation.step debug q (.call call) = .ok q') : Typed q' := by
  rcases step_call_iff.mp h with ⟨seen, hactual⟩ | ⟨-, rfl⟩
  · cases call with
    | enqueue item =>
      obtain ⟨r, hr, heq⟩ := map_ok_iff.mp hactual
      cases heq
      exact hq.enqueue hr
    | dequeue =>
      obtain ⟨⟨r, item⟩, hr, heq⟩ := map_ok_iff.mp hactual
      cases heq
      exact hq.dequeue hr
    | fill item =>
      cases hactual
      exact hq.fill item
    | reset =>
      cases hactual
      exact hq.reset
    | set index item =>
      obtain ⟨r, hr, heq⟩ := map_ok_iff.mp hactual
      cases heq
      exact hq.setByIndex hr
    | get index | peak | peakFromEnd | peakDouble | peakDoubleFromEnd | indexOf item =>
      obtain ⟨r, -, heq⟩ := map_ok_iff.mp hactual
      cases heq
      exact hq
  · exact hq

theorem Typed.operation (hq : Typed q) {op : QueueOperation T} (h : op.step debug q = .ok q') :
    Typed q' := by
  cases op with
  | call call => exact hq.call h
  | extendAfterLast =>
    obtain ⟨⟨r, index⟩, hr, rfl⟩ := map_ok_iff.mp h
    exact hq.extendAfterLast hr
  | extendBeforeHead =>
    obtain ⟨⟨r, index⟩, hr, rfl⟩ := map_ok_iff.mp h
    exact hq.extendBeforeHead hr
  | shrinkLast =>
    obtain ⟨⟨r, index⟩, hr, rfl⟩ := map_ok_iff.mp h
    exact hq.shrinkLast hr
  | shrinkHead =>
    obtain ⟨⟨r, index⟩, hr, rfl⟩ := map_ok_iff.mp h
    exact hq.shrinkHead hr
  | shiftForward k =>
    cases h
    exact hq.shiftForward k
  | shiftBackward k =>
    cases h
    exact hq.shiftBackward k

theorem Typed.step (hq : Typed q) {action : QueueAction T} (h : action.step debug q = .ok q') :
    Typed q' := by
  cases action with
  | operation op =>
    by_cases hdequeue : op = .call .dequeue
    · subst hdequeue
      simp only [QueueAction.step] at h
      split at h
      · rename_i items r item hitems hr
        cases h
        have hlength := (clearHead_length hitems).trans (dequeue_length hr).symm
        exact (hq.dequeue hr).with_items hlength
      · cases h
        exact hq
    · exact hq.operation (QueueAction.step_operation hdequeue h)
  | removeAt index =>
    have hleaves := hq.removeAt (index : ℤ)
    simp only [QueueAction.step] at h
    split at h
    · rename_i r hr
      cases h
      rwa [hr] at hleaves
    · rename_i fault r hr
      cases h
      rwa [hr] at hleaves
  | clear =>
    cases h
    exact hq.of_fields (by simp [QueueCircled.clear]) rfl rfl rfl rfl rfl
  | setByActualIndex index item =>
    obtain ⟨items, hitems, heq⟩ := do_ok_iff.mp h
    cases heq
    exact hq.with_items (setElement_length hitems)

end Steps

/-- After any run on a new queue of any capacity, enumerating agrees with indexing just when
the queue is not full, its pointers agree and no index leaves the `int`s. -/
theorem enumeratesAsIndexed_iff [BEq T] [Inhabited T] (debug : Bool) {capacity : ℤ}
    {queue q : QueueCircled T} (hnew : QueueCircled.new capacity = .ok queue)
    {actions : List (QueueAction T)}
    (hrun : run (QueueAction.step debug) queue actions = .ok q) :
    EnumeratesAsIndexed q ↔ Enumerable q := by
  have htyped : Typed q := run_history (I := fun _ => Typed) (Typed.new hnew)
    (fun _ action t u ht hu => Typed.step ht hu) hrun
  exact htyped.enumerates_iff

theorem enumeratesAsIndexed_wrapped :
    ∃ queue q : QueueCircled ℕ, QueueCircled.new 3 = .ok queue ∧
      run (QueueAction.step false) queue
        [.operation (.call (.enqueue 1)), .operation (.call (.enqueue 2)),
          .operation (.call (.enqueue 3)), .operation (.call .dequeue),
          .operation (.call (.enqueue 4)), .operation (.call .dequeue)] = .ok q ∧
      (EnumeratesAsIndexed q ↔ Enumerable q) := by
  refine ⟨⟨[0, 0, 0], 0, 3, 0, 0, 0⟩, ⟨[4, 2, 3], 2, 3, 1, 2, 0⟩, rfl, rfl, ?_⟩
  have hrun : run (QueueAction.step false) (⟨[0, 0, 0], 0, 3, 0, 0, 0⟩ : QueueCircled ℕ)
      [.operation (.call (.enqueue 1)), .operation (.call (.enqueue 2)),
        .operation (.call (.enqueue 3)), .operation (.call .dequeue),
        .operation (.call (.enqueue 4)), .operation (.call .dequeue)] =
        .ok ⟨[4, 2, 3], 2, 3, 1, 2, 0⟩ := rfl
  have hnew : QueueCircled.new 3 =
      .ok (⟨[0, 0, 0], 0, 3, 0, 0, 0⟩ : QueueCircled ℕ) := rfl
  exact enumeratesAsIndexed_iff false hnew hrun

/-- Two elements in two cells: the enumerator ends at once. -/
theorem not_enumeratesAsIndexed_full :
    ∃ queue q : QueueCircled ℕ, QueueCircled.new 2 = .ok queue ∧
      run (QueueAction.step false) queue
        [.operation (.call (.enqueue 1)), .operation (.call (.enqueue 2))] = .ok q ∧
      ¬ EnumeratesAsIndexed q := by
  refine ⟨⟨[0, 0], 0, 2, 0, 0, 0⟩, ⟨[1, 2], 2, 2, 0, 0, 1⟩, rfl, rfl, ?_⟩
  have htyped : Typed (⟨[1, 2], 2, 2, 0, 0, 1⟩ : QueueCircled ℕ) :=
    ⟨rfl, by decide, rfl, rfl, rfl, rfl⟩
  rw [htyped.enumerates_iff]
  rintro ⟨-, hends⟩
  revert hends
  decide

end DecodingProxy.Collections
