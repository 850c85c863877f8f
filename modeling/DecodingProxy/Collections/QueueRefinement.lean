import DecodingProxy.Collections.QueueWindow

/-!
# `QueueCircled<T>` refines a bounded list

A run of calls is made on a new queue and on the empty list. What a caller sees is the
same on both sides as long as no call reads an element whose index and the head add up
to more than an `int`.
-/

namespace DecodingProxy.Collections
open DecodingProxy.Rings DecodingProxy.Runs DecodingProxy.Runtime

variable {T : Type}

inductive QueueCall (T : Type)
  | enqueue (item : T)
  | dequeue
  | fill (item : T)
  | reset
  | get (index : ℕ)
  | set (index : ℕ) (item : T)
  | peak
  | peakFromEnd
  | peakDouble
  | peakDoubleFromEnd
  | indexOf (item : T)
  deriving DecidableEq, Repr

/-- What a caller sees of one call. -/
inductive Observed (T : Type)
  | done
  | item (value : T)
  | pair (first second : T)
  | index (value : ℤ)
  | threw (fault : Fault)
  deriving DecidableEq, Repr

/-- What the calls should do to the list, and nothing where a call is not allowed. -/
def QueueCall.expected [BEq T] (capacity : ℕ) (l : List T) :
    QueueCall T → Option (List T × Observed T)
  | .enqueue item => some (pushBounded capacity l item, .done)
  | .dequeue => l.head?.map fun first => (l.tail, .item first)
  | .fill item => some (List.replicate capacity item, .done)
  | .reset => some ([], .done)
  | .get index => l[index]?.map fun item => (l, .item item)
  | .set index item => if index < l.length then some (l.set index item, .done) else none
  | .peak => l.head?.map fun first => (l, .item first)
  | .peakFromEnd => l.getLast?.map fun last => (l, .item last)
  | .peakDouble =>
    match l[0]?, l[1]? with
    | some first, some second => some (l, .pair first second)
    | _, _ => none
  | .peakDoubleFromEnd =>
    match l[l.length - 2]?, l[l.length - 1]? with
    | some penultimate, some last =>
      if 2 ≤ l.length then some (l, .pair penultimate last) else none
    | _, _ => none
  | .indexOf item => some (l, .index ((l.findIdx? (· == item)).elim (-1) fun i => i))

/-- What the calls do to the queue. -/
def QueueCall.actual [BEq T] [Inhabited T] (debug : Bool) (q : QueueCircled T) :
    QueueCall T → Except Fault (QueueCircled T × Observed T)
  | .enqueue item => (q.enqueue item).map fun q => (q, .done)
  | .dequeue => (q.dequeue debug).map fun (q, item) => (q, .item item)
  | .fill item => .ok (q.fill item, .done)
  | .reset => .ok (q.reset, .done)
  | .get index => (q.getByIndex index).map fun item => (q, .item item)
  | .set index item => (q.setByIndex item index).map fun q => (q, .done)
  | .peak => q.peak.map fun item => (q, .item item)
  | .peakFromEnd => q.peakFromEnd.map fun item => (q, .item item)
  | .peakDouble => (q.peakDouble debug).map fun (first, second) => (q, .pair first second)
  | .peakDoubleFromEnd =>
    (q.peakDoubleFromEnd debug).map fun (first, second) => (q, .pair first second)
  | .indexOf item => (q.indexOf item).map fun index => (q, .index index)

/-- The queue and the list after the same calls, with what was seen of each: the result
of every call and `Count` after it. -/
structure Comparison (T : Type) where
  queue : QueueCircled T
  list : List T := []
  observed : List (Observed T × ℤ) := []
  expected : List (Observed T × ℤ) := []

/-- One call on both sides; a call that the list does not allow is not made. -/
def Comparison.step [BEq T] [Inhabited T] (debug : Bool) (capacity : ℕ) (s : Comparison T)
    (call : QueueCall T) : Except Unit (Comparison T) :=
  match call.expected capacity s.list with
  | none => .error ()
  | some (list, seen) =>
    let expected := s.expected ++ [(seen, (list.length : ℤ))]
    match call.actual debug s.queue with
    | .ok (queue, seen) =>
      .ok ⟨queue, list, s.observed ++ [(seen, queue.count)], expected⟩
    | .error fault =>
      .ok ⟨s.queue, list, s.observed ++ [(.threw fault, s.queue.count)], expected⟩

/-- On a new queue, every run shows what the list shows. -/
def RefinesList [BEq T] [Inhabited T] (debug : Bool) (capacity : ℕ)
    (calls : List (QueueCall T)) : Prop :=
  ∀ queue, QueueCircled.new capacity = .ok queue →
    ∀ s, Reached (Comparison.step debug capacity) { queue } calls s → s.observed = s.expected

/-- How many elements from the head on a call goes through by index. -/
def QueueCall.reach [BEq T] (l : List T) : QueueCall T → ℕ
  | .get index | .set index _ => if index < l.length then index + 1 else 0
  | .indexOf item => scanned l item
  | _ => 0

/-- Every index the call reads, added to the head, is an `int`. -/
def Comparison.InRange [BEq T] (s : Comparison T) (call : QueueCall T) : Prop :=
  s.queue.head + call.reach s.list ≤ 2 ^ 31

instance [BEq T] (s : Comparison T) (call : QueueCall T) : Decidable (s.InRange call) :=
  inferInstanceAs (Decidable (_ ≤ _))

/-! ### One call on both sides -/

section Calls
variable [BEq T] {n h : ℕ} {q : QueueCircled T} {l l' : List T}
  {call : QueueCall T} {seen : Observed T}

theorem expected_ne_threw (hexpected : call.expected n l = some (l', seen)) (fault : Fault) :
    seen ≠ .threw fault := by
  cases call with
  | enqueue item | fill item | reset | indexOf item =>
    cases hexpected
    nofun
  | dequeue | peak | peakFromEnd | get index =>
    obtain ⟨item, -, heq⟩ := Option.map_eq_some_iff.mp hexpected
    cases heq
    nofun
  | set index item =>
    simp only [QueueCall.expected] at hexpected
    split_ifs at hexpected
    cases hexpected
    nofun
  | peakDouble =>
    simp only [QueueCall.expected] at hexpected
    split at hexpected
    · cases hexpected
      nofun
    · cases hexpected
  | peakDoubleFromEnd =>
    simp only [QueueCall.expected] at hexpected
    split at hexpected
    · split_ifs at hexpected
      cases hexpected
      nofun
    · cases hexpected

variable [Inhabited T] (debug : Bool)

theorem actual_eq (hr : RepresentsAt n q l h) (hexpected : call.expected n l = some (l', seen))
    (hrange : h + call.reach l ≤ 2 ^ 31) :
    ∃ q' h', call.actual debug q = .ok (q', seen) ∧ RepresentsAt n q' l' h' := by
  cases call with
  | enqueue item =>
    cases hexpected
    obtain ⟨q', h', hq, hr'⟩ := hr.enqueue item
    exact ⟨q', h', by rw [QueueCall.actual, hq]; rfl, hr'⟩
  | dequeue =>
    obtain ⟨first, hfirst, heq⟩ := Option.map_eq_some_iff.mp hexpected
    cases heq
    obtain ⟨q', hq, hr'⟩ := hr.dequeue debug hfirst
    exact ⟨q', _, by rw [QueueCall.actual, hq]; rfl, hr'⟩
  | fill item =>
    cases hexpected
    exact ⟨q.fill item, 0, rfl, hr.fill item⟩
  | reset =>
    cases hexpected
    exact ⟨q.reset, 0, rfl, hr.reset⟩
  | get index =>
    obtain ⟨item, hitem, heq⟩ := Option.map_eq_some_iff.mp hexpected
    cases heq
    have hlt : index < l.length := (List.getElem?_eq_some_iff.mp hitem).1
    simp only [QueueCall.reach, if_pos hlt] at hrange
    exact ⟨q, h, by rw [QueueCall.actual, hr.getByIndex hitem (by omega)]; rfl, hr⟩
  | set index item =>
    simp only [QueueCall.expected] at hexpected
    split_ifs at hexpected with hlt
    cases hexpected
    simp only [QueueCall.reach, if_pos hlt] at hrange
    obtain ⟨q', hq, hr'⟩ := hr.setByIndex hlt (by omega) item
    exact ⟨q', h, by rw [QueueCall.actual, hq]; rfl, hr'⟩
  | peak =>
    obtain ⟨first, hfirst, heq⟩ := Option.map_eq_some_iff.mp hexpected
    cases heq
    exact ⟨q, h, by rw [QueueCall.actual, hr.peak hfirst]; rfl, hr⟩
  | peakFromEnd =>
    obtain ⟨last, hlast, heq⟩ := Option.map_eq_some_iff.mp hexpected
    cases heq
    exact ⟨q, h, by rw [QueueCall.actual, hr.peakFromEnd hlast]; rfl, hr⟩
  | peakDouble =>
    simp only [QueueCall.expected] at hexpected
    split at hexpected
    · rename_i first second hfirst hsecond
      cases hexpected
      exact ⟨q, h, by rw [QueueCall.actual, hr.peakDouble debug hfirst hsecond]; rfl, hr⟩
    · cases hexpected
  | peakDoubleFromEnd =>
    simp only [QueueCall.expected] at hexpected
    split at hexpected
    · rename_i penultimate last hpenultimate hlast
      split_ifs at hexpected with htwo
      cases hexpected
      have hq := hr.peakDoubleFromEnd debug htwo hpenultimate hlast
      exact ⟨q, h, by rw [QueueCall.actual, hq]; rfl, hr⟩
    · cases hexpected
  | indexOf item =>
    cases hexpected
    exact ⟨q, h, by rw [QueueCall.actual, (hr.indexOf item).1 hrange]; rfl, hr⟩

theorem actual_throws (hr : RepresentsAt n q l h)
    (hexpected : call.expected n l = some (l', seen)) (hrange : 2 ^ 31 < h + call.reach l) :
    call.actual debug q = .error (.raised .indexOutOfRange) := by
  have hh := hr.head_lt
  have hfits := hr.fits
  have hmax := arrayMaxLength_lt
  cases call with
  | get index =>
    obtain ⟨item, hitem, -⟩ := Option.map_eq_some_iff.mp hexpected
    have hlt : index < l.length := (List.getElem?_eq_some_iff.mp hitem).1
    simp only [QueueCall.reach, if_pos hlt] at hrange
    rw [QueueCall.actual, hr.getByIndex_overflow hlt (by omega)]
    rfl
  | set index item =>
    simp only [QueueCall.expected] at hexpected
    split_ifs at hexpected with hlt
    simp only [QueueCall.reach, if_pos hlt] at hrange
    rw [QueueCall.actual, hr.setByIndex_overflow hlt (by omega)]
    rfl
  | indexOf item =>
    rw [QueueCall.actual, (hr.indexOf item).2 hrange]
    rfl
  | enqueue item | dequeue | fill item | reset | peak | peakFromEnd | peakDouble
    | peakDoubleFromEnd =>
    simp only [QueueCall.reach] at hrange
    omega

omit [Inhabited T] in
theorem reach_eq_zero (hexpected : call.expected n l = none) : call.reach l = 0 := by
  cases call with
  | get index =>
    have hnone : l[index]? = none := Option.map_eq_none_iff.mp hexpected
    rw [QueueCall.reach, if_neg (by simpa using hnone)]
  | set index item =>
    simp only [QueueCall.expected] at hexpected
    split_ifs at hexpected with hlt
    rw [QueueCall.reach, if_neg hlt]
  | indexOf item => cases hexpected
  | enqueue item | dequeue | fill item | reset | peak | peakFromEnd | peakDouble
    | peakDoubleFromEnd => rfl

theorem Comparison.step_spec {s t : Comparison T} (hr : RepresentsAt n s.queue s.list h)
    (hsame : s.observed = s.expected) (hs : s.step debug n call = .ok t) :
    (t.observed = t.expected ↔ s.InRange call) ∧
      (t.observed = t.expected → ∃ h', RepresentsAt n t.queue t.list h') := by
  simp only [Comparison.step] at hs
  split at hs
  · cases hs
  · rename_i l' seen hexpected
    have hrange : s.InRange call ↔ h + call.reach s.list ≤ 2 ^ 31 := by
      rw [Comparison.InRange, hr.head]
      omega
    by_cases hin : h + call.reach s.list ≤ 2 ^ 31
    · obtain ⟨q', h', hactual, hr'⟩ := actual_eq debug hr hexpected hin
      rw [hactual] at hs
      cases hs
      refine ⟨iff_of_true ?_ (hrange.mpr hin), fun _ => ⟨h', hr'⟩⟩
      simp [hsame, hr'.count]
    · have hactual := actual_throws debug hr hexpected (by omega)
      rw [hactual] at hs
      cases hs
      have hdiffer : s.observed ++ [(.threw (.raised .indexOutOfRange), s.queue.count)] ≠
          s.expected ++ [(seen, (l'.length : ℤ))] := by
        intro heq
        have hlast := List.append_inj_right' heq rfl
        have hseen : .threw (.raised .indexOutOfRange) = seen :=
          congrArg Prod.fst (List.singleton_injective hlast)
        exact expected_ne_threw hexpected _ hseen.symm
      exact ⟨iff_of_false hdiffer fun h => hin (hrange.mp h), fun h => absurd h hdiffer⟩

end Calls

/-! ### Runs -/

/-- A run on a new queue shows what it shows on the list just when every call of it is in
range. -/
theorem refinesList_iff [BEq T] [Inhabited T] (debug : Bool) {n : ℕ} (hn : 1 ≤ n)
    {queue : QueueCircled T} (hnew : QueueCircled.new (n : ℤ) = .ok queue)
    (calls : List (QueueCall T)) :
    RefinesList debug n calls ↔
      Along (Comparison.step debug n) Comparison.InRange { queue } calls := by
  have hstart : RepresentsAt n queue [] 0 := .new hn hnew
  have hruns : RefinesList debug n calls ↔
      ∀ s, Reached (Comparison.step debug n) { queue } calls s → s.observed = s.expected := by
    refine ⟨fun h => h queue hnew, fun h other hother => ?_⟩
    rw [hnew] at hother
    cases hother
    exact h
  rw [hruns]
  refine reached_iff_along
    (I := fun s : Comparison T => ∃ h, RepresentsAt n s.queue s.list h) ?_ ?_ ?_ ⟨0, hstart⟩ rfl
  · rintro s call ⟨h, hr⟩ hsame
    cases hexpected : call.expected n s.list with
    | none =>
      have hh := hr.head_lt
      have hfits := hr.fits
      have hmax := arrayMaxLength_lt
      refine .inr ?_
      rw [Comparison.InRange, reach_eq_zero hexpected, hr.head]
      omega
    | some outcome =>
      refine .inl ?_
      simp only [Comparison.step, hexpected]
      split <;> exact ⟨_, rfl⟩
  · rintro s call t ⟨h, hr⟩ hsame hs ht
    exact (Comparison.step_spec debug hr hsame hs).2 ht
  · rintro s call t ⟨h, hr⟩ hsame hs
    exact (Comparison.step_spec debug hr hsame hs).1

theorem refinesList_two :
    1 ≤ 2 ∧ RefinesList false 2 [.enqueue 1, .enqueue 2, .enqueue 3, .get 1, .peakDoubleFromEnd,
      .dequeue, .indexOf 3] :=
  ⟨by decide, (refinesList_iff false (by decide) rfl _).mpr (by decide)⟩

/-! ### Large capacities -/

section Large
variable [BEq T] [Inhabited T] (debug : Bool) {n : ℕ}

omit [BEq T] in
theorem new_ok (hn : n ≤ arrayMaxLength) :
    ∃ q : QueueCircled T, QueueCircled.new (n : ℤ) = .ok q := by
  have hn' : (n : ℤ) ≤ arrayMaxLength := by exact_mod_cast hn
  simp only [QueueCircled.new, if_neg (show ¬(n : ℤ) < 0 by omega),
    if_neg (show ¬(arrayMaxLength : ℤ) < n by omega)]
  exact ⟨_, rfl⟩

theorem run_enqueues_full {s : Comparison T} {h k : ℕ} (hr : RepresentsAt n s.queue s.list h)
    (hfull : s.list.length = n) (hk : h + k < n) (item : T) :
    ∃ t, run (Comparison.step debug n) s (List.replicate k (.enqueue item)) = .ok t ∧
      RepresentsAt n t.queue t.list (h + k) ∧ t.list.length = n := by
  induction k generalizing s h with
  | zero => exact ⟨s, rfl, hr, hfull⟩
  | succ k ih =>
    obtain ⟨q', hq, hr'⟩ := hr.enqueue_full hfull item
    have hslot : slot n h 1 = h + 1 := by rw [slot, if_pos (by omega)]
    have hpush : pushBounded n s.list item = s.list.tail ++ [item] := by
      rw [pushBounded, if_neg (by omega)]
    have hstep : Comparison.step debug n s (.enqueue item) = .ok
        ⟨q', s.list.tail ++ [item], s.observed ++ [(.done, q'.count)],
          s.expected ++ [(.done, ((s.list.tail ++ [item]).length : ℤ))]⟩ := by
      simp [Comparison.step, QueueCall.expected, QueueCall.actual, hpush, hq, Except.map]
    rw [hslot] at hr'
    obtain ⟨t, ht, hrt, hlen⟩ := ih (s := ⟨q', s.list.tail ++ [item], _, _⟩) hr'
      (by simp; omega) (by omega)
    refine ⟨t, run_cons_ok_iff.mpr ⟨_, hstep, ht⟩, ?_, hlen⟩
    rwa [Nat.add_assoc, Nat.add_comm 1 k] at hrt

theorem not_refinesList_moved {k : ℕ} (hn : n ≤ arrayMaxLength) (hk : k < n)
    (hover : 2 ^ 31 < k + n) (item other : T) :
    ¬ RefinesList debug n
      (.fill item :: (List.replicate k (.enqueue other) ++ [.get (n - 1)])) := by
  intro hrefines
  obtain ⟨queue, hnew⟩ := new_ok (T := T) hn
  have hfill := (RepresentsAt.new (show 1 ≤ n by omega) hnew).fill item
  obtain ⟨s, hs, hr, hlen⟩ := run_enqueues_full debug
    (s := ⟨queue.fill item, List.replicate n item, [(.done, (queue.fill item).count)],
      [(.done, ((List.replicate n item).length : ℤ))]⟩) hfill (by simp) (by simpa using hk) other
  have hget : ∃ item, s.list[n - 1]? = some item :=
    ⟨_, List.getElem?_eq_getElem (show n - 1 < s.list.length by omega)⟩
  obtain ⟨last, hlast⟩ := hget
  have hthrows : s.queue.getByIndex (n - 1 : ℕ) = .error (.raised .indexOutOfRange) :=
    hr.getByIndex_overflow (by omega) (by omega)
  have hstep : Comparison.step debug n s (.get (n - 1)) = .ok
      ⟨s.queue, s.list, s.observed ++ [(.threw (.raised .indexOutOfRange), s.queue.count)],
        s.expected ++ [(.item last, (s.list.length : ℤ))]⟩ := by
    simp only [Comparison.step, QueueCall.expected, QueueCall.actual, hlast, hthrows, Option.map_some,
      Except.map]
  have hrun : run (Comparison.step debug n) { queue }
      (.fill item :: (List.replicate k (.enqueue other) ++ [.get (n - 1)])) = .ok _ :=
    run_cons_ok_iff.mpr ⟨_, rfl, run_append_ok_iff.mpr ⟨s, hs, run_cons_ok_iff.mpr ⟨_, hstep, rfl⟩⟩⟩
  have hsame := hrefines queue hnew _ (reached_of_run hrun)
  have hlasts := List.append_inj_right' hsame rfl
  cases hlasts

end Large

/-- The longest array, filled, and then 58 more elements: the last index is 2^31 - 58. -/
theorem not_refinesList_longest :
    ¬ RefinesList false 2147483591
      (.fill (0 : UInt8) :: (List.replicate 58 (.enqueue 1) ++ [.get (2147483591 - 1)])) :=
  not_refinesList_moved false (by decide) (by decide) (by decide) 0 1

end DecodingProxy.Collections
