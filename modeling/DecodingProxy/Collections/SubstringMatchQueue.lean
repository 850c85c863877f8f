import DecodingProxy.Collections.QueueRefinement
import DecodingProxy.Runtime.Text
import Mathlib.Data.List.DropRight

/-!
# `SubstringMatchQueue`

The queue is as long as the string looked for and holds the bytes fed last, so a full queue that
is equal to the string is an occurrence that ends with the byte just fed.
-/

namespace DecodingProxy.Collections
open DecodingProxy.Runs DecodingProxy.Runtime

structure SubstringMatchQueue where
  queue : QueueCircled UInt8
  substring : Str

namespace SubstringMatchQueue

def new (substring : Str) : Except Fault SubstringMatchQueue := do
  let queue ← QueueCircled.new (substring.length : ℤ)
  .ok { queue, substring }

/-- The loop of `IsMatchOnEnqeue` from index `i` on, with `left` elements to compare. -/
def isMatchFrom (m : SubstringMatchQueue) (i : ℕ) : ℕ → Except Fault Bool
  | 0 => .ok true
  | left + 1 => do
    let b ← m.queue.getByIndex i
    let c ← Str.item m.substring i
    if b.toUInt16 ≠ c then .ok false else m.isMatchFrom (i + 1) left

def isMatchOnEnqueue (b : UInt8) (m : SubstringMatchQueue) :
    Except Fault (SubstringMatchQueue × Bool) := do
  let queue ← m.queue.enqueue b
  let m := { m with queue }
  if (m.substring.length : ℤ) ≠ m.queue.count then .ok (m, false)
  else
    let isMatch ← m.isMatchFrom 0 m.queue.count.toNat
    .ok (m, isMatch)

/-- A byte is fed and its answer is kept behind those before it. -/
def feed (s : SubstringMatchQueue × List Bool) (b : UInt8) :
    Except Fault (SubstringMatchQueue × List Bool) := do
  let (m, isMatch) ← s.1.isMatchOnEnqueue b
  .ok (m, s.2 ++ [isMatch])

end SubstringMatchQueue

/-! ### The bytes fed last -/

theorem pushBounded_rtake {α : Type} {n : ℕ} (hn : 1 ≤ n) (fed : List α) (b : α) :
    pushBounded n (fed.rtake n) b = (fed ++ [b]).rtake n := by
  unfold pushBounded List.rtake
  have hlen : (fed.drop (fed.length - n)).length = min n fed.length := by
    rw [List.length_drop]
    omega
  split_ifs with hroom
  · have hstart : (fed ++ [b]).length - n = 0 := by
      simp
      omega
    rw [show fed.length - n = 0 by omega, hstart]
    rfl
  · have hstart : (fed ++ [b]).length - n = fed.length - n + 1 := by
      simp
      omega
    rw [hstart, List.tail_drop, List.drop_append_of_le_length (by omega)]

/-- For every byte, whether the string ends with it. -/
def occurrences (substring : Str) (bytes : List UInt8) : List Bool :=
  (List.range bytes.length).map fun i =>
    decide (substring <:+ (bytes.take (i + 1)).map UInt8.toUInt16)

theorem occurrences_concat (substring : Str) (bytes : List UInt8) (b : UInt8) :
    occurrences substring (bytes ++ [b]) =
      occurrences substring bytes ++
        [decide (substring <:+ (bytes ++ [b]).map UInt8.toUInt16)] := by
  have hwhole : (bytes ++ [b]).take (bytes.length + 1) = bytes ++ [b] :=
    List.take_of_length_le (by simp)
  unfold occurrences
  rw [List.length_append, List.length_singleton, List.range_succ, List.map_append,
    List.map_singleton, hwhole]
  congr 1
  apply List.map_congr_left
  intro i hi
  have hlt := List.mem_range.mp hi
  rw [List.take_append_of_le_length (by omega)]

/-- The queue holds the last bytes of `fed`, as many as the string has code units. -/
structure Watches (substring : Str) (m : SubstringMatchQueue) (fed : List UInt8) : Prop where
  pattern : m.substring = substring
  window : ∃ h, RepresentsAt substring.length m.queue (fed.rtake substring.length) h

namespace Watches

variable {substring : Str} {m : SubstringMatchQueue} {fed : List UInt8}

theorem isMatchFrom {l : List UInt8} {n h : ℕ} (hr : RepresentsAt n m.queue l h)
    (hfull : l.length = n) (hlen : m.substring.length = n) (hrange : 2 * n ≤ 2 ^ 31) {i left : ℕ}
    (hleft : i + left = n) :
    m.isMatchFrom i left =
      .ok (decide ((l.drop i).map UInt8.toUInt16 = m.substring.drop i)) := by
  have hh := hr.head_lt
  induction left generalizing i with
  | zero =>
    rw [List.drop_eq_nil_of_le (by omega), List.drop_eq_nil_of_le (by omega)]
    rfl
  | succ left ih =>
    have hl : l[i]? = some l[i] := List.getElem?_eq_getElem (by omega)
    have hs : m.substring[i]? = some m.substring[i] := List.getElem?_eq_getElem (by omega)
    have hitem : Str.item m.substring i = .ok m.substring[i] := by
      rw [Str.item, hs]
    rw [SubstringMatchQueue.isMatchFrom, do_of_ok (hr.getByIndex hl (by omega)), do_of_ok hitem,
      ih (by omega), List.drop_eq_getElem_cons (l := l) (i := i) (by omega),
      List.drop_eq_getElem_cons (l := m.substring) (i := i) (by omega), List.map_cons]
    split_ifs with hdiffer
    · rw [decide_eq_false fun heq => hdiffer (List.cons_eq_cons.mp heq).1]
    · simp only [not_not.mp hdiffer, List.cons_eq_cons, true_and]

theorem rtake_eq_iff_suffix :
    (fed.rtake substring.length).map UInt8.toUInt16 = substring ↔
      substring <:+ fed.map UInt8.toUInt16 := by
  rw [List.suffix_iff_eq_drop, List.rtake, List.map_drop, List.length_map]
  exact eq_comm

theorem step (hw : Watches substring m fed) (hne : substring ≠ [])
    (hmax : substring.length ≤ Str.maxLength) (b : UInt8) :
    ∃ m', m.isMatchOnEnqueue b =
        .ok (m', decide (substring <:+ (fed ++ [b]).map UInt8.toUInt16)) ∧
      Watches substring m' (fed ++ [b]) := by
  have hpos := List.length_pos_iff.mpr hne
  have hstr : 2 * Str.maxLength ≤ 2 ^ 31 := by decide
  obtain ⟨hsub, h, hr⟩ := hw
  obtain ⟨queue, h', hqueue, hr'⟩ := hr.enqueue b
  rw [pushBounded_rtake hpos] at hr'
  refine ⟨{ m with queue }, ?_, hsub, h', hr'⟩
  rw [SubstringMatchQueue.isMatchOnEnqueue, do_of_ok hqueue]
  have hcount := hr'.count
  have hle := hr'.length_le
  simp only [hsub]
  split_ifs with hshort
  · have hnot : ¬ substring <:+ (fed ++ [b]).map UInt8.toUInt16 := by
      intro hsuffix
      have hfed := hsuffix.length_le
      rw [List.length_map] at hfed
      have hlen : ((fed ++ [b]).rtake substring.length).length = substring.length := by
        rw [List.rtake, List.length_drop]
        omega
      omega
    rw [decide_eq_false hnot]
  · have hfull : ((fed ++ [b]).rtake substring.length).length = substring.length := by omega
    have hloop := isMatchFrom (m := { m with queue }) hr' hfull (by rw [hsub]) (by omega)
      (show 0 + substring.length = substring.length by omega)
    have hcast : queue.count.toNat = substring.length := by omega
    rw [hsub, hcast.symm] at hloop
    simp only [do_of_ok hloop, List.drop_zero]
    rw [hcast]
    congr 2
    exact decide_eq_decide.mpr rtake_eq_iff_suffix

theorem new {substring : Text} (hne : substring.val ≠ []) :
    ∃ m, SubstringMatchQueue.new substring.val = .ok m ∧ Watches substring.val m [] := by
  have hpos := List.length_pos_iff.mpr hne
  have hmax := substring.property
  have hfits : Str.maxLength ≤ arrayMaxLength := by decide
  obtain ⟨queue, hqueue⟩ := new_ok (T := UInt8) (hmax.trans hfits)
  have hempty : ([] : List UInt8).rtake substring.val.length = [] := by simp [List.rtake]
  refine ⟨⟨queue, substring.val⟩, ?_, rfl, 0, ?_⟩
  · rw [SubstringMatchQueue.new, do_of_ok hqueue]
  · rw [hempty]
    exact .new hpos hqueue

/-- No run fails. -/
theorem run_feed {substring : Text} (hne : substring.val ≠ [])
    (hw : Watches substring.val m []) (bytes : List UInt8) :
    ∃ m' answers, run SubstringMatchQueue.feed (m, []) bytes = .ok (m', answers) ∧
      Watches substring.val m' bytes ∧ answers = occurrences substring.val bytes := by
  induction bytes using List.reverseRecOn with
  | nil => exact ⟨m, [], rfl, hw, rfl⟩
  | append_singleton bytes b ih =>
    obtain ⟨m', answers, hrun, hw', rfl⟩ := ih
    obtain ⟨m'', hmatch, hw''⟩ := hw'.step hne substring.property b
    refine ⟨m'', _, run_concat_ok_iff.mpr ⟨_, hrun, ?_⟩, hw'', rfl⟩
    rw [SubstringMatchQueue.feed, do_of_ok hmatch]
    rw [occurrences_concat]

end Watches

/-- Of the bytes fed to a new queue, the answers are true just where the string ends. -/
theorem isMatchOnEnqueue_exact (substring : Text) (hne : substring.val ≠ [])
    (bytes : List UInt8) :
    ∃ start m answers, SubstringMatchQueue.new substring.val = .ok start ∧
      run SubstringMatchQueue.feed (start, []) bytes = .ok (m, answers) ∧
      answers.length = bytes.length ∧
      ∀ i < bytes.length, answers[i]? =
        some (decide (substring.val <:+ (bytes.take (i + 1)).map UInt8.toUInt16)) := by
  obtain ⟨start, hstart, hw⟩ := Watches.new hne
  obtain ⟨m, answers, hrun, -, rfl⟩ := hw.run_feed hne bytes
  refine ⟨start, m, _, hstart, hrun, by simp [occurrences], fun i hi => ?_⟩
  rw [occurrences, List.getElem?_map, List.getElem?_range hi, Option.map_some]

theorem isMatchOnEnqueue_exact_aa :
    ∃ start m answers, SubstringMatchQueue.new (ascii "aa") = .ok start ∧
      run SubstringMatchQueue.feed (start, []) [97, 97, 97, 98] = .ok (m, answers) ∧
      answers.length = 4 ∧
      ∀ i < 4, answers[i]? =
        some (decide (ascii "aa" <:+ (([97, 97, 97, 98] : List UInt8).take (i + 1)).map
          UInt8.toUInt16)) :=
  isMatchOnEnqueue_exact ⟨ascii "aa", by decide⟩ (by decide) [97, 97, 97, 98]

end DecodingProxy.Collections
