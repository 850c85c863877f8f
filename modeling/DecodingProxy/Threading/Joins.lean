import DecodingProxy.Lib.Runs
import DecodingProxy.Threading.AsyncCounter
import Mathlib.Data.Finset.Card

/-!
# `Awaiting.WhenAll` and `WhenResults` as interleavings

The loop of `Regist` subscribes the operations one after the other, each completes at
any time before or after, and the continuation of a completed and subscribed operation
runs `Decrement`. The counter starts at zero and is decremented towards a positive
target, so no join ever finishes.
-/

namespace DecodingProxy.Threading
open DecodingProxy.Runs DecodingProxy.Runtime

inductive Awaited
  | notYet
  | waiting
  | finished
  deriving DecidableEq, Repr

structure Join where
  counter : AsyncCounter
  /-- How many operations the loop has passed to `Decrement(Task)`. -/
  subscribed : ℕ := 0
  completed : Finset ℕ := ∅
  /-- The operations whose continuation has run. -/
  continued : Finset ℕ := ∅
  awaited : Awaited := .notYet
  deriving DecidableEq

inductive JoinAction
  | subscribe
  | complete (operation : ℕ)
  | continuation (operation : ℕ)
  | await
  deriving DecidableEq, Repr

namespace Join

/-- `SetResult` resumes an await that has begun; `Reset` then starts a new version, so
an await that begins later waits for the next result. -/
def decrement (s : Join) (operation : ℕ) : Join :=
  let counter := s.counter.decrement
  { s with
    counter
    continued := insert operation s.continued
    awaited :=
      if counter.finished ≠ s.counter.finished ∧ s.awaited = .waiting then .finished
      else s.awaited }

/-- A step of a join of `n` operations; an action that cannot be taken is an error. -/
def step (n : ℕ) (s : Join) : JoinAction → Except Unit Join
  | .subscribe =>
    if s.subscribed < n then .ok { s with subscribed := s.subscribed + 1 } else .error ()
  | .complete operation =>
    if operation < n ∧ operation ∉ s.completed then
      .ok { s with completed := insert operation s.completed }
    else .error ()
  | .continuation operation =>
    if operation < s.subscribed ∧ operation ∈ s.completed ∧ operation ∉ s.continued then
      .ok (s.decrement operation)
    else .error ()
  | .await =>
    if s.subscribed = n ∧ s.awaited = .notYet then .ok { s with awaited := .waiting }
    else .error ()

/-- The counter fires once, no earlier than the last completion and no later than the
last continuation, and with it the await that waits for it finishes. -/
structure JoinedOnce (n : ℕ) (s : Join) : Prop where
  notBefore : s.completed.card < n → s.counter.finished = 0 ∧ s.awaited ≠ .finished
  once : s.continued.card = n → s.counter.finished = 1 ∧ s.awaited ≠ .waiting

/-- From a new counter that was initialised for `n`, every order of steps. -/
def JoinsOnce (n : ℕ) : Prop :=
  ∀ counter, AsyncCounter.init {} n = .ok counter →
    ∀ actions s, run (step n) { counter } actions = .ok s → s.JoinedOnce n

/-- The counter is below zero and its target above. -/
structure Silent (n : ℕ) (s : Join) : Prop where
  target : s.counter.target = n
  counter : s.counter.counter = -s.continued.card
  subscribed : s.subscribed ≤ n
  continued : ∀ operation ∈ s.continued, operation < n
  finished : s.counter.finished = 0
  awaited : s.awaited ≠ .finished

theorem silent_step {n : ℕ} (hpos : 1 ≤ n) (hint : (n : ℤ) < 2 ^ 31) {s t : Join}
    {action : JoinAction} (h : s.Silent n) (hs : s.step n action = .ok t) : t.Silent n := by
  cases action with
  | subscribe =>
    simp only [step] at hs
    split_ifs at hs with hc
    cases hs
    exact ⟨h.target, h.counter, hc, h.continued, h.finished, h.awaited⟩
  | complete operation =>
    simp only [step] at hs
    split_ifs at hs
    cases hs
    exact ⟨h.target, h.counter, h.subscribed, h.continued, h.finished, h.awaited⟩
  | continuation operation =>
    simp only [step] at hs
    split_ifs at hs with hc
    cases hs
    obtain ⟨hsub, -, hnew⟩ := hc
    have hlt : operation < n := lt_of_lt_of_le hsub h.subscribed
    have hcard : (insert operation s.continued).card = s.continued.card + 1 :=
      Finset.card_insert_of_notMem hnew
    have hle : s.continued.card + 1 ≤ n := by
      have hsub : insert operation s.continued ⊆ Finset.range n := by
        intro i hi
        rcases Finset.mem_insert.mp hi with rfl | hi
        · exact Finset.mem_range.mpr hlt
        · exact Finset.mem_range.mpr (h.continued i hi)
      simpa [hcard] using Finset.card_le_card hsub
    have hnext : int32 (s.counter.counter - 1) = -((s.continued.card + 1 : ℕ) : ℤ) := by
      rw [h.counter, int32_of_range (by omega) (by omega)]
      omega
    have hmiss : ¬ int32 (s.counter.counter - 1) = s.counter.target := by
      rw [hnext, h.target]
      omega
    have hdec : s.counter.decrement =
        { s.counter with counter := int32 (s.counter.counter - 1) } := by
      simp only [AsyncCounter.decrement, if_neg hmiss]
    refine ⟨?_, ?_, h.subscribed, ?_, ?_, ?_⟩
    · simp only [decrement, hdec, h.target]
    · simp only [decrement, hdec, hnext, hcard]
    · intro i hi
      rcases Finset.mem_insert.mp hi with rfl | hi
      · exact hlt
      · exact h.continued i hi
    · simp only [decrement, hdec, h.finished]
    · simp only [decrement, hdec, ne_eq, not_true_eq_false, false_and, if_false]
      exact h.awaited
  | await =>
    simp only [step] at hs
    split_ifs at hs
    cases hs
    exact ⟨h.target, h.counter, h.subscribed, h.continued, h.finished, by simp⟩

theorem silent_run {n : ℕ} (hpos : 1 ≤ n) (hint : (n : ℤ) < 2 ^ 31) {s t : Join}
    {actions : List JoinAction} (h : s.Silent n) (hr : run (step n) s actions = .ok t) :
    t.Silent n :=
  Along.run_invariant (C := fun _ _ => True) (fun _ _ _ hi _ hs => silent_step hpos hint hi hs) h
    (along_of_forall fun _ _ _ => trivial) hr

/-- Each operation is subscribed, completes, and its continuation runs, in order. -/
def inOrder : ℕ → List JoinAction
  | 0 => []
  | k + 1 => inOrder k ++ [.subscribe, .complete k, .continuation k]

theorem inOrder_run {n k : ℕ} (hk : k ≤ n) (counter : AsyncCounter) :
    ∃ s, run (step n) { counter } (inOrder k) = .ok s ∧ s.subscribed = k ∧
      s.completed = Finset.range k ∧ s.continued = Finset.range k := by
  induction k with
  | zero => exact ⟨_, rfl, rfl, rfl, rfl⟩
  | succ k ih =>
    obtain ⟨s, hs, hsub, hcompleted, hcontinued⟩ := ih (by omega)
    let t : Join := { s with subscribed := k + 1, completed := insert k (Finset.range k) }
    refine ⟨t.decrement k, ?_, rfl, ?_, ?_⟩
    · refine run_append_ok_iff.mpr ⟨s, hs, ?_⟩
      refine run_cons_ok_iff.mpr ⟨{ s with subscribed := k + 1 }, ?_, ?_⟩
      · rw [step, if_pos (by omega), hsub]
      refine run_cons_ok_iff.mpr ⟨t, ?_, ?_⟩
      · simp only [step, hcompleted]
        rw [if_pos ⟨by omega, by simp⟩]
      refine run_cons_ok_iff.mpr ⟨t.decrement k, ?_, rfl⟩
      rw [step, if_pos]
      refine ⟨Nat.lt_succ_self k, Finset.mem_insert_self _ _, ?_⟩
      change k ∉ s.continued
      simp [hcontinued]
    · exact Finset.range_add_one.symm
    · change insert k s.continued = _
      rw [hcontinued, Finset.range_add_one]

end Join

/-- No join of one operation or more is ever finished by its counter. -/
theorem not_joinsOnce {n : ℕ} (hpos : 1 ≤ n) (hint : (n : ℤ) < 2 ^ 31) : ¬ Join.JoinsOnce n := by
  intro hjoins
  let counter : AsyncCounter := { target := n, isRunning := true }
  obtain ⟨s, hs, -, -, hcontinued⟩ := Join.inOrder_run (Nat.le_refl n) counter
  have honce := (hjoins counter rfl _ s hs).once (by simp [hcontinued])
  have hstart : Join.Silent n { counter } :=
    ⟨rfl, rfl, Nat.zero_le _, by simp, rfl, by simp⟩
  have hsilent := Join.silent_run hpos hint hstart hs
  rw [hsilent.finished] at honce
  exact absurd honce.1 (by decide)

theorem not_joinsOnce_three : 1 ≤ 3 ∧ ((3 : ℕ) : ℤ) < 2 ^ 31 ∧ ¬ Join.JoinsOnce 3 :=
  ⟨by decide, by decide, not_joinsOnce (by decide) (by decide)⟩

/-- One operation, subscribed, completed and continued: the counter holds -1. -/
theorem not_joinsOnce_one : ¬ Join.JoinsOnce 1 := by
  intro hjoins
  have honce := (hjoins _ rfl [.subscribe, .complete 0, .continuation 0] _ rfl).once rfl
  exact absurd honce.1 (by decide)

end DecodingProxy.Threading
