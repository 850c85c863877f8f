import DecodingProxy.Threading.IziSignaler

/-!
# The counters of `IziSignaler`

One waiter repeats `await signaler.Await()`, and `SetComplete` is called at any time. A
signal that comes before the await is taken by it. One that comes while the await is open
completes it without having been counted, and `GetResult` counts it down all the same.
-/

namespace DecodingProxy.Threading
open DecodingProxy.Runs DecodingProxy.Runtime

namespace SignalerLoop

/-- Whatever the waiter does next, nothing throws, no count is negative, and the `k`-th
await ends just when there were `k` signals. -/
structure Exact (s : SignalerLoop) : Prop where
  returns : ∀ n, ∃ t, s.alone n = .ok t
  nonneg : ∀ n t, s.alone n = .ok t → 0 ≤ t.signaler.countCompletions
  completes : ∀ k, (∃ n t, s.alone n = .ok t ∧ k ≤ t.completed) ↔ k ≤ s.signals

def CountsExactly (steps : List LoopStep) : Prop := RunsWell step Exact {} steps

/-- `SetComplete` comes when no await is open, and fewer signals are stored than an `int`
counts. -/
def InTime (s : SignalerLoop) : LoopStep → Prop
  | .waiter => True
  | .setComplete =>
    s.signaler.countAwaits = 0 ∧ s.signaler.countCompletions < 2 ^ 31 - 1

instance (s : SignalerLoop) (a : LoopStep) : Decidable (s.InTime a) := by
  cases a <;> unfold InTime <;> infer_instance

/-- The await has found no signal, and the continuation is set in its last part only. -/
structure IsOpen (s : SignalerLoop) (continuation : Bool) : Prop where
  completions : s.signaler.countCompletions = 0
  awaits : s.signaler.countAwaits = 1
  continuation : s.signaler.continuation = continuation

/-- No await is waiting for a signal. -/
structure IsIdle (s : SignalerLoop) : Prop where
  awaits : s.signaler.countAwaits = 0
  continuation : s.signaler.continuation = false

/-- What the counters are at each point of the waiter. -/
def AtPoint (s : SignalerLoop) : WaiterPoint → Prop
  | .calling => s.IsIdle
  | .testing => s.IsIdle ∧ 0 < s.signaler.countCompletions ∨ s.IsOpen false
  | .registering => s.IsOpen false
  | .suspended => s.IsOpen true
  | .resuming => s.IsIdle ∧ 0 < s.signaler.countCompletions

structure Sound (s : SignalerLoop) : Prop where
  taken : s.completed ≤ s.signals
  stored : s.signaler.countCompletions = s.signals - s.completed
  range : s.signaler.countCompletions < 2 ^ 31
  point : s.AtPoint s.waiter

variable {s t : SignalerLoop}

theorem sound_start : Sound {} := ⟨le_rfl, rfl, by decide, rfl, rfl⟩

theorem Sound.nonneg (h : s.Sound) : 0 ≤ s.signaler.countCompletions := by
  have hle := h.taken
  have hstored := h.stored
  omega

/-! ### The waiter -/

theorem Sound.call (h : s.Sound) (hw : s.waiter = .calling) :
    ∃ t, s.move = .ok t ∧ t.Sound ∧ t.signals = s.signals ∧ t.completed = s.completed ∧
      t.waiter = .testing := by
  have hidle : s.IsIdle := by simpa [AtPoint, hw] using h.point
  have hnonneg := h.nonneg
  simp only [move, hw]
  unfold IziSignaler.await
  by_cases hpos : s.signaler.countCompletions > 0
  · rw [if_pos hpos]
    exact ⟨_, rfl, ⟨h.taken, h.stored, h.range, .inl ⟨⟨hidle.awaits, hidle.continuation⟩, hpos⟩⟩,
      rfl, rfl, rfl⟩
  · have hone : int32 (s.signaler.countAwaits + 1) = 1 := by rw [hidle.awaits]; rfl
    rw [if_neg hpos]
    simp only [hone]
    refine ⟨_, rfl, ⟨h.taken, h.stored, h.range, .inr ⟨?_, rfl, hidle.continuation⟩⟩, rfl, rfl, rfl⟩
    simp only
    omega

theorem Sound.test (h : s.Sound) (hw : s.waiter = .testing) :
    ∃ t, s.move = .ok t ∧ t.Sound ∧ t.signals = s.signals ∧ t.completed = s.completed ∧
      (0 < s.signaler.countCompletions → t.waiter = .resuming) := by
  have hpoint : s.IsIdle ∧ 0 < s.signaler.countCompletions ∨ s.IsOpen false := by
    simpa [AtPoint, hw] using h.point
  simp only [move, hw]
  rcases hpoint with ⟨hidle, hpos⟩ | hopen
  · have htest : s.signaler.isCompleted = true := by simpa [IziSignaler.isCompleted] using hpos
    rw [htest]
    exact ⟨_, rfl, ⟨h.taken, h.stored, h.range, ⟨hidle.awaits, hidle.continuation⟩, hpos⟩,
      rfl, rfl, fun _ => rfl⟩
  · have htest : s.signaler.isCompleted = false := by
      simp [IziSignaler.isCompleted, hopen.completions]
    rw [htest]
    refine ⟨_, rfl, ⟨h.taken, h.stored, h.range, ⟨hopen.completions, hopen.awaits,
      hopen.continuation⟩⟩, rfl, rfl, fun hpos => ?_⟩
    rw [hopen.completions] at hpos
    exact absurd hpos (by decide)

theorem Sound.resume (h : s.Sound) (hw : s.waiter = .resuming) :
    ∃ t, s.move = .ok t ∧ t.Sound ∧ t.signals = s.signals ∧ t.completed = s.completed + 1 := by
  obtain ⟨hidle, hpos⟩ : s.IsIdle ∧ 0 < s.signaler.countCompletions := by
    simpa [AtPoint, hw] using h.point
  have hstored := h.stored
  have hrange := h.range
  have hless : int32 (s.signaler.countCompletions - 1) = s.signaler.countCompletions - 1 :=
    int32_of_range (by omega) (by omega)
  simp only [move, hw]
  refine ⟨_, rfl, ⟨?_, ?_, ?_, hidle.awaits, hidle.continuation⟩, rfl, rfl⟩
  · simp only
    omega
  · simp only [IziSignaler.getResult, hless]
    omega
  · simp only [IziSignaler.getResult, hless]
    omega

theorem Sound.move (h : s.Sound) : ∃ t, s.move = .ok t ∧ t.Sound ∧ t.signals = s.signals := by
  cases hw : s.waiter with
  | calling =>
    obtain ⟨t, ht, hsound, hsignals, -⟩ := h.call hw
    exact ⟨t, ht, hsound, hsignals⟩
  | testing =>
    obtain ⟨t, ht, hsound, hsignals, -⟩ := h.test hw
    exact ⟨t, ht, hsound, hsignals⟩
  | registering =>
    have hopen : s.IsOpen false := by simpa [AtPoint, hw] using h.point
    simp only [SignalerLoop.move, hw]
    exact ⟨_, rfl, ⟨h.taken, h.stored, h.range, ⟨hopen.completions, hopen.awaits, rfl⟩⟩, rfl⟩
  | suspended =>
    simp only [SignalerLoop.move, hw]
    exact ⟨s, rfl, h, rfl⟩
  | resuming =>
    obtain ⟨t, ht, hsound, hsignals, -⟩ := h.resume hw
    exact ⟨t, ht, hsound, hsignals⟩

theorem alone_add (m n : ℕ) (s : SignalerLoop) :
    s.alone (m + n) = (s.alone m).bind fun t => t.alone n := by
  unfold alone
  rw [List.replicate_add, run_append]

theorem Sound.alone (h : s.Sound) (n : ℕ) :
    ∃ t, s.alone n = .ok t ∧ t.Sound ∧ t.signals = s.signals := by
  induction n generalizing s with
  | zero => exact ⟨s, rfl, h, rfl⟩
  | succ n ih =>
    obtain ⟨m, hm, hsound, hsignals⟩ := h.move
    obtain ⟨t, ht, hsound', hsignals'⟩ := ih hsound
    exact ⟨t, bind_ok_iff.mpr ⟨m, hm, ht⟩, hsound', hsignals'.trans hsignals⟩

theorem Sound.next (h : s.Sound) (hless : s.completed < s.signals) :
    ∃ n t, s.alone n = .ok t ∧ t.Sound ∧ t.signals = s.signals ∧
      t.completed = s.completed + 1 := by
  have hstored := h.stored
  have hpos : 0 < s.signaler.countCompletions := by omega
  have hresume : ∀ {u : SignalerLoop}, u.Sound → u.waiter = .resuming →
      ∃ t, u.alone 1 = .ok t ∧ t.Sound ∧ t.signals = u.signals ∧ t.completed = u.completed + 1 := by
    intro u hu hw
    obtain ⟨t, ht, hrest⟩ := hu.resume hw
    exact ⟨t, bind_ok_iff.mpr ⟨t, ht, rfl⟩, hrest⟩
  have htest : ∀ {u : SignalerLoop}, u.Sound → u.waiter = .testing →
      0 < u.signaler.countCompletions →
      ∃ t, u.alone 2 = .ok t ∧ t.Sound ∧ t.signals = u.signals ∧ t.completed = u.completed + 1 := by
    intro u hu hw hu'
    obtain ⟨m, hm, hsound, hsignals, hcompleted, hwaiter⟩ := hu.test hw
    obtain ⟨t, ht, hsound', hsignals', hcompleted'⟩ := hresume hsound (hwaiter hu')
    exact ⟨t, bind_ok_iff.mpr ⟨m, hm, ht⟩, hsound', hsignals'.trans hsignals, by omega⟩
  cases hw : s.waiter with
  | calling =>
    obtain ⟨m, hm, hsound, hsignals, hcompleted, hwaiter⟩ := h.call hw
    have hmstored := hsound.stored
    obtain ⟨t, ht, hsound', hsignals', hcompleted'⟩ := htest hsound hwaiter (by omega)
    exact ⟨3, t, bind_ok_iff.mpr ⟨m, hm, ht⟩, hsound', hsignals'.trans hsignals, by omega⟩
  | testing => exact ⟨2, htest h hw hpos⟩
  | registering =>
    have hopen : s.IsOpen false := by simpa [AtPoint, hw] using h.point
    exact absurd hopen.completions hpos.ne'
  | suspended =>
    have hopen : s.IsOpen true := by simpa [AtPoint, hw] using h.point
    exact absurd hopen.completions hpos.ne'
  | resuming => exact ⟨1, hresume h hw⟩

theorem Sound.catchUp (h : s.Sound) {k : ℕ} (hk : k ≤ s.signals) :
    ∃ n t, s.alone n = .ok t ∧ k ≤ t.completed := by
  induction hd : s.signals - s.completed generalizing s with
  | zero => exact ⟨0, s, rfl, by omega⟩
  | succ d ih =>
    obtain ⟨m, u, hu, hsound, hsignals, hcompleted⟩ := h.next (by omega)
    obtain ⟨n, t, ht, hle⟩ := ih hsound (by omega) (by omega)
    refine ⟨m + n, t, ?_, hle⟩
    rw [alone_add]
    exact bind_ok_iff.mpr ⟨u, hu, ht⟩

theorem Sound.exact (h : s.Sound) : s.Exact := by
  refine ⟨fun n => ?_, fun n t ht => ?_, fun k => ⟨?_, h.catchUp⟩⟩
  · obtain ⟨t, ht, -⟩ := h.alone n
    exact ⟨t, ht⟩
  · obtain ⟨u, hu, hsound, -⟩ := h.alone n
    cases ht.symm.trans hu
    exact hsound.nonneg
  · rintro ⟨n, t, ht, hk⟩
    obtain ⟨u, hu, hsound, hsignals⟩ := h.alone n
    cases ht.symm.trans hu
    have htaken := hsound.taken
    omega

/-! ### `SetComplete` -/

theorem Sound.idle_iff (h : s.Sound) : s.signaler.countAwaits = 0 ↔ s.IsIdle := by
  refine ⟨fun hzero => ?_, fun hidle => hidle.awaits⟩
  have hclosed : ∀ {continuation}, ¬ s.IsOpen continuation := by
    intro continuation hopen
    have hone := hopen.awaits
    omega
  have hpoint := h.point
  cases hw : s.waiter <;> simp only [hw, AtPoint] at hpoint
  · exact hpoint
  · exact hpoint.elim And.left fun hopen => absurd hopen hclosed
  · exact absurd hpoint hclosed
  · exact absurd hpoint hclosed
  · exact hpoint.1

theorem Sound.setComplete (h : s.Sound) (hc : s.InTime .setComplete) :
    ∃ t, s.setComplete = .ok t ∧ t.Sound := by
  obtain ⟨hzero, hroom⟩ := hc
  have hidle := h.idle_iff.mp hzero
  have hnonneg := h.nonneg
  have htaken := h.taken
  have hstored := h.stored
  have hnext : int32 (s.signaler.countCompletions + 1) = s.signaler.countCompletions + 1 :=
    int32_of_range (by omega) (by omega)
  have hset : s.signaler.setComplete = .ok ({ s.signaler with
      countCompletions := s.signaler.countCompletions + 1 }, false) := by
    rw [IziSignaler.setComplete, if_neg (by omega), hnext]
  refine ⟨_, do_of_ok hset, ?_, ?_, ?_, ?_⟩
  · simp only
    omega
  · simp only
    omega
  · simp only
    omega
  · have hpoint := h.point
    simp only [Bool.false_eq_true, if_false]
    cases hw : s.waiter <;> simp only [hw, AtPoint] at hpoint ⊢
    · exact ⟨hidle.awaits, hidle.continuation⟩
    · exact .inl ⟨⟨hidle.awaits, hidle.continuation⟩, by omega⟩
    · exact absurd hpoint.awaits (by omega)
    · exact absurd hpoint.awaits (by omega)
    · exact ⟨⟨hidle.awaits, hidle.continuation⟩, by omega⟩

theorem Sound.setComplete_late (h : s.Sound) (hc : ¬ s.InTime .setComplete)
    (ht : s.setComplete = .ok t) : ¬ t.Exact := by
  intro hexact
  have hrange := h.range
  obtain ⟨⟨signaler, invoked⟩, hset, ht⟩ := do_ok_iff.mp ht
  cases ht
  unfold IziSignaler.setComplete at hset
  by_cases hzero : s.signaler.countAwaits = 0
  · have hfull : s.signaler.countCompletions = 2 ^ 31 - 1 := by
      have hroom : ¬ s.signaler.countCompletions < 2 ^ 31 - 1 := fun hroom => hc ⟨hzero, hroom⟩
      omega
    rw [if_neg (by omega)] at hset
    cases hset
    have hneg := hexact.nonneg 0 _ rfl
    simp only [hfull] at hneg
    exact absurd hneg (by decide)
  · have hopen : ∃ continuation, s.IsOpen continuation := by
      have hpoint := h.point
      cases hw : s.waiter <;> simp only [hw, AtPoint] at hpoint
      · exact absurd hpoint.awaits hzero
      · rcases hpoint with hidle | hopen
        · exact absurd hidle.1.awaits hzero
        · exact ⟨_, hopen⟩
      · exact ⟨_, hpoint⟩
      · exact ⟨_, hpoint⟩
      · exact absurd hpoint.1.awaits hzero
    obtain ⟨continuation, hopen⟩ := hopen
    rw [if_pos (by rw [hopen.awaits]; decide)] at hset
    split_ifs at hset
    cases hset
    -- the continuation runs with no signal stored
    have hneg := hexact.nonneg 1 _ rfl
    simp only [IziSignaler.getResult, hopen.completions] at hneg
    exact absurd hneg (by decide)

/-! ### Runs -/

theorem countsExactly_iff (steps : List LoopStep) :
    CountsExactly steps ↔ Along step InTime {} steps := by
  refine runsWell_iff_along (A := fun _ _ => True) (fun s h => h.exact) ?_ ?_ sound_start
    (along_of_forall fun _ _ _ => trivial)
  · intro s a h _ hc
    cases a with
    | waiter =>
      obtain ⟨t, ht, hsound, -⟩ := h.move
      exact ⟨t, ht, hsound⟩
    | setComplete => exact h.setComplete hc
  · intro s a h _ hc t ht
    cases a with
    | waiter => exact absurd trivial hc
    | setComplete => exact h.setComplete_late hc ht

/-- A signal while the await is suspended. -/
theorem not_countsExactly_suspended :
    ¬ CountsExactly [.waiter, .waiter, .waiter, .setComplete] := by
  rw [countsExactly_iff]
  decide

end SignalerLoop

end DecodingProxy.Threading
