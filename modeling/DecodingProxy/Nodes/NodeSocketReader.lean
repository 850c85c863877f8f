import DecodingProxy.Lib.Runs
import DecodingProxy.Runtime.Queue
import DecodingProxy.Threading.AsyncSignaler

/-!
# `NodeSocketReader`

The read loop enqueues what it receives and then sets the signaler; one consumer awaits the
signaler and then dequeues. Nothing is cancelled. The two parties take their steps in any order.
-/

namespace DecodingProxy.Nodes
open DecodingProxy.Runs DecodingProxy.Runtime DecodingProxy.Threading

/-- The bytes that were read into it. -/
abbrev DataFragment := List UInt8

structure NodeSocketReader where
  signaler : AsyncSignaler := {}
  fragments : List DataFragment := []
  deriving DecidableEq, Repr

/-- Where the loop of `ExecuteAsync` is. -/
inductive ReadLoop
  | receiving
  /-- The fragment is enqueued, and `Set` is to be called. -/
  | enqueued
  deriving DecidableEq, Repr

/-- Where the consumer is in `TakeFragAsync`. -/
inductive Taker
  | idle
  | awaiting (token : UInt16)
  /-- `Await` gave `true`, and `Dequeue` is to be called. -/
  | signaled
  deriving DecidableEq, Repr

structure TakeSession where
  node : NodeSocketReader := {}
  loop : ReadLoop := .receiving
  taker : Taker := .idle
  enqueued : List DataFragment := []
  taken : List DataFragment := []
  deriving DecidableEq, Repr

inductive TakeStep
  | enqueue (fragment : DataFragment)
  | set
  | await
  | getResult
  | dequeue
  deriving DecidableEq, Repr

namespace TakeSession

def exCanceled : Fault := .thrown .operationCanceled "Task cancelled inside AsyncSignaler"

/-- What the consumer does with the result of `Await`. -/
def signal (s : TakeSession) : Bool → Except (Option Fault) TakeSession
  | true => .ok { s with taker := .signaled }
  | false => .error (some exCanceled)

/-- A step that throws gives the exception, and one that is not its party's next gives none. -/
def step (s : TakeSession) : TakeStep → Except (Option Fault) TakeSession
  | .enqueue fragment =>
    match s.loop with
    | .receiving => do
      let fragments ← (Runtime.enqueue s.node.fragments fragment).mapError some
      .ok { s with
        node := { s.node with fragments }
        loop := .enqueued
        enqueued := s.enqueued ++ [fragment] }
    | .enqueued => .error none
  | .set =>
    match s.loop with
    | .receiving => .error none
    | .enqueued =>
      match s.node.signaler.set with
      | (signaler, .ok ()) => .ok { s with node := { s.node with signaler }, loop := .receiving }
      | (_, .error fault) => .error (some fault)
  | .await =>
    match s.taker with
    | .idle =>
      match s.node.signaler.await none with
      | (signaler, .ok (.result value)) => signal { s with node := { s.node with signaler } } value
      | (signaler, .ok (.source token)) =>
        .ok { s with node := { s.node with signaler }, taker := .awaiting token }
      | (_, .error fault) => .error (some fault)
    | .awaiting _ | .signaled => .error none
  | .getResult =>
    match s.taker with
    | .awaiting token =>
      match s.node.signaler.getStatus token with
      | .ok true =>
        match s.node.signaler.getResult token with
        | (signaler, .ok value) => signal { s with node := { s.node with signaler } } value
        | (_, .error fault) => .error (some fault)
      | .ok false => .error none
      | .error fault => .error (some fault)
    | .idle | .signaled => .error none
  | .dequeue =>
    match s.taker with
    | .signaled => do
      let (fragment, fragments) ← (Runtime.dequeue s.node.fragments).mapError some
      .ok { s with
        node := { s.node with fragments }
        taker := .idle
        taken := s.taken ++ [fragment] }
    | .idle | .awaiting _ => .error none

/-- The consumer awaits a task that is not completed. -/
def waits (s : TakeSession) : Bool :=
  match s.taker with
  | .awaiting token => s.node.signaler.getStatus token = .ok false
  | .idle | .signaled => false

/-- What the consumer took is what came first, it never finds the queue empty, it does not wait
while there is a fragment whose `Set` was made, and only `Enqueue` may throw, for want of memory. -/
structure HandsOver (s : TakeSession) : Prop where
  order : s.taken <+: s.enqueued
  signaled : s.taker = .signaled → s.node.fragments ≠ []
  waiting : s.loop = .receiving → s.waits → s.node.fragments = []
  throws : ∀ a fault, s.step a = .error (some fault) →
    fault = .raised .outOfMemory ∧ ∃ fragment, a = .enqueue fragment

def InOrder (steps : List TakeStep) : Prop := ∀ s, Reached step {} steps s → s.HandsOver

/-! ### The invariant -/

/-- The consumer waits, as a number. -/
def opened (s : TakeSession) : ℕ :=
  match s.taker with
  | .awaiting _ => if s.node.signaler.manualReset.completed then 0 else 1
  | .idle | .signaled => 0

/-- A `Set` was given to the consumer, and it has not dequeued since. -/
def given (s : TakeSession) : ℕ :=
  match s.taker with
  | .awaiting _ => if s.node.signaler.manualReset.completed then 1 else 0
  | .idle => 0
  | .signaled => 1

def pending (s : TakeSession) : ℕ :=
  match s.loop with
  | .receiving => 0
  | .enqueued => 1

/-- Each fragment in the queue has its `Set`: one that is stored, that was given to the consumer,
or that is to be made. -/
structure Sound (s : TakeSession) : Prop where
  order : s.enqueued = s.taken ++ s.node.fragments
  room : s.node.fragments.length ≤ arrayMaxLength
  counts : s.node.signaler.responses + s.given + s.pending = s.node.fragments.length
  stored : 0 ≤ s.node.signaler.responses
  requests : s.node.signaler.requests = s.opened
  waiting : s.opened = 1 → s.node.signaler.responses = 0
  token : ∀ token, s.taker = .awaiting token → token = s.node.signaler.manualReset.version
  fresh : (∀ token, s.taker ≠ .awaiting token) → s.node.signaler.manualReset.completed = false
  value : s.node.signaler.manualReset.error = false

variable {s t : TakeSession}

theorem sound_start : Sound {} := by
  constructor <;> simp [given, pending, opened]

theorem Sound.responses_le (h : s.Sound) :
    s.node.signaler.responses + s.given + s.pending ≤ arrayMaxLength := by
  rw [h.counts]
  exact_mod_cast h.room

/-! #### The read loop -/

theorem Sound.enqueue (h : s.Sound) (hloop : s.loop = .receiving)
    (hroom : s.node.fragments.length < arrayMaxLength) (fragment : DataFragment) :
    ∃ t, s.step (.enqueue fragment) = .ok t ∧ t.Sound := by
  refine ⟨{ s with
      node := { s.node with fragments := s.node.fragments ++ [fragment] }
      loop := .enqueued
      enqueued := s.enqueued ++ [fragment] }, ?_, ?_⟩
  · simp only [step, hloop, Runtime.enqueue, if_pos hroom]
    rfl
  refine ⟨?_, ?_, ?_, h.stored, h.requests, h.waiting, h.token, h.fresh, h.value⟩
  · simp [h.order]
  · rw [List.length_append]
    exact hroom
  · have hcounts := h.counts
    simp only [pending, hloop] at hcounts
    simp only [given, pending] at hcounts ⊢
    rw [List.length_append, List.length_singleton]
    omega

/-- A `Set` while the consumer waits completes its task. -/
theorem Sound.set_opened (h : s.Sound) (hloop : s.loop = .enqueued) {token : UInt16}
    (htaker : s.taker = .awaiting token) (hopen : s.node.signaler.manualReset.completed = false) :
    ∃ t, s.step .set = .ok t ∧ t.Sound := by
  have hopened : s.opened = 1 := by simp [opened, htaker, hopen]
  have hrequests : s.node.signaler.requests = 1 := by simp [h.requests, hopened]
  have hset := AsyncSignaler.set_completes (s := s.node.signaler) (by omega) hopen
  refine ⟨{ s with node := { s.node with signaler := s.node.signaler.set.1 }, loop := .receiving },
    by simp [step, hloop, hset], ?_⟩
  rw [hset]
  refine ⟨h.order, h.room, ?_, h.stored, ?_, ?_, h.token, ?_, h.value⟩
  · have hcounts := h.counts
    simp only [given, pending, htaker, hloop, hopen] at hcounts ⊢
    simpa using hcounts
  · simp [opened, htaker, hrequests]
  · simp [opened, htaker]
  · exact fun hnot => absurd htaker (hnot token)

/-- A `Set` while the consumer does not wait is stored. -/
theorem Sound.set_stored (h : s.Sound) (hloop : s.loop = .enqueued) (hopened : s.opened = 0) :
    ∃ t, s.step .set = .ok t ∧ t.Sound := by
  have hrequests : s.node.signaler.requests = 0 := by simp [h.requests, hopened]
  have hcounts := h.counts
  have hle := h.responses_le
  have hstored := h.stored
  have hmax : arrayMaxLength < 2 ^ 31 := by decide
  have hpending : s.pending = 1 := by simp [pending, hloop]
  have hset := AsyncSignaler.set_stores (s := s.node.signaler) (by omega)
  rw [int32_of_range (by omega) (by omega)] at hset
  refine ⟨{ s with node := { s.node with signaler := s.node.signaler.set.1 }, loop := .receiving },
    by simp [step, hloop, hset], ?_⟩
  rw [hset]
  refine ⟨h.order, h.room, ?_, ?_, h.requests, ?_, h.token, h.fresh, h.value⟩
  · change s.node.signaler.responses + 1 + s.given + (0 : ℕ) = s.node.fragments.length
    omega
  · change 0 ≤ s.node.signaler.responses + 1
    omega
  · intro hone
    exact absurd (hopened.symm.trans hone) (by decide)

theorem Sound.set (h : s.Sound) (hloop : s.loop = .enqueued) :
    ∃ t, s.step .set = .ok t ∧ t.Sound := by
  cases htaker : s.taker with
  | idle => exact h.set_stored hloop (by simp [opened, htaker])
  | signaled => exact h.set_stored hloop (by simp [opened, htaker])
  | awaiting token =>
    cases hcompleted : s.node.signaler.manualReset.completed with
    | false => exact h.set_opened hloop htaker hcompleted
    | true => exact h.set_stored hloop (by simp [opened, htaker, hcompleted])

/-! #### The consumer -/

theorem Sound.await (h : s.Sound) (htaker : s.taker = .idle) :
    ∃ t, s.step .await = .ok t ∧ t.Sound := by
  have hopened : s.opened = 0 := by simp [opened, htaker]
  have hrequests : s.node.signaler.requests = 0 := by simp [h.requests, hopened]
  have hcounts := h.counts
  have hgiven : s.given = 0 := by simp [given, htaker]
  have hcompleted := h.fresh (by simp [htaker])
  have hct : Option.any CancellationToken.isCancellationRequested none = false := rfl
  by_cases hresponses : 0 < s.node.signaler.responses
  · have hawait := AsyncSignaler.await_stored hct hresponses
    refine ⟨{ s with
        node := { s.node with signaler := (s.node.signaler.await none).1 }
        taker := .signaled }, by simp [step, htaker, hawait, signal], ?_⟩
    rw [hawait]
    refine ⟨h.order, h.room, ?_, ?_, hrequests, nofun, nofun, fun _ => hcompleted, h.value⟩
    · change s.node.signaler.responses - 1 + (1 : ℕ) + s.pending = s.node.fragments.length
      omega
    · change 0 ≤ s.node.signaler.responses - 1
      omega
  · obtain ⟨ct, hawait⟩ := AsyncSignaler.await_opens hct (not_lt.mp hresponses)
    rw [hrequests, int32_of_range (by decide) (by decide)] at hawait
    refine ⟨{ s with
        node := { s.node with signaler := (s.node.signaler.await none).1 }
        taker := .awaiting s.node.signaler.manualReset.version },
      by simp [step, htaker, hawait], ?_⟩
    rw [hawait]
    have hstored := h.stored
    refine ⟨h.order, h.room, ?_, hstored, ?_, ?_, ?_, ?_, h.value⟩
    · simp only [given, pending] at hgiven hcounts ⊢
      simp only [hcompleted]
      simp [htaker] at hcounts
      simpa using hcounts
    · simp [opened, hcompleted]
    · intro _
      change s.node.signaler.responses = 0
      omega
    · rintro token ⟨⟩
      rfl
    · exact fun hnot => absurd rfl (hnot _)

theorem Sound.getResult (h : s.Sound) {token : UInt16} (htaker : s.taker = .awaiting token)
    (hcompleted : s.node.signaler.manualReset.completed = true) :
    ∃ t, s.step .getResult = .ok t ∧ t.Sound := by
  have htoken := h.token token htaker
  have hstatus : s.node.signaler.getStatus token = .ok true := by
    simp [AsyncSignaler.getStatus, htoken, hcompleted]
  have hresult : s.node.signaler.getResult token =
      ({ s.node.signaler with manualReset := s.node.signaler.manualReset.reset }, .ok true) := by
    simp [AsyncSignaler.getResult, ManualResetValueTaskSourceCore.getResult, htoken, hcompleted,
      h.value]
  have hopened : s.opened = 0 := by simp [opened, htaker, hcompleted]
  have hgiven : s.given = 1 := by simp [given, htaker, hcompleted]
  refine ⟨{ s with
      node := { s.node with signaler := (s.node.signaler.getResult token).1 }
      taker := .signaled }, by simp [step, htaker, hstatus, hresult, signal], ?_⟩
  rw [hresult]
  refine ⟨h.order, h.room, ?_, h.stored, ?_, nofun, nofun, fun _ => rfl, rfl⟩
  · have hcounts := h.counts
    rw [hgiven] at hcounts
    exact hcounts
  · have hrequests := h.requests
    rw [hopened] at hrequests
    exact hrequests

theorem Sound.dequeue (h : s.Sound) (htaker : s.taker = .signaled) :
    ∃ t, s.step .dequeue = .ok t ∧ t.Sound := by
  have hgiven : s.given = 1 := by simp [given, htaker]
  have hopened : s.opened = 0 := by simp [opened, htaker]
  have hcounts := h.counts
  have hstored := h.stored
  cases hfragments : s.node.fragments with
  | nil =>
    rw [hfragments, List.length_nil] at hcounts
    omega
  | cons fragment fragments =>
    refine ⟨{ s with
        node := { s.node with fragments }
        taker := .idle
        taken := s.taken ++ [fragment] }, by
          simp [step, htaker, hfragments, Runtime.dequeue]
          rfl, ?_⟩
    refine ⟨?_, ?_, ?_, hstored, ?_, nofun, nofun, ?_, h.value⟩
    · simp [h.order, hfragments]
    · have hroom := h.room
      rw [hfragments, List.length_cons] at hroom
      exact Nat.le_of_succ_le hroom
    · rw [hfragments, List.length_cons] at hcounts
      change s.node.signaler.responses + (0 : ℕ) + s.pending = fragments.length
      omega
    · have hrequests := h.requests
      rw [hopened] at hrequests
      exact hrequests
    · exact fun _ => h.fresh (by simp [htaker])

/-! ### Every run -/

/-- A step keeps the invariant, is not its party's next one, or finds no memory for a fragment. -/
theorem Sound.step_cases (h : s.Sound) (a : TakeStep) :
    (∃ t, s.step a = .ok t ∧ t.Sound) ∨ s.step a = .error none ∨
      s.step a = .error (some (.raised .outOfMemory)) ∧ ∃ fragment, a = .enqueue fragment := by
  cases a with
  | enqueue fragment =>
    cases hloop : s.loop with
    | receiving =>
      by_cases hroom : s.node.fragments.length < arrayMaxLength
      · exact .inl (h.enqueue hloop hroom fragment)
      · refine .inr (.inr ⟨?_, fragment, rfl⟩)
        simp only [step, hloop, Runtime.enqueue, if_neg hroom]
        rfl
    | enqueued => exact .inr (.inl (by simp [step, hloop]))
  | set =>
    cases hloop : s.loop with
    | receiving => exact .inr (.inl (by simp [step, hloop]))
    | enqueued => exact .inl (h.set hloop)
  | await =>
    cases htaker : s.taker with
    | idle => exact .inl (h.await htaker)
    | awaiting token => exact .inr (.inl (by simp [step, htaker]))
    | signaled => exact .inr (.inl (by simp [step, htaker]))
  | getResult =>
    cases htaker : s.taker with
    | idle => exact .inr (.inl (by simp [step, htaker]))
    | awaiting token =>
      cases hcompleted : s.node.signaler.manualReset.completed with
      | false =>
        refine .inr (.inl ?_)
        simp [step, htaker, AsyncSignaler.getStatus, h.token token htaker, hcompleted]
      | true => exact .inl (h.getResult htaker hcompleted)
    | signaled => exact .inr (.inl (by simp [step, htaker]))
  | dequeue =>
    cases htaker : s.taker with
    | idle => exact .inr (.inl (by simp [step, htaker]))
    | awaiting token => exact .inr (.inl (by simp [step, htaker]))
    | signaled => exact .inl (h.dequeue htaker)

theorem Sound.step (h : s.Sound) {a : TakeStep} (ht : s.step a = .ok t) : t.Sound := by
  rcases h.step_cases a with ⟨u, hu, hsound⟩ | hnone | ⟨hthrows, -⟩
  · cases hu.symm.trans ht
    exact hsound
  · cases hnone.symm.trans ht
  · cases hthrows.symm.trans ht

theorem Sound.waits_opened (h : s.Sound) (hw : s.waits) : s.opened = 1 ∧ s.given = 0 := by
  unfold waits at hw
  split at hw
  case h_1 token htaker =>
    have hopen : s.node.signaler.manualReset.completed = false := by
      simpa [AsyncSignaler.getStatus, h.token token htaker] using hw
    simp [opened, given, htaker, hopen]
  case h_2 | h_3 => cases hw

theorem Sound.handsOver (h : s.Sound) : s.HandsOver := by
  have hcounts := h.counts
  have hstored := h.stored
  refine ⟨⟨s.node.fragments, h.order.symm⟩, fun htaker hempty => ?_, fun hloop hw => ?_,
    fun a fault hthrows => ?_⟩
  · have hgiven : s.given = 1 := by simp [given, htaker]
    rw [hempty, List.length_nil] at hcounts
    omega
  · obtain ⟨hopened, hgiven⟩ := h.waits_opened hw
    have hpending : s.pending = 0 := by simp [pending, hloop]
    have hnone := h.waiting hopened
    exact List.length_eq_zero_iff.mp (by omega)
  · rcases h.step_cases a with ⟨t, ht, -⟩ | hnone | ⟨hmemory, hfragment⟩
    · cases ht.symm.trans hthrows
    · cases hnone.symm.trans hthrows
    · cases hmemory.symm.trans hthrows
      exact ⟨rfl, hfragment⟩

/-- In whatever order the read loop and the consumer take their steps, the fragments are handed
over in order. -/
theorem fragments_in_order (steps : List TakeStep) : InOrder steps := by
  intro s hs
  have hsound : s.Sound := by
    refine Along.reached_invariant (C := fun _ _ => True) ?_ sound_start
      (along_of_forall fun _ _ _ => trivial) hs
    exact fun _ _ _ hsound _ ht => hsound.step ht
  exact hsound.handsOver

/-- The second fragment is enqueued while the first one is still to be dequeued. -/
example :
    (run step {} [.await, .enqueue [1], .set, .enqueue [2], .getResult, .set, .dequeue, .await,
      .dequeue]).map TakeSession.taken = .ok [[1], [2]] := by
  decide

end TakeSession

end DecodingProxy.Nodes
