import DecodingProxy.Nodes.NodeSocketReader

/-!
# `BidirectionalNode`

The node has a queue of fragments for itself and a queue of fragments it gives out, and one
signaler for both. `TakeFrameFromIn` looks into the first queue before it awaits the signaler;
`TakeFragAsync` takes from the second one as soon as the signaler lets it. `CollectFrames` sets
the signaler after it has enqueued, `RecieveFragment` does not, and neither does the read loop of
`NodeTcpClient`, which fills the second queue. Nothing is cancelled.
-/

namespace DecodingProxy.Nodes
open DecodingProxy.Runs DecodingProxy.Runtime DecodingProxy.Threading

structure BidirectionalNode where
  fragmentsToInsertIn : List DataFragment := []
  fragmentsToTakeOut : List DataFragment := []
  asyncSignaler : AsyncSignaler := {}
  deriving DecidableEq, Repr

/-- Where a consumer is in `await asyncSignaler.Await(ct)`. -/
inductive SignalWait
  /-- It has the task of `Await`, and has not looked at it. -/
  | awaiting (token : UInt16)
  /-- The source has its continuation. -/
  | suspended (token : UInt16)
  /-- The task is completed, and `GetResult` is to be called. -/
  | resumed (token : UInt16)
  deriving DecidableEq, Repr

namespace SignalWait

def isSuspended : SignalWait → Bool
  | .suspended _ => true
  | .awaiting _ | .resumed _ => false

/-- `SetResult` runs the continuation. -/
def complete : SignalWait → SignalWait
  | .suspended token => .resumed token
  | .awaiting token => .awaiting token
  | .resumed token => .resumed token

/-- `GetStatus`, and `OnCompleted` if the task is not completed: a source takes one continuation
for each version. -/
def suspend (signaler : AsyncSignaler) (occupied : Bool) (token : UInt16) :
    Except Fault SignalWait :=
  match signaler.getStatus token with
  | .error fault => .error fault
  | .ok true => .ok (.resumed token)
  | .ok false => if occupied then .error (.raised .invalidOperation) else .ok (.suspended token)

end SignalWait

/-- Where the loop of `CollectFrames` is. -/
inductive Collector
  | taking
  /-- The fragment is enqueued, and `Set` is to be called. -/
  | enqueued
  | threw (fault : Fault)
  deriving DecidableEq, Repr

/-- Where the consumer is in `TakeFrameFromIn`. -/
inductive FrameTaker
  | testing
  /-- The test has found a fragment, and `Dequeue` is to be called. -/
  | found
  /-- The test has found none, and `Await` is to be called. -/
  | empty
  | waiting (wait : SignalWait)
  /-- The wait threw. -/
  | failed (fault : Fault)
  | threw (fault : Fault)
  deriving DecidableEq, Repr

/-- Where the consumer is in `TakeFragAsync`. -/
inductive FragTaker
  | idle
  | waiting (wait : SignalWait)
  /-- The wait threw. -/
  | failed (fault : Fault)
  /-- `Await` gave `true`, and `Dequeue` is to be called. -/
  | signaled
  | threw (fault : Fault)
  deriving DecidableEq, Repr

def FrameTaker.isSuspended : FrameTaker → Bool
  | .waiting wait => wait.isSuspended
  | _ => false

def FragTaker.isSuspended : FragTaker → Bool
  | .waiting wait => wait.isSuspended
  | _ => false

def FrameTaker.complete : FrameTaker → FrameTaker
  | .waiting wait => .waiting wait.complete
  | taker => taker

def FragTaker.complete : FragTaker → FragTaker
  | .waiting wait => .waiting wait.complete
  | taker => taker

/-- A request is made for the consumer, and no signal has come for it. -/
def FrameTaker.owes : FrameTaker → ℕ
  | .waiting _ | .failed _ => 1
  | .testing | .found | .empty | .threw _ => 0

def FragTaker.owes : FragTaker → ℕ
  | .waiting _ | .failed _ => 1
  | .idle | .signaled | .threw _ => 0

structure NodeSession where
  node : BidirectionalNode := {}
  collector : Collector := .taking
  frameTaker : FrameTaker := .testing
  fragTaker : FragTaker := .idle
  takenIn : List DataFragment := []
  takenOut : List DataFragment := []
  /-- How many fragments were put into `fragmentsToTakeOut`. -/
  produced : ℕ := 0
  /-- How many waits of `TakeFragAsync` have ended with a signal. -/
  signals : ℕ := 0
  deriving DecidableEq, Repr

/-- The steps of `RecieveFragment`, of `CollectFrames`, of a read loop that fills
`fragmentsToTakeOut`, of `TakeFrameFromIn` and of `TakeFragAsync`, with the sources of the
tokens. -/
inductive NodeStep
  | recieveFragment (fragment : DataFragment)
  | collect (fragment : DataFragment)
  | set
  | produce (fragment : DataFragment)
  | testFrame
  | dequeueFrame
  | awaitFrame (ct : Option ℕ)
  | suspendFrame
  | getResultFrame
  | awaitFrag (ct : Option ℕ)
  | suspendFrag
  | getResultFrag
  | dequeueFrag
  deriving DecidableEq, Repr

namespace NodeSession

def setIn (fragments : List DataFragment) (s : NodeSession) : NodeSession :=
  { s with node := { s.node with fragmentsToInsertIn := fragments } }

def setOut (fragments : List DataFragment) (s : NodeSession) : NodeSession :=
  { s with node := { s.node with fragmentsToTakeOut := fragments } }

def setSignaler (signaler : AsyncSignaler) (s : NodeSession) : NodeSession :=
  { s with node := { s.node with asyncSignaler := signaler } }

/-- A token of the source `ct`; it is not cancelled. -/
def token (ct : Option ℕ) : Option CancellationToken := ct.map fun source => ⟨source, false⟩

/-- A completed source has run the continuation that it had. -/
def complete (s : NodeSession) : NodeSession :=
  if s.node.asyncSignaler.manualReset.completed then
    { s with frameTaker := s.frameTaker.complete, fragTaker := s.fragTaker.complete }
  else s

/-- What `TakeFragAsync` does with the result of `Await`. -/
def signal (s : NodeSession) : Bool → NodeSession
  | true => { s with fragTaker := .signaled, signals := s.signals + 1 }
  | false => { s with fragTaker := .threw TakeSession.exCanceled }

/-- A consumer that throws has ended; a step that throws elsewhere gives the exception, and one
that is not its party's next gives none. -/
def step (s : NodeSession) : NodeStep → Except (Option Fault) NodeSession
  | .recieveFragment fragment => do
    let fragments ← (enqueue s.node.fragmentsToInsertIn fragment).mapError some
    .ok (s.setIn fragments)
  | .collect fragment =>
    match s.collector with
    | .taking => do
      let fragments ← (enqueue s.node.fragmentsToInsertIn fragment).mapError some
      .ok { s.setIn fragments with collector := .enqueued }
    | .enqueued | .threw _ => .error none
  | .set =>
    match s.collector with
    | .enqueued =>
      match s.node.asyncSignaler.set with
      | (signaler, .ok ()) => .ok { s.setSignaler signaler with collector := .taking }.complete
      | (signaler, .error fault) =>
        .ok { s.setSignaler signaler with collector := .threw fault }.complete
    | .taking | .threw _ => .error none
  | .produce fragment => do
    let fragments ← (enqueue s.node.fragmentsToTakeOut fragment).mapError some
    .ok { s.setOut fragments with produced := s.produced + 1 }
  | .testFrame =>
    match s.frameTaker with
    | .testing =>
      .ok { s with frameTaker := if s.node.fragmentsToInsertIn.length > 0 then .found else .empty }
    | _ => .error none
  | .dequeueFrame =>
    match s.frameTaker with
    | .found =>
      match dequeue s.node.fragmentsToInsertIn with
      | .ok (fragment, fragments) =>
        .ok { s.setIn fragments with frameTaker := .testing, takenIn := s.takenIn ++ [fragment] }
      | .error fault => .ok { s with frameTaker := .threw fault }
    | _ => .error none
  | .awaitFrame ct =>
    match s.frameTaker with
    | .empty =>
      match s.node.asyncSignaler.await (token ct) with
      | (signaler, .ok (.result _)) => .ok { s.setSignaler signaler with frameTaker := .testing }
      | (signaler, .ok (.source token)) =>
        .ok { s.setSignaler signaler with frameTaker := .waiting (.awaiting token) }
      | (signaler, .error fault) =>
        .ok { s.setSignaler signaler with frameTaker := .failed fault }
    | _ => .error none
  | .suspendFrame =>
    match s.frameTaker with
    | .waiting (.awaiting token) =>
      match SignalWait.suspend s.node.asyncSignaler s.fragTaker.isSuspended token with
      | .ok wait => .ok { s with frameTaker := .waiting wait }
      | .error fault => .ok { s with frameTaker := .failed fault }
    | _ => .error none
  | .getResultFrame =>
    match s.frameTaker with
    | .waiting (.resumed token) =>
      match s.node.asyncSignaler.getResult token with
      | (signaler, .ok _) => .ok { s.setSignaler signaler with frameTaker := .testing }
      | (signaler, .error fault) =>
        .ok { s.setSignaler signaler with frameTaker := .failed fault }
    | _ => .error none
  | .awaitFrag ct =>
    match s.fragTaker with
    | .idle =>
      match s.node.asyncSignaler.await (token ct) with
      | (signaler, .ok (.result value)) => .ok ((s.setSignaler signaler).signal value)
      | (signaler, .ok (.source token)) =>
        .ok { s.setSignaler signaler with fragTaker := .waiting (.awaiting token) }
      | (signaler, .error fault) => .ok { s.setSignaler signaler with fragTaker := .failed fault }
    | _ => .error none
  | .suspendFrag =>
    match s.fragTaker with
    | .waiting (.awaiting token) =>
      match SignalWait.suspend s.node.asyncSignaler s.frameTaker.isSuspended token with
      | .ok wait => .ok { s with fragTaker := .waiting wait }
      | .error fault => .ok { s with fragTaker := .failed fault }
    | _ => .error none
  | .getResultFrag =>
    match s.fragTaker with
    | .waiting (.resumed token) =>
      match s.node.asyncSignaler.getResult token with
      | (signaler, .ok value) => .ok ((s.setSignaler signaler).signal value)
      | (signaler, .error fault) => .ok { s.setSignaler signaler with fragTaker := .failed fault }
    | _ => .error none
  | .dequeueFrag =>
    match s.fragTaker with
    | .signaled =>
      match dequeue s.node.fragmentsToTakeOut with
      | .ok (fragment, fragments) =>
        .ok { s.setOut fragments with fragTaker := .idle, takenOut := s.takenOut ++ [fragment] }
      | .error fault => .ok { s with fragTaker := .threw fault }
    | _ => .error none

/-- `TakeFrameFromIn` does not wait while there is a fragment for it and no `Set` is to be made,
and `TakeFragAsync` has not thrown after its wait. -/
structure Serves (s : NodeSession) : Prop where
  stranded : s.node.fragmentsToInsertIn ≠ [] → s.frameTaker.isSuspended → s.collector = .enqueued
  dequeues : ∀ fault, s.fragTaker ≠ .threw fault

/-- `RecieveFragment` does not come while `TakeFrameFromIn` waits, and no fragment has come since
its test when it begins to wait, unless `CollectFrames` is about to call `Set`; and when
`TakeFragAsync` dequeues, it has not been given more signals than `fragmentsToTakeOut` was given
fragments. -/
def Signals (s : NodeSession) : NodeStep → Prop
  | .recieveFragment _ => s.frameTaker.isSuspended → s.collector = .enqueued
  | .suspendFrame => ∀ token, s.frameTaker = .waiting (.awaiting token) →
    s.node.asyncSignaler.getStatus token = .ok false → s.fragTaker.isSuspended = false →
      s.node.fragmentsToInsertIn = [] ∨ s.collector = .enqueued
  | .dequeueFrag => s.fragTaker = .signaled → s.signals ≤ s.produced
  | _ => True

def ServesThroughout (steps : List NodeStep) : Prop :=
  ∀ s, Reached step {} steps s → s.Serves

/-! ### The invariant -/

/-- The requests of the signaler, with the one that a completed source has answered. -/
def requested (s : NodeSession) : ℤ :=
  s.node.asyncSignaler.requests + if s.node.asyncSignaler.manualReset.completed then 1 else 0

structure Sound (s : NodeSession) : Prop where
  opened : s.frameTaker.isSuspended ∨ s.fragTaker.isSuspended →
    s.node.asyncSignaler.manualReset.completed = false
  requests : (∀ fault, s.collector ≠ .threw fault) →
    s.requested = s.frameTaker.owes + s.fragTaker.owes
  produced : s.produced = s.takenOut.length + s.node.fragmentsToTakeOut.length
  signals : s.signals = s.takenOut.length + if s.fragTaker = .signaled then 1 else 0

variable {s t : NodeSession}

@[simp] theorem frameTaker_complete_suspended (taker : FrameTaker) :
    taker.complete.isSuspended = false := by
  rcases taker with _ | _ | _ | (_ | _ | _) | _ | _ <;> rfl

@[simp] theorem fragTaker_complete_suspended (taker : FragTaker) :
    taker.complete.isSuspended = false := by
  rcases taker with _ | (_ | _ | _) | _ | _ | _ <;> rfl

@[simp] theorem frameTaker_complete_owes (taker : FrameTaker) :
    taker.complete.owes = taker.owes := by
  cases taker <;> rfl

@[simp] theorem fragTaker_complete_owes (taker : FragTaker) : taker.complete.owes = taker.owes := by
  cases taker <;> rfl

theorem fragTaker_complete_eq_iff {taker : FragTaker} :
    (taker.complete = .signaled ↔ taker = .signaled) ∧
      ∀ fault, taker.complete = .threw fault ↔ taker = .threw fault := by
  cases taker <;> simp [FragTaker.complete]

theorem frameTaker_owes_le (taker : FrameTaker) : taker.owes ≤ 1 := by
  cases taker <;> simp [FrameTaker.owes]

theorem fragTaker_owes_le (taker : FragTaker) : taker.owes ≤ 1 := by
  cases taker <;> simp [FragTaker.owes]

/-- What one step does to a sound session that serves its consumers. -/
structure Follows (s : NodeSession) (a : NodeStep) (t : NodeSession) : Prop where
  serves : t.Serves ↔ s.Signals a
  sound : t.Serves → t.Sound

theorem Follows.kept {a : NodeStep} (hserves : t.Serves) (hsound : t.Sound) (ha : s.Signals a) :
    Follows s a t :=
  ⟨iff_of_true hserves ha, fun _ => hsound⟩

theorem sound_start : Sound {} := by
  constructor <;> simp [FrameTaker.isSuspended, FragTaker.isSuspended, requested, FrameTaker.owes,
    FragTaker.owes]

/-! #### The producers -/

theorem follows_recieveFragment (h : s.Sound) (hserves : s.Serves) {fragment : DataFragment}
    (ht : s.step (.recieveFragment fragment) = .ok t) :
    Follows s (.recieveFragment fragment) t := by
  obtain ⟨fragments, hfragments, ht⟩ := do_ok_iff.mp ht
  obtain ⟨-, rfl⟩ := enqueue_ok_iff.mp (mapError_ok_iff.mp hfragments)
  cases ht
  refine ⟨⟨fun hall => hall.stranded (by simp [setIn]), fun hset => ⟨fun _ => hset, ?_⟩⟩,
    fun _ => ?_⟩
  · exact hserves.dequeues
  · exact ⟨h.opened, h.requests, h.produced, h.signals⟩

theorem follows_collect (h : s.Sound) (hserves : s.Serves) {fragment : DataFragment}
    (ht : s.step (.collect fragment) = .ok t) : Follows s (.collect fragment) t := by
  simp only [step] at ht
  split at ht
  case h_1 hcollector =>
    obtain ⟨fragments, -, ht⟩ := do_ok_iff.mp ht
    cases ht
    refine .kept ⟨fun _ _ => rfl, hserves.dequeues⟩ ⟨h.opened, fun _ => ?_, h.produced, h.signals⟩
      trivial
    exact h.requests (by simp [hcollector])
  all_goals cases ht

theorem follows_produce (h : s.Sound) (hserves : s.Serves) {fragment : DataFragment}
    (ht : s.step (.produce fragment) = .ok t) : Follows s (.produce fragment) t := by
  obtain ⟨fragments, hfragments, ht⟩ := do_ok_iff.mp ht
  obtain ⟨-, rfl⟩ := enqueue_ok_iff.mp (mapError_ok_iff.mp hfragments)
  cases ht
  refine .kept ⟨hserves.stranded, hserves.dequeues⟩ ⟨h.opened, h.requests, ?_, h.signals⟩ trivial
  simp [setOut, h.produced, Nat.add_assoc]

/-- After a `Set` that completes the source, or one while `TakeFrameFromIn` has no continuation
there, it does not wait. -/
theorem follows_signaler (h : s.Sound) (hserves : s.Serves) {signaler : AsyncSignaler}
    {collector : Collector}
    (hclosed : signaler.manualReset.completed = true ∨ s.frameTaker.isSuspended = false)
    (hrequests : (∀ fault, collector ≠ .threw fault) →
      signaler.requests + (if signaler.manualReset.completed then 1 else 0) =
        s.frameTaker.owes + s.fragTaker.owes) :
    Follows s .set { s.setSignaler signaler with collector }.complete := by
  cases hdone : signaler.manualReset.completed with
  | true =>
    simp only [hdone] at hrequests
    simp only [complete, setSignaler, hdone, if_pos]
    refine .kept ⟨by simp, ?_⟩ ⟨by simp, ?_, h.produced, ?_⟩ trivial
    · simpa [fragTaker_complete_eq_iff] using hserves.dequeues
    · simpa [requested, hdone] using hrequests
    · simpa [fragTaker_complete_eq_iff] using h.signals
  | false =>
    simp only [hdone] at hrequests
    simp only [complete, setSignaler, hdone, Bool.false_eq_true, if_false]
    refine .kept ⟨?_, hserves.dequeues⟩ ⟨fun _ => hdone, ?_, h.produced, h.signals⟩ trivial
    · have hnone : s.frameTaker.isSuspended = false := by simpa [hdone] using hclosed
      simp [hnone]
    · simpa [requested, hdone] using hrequests

theorem suspended_owes {taker : FrameTaker} (h : taker.isSuspended = true) : taker.owes = 1 := by
  cases taker with
  | waiting wait => rfl
  | _ => cases h

theorem follows_set (h : s.Sound) (hserves : s.Serves) (ht : s.step .set = .ok t) :
    Follows s .set t := by
  simp only [step] at ht
  split at ht
  case h_1 hcollector =>
    have hrequests := h.requests (by simp [hcollector])
    unfold requested at hrequests
    rcases lt_or_ge 0 s.node.asyncSignaler.requests with hpos | hnone
    · cases hdone : s.node.asyncSignaler.manualReset.completed with
      | false =>
        rw [AsyncSignaler.set_completes hpos hdone] at ht
        cases ht
        apply follows_signaler h hserves (.inl rfl)
        intro _
        simpa [hdone] using hrequests
      | true =>
        rw [AsyncSignaler.set_throws hpos hdone] at ht
        cases ht
        exact follows_signaler h hserves (.inl hdone) fun halive => absurd rfl (halive _)
    · rw [AsyncSignaler.set_stores hnone] at ht
      cases ht
      refine follows_signaler h hserves ?_ fun _ => hrequests
      -- one who waits has a request, so the source is completed or no one waits
      by_contra hcontra
      simp only [not_or, Bool.not_eq_true, Bool.not_eq_false] at hcontra
      have howes := suspended_owes hcontra.2
      rw [hcontra.1, if_neg (by decide)] at hrequests
      omega
  all_goals cases ht

theorem token_uncanceled (ct : Option ℕ) :
    (token ct).any CancellationToken.isCancellationRequested = false := by
  cases ct <;> rfl

/-- One more request, where at most one is owed to the other consumer. -/
theorem requested_succ {owed : ℕ} (howed : owed ≤ 1) (h : s.requested = owed) :
    int32 (s.node.asyncSignaler.requests + 1) +
      (if s.node.asyncSignaler.manualReset.completed then 1 else 0) = ((1 : ℕ) : ℤ) + owed := by
  unfold requested at h
  rw [int32_of_range] <;> split_ifs at h ⊢ <;> omega

theorem suspend_cases (signaler : AsyncSignaler) (occupied : Bool) (token : UInt16) :
    (∃ fault, SignalWait.suspend signaler occupied token = .error fault) ∧
        (signaler.getStatus token = .ok false → occupied = true) ∨
      SignalWait.suspend signaler occupied token = .ok (.resumed token) ∧
        signaler.getStatus token = .ok true ∨
      SignalWait.suspend signaler occupied token = .ok (.suspended token) ∧
        signaler.getStatus token = .ok false ∧ occupied = false := by
  unfold SignalWait.suspend
  rcases hstatus : signaler.getStatus token with fault | _ | _
  · simp
  · cases occupied <;> simp
  · simp

theorem not_completed_of_status {signaler : AsyncSignaler} {token : UInt16}
    (h : signaler.getStatus token = .ok false) : signaler.manualReset.completed = false := by
  unfold AsyncSignaler.getStatus at h
  split_ifs at h
  exact Except.ok.inj h

/-! #### `TakeFrameFromIn` -/

/-- What no step of `TakeFrameFromIn` touches. -/
structure KeepsOut (s t : NodeSession) : Prop where
  collector : t.collector = s.collector
  fragTaker : t.fragTaker = s.fragTaker
  fragments : t.node.fragmentsToTakeOut = s.node.fragmentsToTakeOut
  takenOut : t.takenOut = s.takenOut
  produced : t.produced = s.produced
  signals : t.signals = s.signals

/-- A step after which `TakeFrameFromIn` does not wait. -/
theorem KeepsOut.follows {a : NodeStep} (hkeeps : KeepsOut s t) (h : s.Sound) (hserves : s.Serves)
    (hclosed : t.frameTaker.isSuspended = false)
    (hopened : s.fragTaker.isSuspended → t.node.asyncSignaler.manualReset.completed = false)
    (hrequests : s.requested = s.frameTaker.owes + s.fragTaker.owes →
      t.requested = t.frameTaker.owes + s.fragTaker.owes)
    (ha : s.Signals a) : Follows s a t := by
  refine .kept ⟨?_, ?_⟩ ⟨?_, fun halive => ?_, ?_, ?_⟩ ha
  · simp [hclosed]
  · rw [hkeeps.fragTaker]
    exact hserves.dequeues
  · rw [hkeeps.fragTaker, hclosed]
    simpa using hopened
  · rw [hkeeps.collector] at halive
    rw [hkeeps.fragTaker]
    exact hrequests (h.requests halive)
  · rw [hkeeps.produced, hkeeps.takenOut, hkeeps.fragments]
    exact h.produced
  · rw [hkeeps.signals, hkeeps.takenOut, hkeeps.fragTaker]
    exact h.signals

/-- A step after which `TakeFrameFromIn` does not wait, and that makes or answers no request. -/
theorem KeepsOut.follows_quiet {a : NodeStep} (hkeeps : KeepsOut s t) (h : s.Sound)
    (hserves : s.Serves)
    (hsource : t.node.asyncSignaler.manualReset = s.node.asyncSignaler.manualReset)
    (hrequests : t.node.asyncSignaler.requests = s.node.asyncSignaler.requests)
    (hclosed : t.frameTaker.isSuspended = false) (howes : t.frameTaker.owes = s.frameTaker.owes)
    (ha : s.Signals a) : Follows s a t := by
  refine hkeeps.follows h hserves hclosed (fun hfrag => ?_) (fun hrequested => ?_) ha
  · rw [hsource]
    exact h.opened (.inr hfrag)
  · rw [howes, ← hrequested, requested, requested, hsource, hrequests]

theorem follows_testFrame (h : s.Sound) (hserves : s.Serves) (ht : s.step .testFrame = .ok t) :
    Follows s .testFrame t := by
  simp only [step] at ht
  split at ht
  case h_1 hframe =>
    cases ht
    refine KeepsOut.follows_quiet ⟨rfl, rfl, rfl, rfl, rfl, rfl⟩ h hserves rfl rfl ?_ ?_ trivial
    · change FrameTaker.isSuspended (if _ then _ else _) = false
      split_ifs <;> rfl
    · change FrameTaker.owes (if _ then _ else _) = s.frameTaker.owes
      rw [hframe]
      split_ifs <;> rfl
  all_goals cases ht

theorem follows_dequeueFrame (h : s.Sound) (hserves : s.Serves)
    (ht : s.step .dequeueFrame = .ok t) :
    Follows s .dequeueFrame t := by
  simp only [step] at ht
  split at ht
  case h_1 hframe =>
    split at ht
    all_goals
      cases ht
      refine KeepsOut.follows_quiet ⟨rfl, rfl, rfl, rfl, rfl, rfl⟩ h hserves rfl rfl rfl ?_ trivial
      rw [hframe]
      rfl
  all_goals cases ht

theorem follows_awaitFrame (h : s.Sound) (hserves : s.Serves) {ct : Option ℕ}
    (ht : s.step (.awaitFrame ct) = .ok t) : Follows s (.awaitFrame ct) t := by
  simp only [step] at ht
  split at ht
  case h_1 hframe =>
    rcases lt_or_ge 0 s.node.asyncSignaler.responses with hstored | hnone
    · rw [AsyncSignaler.await_stored (token_uncanceled ct) hstored] at ht
      cases ht
      refine KeepsOut.follows_quiet ⟨rfl, rfl, rfl, rfl, rfl, rfl⟩ h hserves rfl rfl rfl ?_ trivial
      rw [hframe]
      rfl
    · obtain ⟨source, hawait⟩ := AsyncSignaler.await_opens (token_uncanceled ct) hnone
      rw [hawait] at ht
      cases ht
      refine KeepsOut.follows ⟨rfl, rfl, rfl, rfl, rfl, rfl⟩ h hserves rfl
        (fun hfrag => h.opened (.inr hfrag)) (fun hrequests => ?_) trivial
      rw [hframe] at hrequests
      exact requested_succ (s := s) (fragTaker_owes_le s.fragTaker)
        (by simpa [FrameTaker.owes] using hrequests)
  all_goals cases ht

theorem follows_suspendFrame (h : s.Sound) (hserves : s.Serves)
    (ht : s.step .suspendFrame = .ok t) :
    Follows s .suspendFrame t := by
  simp only [step] at ht
  split at ht
  case h_1 token hframe =>
    have hother : ∀ token', s.frameTaker = .waiting (.awaiting token') → token' = token :=
      fun token' htoken => by
        rw [hframe] at htoken
        cases htoken
        rfl
    rcases suspend_cases s.node.asyncSignaler s.fragTaker.isSuspended token with
      ⟨⟨fault, hsuspend⟩, hoccupied⟩ | ⟨hsuspend, hstatus⟩ | ⟨hsuspend, hstatus, hfree⟩
    · rw [hsuspend] at ht
      cases ht
      refine KeepsOut.follows_quiet ⟨rfl, rfl, rfl, rfl, rfl, rfl⟩ h hserves rfl rfl rfl ?_ ?_
      · rw [hframe]
        rfl
      · intro token' htoken hstatus hfree
        rw [hother token' htoken] at hstatus
        rw [hoccupied hstatus] at hfree
        cases hfree
    · rw [hsuspend] at ht
      cases ht
      refine KeepsOut.follows_quiet ⟨rfl, rfl, rfl, rfl, rfl, rfl⟩ h hserves rfl rfl rfl ?_ ?_
      · rw [hframe]
        rfl
      · intro token' htoken hstatus'
        rw [hother token' htoken, hstatus] at hstatus'
        cases hstatus'
    · rw [hsuspend] at ht
      cases ht
      refine ⟨⟨fun hall token' _ _ _ => ?_, fun hsignals => ⟨fun hne _ => ?_, hserves.dequeues⟩⟩,
        fun _ => ⟨fun _ => not_completed_of_status hstatus, fun halive => ?_, h.produced,
          h.signals⟩⟩
      · by_cases hnil : s.node.fragmentsToInsertIn = []
        · exact .inl hnil
        · exact .inr (hall.stranded hnil rfl)
      · exact (hsignals token hframe hstatus hfree).resolve_left hne
      · have hrequests := h.requests halive
        rw [hframe] at hrequests
        exact hrequests
  all_goals cases ht

theorem follows_getResultFrame (h : s.Sound) (hserves : s.Serves)
    (ht : s.step .getResultFrame = .ok t) : Follows s .getResultFrame t := by
  simp only [step] at ht
  split at ht
  case h_1 token hframe =>
    split at ht
    case h_1 signaler value hresult =>
      cases ht
      obtain ⟨-, hdone, rfl⟩ := AsyncSignaler.getResult_ok hresult
      refine KeepsOut.follows ⟨rfl, rfl, rfl, rfl, rfl, rfl⟩ h hserves rfl (fun _ => rfl)
        (fun hrequests => ?_) trivial
      rw [hframe, requested, hdone] at hrequests
      change s.node.asyncSignaler.requests + 0 = (0 : ℕ) + s.fragTaker.owes
      simp only [FrameTaker.owes, if_true] at hrequests
      omega
    case h_2 signaler fault hresult =>
      cases ht
      obtain rfl := AsyncSignaler.getResult_error hresult
      refine KeepsOut.follows_quiet ⟨rfl, rfl, rfl, rfl, rfl, rfl⟩ h hserves rfl rfl rfl ?_ trivial
      rw [hframe]
      rfl
  all_goals cases ht

/-! #### `TakeFragAsync` -/

/-- What no step of `TakeFragAsync` touches. -/
structure KeepsIn (s t : NodeSession) : Prop where
  collector : t.collector = s.collector
  frameTaker : t.frameTaker = s.frameTaker
  fragments : t.node.fragmentsToInsertIn = s.node.fragmentsToInsertIn
  produced : t.produced = s.produced

theorem KeepsIn.follows {a : NodeStep} (hkeeps : KeepsIn s t) (h : s.Sound) (hserves : s.Serves)
    (hdequeues : ∀ fault, t.fragTaker ≠ .threw fault)
    (hopened : s.frameTaker.isSuspended ∨ t.fragTaker.isSuspended →
      t.node.asyncSignaler.manualReset.completed = false)
    (hrequests : s.requested = s.frameTaker.owes + s.fragTaker.owes →
      t.requested = s.frameTaker.owes + t.fragTaker.owes)
    (hproduced : s.produced = t.takenOut.length + t.node.fragmentsToTakeOut.length)
    (hsignals : t.signals = t.takenOut.length + if t.fragTaker = .signaled then 1 else 0)
    (ha : s.Signals a) : Follows s a t := by
  refine .kept ⟨?_, hdequeues⟩ ⟨?_, fun halive => ?_, ?_, hsignals⟩ ha
  · rw [hkeeps.fragments, hkeeps.frameTaker, hkeeps.collector]
    exact hserves.stranded
  · rw [hkeeps.frameTaker]
    exact hopened
  · rw [hkeeps.collector] at halive
    rw [hkeeps.frameTaker]
    exact hrequests (h.requests halive)
  · rw [hkeeps.produced]
    exact hproduced

/-- A step after which `TakeFragAsync` does not wait, and that makes or answers no request. -/
theorem KeepsIn.follows_quiet {a : NodeStep} (hkeeps : KeepsIn s t) (h : s.Sound)
    (hserves : s.Serves)
    (hsource : t.node.asyncSignaler.manualReset = s.node.asyncSignaler.manualReset)
    (hrequests : t.node.asyncSignaler.requests = s.node.asyncSignaler.requests)
    (hclosed : t.fragTaker.isSuspended = false) (howes : t.fragTaker.owes = s.fragTaker.owes)
    (hdequeues : ∀ fault, t.fragTaker ≠ .threw fault)
    (hproduced : s.produced = t.takenOut.length + t.node.fragmentsToTakeOut.length)
    (hsignals : t.signals = t.takenOut.length + if t.fragTaker = .signaled then 1 else 0)
    (ha : s.Signals a) : Follows s a t := by
  refine hkeeps.follows h hserves hdequeues (fun hor => ?_) (fun hrequested => ?_) hproduced
    hsignals ha
  · rw [hclosed] at hor
    rw [hsource]
    exact h.opened (.inl (hor.resolve_right Bool.false_ne_true))
  · rw [howes, ← hrequested, requested, requested, hsource, hrequests]

theorem follows_awaitFrag (h : s.Sound) (hserves : s.Serves) {ct : Option ℕ}
    (ht : s.step (.awaitFrag ct) = .ok t) : Follows s (.awaitFrag ct) t := by
  simp only [step] at ht
  split at ht
  case h_1 hfrag =>
    have hsignals := h.signals
    rw [hfrag] at hsignals
    rcases lt_or_ge 0 s.node.asyncSignaler.responses with hstored | hnone
    · rw [AsyncSignaler.await_stored (token_uncanceled ct) hstored] at ht
      cases ht
      refine KeepsIn.follows_quiet ⟨rfl, rfl, rfl, rfl⟩ h hserves rfl rfl rfl ?_ nofun h.produced
        ?_ trivial
      · rw [hfrag]
        rfl
      · simp [signal, setSignaler, hsignals]
    · obtain ⟨source, hawait⟩ := AsyncSignaler.await_opens (token_uncanceled ct) hnone
      rw [hawait] at ht
      cases ht
      refine KeepsIn.follows ⟨rfl, rfl, rfl, rfl⟩ h hserves nofun (fun hor => ?_)
        (fun hrequests => ?_) h.produced ?_ trivial
      · exact h.opened (.inl (hor.resolve_right Bool.false_ne_true))
      · rw [hfrag] at hrequests
        exact (requested_succ (s := s) (frameTaker_owes_le s.frameTaker)
          (by simpa [FragTaker.owes] using hrequests)).trans (Int.add_comm _ _)
      · simpa [setSignaler] using hsignals
  all_goals cases ht

theorem follows_suspendFrag (h : s.Sound) (hserves : s.Serves) (ht : s.step .suspendFrag = .ok t) :
    Follows s .suspendFrag t := by
  simp only [step] at ht
  split at ht
  case h_1 token hfrag =>
    have hsignals := h.signals
    rw [hfrag] at hsignals
    rcases suspend_cases s.node.asyncSignaler s.frameTaker.isSuspended token with
      ⟨⟨fault, hsuspend⟩, -⟩ | ⟨hsuspend, -⟩ | ⟨hsuspend, hstatus, -⟩
    · rw [hsuspend] at ht
      cases ht
      refine KeepsIn.follows_quiet ⟨rfl, rfl, rfl, rfl⟩ h hserves rfl rfl rfl ?_ nofun h.produced
        ?_ trivial
      · rw [hfrag]
        rfl
      · simpa using hsignals
    · rw [hsuspend] at ht
      cases ht
      refine KeepsIn.follows_quiet ⟨rfl, rfl, rfl, rfl⟩ h hserves rfl rfl rfl ?_ nofun h.produced
        ?_ trivial
      · rw [hfrag]
        rfl
      · simpa using hsignals
    · rw [hsuspend] at ht
      cases ht
      refine KeepsIn.follows ⟨rfl, rfl, rfl, rfl⟩ h hserves nofun
        (fun _ => not_completed_of_status hstatus) (fun hrequests => ?_) h.produced ?_ trivial
      · rw [hfrag] at hrequests
        exact hrequests
      · simpa using hsignals
  all_goals cases ht

theorem follows_getResultFrag (h : s.Sound) (hserves : s.Serves)
    (ht : s.step .getResultFrag = .ok t) : Follows s .getResultFrag t := by
  simp only [step] at ht
  split at ht
  case h_1 token hfrag =>
    have hsignals := h.signals
    rw [hfrag] at hsignals
    split at ht
    case h_1 signaler value hresult =>
      cases ht
      obtain ⟨rfl, hdone, rfl⟩ := AsyncSignaler.getResult_ok hresult
      refine KeepsIn.follows ⟨rfl, rfl, rfl, rfl⟩ h hserves nofun (fun _ => rfl)
        (fun hrequests => ?_) h.produced ?_ trivial
      · rw [hfrag, requested, hdone] at hrequests
        change s.node.asyncSignaler.requests + 0 = s.frameTaker.owes + (0 : ℕ)
        simp only [FragTaker.owes, if_true] at hrequests
        omega
      · simp [signal, setSignaler, hsignals]
    case h_2 signaler fault hresult =>
      cases ht
      obtain rfl := AsyncSignaler.getResult_error hresult
      refine KeepsIn.follows_quiet ⟨rfl, rfl, rfl, rfl⟩ h hserves rfl rfl rfl ?_ nofun h.produced
        ?_ trivial
      · rw [hfrag]
        rfl
      · simpa [setSignaler] using hsignals
  all_goals cases ht

/-- One signal is left for the fragment that is dequeued. -/
theorem follows_dequeueFrag (h : s.Sound) (hserves : s.Serves) (ht : s.step .dequeueFrag = .ok t) :
    Follows s .dequeueFrag t := by
  simp only [step] at ht
  split at ht
  case h_1 hfrag =>
    have hsignals := h.signals
    have hproduced := h.produced
    rw [hfrag, if_pos rfl] at hsignals
    cases hqueue : s.node.fragmentsToTakeOut with
    | nil =>
      rw [hqueue] at ht hproduced
      cases ht
      refine ⟨iff_of_false (fun hall => hall.dequeues _ rfl) fun hle => ?_, fun hall => ?_⟩
      · have hle := hle hfrag
        rw [List.length_nil] at hproduced
        omega
      · exact absurd rfl (hall.dequeues _)
    | cons fragment fragments =>
      rw [hqueue] at ht hproduced
      cases ht
      rw [List.length_cons] at hproduced
      refine KeepsIn.follows_quiet ⟨rfl, rfl, rfl, rfl⟩ h hserves rfl rfl rfl ?_ nofun ?_ ?_
        fun _ => ?_
      · rw [hfrag]
        rfl
      · simp [setOut]
        omega
      · simp [setOut, hsignals]
      · omega
  all_goals cases ht

/-! ### Every run -/

theorem follows_step (h : s.Sound) (hserves : s.Serves) {a : NodeStep} (ht : s.step a = .ok t) :
    Follows s a t := by
  cases a with
  | recieveFragment fragment => exact follows_recieveFragment h hserves ht
  | collect fragment => exact follows_collect h hserves ht
  | set => exact follows_set h hserves ht
  | produce fragment => exact follows_produce h hserves ht
  | testFrame => exact follows_testFrame h hserves ht
  | dequeueFrame => exact follows_dequeueFrame h hserves ht
  | awaitFrame ct => exact follows_awaitFrame h hserves ht
  | suspendFrame => exact follows_suspendFrame h hserves ht
  | getResultFrame => exact follows_getResultFrame h hserves ht
  | awaitFrag ct => exact follows_awaitFrag h hserves ht
  | suspendFrag => exact follows_suspendFrag h hserves ht
  | getResultFrag => exact follows_getResultFrag h hserves ht
  | dequeueFrag => exact follows_dequeueFrag h hserves ht

/-- A step that is not made, as it is not its party's next or finds no memory, breaks nothing. -/
theorem signals_of_error (hserves : s.Serves) {a : NodeStep} {fault : Option Fault}
    (ht : s.step a = .error fault) : s.Signals a := by
  cases a with
  | recieveFragment fragment =>
    intro hsuspended
    refine hserves.stranded ?_ hsuspended
    intro hnil
    rw [step, hnil] at ht
    cases ht
  | suspendFrame =>
    intro token hframe hstatus hfree
    simp only [step, hframe] at ht
    split at ht <;> cases ht
  | dequeueFrag =>
    intro hfrag
    simp only [step, hfrag] at ht
    split at ht <;> cases ht
  | _ => trivial

/-- In every run, no fragment is stranded and nothing is taken from the empty queue just when
every step meets the condition. -/
theorem serves_iff (steps : List NodeStep) :
    ServesThroughout steps ↔ Along step Signals {} steps := by
  refine reached_iff_along (I := Sound) (fun s a _ hserves => ?_) (fun s a t h hserves ht => ?_)
    (fun s a t h hserves ht => (follows_step h hserves ht).serves) sound_start
    ⟨fun _ => nofun, nofun⟩
  · rcases ht : s.step a with fault | t
    · exact .inr (signals_of_error hserves ht)
    · exact .inl ⟨t, rfl⟩
  · exact (follows_step h hserves ht).sound

/-- A fragment is received while the consumer waits for one; and the signal for a fragment that
was collected lets the other consumer take from its empty queue. -/
theorem not_serves_unsignaled :
    ¬ ServesThroughout [.testFrame, .awaitFrame none, .suspendFrame, .recieveFragment [1]] ∧
      ¬ ServesThroughout [.collect [1], .set, .awaitFrag none, .dequeueFrag] := by
  constructor
  · intro h
    have hserves := h _ (reached_of_run rfl)
    exact absurd (hserves.stranded (by decide) rfl) (by decide)
  · intro h
    exact (h _ (reached_of_run rfl)).dequeues _ rfl

end NodeSession

end DecodingProxy.Nodes
