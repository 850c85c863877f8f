import DecodingProxy.Piped.MessagingSteps

/-!
# How `MaintainMessagingV2` ends

The task that sends the last response is told so by two things: the counter is zero after
its decrement, and the sender of requests has said that it is through. Both are written
after the last request has left, so the response may come before either, and then its
sender waits for ever.
-/

namespace DecodingProxy.Piped
open DecodingProxy.Runs DecodingProxy.Runtime DecodingProxy.Threading

universe u
variable {M : Type u}

inductive Party
  | reader (type : MessageType)
  | sender (type : MessageType)
  deriving DecidableEq, Repr

namespace HttpPipedIntermediary

def Waits (s : HttpPipedIntermediary M) : Party → Prop
  | .reader type => (s.call type).read = .awaitMsg
  | .sender type => (s.call type).are.Open (s.call type).send.task

/-- All requests are forwarded and all responses sent. -/
structure Quiet (s : HttpPipedIntermediary M) : Prop where
  forwarded : s.request.written = s.request.received
  responded : s.response.written = s.request.written

/-- A party waits, and it still waits after every continuation. -/
def Stuck (isCloseRequired : M → Bool) (s : HttpPipedIntermediary M) : Prop :=
  s.Quiet ∧ ∃ party, ∀ actions t, run (step isCloseRequired) s actions = .ok t → t.Waits party

/-- No party is stuck, the counter is the number of requests that wait for their response
(as an `int`), and who handles the last response has seen the counter at zero. -/
structure Settled (isCloseRequired : M → Bool) (s : HttpPipedIntermediary M) : Prop where
  notStuck : ¬ s.Stuck isCloseRequired
  counter : s.request.send.uncounted = 0 → s.response.send.uncounted = 0 →
    s.sync.syncMsgCountResend = int32 (s.request.written - s.response.written)
  lastRead : s.AllRead → ¬ s.response.read.IsCounting →
    s.sync.isRecievingOriginToClientCompleted = true
  lastSent : s.AllSent → s.response.send.uncounted = 0 → ¬ s.response.send.IsResent →
    s.sync.isResendingOriginToClientCompleted = true

/-- From two calls that start, every order of steps. -/
def ShutsDown (isCloseRequired : M → Bool) : Prop :=
  ∀ actions s, run (step isCloseRequired) {} actions = .ok s → s.Settled isCloseRequired

structure Consistent (s : HttpPipedIntermediary M) : Prop where
  sound : ∀ type, (s.call type).Sound
  counts : s.Counts
  delivers : s.request.Delivers

theorem consistent_new : ({} : HttpPipedIntermediary M).Consistent := by
  refine ⟨fun type => ?_, counts_new, MaintainMessagingV2.delivers_new⟩
  cases type <;> exact MaintainMessagingV2.sound_new

section Steps
variable {isCloseRequired : M → Bool} {s t : HttpPipedIntermediary M}

/-! ### One step -/

theorem consistent_arrive (h : s.Consistent) {type : MessageType} {msg : M}
    (hs : step isCloseRequired s (.arrive type msg) = .ok t) : t.Consistent := by
  unfold step at hs
  cases hread : (s.call type).read with
  | awaitMsg =>
    simp only [hread] at hs
    split_ifs at hs with hguard
    cases hs
    have hsound := sound_setCall h.sound type ((h.sound type).arrive msg)
    cases type with
    | request =>
      exact ⟨hsound, h.counts.arriveRequest h.sound hread msg, .of_not_completing id⟩
    | response =>
      have hopen : s.response.received < s.request.written :=
        Nat.lt_of_not_le fun hle => hguard ⟨rfl, hle⟩
      exact ⟨hsound, h.counts.arriveResponse hread hopen msg, h.delivers⟩
  | _ => simp [hread] at hs

theorem consistent_timeout (h : s.Consistent) {type : MessageType}
    (hs : step isCloseRequired s (.timeout type) = .ok t) : t.Consistent := by
  unfold step at hs
  cases hread : (s.call type).read with
  | awaitMsg =>
    simp only [hread] at hs
    cases hs
    have hsound := sound_setCall h.sound type (h.sound type).cancelRead
    cases type with
    | request =>
      have hread : s.request.read = .awaitMsg := hread
      refine ⟨hsound, h.counts.setRequest rfl rfl ?_ rfl, .of_not_completing id⟩
      rw [hread]
      rfl
    | response =>
      have hread : s.response.read = .awaitMsg := hread
      refine ⟨hsound, h.counts.setResponseRead rfl rfl rfl ?_, h.delivers⟩
      rw [hread]
      exact ⟨rfl, id, fun _ => id, id⟩
  | _ => simp [hread] at hs

theorem consistent_read (h : s.Consistent) {type : MessageType} {answer : Bool}
    (hturn : s.InTurn (.read type answer)) (hs : s.ReadStep type answer t) : t.Consistent := by
  have hsound := sound_read h.sound hs
  cases type with
  | request =>
    exact ⟨hsound, counts_readRequest h.counts h.sound hs,
      delivers_readRequest h.delivers h.sound hturn hs⟩
  | response =>
    exact ⟨hsound, counts_readResponse h.counts h.sound hturn hs,
      delivers_readResponse h.delivers hs⟩

theorem consistent_send (h : s.Consistent) {type : MessageType} (hturn : s.InTurn (.send type))
    (hs : s.SendStep type t) : t.Consistent := by
  have hsound := sound_send h.sound hs
  cases type with
  | request =>
    exact ⟨hsound, counts_sendRequest h.counts hs, delivers_sendRequest h.delivers h.sound hs⟩
  | response =>
    exact ⟨hsound, counts_sendResponse h.counts h.sound hturn hs,
      delivers_sendResponse h.delivers h.sound hs⟩

theorem consistent_step (h : s.Consistent) {action : MessagingAction M} (hturn : s.InTurn action)
    (hs : step isCloseRequired s action = .ok t) : t.Consistent := by
  cases action with
  | arrive type msg => exact consistent_arrive h hs
  | timeout type => exact consistent_timeout h hs
  | fail type => exact hturn.elim
  | read type answer => exact consistent_read h hturn (readStep_of_read hs)
  | send type => exact consistent_send h hturn (sendStep_of_send hs)

/-! ### Nobody waits for ever -/

theorem Quiet.inHand (hq : s.Quiet) (h : s.Consistent) (type : MessageType) :
    (s.call type).read.inHand = 0 := by
  have hrequest : s.request.written + s.request.read.inHand ≤ s.request.received :=
    (h.sound .request).written_le
  have hresponse : s.response.written + s.response.read.inHand ≤ s.response.received :=
    (h.sound .response).written_le
  have harrives := h.counts.arrives
  have hforwarded := hq.forwarded
  have hresponded := hq.responded
  cases type with
  | request =>
    change s.request.read.inHand = 0
    omega
  | response =>
    change s.response.read.inHand = 0
    omega

/-- A reader that has set its last message leaves no sender waiting. -/
theorem Quiet.not_open (hq : s.Quiet) (h : s.Consistent) {type : MessageType}
    (hread : (s.call type).read = .ended) :
    ¬ (s.call type).are.Open (s.call type).send.task := by
  cases type with
  | request => exact h.delivers.answered hread
  | response =>
    rintro ⟨task, hsend, -⟩
    have hread : s.response.read = .ended := hread
    have hsend : s.response.send.task = some task := hsend
    have hlast : s.sync.isRecievingClientToOriginCompleted = true :=
      h.counts.last (by rw [hread]; trivial)
    have hzero := h.counts.allSent ⟨hlast, hq.responded.trans hq.forwarded⟩
    cases hphase : s.response.send with
    | waiting =>
      rw [hphase] at hzero
      have hended := h.counts.ended hzero
      rw [hphase] at hended
      cases hended
    | _ =>
      rw [hphase] at hsend
      cases hsend

theorem cancelRead_not_waits (h : s.Consistent) (type : MessageType) :
    ¬ (s.setCall type (s.call type).cancelRead).Waits (.sender type) := by
  obtain ⟨held, hm, -⟩ := (h.sound type).mailbox
  cases type with
  | request => exact hm.cancel_not_open
  | response => exact hm.cancel_not_open

theorem step_timeout {type : MessageType} (hread : (s.call type).read = .awaitMsg) :
    step isCloseRequired s (.timeout type) = .ok (s.setCall type (s.call type).cancelRead) := by
  simp only [step, hread]

theorem Quiet.wakes (hq : s.Quiet) (h : s.Consistent) (isCloseRequired : M → Bool)
    (party : Party) :
    ∃ actions t, run (step isCloseRequired) s actions = .ok t ∧ ¬ t.Waits party := by
  by_cases hw : s.Waits party
  case neg => exact ⟨[], s, rfl, hw⟩
  cases party with
  | reader type =>
    refine ⟨[.timeout type], _, run_cons_ok_iff.mpr ⟨_, step_timeout hw, rfl⟩, ?_⟩
    cases type <;> exact nofun
  | sender type =>
    have hnot := cancelRead_not_waits h type
    have hhand := hq.inHand h type
    have htold := (h.sound type).told
    cases hread : (s.call type).read with
    | awaitMsg =>
      exact ⟨[.timeout type], _, run_cons_ok_iff.mpr ⟨_, step_timeout hread, rfl⟩, hnot⟩
    | start =>
      refine ⟨[.read type false], _, run_cons_ok_iff.mpr ⟨_, ?_, rfl⟩, hnot⟩
      simp [step, HttpPipedIntermediary.read, hread]
    | loop =>
      have hs : s.read type true = .ok (s.setCall type { s.call type with read := .awaitMsg }) := by
        simp [HttpPipedIntermediary.read, hread]
      have hnext := consistent_read h (fun _ => rfl) (readStep_of_read hs)
      have hawait : ((s.setCall type { s.call type with read := .awaitMsg }).call type).read =
          .awaitMsg := by
        cases type <;> rfl
      refine ⟨[.read type true, .timeout type], _, ?_, cancelRead_not_waits hnext type⟩
      exact run_cons_ok_iff.mpr ⟨_, hs, run_cons_ok_iff.mpr ⟨_, step_timeout hawait, rfl⟩⟩
    | ended => exact absurd hw (hq.not_open h hread)
    | canceled =>
      rw [hread] at htold
      obtain ⟨held, hm, -⟩ := (h.sound type).mailbox
      have hactive := hm.active hw
      rw [show (s.call type).are.isCanceled = true from htold] at hactive
      cases hactive
    | failed =>
      rw [hread] at htold
      exact htold.elim
    | _ =>
      rw [hread] at hhand
      cases hhand

theorem Consistent.settled (h : s.Consistent) (isCloseRequired : M → Bool) :
    s.Settled isCloseRequired := by
  refine ⟨?_, fun hrequest hresponse => ?_, fun hall hnot => ?_, fun hall hwritten hnot => ?_⟩
  · rintro ⟨hq, party, hstuck⟩
    obtain ⟨actions, t, hrun, hnot⟩ := hq.wakes h isCloseRequired party
    exact hnot (hstuck actions t hrun)
  · rw [h.counts.resend, hrequest, hresponse]
    simp
  · have hzero := h.counts.allRead hall
    cases hread : s.response.read with
    | recived msg => exact absurd (by rw [hread]; trivial) hnot
    | counted msg val => exact absurd (by rw [hread]; trivial) hnot
    | _ =>
      rw [hread] at hzero
      exact hzero
  · have hzero := h.counts.allSent hall
    cases hsend : s.response.send with
    | written res =>
      rw [hsend] at hwritten
      cases hwritten
    | resent res val => exact absurd (by rw [hsend]; trivial) hnot
    | _ =>
      rw [hsend] at hzero
      exact hzero

end Steps

/-- Where every step is in turn, the two calls settle in every state they reach. -/
theorem settled_of_inTurn {isCloseRequired : M → Bool} {actions : List (MessagingAction M)}
    {s : HttpPipedIntermediary M} (hturn : Along (step isCloseRequired) InTurn {} actions)
    (hreached : Reached (step isCloseRequired) {} actions s) : s.Settled isCloseRequired := by
  refine Consistent.settled ?_ isCloseRequired
  exact Along.reached_invariant (fun _ _ _ h hc hs => consistent_step h hc hs) consistent_new hturn
    hreached

/-- Both calls start, and one request is read, handed over and written. -/
def requestForwarded : List (MessagingAction Unit) :=
  [.read .request true, .read .response true,
    .send .request, .send .request, .send .response, .send .response,
    .arrive .request (), .read .request true, .read .request false, .read .request true,
    .read .request true, .send .request, .send .request]

/-- The sender of requests counts the request and finds that it was the last one. -/
def requestCounted : List (MessagingAction Unit) :=
  [.send .request, .send .request, .send .request, .send .request]

/-- The response is read, handed over and written. -/
def responseSent : List (MessagingAction Unit) :=
  [.arrive .response (), .read .response true, .read .response true, .read .response true,
    .read .response true, .send .response, .send .response]

/-- The response is counted, and its sender looks at the flag. -/
def responseCounted : List (MessagingAction Unit) := [.send .response, .send .response]

def countedFirst : List (MessagingAction Unit) :=
  requestForwarded ++ requestCounted ++ responseSent ++ responseCounted

theorem settled_of_inTurn_one :
    Along (step fun _ => false) InTurn {} countedFirst ∧
      ∃ s, Reached (step fun _ => false) {} countedFirst s ∧ s.Settled fun _ => false :=
  have hturn : Along (step fun _ => false) InTurn {} countedFirst := by decide
  ⟨hturn, _, reached_of_run rfl, settled_of_inTurn hturn (reached_of_run rfl)⟩

/-- The response is counted before its request: the counter goes to minus one and then to
zero, and the sender of responses waits for another one. -/
theorem not_shutsDown_early : ¬ ShutsDown fun _ : Unit => false := by
  intro hshuts
  have hsettled := hshuts (requestForwarded ++ responseSent ++ [.send .response] ++
    requestCounted ++ [.send .response, .send .response, .send .response, .send .response]) _ rfl
  refine hsettled.notStuck ⟨⟨rfl, rfl⟩, .sender .response, fun actions t hrun => ?_⟩
  cases actions with
  | nil =>
    cases hrun
    exact ⟨1, rfl, rfl⟩
  | cons action actions =>
    -- every task but the waiting one has ended
    obtain ⟨m, hm, -⟩ := run_cons_ok_iff.mp hrun
    rcases action with ⟨_ | _, msg⟩ | ⟨_ | _⟩ | ⟨_ | _⟩ | ⟨_ | _, answer⟩ | ⟨_ | _⟩ <;> cases hm

end HttpPipedIntermediary

end DecodingProxy.Piped
