import DecodingProxy.Piped.HttpPipedIntermediary
import DecodingProxy.Threading.EventMailbox

/-!
# One call of `MaintainMessagingV2`

A message is with the reader, in the event, with the sender, or written; a reader that
called `SetLast` leaves no wait open.
-/

namespace DecodingProxy.Piped
open DecodingProxy.Runtime DecodingProxy.Threading

universe u
variable {M : Type u}

namespace ReadPhase

/-- The reader has a message that its sender cannot see yet, or has lost one. -/
def inHand : ReadPhase M → ℕ
  | .recived _ | .counted _ _ | .complete _ | .setLast _ | .set _ | .faulted => 1
  | .start | .awaitMsg | .loop | .ended | .canceled | .failed => 0

/-- A reader that is over has told the sender, or has lost a message. -/
def Told (are : AsyncAutoResetEvent M) : ReadPhase M → Prop
  | .canceled => are.isCanceled = true
  | .failed => False
  | _ => True

theorem Told.mono {phase : ReadPhase M} {e e' : AsyncAutoResetEvent M} (h : phase.Told e)
    (hcanceled : e.isCanceled = true → e'.isCanceled = true) : phase.Told e' := by
  cases phase with
  | canceled => exact hcanceled h
  | failed => exact h
  | _ => trivial

/-- `SetLast` has completed the event. -/
def IsCompleting : ReadPhase M → Prop
  | .setLast _ | .ended => True
  | _ => False

end ReadPhase

namespace SendPhase

/-- The task of the wait. -/
def task : SendPhase M → Option TaskId
  | .waiting task => some task
  | _ => none

def inHand : SendPhase M → ℕ
  | .write _ => 1
  | _ => 0

/-- The sender is through with a message and has not begun to wait for the next one. -/
def IsBetween : SendPhase M → Prop
  | .loop | .wait | .closeRequired _ => True
  | _ => False

theorem IsBetween.task {phase : SendPhase M} (h : phase.IsBetween) : phase.task = none := by
  cases phase with
  | waiting => exact h.elim
  | _ => rfl

end SendPhase

namespace MaintainMessagingV2

/-- Every message that was read is accounted for. -/
structure Sound (c : MaintainMessagingV2 M) : Prop where
  mailbox : ∃ held, Mailbox c.are c.send.task held ∧
    c.written + c.read.inHand + c.send.inHand + held ≤ c.received
  told : c.read.Told c.are

/-- Behind a last message the sender finds the event completed and does not wait again. -/
structure Delivers (c : MaintainMessagingV2 M) : Prop where
  completed : c.read.IsCompleting → c.are.isCompleted = true
  queued : c.read = .ended → c.send.IsBetween → c.are.waits ≠ []
  answered : c.read = .ended → ¬ c.are.Open c.send.task

theorem sound_new : ({} : MaintainMessagingV2 M).Sound :=
  ⟨⟨0, Mailbox.new, Nat.le_refl 0⟩, trivial⟩

theorem delivers_new : ({} : MaintainMessagingV2 M).Delivers := ⟨nofun, nofun, nofun⟩

section Tasks
variable {c : MaintainMessagingV2 M}

theorem Sound.written_le (h : c.Sound) : c.written + c.read.inHand ≤ c.received := by
  obtain ⟨held, -, hle⟩ := h.mailbox
  omega

/-! ### The reader -/

theorem Sound.setRead (h : c.Sound) {next : ReadPhase M} (hhand : next.inHand ≤ c.read.inHand)
    (hnext : next.Told c.are) : Sound { c with read := next } := by
  obtain ⟨held, hm, hle⟩ := h.mailbox
  exact ⟨⟨held, hm, by dsimp only; omega⟩, hnext⟩

theorem Sound.arrive (h : c.Sound) (msg : M) :
    Sound { c with read := .recived msg, received := c.received + 1 } := by
  obtain ⟨held, hm, hle⟩ := h.mailbox
  refine ⟨⟨held, hm, ?_⟩, trivial⟩
  change c.written + 1 + c.send.inHand + held ≤ c.received + 1
  omega

theorem Sound.cancelRead (h : c.Sound) : c.cancelRead.Sound := by
  obtain ⟨held, hm, hle⟩ := h.mailbox
  refine ⟨⟨held, hm.cancel, ?_⟩, hm.cancel_fields.1⟩
  change c.written + 0 + c.send.inHand + held ≤ c.received
  omega

theorem reads_of_ok {result : AsyncAutoResetEvent M × Except Fault Unit} {next : ReadPhase M}
    (h : result.2 = .ok ()) : c.reads result next = { c with are := result.1, read := next } := by
  obtain ⟨are, outcome⟩ := result
  cases h
  rfl

theorem reads_of_error {result : AsyncAutoResetEvent M × Except Fault Unit}
    {next : ReadPhase M} {fault : Fault} (h : result.2 = .error fault) :
    c.reads result next = { c with are := result.1, read := .faulted } := by
  obtain ⟨are, outcome⟩ := result
  cases h
  rfl

theorem reads_eq (c : MaintainMessagingV2 M)
    (result : AsyncAutoResetEvent M × Except Fault Unit) (next : ReadPhase M) :
    ∃ are, c.reads result next = { c with are, read := next } ∨
      c.reads result next = { c with are, read := .faulted } := by
  cases houtcome : result.2 with
  | ok => exact ⟨_, .inl (reads_of_ok houtcome)⟩
  | error fault => exact ⟨_, .inr (reads_of_error houtcome)⟩

theorem Sound.reads_setUnsafe (h : c.Sound) (msg : M) {next : ReadPhase M}
    (hread : c.read.inHand = 1) (hnext : next.inHand = 0) (htold : ∀ e, next.Told e) :
    (c.reads (c.are.setUnsafe msg) next).Sound := by
  obtain ⟨held, hm, hle⟩ := h.mailbox
  cases houtcome : (c.are.setUnsafe msg).2 with
  | ok =>
    obtain ⟨m, hmle, hmail⟩ := hm.setUnsafe msg
    rw [reads_of_ok houtcome]
    exact ⟨⟨m, hmail, by dsimp only; omega⟩, htold _⟩
  | error fault =>
    obtain ⟨m, hmle, hmail⟩ := hm.setUnsafe_error msg houtcome
    rw [reads_of_error houtcome]
    refine ⟨⟨m, hmail, ?_⟩, trivial⟩
    change c.written + 1 + c.send.inHand + m ≤ c.received
    omega

theorem Sound.reads_set (h : c.Sound) {msg : M} (hread : c.read = .set msg) :
    (c.reads (c.are.set msg) .loop).Sound := by
  have hhand : c.read.inHand = 1 := by rw [hread]; rfl
  unfold AsyncAutoResetEvent.set
  have hfaulted : Sound { c with read := .faulted } := h.setRead (by rw [hhand]; rfl) trivial
  split_ifs
  · exact hfaulted
  · exact h.reads_setUnsafe msg hhand rfl fun _ => trivial

theorem Sound.reads_complete (h : c.Sound) {msg : M} (hread : c.read = .complete msg) :
    (c.reads c.are.complete (.setLast msg)).Sound := by
  have hhand : c.read.inHand = 1 := by rw [hread]; rfl
  unfold AsyncAutoResetEvent.complete
  have hfaulted : Sound { c with read := .faulted } := h.setRead (by rw [hhand]; rfl) trivial
  split_ifs
  · exact hfaulted
  · obtain ⟨held, hm, hle⟩ := h.mailbox
    refine ⟨⟨held, hm.congr rfl rfl rfl, ?_⟩, trivial⟩
    change c.written + 1 + c.send.inHand + held ≤ c.received
    omega

/-! ### The sender -/

theorem Sound.setSend (h : c.Sound) {next : SendPhase M} (htask : next.task = c.send.task)
    (hhand : next.inHand ≤ c.send.inHand) : Sound { c with send := next } := by
  obtain ⟨held, hm, hle⟩ := h.mailbox
  exact ⟨⟨held, htask ▸ hm, by dsimp only; omega⟩, h.told⟩

theorem waitAsync_eq (c : MaintainMessagingV2 M) (token : CancellationToken) :
    ∃ are, (∃ task, c.waitAsync token = { c with are, send := .waiting task }) ∨
      c.waitAsync token = { c with are, send := .faulted } := by
  unfold MaintainMessagingV2.waitAsync
  rcases c.are.waitAsync (some token) with ⟨are, outcome⟩
  cases outcome with
  | ok task => exact ⟨are, .inl ⟨task, rfl⟩⟩
  | error fault => exact ⟨are, .inr rfl⟩

theorem Sound.waitAsync (h : c.Sound) (hsend : c.send = .wait) (token : CancellationToken) :
    (c.waitAsync token).Sound := by
  obtain ⟨held, hm, hle⟩ := h.mailbox
  rw [hsend] at hm hle
  obtain ⟨hmail, -, -, hcanceled⟩ := hm.register (some token)
  unfold MaintainMessagingV2.waitAsync AsyncAutoResetEvent.waitAsync
  rcases hr : c.are.register (some token) with ⟨e, outcome⟩
  rw [hr] at hmail hcanceled
  cases outcome with
  | error fault => exact ⟨⟨held, hmail, hle⟩, h.told.mono hcanceled⟩
  | ok =>
    refine ⟨⟨held, hmail.takeOrEnqueue.1, hle⟩, h.told.mono fun hc => ?_⟩
    exact (takeOrEnqueue_flags e).1.trans (hcanceled hc)

theorem Sound.take (h : c.Sound) {t : TaskId} {res : M} (hsend : c.send = .waiting t)
    (htask : c.are.tasks[t]? = some (.result res)) : Sound { c with send := .write res } := by
  obtain ⟨held, hm, hle⟩ := h.mailbox
  rw [hsend] at hm hle
  obtain ⟨m, rfl, hmail⟩ := hm.take htask
  refine ⟨⟨m, hmail, ?_⟩, h.told⟩
  change c.written + c.read.inHand + 0 + (m + 1) ≤ c.received at hle
  change c.written + c.read.inHand + 1 + m ≤ c.received
  omega

theorem Sound.leave (h : c.Sound) {t : TaskId} (hsend : c.send = .waiting t)
    (htask : c.are.tasks[t]? = some .canceled) : Sound { c with send := .canceled } := by
  obtain ⟨held, hm, hle⟩ := h.mailbox
  rw [hsend] at hm hle
  exact ⟨⟨held, hm.leave htask, hle⟩, h.told⟩

theorem Sound.write (h : c.Sound) {res : M} (hsend : c.send = .write res) :
    Sound { c with send := .written res, written := c.written + 1 } := by
  obtain ⟨held, hm, hle⟩ := h.mailbox
  rw [hsend] at hm hle
  refine ⟨⟨held, hm, ?_⟩, h.told⟩
  change c.written + c.read.inHand + 1 + held ≤ c.received at hle
  change c.written + 1 + c.read.inHand + 0 + held ≤ c.received
  omega

theorem Sound.tokenCanceled (h : c.Sound) : c.tokenCanceled.Sound := by
  unfold MaintainMessagingV2.tokenCanceled
  split_ifs
  · obtain ⟨held, hm, hle⟩ := h.mailbox
    exact ⟨⟨held, hm.cancel, hle⟩, h.told.mono fun _ => hm.cancel_fields.1⟩
  · exact h

/-! ### What follows a last message -/

theorem not_open_none {e : AsyncAutoResetEvent M} : ¬ e.Open none := by
  rintro ⟨t, ht, -⟩
  cases ht

theorem Delivers.of_not_completing (h : ¬ c.read.IsCompleting) : c.Delivers := by
  have hended : c.read ≠ .ended := by
    intro he
    rw [he] at h
    exact h trivial
  exact ⟨fun hc => absurd hc h, fun he => absurd he hended, fun he => absurd he hended⟩

theorem delivers_complete (msg : M) : (c.reads c.are.complete (.setLast msg)).Delivers := by
  unfold AsyncAutoResetEvent.complete
  split_ifs with hc
  · exact .of_not_completing (c := { c with read := .faulted }) id
  · exact ⟨fun _ => rfl, nofun, nofun⟩

theorem delivers_set (msg : M) : (c.reads (c.are.set msg) .loop).Delivers := by
  refine .of_not_completing ?_
  cases houtcome : (c.are.set msg).2 with
  | ok => rw [reads_of_ok houtcome]; exact id
  | error fault => rw [reads_of_error houtcome]; exact id

theorem Sound.delivers_setLast (h : c.Sound) (hd : c.Delivers) {msg : M}
    (hread : c.read = .setLast msg) : (c.reads (c.are.setUnsafe msg) .ended).Delivers := by
  obtain ⟨held, hm, -⟩ := h.mailbox
  cases houtcome : (c.are.setUnsafe msg).2 with
  | error fault =>
    rw [reads_of_error houtcome]
    exact .of_not_completing id
  | ok =>
    rw [reads_of_ok houtcome]
    refine ⟨fun _ => ?_, fun _ hbetween => ?_, fun _ => hm.setUnsafe_not_open msg⟩
    · rw [setUnsafe_isCompleted]
      exact hd.completed (by rw [hread]; trivial)
    · have htask : c.send.task = none := hbetween.task
      rw [htask] at hm
      exact hm.setUnsafe_queue msg houtcome

theorem Delivers.setSend (h : c.Delivers) {next : SendPhase M} (htask : next.task = none)
    (hqueue : c.read = .ended → next.IsBetween → c.are.waits ≠ []) :
    Delivers { c with send := next } := by
  refine ⟨h.completed, hqueue, fun _ => ?_⟩
  dsimp only
  rw [htask]
  exact not_open_none

theorem Sound.delivers_waitAsync (h : c.Sound) (hd : c.Delivers) (hsend : c.send = .wait)
    (token : CancellationToken) : (c.waitAsync token).Delivers := by
  obtain ⟨held, hm, -⟩ := h.mailbox
  rw [hsend] at hm
  obtain ⟨hmail, hwaits, hcompleted, -⟩ := hm.register (some token)
  unfold MaintainMessagingV2.waitAsync AsyncAutoResetEvent.waitAsync
  rcases hr : c.are.register (some token) with ⟨e, outcome⟩
  rw [hr] at hmail hwaits hcompleted
  cases outcome with
  | error fault =>
    exact ⟨fun hc => hcompleted.trans (hd.completed hc), nofun, fun _ => not_open_none⟩
  | ok =>
    refine ⟨fun hc => ?_, nofun, fun hended => ?_⟩
    · exact (takeOrEnqueue_flags e).2.trans (hcompleted.trans (hd.completed hc))
    · apply hmail.takeOrEnqueue.2
      rw [hwaits]
      exact hd.queued hended (by rw [hsend]; trivial)

theorem Sound.delivers_tokenCanceled (h : c.Sound) (hd : c.Delivers) :
    c.tokenCanceled.Delivers := by
  unfold MaintainMessagingV2.tokenCanceled
  split_ifs
  · obtain ⟨held, hm, -⟩ := h.mailbox
    obtain ⟨-, hwaits, hcompleted⟩ := hm.cancel_fields
    refine ⟨fun hc => hcompleted.trans (hd.completed hc), fun he hb => ?_,
      fun _ => hm.cancel_not_open⟩
    dsimp only
    rw [hwaits]
    exact hd.queued he hb
  · exact hd

end Tasks

end MaintainMessagingV2

end DecodingProxy.Piped
