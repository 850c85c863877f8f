import DecodingProxy.Piped.MessageCounts

/-!
# The steps of the readers and the senders

What one access of a task may do, and what it keeps: the messages accounted for, the
counters, and the event behind a last request.
-/

namespace DecodingProxy.Piped
open DecodingProxy.Runs DecodingProxy.Runtime DecodingProxy.Threading

universe u
variable {M : Type u}

namespace HttpPipedIntermediary

open MaintainMessagingV2 (Sound Delivers)

inductive ReadStep (s : HttpPipedIntermediary M) (type : MessageType) :
    Bool → HttpPipedIntermediary M → Prop
  | connected (hread : (s.call type).read = .start) :
    ReadStep s type true (s.setCall type { s.call type with read := .awaitMsg })
  | disconnected (hread : (s.call type).read = .start) :
    ReadStep s type false (s.setCall type (s.call type).cancelRead)
  | recived {answer : Bool} (msg : M) (hread : (s.call type).read = .recived msg) :
    ReadStep s type answer ({ s with sync := countRecieve s.sync type }.setCall type
      { s.call type with read := .counted msg (countRecieve s.sync type).syncMsgCountRecieve })
  | counted {answer : Bool} (msg : M) (val : ℤ) (hread : (s.call type).read = .counted msg val) :
    ReadStep s type answer (s.readCounted msg val answer type)
  | complete {answer : Bool} (msg : M) (hread : (s.call type).read = .complete msg) :
    ReadStep s type answer
      (s.setCall type ((s.call type).reads (s.call type).are.complete (.setLast msg)))
  | setLast {answer : Bool} (msg : M) (hread : (s.call type).read = .setLast msg) :
    ReadStep s type answer
      (s.setCall type ((s.call type).reads ((s.call type).are.setUnsafe msg) .ended))
  | set {answer : Bool} (msg : M) (hread : (s.call type).read = .set msg) :
    ReadStep s type answer
      (s.setCall type ((s.call type).reads ((s.call type).are.set msg) .loop))
  | again (hread : (s.call type).read = .loop) :
    ReadStep s type true (s.setCall type { s.call type with read := .awaitMsg })
  | leave (hread : (s.call type).read = .loop) :
    ReadStep s type false (s.setCall type { s.call type with read := .ended })

inductive SendStep (s : HttpPipedIntermediary M) (type : MessageType) :
    HttpPipedIntermediary M → Prop
  | stop (hsend : (s.call type).send = .loop) :
    SendStep s type (s.setCall type { s.call type with send := .ended })
  | again (hsend : (s.call type).send = .loop) :
    SendStep s type (s.setCall type { s.call type with send := .wait })
  | wait (hsend : (s.call type).send = .wait) :
    SendStep s type (s.setCall type ((s.call type).waitAsync s.token))
  | take (task : TaskId) (res : M) (hsend : (s.call type).send = .waiting task)
    (htask : (s.call type).are.tasks[task]? = some (.result res)) :
    SendStep s type (s.setCall type { s.call type with send := .write res })
  | cancel (task : TaskId) (hsend : (s.call type).send = .waiting task)
    (htask : (s.call type).are.tasks[task]? = some .canceled) :
    SendStep s type (s.setCall type { s.call type with send := .canceled })
  | write (res : M) (hsend : (s.call type).send = .write res) :
    SendStep s type (s.setCall type
      { s.call type with send := .written res, written := (s.call type).written + 1 })
  | written (res : M) (hsend : (s.call type).send = .written res) :
    SendStep s type ({ s with sync := countResend s.sync type }.setCall type
      { s.call type with
        send := sendCounted res (countResend s.sync type).syncMsgCountResend type })
  | resent (res : M) (val : ℤ) (htype : type = .response)
    (hsend : (s.call type).send = .resent res val) : SendStep s type (s.sendResent res val)
  | empty (res : M) (hsend : (s.call type).send = .count res) :
    SendStep s type (s.setCall type { s.call type with send := .isComplete res })
  | queued (res : M) (hsend : (s.call type).send = .count res)
    (hqueued : (s.call type).are.waits ≠ []) :
    SendStep s type (s.setCall type { s.call type with send := .closeRequired res })
  | complete (res : M) (hsend : (s.call type).send = .isComplete res) :
    SendStep s type (s.setCall type { s.call type with send := .completed })
  | incomplete (res : M) (hsend : (s.call type).send = .isComplete res)
    (hcompleted : (s.call type).are.isCompleted = false) :
    SendStep s type (s.setCall type { s.call type with send := .closeRequired res })
  | completed (hsend : (s.call type).send = .completed) :
    SendStep s type
      ({ s with sync := { s.sync with isResendingClientToOriginCompleted := true } }.setCall type
        { s.call type with send := .ended })
  | close (res : M) (hsend : (s.call type).send = .closeRequired res) :
    SendStep s type (s.cancel.setCall type { s.cancel.call type with send := .ended })
  | next (res : M) (hsend : (s.call type).send = .closeRequired res) :
    SendStep s type (s.setCall type { s.call type with send := .loop })

section Steps
variable {isCloseRequired : M → Bool} {s t : HttpPipedIntermediary M}
  {c : MaintainMessagingV2 M} {type : MessageType} {answer : Bool}

theorem readStep_of_read (hs : s.read type answer = .ok t) : s.ReadStep type answer t := by
  unfold HttpPipedIntermediary.read at hs
  cases hread : (s.call type).read with
  | start =>
    simp only [hread] at hs
    cases hs
    cases answer with
    | false => exact .disconnected hread
    | true => exact .connected hread
  | recived msg =>
    simp only [hread] at hs
    cases hs
    exact .recived msg hread
  | counted msg val =>
    simp only [hread] at hs
    cases hs
    exact .counted msg val hread
  | complete msg =>
    simp only [hread] at hs
    cases hs
    exact .complete msg hread
  | setLast msg =>
    simp only [hread] at hs
    cases hs
    exact .setLast msg hread
  | set msg =>
    simp only [hread] at hs
    cases hs
    exact .set msg hread
  | loop =>
    simp only [hread] at hs
    cases hs
    cases answer with
    | false => exact .leave hread
    | true => exact .again hread
  | _ => simp [hread] at hs

theorem sendStep_of_send (hs : s.send isCloseRequired type = .ok t) : s.SendStep type t := by
  unfold HttpPipedIntermediary.send at hs
  cases hsend : (s.call type).send with
  | loop =>
    simp only [hsend] at hs
    cases hs
    split_ifs
    · exact .stop hsend
    · exact .again hsend
  | wait =>
    simp only [hsend] at hs
    cases hs
    exact .wait hsend
  | waiting task =>
    simp only [hsend] at hs
    split at hs
    · rename_i res htask
      cases hs
      exact .take task res hsend htask
    · rename_i htask
      cases hs
      exact .cancel task hsend htask
    · cases hs
  | write res =>
    simp only [hsend] at hs
    cases hs
    exact .write res hsend
  | written res =>
    simp only [hsend] at hs
    cases hs
    exact .written res hsend
  | resent res val =>
    simp only [hsend] at hs
    cases type with
    | request => cases hs
    | response =>
      cases hs
      exact .resent res val rfl hsend
  | count res =>
    simp only [hsend] at hs
    cases hs
    split_ifs with hcount
    · exact .empty res hsend
    · exact .queued res hsend fun hnil => hcount (by simp [AsyncAutoResetEvent.count, hnil])
  | isComplete res =>
    simp only [hsend] at hs
    cases hs
    split_ifs with hcompleted
    · exact .complete res hsend
    · exact .incomplete res hsend (Bool.eq_false_iff.mpr hcompleted)
  | completed =>
    simp only [hsend] at hs
    cases hs
    exact .completed hsend
  | closeRequired res =>
    simp only [hsend] at hs
    split_ifs at hs
    · cases hs
      exact .close res hsend
    · cases hs
      exact .next res hsend
  | _ => simp [hsend] at hs

/-! ### Every message stays accounted for -/

@[simp] theorem call_sync (s : HttpPipedIntermediary M) (sync : SyncRedirection)
    (type : MessageType) : ({ s with sync } : HttpPipedIntermediary M).call type = s.call type := by
  cases type <;> rfl

theorem sound_setCall (h : ∀ type, (s.call type).Sound) (type : MessageType) (hc : c.Sound)
    (other : MessageType) : ((s.setCall type c).call other).Sound := by
  cases type with
  | request =>
    cases other with
    | request => exact hc
    | response => exact h .response
  | response =>
    cases other with
    | request => exact h .request
    | response => exact hc

theorem tokenCanceled_eq (c : MaintainMessagingV2 M) :
    ∃ are, c.tokenCanceled = { c with are } := by
  unfold MaintainMessagingV2.tokenCanceled
  split_ifs
  · exact ⟨_, rfl⟩
  · exact ⟨c.are, rfl⟩

theorem cancel_eq (s : HttpPipedIntermediary M) : ∃ requested are are', s.cancel =
    { s with
      isCancellationRequested := requested
      request := { s.request with are }
      response := { s.response with are := are' } } := by
  unfold cancel
  split_ifs
  · exact ⟨_, _, _, rfl⟩
  · obtain ⟨are, hrequest⟩ := tokenCanceled_eq s.request
    obtain ⟨are', hresponse⟩ := tokenCanceled_eq s.response
    exact ⟨true, are, are', by rw [hrequest, hresponse]⟩

theorem cancel_send (s : HttpPipedIntermediary M) (type : MessageType) :
    (s.cancel.call type).send = (s.call type).send := by
  obtain ⟨requested, are, are', h⟩ := s.cancel_eq
  rw [h]
  cases type <;> rfl

theorem sound_cancel (h : ∀ type, (s.call type).Sound) (type : MessageType) :
    (s.cancel.call type).Sound := by
  unfold cancel
  split_ifs
  · exact h type
  · cases type with
    | request => exact (h .request).tokenCanceled
    | response => exact (h .response).tokenCanceled

theorem sound_readCounted (h : ∀ type, (s.call type).Sound) {type : MessageType} {msg : M}
    {val : ℤ} (hread : (s.call type).read = .counted msg val) (answer : Bool)
    (other : MessageType) : ((s.readCounted msg val answer type).call other).Sound := by
  have hhand : (s.call type).read.inHand = 1 := by rw [hread]; rfl
  have hset : Sound { s.call type with read := .set msg } :=
    (h type).setRead (by rw [hhand]; rfl) trivial
  have hcomplete : Sound { s.call type with read := .complete msg } :=
    (h type).setRead (by rw [hhand]; rfl) trivial
  have hsets := sound_setCall h type hset other
  have hcompletes := sound_setCall h type hcomplete other
  unfold readCounted
  cases type with
  | request =>
    dsimp only
    split_ifs
    · exact hsets
    · exact hcompletes
  | response =>
    dsimp only
    split_ifs
    · exact hcompletes
    · exact hsets
    · exact hsets

theorem sound_read (h : ∀ type, (s.call type).Sound) (hs : s.ReadStep type answer t)
    (other : MessageType) : (t.call other).Sound := by
  have hc := h type
  have hawait : Sound { s.call type with read := .awaitMsg } :=
    hc.setRead (Nat.zero_le _) trivial
  have hleave : Sound { s.call type with read := .ended } := hc.setRead (Nat.zero_le _) trivial
  cases hs with
  | connected hread => exact sound_setCall h type hawait other
  | disconnected hread => exact sound_setCall h type hc.cancelRead other
  | recived msg hread =>
    refine sound_setCall (fun k => (call_sync s _ k).symm ▸ h k) type ?_ other
    exact hc.setRead (by rw [hread]; rfl) trivial
  | counted msg val hread => exact sound_readCounted h hread answer other
  | complete msg hread => exact sound_setCall h type (hc.reads_complete hread) other
  | setLast msg hread =>
    have hended : ((s.call type).reads ((s.call type).are.setUnsafe msg) .ended).Sound :=
      hc.reads_setUnsafe msg (by rw [hread]; rfl) rfl fun _ => trivial
    exact sound_setCall h type hended other
  | set msg hread => exact sound_setCall h type (hc.reads_set hread) other
  | again hread => exact sound_setCall h type hawait other
  | leave hread => exact sound_setCall h type hleave other

/-- A sender that neither waits nor takes anything goes on. -/
theorem sound_next (h : ∀ type, (s.call type).Sound) {next : SendPhase M}
    (htask : (s.call type).send.task = none) (hnext : next.task = none) (hhand : next.inHand = 0)
    (other : MessageType) :
    ((s.setCall type { s.call type with send := next }).call other).Sound :=
  sound_setCall h type ((h type).setSend (hnext.trans htask.symm) (hhand ▸ Nat.zero_le _)) other

theorem sound_send (h : ∀ type, (s.call type).Sound) (hs : s.SendStep type t)
    (other : MessageType) : (t.call other).Sound := by
  have hc := h type
  cases hs with
  | stop hsend => exact sound_next h (by rw [hsend]; rfl) rfl rfl other
  | again hsend => exact sound_next h (by rw [hsend]; rfl) rfl rfl other
  | wait hsend => exact sound_setCall h type (hc.waitAsync hsend s.token) other
  | take task res hsend htask => exact sound_setCall h type (hc.take hsend htask) other
  | cancel task hsend htask => exact sound_setCall h type (hc.leave hsend htask) other
  | write res hsend => exact sound_setCall h type (hc.write hsend) other
  | written res hsend =>
    refine sound_setCall (fun k => (call_sync s _ k).symm ▸ h k) type ?_ other
    refine hc.setSend ?_ ?_ <;> rw [hsend] <;> cases type <;> rfl
  | resent res val htype hsend =>
    subst htype
    have htask : (s.call .response).send.task = none := by rw [hsend]; rfl
    have hended : ((s.setCall .response { s.call .response with send := .ended }).call
        other).Sound := sound_next h htask rfl rfl other
    have hclose : ((s.setCall .response { s.call .response with send := .closeRequired res }).call
        other).Sound := sound_next h htask rfl rfl other
    unfold sendResent
    split_ifs
    · exact hended
    · exact hclose
    · exact hclose
  | empty res hsend => exact sound_next h (by rw [hsend]; rfl) rfl rfl other
  | queued res hsend => exact sound_next h (by rw [hsend]; rfl) rfl rfl other
  | complete res hsend => exact sound_next h (by rw [hsend]; rfl) rfl rfl other
  | incomplete res hsend => exact sound_next h (by rw [hsend]; rfl) rfl rfl other
  | completed hsend =>
    refine sound_setCall (fun k => (call_sync s _ k).symm ▸ h k) type ?_ other
    refine hc.setSend ?_ ?_ <;> rw [hsend] <;> rfl
  | close res hsend =>
    refine sound_next (sound_cancel h) ?_ rfl rfl other
    rw [cancel_send s type, hsend]
    rfl
  | next res hsend => exact sound_next h (by rw [hsend]; rfl) rfl rfl other

/-! ### The counters stay right -/

theorem Counts.readsRequest (h : s.Counts)
    (result : AsyncAutoResetEvent M × Except Fault Unit) {next : ReadPhase M}
    (hread : s.request.read.uncounted = 0) (hnext : next.uncounted = 0) :
    Counts { s with request := s.request.reads result next } := by
  obtain ⟨are, he | he⟩ := s.request.reads_eq result next
  · rw [he]
    exact h.setRequest rfl rfl (hnext.trans hread.symm) rfl
  · rw [he]
    exact h.setRequest rfl rfl hread.symm rfl

theorem Counts.readsResponse (h : s.Counts)
    (result : AsyncAutoResetEvent M × Except Fault Unit) {next : ReadPhase M}
    (hnext : s.response.read.Follows next) (hfaulted : s.response.read.Follows .faulted) :
    Counts { s with response := s.response.reads result next } := by
  obtain ⟨are, he | he⟩ := s.response.reads_eq result next
  · rw [he]
    exact h.setResponseRead rfl rfl rfl hnext
  · rw [he]
    exact h.setResponseRead rfl rfl rfl hfaulted

theorem counts_readRequest (h : s.Counts) (hsound : ∀ type, (s.call type).Sound)
    (hs : s.ReadStep .request answer t) : t.Counts := by
  cases hs with
  | connected hread =>
    have hread : s.request.read = .start := hread
    exact h.setRequest rfl rfl (by rw [hread]; rfl) rfl
  | disconnected hread =>
    have hread : s.request.read = .start := hread
    exact h.setRequest rfl rfl (by rw [hread]; rfl) rfl
  | recived msg hread => exact h.countRequest hread _
  | counted msg val hread =>
    have hread : s.request.read = .counted msg val := hread
    simp only [readCounted]
    split_ifs
    · exact h.setRequest rfl rfl (by rw [hread]; rfl) rfl
    · exact h.lastRequest hsound hread
  | complete msg hread =>
    have hread : s.request.read = .complete msg := hread
    exact h.readsRequest _ (by rw [hread]; rfl) rfl
  | setLast msg hread =>
    have hread : s.request.read = .setLast msg := hread
    exact h.readsRequest _ (by rw [hread]; rfl) rfl
  | set msg hread =>
    have hread : s.request.read = .set msg := hread
    exact h.readsRequest _ (by rw [hread]; rfl) rfl
  | again hread =>
    have hread : s.request.read = .loop := hread
    exact h.setRequest rfl rfl (by rw [hread]; rfl) rfl
  | leave hread =>
    have hread : s.request.read = .loop := hread
    exact h.setRequest rfl rfl (by rw [hread]; rfl) rfl

theorem Counts.followsRead (h : s.Counts) {phase : ReadPhase M} (hread : s.response.read = phase)
    (hfollows : phase.Follows c.read) (hreceived : c.received = s.response.received)
    (hwritten : c.written = s.response.written) (hsend : c.send = s.response.send) :
    Counts { s with response := c } :=
  h.setResponseRead hreceived hwritten hsend (hread ▸ hfollows)

theorem counts_readResponse (h : s.Counts) (hsound : ∀ type, (s.call type).Sound)
    (hturn : s.response.read.IsLoop → answer = true)
    (hs : s.ReadStep .response answer t) : t.Counts := by
  cases hs with
  | connected hread => exact h.followsRead hread ⟨rfl, id, fun _ => id, id⟩ rfl rfl rfl
  | disconnected hread => exact h.followsRead hread ⟨rfl, id, fun _ => id, id⟩ rfl rfl rfl
  | recived msg hread => exact h.countResponse hsound hread
  | counted msg val hread => exact h.readResponse hread answer
  | complete msg hread =>
    have hread : s.response.read = .complete msg := hread
    refine h.readsResponse _ ?_ ?_ <;> rw [hread]
    · exact ⟨rfl, id, fun _ => id, id⟩
    · exact ⟨rfl, fun _ => trivial, fun _ => id, id⟩
  | setLast msg hread =>
    have hread : s.response.read = .setLast msg := hread
    refine h.readsResponse _ ?_ ?_ <;> rw [hread]
    · exact ⟨rfl, id, fun _ => id, id⟩
    · exact ⟨rfl, fun _ => trivial, fun _ => id, id⟩
  | set msg hread =>
    have hread : s.response.read = .set msg := hread
    refine h.readsResponse _ ?_ ?_ <;> rw [hread]
    · exact ⟨rfl, id, fun _ => id, id⟩
    · exact ⟨rfl, id, fun _ => id, fun _ => trivial⟩
  | again hread => exact h.followsRead hread ⟨rfl, id, fun _ => id, id⟩ rfl rfl rfl
  | leave hread =>
    have hread : s.response.read = .loop := hread
    exact absurd (hturn (by rw [hread]; trivial)) Bool.false_ne_true

theorem counts_cancel (h : s.Counts) : s.cancel.Counts := by
  obtain ⟨requested, are, are', he⟩ := s.cancel_eq
  rw [he]
  exact ⟨h.arrives, h.recieve, h.resend, h.last, h.allRead, h.isOver, h.allSent, h.ended⟩

/-- A sender of requests that counts nothing. -/
theorem Counts.nextRequest (h : s.Counts) {phase next : SendPhase M}
    (hsend : s.request.send = phase) (hnext : next.uncounted = phase.uncounted) :
    Counts { s with request := { s.request with send := next } } :=
  h.setRequest rfl rfl rfl (hnext.trans (congrArg SendPhase.uncounted hsend.symm))

theorem counts_sendRequest (h : s.Counts) (hs : s.SendStep .request t) : t.Counts := by
  cases hs with
  | stop hsend => exact h.nextRequest hsend rfl
  | again hsend => exact h.nextRequest hsend rfl
  | wait hsend =>
    have hsend : s.request.send = .wait := hsend
    obtain ⟨are, ⟨task, he⟩ | he⟩ := s.request.waitAsync_eq s.token
    · simp only [setCall, call, he]
      exact h.setRequest rfl rfl rfl (by rw [hsend]; rfl)
    · simp only [setCall, call, he]
      exact h.setRequest rfl rfl rfl (by rw [hsend]; rfl)
  | take task res hsend => exact h.nextRequest hsend rfl
  | cancel task hsend => exact h.nextRequest hsend rfl
  | write res hsend => exact h.writeRequest hsend
  | written res hsend => exact h.resendRequest hsend
  | resent res val htype => cases htype
  | empty res hsend => exact h.nextRequest hsend rfl
  | queued res hsend => exact h.nextRequest hsend rfl
  | complete res hsend => exact h.nextRequest hsend rfl
  | incomplete res hsend => exact h.nextRequest hsend rfl
  | completed hsend =>
    have hended : Counts { s with request := { s.request with send := .ended } } :=
      h.nextRequest hsend rfl
    exact ⟨hended.arrives, hended.recieve, hended.resend, hended.last, hended.allRead,
      hended.isOver, hended.allSent, hended.ended⟩
  | close res hsend => exact (counts_cancel h).nextRequest ((cancel_send s .request).trans hsend) rfl
  | next res hsend => exact h.nextRequest hsend rfl

theorem Counts.nextResponse (h : s.Counts) {phase next : SendPhase M}
    (hsend : s.response.send = phase) (hnext : phase.Follows next) :
    Counts { s with response := { s.response with send := next } } :=
  h.setResponseSend rfl rfl rfl (hsend ▸ hnext)

theorem counts_sendResponse (h : s.Counts) (hsound : ∀ type, (s.call type).Sound)
    (hturn : s.InTurn (.send .response)) (hs : s.SendStep .response t) : t.Counts := by
  cases hs with
  | stop hsend => exact h.nextResponse hsend ⟨rfl, fun _ => id, nofun⟩
  | again hsend => exact h.nextResponse hsend ⟨rfl, fun _ => id, nofun⟩
  | wait hsend =>
    have hsend : s.response.send = .wait := hsend
    obtain ⟨are, ⟨task, he⟩ | he⟩ := s.response.waitAsync_eq s.token
    · simp only [setCall, call, he]
      exact h.setResponseSend rfl rfl rfl (by rw [hsend]; exact ⟨rfl, fun _ => id, nofun⟩)
    · simp only [setCall, call, he]
      exact h.setResponseSend rfl rfl rfl (by rw [hsend]; exact ⟨rfl, fun _ => id, nofun⟩)
  | take task res hsend => exact h.nextResponse hsend ⟨rfl, fun _ => id, nofun⟩
  | cancel task hsend => exact h.nextResponse hsend ⟨rfl, fun _ => id, nofun⟩
  | write res hsend => exact h.writeResponse hsend
  | written res hsend =>
    have hsend : s.response.send = .written res := hsend
    exact h.resendResponse hsound hsend fun ha => (hturn ha).1 (by rw [hsend]; rfl)
  | resent res val htype hsend =>
    have hsend : s.response.send = .resent res val := hsend
    exact h.sendResent hsend fun ha => (hturn ha).2 (by rw [hsend]; trivial)
  | empty res hsend => exact h.nextResponse hsend ⟨rfl, fun _ => id, nofun⟩
  | queued res hsend => exact h.nextResponse hsend ⟨rfl, fun _ => id, nofun⟩
  | complete res hsend => exact h.nextResponse hsend ⟨rfl, fun _ => id, nofun⟩
  | incomplete res hsend => exact h.nextResponse hsend ⟨rfl, fun _ => id, nofun⟩
  | completed hsend =>
    have hended : Counts { s with response := { s.response with send := .ended } } :=
      h.nextResponse hsend ⟨rfl, fun _ => id, nofun⟩
    exact ⟨hended.arrives, hended.recieve, hended.resend, hended.last, hended.allRead,
      hended.isOver, hended.allSent, hended.ended⟩
  | close res hsend =>
    have hsame : s.cancel.response.send = .closeRequired res :=
      (cancel_send s .response).trans hsend
    exact (counts_cancel h).nextResponse hsame ⟨rfl, fun _ => id, nofun⟩
  | next res hsend => exact h.nextResponse hsend ⟨rfl, fun _ => id, nofun⟩

/-! ### What the steps leave behind a last request -/

theorem delivers_cancel (h : s.request.Delivers) (hsound : ∀ type, (s.call type).Sound) :
    s.cancel.request.Delivers := by
  unfold cancel
  split_ifs
  · exact h
  · exact (hsound .request).delivers_tokenCanceled h

theorem delivers_readRequest (h : s.request.Delivers) (hsound : ∀ type, (s.call type).Sound)
    (hturn : s.request.read.IsLoop → answer = true)
    (hs : s.ReadStep .request answer t) : t.request.Delivers := by
  have hc : s.request.Sound := hsound .request
  cases hs with
  | connected hread => exact .of_not_completing id
  | disconnected hread => exact .of_not_completing id
  | recived msg hread => exact .of_not_completing id
  | counted msg val hread =>
    simp only [readCounted]
    split_ifs
    · exact .of_not_completing id
    · exact .of_not_completing id
  | complete msg hread => exact MaintainMessagingV2.delivers_complete msg
  | setLast msg hread => exact hc.delivers_setLast h hread
  | set msg hread => exact MaintainMessagingV2.delivers_set msg
  | again hread => exact .of_not_completing id
  | leave hread =>
    have hread : s.request.read = .loop := hread
    exact absurd (hturn (by rw [hread]; trivial)) Bool.false_ne_true

theorem delivers_sendRequest (h : s.request.Delivers) (hsound : ∀ type, (s.call type).Sound)
    (hs : s.SendStep .request t) : t.request.Delivers := by
  have hc : s.request.Sound := hsound .request
  have hqueued (hbetween : s.request.send.IsBetween) (hended : s.request.read = .ended) :=
    h.queued hended hbetween
  cases hs with
  | stop hsend => exact h.setSend rfl fun _ => False.elim
  | again hsend =>
    have hsend : s.request.send = .loop := hsend
    exact h.setSend rfl fun hended _ => hqueued (by rw [hsend]; trivial) hended
  | wait hsend => exact hc.delivers_waitAsync h hsend s.token
  | take task res hsend => exact h.setSend rfl fun _ => False.elim
  | cancel task hsend => exact h.setSend rfl fun _ => False.elim
  | write res hsend =>
    exact ⟨h.completed, fun _ => False.elim, fun _ => MaintainMessagingV2.not_open_none⟩
  | written res hsend => exact h.setSend rfl fun _ => False.elim
  | resent res val htype => cases htype
  | empty res hsend => exact h.setSend rfl fun _ => False.elim
  | queued res hsend hne => exact h.setSend rfl fun _ _ => hne
  | complete res hsend => exact h.setSend rfl fun _ => False.elim
  | incomplete res hsend hcompleted =>
    refine h.setSend rfl fun hended _ => absurd (h.completed ?_) (Bool.eq_false_iff.mp hcompleted)
    rw [hended]
    trivial
  | completed hsend => exact h.setSend rfl fun _ => False.elim
  | close res hsend => exact (delivers_cancel h hsound).setSend rfl fun _ => False.elim
  | next res hsend =>
    have hsend : s.request.send = .closeRequired res := hsend
    exact h.setSend rfl fun hended _ => hqueued (by rw [hsend]; trivial) hended

theorem delivers_readResponse (h : s.request.Delivers) (hs : s.ReadStep .response answer t) :
    t.request.Delivers := by
  cases hs with
  | counted msg val hread =>
    simp only [readCounted]
    split_ifs <;> exact h
  | _ => exact h

theorem delivers_sendResponse (h : s.request.Delivers) (hsound : ∀ type, (s.call type).Sound)
    (hs : s.SendStep .response t) : t.request.Delivers := by
  cases hs with
  | resent res val htype hsend =>
    unfold sendResent
    split_ifs <;> exact h
  | close res hsend => exact delivers_cancel h hsound
  | _ => exact h

end Steps

end HttpPipedIntermediary

end DecodingProxy.Piped
