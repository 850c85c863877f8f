import DecodingProxy.Piped.MessageHandover

/-!
# The counters of `SyncRedirection`

The counters are behind the messages by what was read or written and is not counted yet.
They are at zero when the last response is counted, provided that the last request has
been counted by then: for messages that are read that is always so.
-/

namespace DecodingProxy.Piped
open DecodingProxy.Runs DecodingProxy.Runtime DecodingProxy.Threading

universe u
variable {M : Type u}

namespace ReadPhase

/-- A message has been read and `SyncRedirection` does not know it yet. -/
def uncounted : ReadPhase M → ℕ
  | .recived _ => 1
  | _ => 0

def IsLoop : ReadPhase M → Prop
  | .loop => True
  | _ => False

instance : (phase : ReadPhase M) → Decidable phase.IsLoop
  | .loop => isTrue trivial
  | .start | .awaitMsg | .recived _ | .counted _ _ | .complete _ | .setLast _ | .set _ | .ended
  | .canceled | .failed | .faulted => isFalse id

/-- The reader has not decided yet whether its message is the last one. -/
def IsCounting : ReadPhase M → Prop
  | .recived _ | .counted _ _ => True
  | _ => False

/-- The reader works on `SetLast`, or is through with it. -/
def IsLast : ReadPhase M → Prop
  | .complete _ | .setLast _ | .ended => True
  | _ => False

/-- A reader that has come to `SetLast` reads no more. -/
def IsOver : ReadPhase M → Prop
  | .complete _ | .setLast _ | .ended | .faulted => True
  | _ => False

/-- The counter was zero, or is still to be decremented for the last message. -/
def SeesZero (completed : Bool) : ReadPhase M → Prop
  | .recived _ => True
  | .counted _ val => val = 0
  | _ => completed = true

/-- What does not touch `SyncRedirection`. -/
structure Follows (phase next : ReadPhase M) : Prop where
  uncounted : next.uncounted = phase.uncounted
  last : next.IsLast → phase.IsLast
  seesZero : ∀ completed, phase.SeesZero completed → next.SeesZero completed
  isOver : phase.IsOver → next.IsOver

end ReadPhase

namespace SendPhase

/-- A message has been written and `SyncRedirection` does not know it yet. -/
def uncounted : SendPhase M → ℕ
  | .written _ => 1
  | _ => 0

def IsResent : SendPhase M → Prop
  | .resent _ _ => True
  | _ => False

instance : (phase : SendPhase M) → Decidable phase.IsResent
  | .resent _ _ => isTrue trivial
  | .loop | .wait | .waiting _ | .write _ | .written _ | .count _ | .isComplete _ | .completed
  | .closeRequired _ | .ended | .canceled | .faulted => isFalse id

def SeesZero (completed : Bool) : SendPhase M → Prop
  | .written _ => True
  | .resent _ val => val = 0
  | _ => completed = true

structure Follows (phase next : SendPhase M) : Prop where
  uncounted : next.uncounted = phase.uncounted
  seesZero : ∀ completed, phase.SeesZero completed → next.SeesZero completed
  notEnded : phase ≠ .ended

end SendPhase

namespace HttpPipedIntermediary

open MaintainMessagingV2 (Sound)

/-- The request direction has ended and as many responses have been read as requests. -/
def AllRead (s : HttpPipedIntermediary M) : Prop :=
  s.sync.isRecievingClientToOriginCompleted = true ∧ s.response.received = s.request.received

def AllSent (s : HttpPipedIntermediary M) : Prop :=
  s.sync.isRecievingClientToOriginCompleted = true ∧ s.response.written = s.request.received

/-- No reader ends without a word to its sender, and the counter and the flag are up to
date when the last response is counted and when the sender looks for the flag. -/
def InTurn (s : HttpPipedIntermediary M) : MessagingAction M → Prop
  | .fail _ => False
  | .read type answer => (s.call type).read.IsLoop → answer = true
  | .send .response =>
    s.AllSent →
      (s.response.send.uncounted = 1 → s.request.send.uncounted = 0) ∧
        (s.response.send.IsResent → s.sync.isResendingClientToOriginCompleted = true)
  | _ => True

instance (s : HttpPipedIntermediary M) : Decidable s.AllSent := instDecidableAnd

instance (s : HttpPipedIntermediary M) : (action : MessagingAction M) → Decidable (s.InTurn action)
  | .arrive _ _ | .timeout _ | .send .request => isTrue trivial
  | .fail _ => isFalse id
  | .read type answer =>
    inferInstanceAs (Decidable ((s.call type).read.IsLoop → answer = true))
  | .send .response =>
    inferInstanceAs (Decidable (s.AllSent →
      (s.response.send.uncounted = 1 → s.request.send.uncounted = 0) ∧
        (s.response.send.IsResent → s.sync.isResendingClientToOriginCompleted = true)))

structure Counts (s : HttpPipedIntermediary M) : Prop where
  arrives : s.response.received ≤ s.request.written
  recieve : s.sync.syncMsgCountRecieve =
    int32 ((s.request.received - s.request.read.uncounted : ℤ) -
      (s.response.received - s.response.read.uncounted))
  resend : s.sync.syncMsgCountResend =
    int32 ((s.request.written - s.request.send.uncounted : ℤ) -
      (s.response.written - s.response.send.uncounted))
  last : s.response.read.IsLast → s.sync.isRecievingClientToOriginCompleted = true
  allRead : s.AllRead → s.response.read.SeesZero s.sync.isRecievingOriginToClientCompleted
  isOver : s.sync.isRecievingOriginToClientCompleted = true → s.response.read.IsOver
  allSent : s.AllSent → s.response.send.SeesZero s.sync.isResendingOriginToClientCompleted
  ended : s.sync.isResendingOriginToClientCompleted = true → s.response.send = .ended

theorem counts_new : ({} : HttpPipedIntermediary M).Counts := by
  refine ⟨Nat.le_refl 0, ?_, ?_, False.elim, fun ha => ?_, fun hc => ?_, fun ha => ?_, fun hc => ?_⟩
  · change 0 = int32 (((0 : ℕ) - (0 : ℕ) : ℤ) - ((0 : ℕ) - (0 : ℕ)))
    decide
  · change 0 = int32 (((0 : ℕ) - (0 : ℕ) : ℤ) - ((0 : ℕ) - (0 : ℕ)))
    decide
  · exact absurd ha.1 Bool.false_ne_true
  · exact absurd hc Bool.false_ne_true
  · exact absurd ha.1 Bool.false_ne_true
  · exact absurd hc Bool.false_ne_true

section Steps
variable {s : HttpPipedIntermediary M} {c : MaintainMessagingV2 M}

/-! ### Steps that count nothing -/

theorem Counts.setRequest (h : s.Counts) (hreceived : c.received = s.request.received)
    (hwritten : c.written = s.request.written)
    (hread : c.read.uncounted = s.request.read.uncounted)
    (hsend : c.send.uncounted = s.request.send.uncounted) : Counts { s with request := c } := by
  refine ⟨hwritten.symm ▸ h.arrives, ?_, ?_, h.last, fun ha => ?_, h.isOver, fun ha => ?_, h.ended⟩
  · dsimp only
    rw [hreceived, hread, h.recieve]
  · dsimp only
    rw [hwritten, hsend, h.resend]
  · exact h.allRead ⟨ha.1, ha.2.trans hreceived⟩
  · exact h.allSent ⟨ha.1, ha.2.trans hreceived⟩

theorem Counts.setResponseRead (h : s.Counts) (hreceived : c.received = s.response.received)
    (hwritten : c.written = s.response.written) (hsend : c.send = s.response.send)
    (hread : s.response.read.Follows c.read) : Counts { s with response := c } := by
  refine ⟨hreceived.symm ▸ h.arrives, ?_, ?_, fun hl => h.last (hread.last hl), fun ha => ?_,
    fun hc => hread.isOver (h.isOver hc), fun ha => ?_, fun hc => hsend.trans (h.ended hc)⟩
  · dsimp only
    rw [hreceived, hread.uncounted, h.recieve]
  · dsimp only
    rw [hwritten, hsend, h.resend]
  · exact hread.seesZero _ (h.allRead ⟨ha.1, hreceived.symm.trans ha.2⟩)
  · dsimp only
    rw [hsend]
    exact h.allSent ⟨ha.1, hwritten.symm.trans ha.2⟩

theorem Counts.setResponseSend (h : s.Counts) (hreceived : c.received = s.response.received)
    (hwritten : c.written = s.response.written) (hread : c.read = s.response.read)
    (hsend : s.response.send.Follows c.send) : Counts { s with response := c } := by
  refine ⟨hreceived.symm ▸ h.arrives, ?_, ?_, fun hl => h.last (hread ▸ hl), fun ha => ?_,
    fun hc => hread.symm ▸ h.isOver hc, fun ha => ?_, fun hc => absurd (h.ended hc) hsend.notEnded⟩
  · dsimp only
    rw [hreceived, hread, h.recieve]
  · dsimp only
    rw [hwritten, hsend.uncounted, h.resend]
  · dsimp only
    rw [hread]
    exact h.allRead ⟨ha.1, hreceived.symm.trans ha.2⟩
  · exact hsend.seesZero _ (h.allSent ⟨ha.1, hwritten.symm.trans ha.2⟩)

/-! ### Messages that are read -/

theorem Counts.arriveRequest (h : s.Counts) (hsound : ∀ type, (s.call type).Sound)
    (hread : s.request.read = .awaitMsg) (msg : M) :
    Counts { s with request := { s.request with
      read := .recived msg, received := s.request.received + 1 } } := by
  have hrequest : s.request.written + s.request.read.inHand ≤ s.request.received :=
    (hsound .request).written_le
  have hresponse : s.response.written + s.response.read.inHand ≤ s.response.received :=
    (hsound .response).written_le
  have harrives := h.arrives
  refine ⟨h.arrives, ?_, h.resend, h.last, fun ha => ?_, h.isOver, fun ha => ?_, h.ended⟩
  · have hcount := h.recieve
    rw [hread] at hcount
    simpa [ReadPhase.uncounted] using hcount
  · have hall : s.response.received = s.request.received + 1 := ha.2
    omega
  · have hall : s.response.written = s.request.received + 1 := ha.2
    omega

theorem Counts.arriveResponse (h : s.Counts) (hread : s.response.read = .awaitMsg)
    (hopen : s.response.received < s.request.written) (msg : M) :
    Counts { s with response := { s.response with
      read := .recived msg, received := s.response.received + 1 } } := by
  refine ⟨hopen, ?_, h.resend, nofun, fun _ => trivial, fun hc => ?_, h.allSent, h.ended⟩
  · have hcount := h.recieve
    rw [hread] at hcount
    simpa [ReadPhase.uncounted] using hcount
  · have hover := h.isOver hc
    rw [hread] at hover
    exact hover.elim

theorem Counts.countRequest (h : s.Counts) {msg : M} (hread : s.request.read = .recived msg)
    (val : ℤ) :
    Counts { s with
      sync := s.sync.incrementRecieve
      request := { s.request with read := .counted msg val } } := by
  refine ⟨h.arrives, ?_, h.resend, h.last, h.allRead, h.isOver, h.allSent, h.ended⟩
  have hcount := h.recieve
  rw [hread] at hcount
  simp only [SyncRedirection.incrementRecieve, hcount, int32_succ]
  congr 1
  simp only [ReadPhase.uncounted]
  omega

theorem Counts.countResponse (h : s.Counts) (hsound : ∀ type, (s.call type).Sound) {msg : M}
    (hread : s.response.read = .recived msg) :
    Counts { s with
      sync := s.sync.decrementRecieve
      response := { s.response with
        read := .counted msg s.sync.decrementRecieve.syncMsgCountRecieve } } := by
  have hval : s.sync.decrementRecieve.syncMsgCountRecieve =
      int32 ((s.request.received - s.request.read.uncounted : ℤ) - s.response.received) := by
    have hcount := h.recieve
    rw [hread] at hcount
    simp only [SyncRedirection.decrementRecieve, hcount, int32_sub_one]
    congr 1
    simp only [ReadPhase.uncounted]
    omega
  refine ⟨h.arrives, ?_, h.resend, nofun, fun ha => ?_, fun hc => ?_, h.allSent, h.ended⟩
  · rw [hval]
    simp only [ReadPhase.uncounted, Nat.cast_zero, sub_zero]
  · have hrequest : s.request.written + s.request.read.inHand ≤ s.request.received :=
      (hsound .request).written_le
    have harrives := h.arrives
    have hall : s.response.received = s.request.received := ha.2
    have huncounted : s.request.read.uncounted ≤ s.request.read.inHand := by
      cases s.request.read <;> simp [ReadPhase.uncounted, ReadPhase.inHand]
    change s.sync.decrementRecieve.syncMsgCountRecieve = 0
    rw [hval, show (s.request.received - s.request.read.uncounted : ℤ) - s.response.received = 0
      by omega]
    decide
  · have hover := h.isOver hc
    rw [hread] at hover
    exact hover.elim

theorem Counts.lastRequest (h : s.Counts) (hsound : ∀ type, (s.call type).Sound) {msg : M} {val : ℤ}
    (hread : s.request.read = .counted msg val) :
    Counts { s with
      sync := { s.sync with isRecievingClientToOriginCompleted := true }
      request := { s.request with read := .complete msg } } := by
  have hrequest : s.request.written + s.request.read.inHand ≤ s.request.received :=
    (hsound .request).written_le
  have hresponse : s.response.written + s.response.read.inHand ≤ s.response.received :=
    (hsound .response).written_le
  have harrives := h.arrives
  rw [hread] at hrequest
  change s.request.written + 1 ≤ s.request.received at hrequest
  refine ⟨h.arrives, ?_, h.resend, fun _ => rfl, fun ha => ?_, h.isOver, fun ha => ?_, h.ended⟩
  · have hcount := h.recieve
    rw [hread] at hcount
    exact hcount
  · have hall : s.response.received = s.request.received := ha.2
    omega
  · have hall : s.response.written = s.request.received := ha.2
    omega

theorem Counts.readResponse (h : s.Counts) {msg : M} {val : ℤ}
    (hread : s.response.read = .counted msg val) (answer : Bool) :
    (s.readCounted msg val answer .response).Counts := by
  have hcount := h.recieve
  rw [hread] at hcount
  simp only [readCounted]
  by_cases hflag : s.sync.isRecievingClientToOriginCompleted = true
  · rw [if_pos hflag]
    refine ⟨h.arrives, ?_, h.resend, fun _ => hflag, fun ha => ?_, fun hc => ?_, h.allSent, h.ended⟩
    · dsimp only
      rw [hcount]
      split_ifs <;> rfl
    · have hzero := h.allRead ha
      rw [hread] at hzero
      change val = 0 at hzero
      dsimp only
      rw [if_pos hzero]
      exact decide_eq_true hzero
    · have hzero : val = 0 := of_decide_eq_true hc
      dsimp only
      rw [if_pos hzero]
      trivial
  · rw [if_neg hflag]
    refine ⟨h.arrives, hcount, h.resend, nofun, fun ha => absurd ha.1 hflag, fun hc => ?_,
      h.allSent, h.ended⟩
    have hover := h.isOver hc
    rw [hread] at hover
    exact hover.elim

/-! ### Messages that are sent -/

theorem Counts.writeRequest (h : s.Counts) {res : M} (hsend : s.request.send = .write res) :
    Counts { s with request := { s.request with
      send := .written res, written := s.request.written + 1 } } := by
  refine ⟨Nat.le_succ_of_le h.arrives, h.recieve, ?_, h.last, h.allRead, h.isOver, h.allSent, h.ended⟩
  have hcount := h.resend
  rw [hsend] at hcount
  simpa [SendPhase.uncounted] using hcount

theorem Counts.writeResponse (h : s.Counts) {res : M} (hsend : s.response.send = .write res) :
    Counts { s with response := { s.response with
      send := .written res, written := s.response.written + 1 } } := by
  refine ⟨h.arrives, h.recieve, ?_, h.last, h.allRead, h.isOver, fun _ => trivial, fun hc => ?_⟩
  · have hcount := h.resend
    rw [hsend] at hcount
    simpa [SendPhase.uncounted] using hcount
  · have hended := h.ended hc
    rw [hsend] at hended
    cases hended

theorem Counts.resendRequest (h : s.Counts) {res : M} (hsend : s.request.send = .written res) :
    Counts { s with
      sync := s.sync.incrementResend
      request := { s.request with send := .count res } } := by
  refine ⟨h.arrives, h.recieve, ?_, h.last, h.allRead, h.isOver, h.allSent, h.ended⟩
  have hcount := h.resend
  rw [hsend] at hcount
  simp only [SyncRedirection.incrementResend, hcount, int32_succ]
  congr 1
  simp only [SendPhase.uncounted]
  omega

/-- The last response brings the counter to zero if the last request has been counted. -/
theorem Counts.resendResponse (h : s.Counts) (hsound : ∀ type, (s.call type).Sound) {res : M}
    (hsend : s.response.send = .written res)
    (hturn : s.AllSent → s.request.send.uncounted = 0) :
    Counts { s with
      sync := s.sync.decrementResend
      response := { s.response with
        send := .resent res s.sync.decrementResend.syncMsgCountResend } } := by
  have hval : s.sync.decrementResend.syncMsgCountResend =
      int32 ((s.request.written - s.request.send.uncounted : ℤ) - s.response.written) := by
    have hcount := h.resend
    rw [hsend] at hcount
    simp only [SyncRedirection.decrementResend, hcount, int32_sub_one]
    congr 1
    simp only [SendPhase.uncounted]
    omega
  refine ⟨h.arrives, h.recieve, ?_, h.last, h.allRead, h.isOver, fun ha => ?_, fun hc => ?_⟩
  · rw [hval]
    simp only [SendPhase.uncounted, Nat.cast_zero, sub_zero]
  · have hrequest : s.request.written + s.request.read.inHand ≤ s.request.received :=
      (hsound .request).written_le
    have hresponse : s.response.written + s.response.read.inHand ≤ s.response.received :=
      (hsound .response).written_le
    have harrives := h.arrives
    have hall : s.response.written = s.request.received := ha.2
    have hcounted := hturn ha
    change s.sync.decrementResend.syncMsgCountResend = 0
    rw [hval, show (s.request.written - s.request.send.uncounted : ℤ) - s.response.written = 0
      by omega]
    decide
  · have hended := h.ended hc
    rw [hsend] at hended
    cases hended

theorem Counts.sendResent (h : s.Counts) {res : M} {val : ℤ}
    (hsend : s.response.send = .resent res val)
    (hturn : s.AllSent → s.sync.isResendingClientToOriginCompleted = true) :
    (s.sendResent res val).Counts := by
  have hcount := h.resend
  rw [hsend] at hcount
  simp only [HttpPipedIntermediary.sendResent]
  by_cases hflag : s.sync.isResendingClientToOriginCompleted = true
  · rw [if_pos hflag]
    refine ⟨h.arrives, h.recieve, ?_, h.last, h.allRead, h.isOver, fun ha => ?_, fun hc => ?_⟩
    · dsimp only
      rw [hcount]
      split_ifs <;> rfl
    · have hzero := h.allSent ha
      rw [hsend] at hzero
      change val = 0 at hzero
      dsimp only
      rw [if_pos hzero]
      exact decide_eq_true hzero
    · have hzero : val = 0 := of_decide_eq_true hc
      dsimp only
      rw [if_pos hzero]
  · rw [if_neg hflag]
    refine ⟨h.arrives, h.recieve, hcount, h.last, h.allRead, h.isOver,
      fun ha => absurd (hturn ha) hflag, fun hc => ?_⟩
    have hended := h.ended hc
    rw [hsend] at hended
    cases hended

end Steps

end HttpPipedIntermediary

end DecodingProxy.Piped
